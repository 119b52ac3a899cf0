/-
  Putty.Terminal.Print — printing what the session sends, in print-only mode
  (`term_print_flush`, `term_print_finish` and the loop of `term_out` in `terminal.c`).

  Every byte goes into a buffer, of which all but five bytes are passed to the print job
  whenever the terminal has dealt with a read. A small state machine looks for the end of
  printing, ESC [ 4 i or CSI 4 i; when it is found, the five bytes that are left are passed
  on up to the first ESC or CSI among them.

  The end of printing has four bytes or three, so one or two bytes of what was to be
  printed are among the five. If one of them is an ESC or CSI itself, it and what follows is
  taken for the end (`printed_iff`).
-/

import Mathlib.Data.List.TakeWhile
import Putty.Utils.Bufchain

namespace Putty.Terminal.Print

open Putty.Utils

/-- What the terminal knows about printing; `job` has been passed to the print job. -/
structure Printer where
  printing : Bool
  onlyPrinting : Bool
  printState : Nat
  printerBuf : Bufchain
  job : List UInt8

/-- From `term_print_setup` on. -/
def setup : Printer := ⟨true, true, 0, [], []⟩

/-- The loop of `term_print_flush`; `none` is a crash. -/
def flushLoop : Nat → Bufchain → List UInt8 → Option (Bufchain × List UInt8)
  | 0, _, _ => none
  | fuel + 1, buf, job =>
    let size := bufchainSize buf
    if size > 5 then
      match bufchainPrefix buf with
      | none => none
      | some data =>
        let data := data.take (size - 5)
        (bufchainConsume buf data.length).bind fun buf => flushLoop fuel buf (job ++ data)
    else some (buf, job)

def termPrintFlush (term : Printer) : Option Printer :=
  (flushLoop (bufchainSize term.printerBuf + 1) term.printerBuf term.job).map fun (printerBuf, job) =>
    { term with printerBuf, job }

/-- ESC or CSI. -/
def isEscape (c : UInt8) : Bool := c == 27 || c == 155

/-- The loop of `term_print_finish`. -/
def finishLoop : Nat → Bufchain → List UInt8 → Option (Bufchain × List UInt8)
  | 0, _, _ => none
  | fuel + 1, buf, job =>
    let size := bufchainSize buf
    if size > 0 then
      match bufchainPrefix buf with
      | none | some [] => none
      | some (c :: _) =>
        if isEscape c then (bufchainConsume buf size).map fun buf => (buf, job)
        else (bufchainConsume buf 1).bind fun buf => finishLoop fuel buf (job ++ [c])
    else some (buf, job)

def termPrintFinish (term : Printer) : Option Printer :=
  if !term.printing && !term.onlyPrinting then some term
  else
    (termPrintFlush term).bind fun term =>
      (finishLoop (bufchainSize term.printerBuf + 1) term.printerBuf term.job).map fun (printerBuf, job) =>
        { term with printerBuf, job, printing := false, onlyPrinting := false }

/-- The state machine that looks for the end of printing. -/
def nextState (printState : Nat) (c : UInt8) : Nat :=
  if c = 27 then 1
  else if c = 155 then 2
  else if c = 91 ∧ printState = 1 then 2
  else if c = 52 ∧ printState = 2 then 3
  else if c = 105 ∧ printState = 3 then 4
  else 0

/-- The loop of `term_out` for a byte in print-only mode. -/
def printChar (term : Printer) (c : UInt8) : Option Printer :=
  let term := { term with
    printerBuf := bufchainAdd term.printerBuf [c]
    printState := nextState term.printState c }
  if term.printState = 4 then termPrintFinish term else some term

/-- `term_out` for what was received together, as far as print-only mode lasts. -/
def termOut : Printer → List UInt8 → Option Printer
  | term, [] => termPrintFlush term
  | term, c :: chars =>
    if term.printing && term.onlyPrinting then (printChar term c).bind fun term => termOut term chars else some term

/-! ## The end of printing -/

def Terminator (t : List UInt8) : Prop := t = [27, 91, 52, 105] ∨ t = [155, 52, 105]

def Ends (p : List UInt8) : Prop := ∃ d t, Terminator t ∧ p = d ++ t

/-- The state after some bytes. -/
def scan (p : List UInt8) : Nat := p.foldl nextState 0

theorem scan_snoc (p : List UInt8) (c : UInt8) : scan (p ++ [c]) = nextState (scan p) c := by simp [scan]

theorem nextState_one {n : Nat} {c : UInt8} : nextState n c = 1 ↔ c = 27 := by
  unfold nextState
  split_ifs <;> simp_all

theorem nextState_two {n : Nat} {c : UInt8} : nextState n c = 2 ↔ c = 155 ∨ c = 91 ∧ n = 1 := by
  unfold nextState
  split_ifs <;> simp_all

theorem nextState_three {n : Nat} {c : UInt8} : nextState n c = 3 ↔ c = 52 ∧ n = 2 := by
  unfold nextState
  split_ifs <;> simp_all

theorem nextState_four {n : Nat} {c : UInt8} : nextState n c = 4 ↔ c = 105 ∧ n = 3 := by
  unfold nextState
  split_ifs <;> simp_all

theorem scan_eq_iff {p : List UInt8} {n : Nat} (hn : n ≠ 0) :
    scan p = n ↔ ∃ q c, p = q ++ [c] ∧ nextState (scan q) c = n := by
  constructor
  · intro h
    rcases List.eq_nil_or_concat p with rfl | ⟨q, c, rfl⟩
    · exact absurd h.symm hn
    · exact ⟨q, c, List.concat_eq_append, by rw [← h, List.concat_eq_append, scan_snoc]⟩
  · rintro ⟨q, c, rfl, h⟩
    rw [scan_snoc, h]

theorem scan_two {p : List UInt8} : scan p = 2 ↔ ∃ d t, (t = [27, 91] ∨ t = [155]) ∧ p = d ++ t := by
  rw [scan_eq_iff (by decide)]
  constructor
  · rintro ⟨q, c, rfl, hc⟩
    rcases nextState_two.mp hc with rfl | ⟨rfl, hq⟩
    · exact ⟨q, _, Or.inr rfl, rfl⟩
    · obtain ⟨d, c, rfl, hlast⟩ := (scan_eq_iff (by decide)).mp hq
      obtain rfl := nextState_one.mp hlast
      exact ⟨d, _, Or.inl rfl, by simp⟩
  · rintro ⟨d, t, rfl | rfl, rfl⟩
    · refine ⟨d ++ [27], 91, by simp, nextState_two.mpr (Or.inr ⟨rfl, ?_⟩)⟩
      rw [scan_snoc, nextState_one]
    · exact ⟨d, 155, rfl, nextState_two.mpr (Or.inl rfl)⟩

/-- The state machine finds the end of printing. -/
theorem scan_four {p : List UInt8} : scan p = 4 ↔ Ends p := by
  rw [scan_eq_iff (by decide)]
  constructor
  · rintro ⟨q, c, rfl, hc⟩
    obtain ⟨rfl, hq⟩ := nextState_four.mp hc
    obtain ⟨q, c, rfl, hlast⟩ := (scan_eq_iff (by decide)).mp hq
    obtain ⟨rfl, htwo⟩ := nextState_three.mp hlast
    obtain ⟨d, t, rfl | rfl, rfl⟩ := scan_two.mp htwo
    · exact ⟨d, _, Or.inl rfl, by simp⟩
    · exact ⟨d, _, Or.inr rfl, by simp⟩
  · rintro ⟨d, t, ht, rfl⟩
    have hthree (s : List UInt8) (hs : s = [27, 91] ∨ s = [155]) : scan (d ++ s ++ [52]) = 3 := by
      rw [scan_snoc, nextState_three]
      exact ⟨rfl, scan_two.mpr ⟨d, s, hs, rfl⟩⟩
    rcases ht with rfl | rfl
    · exact ⟨d ++ [27, 91] ++ [52], 105, by simp, nextState_four.mpr ⟨rfl, hthree _ (Or.inl rfl)⟩⟩
    · exact ⟨d ++ [155] ++ [52], 105, by simp, nextState_four.mpr ⟨rfl, hthree _ (Or.inr rfl)⟩⟩

/-! ## What is passed on -/

/-- All but the last five bytes, and of these what comes before an escape character. -/
def passedOn (p : List UInt8) : List UInt8 :=
  p.take (p.length - 5) ++ (p.drop (p.length - 5)).takeWhile fun c => !isEscape c

theorem flushLoop_spec (fuel : Nat) : ∀ (buf : Bufchain) (job : List UInt8), bufchainSize buf < fuel →
    ∃ buf', flushLoop fuel buf job = some (buf', job ++ (bytes buf).take (bufchainSize buf - 5)) ∧
      bytes buf' = (bytes buf).drop (bufchainSize buf - 5) := by
  induction fuel with
  | zero => intro buf job h; omega
  | succ fuel ih =>
    intro buf job h
    rw [flushLoop]
    by_cases h5 : bufchainSize buf > 5
    · have hsome : 0 < bufchainSize buf := by omega
      obtain ⟨data, hdata, hne, post, hpost⟩ := bytes_bufchainPrefix hsome
      have hpos : 0 < data.length := List.length_pos_iff.mpr hne
      have hle : data.length ≤ bufchainSize buf := by rw [bufchainSize_eq, ← hpost]; simp
      obtain ⟨k, hk⟩ : ∃ k, (data.take (bufchainSize buf - 5)).length = k := ⟨_, rfl⟩
      have hmin : k = min (bufchainSize buf - 5) data.length := by rw [← hk, List.length_take]
      have htaken : data.take (bufchainSize buf - 5) = (bytes buf).take k := by
        rw [hmin, ← hpost, List.take_append_of_le_length (Nat.min_le_right _ _), ← List.take_eq_take_min]
      obtain ⟨buf', hbuf', hbytes'⟩ := bufchainConsume_spec buf k (by omega)
      have hsize' : bufchainSize buf' = bufchainSize buf - k := by
        rw [bufchainSize_eq, hbytes', List.length_drop, bufchainSize_eq]
      have hsplit : bufchainSize buf - 5 = k + (bufchainSize buf' - 5) := by omega
      obtain ⟨buf'', hloop, hbytes''⟩ := ih buf' (job ++ (bytes buf).take k) (by omega)
      refine ⟨buf'', ?_, ?_⟩
      · simp only [h5, if_true, hdata, hk, hbuf', Option.bind_some]
        rw [htaken, hloop, hbytes', hsplit, List.take_add, List.append_assoc]
      · rw [hbytes'', hbytes', List.drop_drop, hsplit]
    · have hzero : bufchainSize buf - 5 = 0 := by omega
      simp only [h5, if_false, hzero]
      exact ⟨buf, by simp, by simp⟩

theorem finishLoop_spec (fuel : Nat) : ∀ (buf : Bufchain) (job : List UInt8), bufchainSize buf < fuel →
    finishLoop fuel buf job = some ([], job ++ (bytes buf).takeWhile fun c => !isEscape c) := by
  induction fuel with
  | zero => intro buf job h; omega
  | succ fuel ih =>
    intro buf job h
    rw [finishLoop]
    by_cases h0 : bufchainSize buf > 0
    · obtain ⟨data, hdata, hne, post, hpost⟩ := bytes_bufchainPrefix h0
      obtain ⟨c, data, rfl⟩ := List.exists_cons_of_ne_nil hne
      have hbytes : bytes buf = c :: (data ++ post) := hpost.symm
      simp only [h0, if_true, hdata]
      by_cases hc : isEscape c = true
      · obtain ⟨buf', hbuf', hbytes'⟩ := bufchainConsume_spec buf (bufchainSize buf) (Nat.le_refl _)
        have hnil : buf' = [] := by
          rw [← bufchainSize_eq_zero, bufchainSize_eq, hbytes', bufchainSize_eq, List.drop_length, List.length_nil]
        rw [if_pos hc, hbuf', hbytes, List.takeWhile_cons_of_neg (by simp [hc]), List.append_nil, hnil]
        rfl
      · obtain ⟨buf', hbuf', hbytes'⟩ := bufchainConsume_spec buf 1 h0
        have hsize' : bufchainSize buf' = bufchainSize buf - 1 := by
          rw [bufchainSize_eq, hbytes', List.length_drop, bufchainSize_eq]
        rw [if_neg hc, hbuf', Option.bind_some, ih buf' (job ++ [c]) (by omega), hbytes', hbytes,
          List.takeWhile_cons_of_pos (p := fun c => !isEscape c) (by simpa using hc)]
        simp
    · obtain rfl : buf = [] := bufchainSize_eq_zero.mp (by omega)
      simp

/-! ## From byte to byte -/

/-- The state after the bytes `p`, with printing not ended yet. -/
structure Holds (term : Printer) (p : List UInt8) : Prop where
  printing : term.printing = true
  onlyPrinting : term.onlyPrinting = true
  state : term.printState = scan p
  bytes : term.job ++ bytes term.printerBuf = p
  /-- Five bytes are held back. -/
  kept : term.job = [] ∨ 5 ≤ bufchainSize term.printerBuf

theorem holds_setup : Holds setup [] := ⟨rfl, rfl, rfl, rfl, Or.inl rfl⟩

/-- After a flush all but five bytes are passed on. -/
theorem flush_parts {term : Printer} {p : List UInt8} (hbytes : term.job ++ bytes term.printerBuf = p)
    (hkept : term.job = [] ∨ 5 ≤ bufchainSize term.printerBuf) :
    ∃ buf, termPrintFlush term = some { term with printerBuf := buf, job := p.take (p.length - 5) } ∧
      bytes buf = p.drop (p.length - 5) := by
  obtain ⟨buf, hflush, hbuf⟩ := flushLoop_spec _ term.printerBuf term.job (Nat.lt_succ_self _)
  have hlen : p.length = term.job.length + bufchainSize term.printerBuf := by
    rw [← hbytes, List.length_append, bufchainSize_eq]
  have hsub : p.length - 5 = term.job.length + (bufchainSize term.printerBuf - 5) := by
    rcases hkept with h | h
    · rw [hlen, h, List.length_nil]
      omega
    · omega
  have hjob : term.job ++ (bytes term.printerBuf).take (bufchainSize term.printerBuf - 5) = p.take (p.length - 5) := by
    rw [hsub, ← hbytes, List.take_length_add_append]
  refine ⟨buf, by rw [termPrintFlush, hflush, hjob]; rfl, ?_⟩
  rw [hbuf, hsub, ← hbytes, List.drop_length_add_append]

theorem flush_holds {term : Printer} {p : List UInt8} (h : Holds term p) :
    ∃ term', termPrintFlush term = some term' ∧ Holds term' p := by
  obtain ⟨buf, hflush, hbuf⟩ := flush_parts h.bytes h.kept
  refine ⟨_, hflush, h.printing, h.onlyPrinting, h.state, ?_, ?_⟩
  · show p.take (p.length - 5) ++ bytes buf = p
    rw [hbuf, List.take_append_drop]
  · show p.take (p.length - 5) = [] ∨ 5 ≤ bufchainSize buf
    rw [bufchainSize_eq, hbuf, List.length_drop]
    by_cases h5 : p.length ≤ 5
    · exact Or.inl (by rw [Nat.sub_eq_zero_of_le h5, List.take_zero])
    · exact Or.inr (by omega)

/-- What `printChar` does before it looks at the state. -/
theorem held_add {term : Printer} {p : List UInt8} (h : Holds term p) (c : UInt8) :
    Holds { term with
      printerBuf := bufchainAdd term.printerBuf [c]
      printState := nextState term.printState c } (p ++ [c]) where
  printing := h.printing
  onlyPrinting := h.onlyPrinting
  state := by rw [scan_snoc, ← h.state]
  bytes := by rw [bytes_bufchainAdd, ← List.append_assoc, h.bytes]
  kept := by
    rw [bufchainSize_bufchainAdd]
    exact h.kept.imp id fun h5 => Nat.le_add_right_of_le h5

theorem printChar_holds {term : Printer} {p : List UInt8} (h : Holds term p) {c : UInt8} (hc : ¬ Ends (p ++ [c])) :
    ∃ term', printChar term c = some term' ∧ Holds term' (p ++ [c]) := by
  refine ⟨_, if_neg ?_, held_add h c⟩
  show ¬ nextState term.printState c = 4
  rwa [h.state, ← scan_snoc, scan_four]

/-- Printing has ended. -/
structure Ended (term : Printer) (job : List UInt8) : Prop where
  printing : term.printing = false
  printerBuf : term.printerBuf = []
  job : term.job = job

theorem printChar_ends {term : Printer} {p : List UInt8} (h : Holds term p) {c : UInt8} (hc : Ends (p ++ [c])) :
    ∃ term', printChar term c = some term' ∧ Ended term' (passedOn (p ++ [c])) := by
  have hadd := held_add h c
  obtain ⟨buf, hflush, hbuf⟩ := flush_parts hadd.bytes hadd.kept
  have hfinish := finishLoop_spec _ buf ((p ++ [c]).take ((p ++ [c]).length - 5)) (Nat.lt_succ_self _)
  rw [hbuf] at hfinish
  have hstate : nextState term.printState c = 4 := by rwa [h.state, ← scan_snoc, scan_four]
  refine ⟨⟨false, false, nextState term.printState c, [], passedOn (p ++ [c])⟩, ?_, rfl, rfl, rfl⟩
  unfold printChar
  rw [if_pos hstate, termPrintFinish, if_neg (by simp [h.printing]), hflush, Option.bind_some, hfinish]
  rfl

/-! ## From read to read -/

/-- A read in which printing does not end. -/
theorem termOut_holds (chars : List UInt8) : ∀ {term : Printer} {p : List UInt8}, Holds term p →
    (∀ q, q <+: chars → q ≠ [] → ¬ Ends (p ++ q)) → ∃ term', termOut term chars = some term' ∧ Holds term' (p ++ chars) := by
  induction chars with
  | nil =>
    intro term p h _
    rw [List.append_nil]
    exact flush_holds h
  | cons c chars ih =>
    intro term p h hends
    obtain ⟨term', hchar, hholds⟩ := printChar_holds h (hends [c] ⟨chars, rfl⟩ (by simp))
    obtain ⟨term'', hout, hholds'⟩ := ih hholds fun q hq hne => by
      rw [List.append_assoc]
      exact hends (c :: q) (List.cons_prefix_cons.mpr ⟨rfl, hq⟩) (by simp)
    refine ⟨term'', ?_, by simpa using hholds'⟩
    rw [termOut, if_pos (by rw [h.printing, h.onlyPrinting]; rfl), hchar, Option.bind_some, hout]

theorem termOut_ended {term : Printer} {job : List UInt8} (h : Ended term job) (chars : List UInt8) :
    termOut term chars = some term := by
  cases chars with
  | nil =>
    obtain ⟨printing, only, state, buf, out⟩ := term
    obtain rfl : buf = [] := h.printerBuf
    rfl
  | cons c chars => rw [termOut, if_neg (by simp [h.printing])]

/-- A read in which printing ends. -/
theorem termOut_ends (chars after : List UInt8) : ∀ {term : Printer} {p : List UInt8}, Holds term p → chars ≠ [] →
    Ends (p ++ chars) → (∀ q, q <+: chars → q ≠ [] → q ≠ chars → ¬ Ends (p ++ q)) →
    ∃ term', termOut term (chars ++ after) = some term' ∧ Ended term' (passedOn (p ++ chars)) := by
  induction chars with
  | nil => intro term p h hne; exact absurd rfl hne
  | cons c chars ih =>
    intro term p h _ hend hfirst
    have hstep (term' : Printer) (hchar : printChar term c = some term') :
        termOut term (c :: chars ++ after) = termOut term' (chars ++ after) := by
      rw [List.cons_append, termOut, if_pos (by rw [h.printing, h.onlyPrinting]; rfl), hchar, Option.bind_some]
    by_cases hnil : chars = []
    · subst hnil
      obtain ⟨term', hchar, hended⟩ := printChar_ends h hend
      exact ⟨term', by rw [hstep _ hchar, List.nil_append, termOut_ended hended], hended⟩
    · obtain ⟨term', hchar, hholds⟩ := printChar_holds h (hfirst [c] ⟨chars, rfl⟩ (by simp) (by simpa using Ne.symm hnil))
      obtain ⟨term'', hout, hended⟩ := ih hholds hnil (by simpa using hend) fun q hq hne hqne => by
        rw [List.append_assoc]
        exact hfirst (c :: q) (List.cons_prefix_cons.mpr ⟨rfl, hq⟩) (by simp) (by simpa using hqne)
      exact ⟨term'', by rw [hstep _ hchar, hout], by simpa using hended⟩

theorem reads_ended {term : Printer} {job : List UInt8} (h : Ended term job) (reads : List (List UInt8)) :
    reads.foldlM termOut term = some term := by
  induction reads with
  | nil => rfl
  | cons read reads ih =>
    rw [List.foldlM_cons, termOut_ended h]
    exact ih

/-- Printing ends behind `p ++ chars`, and nowhere before. -/
theorem reads_end (reads : List (List UInt8)) : ∀ {term : Printer} {p chars after : List UInt8}, Holds term p → chars ≠ [] →
    Ends (p ++ chars) → (∀ q, q <+: chars → q ≠ [] → q ≠ chars → ¬ Ends (p ++ q)) → reads.flatten = chars ++ after →
    ∃ term', reads.foldlM termOut term = some term' ∧ Ended term' (passedOn (p ++ chars)) := by
  induction reads with
  | nil =>
    intro term p chars after _ hne _ _ hreads
    exact absurd (List.append_eq_nil_iff.mp hreads.symm).1 hne
  | cons read reads ih =>
    intro term p chars after h hne hend hfirst hreads
    by_cases hin : ∃ rest, read = chars ++ rest
    · obtain ⟨rest, rfl⟩ := hin
      obtain ⟨term', hout, hended⟩ := termOut_ends chars rest h hne hend hfirst
      refine ⟨term', ?_, hended⟩
      rw [List.foldlM_cons, hout]
      exact reads_ended hended reads
    · rw [List.flatten_cons] at hreads
      rcases List.append_eq_append_iff.mp hreads with ⟨rest, rfl, hrest⟩ | ⟨rest, hrest, -⟩
      · have hnil : rest ≠ [] := fun h => hin ⟨[], by rw [h]; simp⟩
        obtain ⟨term', hout, hholds⟩ := termOut_holds read h fun q hq hqne =>
          hfirst q (hq.trans (List.prefix_append _ _)) hqne fun he => by
            have := hq.length_le
            have := List.length_pos_iff.mpr hnil
            rw [he, List.length_append] at *
            omega
        obtain ⟨term'', hloop, hended⟩ := ih hholds hnil (by simpa using hend) (fun q hq hqne hqr => by
          rw [List.append_assoc]
          refine hfirst (read ++ q) ((List.prefix_append_right_inj read).mpr hq) (by simp [hqne]) ?_
          exact fun he => hqr (List.append_cancel_left he)) hrest
        refine ⟨term'', ?_, by simpa using hended⟩
        rw [List.foldlM_cons, hout]
        exact hloop
      · exact absurd ⟨rest, hrest⟩ hin

/-! ## What was printed -/

theorem terminator_head {t : List UInt8} (h : Terminator t) : ∃ c cs, t = c :: cs ∧ isEscape c = true ∧ t.length ≤ 4 := by
  rcases h with rfl | rfl
  · exact ⟨27, _, rfl, rfl, by decide⟩
  · exact ⟨155, _, rfl, rfl, by decide⟩

/-- All that came before the end is passed on exactly when its bytes that are among the
    last five are no escape characters. -/
theorem passedOn_iff {d t : List UInt8} (ht : Terminator t) :
    passedOn (d ++ t) = d ↔ ∀ c ∈ d.drop (d.length - (5 - t.length)), isEscape c = false := by
  obtain ⟨c, cs, hcons, hc, hlen⟩ := terminator_head ht
  obtain ⟨k, hk⟩ : ∃ k, d.length - (5 - t.length) = k := ⟨_, rfl⟩
  have hk' : (d ++ t).length - 5 = k := by
    rw [List.length_append]
    omega
  have hkd : k ≤ d.length := by omega
  rw [passedOn, hk', hk, List.take_append_of_le_length hkd, List.drop_append_of_le_length hkd]
  have hstop (l : List UInt8) : (l ++ t).takeWhile (fun c => !isEscape c) = l ↔ ∀ c ∈ l, isEscape c = false := by
    constructor
    · intro h c hcl
      rw [← h] at hcl
      simpa using List.mem_takeWhile_imp hcl
    · intro h
      have hall : ∀ c ∈ l, (fun c => !isEscape c) c = true := fun c hcl => by simp [h c hcl]
      rw [List.takeWhile_append_of_pos hall, hcons, List.takeWhile_cons_of_neg (by simp [hc]), List.append_nil]
  rw [← hstop]
  constructor
  · intro h
    exact List.append_cancel_left (h.trans (List.take_append_drop k d).symm)
  · intro h
    rw [h, List.take_append_drop]

/-- `d` is printed, all of it and nothing else, exactly when no ESC or CSI is among its last
    byte or two, those that are held back together with the end of printing `t`. -/
theorem printed_iff {d t after : List UInt8} {reads : List (List UInt8)} (ht : Terminator t)
    (hfirst : ∀ p, p <+: d ++ t → p ≠ d ++ t → ¬ Ends p) (hreads : reads.flatten = d ++ t ++ after) :
    ∃ term, reads.foldlM termOut setup = some term ∧ term.printing = false ∧
      (term.job = d ↔ ∀ c ∈ d.drop (d.length - (5 - t.length)), isEscape c = false) := by
  have hne : d ++ t ≠ [] := by
    obtain ⟨c, cs, rfl, -⟩ := terminator_head ht
    simp
  obtain ⟨term, hrun, hended⟩ := reads_end reads holds_setup hne ⟨d, t, ht, rfl⟩ (fun q hq _ hqne => hfirst q hq hqne) hreads
  refine ⟨term, hrun, hended.printing, ?_⟩
  rw [hended.job]
  exact passedOn_iff ht

/-- A short stream: which of its beginnings end printing is seen from the state machine. -/
theorem first_of_states {s : List UInt8} (h : ∀ n < s.length, scan (s.take n) ≠ 4) :
    ∀ p, p <+: s → p ≠ s → ¬ Ends p := by
  intro p hp hne hends
  have hlt : p.length < s.length := lt_of_le_of_ne hp.length_le fun he => hne (hp.eq_of_length he)
  refine h p.length hlt ?_
  rw [← List.prefix_iff_eq_take.mp hp]
  exact scan_four.mpr hends

/-- The letter A and ESC [ 4 i in three reads. -/
theorem letter_printed :
    ∃ term, [[65, 27], [91], [52, 105, 66]].foldlM termOut setup = some term ∧ term.printing = false ∧
      (term.job = [65] ↔ ∀ c ∈ [(65 : UInt8)].drop (1 - (5 - 4)), isEscape c = false) :=
  printed_iff (d := [65]) (t := [27, 91, 52, 105]) (Or.inl rfl) (first_of_states (by decide)) rfl

/-- An ESC as the last byte before ESC [ 4 i. -/
theorem escape_lost : ¬ ∀ (d t after : List UInt8) (reads : List (List UInt8)), Terminator t →
    (∀ p, p <+: d ++ t → p ≠ d ++ t → ¬ Ends p) → reads.flatten = d ++ t ++ after → ∃ term, reads.foldlM termOut setup = some term ∧ term.job = d := by
  intro h
  obtain ⟨term, hrun, hjob⟩ := h [27] [27, 91, 52, 105] [] [[27, 27, 91, 52, 105]] (Or.inl rfl) (first_of_states (by decide)) rfl
  have hnil : ([[27, 27, 91, 52, 105]].foldlM termOut setup).map (·.job) = some [] := by decide
  rw [hrun] at hnil
  cases hjob.symm.trans (Option.some.inj hnil)

end Putty.Terminal.Print
