/-
  Putty.Scp.Stream — what the sink makes of the client's bytes, one at a time.

  `byteStep` is the sink of a client that sends single bytes, and `settle` takes it past
  the places where it waits for none. Proved: whatever the pieces in which the bytes come
  and the granules they lie in, a session ends as the bytes one by one do
  (`session_eq_stream`), up to the offset of a write that failed (`normal`).
-/

import Putty.Scp.Sink

namespace Putty.Scp.Sink

open Putty.Utils Putty.Lib

variable {σ : Type}

/-- The coroutine up to where it needs a byte: a loop is entered, a file is complete. -/
def settle (c : Core σ) : Core σ :=
  match c.crState with
  | .start => { ack c with command := [], crState := .command }
  | .data => if c.fileOffset < c.fileSize then c else { c with crState := .trailer }
  | _ => c

/-- When all is done, the offset in the last file is of no use any more. -/
def normal (c : Core σ) : Core σ := if c.crState = .done then { c with fileOffset := 0 } else c

section Server

variable (srv : SftpServer σ)

def writeFailed (c : Core σ) (e : SftpError) : Core σ :=
  fail c (text "'" ++ mkstr c.filename ++ text "': unable to write to file: " ++ e.errmsg)

def dataByte (c : Core σ) (b : UInt8) : Core σ :=
  match srv.write c.sf c.handle c.fileOffset [b] with
  | (.error e, sf) => writeFailed { c with sf } e
  | (.ok (), sf) => settle { c with sf, fileOffset := c.fileOffset + 1 }

def commandByte (c : Core σ) (b : UInt8) : Option (Core σ) :=
  if b = 10 then (runCommand srv c).map settle else some { c with command := c.command ++ [b] }

/-- One byte of the client's. -/
def byteStep (c : Core σ) (b : UInt8) : Option (Core σ) :=
  match c.crState with
  | .start => none
  | .command => commandByte srv c b
  | .data => some (dataByte srv c b)
  | .trailer => some (settle { c with crState := .start })
  | .done => some c

def endAt (c : Core σ) : CrState → Core σ
  | .start | .command => finish c
  | .data | .trailer => finish (closeHandle srv c)
  | .done => c

/-- The client's EOF. -/
def endOfInput (c : Core σ) : Core σ := endAt srv { c with inputEof := true } c.crState

/-! ## The parts of a step -/

@[simp] theorem finish_crState (c : Core σ) : (finish c).crState = .done := by unfold finish; split <;> rfl

@[simp] theorem finish_inputEof (c : Core σ) : (finish c).inputEof = c.inputEof := by unfold finish; split <;> rfl

@[simp] theorem fail_crState (c : Core σ) (msg : List UInt8) : (fail c msg).crState = .done := finish_crState _

@[simp] theorem fail_inputEof (c : Core σ) (msg : List UInt8) : (fail c msg).inputEof = c.inputEof := finish_inputEof _

theorem settle_start {c : Core σ} (h : c.crState = .start) : settle c = { ack c with command := [], crState := .command } := by
  rw [settle, h]

theorem settle_done {c : Core σ} (h : c.crState = .done) : settle c = c := by rw [settle, h]

theorem settle_command {c : Core σ} (h : c.crState = .command) : settle c = c := by rw [settle, h]

theorem settle_trailer {c : Core σ} (h : c.crState = .trailer) : settle c = c := by rw [settle, h]

theorem settle_data {c : Core σ} (h : c.crState = .data) (hlt : c.fileOffset < c.fileSize) : settle c = c := by
  rw [settle, h]
  exact if_pos hlt

theorem settle_complete {c : Core σ} (h : c.crState = .data) (hle : ¬ c.fileOffset < c.fileSize) :
    settle c = { c with crState := .trailer } := by
  rw [settle, h]
  exact if_neg hle

/-- A settled sink is in one of the loops, with something left to read, or done. -/
inductive Settled (c : Core σ) : Prop where
  | command (h : c.crState = .command)
  | data (h : c.crState = .data) (hlt : c.fileOffset < c.fileSize)
  | trailer (h : c.crState = .trailer)
  | done (h : c.crState = .done)

theorem settled_settle (c : Core σ) : Settled (settle c) := by
  cases h : c.crState with
  | start =>
    rw [settle, h]
    exact .command rfl
  | command =>
    rw [settle_command h]
    exact .command h
  | data =>
    by_cases hlt : c.fileOffset < c.fileSize
    · rw [settle_data h hlt]
      exact .data h hlt
    · rw [settle_complete h hlt]
      exact .trailer rfl
  | trailer =>
    rw [settle_trailer h]
    exact .trailer h
  | done =>
    rw [settle_done h]
    exact .done h

theorem Settled.settle_eq {c : Core σ} (h : Settled c) : settle c = c := by
  cases h with
  | command h => exact settle_command h
  | data h hlt => exact settle_data h hlt
  | trailer h => exact settle_trailer h
  | done h => exact settle_done h

@[simp] theorem settle_inputEof (c : Core σ) : (settle c).inputEof = c.inputEof := by
  unfold settle
  split
  · rfl
  · split <;> rfl
  · rfl

theorem normal_done {c : Core σ} (h : c.crState = .done) : normal c = { c with fileOffset := 0 } := if_pos h

theorem normal_of_ne {c : Core σ} (h : c.crState ≠ .done) : normal c = c := if_neg h

/-- Two states that agree once done are both done, or the same. -/
theorem normal_eq {c d : Core σ} (h : normal c = normal d) : c.crState = .done ∧ d.crState = .done ∨ c = d := by
  by_cases hc : c.crState = .done
  · by_cases hd : d.crState = .done
    · exact .inl ⟨hc, hd⟩
    · rw [normal_done hc, normal_of_ne hd] at h
      rw [← h] at hd
      exact absurd hc hd
  · by_cases hd : d.crState = .done
    · rw [normal_of_ne hc, normal_done hd] at h
      rw [h] at hc
      exact absurd hd hc
    · rw [normal_of_ne hc, normal_of_ne hd] at h
      exact .inr h

/-! ## Bytes in a row -/

/-- The state, once done or not, after some bytes. -/
def after (c : Core σ) (data : List UInt8) : Option (Core σ) := (run (byteStep srv) (settle c) data).map normal

theorem run_done {c : Core σ} (h : c.crState = .done) (data : List UInt8) : run (byteStep srv) c data = some c := by
  induction data with
  | nil => rfl
  | cons b data ih =>
    rw [run_cons, byteStep, h]
    exact ih

theorem after_done {c : Core σ} (h : c.crState = .done) (data : List UInt8) : after srv c data = some (normal c) := by
  rw [after, settle_done h, run_done srv h]
  rfl

theorem after_nil (c : Core σ) : after srv c [] = some (normal (settle c)) := rfl

/-- What comes after depends on no more than the state once done or not. -/
theorem run_normal {c d : Core σ} (h : normal c = normal d) (data : List UInt8) :
    (run (byteStep srv) c data).map normal = (run (byteStep srv) d data).map normal := by
  rcases normal_eq h with ⟨hc, hd⟩ | rfl
  · rw [run_done srv hc, run_done srv hd, Option.map_some, Option.map_some, h]
  · rfl

theorem after_append (c : Core σ) (a b : List UInt8) :
    after srv c (a ++ b) = (run (byteStep srv) (settle c) a).bind fun d => (run (byteStep srv) d b).map normal := by
  rw [after, run_append]
  cases run (byteStep srv) (settle c) a <;> rfl

theorem byteStep_command {c : Core σ} (h : c.crState = .command) (b : UInt8) : byteStep srv c b = commandByte srv c b := by
  rw [byteStep, h]

theorem byteStep_data {c : Core σ} (h : c.crState = .data) (b : UInt8) : byteStep srv c b = some (dataByte srv c b) := by
  rw [byteStep, h]

theorem byteStep_trailer {c : Core σ} (h : c.crState = .trailer) (b : UInt8) :
    byteStep srv c b = some (settle { c with crState := .start }) := by
  unfold byteStep
  split
  · next h' => rw [h'] at h; cases h
  · next h' => rw [h'] at h; cases h
  · next h' => rw [h'] at h; cases h
  · rfl
  · next h' => rw [h'] at h; cases h

/-- Bytes of a command, but its newline. -/
theorem run_command {c : Core σ} (h : c.crState = .command) (data : List UInt8) (hd : 10 ∉ data) :
    run (byteStep srv) c data = some { c with command := c.command ++ data } := by
  induction data generalizing c with
  | nil => rw [List.append_nil]; rfl
  | cons b data ih =>
    rw [List.mem_cons, not_or] at hd
    have hstep : byteStep srv c b = some { c with command := c.command ++ [b] } := by
      rw [byteStep_command srv h, commandByte, if_neg (Ne.symm hd.1)]
    have hrest := ih (c := { c with command := c.command ++ [b] }) h hd.2
    rw [run_cons, hstep, Option.bind_some, hrest]
    simp

/-- A command's last bytes. -/
theorem run_newline {c : Core σ} (h : c.crState = .command) (data : List UInt8) (hd : 10 ∉ data) :
    run (byteStep srv) c (data ++ [10]) = (runCommand srv { c with command := c.command ++ data }).map settle := by
  have hstep : byteStep srv { c with command := c.command ++ data } 10 =
      (runCommand srv { c with command := c.command ++ data }).map settle := by
    rw [byteStep_command srv (c := { c with command := c.command ++ data }) h, commandByte, if_pos rfl]
  rw [run_snoc, run_command srv h data hd, Option.bind_some, hstep]

/-- Some bytes of a file's data, one by one, are one write of them all. -/
theorem run_data (data : List UInt8) (hne : data ≠ []) {c : Core σ} (h : c.crState = .data)
    (hle : c.fileOffset.toNat + data.length ≤ c.fileSize.toNat) :
    (run (byteStep srv) c data).map normal = some (normal
      (match srv.write c.sf c.handle c.fileOffset data with
      | (.error e, sf) => writeFailed { c with sf } e
      | (.ok (), sf) => settle { c with sf, fileOffset := c.fileOffset + UInt64.ofNat data.length })) := by
  induction data generalizing c with
  | nil => exact absurd rfl hne
  | cons b data ih =>
    have happend := srv.write_append c.sf c.handle c.fileOffset [b] data
    rw [List.singleton_append] at happend
    rw [run_cons, byteStep_data srv h, Option.bind_some, happend, dataByte]
    rcases srv.write c.sf c.handle c.fileOffset [b] with ⟨e | u, sf⟩
    · dsimp only
      rw [run_done srv (c := writeFailed { c with sf } e) (fail_crState _ _)]
      rfl
    · dsimp only [List.length_singleton]
      rw [List.length_cons] at hle
      have hone : c.fileOffset + UInt64.ofNat 1 = c.fileOffset + 1 := rfl
      rw [hone]
      by_cases hdata : data = []
      · subst hdata
        rw [srv.write_nil]
        rfl
      · have hpos := List.length_pos_iff.mpr hdata
        have hsize := c.fileSize.toNat_lt
        have hoff : (c.fileOffset + 1).toNat = c.fileOffset.toNat + 1 := by
          rw [UInt64.toNat_add, UInt64.toNat_one, Nat.mod_eq_of_lt (by omega)]
        have hsettle : settle { c with sf, fileOffset := c.fileOffset + 1 } =
            { c with sf, fileOffset := c.fileOffset + 1 } :=
          settle_data h (UInt64.lt_iff_toNat_lt.mpr (by dsimp only; omega))
        have hrest := ih hdata (c := { c with sf, fileOffset := c.fileOffset + 1 }) h (by dsimp only; omega)
        rw [hsettle, hrest]
        rcases srv.write sf c.handle (c.fileOffset + 1) data with ⟨e | u, sf⟩
        · rfl
        · have hlen : c.fileOffset + 1 + UInt64.ofNat data.length = c.fileOffset + UInt64.ofNat (b :: data).length := by
            rw [List.length_cons, UInt64.ofNat_add, UInt64.add_assoc, UInt64.add_comm 1]
            rfl
          dsimp only
          rw [hlen]

/-! ## One turn -/

theorem consume_spec {s : St σ} {len : Nat} (h : len ≤ (bytes s.data).length) :
    ∃ data, consume s len = some { s with data, consumed := s.consumed ++ (bytes s.data).take len } ∧
      bytes data = (bytes s.data).drop len := by
  obtain ⟨data, hc, hb⟩ := bufchainConsume_spec s.data len h
  exact ⟨data, by rw [consume, hc]; rfl, hb⟩

theorem line_prefix (data : List UInt8) : line data <+: data := by
  unfold line
  split
  · next h =>
    induction data with
    | nil => cases h
    | cons b data ih =>
      by_cases hb : b = 10
      · subst hb
        simp
      · have hmem : 10 ∈ data := (List.mem_cons.mp h).resolve_left (Ne.symm hb)
        rw [List.takeWhile_cons_of_pos (by simpa using hb), List.cons_append]
        exact List.cons_prefix_cons.mpr ⟨rfl, ih hmem⟩
  · exact List.prefix_refl data

theorem line_of_mem {data : List UInt8} (h : 10 ∈ data) : ∃ l, line data = l ++ [10] ∧ 10 ∉ l := by
  refine ⟨data.takeWhile (· ≠ 10), by rw [line, if_pos h], ?_⟩
  intro hmem
  have := List.all_eq_true.mp List.all_takeWhile 10 hmem
  simp at this

theorem line_of_not_mem {data : List UInt8} (h : 10 ∉ data) : line data = data := if_neg h

theorem line_ne_nil {data : List UInt8} (h : data ≠ []) : line data ≠ [] := by
  unfold line
  split
  · simp
  · exact h

/-! ## What a command does -/

/-- The parts of the state that a command may leave alone. -/
structure Kept (c c' : Core σ) : Prop where
  stack : c'.stack = c.stack
  unmatched : c'.unmatched = c.unmatched
  opened : c'.opened = c.opened
  closed : c'.closed = c.closed
  inputEof : c'.inputEof = c.inputEof

theorem Kept.refl (c : Core σ) : Kept c c := ⟨rfl, rfl, rfl, rfl, rfl⟩

theorem finish_kept (c : Core σ) : Kept c (finish c) := by
  unfold finish
  split
  · exact ⟨rfl, rfl, rfl, rfl, rfl⟩
  · exact ⟨rfl, rfl, rfl, rfl, rfl⟩

theorem fail_kept {c d : Core σ} (h : Kept c d) (msg : List UInt8) : Kept c (fail d msg) := by
  have hf := finish_kept { d with errmsg := some msg }
  exact ⟨hf.stack.trans h.stack, hf.unmatched.trans h.unmatched, hf.opened.trans h.opened, hf.closed.trans h.closed,
    hf.inputEof.trans h.inputEof⟩

@[simp] theorem finish_errmsg (c : Core σ) : (finish c).errmsg = c.errmsg := by unfold finish; split <;> rfl

@[simp] theorem fail_errmsg (c : Core σ) (msg : List UInt8) : (fail c msg).errmsg = some msg := finish_errmsg _

inductive Outcome (c c' : Core σ) : Prop where
  | failed (kept : Kept c c') (done : c'.crState = .done) (errmsg : c'.errmsg ≠ none)
  | times (kept : Kept c c') (start : c'.crState = .start)
  | entered (nonempty : c.stack ≠ []) (entry : StackEntry) (stack : c'.stack = entry :: c.stack) (unmatched : c'.unmatched = c.unmatched + 1)
      (opened : c'.opened = c.opened) (closed : c'.closed = c.closed) (inputEof : c'.inputEof = c.inputEof)
      (start : c'.crState = .start)
  | left (entry : StackEntry) (letter : c.command.head? = some 69) (stack : c.stack = entry :: c'.stack)
      (unmatched : c'.unmatched = c.unmatched - 1) (opened : c'.opened = c.opened) (closed : c'.closed = c.closed)
      (inputEof : c'.inputEof = c.inputEof) (start : c'.crState = .start)
  | opened (nonempty : c.stack ≠ []) (stack : c'.stack = c.stack) (unmatched : c'.unmatched = c.unmatched)
      (opened : c'.opened = c.opened ++ [c'.handle]) (closed : c'.closed = c.closed)
      (inputEof : c'.inputEof = c.inputEof) (data : c'.crState = .data) (offset : c'.fileOffset = 0)

theorem fail_outcome {c d : Core σ} (h : Kept c d) (msg : List UInt8) : Outcome c (fail d msg) :=
  .failed (fail_kept h msg) (fail_crState _ _) (by rw [fail_errmsg]; exact Option.some_ne_none _)

theorem mkdirCommand_outcome {c d : Core σ} (h : Kept c d) (hne : c.stack ≠ []) (filename : List UInt8) (attrs : FxpAttrs) :
    Outcome c (mkdirCommand srv d filename attrs) := by
  unfold mkdirCommand
  split
  · exact fail_outcome (by exact ⟨h.stack, h.unmatched, h.opened, h.closed, h.inputEof⟩) _
  · refine .entered hne ⟨filename, true⟩ ?_ ?_ h.opened h.closed h.inputEof rfl
    · rw [← h.stack]
      rfl
    · rw [← h.unmatched]
      rfl

theorem openCommand_outcome {c d : Core σ} (h : Kept c d) (hne : c.stack ≠ []) (filename : List UInt8) (attrs : FxpAttrs) :
    Outcome c (openCommand srv d filename attrs) := by
  unfold openCommand
  split
  · exact fail_outcome (by exact ⟨h.stack, h.unmatched, h.opened, h.closed, h.inputEof⟩) _
  · refine .opened hne h.stack h.unmatched ?_ h.closed h.inputEof rfl rfl
    rw [← h.opened]

theorem runCommand_outcome {c c' : Core σ} (h : runCommand srv c = some c') : Outcome c c' := by
  unfold runCommand at h
  split at h
  · cases h
    exact fail_outcome (Kept.refl c) _
  · next letter args hcommand =>
    split at h
    · split at h
      · cases h
        exact fail_outcome (Kept.refl c) _
      · cases h
        exact .times ⟨rfl, rfl, rfl, rfl, rfl⟩ rfl
    · split at h
      · split at h
        · cases h
          exact fail_outcome (Kept.refl c) _
        · split at h
          · cases h
          · next head rest hstack =>
            have hne : c.stack ≠ [] := by
              rw [hstack]
              exact List.cons_ne_nil _ _
            cases h
            split
            · exact mkdirCommand_outcome srv (by exact ⟨rfl, rfl, rfl, rfl, rfl⟩) hne _ _
            · exact openCommand_outcome srv (by exact ⟨rfl, rfl, rfl, rfl, rfl⟩) hne _ _
      · split at h
        · next hE =>
          split at h
          · cases h
            exact fail_outcome (Kept.refl c) _
          · next entry rest hstack =>
            cases h
            refine .left entry ?_ hstack rfl rfl rfl rfl rfl
            rw [hcommand, hE]
            rfl
        · cases h
          exact fail_outcome (Kept.refl c) _

/-- The destination of a file is taken from the top of the stack. -/
theorem runCommand_none {c : Core σ} (h : runCommand srv c = none) : c.stack = [] := by
  unfold runCommand at h
  split at h
  · cases h
  · split at h
    · split at h
      · cases h
      · cases h
    · split at h
      · split at h
        · cases h
        · split at h
          · assumption
          · cases h
      · split at h
        · split at h
          · cases h
          · cases h
        · cases h

theorem Outcome.inputEof_eq {c c' : Core σ} (h : Outcome c c') : c'.inputEof = c.inputEof := by
  cases h with
  | failed kept => exact kept.inputEof
  | times kept => exact kept.inputEof
  | entered nonempty entry stack unmatched opened closed inputEof => exact inputEof
  | left entry letter stack unmatched opened closed inputEof => exact inputEof
  | opened nonempty stack unmatched opened closed inputEof => exact inputEof

/-- How many turns a state can still take without a byte. -/
def CrState.weight : CrState → Nat
  | .start | .data => 2
  | .command | .trailer => 1
  | .done => 0

def weight (s : St σ) : Nat := 2 * bufchainSize s.data + s.core.crState.weight

theorem CrState.weight_le (c : CrState) : c.weight ≤ 2 := by cases c <;> decide

/-- Nothing is to be done before the next call. -/
def Blocked (s : St σ) : Prop := s.core.crState = .done ∨ s.data = [] ∧ Settled s.core

/-- A turn takes the sink on as the bytes of the chain do. -/
def TurnOk (s : St σ) : Turn σ → Prop
  | .wait => Blocked s
  | .crash => after srv s.core (bytes s.data) = none
  | .go s' => s'.core.inputEof = false ∧ weight s' < weight s ∧
      after srv s'.core (bytes s'.data) = after srv s.core (bytes s.data)

theorem prefix_cases (s : St σ) : s.data = [] ∧ bufchainPrefix s.data = none ∨
    ∃ p rest, bufchainPrefix s.data = some p ∧ p ≠ [] ∧ bytes s.data = p ++ rest := by
  by_cases h : s.data = []
  · exact .inl ⟨h, by rw [h]; rfl⟩
  · have hpos : 0 < bufchainSize s.data := Nat.pos_of_ne_zero fun h0 => h (bufchainSize_eq_zero.mp h0)
    obtain ⟨p, hp, hne, rest, hrest⟩ := bytes_bufchainPrefix hpos
    exact .inr ⟨p, rest, hp, hne, hrest.symm⟩

/-- The chain, once a beginning of it is consumed. -/
theorem consume_append {s : St σ} {a rest : List UInt8} (h : bytes s.data = a ++ rest) :
    ∃ data, consume s a.length = some { s with data, consumed := s.consumed ++ a } ∧ bytes data = rest := by
  have hlen : a.length ≤ (bytes s.data).length := by simp [h]
  obtain ⟨data, hc, hb⟩ := consume_spec hlen
  rw [h, List.take_left] at hc
  rw [h, List.drop_left] at hb
  exact ⟨data, hc, hb⟩

theorem weight_lt {s s' : St σ} {a rest : List UInt8} (h : bytes s.data = a ++ rest) (hne : a ≠ [])
    (h' : bytes s'.data = rest) (hw : s'.core.crState.weight ≤ s.core.crState.weight + 1) : weight s' < weight s := by
  have hpos := List.length_pos_iff.mpr hne
  simp only [weight, bufchainSize, h, h', List.length_append]
  omega

theorem commandTurn_ok {s : St σ} (heof : s.core.inputEof = false) (hc : s.core.crState = .command) :
    TurnOk srv s (commandTurn srv s) := by
  rw [commandTurn, if_neg (by simp [heof])]
  rcases prefix_cases s with ⟨hdata, hnone⟩ | ⟨p, rest, hp, hne, hbytes⟩
  · rw [hnone]
    exact .inr ⟨hdata, .command hc⟩
  · rw [hp]
    obtain ⟨tail, htail⟩ := line_prefix p
    have hline : bytes s.data = line p ++ (tail ++ rest) := by rw [hbytes, ← List.append_assoc, htail]
    obtain ⟨data, hconsume, hdata⟩ := consume_append hline
    have hafter := after_append srv s.core (line p) (tail ++ rest)
    rw [← hline, settle_command hc] at hafter
    have hw : ∀ st : CrState, st.weight ≤ s.core.crState.weight + 1 := fun st => by
      rw [hc]
      exact st.weight_le
    dsimp only
    rw [hconsume, Option.bind_some]
    by_cases hmem : 10 ∈ p
    · obtain ⟨l, hl, hnot⟩ := line_of_mem hmem
      rw [hl, run_newline srv hc l hnot] at hafter
      have hdrop : (s.core.command ++ (l ++ [10])).dropLast = s.core.command ++ l := by
        rw [← List.append_assoc, List.dropLast_concat]
      rw [if_pos hmem, hl, command]
      dsimp only
      rw [hdrop]
      cases hrun : runCommand srv { s.core with command := s.core.command ++ l } with
      | none =>
        rw [hrun] at hafter
        exact hafter
      | some core =>
        rw [hrun] at hafter
        refine ⟨(runCommand_outcome srv hrun).inputEof_eq.trans heof, weight_lt hline (line_ne_nil hne) hdata (hw _), ?_⟩
        rw [hafter, hdata]
        rfl
    · rw [line_of_not_mem hmem] at hafter ⊢
      rw [run_command srv hc p hmem] at hafter
      rw [if_neg hmem]
      refine ⟨heof, weight_lt hline (line_ne_nil hne) hdata (hw _), ?_⟩
      rw [hafter, hdata, Option.bind_some, after]
      exact congrArg (fun c => (run (byteStep srv) c (tail ++ rest)).map normal)
        (settle_command (c := { s.core with command := s.core.command ++ p }) hc)

theorem dataTurn_ok {s : St σ} (heof : s.core.inputEof = false) (hd : s.core.crState = .data) :
    TurnOk srv s (dataTurn srv s) := by
  unfold dataTurn
  by_cases hlt : s.core.fileOffset < s.core.fileSize
  · rw [if_pos hlt, if_neg (by simp [heof])]
    rcases prefix_cases s with ⟨hdata, hnone⟩ | ⟨p, rest, hp, hne, hbytes⟩
    · rw [hnone]
      exact .inr ⟨hdata, .data hd hlt⟩
    · rw [hp]
      dsimp only
      have hlt' := UInt64.lt_iff_toNat_lt.mp hlt
      have hsub := UInt64.toNat_sub_of_le _ _ (UInt64.le_iff_toNat_le.mpr (Nat.le_of_lt hlt'))
      have hpos := List.length_pos_iff.mpr hne
      generalize hlen : min p.length (s.core.fileSize - s.core.fileOffset).toNat = len
      rw [hsub] at hlen
      have htake : (p.take len).length = len := by rw [List.length_take]; omega
      have hne' : p.take len ≠ [] := by
        intro h
        rw [h, List.length_nil] at htake
        omega
      have hsplit : bytes s.data = p.take len ++ (p.drop len ++ rest) := by
        rw [← List.append_assoc, List.take_append_drop, hbytes]
      have hafter := after_append srv s.core (p.take len) (p.drop len ++ rest)
      have hrun := run_data srv (p.take len) hne' hd (by omega)
      rw [settle_data hd hlt, ← hsplit] at hafter
      rcases hcore : run (byteStep srv) s.core (p.take len) with none | core
      · rw [hcore] at hrun
        cases hrun
      · rw [hcore, Option.bind_some] at hafter
        rw [hcore] at hrun
        have hnormal := Option.some.inj hrun
        rcases hw : srv.write s.core.sf s.core.handle s.core.fileOffset (p.take len) with ⟨e | u, sf⟩
        · rw [hw] at hnormal
          refine ⟨(fail_inputEof _ _).trans heof, ?_, ?_⟩
          · simp only [weight, fail_crState, hd, CrState.weight]
            omega
          · rw [hafter, run_normal srv hnormal, after_done srv (fail_crState _ _),
              run_done srv (c := writeFailed { s.core with sf } e) (fail_crState _ _)]
            rfl
        · rw [hw] at hnormal
          obtain ⟨data, hconsume, hdata⟩ := consume_append hsplit
          rw [htake] at hconsume hnormal
          dsimp only
          rw [hconsume]
          refine ⟨heof, weight_lt hsplit hne' hdata (Nat.le_succ _), ?_⟩
          rw [hafter, run_normal srv hnormal, hdata]
          rfl
  · rw [if_neg hlt]
    refine ⟨heof, ?_, ?_⟩
    · simp only [weight, hd, CrState.weight]
      omega
    · rw [after, after, settle_complete hd hlt]
      rfl

theorem trailerTurn_ok {s : St σ} (heof : s.core.inputEof = false) (ht : s.core.crState = .trailer) :
    TurnOk srv s (trailerTurn srv s) := by
  rw [trailerTurn, if_neg (by simp [heof])]
  rcases prefix_cases s with ⟨hdata, hnone⟩ | ⟨p, rest, hp, hne, hbytes⟩
  · rw [hnone]
    exact .inr ⟨hdata, .trailer ht⟩
  · cases p with
    | nil => exact absurd rfl hne
    | cons b p =>
      have hsplit : bytes s.data = [b] ++ (p ++ rest) := hbytes
      obtain ⟨data, hconsume, hdata⟩ := consume_append hsplit
      rw [List.length_singleton] at hconsume
      rw [hp]
      dsimp only
      rw [hconsume]
      refine ⟨heof, weight_lt hsplit (List.cons_ne_nil _ _) hdata ?_, ?_⟩
      · rw [ht]
        exact Nat.le_refl _
      · rw [after, after, settle_trailer ht, hsplit, List.singleton_append, run_cons, byteStep_trailer srv ht, hdata]
        rfl

theorem turn_ok {s : St σ} (heof : s.core.inputEof = false) : TurnOk srv s (turn srv s) := by
  unfold turn
  split
  · next h =>
    refine ⟨heof, ?_, ?_⟩
    · simp only [weight, h, CrState.weight]
      omega
    · rw [after, after, settle_start h]
      rfl
  · next h => exact commandTurn_ok srv heof h
  · next h => exact dataTurn_ok srv heof h
  · next h => exact trailerTurn_ok srv heof h
  · next h => exact .inl h

/-! ## Calls -/

theorem Blocked.after {s : St σ} (h : Blocked s) : after srv s.core (bytes s.data) = some (normal s.core) := by
  rcases h with h | ⟨hdata, h⟩
  · exact after_done srv h _
  · rw [hdata, bytes_nil, after_nil, h.settle_eq]

theorem coroutineLoop_spec (fuel : Nat) : ∀ s : St σ, s.core.inputEof = false → weight s < fuel →
    match coroutineLoop srv fuel s with
    | none => after srv s.core (bytes s.data) = none
    | some r => r.core.inputEof = false ∧ Blocked r ∧ after srv s.core (bytes s.data) = some (normal r.core) := by
  induction fuel with
  | zero => exact fun s _ h => absurd h (Nat.not_lt_zero _)
  | succ fuel ih =>
    intro s heof hw
    have hturn := turn_ok srv heof
    rw [coroutineLoop]
    cases ht : turn srv s with
    | wait =>
      rw [ht] at hturn
      exact ⟨heof, hturn, hturn.after srv⟩
    | crash =>
      rw [ht] at hturn
      exact hturn
    | go s' =>
      rw [ht] at hturn
      obtain ⟨heof', hlt, hafter⟩ := hturn
      have hrest := ih s' heof' (by omega)
      rw [hafter] at hrest
      exact hrest

theorem coroutine_spec {s : St σ} (heof : s.core.inputEof = false) :
    match coroutine srv s with
    | none => after srv s.core (bytes s.data) = none
    | some r => r.core.inputEof = false ∧ Blocked r ∧ after srv s.core (bytes s.data) = some (normal r.core) := by
  refine coroutineLoop_spec srv _ s heof ?_
  have := s.core.crState.weight_le
  simp only [weight]
  omega

/-- Between two calls nothing is left in the chain, unless all is done. -/
structure Ready (s : St σ) : Prop where
  open_ : s.core.inputEof = false
  drained : s.core.crState = .done ∨ s.data = []

theorem Blocked.ready {s : St σ} (h : Blocked s) (heof : s.core.inputEof = false) : Ready s :=
  ⟨heof, h.imp_right And.left⟩

theorem Blocked.settled {s : St σ} (h : Blocked s) : settle s.core = s.core := by
  rcases h with h | ⟨-, h⟩
  · exact settle_done h
  · exact h.settle_eq

theorem Ready.after_append {s : St σ} (h : Ready s) (data : List UInt8) :
    Sink.after srv s.core (bytes s.data ++ data) = Sink.after srv s.core data := by
  rcases h.drained with hdone | hdata
  · rw [after_done srv hdone, after_done srv hdone]
  · rw [hdata]
    rfl

theorem call_spec {s : St σ} (h : Ready s) (c : Call) :
    match call srv s c with
    | none => after srv s.core c.data = none
    | some r => r.core.inputEof = false ∧ Blocked r ∧ after srv s.core c.data = some (normal r.core) := by
  cases c with
  | start =>
    have hspec := coroutine_spec srv h.open_
    have hafter := h.after_append srv []
    rw [List.append_nil] at hafter
    rw [hafter] at hspec
    exact hspec
  | send data =>
    have hspec := coroutine_spec srv (s := { s with data := bufchainAdd s.data data }) h.open_
    rw [bytes_bufchainAdd, h.after_append srv data] at hspec
    rw [call, send, if_neg (by simp [h.open_])]
    exact hspec

theorem run_spec (calls : List Call) : ∀ {s : St σ}, Ready s →
    match run (call srv) s calls with
    | none => after srv s.core (stream calls) = none
    | some r => Ready r ∧ after srv s.core (stream calls) = some (normal (settle r.core)) := by
  induction calls with
  | nil => exact fun h => ⟨h, rfl⟩
  | cons c calls ih =>
    intro s h
    have hcall := call_spec srv h c
    have hstream : stream (c :: calls) = c.data ++ stream calls := rfl
    rw [run_cons, hstream, after_append]
    cases hc : call srv s c with
    | none =>
      rw [hc] at hcall
      have hnone : run (byteStep srv) (settle s.core) c.data = none := Option.map_eq_none_iff.mp hcall
      rw [hnone]
      rfl
    | some r =>
      rw [hc] at hcall
      obtain ⟨heof, hblocked, hafter⟩ := hcall
      obtain ⟨d, hd, hnormal⟩ := Option.map_eq_some_iff.mp hafter
      have hrest := ih (hblocked.ready heof)
      rw [after, hblocked.settled] at hrest
      rw [hd, Option.bind_some, Option.bind_some, run_normal srv hnormal]
      exact hrest

theorem coroutineLoop_go {s s' : St σ} (h : turn srv s = .go s') (fuel : Nat) :
    coroutineLoop srv (fuel + 1) s = coroutineLoop srv fuel s' := by rw [coroutineLoop, h]

theorem coroutineLoop_done {s : St σ} (h : s.core.crState = .done) (fuel : Nat) :
    coroutineLoop srv (fuel + 1) s = some s := by rw [coroutineLoop, turn, h]

theorem endOfInput_of {c : Core σ} {st : CrState} (h : c.crState = st) :
    endOfInput srv c = endAt srv { c with inputEof := true } st := by
  subst h
  rfl

/-- The loops look for EOF before they look for bytes. -/
theorem coroutineLoop_eof {s : St σ} (heof : s.core.inputEof = true) (h : Settled s.core) (fuel : Nat) :
    coroutineLoop srv (fuel + 2) s = some { s with core := endOfInput srv s.core } := by
  have hsame : ({ s.core with inputEof := true } : Core σ) = s.core := by rw [← heof]
  cases h with
  | command h =>
    have hturn : turn srv s = .go { s with core := finish s.core } := by
      rw [turn, h]
      exact if_pos heof
    rw [coroutineLoop_go srv hturn, coroutineLoop_done srv (finish_crState _), endOfInput_of srv h]
    exact congrArg (fun c => some { s with core := finish c }) hsame.symm
  | data h hlt =>
    have hturn : turn srv s = .go { s with core := finish (closeHandle srv s.core) } := by
      rw [turn, h]
      dsimp only
      rw [dataTurn, if_pos hlt, if_pos heof]
    rw [coroutineLoop_go srv hturn, coroutineLoop_done srv (finish_crState _), endOfInput_of srv h]
    exact congrArg (fun c => some { s with core := finish (closeHandle srv c) }) hsame.symm
  | trailer h =>
    have hturn : turn srv s = .go { s with core := finish (closeHandle srv s.core) } := by
      rw [turn, h]
      dsimp only
      rw [trailerTurn, if_pos heof]
    rw [coroutineLoop_go srv hturn, coroutineLoop_done srv (finish_crState _), endOfInput_of srv h]
    exact congrArg (fun c => some { s with core := finish (closeHandle srv c) }) hsame.symm
  | done h =>
    rw [coroutineLoop_done srv h, endOfInput_of srv h]
    exact congrArg (fun c => some { s with core := c }) hsame.symm

theorem turn_settle {s : St σ} (h : settle s.core = s.core ∨ turn srv s = .go { s with core := settle s.core }) (fuel : Nat)
    (heof : s.core.inputEof = true) :
    coroutineLoop srv (fuel + 3) s = some { s with core := endOfInput srv (settle s.core) } := by
  rcases h with h | h
  · rw [coroutineLoop_eof srv heof (h ▸ settled_settle s.core), h]
  · rw [coroutineLoop_go srv h]
    exact coroutineLoop_eof srv (s := { s with core := settle s.core }) ((settle_inputEof _).trans heof)
      (settled_settle _) fuel

theorem settle_cases (s : St σ) : settle s.core = s.core ∨ turn srv s = .go { s with core := settle s.core } := by
  cases h : s.core.crState with
  | start =>
    right
    rw [turn, h, settle_start h]
  | command => exact .inl (settle_command h)
  | data =>
    by_cases hlt : s.core.fileOffset < s.core.fileSize
    · exact .inl (settle_data h hlt)
    · right
      rw [turn, h, settle_complete h hlt]
      exact if_neg hlt
  | trailer => exact .inl (settle_trailer h)
  | done => exact .inl (settle_done h)

theorem eof_spec (s : St σ) :
    eof srv s = some { s with core := endOfInput srv (settle { s.core with inputEof := true }) } :=
  turn_settle srv (settle_cases srv { s with core := { s.core with inputEof := true } }) _ rfl

theorem settle_eof (c : Core σ) : settle { c with inputEof := true } = { settle c with inputEof := true } := by
  obtain ⟨st, h⟩ : ∃ st, c.crState = st := ⟨_, rfl⟩
  cases st with
  | start =>
    rw [settle_start (c := { c with inputEof := true }) h, settle_start h]
    rfl
  | command => rw [settle_command (c := { c with inputEof := true }) h, settle_command h]
  | data =>
    by_cases hlt : c.fileOffset < c.fileSize
    · rw [settle_data (c := { c with inputEof := true }) h hlt, settle_data h hlt]
    · rw [settle_complete (c := { c with inputEof := true }) h hlt, settle_complete h hlt]
  | trailer => rw [settle_trailer (c := { c with inputEof := true }) h, settle_trailer h]
  | done => rw [settle_done (c := { c with inputEof := true }) h, settle_done h]

theorem endOfInput_eof (c : Core σ) : endOfInput srv { c with inputEof := true } = endOfInput srv c := rfl

theorem endOfInput_settle (c : Core σ) :
    endOfInput srv (settle { c with inputEof := true }) = endOfInput srv (settle c) := by
  rw [settle_eof, endOfInput_eof]

theorem endOfInput_normal {c d : Core σ} (h : normal c = normal d) :
    normal (endOfInput srv c) = normal (endOfInput srv d) := by
  rcases normal_eq h with ⟨hc, hd⟩ | rfl
  · rw [normal_done hc, normal_done hd] at h
    rw [endOfInput_of srv hc, endOfInput_of srv hd, endAt, endAt, normal_done (c := { c with inputEof := true }) hc,
      normal_done (c := { d with inputEof := true }) hd]
    exact congrArg (fun c : Core σ => { c with inputEof := true }) h
  · rfl

/-- Any calls, and then EOF, end as the bytes one by one do. -/
theorem session_spec {s : St σ} (h : Ready s) (calls : List Call) :
    (session srv s calls).map (fun r => normal r.core) =
      (run (byteStep srv) (settle s.core) (stream calls)).map fun c => normal (endOfInput srv c) := by
  have hspec := run_spec srv calls h
  rw [session]
  cases hr : run (call srv) s calls with
  | none =>
    rw [hr] at hspec
    rw [Option.map_eq_none_iff.mp hspec]
    rfl
  | some r =>
    rw [hr] at hspec
    obtain ⟨d, hd, hnormal⟩ := Option.map_eq_some_iff.mp hspec.2
    rw [hd, Option.bind_some, eof_spec, Option.map_some, Option.map_some]
    dsimp only
    rw [endOfInput_settle, endOfInput_normal srv hnormal.symm]

end Server

end Putty.Scp.Sink
