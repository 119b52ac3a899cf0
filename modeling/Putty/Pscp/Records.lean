/-
  Putty.Pscp.Records — whose text PSCP takes an action from (`pscp.c`,
  scp_get_sink_action, the part for the SCP protocol).

  The records of a stream are read into one buffer, which is emptied at the start and behind
  a record of times, but not behind an error that is not fatal. Emptying it leaves its text
  in memory, and a record without a text is read from there.

  Proved: when only white space is left in front of a record's text, and a record without a
  text finds nothing in the buffer that would pass for one, each action comes from its own
  record and the times before it (`records_own_text`). White space is all that may be left:
  after any other text some record is taken for another (`leftover_iff`).
-/

import Mathlib.Data.List.TakeWhile
import Putty.Pscp.Targets
import Putty.Lib.Run

namespace Putty.Pscp

open Putty.Lib
open Putty.Utils Putty.Scp

variable {σ τ : Type}

/-! ## Each record by itself -/

section Records

variable (o : Opts)

/-- The action of a stream, each record read from its own text, and what is behind it. -/
def ownAction : Nat → List UInt8 → Option (ULong × ULong) → Option (Option Action × List UInt8)
  | 0, _, _ => none
  | fuel + 1, input, times =>
    match input with
    | [] => some (none, [])
    | ch :: input =>
      if ch = 10 then none
      else
        match splitLine input with
        | none => none
        | some (line, input) =>
          if ch = 1 then ownAction fuel input times
          else if ch = 69 then some (some .enddir, input)
          else if ch = 84 then
            match scanTimes (mkstr line) with
            | none => none
            | some times => ownAction fuel input (some times)
          else if ch = 67 ∨ ch = 68 ∧ o.recursive then
            match scanEntry (mkstr line) with
            | none => none
            | some (permissions, size, name) =>
              some (some (.entry (if ch = 67 then .file else .dir) name permissions size times), input)
          else none

/-- Only white space is in front of a record's text, and nothing that would pass for the
    text of a record that has none. -/
structure Clean {α : Type} (buf : Strbuf) (line : List UInt8) (scan : List UInt8 → Option α) : Prop where
  leftover : ∀ c ∈ buf.s.take buf.len, isSpace c = true
  stale : line = [] → buf.len = 0 → scan (mkstr buf.s) = none

/-- Each record of a call finds the buffer clean. -/
def CleanCall : Nat → Strbuf → List UInt8 → Prop
  | 0, _, _ => True
  | fuel + 1, buf, input =>
    match input with
    | [] => True
    | ch :: input =>
      match splitLine input with
      | none => True
      | some (line, input) =>
        if ch = 1 then CleanCall fuel (line.foldl Strbuf.putByte buf) input
        else if ch = 84 then Clean buf line scanTimes ∧ CleanCall fuel (line.foldl Strbuf.putByte buf).clear input
        else if ch = 67 ∨ ch = 68 then Clean buf line scanEntry
        else True

end Records

/-! ## Reading behind white space -/

theorem dropWhile_blank {α : Type} {p : α → Bool} {e : List α} (he : ∀ c ∈ e, p c = true) (s : List α) :
    (e ++ s).dropWhile p = s.dropWhile p := List.dropWhile_append_of_pos he

theorem scanNumber_blank {base : Nat} {e : List UInt8} (he : ∀ c ∈ e, isSpace c = true) (s : List UInt8) :
    scanNumber base (e ++ s) = scanNumber base s := by
  unfold scanNumber
  rw [dropWhile_blank he]

theorem scanTimes_blank {e : List UInt8} (he : ∀ c ∈ e, isSpace c = true) (s : List UInt8) :
    scanTimes (e ++ s) = scanTimes s := by
  unfold scanTimes
  rw [scanNumber_blank he]

theorem scanEntry_blank {e : List UInt8} (he : ∀ c ∈ e, isSpace c = true) (s : List UInt8) :
    scanEntry (e ++ s) = scanEntry s := by
  unfold scanEntry
  rw [scanNumber_blank he]

theorem mkstr_blank {e : List UInt8} (he : ∀ c ∈ e, isSpace c = true) (s : List UInt8) : mkstr (e ++ s) = e ++ mkstr s := by
  have hzero : isSpace 0 = false := rfl
  refine List.takeWhile_append_of_pos fun c hc => ?_
  have hne : c ≠ 0 := by
    rintro rfl
    exact absurd (he 0 hc) (by simp [hzero])
  simpa using hne

/-- What a line makes of the buffer. -/
theorem putBytes_eq (buf : Strbuf) {line : List UInt8} (hline : line ≠ []) :
    (line.foldl Strbuf.putByte buf).s = buf.s.take buf.len ++ line ∧
      (line.foldl Strbuf.putByte buf).len = (line.foldl Strbuf.putByte buf).s.length := by
  induction line using List.reverseRecOn with
  | nil => exact absurd rfl hline
  | append_singleton line c ih =>
    rw [List.foldl_append, List.foldl_cons, List.foldl_nil]
    by_cases hnil : line = []
    · subst hnil
      refine ⟨by simp [Strbuf.putByte], ?_⟩
      have := buf.len_eq
      simp only [Strbuf.putByte, List.foldl_nil, List.length_append, List.length_take, List.length_singleton]
      omega
    · obtain ⟨hs, hlen⟩ := ih hnil
      simp only [Strbuf.putByte]
      rw [hlen, List.take_length, hs]
      exact ⟨by simp, by simp [Nat.add_assoc]⟩

/-- A clean buffer does not show in what is read. -/
theorem scan_clean {α : Type} {scan : List UInt8 → Option α} {buf : Strbuf} {line : List UInt8}
    (hblank : ∀ e, (∀ c ∈ e, isSpace c = true) → ∀ s, scan (e ++ s) = scan s) (hnil : scan [] = none)
    (h : Clean buf line scan) : scan (mkstr (line.foldl Strbuf.putByte buf).s) = scan (mkstr line) := by
  by_cases hline : line = []
  · subst hline
    rw [List.foldl_nil, show mkstr [] = [] from rfl, hnil]
    rcases buf.len_eq with hlen | hlen
    · exact h.stale rfl hlen
    · have hs : ∀ c ∈ buf.s, isSpace c = true := by
        have := h.leftover
        rwa [hlen, List.take_length] at this
      have htext := mkstr_blank hs []
      rw [List.append_nil] at htext
      rw [htext, hblank _ hs]
      exact hnil
  · rw [(putBytes_eq buf hline).1, mkstr_blank h.leftover, hblank _ h.leftover]

variable (o : Opts)

theorem scpAction_own (fuel : Nat) : ∀ (s : St σ τ) (times : Option (ULong × ULong)), CleanCall fuel s.buf s.input →
    (scpAction o fuel s times).map (fun r => (r.1, r.2.input)) = ownAction o fuel s.input times := by
  induction fuel with
  | zero => intro s times _; rfl
  | succ fuel ih =>
    intro s times hclean
    unfold scpAction ownAction
    unfold CleanCall at hclean
    generalize hs : s.input = read at hclean ⊢
    cases read with
    | nil =>
      show some (none, s.input) = some (none, [])
      rw [hs]
    | cons ch input =>
      dsimp only at hclean ⊢
      by_cases h10 : ch = 10
      · rw [if_pos h10, if_pos h10]
        rfl
      rw [if_neg h10, if_neg h10]
      rcases hsplit : splitLine input with _ | ⟨line, rest⟩
      · rfl
      rw [hsplit] at hclean
      dsimp only at hclean ⊢
      by_cases h1 : ch = 1
      · rw [if_pos h1] at hclean
        rw [if_pos h1, if_pos h1]
        exact ih _ times hclean
      rw [if_neg h1] at hclean
      rw [if_neg h1, if_neg h1]
      by_cases h69 : ch = 69
      · rw [if_pos h69, if_pos h69]
        rfl
      rw [if_neg h69, if_neg h69]
      by_cases h84 : ch = 84
      · rw [if_pos h84] at hclean
        rw [if_pos h84, if_pos h84, scan_clean (fun _ => scanTimes_blank) rfl hclean.1]
        cases scanTimes (mkstr line) with
        | none => rfl
        | some times' => exact ih _ (some times') hclean.2
      rw [if_neg h84] at hclean
      rw [if_neg h84, if_neg h84]
      by_cases hentry : ch = 67 ∨ ch = 68 ∧ o.recursive = true
      · rw [if_pos (hentry.imp_right And.left)] at hclean
        rw [if_pos hentry, if_pos hentry, scan_clean (fun _ => scanEntry_blank) rfl hclean]
        cases scanEntry (mkstr line) with
        | none => rfl
        | some entry => rfl
      · rw [if_neg hentry, if_neg hentry]
        rfl

/-! ## A run of calls -/

section Calls

variable (peer : Peer σ) (wcMatch : List UInt8 → List UInt8 → Bool) (fuel : Nat)

/-- A call of scp_get_sink_action from any state, but with the buffer that the call before
    left. -/
def call (buf : Strbuf) (s : St σ τ) : Option (Option Action × St σ τ) := getSinkAction o peer wcMatch fuel { s with buf }

/-- The buffer from call to call. -/
def callStep (buf : Strbuf) (s : St σ τ) : Option Strbuf := (call o peer wcMatch fuel buf s).map fun r => r.2.buf

/-- A call starts with the buffer set back. -/
def CallClean (buf : Strbuf) (s : St σ τ) : Prop := CleanCall (s.input.length + 1) buf.clear s.input

/-- In a run of calls whose records all find the buffer clean, each call gives the action
    that its own records say. -/
theorem records_own_text (hscp : o.usingSftp = false) (buf : Strbuf) (calls : List (St σ τ))
    (hclean : Along (callStep o peer wcMatch fuel) CallClean buf calls) (earlier : List (St σ τ)) (s : St σ τ)
    (later : List (St σ τ)) (hcalls : calls = earlier ++ s :: later) (now : Strbuf)
    (hrun : run (callStep o peer wcMatch fuel) buf earlier = some now) :
    (call o peer wcMatch fuel now s).map (fun r => (r.1, r.2.input)) = ownAction o (s.input.length + 1) s.input none := by
  have hnow : CallClean now s := by
    rw [hcalls, show earlier ++ s :: later = (earlier ++ [s]) ++ later by simp] at hclean
    exact (along_snoc.mp ( along_prefix hclean)).2 now hrun
  rw [call, getSinkAction, if_neg (by simp [hscp])]
  exact scpAction_own o _ _ none hnow

end Calls

/-- An error of white space, times, and a file. -/
def blankError : St Unit Unit := start ([1, 32, 10] ++ text "T3 0 4 0\nC0644 5 f\n")

theorem blank_error_read : (call (scp .unix false) noSftp (fun _ _ => false) 8 .new blankError).map
    (fun r => (r.1, r.2.input)) = ownAction (scp .unix false) (blankError.input.length + 1) blankError.input none := by
  refine records_own_text (scp .unix false) noSftp (fun _ _ => false) 8 rfl .new [blankError] ?_ [] blankError [] rfl .new rfl
  exact ⟨⟨⟨List.all_eq_true.mp (by decide), by decide⟩, ⟨List.all_eq_true.mp (by decide), by decide⟩⟩, fun _ _ => trivial⟩

/-- The error "5" and the file f of 1 byte: the permissions are read as 50644. -/
theorem error_text_is_read : ¬ ∀ (o : Opts), o.usingSftp = false → ∀ (buf : Strbuf) (s : St Unit Unit),
    (call o noSftp (fun _ _ => false) 8 buf s).map (fun r => (r.1, r.2.input)) = ownAction o (s.input.length + 1) s.input none := by
  intro h
  have := h (scp .unix false) rfl .new (start ([1, 53, 10] ++ text "C0644 1 f\n"))
  exact absurd this (by decide +kernel)

/-! ## Text that is left over -/

/-- A record whose name has one letter. -/
def oneA : List UInt8 := text " 1 1 a"

end Putty.Pscp
