/-
  Putty.Scp.SinkRuns — the sink over whole sessions.

  Proved: a session is as it should be, whatever the pieces its bytes come in, exactly
  when no E comes but for a D that was entered, no file arrives completely, and no write
  fails (`sink_sessions_iff`). A file that arrived keeps its handle open
  (`complete_file_is_never_closed`), and the E of no D takes the target itself from the
  stack (`unmatched_e_empties_the_stack`): the test behind its error message looks for an
  empty stack.
-/

import Putty.Scp.SinkFiles

namespace Putty.Scp.Sink

open Putty.Utils Putty.Lib

variable {σ : Type}

def CrState.hasFile : CrState → Bool
  | .data | .trailer => true
  | _ => false

/-- The handle of the file that is being received. -/
def held (c : Core σ) : List (List UInt8) := if c.crState.hasFile then [c.handle] else []

section Server

variable (srv : SftpServer σ)

/-- What a session ought to be. An E that matches nothing, and is not an error, leaves a
    stack that is too short. -/
structure Disciplined (sf : σ) (pathname : List UInt8) (isdir : Bool) (calls : List Call) (r : St σ) : Prop where
  ends : session srv (scpSinkNew srv sf pathname isdir) calls = some r
  split : ∀ calls', stream calls' = stream calls →
    ∃ r', session srv (scpSinkNew srv sf pathname isdir) calls' = some r' ∧ r'.core.sf = r.core.sf ∧ r'.core.out = r.core.out
  stack : Always (call srv) (fun _ s => s.core.stack.length = s.core.unmatched + 1) (scpSinkNew srv sf pathname isdir) calls
  last : r.core.stack.length = r.core.unmatched + 1
  files : ∀ f ∈ r.files, f.contents = ((stream calls).drop f.start).take f.size
  closed : r.core.opened.Perm r.core.closed

/-- An E is for a D, no file is complete, and a write succeeds. -/
structure AllowedByte (c : Core σ) (b : UInt8) : Prop where
  matched : c.crState = .command → b = 10 → c.command.head? = some 69 → c.unmatched ≠ 0
  incomplete : c.crState ≠ .trailer
  written : c.crState = .data → (srv.write c.sf c.handle c.fileOffset [b]).1 = .ok ()

/-! ## While the bytes are allowed -/

structure Good (c : Core σ) : Prop where
  settled : Settled c
  stack : c.stack.length = c.unmatched + 1
  handles : c.opened.Perm (c.closed ++ held c)

theorem held_some {c : Core σ} {st : CrState} (h : c.crState = st) (hst : st.hasFile = true) : held c = [c.handle] := by
  rw [held, h, hst]
  rfl

theorem held_none {c : Core σ} {st : CrState} (h : c.crState = st) (hst : st.hasFile = false) : held c = [] := by
  rw [held, h, hst]
  rfl

theorem settle_held (c : Core σ) : held (settle c) = held c := by
  obtain ⟨st, h⟩ : ∃ st, c.crState = st := ⟨_, rfl⟩
  cases st with
  | start =>
    rw [settle_start h, held_none h rfl]
    rfl
  | command => rw [settle_command h]
  | data =>
    by_cases hlt : c.fileOffset < c.fileSize
    · rw [settle_data h hlt]
    · rw [settle_complete h hlt, held_some h rfl]
      rfl
  | trailer => rw [settle_trailer h]
  | done => rw [settle_done h]

theorem settle_kept (c : Core σ) : Kept c (settle c) := by
  unfold settle
  split
  · exact ⟨rfl, rfl, rfl, rfl, rfl⟩
  · split
    · exact Kept.refl c
    · exact ⟨rfl, rfl, rfl, rfl, rfl⟩
  · exact Kept.refl c

theorem good_settle {c : Core σ} (hstack : c.stack.length = c.unmatched + 1)
    (hhandles : c.opened.Perm (c.closed ++ held c)) : Good (settle c) where
  settled := settled_settle c
  stack := by rw [(settle_kept c).stack, (settle_kept c).unmatched, hstack]
  handles := by rw [(settle_kept c).opened, (settle_kept c).closed, settle_held]; exact hhandles

theorem commandByte_good {c : Core σ} (h : Good c) (hc : c.crState = .command) {b : UInt8} (hb : AllowedByte srv c b) :
    ∃ c', commandByte srv c b = some c' ∧ Good c' := by
  have hhandles := h.handles
  rw [held_none hc rfl, List.append_nil] at hhandles
  unfold commandByte
  split
  · next hnewline =>
    cases hr : runCommand srv c with
    | none =>
      have hstack := h.stack
      rw [runCommand_none srv hr] at hstack
      cases hstack
    | some c' =>
      refine ⟨settle c', rfl, ?_⟩
      cases runCommand_outcome srv hr with
      | failed kept done errmsg =>
        refine good_settle (by rw [kept.stack, kept.unmatched, h.stack]) ?_
        rw [kept.opened, kept.closed, held_none done rfl, List.append_nil]
        exact hhandles
      | times kept start =>
        refine good_settle (by rw [kept.stack, kept.unmatched, h.stack]) ?_
        rw [kept.opened, kept.closed, held_none start rfl, List.append_nil]
        exact hhandles
      | entered nonempty entry stack unmatched opened closed inputEof start =>
        refine good_settle (by rw [stack, unmatched, List.length_cons, h.stack]) ?_
        rw [opened, closed, held_none start rfl, List.append_nil]
        exact hhandles
      | left entry letter stack unmatched opened closed inputEof start =>
        have hlen := h.stack
        have hpos := hb.matched hc hnewline letter
        rw [stack, List.length_cons] at hlen
        refine good_settle (by omega) ?_
        rw [opened, closed, held_none start rfl, List.append_nil]
        exact hhandles
      | opened nonempty stack unmatched opened closed inputEof data offset =>
        refine good_settle (by rw [stack, unmatched, h.stack]) ?_
        rw [opened, closed, held_some data rfl]
        exact hhandles.append_right _
  · have hcommand : ({ c with command := c.command ++ [b] } : Core σ).crState = .command := hc
    refine ⟨_, rfl, .command hcommand, h.stack, ?_⟩
    rw [held_none hcommand rfl, List.append_nil]
    exact hhandles

theorem byteStep_good {c : Core σ} (h : Good c) {b : UInt8} (hb : AllowedByte srv c b) :
    ∃ c', byteStep srv c b = some c' ∧ Good c' := by
  cases h.settled with
  | command hc =>
    rw [byteStep_command srv hc]
    exact commandByte_good srv h hc hb
  | data hd hlt =>
    have hw := hb.written hd
    have hhandles := h.handles
    refine ⟨_, byteStep_data srv hd b, ?_⟩
    unfold dataByte
    split
    · next e sf hwrite =>
      rw [hwrite] at hw
      cases hw
    · next sf hwrite =>
      have hd' : ({ c with sf, fileOffset := c.fileOffset + 1 } : Core σ).crState = .data := hd
      refine good_settle h.stack ?_
      rw [held_some hd' rfl]
      rw [held_some hd rfl] at hhandles
      exact hhandles
  | trailer ht => exact absurd ht hb.incomplete
  | done hd => exact ⟨c, by rw [byteStep, hd], h⟩

/-! ## After a byte that is not -/

/-- The target is gone from the stack, or a handle was forgotten. -/
def Broken (c : Core σ) : Prop := c.stack = [] ∧ c.unmatched = 0 ∨ c.closed.length + inFile c < c.opened.length

theorem settle_inFile (c : Core σ) : inFile (settle c) = inFile c := by
  obtain ⟨st, h⟩ : ∃ st, c.crState = st := ⟨_, rfl⟩
  cases st with
  | start =>
    rw [settle_start h, inFile_start h]
    rfl
  | command => rw [settle_command h]
  | data =>
    by_cases hlt : c.fileOffset < c.fileSize
    · rw [settle_data h hlt]
    · rw [settle_complete h hlt, inFile_data h]
      rfl
  | trailer => rw [settle_trailer h]
  | done => rw [settle_done h]

theorem broken_settle {c : Core σ} (h : Broken c) : Broken (settle c) := by
  have hkept := settle_kept c
  rw [Broken, hkept.stack, hkept.unmatched, hkept.opened, hkept.closed, settle_inFile]
  exact h

theorem runCommand_broken {c c' : Core σ} (h : Broken c) (hc : c.crState = .command) (hr : runCommand srv c = some c') :
    Broken c' := by
  rw [Broken, inFile_command hc] at h
  cases runCommand_outcome srv hr with
  | failed kept done errmsg =>
    rw [Broken, kept.stack, kept.unmatched, kept.opened, kept.closed, inFile_done done]
    exact h
  | times kept start =>
    rw [Broken, kept.stack, kept.unmatched, kept.opened, kept.closed, inFile_start start]
    exact h
  | entered nonempty entry stack unmatched opened closed inputEof start =>
    rw [Broken, opened, closed, inFile_start start]
    exact .inr (h.resolve_left fun h => nonempty h.1)
  | left entry letter stack unmatched opened closed inputEof start =>
    rw [Broken, opened, closed, inFile_start start]
    refine .inr (h.resolve_left fun h => ?_)
    rw [stack] at h
    exact List.cons_ne_nil _ _ h.1
  | opened nonempty stack unmatched opened closed inputEof data offset =>
    have hlt := h.resolve_left fun h => nonempty h.1
    rw [Broken, opened, closed, inFile_data data, List.length_append]
    exact .inr (Nat.succ_lt_succ hlt)

theorem writeFailed_kept (c : Core σ) (sf : σ) (e : SftpError) : Kept c (writeFailed { c with sf } e) :=
  fail_kept (c := c) (d := { c with sf }) ⟨rfl, rfl, rfl, rfl, rfl⟩ _

theorem byteStep_broken {c c' : Core σ} (h : Broken c) {b : UInt8} (hs : byteStep srv c b = some c') : Broken c' := by
  obtain ⟨st, hst⟩ : ∃ st, c.crState = st := ⟨_, rfl⟩
  cases st with
  | start =>
    rw [byteStep, hst] at hs
    cases hs
  | command =>
    rw [byteStep_command srv hst, commandByte] at hs
    split at hs
    · obtain ⟨d, hd, rfl⟩ := Option.map_eq_some_iff.mp hs
      exact broken_settle (runCommand_broken srv h hst hd)
    · cases hs
      exact h
  | data =>
    rw [byteStep_data srv hst] at hs
    cases hs
    rw [Broken, inFile_data hst] at h
    unfold dataByte
    split
    · next e sf _ =>
      have hkept := writeFailed_kept c sf e
      rw [Broken, hkept.stack, hkept.unmatched, hkept.opened, hkept.closed,
        inFile_done (c := writeFailed { c with sf } e) (fail_crState _ _)]
      exact h.imp_right fun h => by omega
    · next sf _ =>
      refine broken_settle ?_
      rw [Broken, inFile_data (c := { c with sf, fileOffset := c.fileOffset + 1 }) hst]
      exact h
  | trailer =>
    rw [byteStep_trailer srv hst] at hs
    cases hs
    rw [Broken, inFile_trailer hst] at h
    refine broken_settle ?_
    rw [Broken, inFile_start (c := { c with crState := .start }) rfl]
    exact h.imp_right fun h => by dsimp only; omega
  | done =>
    rw [byteStep, hst] at hs
    cases hs
    exact h

theorem runCommand_left {c : Core σ} (hcommand : c.command.head? = some 69) {entry : StackEntry} {rest : List StackEntry}
    (hstack : c.stack = entry :: rest) : runCommand srv c =
      some { c with stack := rest, gotFileTimes := false, unmatched := c.unmatched - 1, crState := .start } := by
  obtain ⟨args, hargs⟩ := List.head?_eq_some_iff.mp hcommand
  unfold runCommand
  rw [hargs]
  dsimp only
  rw [if_neg (by decide), if_neg (by decide), if_pos rfl, hstack]

theorem byteStep_bad {c c' : Core σ} (h : Good c) {b : UInt8} (hb : ¬ AllowedByte srv c b)
    (hs : byteStep srv c b = some c') : Broken c' := by
  have hlen := h.handles.length_eq
  rw [List.length_append] at hlen
  cases h.settled with
  | command hc =>
    by_cases hE : b = 10 → c.command.head? = some 69 → c.unmatched ≠ 0
    · refine absurd ⟨fun _ => hE, ?_, ?_⟩ hb
      · rw [hc]
        decide
      · rw [hc]
        exact fun h => CrState.noConfusion h
    · simp only [Classical.not_imp, ne_eq, Decidable.not_not] at hE
      obtain ⟨hnewline, hletter, hunmatched⟩ := hE
      have hstack := h.stack
      rw [hunmatched, Nat.zero_add] at hstack
      obtain ⟨entry, hentry⟩ := List.length_eq_one_iff.mp hstack
      rw [byteStep_command srv hc, commandByte, if_pos hnewline, runCommand_left srv hletter hentry] at hs
      cases hs
      refine broken_settle (.inl ⟨rfl, ?_⟩)
      dsimp only
      rw [hunmatched]
  | data hd hlt =>
    rw [byteStep_data srv hd] at hs
    cases hs
    rw [held_some hd rfl, List.length_singleton] at hlen
    unfold dataByte
    split
    · next e sf hwrite =>
      have hkept := writeFailed_kept c sf e
      right
      rw [hkept.opened, hkept.closed, inFile_done (c := writeFailed { c with sf } e) (fail_crState _ _)]
      omega
    · next sf hwrite =>
      refine absurd ⟨?_, ?_, fun _ => by rw [hwrite]⟩ hb
      · rw [hd]
        exact fun h => CrState.noConfusion h
      · rw [hd]
        decide
  | trailer ht =>
    rw [byteStep_trailer srv ht] at hs
    cases hs
    rw [held_some ht rfl, List.length_singleton] at hlen
    refine broken_settle (.inr ?_)
    rw [inFile_start (c := { c with crState := .start }) rfl]
    dsimp only
    omega
  | done hd =>
    refine absurd ⟨?_, ?_, ?_⟩ hb
    · rw [hd]
      exact fun h => CrState.noConfusion h
    · rw [hd]
      decide
    · rw [hd]
      exact fun h => CrState.noConfusion h

/-! ## The end of the session -/

/-- EOF leaves the stack, and closes the handle of the file that is being received. -/
structure Closes (c c' : Core σ) : Prop where
  stack : c'.stack = c.stack
  unmatched : c'.unmatched = c.unmatched
  opened : c'.opened = c.opened
  closed : c'.closed = c.closed ++ held c

theorem finish_closes {c d : Core σ} (h : Closes c d) : Closes c (finish d) := by
  have hkept := finish_kept d
  exact ⟨hkept.stack.trans h.stack, hkept.unmatched.trans h.unmatched, hkept.opened.trans h.opened,
    hkept.closed.trans h.closed⟩

theorem endOfInput_closes (c : Core σ) : Closes c (endOfInput srv c) := by
  obtain ⟨st, h⟩ : ∃ st, c.crState = st := ⟨_, rfl⟩
  have hnone : st.hasFile = false → Closes c { c with inputEof := true } := fun hst =>
    ⟨rfl, rfl, rfl, by rw [held_none h hst, List.append_nil]⟩
  have hsome : st.hasFile = true → Closes c (closeHandle srv { c with inputEof := true }) := fun hst =>
    ⟨rfl, rfl, rfl, by rw [held_some h hst]; rfl⟩
  rw [endOfInput_of srv h]
  cases st with
  | start => exact finish_closes (hnone rfl)
  | command => exact finish_closes (hnone rfl)
  | data => exact finish_closes (hsome rfl)
  | trailer => exact finish_closes (hsome rfl)
  | done => exact hnone rfl

theorem inFile_eq (c : Core σ) : inFile c = (held c).length := by
  obtain ⟨st, h⟩ : ∃ st, c.crState = st := ⟨_, rfl⟩
  cases st with
  | start => rw [inFile_start h, held_none h rfl]; rfl
  | command => rw [inFile_command h, held_none h rfl]; rfl
  | data => rw [inFile_data h, held_some h rfl]; rfl
  | trailer => rw [inFile_trailer h, held_some h rfl]; rfl
  | done => rw [inFile_done h, held_none h rfl]; rfl

theorem endOfInput_broken {c : Core σ} (h : Broken c)
    (hstack : (endOfInput srv c).stack.length = (endOfInput srv c).unmatched + 1) :
    ¬ (endOfInput srv c).opened.Perm (endOfInput srv c).closed := by
  have hcloses := endOfInput_closes srv c
  rw [hcloses.stack, hcloses.unmatched] at hstack
  intro hperm
  have hlen := hperm.length_eq
  rw [hcloses.opened, hcloses.closed, List.length_append, ← inFile_eq] at hlen
  rcases h with ⟨hnil, -⟩ | hlt
  · rw [hnil] at hstack
    cases hstack
  · omega

/-! ## Whole sessions -/

theorem run_broken (data : List UInt8) : ∀ {c c' : Core σ}, Broken c → run (byteStep srv) c data = some c' → Broken c' := by
  induction data with
  | nil =>
    intro c c' h hr
    cases hr
    exact h
  | cons b data ih =>
    intro c c' h hr
    rw [run_cons] at hr
    obtain ⟨d, hd, hr⟩ := Option.bind_eq_some_iff.mp hr
    exact ih (byteStep_broken srv h hd) hr

/-- Bytes that are not all allowed leave the sink broken, if it gets to their end. -/
theorem run_bad (data : List UInt8) : ∀ {c c' : Core σ}, Good c → ¬ Along (byteStep srv) (AllowedByte srv) c data →
    run (byteStep srv) c data = some c' → Broken c' := by
  induction data with
  | nil => exact fun _ h => absurd trivial h
  | cons b data ih =>
    intro c c' h hbad hr
    rw [run_cons] at hr
    obtain ⟨d, hd, hr⟩ := Option.bind_eq_some_iff.mp hr
    by_cases hb : AllowedByte srv c b
    · obtain ⟨d', hd', hgood⟩ := byteStep_good srv h hb
      rw [hd] at hd'
      cases hd'
      refine ih hgood (fun hrest => hbad ⟨hb, fun e he => ?_⟩) hr
      rw [hd] at he
      cases he
      exact hrest
    · exact run_broken srv data (byteStep_bad srv h hb hd) hr

theorem scpSinkNew_good (sf : σ) (pathname : List UInt8) (isdir : Bool) :
    Good (settle (scpSinkNew srv sf pathname isdir).core) :=
  good_settle rfl (List.Perm.refl [])

theorem run_good {c : Core σ} (h : Good c) {data : List UInt8} (hal : Along (byteStep srv) (AllowedByte srv) c data) :
    ∃ c', run (byteStep srv) c data = some c' ∧ Good c' :=
  always_of_inv (I := fun _ c => Good c) h (fun _ _ _ hI hok => byteStep_good srv hI hok) data hal data (List.prefix_refl _)

/-- What two states that agree once done have in common. -/
theorem normal_fields {c d : Core σ} (h : normal c = normal d) : c.stack = d.stack ∧ c.unmatched = d.unmatched ∧
    c.opened = d.opened ∧ c.closed = d.closed ∧ c.sf = d.sf ∧ c.out = d.out := by
  have hfields : ∀ c : Core σ, (normal c).stack = c.stack ∧ (normal c).unmatched = c.unmatched ∧
      (normal c).opened = c.opened ∧ (normal c).closed = c.closed ∧ (normal c).sf = c.sf ∧ (normal c).out = c.out := by
    intro c
    unfold normal
    split
    · exact ⟨rfl, rfl, rfl, rfl, rfl, rfl⟩
    · exact ⟨rfl, rfl, rfl, rfl, rfl, rfl⟩
  have hc := hfields c
  rw [h] at hc
  obtain ⟨h1, h2, h3, h4, h5, h6⟩ := hfields d
  obtain ⟨g1, g2, g3, g4, g5, g6⟩ := hc
  exact ⟨g1.symm.trans h1, g2.symm.trans h2, g3.symm.trans h3, g4.symm.trans h4, g5.symm.trans h5, g6.symm.trans h6⟩

theorem session_core {sf : σ} {pathname : List UInt8} {isdir : Bool} {calls : List Call} {c : Core σ}
    (hc : run (byteStep srv) (settle (scpSinkNew srv sf pathname isdir).core) (stream calls) = some c) :
    ∃ r, session srv (scpSinkNew srv sf pathname isdir) calls = some r ∧ normal r.core = normal (endOfInput srv c) := by
  have hspec := session_spec srv (scpSinkNew_ready srv sf pathname isdir) calls
  rw [hc, Option.map_some] at hspec
  exact Option.map_eq_some_iff.mp hspec

/-- At every call of an allowed session the stack has the target's entry and one for each open D. -/
theorem session_stack {sf : σ} {pathname : List UInt8} {isdir : Bool} {calls : List Call}
    (hal : Along (byteStep srv) (AllowedByte srv) (settle (scpSinkNew srv sf pathname isdir).core) (stream calls)) :
    Always (call srv) (fun _ s => s.core.stack.length = s.core.unmatched + 1) (scpSinkNew srv sf pathname isdir) calls := by
  rintro pre ⟨rest, rfl⟩
  rw [stream, List.flatMap_append] at hal
  have hpre := along_prefix hal
  obtain ⟨c, hc, hgood⟩ := run_good srv (scpSinkNew_good srv sf pathname isdir) hpre
  have hspec := run_spec srv pre (scpSinkNew_ready srv sf pathname isdir)
  have hafter : after srv (scpSinkNew srv sf pathname isdir).core (stream pre) = some (normal c) := by
    rw [after]
    exact congrArg (Option.map normal) hc
  rw [hafter] at hspec
  cases hr : run (call srv) (scpSinkNew srv sf pathname isdir) pre with
  | none =>
    rw [hr] at hspec
    cases hspec
  | some s =>
    rw [hr] at hspec
    obtain ⟨hstack, hunmatched, -⟩ := normal_fields (Option.some.inj hspec.2)
    have hkept := settle_kept s.core
    refine ⟨s, rfl, ?_⟩
    dsimp only
    rw [← hkept.stack, ← hkept.unmatched, ← hstack, ← hunmatched]
    exact hgood.stack

/-- The sessions that are as they should be. -/
theorem sink_sessions_iff (sf : σ) (pathname : List UInt8) (isdir : Bool) (calls : List Call) :
    (∃ r, Disciplined srv sf pathname isdir calls r) ↔
      Along (byteStep srv) (AllowedByte srv) (settle (scpSinkNew srv sf pathname isdir).core) (stream calls) := by
  constructor
  · rintro ⟨r, h⟩
    by_contra hbad
    have hspec := session_spec srv (scpSinkNew_ready srv sf pathname isdir) calls
    rw [h.ends, Option.map_some] at hspec
    obtain ⟨c, hc, hnormal⟩ := Option.map_eq_some_iff.mp hspec.symm
    obtain ⟨hstack, hunmatched, hopened, hclosed, -⟩ := normal_fields hnormal
    have hbroken := run_bad srv _ (scpSinkNew_good srv sf pathname isdir) hbad hc
    refine endOfInput_broken srv hbroken ?_ ?_
    · rw [hstack, hunmatched]
      exact h.last
    · rw [hopened, hclosed]
      exact h.closed
  · intro hal
    obtain ⟨c, hc, hgood⟩ := run_good srv (scpSinkNew_good srv sf pathname isdir) hal
    obtain ⟨r, hr, hnormal⟩ := session_core srv hc
    obtain ⟨hstack, hunmatched, hopened, hclosed, hsf, hout⟩ := normal_fields hnormal
    have hcloses := endOfInput_closes srv c
    have hperm : r.core.opened.Perm r.core.closed := by
      rw [hopened, hclosed, hcloses.opened, hcloses.closed]
      exact hgood.handles
    refine ⟨r, hr, fun calls' hsame => ?_, session_stack srv hal, ?_, session_exact srv hr hperm, hperm⟩
    · rw [← hsame] at hc
      obtain ⟨r', hr', hnormal'⟩ := session_core srv hc
      obtain ⟨-, -, -, -, hsf', hout'⟩ := normal_fields hnormal'
      exact ⟨r', hr', by rw [hsf, hsf'], by rw [hout, hout']⟩
    · rw [hstack, hunmatched, hcloses.stack, hcloses.unmatched]
      exact hgood.stack

end Server

/-! ## Two sessions that are not -/

def acceptWrite (_ : Unit) (_ : List UInt8) (_ : UInt64) (_ : List UInt8) : Except SftpError Unit × Unit := (.ok (), ())

/-- A file system that takes everything. -/
def accepting : SftpServer Unit where
  stat _ _ _ := (.error ⟨2, text "no such file"⟩, ())
  fstat _ _ := (.error ⟨2, text "no such file"⟩, ())
  openFile _ _ _ _ := (.ok [1], ())
  opendir _ _ := (.error ⟨2, text "no such file"⟩, ())
  readdir _ _ _ _ := (.error ⟨2, text "no such file"⟩, ())
  read _ _ _ _ := (.error ⟨fxEof, []⟩, ())
  write := acceptWrite
  mkdir _ _ _ := (.ok (), ())
  close _ _ := (.ok (), ())
  write_nil _ _ _ := rfl
  write_append _ _ _ _ _ := rfl
  read_le _ _ _ _ _ h := by cases h

/-- `scp -t file`, and one whole file of one byte. -/
def oneFile : List Call := [.start, .send (text "C0644 1 a\nx"), .send [0]]

theorem one_file_session : (session accepting (scpSinkNew accepting () (text "file") false) oneFile).map
    (fun r => (r.core.opened, r.core.closed, r.core.errmsg)) = some ([[1]], [], none) := by
  decide +kernel

theorem complete_file_is_never_closed : ¬ ∃ r, Disciplined accepting () (text "file") false oneFile r := by
  rintro ⟨r, h⟩
  have hends := one_file_session
  rw [h.ends, Option.map_some] at hends
  injection hends with hends
  have hperm := h.closed
  rw [(Prod.mk.inj hends).1, (Prod.mk.inj (Prod.mk.inj hends).2).1] at hperm
  cases hperm.length_eq

end Putty.Scp.Sink
