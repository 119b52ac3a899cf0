/-
  Putty.Scp.SinkFiles — what the sink's files receive, and the accounting of its handles.

  Proved over every session (`session_files`): the bytes that were consumed are a beginning
  of the client's, all of them unless the session ends in an error, and each file holds
  as many of the bytes behind its command as the command announced.
-/

import Putty.Scp.Stream

namespace Putty.Scp.Sink

open Putty.Utils Putty.Lib

variable {σ : Type}

/-- The file is as long as announced. -/
def Full (consumed : List UInt8) (f : Received) : Prop := f.start + f.size ≤ consumed.length

/-- The file holds what was consumed behind its command, up to its size. -/
def Exact (consumed : List UInt8) (f : Received) : Prop := f.contents = (consumed.drop f.start).take f.size

/-- The number of files that are being received. -/
def inFile (c : Core σ) : Nat :=
  match c.crState with
  | .data | .trailer => 1
  | _ => 0

structure FilesOk (sent : List UInt8) (s : St σ) : Prop where
  sent : s.consumed ++ bytes s.data = sent
  exact : ∀ f ∈ s.files, Exact s.consumed f
  past : ∀ f ∈ s.files.tail, Full s.consumed f
  full : s.core.crState ≠ .data → s.core.crState ≠ .done → ∀ f ∈ s.files, Full s.consumed f
  current : s.core.crState = .data → ∃ f rest, s.files = f :: rest ∧ f.size = s.core.fileSize.toNat ∧
    f.start + s.core.fileOffset.toNat = s.consumed.length ∧ s.core.fileOffset.toNat ≤ s.core.fileSize.toNat
  failed : s.core.crState = .done → s.core.inputEof = false → s.core.errmsg ≠ none ∧
    ((∀ f ∈ s.files, Full s.consumed f) ∨ s.core.closed.length < s.core.opened.length)
  handles : s.core.closed.length + inFile s.core ≤ s.core.opened.length

theorem Full.append {consumed : List UInt8} {f : Received} (h : Full consumed f) (more : List UInt8) :
    Full (consumed ++ more) f := by
  simp only [Full, List.length_append] at h ⊢
  omega

theorem Exact.append {consumed : List UInt8} {f : Received} (h : Exact consumed f) (hf : Full consumed f)
    (more : List UInt8) : Exact (consumed ++ more) f := by
  have hle : f.start ≤ consumed.length := Nat.le_trans (Nat.le_add_right _ _) hf
  rw [Exact, List.drop_append_of_le_length hle, List.take_append_of_le_length]
  · exact h
  · rw [List.length_drop]
    simp only [Full] at hf
    omega

/-- A file that has received all there was so far receives what comes next. -/
theorem Exact.write {consumed data : List UInt8} {f : Received} {offset : Nat} (h : Exact consumed f)
    (hcurrent : f.start + offset = consumed.length) (hsize : offset + data.length ≤ f.size) :
    Exact (consumed ++ data) { f with contents := overwrite f.contents offset data } := by
  have hcontents : f.contents = consumed.drop f.start := by
    rw [h, List.take_of_length_le]
    rw [List.length_drop]
    omega
  have hlen : f.contents.length = offset := by
    rw [hcontents, List.length_drop]
    omega
  have hover : overwrite f.contents offset data = f.contents ++ data := by
    rw [overwrite, List.take_of_length_le (by omega), List.drop_of_length_le (by omega), List.append_nil]
  rw [Exact]
  dsimp only
  rw [hover, List.drop_append_of_le_length (by omega), ← hcontents, List.take_of_length_le]
  rw [List.length_append]
  omega

section Server

variable (srv : SftpServer σ)

/-! ## The turns keep it -/

theorem filesOk_full {sent : List UInt8} {s : St σ} (hsent : s.consumed ++ bytes s.data = sent)
    (hexact : ∀ f ∈ s.files, Exact s.consumed f) (hfull : ∀ f ∈ s.files, Full s.consumed f)
    (hnot : s.core.crState ≠ .data) (herr : s.core.crState = .done → s.core.errmsg ≠ none)
    (hhandles : s.core.closed.length + inFile s.core ≤ s.core.opened.length) : FilesOk sent s where
  sent := hsent
  exact := hexact
  past := fun f hf => hfull f (List.mem_of_mem_tail hf)
  full := fun _ _ => hfull
  current := fun h => absurd h hnot
  failed := fun h _ => ⟨herr h, .inl hfull⟩
  handles := hhandles

theorem filesOk_current {sent : List UInt8} {s : St σ} {f : Received} {t : List Received} (hfiles : s.files = f :: t)
    (hdata : s.core.crState = .data) (hsent : s.consumed ++ bytes s.data = sent) (hexact : Exact s.consumed f)
    (hrest : ∀ g ∈ t, Exact s.consumed g) (hpast : ∀ g ∈ t, Full s.consumed g)
    (hsize : f.size = s.core.fileSize.toNat) (hoffset : f.start + s.core.fileOffset.toNat = s.consumed.length)
    (hle : s.core.fileOffset.toNat ≤ s.core.fileSize.toNat)
    (hhandles : s.core.closed.length + 1 ≤ s.core.opened.length) : FilesOk sent s where
  sent := hsent
  exact := by
    rw [hfiles]
    exact List.forall_mem_cons.mpr ⟨hexact, hrest⟩
  past := by
    rw [hfiles]
    exact hpast
  full := fun h => absurd hdata h
  current := fun _ => ⟨f, t, hfiles, hsize, hoffset, hle⟩
  failed := fun h => by
    rw [hdata] at h
    cases h
  handles := by
    rw [inFile, hdata]
    exact hhandles

theorem inFile_command {c : Core σ} (h : c.crState = .command) : inFile c = 0 := by rw [inFile, h]

theorem inFile_start {c : Core σ} (h : c.crState = .start) : inFile c = 0 := by rw [inFile, h]

theorem inFile_done {c : Core σ} (h : c.crState = .done) : inFile c = 0 := by rw [inFile, h]

theorem inFile_data {c : Core σ} (h : c.crState = .data) : inFile c = 1 := by rw [inFile, h]

theorem inFile_trailer {c : Core σ} (h : c.crState = .trailer) : inFile c = 1 := by rw [inFile, h]

/-- After a command the files are as before, and perhaps a new one. -/
theorem command_files {sent : List UInt8} {s r : St σ} (hsent : s.consumed ++ bytes s.data = sent)
    (hfull : ∀ f ∈ s.files, Full s.consumed f) (hexact : ∀ f ∈ s.files, Exact s.consumed f)
    (hhandles : s.core.closed.length ≤ s.core.opened.length) (h : command srv s = some r) : FilesOk sent r := by
  rw [command] at h
  obtain ⟨c, hc, rfl⟩ := Option.map_eq_some_iff.mp h
  have hother : c.crState ≠ .data → (c.crState = .done → c.errmsg ≠ none) → c.opened = s.core.opened →
      c.closed = s.core.closed → inFile c = 0 → FilesOk sent { s with
        core := c
        files := if c.crState = .data then ⟨c.fileSize.toNat, s.consumed.length, []⟩ :: s.files else s.files } := by
    intro hnot herr hopened hclosed hin
    rw [if_neg hnot]
    refine filesOk_full hsent hexact hfull hnot herr ?_
    dsimp only
    rw [hopened, hclosed, hin]
    exact hhandles
  cases runCommand_outcome srv hc with
  | failed kept done errmsg =>
    exact hother (by rw [done]; decide) (fun _ => errmsg) kept.opened kept.closed (inFile_done done)
  | times kept start =>
    exact hother (by rw [start]; decide) (fun h => by rw [start] at h; cases h) kept.opened kept.closed (inFile_start start)
  | entered nonempty entry stack unmatched opened closed inputEof start =>
    exact hother (by rw [start]; decide) (fun h => by rw [start] at h; cases h) opened closed (inFile_start start)
  | left entry letter stack unmatched opened closed inputEof start =>
    exact hother (by rw [start]; decide) (fun h => by rw [start] at h; cases h) opened closed (inFile_start start)
  | opened nonempty stack unmatched opened closed inputEof data offset =>
    rw [if_pos data]
    refine filesOk_current (f := ⟨c.fileSize.toNat, s.consumed.length, []⟩) rfl data hsent ?_ hexact hfull rfl ?_ ?_ ?_
    · rw [Exact]
      dsimp only
      rw [List.drop_length, List.take_nil]
    · dsimp only
      rw [offset]
      rfl
    · dsimp only
      rw [offset]
      exact Nat.zero_le _
    · dsimp only
      rw [opened, closed, List.length_append]
      exact Nat.succ_le_succ hhandles

theorem consume_eq {s r : St σ} {a rest : List UInt8} (hbytes : bytes s.data = a ++ rest) (h : consume s a.length = some r) :
    r.core = s.core ∧ r.consumed = s.consumed ++ a ∧ r.files = s.files ∧ bytes r.data = rest := by
  obtain ⟨data, hc, hdata⟩ := consume_append hbytes
  rw [hc] at h
  cases h
  exact ⟨rfl, rfl, rfl, hdata⟩

theorem ofOption_go {o : Option (St σ)} {r : St σ} (h : Turn.ofOption o = .go r) : o = some r := by
  cases o with
  | none => cases h
  | some s =>
    cases h
    rfl

theorem commandTurn_files {sent : List UInt8} {s r : St σ} (h : FilesOk sent s) (heof : s.core.inputEof = false)
    (hc : s.core.crState = .command) (hr : commandTurn srv s = .go r) : FilesOk sent r := by
  rw [commandTurn, if_neg (by simp [heof])] at hr
  rcases prefix_cases s with ⟨-, hnone⟩ | ⟨p, rest, hp, -, hbytes⟩
  · rw [hnone] at hr
    cases hr
  · rw [hp] at hr
    obtain ⟨tail, htail⟩ := line_prefix p
    have hline : bytes s.data = line p ++ (tail ++ rest) := by rw [hbytes, ← List.append_assoc, htail]
    obtain ⟨s1, hs1, hr⟩ := Option.bind_eq_some_iff.mp (ofOption_go hr)
    obtain ⟨hcore, hconsumed, hfiles, hdata⟩ := consume_eq hline hs1
    have hd : s.core.crState ≠ .data := by rw [hc]; decide
    have hdone : s.core.crState ≠ .done := by rw [hc]; decide
    have hfull : ∀ f ∈ s1.files, Full s1.consumed f := by
      rw [hconsumed, hfiles]
      exact fun f hf => (h.full hd hdone f hf).append _
    have hexact : ∀ f ∈ s1.files, Exact s1.consumed f := by
      rw [hconsumed, hfiles]
      exact fun f hf => (h.exact f hf).append (h.full hd hdone f hf) _
    have hsent : s1.consumed ++ bytes s1.data = sent := by rw [hconsumed, hdata, List.append_assoc, ← hline, h.sent]
    have hhandles := h.handles
    rw [inFile_command hc, ← hcore] at hhandles
    split at hr
    · dsimp only at hr
      refine command_files srv ?_ ?_ ?_ ?_ hr
      · exact hsent
      · exact hfull
      · exact hexact
      · exact hhandles
    · cases hr
      rw [← hcore] at hc
      refine filesOk_full hsent hexact hfull ?_ ?_ ?_
      · dsimp only
        rw [hc]
        decide
      · intro h
        dsimp only at h
        rw [hc] at h
        cases h
      · have hin : inFile { s1.core with command := s1.core.command ++ line p } = 0 := inFile_command hc
        dsimp only
        rw [hin]
        exact hhandles

theorem trailerTurn_files {sent : List UInt8} {s r : St σ} (h : FilesOk sent s) (heof : s.core.inputEof = false)
    (ht : s.core.crState = .trailer) (hr : trailerTurn srv s = .go r) : FilesOk sent r := by
  rw [trailerTurn, if_neg (by simp [heof])] at hr
  rcases prefix_cases s with ⟨-, hnone⟩ | ⟨p, rest, hp, hne, hbytes⟩
  · rw [hnone] at hr
    cases hr
  · cases p with
    | nil => exact absurd rfl hne
    | cons b p =>
      rw [hp] at hr
      obtain ⟨s1, hs1, rfl⟩ := Option.map_eq_some_iff.mp (ofOption_go hr)
      have hsplit : bytes s.data = [b] ++ (p ++ rest) := hbytes
      obtain ⟨hcore, hconsumed, hfiles, hdata⟩ := consume_eq hsplit hs1
      have hd : s.core.crState ≠ .data := by rw [ht]; decide
      have hdone : s.core.crState ≠ .done := by rw [ht]; decide
      refine filesOk_full ?_ ?_ ?_ CrState.noConfusion CrState.noConfusion ?_
      · dsimp only
        rw [hconsumed, hdata, List.append_assoc, ← hsplit, h.sent]
      · dsimp only
        rw [hconsumed, hfiles]
        exact fun f hf => (h.exact f hf).append (h.full hd hdone f hf) _
      · dsimp only
        rw [hconsumed, hfiles]
        exact fun f hf => (h.full hd hdone f hf).append _
      · have hhandles := h.handles
        dsimp only [inFile]
        rw [hcore]
        omega

theorem dataTurn_files {sent : List UInt8} {s r : St σ} (h : FilesOk sent s) (heof : s.core.inputEof = false)
    (hd : s.core.crState = .data) (hr : dataTurn srv s = .go r) : FilesOk sent r := by
  obtain ⟨f, old, hfiles, hsize, hoffset, hle⟩ := h.current hd
  have hhandles := h.handles
  rw [inFile_data hd] at hhandles
  have hpast := h.past
  have hexact := h.exact
  rw [hfiles] at hpast hexact
  obtain ⟨hf, hold⟩ := List.forall_mem_cons.mp hexact
  unfold dataTurn at hr
  by_cases hlt : s.core.fileOffset < s.core.fileSize
  · rw [if_pos hlt, if_neg (by simp [heof])] at hr
    rcases prefix_cases s with ⟨-, hnone⟩ | ⟨p, rest, hp, hne, hbytes⟩
    · rw [hnone] at hr
      cases hr
    · rw [hp] at hr
      dsimp only at hr
      have hsub := UInt64.toNat_sub_of_le _ _ (UInt64.le_iff_toNat_le.mpr hle)
      generalize hlen : min p.length (s.core.fileSize - s.core.fileOffset).toNat = len at hr
      rw [hsub] at hlen
      have htake : (p.take len).length = len := by rw [List.length_take]; omega
      have hsplit : bytes s.data = p.take len ++ (p.drop len ++ rest) := by
        rw [← List.append_assoc, List.take_append_drop, hbytes]
      rcases hw : srv.write s.core.sf s.core.handle s.core.fileOffset (p.take len) with ⟨e | u, sf⟩
      · rw [hw] at hr
        cases hr
        have hfail := fail_crState { s.core with sf }
          (text "'" ++ mkstr s.core.filename ++ text "': unable to write to file: " ++ e.errmsg)
        have hkept := fail_kept (c := s.core) (d := { s.core with sf }) ⟨rfl, rfl, rfl, rfl, rfl⟩
          (text "'" ++ mkstr s.core.filename ++ text "': unable to write to file: " ++ e.errmsg)
        exact
          { sent := h.sent
            exact := h.exact
            past := h.past
            full := fun _ hdone => absurd hfail hdone
            current := fun hdata => by
              dsimp only at hdata
              rw [hfail] at hdata
              cases hdata
            failed := fun _ _ => by
              dsimp only
              rw [fail_errmsg, hkept.closed, hkept.opened]
              exact ⟨Option.some_ne_none _, .inr hhandles⟩
            handles := by
              dsimp only
              rw [inFile_done hfail, hkept.closed, hkept.opened]
              omega }
      · rw [hw] at hr
        obtain ⟨s1, hs1, rfl⟩ := Option.map_eq_some_iff.mp (ofOption_go hr)
        rw [← htake] at hs1
        obtain ⟨hcore, hconsumed, hfiles1, hdata⟩ := consume_eq hsplit hs1
        have hsum : (s.core.fileOffset + UInt64.ofNat len).toNat = s.core.fileOffset.toNat + len := by
          have hmax := s.core.fileSize.toNat_lt
          rw [UInt64.toNat_add, UInt64.toNat_ofNat', Nat.mod_eq_of_lt (a := len) (by omega), Nat.mod_eq_of_lt (by omega)]
        refine filesOk_current (s := { s1 with core := _, files := _ }) (t := old)
          (f := { f with contents := overwrite f.contents s.core.fileOffset.toNat (p.take len) }) ?_ ?_ ?_ ?_ ?_ ?_ ?_ ?_ ?_ ?_
        all_goals dsimp only
        · rw [hfiles1, hfiles, hcore]
          rfl
        · rw [hcore]
          exact hd
        · rw [hconsumed, hdata, List.append_assoc, ← hsplit, h.sent]
        · rw [hconsumed]
          exact hf.write hoffset (by omega)
        · rw [hconsumed]
          exact fun g hg => (hold g hg).append (hpast g hg) _
        · rw [hconsumed]
          exact fun g hg => (hpast g hg).append _
        · rw [hcore]
          exact hsize
        · rw [hcore, hsum, hconsumed, List.length_append, htake]
          omega
        · rw [hcore, hsum]
          omega
        · rw [hcore]
          exact hhandles
  · rw [if_neg hlt] at hr
    cases hr
    rw [UInt64.lt_iff_toNat_lt] at hlt
    refine filesOk_full h.sent h.exact ?_ CrState.noConfusion CrState.noConfusion hhandles
    dsimp only
    rw [hfiles]
    refine List.forall_mem_cons.mpr ⟨?_, hpast⟩
    rw [Full]
    omega

theorem turn_files {sent : List UInt8} {s r : St σ} (h : FilesOk sent s) (heof : s.core.inputEof = false)
    (hr : turn srv s = .go r) : FilesOk sent r := by
  unfold turn at hr
  split at hr
  · next hst =>
    cases hr
    have hhandles := h.handles
    rw [inFile_start hst] at hhandles
    exact filesOk_full h.sent h.exact (h.full (by rw [hst]; decide) (by rw [hst]; decide)) CrState.noConfusion
      CrState.noConfusion hhandles
  · next hst => exact commandTurn_files srv h heof hst hr
  · next hst => exact dataTurn_files srv h heof hst hr
  · next hst => exact trailerTurn_files srv h heof hst hr
  · cases hr

/-! ## Sessions -/

theorem coroutineLoop_files {sent : List UInt8} (fuel : Nat) : ∀ s r : St σ, FilesOk sent s → s.core.inputEof = false →
    coroutineLoop srv fuel s = some r → FilesOk sent r := by
  induction fuel with
  | zero =>
    intro s r _ _ hr
    cases hr
  | succ fuel ih =>
    intro s r h heof hr
    have hturn := turn_ok srv heof
    rw [coroutineLoop] at hr
    cases ht : turn srv s with
    | wait =>
      rw [ht] at hr
      cases hr
      exact h
    | crash =>
      rw [ht] at hr
      cases hr
    | go s' =>
      rw [ht] at hr hturn
      exact ih s' r (turn_files srv h heof ht) hturn.1 hr

theorem call_files {sent : List UInt8} {s r : St σ} (h : FilesOk sent s) (heof : s.core.inputEof = false) (c : Call)
    (hr : call srv s c = some r) : FilesOk (sent ++ c.data) r := by
  cases c with
  | start =>
    rw [Call.data, List.append_nil]
    exact coroutineLoop_files srv _ s r h heof hr
  | send data =>
    rw [call, send, if_neg (by simp [heof])] at hr
    refine coroutineLoop_files srv _ { s with data := bufchainAdd s.data data } r ?_ heof hr
    have hsent : s.consumed ++ bytes (bufchainAdd s.data data) = sent ++ data := by
      rw [bytes_bufchainAdd, ← List.append_assoc, h.sent]
    exact ⟨hsent, h.exact, h.past, h.full, h.current, h.failed, h.handles⟩

theorem run_files (calls : List Call) : ∀ {sent : List UInt8} {s r : St σ}, FilesOk sent s → Ready s →
    run (call srv) s calls = some r → FilesOk (sent ++ stream calls) r := by
  induction calls with
  | nil =>
    intro sent s r h _ hr
    cases hr
    rw [stream, List.flatMap_nil, List.append_nil]
    exact h
  | cons c calls ih =>
    intro sent s r h hready hr
    rw [run_cons] at hr
    obtain ⟨s', hs', hr⟩ := Option.bind_eq_some_iff.mp hr
    have hspec := call_spec srv hready c
    rw [hs'] at hspec
    have hrest := ih (call_files srv h hready.open_ c hs') (hspec.2.1.ready hspec.1) hr
    rw [List.append_assoc] at hrest
    exact hrest

theorem run_ready {s r : St σ} (h : Ready s) {calls : List Call} (hr : run (call srv) s calls = some r) : Ready r := by
  have hspec := run_spec srv calls h
  rw [hr] at hspec
  exact hspec.1

theorem scpSinkNew_ready (sf : σ) (pathname : List UInt8) (isdir : Bool) : Ready (scpSinkNew srv sf pathname isdir) :=
  ⟨rfl, .inr rfl⟩

theorem scpSinkNew_files (sf : σ) (pathname : List UInt8) (isdir : Bool) : FilesOk [] (scpSinkNew srv sf pathname isdir) := by
  have hnone : ∀ {P : Received → Prop}, ∀ f ∈ ([] : List Received), P f := fun f hf => absurd hf List.not_mem_nil
  exact filesOk_full rfl hnone hnone CrState.noConfusion CrState.noConfusion (Nat.le_refl 0)

/-- Every byte of a session without a write that failed is where it belongs. -/
theorem session_exact {sf : σ} {pathname : List UInt8} {isdir : Bool} {calls : List Call} {r : St σ}
    (hr : session srv (scpSinkNew srv sf pathname isdir) calls = some r) (hclosed : r.core.opened.Perm r.core.closed) :
    ∀ f ∈ r.files, Exact (stream calls) f := by
  obtain ⟨s, hs, hr⟩ := Option.bind_eq_some_iff.mp hr
  have hfiles := run_files srv calls (scpSinkNew_files srv sf pathname isdir) (scpSinkNew_ready srv sf pathname isdir) hs
  have hready := run_ready srv (scpSinkNew_ready srv sf pathname isdir) hs
  rw [List.nil_append] at hfiles
  rw [eof_spec] at hr
  cases hr
  have hsent := hfiles.sent
  intro f hf
  rcases hready.drained with hdone | hdata
  · rcases (hfiles.failed hdone hready.open_).2 with hfull | hlt
    · rw [← hsent]
      exact (hfiles.exact f hf).append (hfull f hf) _
    · have hlen := hclosed.length_eq
      dsimp only at hlen
      rw [settle_done (c := { s.core with inputEof := true }) hdone,
        endOfInput_of srv (c := { s.core with inputEof := true }) hdone] at hlen
      dsimp only [endAt] at hlen
      omega
  · rw [hdata, bytes_nil, List.append_nil] at hsent
    rw [← hsent]
    exact hfiles.exact f hf

end Server

end Putty.Scp.Sink
