/-
  Putty.Scp.SourceRuns — the source over whole runs.

  Proved: the assertions hold, the observer accepts all that is sent, and every handle is
  closed by the end, exactly in the runs where no directory of a recursive transfer fails
  to open and nothing ends the transfer while a handle is open (`source_discipline_iff`).
  A directory that cannot be opened has its D in the queue when its E is asserted to be
  alone there (`unreadable_directory_fails_assertion`).
-/

import Putty.Lib.Run
import Putty.Scp.Discipline

namespace Putty.Scp.Source

open Putty.Utils Putty.Lib

variable {σ : Type}

section Server

variable (srv : SftpServer σ) (wcMatchPl : List UInt8 → List UInt8 → Bool)

/-! ## What a call that does not meet its condition does -/

/-- The transfer is over, with a handle still open. -/
structure Leaked (s : St σ) : Prop where
  finished : s.finished = true
  handles : s.opened.Perm (s.closed ++ handles s.stack)
  held : Source.handles s.stack ≠ []

theorem abort_leaked {s : St σ} (hs : Shape s) (hheld : handles s.stack ≠ []) (msg : List UInt8) : Leaked (abort s msg) :=
  ⟨rfl, hs.handles, hheld⟩

/-- The E is asserted to be alone while the D is still pending. -/
theorem processDirectory_fails {s : St σ} {node : StackEntry} {rest : List StackEntry} (hp : s.pendingCommands = [])
    (hwc : node.wildcard = none) {e : SftpError} (herr : (srv.opendir s.sf node.pathname).1 = .error e) :
    processDirectory srv s node rest = none := by
  unfold processDirectory
  split
  · have hcd : sendCD { s with stack := rest } .D node.attrs 0 node.pathname = some { s with
        stack := rest, pendingCommands := timesOf s node.attrs ++
          [.CD .D (node.attrs.permissions &&& 0o7777) 0 (leaf node.pathname)] } := by
      rw [sendCD, if_pos hp]
      simp only [timesOf, List.append_nil]
    rcases hop : srv.opendir s.sf node.pathname with ⟨e' | handle, sf⟩
    · simp only [hwc, Option.isNone_none, if_true, hcd, Option.bind_eq_bind, Option.bind_some, hop]
      rw [sendE, if_neg]
      simp [err]
    · rw [hop] at herr
      cases herr
  · rfl

theorem processHead_bad {s : St σ} (hs : Shape s) (hp : s.pendingCommands = []) (hno : ¬ HeadReadable srv s)
    {backlog : Backlog} {s' : St σ} (h' : processHead srv wcMatchPl backlog s = some s') : Leaked s' := by
  cases hstack : s.stack with
  | nil =>
    apply absurd _ hno
    intro node hn
    rw [hstack] at hn
    cases hn
  | cons node rest =>
    rw [processHead_cons srv wcMatchPl hstack] at h'
    by_cases hfile : node.type = .readfile →
        0 < readLimit s → ∃ data, (srv.read s.sf node.handle s.fileOffset (readLimit s)).1 = .ok data
    · by_cases hdir : node.type = .name → node.attrs.isDirectory = true → node.wildcard = none →
          ∃ handle, (srv.opendir s.sf node.pathname).1 = .ok handle
      · apply absurd _ hno
        intro n hn
        rw [hstack] at hn
        cases hn
        exact ⟨hfile, hdir⟩
      · simp only [Classical.not_imp] at hdir
        obtain ⟨htype, hisdir, hwc, hnot⟩ := hdir
        rw [htype] at h'
        dsimp only at h'
        rw [if_pos hisdir] at h'
        cases hop : (srv.opendir s.sf node.pathname).1 with
        | ok handle => exact absurd ⟨handle, hop⟩ hnot
        | error e =>
          rw [processDirectory_fails srv hp hwc hop] at h'
          cases h'
    · simp only [Classical.not_imp] at hfile
      obtain ⟨htype, hlimit, hnot⟩ := hfile
      rw [htype] at h'
      dsimp only at h'
      unfold processReadfile at h'
      rw [if_pos hlimit] at h'
      rcases hread : srv.read s.sf node.handle s.fileOffset (readLimit s) with ⟨e | data, sf⟩
      · rw [hread] at h'
        cases h'
        refine abort_leaked (s := { s with sf }) ⟨hs.below, hs.nodes, hs.handles⟩ ?_ _
        dsimp only
        rw [hstack, handles_cons, isOpen, htype]
        simp
      · exact absurd ⟨data, by rw [hread]⟩ hnot

theorem processStack_bad {s : St σ} (hs : Shape s) (hno : ¬ Smooth srv s) {backlog : Backlog} {s' : St σ}
    (h' : processStack srv wcMatchPl backlog s = some s') : Leaked s' := by
  unfold processStack at h'
  by_cases habandon : Abandons s → handles s.stack = []
  · have hreach : ¬ (ReachesHead s → HeadReadable srv s) := fun h => hno ⟨habandon, h⟩
    rw [Classical.not_imp] at hreach
    obtain ⟨⟨hth, hc⟩, hnot⟩ := hreach
    rw [hth, if_neg Bool.false_ne_true] at h'
    dsimp only at h'
    rcases sendPending_cases s with ⟨-, he, -⟩ | ⟨-, heof, hne, -⟩ | ⟨-, heof, hlt, -⟩
    · rw [he, if_pos rfl] at h'
      exact processHead_bad srv wcMatchPl (s := sentAll s) ⟨hs.below, hs.nodes, hs.handles⟩ rfl hnot h'
    · rcases hc with hc | ⟨hc, -⟩
      · exact absurd hc hne
      · rw [hc] at heof
        cases heof
    · rcases hc with hc | ⟨-, hc⟩
      · rw [hc] at hlt
        exact absurd hlt (Nat.not_lt_zero _)
      · omega
  · rw [Classical.not_imp] at habandon
    obtain ⟨⟨hth, heof, hne⟩, hheld⟩ := habandon
    rw [hth, if_neg Bool.false_ne_true] at h'
    dsimp only at h'
    rcases sendPending_cases s with ⟨-, -, hc⟩ | ⟨h2, -, -, he⟩ | ⟨-, heof', -⟩
    · rcases hc with hc | ⟨hc, -⟩
      · exact absurd hc hne
      · rw [hc] at heof
        cases heof
    · rw [h2, if_neg Bool.false_ne_true, he] at h'
      cases h'
      exact abort_leaked hs hheld _
    · rw [heof'] at heof
      cases heof

end Server

/-! ## The client's bytes -/

theorem feed_cases (data : List UInt8) : ∀ s : St σ,
    (feed s data).2 = true ∧ (∃ acks newline, (feed s data).1 = { s with acks := acks, expectNewline := newline }) ∨
      (feed s data).2 = false ∧
        ∃ acks newline msg, (feed s data).1 = abort { s with acks := acks, expectNewline := newline } msg := by
  induction data with
  | nil => exact fun s => .inl ⟨rfl, s.acks, s.expectNewline, rfl⟩
  | cons c rest ih =>
    intro s
    unfold feed
    split
    · split
      · exact ih _
      · exact ih s
    · split
      · exact ih _
      · split
        · exact ih _
        · split
          · exact .inr ⟨rfl, s.acks, s.expectNewline, _, rfl⟩
          · exact .inr ⟨rfl, s.acks, s.expectNewline, _, rfl⟩

/-! ## Runs -/

section Server

variable (srv : SftpServer σ) (wcMatchPl : List UInt8 → List UInt8 → Bool)

/-- What holds in every state of a good run. -/
structure Good (s : St σ) : Prop where
  discipline : Watched s
  closed : s.finished = true → s.opened.Perm s.closed

theorem Inv.good {s : St σ} (h : Inv s) : Good s := by
  refine ⟨h.watched, fun hf => ?_⟩
  rcases h.live with ⟨o, ho⟩ | ⟨-, hc, -⟩
  · rw [ho.finished] at hf
    cases hf
  · have := h.shape.handles
    rwa [hc, List.append_nil] at this

theorem Leaked.not_good {s : St σ} (h : Leaked s) : ¬ Good s := by
  intro hg
  have hlen := (hg.closed h.finished).length_eq
  rw [h.handles.length_eq, List.length_append] at hlen
  exact h.held (List.length_eq_zero_iff.mp (by omega))

theorem init_inv (sf : σ) (pathname : List UInt8) (recursive preserve : Bool) : Inv (init sf pathname recursive preserve) := by
  refine ⟨⟨fun n hn => absurd hn List.not_mem_nil, ?_, List.Perm.refl _⟩, .inl ⟨Observer.start, rfl, rfl, rfl, rfl, rfl, rfl, rfl⟩⟩
  intro n hn
  rw [List.mem_singleton.mp hn]
  refine ⟨fun ht => ?_, fun _ => rfl⟩
  cases ht

theorem step_inv {s : St σ} (h : Inv s) {e : Ev} (hok : Allowed srv s e) : ∃ s', step srv wcMatchPl s e = some s' ∧ Inv s' := by
  have hs := h.shape
  rcases h.live with ⟨o, ho⟩ | ⟨hf, hc, hw⟩
  · have hf := ho.finished
    cases e with
    | send data backlog =>
      rw [step, if_neg (by rw [hf]; simp)]
      have hok' := hok hf
      rcases feed_cases data s with ⟨h2, acks, newline, he⟩ | ⟨h2, acks, newline, msg, he⟩
      · rw [if_pos h2, he] at hok'
        dsimp only
        rw [if_pos h2, he]
        exact processStack_inv srv wcMatchPl (s := { s with acks := acks, expectNewline := newline }) (o := o)
          ⟨hf, ho.watched, ho.ended, ho.times, ho.depth, ho.phase⟩ ⟨hs.below, hs.nodes, hs.handles⟩ hok' backlog
      · rw [if_neg (by rw [h2]; simp)] at hok'
        dsimp only
        rw [if_neg (by rw [h2]; simp), he]
        exact ⟨_, rfl, abort_inv (s := { s with acks := acks, expectNewline := newline }) ⟨hs.below, hs.nodes, hs.handles⟩
          ho.watchedLog hok' msg⟩
    | eof backlog =>
      rw [step, if_neg (by rw [hf]; simp)]
      exact processStack_inv srv wcMatchPl (s := { s with eof := true }) (o := o)
        ⟨hf, ho.watched, ho.ended, ho.times, ho.depth, ho.phase⟩ ⟨hs.below, hs.nodes, hs.handles⟩ (hok hf) backlog
    | throttle throttled backlog =>
      rw [step, if_neg (by rw [hf]; simp)]
      cases throttled with
      | true => exact ⟨_, rfl, ⟨hs.below, hs.nodes, hs.handles⟩,
          .inl ⟨o, hf, ho.watched, ho.ended, ho.times, ho.depth, ho.phase⟩⟩
      | false =>
        rw [if_neg Bool.false_ne_true]
        exact processStack_inv srv wcMatchPl (s := { s with throttled := false }) (o := o)
          ⟨hf, ho.watched, ho.ended, ho.times, ho.depth, ho.phase⟩ ⟨hs.below, hs.nodes, hs.handles⟩ (hok hf rfl) backlog
    | callback backlog =>
      rw [step]
      by_cases hcb : s.callbacks = 0
      · rw [if_pos hcb]
        exact ⟨s, rfl, h⟩
      · rw [if_neg hcb]
        dsimp only
        rw [if_neg (by rw [hf]; simp)]
        exact processStack_inv srv wcMatchPl (s := { s with callbacks := s.callbacks - 1 }) (o := o)
          ⟨hf, ho.watched, ho.ended, ho.times, ho.depth, ho.phase⟩ ⟨hs.below, hs.nodes, hs.handles⟩ (hok hcb hf) backlog
  · cases e with
    | send data backlog => exact ⟨s, by rw [step, if_pos hf], h⟩
    | eof backlog => exact ⟨s, by rw [step, if_pos hf], h⟩
    | throttle throttled backlog => exact ⟨s, by rw [step, if_pos hf], h⟩
    | callback backlog =>
      rw [step]
      by_cases hcb : s.callbacks = 0
      · rw [if_pos hcb]
        exact ⟨s, rfl, h⟩
      · rw [if_neg hcb]
        dsimp only
        rw [if_pos hf]
        exact ⟨_, rfl, ⟨hs.below, hs.nodes, hs.handles⟩, .inr ⟨hf, hc, hw⟩⟩

theorem step_bad {s : St σ} (h : Inv s) {e : Ev} (hno : ¬ Allowed srv s e) {s' : St σ}
    (h' : step srv wcMatchPl s e = some s') : Leaked s' := by
  have hs := h.shape
  cases e with
  | send data backlog =>
    rw [Allowed, Classical.not_imp] at hno
    obtain ⟨hf, hno⟩ := hno
    rw [step, if_neg (by rw [hf]; simp)] at h'
    dsimp only at h'
    rcases feed_cases data s with ⟨h2, acks, newline, he⟩ | ⟨h2, acks, newline, msg, he⟩
    · rw [if_pos h2, he] at hno h'
      exact processStack_bad srv wcMatchPl (s := { s with acks := acks, expectNewline := newline })
        ⟨hs.below, hs.nodes, hs.handles⟩ hno h'
    · rw [if_neg (by rw [h2]; simp)] at hno h'
      rw [he] at h'
      cases h'
      exact abort_leaked (s := { s with acks := acks, expectNewline := newline }) ⟨hs.below, hs.nodes, hs.handles⟩ hno msg
  | eof backlog =>
    rw [Allowed, Classical.not_imp] at hno
    obtain ⟨hf, hno⟩ := hno
    rw [step, if_neg (by rw [hf]; simp)] at h'
    exact processStack_bad srv wcMatchPl (s := { s with eof := true }) ⟨hs.below, hs.nodes, hs.handles⟩ hno h'
  | throttle throttled backlog =>
    rw [Allowed, Classical.not_imp, Classical.not_imp] at hno
    obtain ⟨hf, rfl, hno⟩ := hno
    rw [step, if_neg (by rw [hf]; simp), if_neg Bool.false_ne_true] at h'
    exact processStack_bad srv wcMatchPl (s := { s with throttled := false }) ⟨hs.below, hs.nodes, hs.handles⟩ hno h'
  | callback backlog =>
    rw [Allowed, Classical.not_imp, Classical.not_imp] at hno
    obtain ⟨hcb, hf, hno⟩ := hno
    rw [step, if_neg hcb] at h'
    dsimp only at h'
    rw [if_neg (by rw [hf]; simp)] at h'
    exact processStack_bad srv wcMatchPl (s := { s with callbacks := s.callbacks - 1 }) ⟨hs.below, hs.nodes, hs.handles⟩ hno h'

/-- The source keeps to the protocol, closes its handles and meets its assertions exactly
    in the runs all of whose steps are allowed. -/
theorem source_discipline_iff (sf : σ) (pathname : List UInt8) (recursive preserve : Bool) (evs : List Ev) :
    Always (step srv wcMatchPl) (fun _ s => Good s) (init sf pathname recursive preserve) evs ↔
      Along (step srv wcMatchPl) (Allowed srv) (init sf pathname recursive preserve) evs :=
  always_iff_along (I := fun _ s => Inv s) (init_inv sf pathname recursive preserve) (fun _ _ h => h.good)
    (fun _ _ _ h hok => step_inv srv wcMatchPl h hok) (fun _ _ _ _ h hno h' => (step_bad srv wcMatchPl h hno h').not_good) evs

end Server

/-- A server with one directory, or one file of one byte; neither can be read. -/
def unreadable (permissions : ULong) : SftpServer Unit where
  stat _ _ _ := (.ok ⟨attrPermissions ||| attrSize, 1, permissions, 0, 0⟩, ())
  fstat _ _ := (.ok ⟨attrPermissions ||| attrSize, 1, permissions, 0, 0⟩, ())
  openFile _ _ _ _ := (.ok [1], ())
  opendir _ _ := (.error ⟨3, text "permission denied"⟩, ())
  readdir _ _ _ _ := (.error ⟨3, []⟩, ())
  read _ _ _ _ := (.error ⟨3, []⟩, ())
  write _ _ _ _ := (.ok (), ())
  mkdir _ _ _ := (.error ⟨3, []⟩, ())
  close _ _ := (.ok (), ())
  write_nil _ _ _ := rfl
  write_append _ _ _ _ _ := rfl
  read_le _ _ _ _ _ h := by cases h

/-- `scp -r -f dir`: the client's first ack, then the callback. -/
theorem unreadable_directory_fails_assertion :
    (run (step (unreadable permsDirectory) fun _ _ => false) (init () (text "dir") true false)
      [.send [0] 0, .callback 0]).isNone = true := by
  decide

end Putty.Scp.Source
