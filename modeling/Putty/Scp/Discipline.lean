/-
  Putty.Scp.Discipline — the source keeps to the protocol.

  The commands still queued belong to the log already: an observer who also sees them sent
  knows how many directories are open and where the file at the head of the stack is
  (`Live`). Every handle that was opened is closed or on the stack (`Shape`).

  Proved: a call of scp_source_process_stack keeps both, under a condition on the state it
  finds and on what the server answers (`Smooth`, `processStack_inv`).
-/

import Putty.Scp.Protocol

namespace Putty.Scp.Source

open Putty.Utils

variable {σ : Type}

/-! ## The invariant -/

def isOpen (node : StackEntry) : Bool := node.type == .readdir || node.type == .readfile

/-- The handles of the nodes. -/
def handles (stack : List StackEntry) : List (List UInt8) := (stack.filter isOpen).map (·.handle)

/-- The directories a D was sent for. -/
def depth (stack : List StackEntry) : Nat := stack.countP fun node => node.type == .readdir && node.wildcard.isNone

/-- What the channel sees when the pending commands are sent. -/
def flat (pending : List Command) : List Out :=
  pending.flatMap fun cmd => .ack :: (if cmd.bytes ≠ [] then [.command cmd] else [])

/-- A directory is only sent where it may be, and the root path alone is on its stack. -/
structure NodeOk (recursive : Bool) (stack : List StackEntry) (node : StackEntry) : Prop where
  name : node.type = .name → node.attrs.isDirectory = true → recursive = true ∨ node.wildcard.isSome = true
  root : node.type = .rootpath → stack.tail = []

theorem NodeOk.of_open {recursive : Bool} {stack : List StackEntry} {node : StackEntry} (h : isOpen node = true) :
    NodeOk recursive stack node := by
  constructor
  · intro ht
    simp [isOpen, ht] at h
  · intro ht
    simp [isOpen, ht] at h

theorem isOpen_readdir {node : StackEntry} (h : node.type = .readdir) : isOpen node = true := by rw [isOpen, h]; rfl

structure Shape (s : St σ) : Prop where
  below : ∀ node ∈ s.stack.tail, node.type = .readdir
  nodes : ∀ node ∈ s.stack, NodeOk s.recursive s.stack node
  handles : s.opened.Perm (s.closed ++ handles s.stack)

def HeadPhase (s : St σ) (o : Observer) : Prop :=
  match s.stack.head? with
  | none => o.phase = .idle ∧ o.credit = false
  | some node =>
    if node.type = .readfile then o.left = some (s.fileSize - s.fileOffset).toNat
    else o.phase = .idle ∧ o.credit = false

/-- The transfer goes on; `o` has seen the pending commands too. -/
structure Live (s : St σ) (o : Observer) : Prop where
  finished : s.finished = false
  watched : Observer.start.watch (s.log ++ flat s.pendingCommands) = some o
  ended : o.ended = false
  times : o.times = false
  depth : o.depth = depth s.stack
  phase : HeadPhase s o

def Watched (s : St σ) : Prop := ∃ o, Observer.start.watch s.log = some o

structure Inv (s : St σ) : Prop where
  shape : Shape s
  live : (∃ o, Live s o) ∨ s.finished = true ∧ handles s.stack = [] ∧ Watched s

/-! ## The observer -/

namespace Observer

theorem observe_ended {o p : Observer} {x : Out} (h : o.observe x = some p) (he : o.ended = true) : p.ended = true := by
  cases x with
  | exitStatus n => cases n <;> simp [observe, he] at h
  | eof =>
    simp only [observe, he, if_true] at h
    cases h
    exact he
  | close m =>
    simp only [observe, he, if_true] at h
    cases h
    exact he
  | ack => simp [observe, he] at h
  | command c => simp [observe, he] at h
  | data b => simp [observe, he] at h
  | zero => simp [observe, he] at h
  | stderr m => simp [observe, he] at h

theorem watch_ended {xs : List Out} : ∀ {o p : Observer}, o.watch xs = some p → o.ended = true → p.ended = true := by
  induction xs with
  | nil =>
    intro o p h he
    cases h
    exact he
  | cons x xs ih =>
    intro o p h he
    obtain ⟨q, hq, hp⟩ := Option.bind_eq_some_iff.mp (h : (o.observe x).bind (fun q => q.watch xs) = some p)
    exact ih hp (observe_ended hq he)

end Observer

theorem Live.watchedLog {s : St σ} {o : Observer} (h : Live s o) :
    ∃ q, Observer.start.watch s.log = some q ∧ q.ended = false := by
  obtain ⟨q, hq, hrest⟩ := Observer.watch_of_append h.watched
  refine ⟨q, hq, ?_⟩
  cases he : q.ended with
  | false => rfl
  | true =>
    have := Observer.watch_ended hrest he
    rw [h.ended] at this
    cases this

theorem Inv.watched {s : St σ} (h : Inv s) : Watched s := by
  rcases h.live with ⟨o, ho⟩ | ⟨-, -, hw⟩
  · obtain ⟨q, hq, -⟩ := ho.watchedLog
    exact ⟨q, hq⟩
  · exact hw

theorem command_bytes_ne_nil {cmd : Command} (h : cmd ≠ .wait) : cmd.bytes ≠ [] := by
  cases cmd with
  | T m a => simp [Command.bytes, text]
  | CD c p n name => simp [Command.bytes]
  | E => simp [Command.bytes, text]
  | wait => exact absurd rfl h

@[simp] theorem flat_nil : flat [] = [] := rfl

theorem flat_append (xs ys : List Command) : flat (xs ++ ys) = flat xs ++ flat ys := List.flatMap_append

/-! ## The end of a transfer -/

theorem abort_watched {s : St σ} (hw : ∃ q, Observer.start.watch s.log = some q ∧ q.ended = false) (msg : List UInt8) :
    Watched (abort s msg) := by
  obtain ⟨q, hq, he⟩ := hw
  refine ⟨{ q with ended := true }, ?_⟩
  rw [abort, Observer.watch_append, hq]
  simp [Observer.watch, Observer.observe, he]

theorem abort_inv {s : St σ} (hs : Shape s) (hw : ∃ q, Observer.start.watch s.log = some q ∧ q.ended = false)
    (hclosed : handles s.stack = []) (msg : List UInt8) : Inv (abort s msg) :=
  ⟨⟨hs.below, hs.nodes, hs.handles⟩, .inr ⟨rfl, hclosed, abort_watched hw msg⟩⟩

/-! ## Sending the pending commands -/

/-- The state when all of them have been sent. -/
def sentAll (s : St σ) : St σ :=
  { s with acks := s.acks - s.pendingCommands.length, pendingCommands := [], log := s.log ++ flat s.pendingCommands }

theorem sendPending_cases (s : St σ) :
    (sendPending s s.pendingCommands).2 = true ∧ sendPending s s.pendingCommands = (sentAll s, true) ∧
        (s.pendingCommands = [] ∨ s.eof = false ∧ s.pendingCommands.length ≤ s.acks) ∨
      (sendPending s s.pendingCommands).2 = false ∧ s.eof = true ∧ s.pendingCommands ≠ [] ∧
        (sendPending s s.pendingCommands).1 = abort s (text "scp: received client EOF, abandoning transfer") ∨
      (sendPending s s.pendingCommands).2 = false ∧ s.eof = false ∧ s.acks < s.pendingCommands.length ∧
        ∃ sent rest, s.pendingCommands = sent ++ rest ∧
          (sendPending s s.pendingCommands).1 = { s with acks := 0, pendingCommands := rest, log := s.log ++ flat sent } := by
  have hgen : ∀ (pending : List Command) (t : St σ),
      (sendPending t pending).2 = true ∧ (sendPending t pending).1 =
          { t with acks := t.acks - pending.length, pendingCommands := [], log := t.log ++ flat pending } ∧
          (pending = [] ∨ t.eof = false ∧ pending.length ≤ t.acks) ∨
        (sendPending t pending).2 = false ∧ t.eof = true ∧ pending ≠ [] ∧
          (sendPending t pending).1 = abort { t with pendingCommands := pending } (text "scp: received client EOF, abandoning transfer") ∨
        (sendPending t pending).2 = false ∧ t.eof = false ∧ t.acks < pending.length ∧
          ∃ sent rest, pending = sent ++ rest ∧
            (sendPending t pending).1 = { t with acks := 0, pendingCommands := rest, log := t.log ++ flat sent } := by
    intro pending
    induction pending with
    | nil =>
      intro t
      exact .inl ⟨rfl, by simp [sendPending], .inl rfl⟩
    | cons cmd rest ih =>
      intro t
      rw [sendPending]
      by_cases heof : t.eof = true
      · rw [if_pos heof]
        exact .inr (.inl ⟨rfl, heof, List.cons_ne_nil _ _, rfl⟩)
      · have heof' : t.eof = false := by simpa using heof
        rw [if_neg heof]
        by_cases hacks : t.acks = 0
        · rw [if_pos hacks]
          refine .inr (.inr ⟨rfl, heof', by rw [hacks]; exact Nat.succ_pos _, [], cmd :: rest, rfl, ?_⟩)
          rw [← hacks]
          simp
        · rw [if_neg hacks]
          generalize ht : (if cmd.bytes ≠ [] then out (out { t with acks := t.acks - 1 } .ack) (.command cmd)
            else out { t with acks := t.acks - 1 } .ack) = t1
          have hlog : t1 = { t with acks := t.acks - 1, log := t.log ++ flat [cmd] } := by
            rw [← ht]
            split <;> rename_i hb <;> simp [out, flat, hb]
          have h1 : t1.eof = t.eof := by rw [hlog]
          have h2 : t1.acks = t.acks - 1 := by rw [hlog]
          have hflat : ∀ xs, t.log ++ flat [cmd] ++ flat xs = t.log ++ flat (cmd :: xs) := fun xs => by
            rw [List.append_assoc, ← flat_append]
            rfl
          dsimp only
          rw [ht]
          rcases ih t1 with ⟨hr, he, hc⟩ | ⟨-, heof1, -⟩ | ⟨hr, heof1, hlt, sent, rest', hrest, he⟩
          · left
            refine ⟨hr, ?_, .inr ⟨heof', ?_⟩⟩
            · rw [he, hlog]
              simp only [hflat, List.length_cons]
              congr 1
              omega
            · rcases hc with rfl | ⟨-, hle⟩
              · exact Nat.pos_of_ne_zero hacks
              · rw [h2] at hle
                rw [List.length_cons]
                omega
          · rw [h1, heof'] at heof1
            cases heof1
          · right
            right
            refine ⟨hr, heof', ?_, cmd :: sent, rest', by rw [hrest]; rfl, ?_⟩
            · rw [h2] at hlt
              rw [List.length_cons]
              omega
            · rw [he, hlog]
              simp only [hflat]
  rcases hgen s.pendingCommands s with ⟨h1, h2, h3⟩ | h | h
  · exact .inl ⟨h1, Prod.ext h2 h1, h3⟩
  · exact .inr (.inl h)
  · exact .inr (.inr h)

/-! ## Between two commands

  `Calm`: nothing is pending, and no file is being sent. -/

structure Calm (s : St σ) (o : Observer) : Prop where
  finished : s.finished = false
  pending : s.pendingCommands = []
  watched : Observer.start.watch s.log = some o
  ended : o.ended = false
  times : o.times = false
  depth : o.depth = depth s.stack
  phase : o.phase = .idle
  credit : o.credit = false

theorem Calm.live {s : St σ} {o : Observer} (h : Calm s o) (hhead : ∀ node ∈ s.stack.head?, node.type ≠ .readfile) : Live s o where
  finished := h.finished
  watched := by rw [h.pending, flat_nil, List.append_nil]; exact h.watched
  ended := h.ended
  times := h.times
  depth := h.depth
  phase := by
    unfold HeadPhase
    split
    · exact ⟨h.phase, h.credit⟩
    · next node hn => rw [if_neg (hhead node hn)]; exact ⟨h.phase, h.credit⟩

theorem Calm.err {s : St σ} {o : Observer} (h : Calm s o) (msg : List UInt8) : Calm (err s msg) o := by
  refine ⟨h.finished, h.pending, ?_, h.ended, h.times, h.depth, h.phase, h.credit⟩
  rw [Source.err, Observer.watch_append, h.watched]
  simp [Observer.watch, Observer.observe, h.ended]

theorem Calm.inv {s : St σ} {o : Observer} (h : Calm s o) (hs : Shape s)
    (hhead : ∀ node ∈ s.stack.head?, node.type ≠ .readfile) : Inv s := ⟨hs, .inl ⟨o, h.live hhead⟩⟩

theorem requeue_inv {s : St σ} (h : Inv s) : Inv (requeue s) := by
  refine ⟨⟨h.shape.below, h.shape.nodes, h.shape.handles⟩, ?_⟩
  rcases h.live with ⟨o, ho⟩ | ⟨hf, hc, hw⟩
  · exact .inl ⟨o, ⟨ho.finished, ho.watched, ho.ended, ho.times, ho.depth, ho.phase⟩⟩
  · exact .inr ⟨hf, hc, hw⟩

/-- All nodes are directories being read. -/
def Dirs (stack : List StackEntry) : Prop := ∀ node ∈ stack, node.type = .readdir

theorem Dirs.head {stack : List StackEntry} (h : Dirs stack) : ∀ node ∈ stack.head?, node.type ≠ .readfile := by
  intro node hn hr
  rw [h node (List.mem_of_mem_head? hn)] at hr
  cases hr

@[simp] theorem handles_cons (node : StackEntry) (rest : List StackEntry) :
    handles (node :: rest) = if isOpen node then node.handle :: handles rest else handles rest := by
  unfold handles
  rw [List.filter_cons]
  split <;> rfl

@[simp] theorem depth_cons (node : StackEntry) (rest : List StackEntry) :
    depth (node :: rest) = depth rest + if node.type == .readdir && node.wildcard.isNone then 1 else 0 := by
  rw [depth, List.countP_cons]
  rfl

/-- A name is put on top of the directories. -/
theorem pushName_inv {s : St σ} {o : Observer} (h : Calm s o) (hs : Shape s) (hd : Dirs s.stack) (pathname : List UInt8)
    (attrs : FxpAttrs) (wc : Option (List UInt8)) : Inv (pushName s pathname attrs wc) := by
  have hpush : (attrs.isDirectory = true → s.recursive = true ∨ wc.isSome = true) →
      Inv (push s .name pathname [] (some attrs) wc) := by
    intro hname
    refine Calm.inv (o := o) ⟨h.finished, h.pending, h.watched, h.ended, h.times, ?_, h.phase, h.credit⟩ ⟨hd, ?_, ?_⟩ ?_
    · rw [push, depth_cons]
      exact h.depth
    · intro node hn
      rcases List.mem_cons.mp hn with rfl | hn
      · exact ⟨fun _ => hname, fun ht => by cases ht⟩
      · exact .of_open (isOpen_readdir (hd node hn))
    · rw [push]
      dsimp only
      rw [handles_cons]
      exact hs.handles
    · intro node hn
      cases hn
      simp
  have herr : ∀ msg, Inv (err s msg) := fun msg => (h.err msg).inv ⟨hs.below, hs.nodes, hs.handles⟩ hd.head
  unfold pushName
  split
  · exact herr _
  · split
    · split
      · exact herr _
      · next hno =>
        apply hpush
        intro _
        cases hr : s.recursive with
        | true => exact .inl rfl
        | false =>
          right
          simp only [hr, Bool.false_eq_true, not_false_eq_true, true_and] at hno
          cases wc with
          | none => exact absurd rfl hno
          | some w => rfl
    · next hdir =>
      split
      · exact herr _
      · exact hpush fun hd => absurd hd hdir

/-! ## Commands for a directory and a file -/

def timesOf (s : St σ) (attrs : FxpAttrs) : List Command :=
  if s.sendFileTimes ∧ attrs.has attrAcmodtime then [.T attrs.mtime attrs.atime] else []

theorem watch_times {s : St σ} {o : Observer} (h : Calm s o) (attrs : FxpAttrs) :
    ∃ t, o.watch (flat (timesOf s attrs)) = some { o with times := t } := by
  unfold timesOf
  split
  · refine ⟨true, ?_⟩
    have hb : (Command.T attrs.mtime attrs.atime).bytes ≠ [] := command_bytes_ne_nil (by simp)
    simp [flat, hb, Observer.watch, Observer.observe, Observer.command, h.ended, h.times, h.phase, h.credit]
  · refine ⟨false, ?_⟩
    simp [Observer.watch, h.times.symm]

theorem watch_D {o : Observer} {t : Bool} (he : o.ended = false) (hp : o.phase = .idle) (hc : o.credit = false)
    (permissions : ULong) (size : UInt64) (name : List UInt8) :
    ({ o with times := t } : Observer).watch (flat [.CD .D permissions size name]) =
      some { o with times := false, depth := o.depth + 1 } := by
  have hb : (Command.CD .D permissions size name).bytes ≠ [] := command_bytes_ne_nil (by simp)
  simp [flat, hb, Observer.watch, Observer.observe, Observer.command, he, hp, hc]

theorem watch_C {o : Observer} {t : Bool} (he : o.ended = false) (hp : o.phase = .idle) (hc : o.credit = false)
    (permissions : ULong) (size : UInt64) (name : List UInt8) :
    ({ o with times := t } : Observer).watch (flat [.CD .C permissions size name, .wait]) =
      some { o with times := false, credit := true, phase := .announced size.toNat } := by
  have hb : (Command.CD .C permissions size name).bytes ≠ [] := command_bytes_ne_nil (by simp)
  have hw : Command.wait.bytes = [] := rfl
  simp [flat, hb, hw, Observer.watch, Observer.observe, Observer.command, he, hp, hc]

theorem watch_E {o : Observer} (he : o.ended = false) (hp : o.phase = .idle) (hc : o.credit = false) (ht : o.times = false)
    {n : Nat} (hd : o.depth = n + 1) : o.watch (flat [.E]) = some { o with depth := n } := by
  have hb : Command.E.bytes ≠ [] := command_bytes_ne_nil (by simp)
  simp [flat, hb, Observer.watch, Observer.observe, Observer.command, he, hp, hc, ht, hd]

/-! ## The node at the head -/

section Server

variable (srv : SftpServer σ)

theorem openHandle_perm {opened closed stack : List (List UInt8)} (h : opened.Perm (closed ++ stack)) (handle : List UInt8) :
    (opened ++ [handle]).Perm (closed ++ handle :: stack) :=
  (List.perm_append_singleton handle opened).trans ((h.cons handle).trans List.perm_middle.symm)

theorem toNat_sub_add {a b : UInt64} {n : Nat} (h : n ≤ (a - b).toNat) :
    (a - (b + UInt64.ofNat n)).toNat = (a - b).toNat - n := by
  rw [UInt64.toNat_sub] at h ⊢
  rw [UInt64.toNat_sub, UInt64.toNat_add, UInt64.toNat_ofNat']
  have ha := UInt64.toNat_lt a
  have hb := UInt64.toNat_lt b
  omega

theorem processRootpath_inv {s : St σ} {o : Observer} (h : Calm s o) (hs : Shape s) (hstack : s.stack = []) (node : StackEntry) :
    Inv (processRootpath srv s node) := by
  have hopen : ∃ q, Observer.start.watch s.log = some q ∧ q.ended = false := ⟨o, h.watched, h.ended⟩
  have hclosed : handles s.stack = [] := by rw [hstack]; rfl
  unfold processRootpath
  split
  · exact abort_inv hs hopen hclosed _
  · next pathname wildcard _ =>
    split
    · next e sf _ =>
      exact abort_inv (s := { s with sf }) ⟨hs.below, hs.nodes, hs.handles⟩ hopen hclosed _
    · next attrs sf _ =>
      apply requeue_inv
      refine pushName_inv (s := { s with sf }) (o := o) ⟨h.finished, h.pending, h.watched, h.ended, h.times, h.depth, h.phase,
        h.credit⟩ ⟨hs.below, hs.nodes, hs.handles⟩ ?_ _ _ _
      intro n hn
      dsimp only at hn
      rw [hstack] at hn
      cases hn

theorem processReadfile_inv {s : St σ} {o : Observer} {node : StackEntry} {rest : List StackEntry} (h : Live s o) (hs : Shape s)
    (hpending : s.pendingCommands = []) (hstack : s.stack = node :: rest) (htype : node.type = .readfile)
    (hok : 0 < readLimit s → ∃ data, (srv.read s.sf node.handle s.fileOffset (readLimit s)).1 = .ok data) (backlog : Backlog) :
    Inv (processReadfile srv backlog s node rest) := by
  have hw : Observer.start.watch s.log = some o := by
    have := h.watched
    rwa [hpending, flat_nil, List.append_nil] at this
  have hleft : o.left = some (s.fileSize - s.fileOffset).toNat := by
    have hphase := h.phase
    rw [HeadPhase, hstack, List.head?_cons] at hphase
    dsimp only at hphase
    rwa [if_pos htype] at hphase
  have hd : Dirs rest := by
    have := hs.below
    rwa [hstack] at this
  have hdepth : o.depth = depth rest := by
    rw [h.depth, hstack, depth_cons, htype]
    rfl
  have hhandles : s.opened.Perm (s.closed ++ node.handle :: handles rest) := by
    have := hs.handles
    rw [hstack, handles_cons, isOpen, htype] at this
    exact this
  unfold processReadfile
  by_cases hlimit : readLimit s > 0
  · rw [if_pos hlimit]
    rcases hread : srv.read s.sf node.handle s.fileOffset (readLimit s) with ⟨e | data, sf⟩
    · obtain ⟨data, hdata⟩ := hok hlimit
      rw [hread] at hdata
      cases hdata
    · have hle : data.length ≤ readLimit s := srv.read_le _ _ _ _ data (by rw [hread])
      have hle' : data.length ≤ (s.fileSize - s.fileOffset).toNat := hle.trans (Nat.min_le_left _ _)
      have hmain : Inv (out { s with sf, fileOffset := s.fileOffset + UInt64.ofNat data.length } (.data data)) := by
        refine ⟨⟨hs.below, hs.nodes, hs.handles⟩, .inl ⟨{ o with
          phase := .sending ((s.fileSize - s.fileOffset).toNat - data.length), credit := false },
          ⟨h.finished, ?_, h.ended, h.times, h.depth, ?_⟩⟩⟩
        · dsimp only [out]
          rw [hpending, flat_nil, List.append_nil, Observer.watch_snoc hw, Observer.observe, if_neg (by simp [h.ended]), hleft]
          exact if_pos hle'
        · dsimp only [HeadPhase, out]
          rw [hstack, List.head?_cons]
          dsimp only
          rw [if_pos htype]
          simp only [Observer.left, Option.some.injEq]
          exact (toNat_sub_add hle').symm
      dsimp only
      split
      · exact requeue_inv hmain
      · exact hmain
  · rw [if_neg hlimit]
    apply requeue_inv
    have hzero : (s.fileSize - s.fileOffset).toNat = 0 := by
      unfold readLimit at hlimit
      omega
    refine Calm.inv (o := { o with phase := .idle, credit := false }) ⟨h.finished, hpending, ?_, h.ended, h.times, hdepth, rfl, rfl⟩
      ⟨fun n hn => hd n (List.mem_of_mem_tail hn), ?_, ?_⟩ hd.head
    · dsimp only [closeHandle, out]
      rw [Observer.watch_snoc hw, Observer.observe, hleft, hzero, if_pos ⟨rfl, by simp [h.ended]⟩]
    · intro n hn
      exact .of_open (isOpen_readdir (hd n hn))
    · dsimp only [closeHandle, out]
      rw [List.append_assoc]
      exact hhandles

variable (wcMatchPl : List UInt8 → List UInt8 → Bool)

theorem processReaddir_inv {s : St σ} {o : Observer} {node : StackEntry} {rest : List StackEntry} (h : Calm s o) (hs : Shape s)
    (hstack : s.stack = node :: rest) (htype : node.type = .readdir) :
    ∃ s', processReaddir srv wcMatchPl s node rest = some s' ∧ Inv s' := by
  have hd : Dirs s.stack := by
    intro n hn
    rw [hstack] at hn
    rcases List.mem_cons.mp hn with rfl | hn
    · exact htype
    · have := hs.below n
      rw [hstack] at this
      exact this hn
  have hd' : Dirs rest := fun n hn => hd n (by rw [hstack]; exact List.mem_cons_of_mem _ hn)
  have hhandles : s.opened.Perm (s.closed ++ node.handle :: handles rest) := by
    have := hs.handles
    rw [hstack, handles_cons, isOpen, htype] at this
    exact this
  unfold processReaddir
  rcases srv.readdir s.sf node.handle 1 true with ⟨e | ⟨name, attrs⟩, sf⟩
  · dsimp only
    have hw : ∃ s1, (if e.code ≠ fxEof then err { s with sf, stack := rest } (mkstr node.pathname ++ text ": unable to list directory: " ++ e.errmsg)
        else { s with sf, stack := rest }) = s1 ∧ s1.finished = false ∧ s1.pendingCommands = [] ∧
        Observer.start.watch s1.log = some o ∧ s1.stack = rest ∧ s1.opened = s.opened ∧ s1.closed = s.closed := by
      split
      · exact ⟨_, rfl, h.finished, h.pending, (h.err _).watched, rfl, rfl, rfl⟩
      · exact ⟨_, rfl, h.finished, h.pending, h.watched, rfl, rfl, rfl⟩
    obtain ⟨s1, hs1, hf, hp, hlog, hst, ho, hcl⟩ := hw
    rw [hs1]
    have hshape : ∀ pending, Shape { closeHandle srv s1 node.handle with pendingCommands := pending } := by
      intro pending
      refine ⟨fun n hn => ?_, fun n hn => ?_, ?_⟩
      · dsimp only [closeHandle] at hn
        rw [hst] at hn
        exact hd' n (List.mem_of_mem_tail hn)
      · dsimp only [closeHandle] at hn
        rw [hst] at hn
        exact .of_open (isOpen_readdir (hd' n hn))
      · dsimp only [closeHandle]
        rw [hst, ho, hcl, List.append_assoc]
        exact hhandles
    have hhead : ∀ n ∈ (closeHandle srv s1 node.handle).stack.head?, n.type ≠ .readfile := by
      dsimp only [closeHandle]
      rw [hst]
      exact hd'.head
    by_cases hwc : node.wildcard.isNone = true
    · have hp' : (closeHandle srv s1 node.handle).pendingCommands = [] := hp
      rw [if_pos hwc, sendE, if_pos hp']
      refine ⟨_, rfl, hshape _, .inl ⟨{ o with depth := depth rest }, ⟨hf, ?_, h.ended, h.times, ?_, ?_⟩⟩⟩
      · dsimp only [closeHandle]
        rw [Observer.watch_append, hlog]
        refine watch_E h.ended h.phase h.credit h.times ?_
        rw [h.depth, hstack, depth_cons, htype, hwc]
        rfl
      · dsimp only [closeHandle]
        rw [hst]
      · unfold HeadPhase
        split
        · exact ⟨h.phase, h.credit⟩
        · next n hn => rw [if_neg (hhead n hn)]; exact ⟨h.phase, h.credit⟩
    · rw [if_neg hwc]
      have hdepth : o.depth = depth rest := by
        rw [h.depth, hstack, depth_cons, htype]
        simp [hwc]
      have hcalm : Calm (closeHandle srv s1 node.handle) o := ⟨hf, hp, hlog, h.ended, h.times, by
        dsimp only [closeHandle]
        rw [hst, hdepth], h.phase, h.credit⟩
      have hsh := hshape s1.pendingCommands
      exact ⟨_, rfl, hcalm.inv ⟨hsh.below, hsh.nodes, hsh.handles⟩ hhead⟩
  · dsimp only
    have hcalm : Calm { s with sf } o := ⟨h.finished, h.pending, h.watched, h.ended, h.times, h.depth, h.phase, h.credit⟩
    have hshape : Shape { s with sf } := ⟨hs.below, hs.nodes, hs.handles⟩
    split
    · exact ⟨_, rfl, hcalm.inv hshape hd.head⟩
    · exact ⟨_, rfl, pushName_inv hcalm hshape hd _ _ _⟩

theorem processFile_inv {s : St σ} {o : Observer} {node : StackEntry} {rest : List StackEntry} (h : Calm s o) (hs : Shape s)
    (hstack : s.stack = node :: rest) (htype : node.type = .name) : ∃ s', processFile srv s node rest = some s' ∧ Inv s' := by
  have hd : Dirs rest := by
    have := hs.below
    rwa [hstack] at this
  have hdepth : o.depth = depth rest := by
    rw [h.depth, hstack, depth_cons, htype]
    rfl
  have hhandles : s.opened.Perm (s.closed ++ handles rest) := by
    have := hs.handles
    rw [hstack, handles_cons, isOpen, htype] at this
    exact this
  have hcalm : ∀ sf : σ, Calm { s with sf, stack := rest } o := fun sf =>
    ⟨h.finished, h.pending, h.watched, h.ended, h.times, hdepth, h.phase, h.credit⟩
  have hbelow : ∀ n ∈ rest.tail, n.type = .readdir := fun n hn => hd n (List.mem_of_mem_tail hn)
  have hnodes : ∀ stack, ∀ n ∈ rest, NodeOk s.recursive stack n := fun _ n hn => .of_open (isOpen_readdir (hd n hn))
  unfold processFile
  dsimp only
  rcases srv.openFile s.sf node.pathname fxfRead noAttrs with ⟨e | handle, sf⟩
  · exact ⟨_, rfl, ((hcalm sf).err _).inv ⟨hbelow, hnodes _, hhandles⟩ hd.head⟩
  · dsimp only [openHandle]
    rcases srv.fstat sf handle with ⟨e | attrs, sf⟩
    · refine ⟨_, rfl, Calm.inv (o := o) ?_ ⟨hbelow, hnodes _, ?_⟩ hd.head⟩
      · have := (hcalm sf).err (mkstr node.pathname ++ text ": unable to stat: " ++ e.errmsg)
        exact ⟨this.finished, this.pending, this.watched, this.ended, this.times, this.depth, this.phase, this.credit⟩
      · dsimp only [closeHandle, err]
        rw [List.append_assoc]
        exact openHandle_perm hhandles handle
    · dsimp only
      rw [sendCD, if_pos h.pending]
      refine ⟨_, rfl, ⟨hd, ?_, ?_⟩, .inl ⟨{ o with times := false, credit := true, phase := .announced attrs.size.toNat },
        ⟨h.finished, ?_, h.ended, rfl, ?_, ?_⟩⟩⟩
      · intro n hn
        rcases List.mem_cons.mp hn with rfl | hn
        · exact .of_open rfl
        · exact hnodes _ n hn
      · exact openHandle_perm hhandles handle
      · dsimp only [push]
        obtain ⟨t, ht⟩ := watch_times h node.attrs
        have ht' : o.watch (flat (if s.sendFileTimes ∧ node.attrs.has attrAcmodtime then
            [Command.T node.attrs.mtime node.attrs.atime] else [])) = some { o with times := t } := ht
        rw [Observer.watch_append, h.watched, Option.bind_some, List.append_assoc, flat_append, Observer.watch_append, ht']
        exact watch_C h.ended h.phase h.credit _ _ _
      · dsimp only [push]
        rw [depth_cons]
        exact hdepth
      · dsimp only [HeadPhase, push]
        rw [List.head?_cons]
        simp [Observer.left]

theorem processDirectory_inv {s : St σ} {o : Observer} {node : StackEntry} {rest : List StackEntry} (h : Calm s o) (hs : Shape s)
    (hstack : s.stack = node :: rest) (htype : node.type = .name) (hdir : node.attrs.isDirectory = true)
    (hopen : node.wildcard = none → ∃ handle, (srv.opendir s.sf node.pathname).1 = .ok handle) :
    ∃ s', processDirectory srv s node rest = some s' ∧ Inv s' := by
  have hd : Dirs rest := by
    have := hs.below
    rwa [hstack] at this
  have hdepth : o.depth = depth rest := by
    rw [h.depth, hstack, depth_cons, htype]
    rfl
  have hhandles : s.opened.Perm (s.closed ++ handles rest) := by
    have := hs.handles
    rw [hstack, handles_cons, isOpen, htype] at this
    exact this
  have hbelow : ∀ n ∈ rest.tail, n.type = .readdir := fun n hn => hd n (List.mem_of_mem_tail hn)
  have hnodes : ∀ stack, ∀ n ∈ rest, NodeOk s.recursive stack n := fun _ n hn => .of_open (isOpen_readdir (hd n hn))
  have hallowed : s.recursive = true ∨ node.wildcard.isSome = true :=
    (hs.nodes node (by rw [hstack]; exact List.mem_cons_self)).name htype hdir
  unfold processDirectory
  rw [if_pos hallowed]
  cases hwc : node.wildcard with
  | none =>
    obtain ⟨handle, hok⟩ := hopen hwc
    rcases hop : srv.opendir s.sf node.pathname with ⟨e | handle', sf⟩
    · rw [hop] at hok
      cases hok
    · have hcd : sendCD { s with stack := rest } .D node.attrs 0 node.pathname = some { s with
          stack := rest, pendingCommands := timesOf s node.attrs ++
            [.CD .D (node.attrs.permissions &&& 0o7777) 0 (leaf node.pathname)] } := by
        rw [sendCD, if_pos h.pending]
        simp only [timesOf, List.append_nil]
      simp only [Option.isNone_none, if_true, hcd, Option.bind_eq_bind, Option.bind_some, hop]
      refine ⟨_, rfl, ⟨hd, ?_, openHandle_perm hhandles handle'⟩, .inl ⟨{ o with times := false, depth := o.depth + 1 },
        ⟨h.finished, ?_, h.ended, rfl, ?_, ?_⟩⟩⟩
      · intro n hn
        rcases List.mem_cons.mp hn with rfl | hn
        · exact .of_open rfl
        · exact hnodes _ n hn
      · dsimp only [push, openHandle]
        obtain ⟨t, ht⟩ := watch_times h node.attrs
        rw [Observer.watch_append, h.watched, Option.bind_some, flat_append, Observer.watch_append, ht]
        exact watch_D h.ended h.phase h.credit _ _ _
      · dsimp only [push, openHandle]
        rw [depth_cons, hdepth]
        rfl
      · exact ⟨h.phase, h.credit⟩
  | some wc =>
    simp only [Option.isNone_some, Bool.false_eq_true, if_false, Option.bind_eq_bind, Option.bind_some]
    rcases srv.opendir s.sf node.pathname with ⟨e | handle, sf⟩
    · have hcalm : Calm { s with sf, stack := rest } o :=
        ⟨h.finished, h.pending, h.watched, h.ended, h.times, hdepth, h.phase, h.credit⟩
      exact ⟨_, rfl, (hcalm.err _).inv ⟨hbelow, hnodes _, hhandles⟩ hd.head⟩
    · refine ⟨_, rfl, Calm.inv (o := o) ⟨h.finished, h.pending, h.watched, h.ended, h.times, ?_, h.phase, h.credit⟩
        ⟨hd, ?_, openHandle_perm hhandles handle⟩ ?_⟩
      · dsimp only [push, openHandle]
        rw [depth_cons]
        exact hdepth
      · intro n hn
        rcases List.mem_cons.mp hn with rfl | hn
        · exact .of_open rfl
        · exact hnodes _ n hn
      · intro n hn
        cases hn
        simp

/-! ## The condition on a step -/

/-- The call finds the client's EOF when a command is pending. -/
def Abandons (s : St σ) : Prop := s.throttled = false ∧ s.eof = true ∧ s.pendingCommands ≠ []

/-- The call has an ack for every pending command. -/
def ReachesHead (s : St σ) : Prop :=
  s.throttled = false ∧ (s.pendingCommands = [] ∨ s.eof = false ∧ s.pendingCommands.length ≤ s.acks)

/-- The file at the head of the stack can be read, and a directory that is to be sent can be opened. -/
def HeadReadable (s : St σ) : Prop :=
  ∀ node ∈ s.stack.head?,
    (node.type = .readfile → 0 < readLimit s →
      ∃ data, (srv.read s.sf node.handle s.fileOffset (readLimit s)).1 = .ok data) ∧
    (node.type = .name → node.attrs.isDirectory = true → node.wildcard = none →
      ∃ handle, (srv.opendir s.sf node.pathname).1 = .ok handle)

def Smooth (s : St σ) : Prop := (Abandons s → handles s.stack = []) ∧ (ReachesHead s → HeadReadable srv s)

/-- No handle is open when the client's bytes or its EOF end the transfer, and what the
    server is asked for next can be read. -/
def Allowed (s : St σ) : Ev → Prop
  | .send data _ => s.finished = false → if (feed s data).2 then Smooth srv (feed s data).1 else handles s.stack = []
  | .eof _ => s.finished = false → Smooth srv { s with eof := true }
  | .throttle throttled _ => s.finished = false → throttled = false → Smooth srv { s with throttled := false }
  | .callback _ => s.callbacks ≠ 0 → s.finished = false → Smooth srv { s with callbacks := s.callbacks - 1 }

/-! ## One call -/

theorem Live.sentAll {s : St σ} {o : Observer} (h : Live s o) : Live (sentAll s) o :=
  ⟨h.finished, by dsimp only [Source.sentAll]; rw [flat_nil, List.append_nil]; exact h.watched, h.ended, h.times, h.depth, h.phase⟩

/-- Between two commands, when no file is at the head. -/
theorem Live.calm {s : St σ} {o : Observer} (h : Live s o) (hp : s.pendingCommands = [])
    (hhead : ∀ node ∈ s.stack.head?, node.type ≠ .readfile) : Calm s o := by
  have hphase := h.phase
  have hw := h.watched
  rw [hp, flat_nil, List.append_nil] at hw
  have hidle : o.phase = .idle ∧ o.credit = false := by
    unfold HeadPhase at hphase
    split at hphase
    · exact hphase
    · next node hn => rwa [if_neg (hhead node hn)] at hphase
  exact ⟨h.finished, hp, hw, h.ended, h.times, h.depth, hidle.1, hidle.2⟩

/-- processHead, by the node it finds. -/
theorem processHead_cons {s : St σ} {node : StackEntry} {rest : List StackEntry} (hstack : s.stack = node :: rest)
    (backlog : Backlog) : processHead srv wcMatchPl backlog s =
      match node.type with
      | .rootpath => some (processRootpath srv { s with stack := rest } node)
      | .readfile => some (processReadfile srv backlog s node rest)
      | .readdir => (processReaddir srv wcMatchPl s node rest).map requeue
      | .name =>
        if node.attrs.isDirectory then (processDirectory srv s node rest).map requeue
        else (processFile srv s node rest).map requeue := by
  unfold processHead
  split
  · next h =>
    rw [hstack] at h
    cases h
  · next node' rest' h =>
    rw [hstack] at h
    cases h
    exact rfl

theorem processHead_inv {s : St σ} {o : Observer} (h : Live s o) (hs : Shape s) (hp : s.pendingCommands = [])
    (hread : HeadReadable srv s) (backlog : Backlog) : ∃ s', processHead srv wcMatchPl backlog s = some s' ∧ Inv s' := by
  cases hstack : s.stack with
  | nil =>
    have hcalm := h.calm hp (by rw [hstack]; simp)
    have hd : o.depth = 0 := by rw [h.depth, hstack]; rfl
    refine ⟨{ s with log := s.log ++ [.exitStatus 0, .eof, .close none], finished := true }, by rw [processHead, hstack],
      ⟨hs.below, hs.nodes, hs.handles⟩, .inr ⟨rfl, by dsimp only; rw [hstack]; rfl, { o with ended := true }, ?_⟩⟩
    rw [Observer.watch_append, hcalm.watched]
    simp [Observer.watch, Observer.observe, hcalm.phase, hd, hcalm.credit, hcalm.times, hcalm.ended]
  | cons node rest =>
    obtain ⟨hfile, hdirok⟩ := hread node (by rw [hstack]; rfl)
    have hnot : node.type ≠ .readfile → ∀ n ∈ s.stack.head?, n.type ≠ .readfile := by
      intro hne n hn
      rw [hstack] at hn
      cases hn
      exact hne
    rw [processHead_cons srv wcMatchPl hstack]
    cases htype : node.type with
    | rootpath =>
      have hcalm := h.calm hp (hnot (by rw [htype]; simp))
      have htail := (hs.nodes node (by rw [hstack]; exact List.mem_cons_self)).root htype
      rw [hstack, List.tail_cons] at htail
      have hdepth : o.depth = depth rest := by rw [h.depth, hstack, depth_cons, htype]; rfl
      have hhandles : s.opened.Perm (s.closed ++ handles rest) := by
        have := hs.handles
        rw [hstack, handles_cons, isOpen, htype] at this
        exact this
      subst htail
      exact ⟨_, rfl, processRootpath_inv srv (s := { s with stack := [] }) (o := o) ⟨hcalm.finished, hcalm.pending, hcalm.watched,
        hcalm.ended, hcalm.times, hdepth, hcalm.phase, hcalm.credit⟩ ⟨fun n hn => absurd hn List.not_mem_nil,
          fun n hn => absurd hn List.not_mem_nil, hhandles⟩ rfl node⟩
    | readfile => exact ⟨_, rfl, processReadfile_inv srv h hs hp hstack htype (hfile htype) backlog⟩
    | readdir =>
      have hcalm := h.calm hp (hnot (by rw [htype]; simp))
      obtain ⟨s', hs', hi⟩ := processReaddir_inv srv wcMatchPl hcalm hs hstack htype
      exact ⟨requeue s', by dsimp only; rw [hs', Option.map_some], requeue_inv hi⟩
    | name =>
      have hcalm := h.calm hp (hnot (by rw [htype]; simp))
      dsimp only
      by_cases hdir : node.attrs.isDirectory = true
      · obtain ⟨s', hs', hi⟩ := processDirectory_inv srv hcalm hs hstack htype hdir (hdirok htype hdir)
        exact ⟨requeue s', by rw [if_pos hdir, hs', Option.map_some], requeue_inv hi⟩
      · obtain ⟨s', hs', hi⟩ := processFile_inv srv hcalm hs hstack htype
        exact ⟨requeue s', by rw [if_neg hdir, hs', Option.map_some], requeue_inv hi⟩

/-- A call keeps the invariant when its condition holds. -/
theorem processStack_inv {s : St σ} {o : Observer} (h : Live s o) (hs : Shape s) (hok : Smooth srv s) (backlog : Backlog) :
    ∃ s', processStack srv wcMatchPl backlog s = some s' ∧ Inv s' := by
  unfold processStack
  cases hth : s.throttled with
  | true => exact ⟨s, rfl, hs, .inl ⟨o, h⟩⟩
  | false =>
    rw [if_neg Bool.false_ne_true]
    dsimp only
    rcases sendPending_cases s with ⟨-, he, hc⟩ | ⟨h2, heof, hne, he⟩ | ⟨h2, -, -, sent, rest, hsplit, he⟩
    · rw [he, if_pos rfl]
      have hhead : HeadReadable srv (sentAll s) := hok.2 ⟨hth, hc⟩
      exact processHead_inv srv wcMatchPl h.sentAll ⟨hs.below, hs.nodes, hs.handles⟩ rfl hhead backlog
    · rw [h2, if_neg Bool.false_ne_true, he]
      exact ⟨_, rfl, abort_inv hs h.watchedLog (hok.1 ⟨hth, heof, hne⟩) _⟩
    · rw [h2, if_neg Bool.false_ne_true, he]
      refine ⟨_, rfl, ⟨hs.below, hs.nodes, hs.handles⟩,
        .inl ⟨o, h.finished, ?_, h.ended, h.times, h.depth, h.phase⟩⟩
      dsimp only
      rw [List.append_assoc, ← flat_append, ← hsplit]
      exact h.watched

end Server

end Putty.Scp.Source
