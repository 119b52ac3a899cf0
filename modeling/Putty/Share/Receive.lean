/-
  Putty.Share.Receive — the bytes of a downstream (`sshshare.c`, share_receive).

  A coroutine takes them one by one: a version string, then packets, each behind its
  length. It goes on to the end of the read whatever the packets do. One that ends the
  session may free the connstate that the coroutine keeps its own variables in, and one
  behind it in the same read is handed on although the session has ended
  (`disconnect_touches_freed`).

  The loop is instrumented: it stops with a `Fault` where the code would go on with a session
  that has ended or a connstate that has been freed. `no_fault_iff` says in which runs it
  never does.
-/

import Putty.Share.Endings

namespace Putty.Share

open Std Putty.Lib Putty.Utils Putty.Ssh2
open Putty.Ssh2.GlobalRequests (Reply)

/-! ## The stream -/

def Msg.ofByte (c : UInt8) : Msg :=
  match c.toNat with
  | 1 => .disconnect | 2 => .ignore | 4 => .debug
  | 80 => .globalRequest | 81 => .requestSuccess | 82 => .requestFailure
  | 90 => .channelOpen | 91 => .channelOpenConfirmation | 92 => .channelOpenFailure
  | 93 => .channelWindowAdjust | 94 => .channelData | 95 => .channelExtendedData | 96 => .channelEof
  | 97 => .channelClose | 98 => .channelRequest | 99 => .channelSuccess | 100 => .channelFailure
  | n => .other n

/-- Where the coroutine waits for a byte, and what is in `recvbuf`. -/
inductive Phase where
  | verstring (recvbuf : List UInt8)
  | packet (recvbuf : List UInt8)
  deriving DecidableEq

/-- crLine is 0. -/
def Phase.start : Phase := .verstring []

def expectedVerstringPrefix : List UInt8 := text "SSHCONNECTION@putty.projects.tartarus.org-2.0-"

/-- sizeof(recvbuf). -/
def recvbufSize : Nat := 0x4010

/-- What a byte completes. -/
inductive Fed where
  | wait (phase : Phase)
  | packet (type : Msg) (pkt : List UInt8)
  | bad (message : List UInt8)

/-- The length of the packet, with the length field. -/
def currPacketlen (recvbuf : List UInt8) : Int := toint (BinarySource.get32BitMsbFirst (recvbuf.take 4) + 4)

def feedVerstring (recvbuf : List UInt8) (c : UInt8) : Fed :=
  if c = 10 then
    if expectedVerstringPrefix <+: recvbuf then .wait (.packet [])
    else .bad (text "Version string did not have expected prefix\n")
  else if recvbufSize ≤ recvbuf.length then .bad (text "Version string far too long\n")
  else .wait (.verstring (recvbuf ++ [c]))

def feedPacket (recvbuf : List UInt8) : Fed :=
  if recvbuf.length < 4 then .wait (.packet recvbuf)
  else if recvbuf.length = 4 ∧ (currPacketlen recvbuf < 5 ∨ recvbufSize < currPacketlen recvbuf) then
    .bad (text ("Bad packet length " ++ toString (BinarySource.get32BitMsbFirst (recvbuf.take 4) + 4) ++ "\n"))
  else if recvbuf.length < currPacketlen recvbuf then .wait (.packet recvbuf)
  else .packet (Msg.ofByte ((recvbuf.drop 4).headD 0)) (recvbuf.drop 5)

def feed : Phase → UInt8 → Fed
  | .verstring recvbuf, c => feedVerstring recvbuf c
  | .packet recvbuf, c => feedPacket (recvbuf ++ [c])

/-- These bytes complete a packet, or something that is not one. -/
def completes : Phase → List UInt8 → Bool
  | _, [] => false
  | phase, c :: rest =>
    match feed phase c with
    | .wait phase => completes phase rest
    | _ => true

/-! ## The loop -/

inductive Fault where
  /-- A packet is handed on after the session has ended. -/
  | acted
  /-- share_begin_cleanup is called again. -/
  | endedAgain
  /-- The connstate has been freed. -/
  | touchedFreed
  deriving DecidableEq

inductive Received where
  | done (s : St) (phase : Phase)
  | fault (f : Fault)

/-- One read. The connstate is touched with every byte, and when the coroutine returns;
    `env` is what the environment decides about a packet with that many bytes behind it. -/
def receive (a : Nat) (env : Nat → Env) : St → Phase → List UInt8 → Option Received
  | s, phase, [] =>
    match s.connections[a]? with
    | none => some (.fault .touchedFreed)
    | some _ => some (.done s phase)
  | s, phase, c :: rest =>
    match s.connections[a]? with
    | none => some (.fault .touchedFreed)
    | some cs =>
      match feed phase c with
      | .wait phase => receive a env s phase rest
      | .packet type pkt =>
        if cs.sock then do
          let s ← deliver s a fun m => gotPktFromDownstream a m type pkt (env rest.length)
          receive a env s (.packet []) rest
        else some (.fault .acted)
      | .bad message =>
        if cs.sock then do
          let s ← deliver s a fun m => shareDisconnect a m message
          if a ∈ s.connections then some (.done s .start) else some (.fault .touchedFreed)
        else some (.fault .endedAgain)

/-- The upstream with the coroutine of each downstream. -/
structure ReadSt where
  upstream : St
  phases : Tree Phase
  fault : Option Fault

def ReadSt.init : ReadSt := ⟨St.init, ∅, none⟩

inductive ReadEv where
  | read (a : Nat) (data : List UInt8) (env : Nat → Env)
  /-- Anything but a packet: the server's messages, the other end of a socket closing, … -/
  | other (e : Ev)

def ReadSt.phase (r : ReadSt) (a : Nat) : Phase := r.phases[a]?.getD .start

/-- Only a downstream whose socket is open is read from. -/
def readStep (r : ReadSt) : ReadEv → Option ReadSt
  | .read a data env =>
    if r.fault.isSome || r.upstream.protoError then some r
    else if socketOpen r.upstream a then
      (receive a env r.upstream (r.phase a) data).map fun
        | .done upstream phase => { r with upstream, phases := r.phases.insert a phase }
        | .fault f => { r with fault := some f }
    else none
  | .other e =>
    if r.fault.isSome then some r
    else if e.reads.isSome then none
    else (step r.upstream e).map fun upstream => { r with upstream }

/-! ## Reads that end a session -/

/-- What ends the session leaves something to wait for, and if it is a packet, the rest of
    the read completes nothing more. -/
def EndsWell (a : Nat) (env : Nat → Env) : St → Phase → List UInt8 → Prop
  | _, _, [] => True
  | s, phase, c :: rest => ∀ cs, s.connections[a]? = some cs →
    match feed phase c with
    | .wait phase => EndsWell a env s phase rest
    | .bad _ => Detained cs
    | .packet type pkt =>
      if packetEnds cs type pkt (env rest.length) then
        (Detained cs ∨ LeftOpen cs type pkt) ∧ completes (.packet []) rest = false
      else ∀ s', (deliver s a fun m => gotPktFromDownstream a m type pkt (env rest.length)) = some s' →
        EndsWell a env s' (.packet []) rest

def ReadsEndWell (r : ReadSt) : ReadEv → Prop
  | .read a data env => r.fault = none → r.upstream.protoError = false → EndsWell a env r.upstream (r.phase a) data
  | .other _ => True

variable {a : Nat} {env : Nat → Env} {s : St} {cs : ConnState} {phase : Phase}

/-- Once the session has ended, what is completed is at fault. -/
theorem receive_ended (env : Nat → Env) (phase : Phase) (hc : s.connections[a]? = some cs) (hs : cs.sock = false)
    (data : List UInt8) :
    ∃ out, receive a env s phase data = some out ∧ ((∃ f, out = .fault f) ↔ completes phase data = true) := by
  induction data generalizing phase with
  | nil => exact ⟨.done s phase, by simp [receive, hc], by simp [completes]⟩
  | cons c rest ih =>
    simp only [receive, hc, completes]
    cases feed phase c with
    | wait phase => exact ih phase
    | packet type pkt => exact ⟨.fault .acted, by simp [hs], by simp⟩
    | bad message => exact ⟨.fault .endedAgain, by simp [hs], by simp⟩

theorem receive_freed (hn : s.connections[a]? = none) (data : List UInt8) :
    receive a env s phase data = some (.fault .touchedFreed) := by
  cases data with
  | nil => simp [receive, hn]
  | cons c rest => simp [receive, hn]

theorem after_freed {d : Done} (hd : d.2 = none) : (s.after a d).connections[a]? = none := by
  unfold St.after
  dsimp only
  rw [hd]
  simp

theorem after_kept {d : Done} (hd : d.2 = some cs) : (s.after a d).connections[a]? = some cs := by
  unfold St.after
  dsimp only
  rw [hd]
  simp

/-- What has ended the session leaves the connstate, with its socket closed, or nothing. -/
theorem Ends.cases {n : At} {d : Done} (h : Ends a n d) :
    (Detained n.cs ∧ ∃ cs, d.2 = some cs ∧ cs.sock = false) ∨ ¬ Detained n.cs ∧ d.2 = none := by
  have hfree := tryCleanup_freed_iff h.2
  cases hd : d.2 with
  | none => exact Or.inr ⟨hfree.mp hd, rfl⟩
  | some cs =>
    refine Or.inl ⟨?_, cs, rfl, tryCleanup_sock h.2 hd⟩
    by_contra hw
    rw [hfree.mpr hw] at hd
    cases hd

/-- A read that goes to its end is at fault just when it does not end the session well. -/
theorem receive_fault_iff {out : Received} {data : List UInt8} (hc : s.connections[a]? = some cs) (hs : cs.sock = true)
    (h : receive a env s phase data = some out) : (∃ f, out = .fault f) ↔ ¬ EndsWell a env s phase data := by
  induction data generalizing s cs phase with
  | nil =>
    simp only [receive, hc, Option.some.injEq] at h
    simp [← h, EndsWell]
  | cons c rest ih =>
    simp only [receive, hc] at h
    simp only [EndsWell, hc, Option.some.injEq, forall_eq']
    cases hf : feed phase c with
    | wait phase =>
      rw [hf] at h
      exact ih hc hs h
    | bad message =>
      rw [hf] at h
      dsimp only at h ⊢
      rw [if_pos hs] at h
      obtain ⟨s', h1, h2⟩ := Option.bind_eq_some_iff.mp h
      obtain ⟨cs', d, hc', hd, rfl⟩ := deliver_after h1
      cases hc.symm.trans hc'
      obtain ⟨hsock, out', ht⟩ := shareDisconnect_spec hd
      obtain ⟨hw, cs1, hd1, -⟩ | ⟨hw, hd1⟩ := Ends.cases (n := At.send ⟨s.cl, cs⟩ out') ⟨hsock, ht⟩
      · rw [if_pos (mem_of_get (after_kept hd1))] at h2
        cases h2
        have hw : Detained cs := hw
        simpa using hw
      · rw [if_neg fun hm => by
          obtain ⟨cs1, hcs1⟩ := get_of_mem hm
          rw [after_freed hd1] at hcs1
          cases hcs1] at h2
        cases h2
        have hw : ¬ Detained cs := hw
        simpa using hw
    | packet type pkt =>
      rw [hf] at h
      dsimp only at h ⊢
      rw [if_pos hs] at h
      obtain ⟨s', h1, h2⟩ := Option.bind_eq_some_iff.mp h
      obtain ⟨cs', d, hc', hd, he⟩ := deliver_after h1
      cases hc.symm.trans hc'
      obtain ⟨hends, m1, hm1, hiff⟩ | ⟨hstays, cs1, hd1, hs1⟩ := gotPktFromDownstream_outcome hd
      · rw [show packetEnds cs type pkt (env rest.length) = true from hends, if_pos rfl]
        subst he
        obtain ⟨hw, cs1, hd1, hs1⟩ | ⟨hw, hd1⟩ := hm1.cases
        · obtain ⟨out1, ho, hfault⟩ := receive_ended env (.packet []) (after_kept (s := s) (a := a) hd1) hs1 rest
          cases h2.symm.trans ho
          rw [hfault, ← Bool.not_eq_true]
          simp [hiff.mp hw]
        · rw [receive_freed (after_freed hd1)] at h2
          cases h2
          have hno : ¬ (Detained cs ∨ LeftOpen cs type pkt) := fun hn => hw (hiff.mpr hn)
          simp [hno]
      · rw [show packetEnds cs type pkt (env rest.length) = false from hstays, if_neg (by simp), h1]
        simp only [Option.some.injEq, forall_eq']
        subst he
        exact ih (after_kept hd1) (hs1.trans hs) h2

/-! ## Runs -/

theorem readStep_fault {r r' : ReadSt} {e : ReadEv} (hr : r.fault = none) (h : readStep r e = some r') :
    r'.fault = none ↔ ReadsEndWell r e := by
  cases e with
  | other e =>
    simp only [readStep, hr, Option.isSome_none, Bool.false_eq_true, if_false] at h
    split at h
    · cases h
    · obtain ⟨s, -, rfl⟩ := Option.map_eq_some_iff.mp h
      simp [ReadsEndWell]
  | read a data env =>
    simp only [readStep, hr, Option.isSome_none, Bool.false_or] at h
    simp only [ReadsEndWell, hr, forall_true_left]
    cases hp : r.upstream.protoError with
    | true =>
      simp only [hp, if_true, Option.some.injEq] at h
      simp [← h, hr]
    | false =>
      simp only [hp, Bool.false_eq_true, if_false] at h
      split at h
      · next ho =>
        obtain ⟨cs, hc, hs⟩ : ∃ cs, r.upstream.connections[a]? = some cs ∧ cs.sock = true := by
          unfold socketOpen at ho
          simpa [Option.any_eq_true] using ho
        obtain ⟨out, hout, rfl⟩ := Option.map_eq_some_iff.mp h
        have hiff := receive_fault_iff hc hs hout
        simp only [forall_true_left]
        cases out with
        | done s phase => simpa [hr] using hiff
        | fault f => simpa using hiff
      · cases h

/-- However the bytes of the downstreams come, the loop works for no session that has ended and
    touches no connstate that has been freed just when every read that ends a session leaves
    something to wait for, and behind a packet that ends it nothing that is complete. -/
theorem no_fault_iff (evs : List ReadEv) :
    Reaches readStep (·.fault = none) ReadSt.init evs ↔ Taken readStep ReadsEndWell ReadSt.init evs :=
  reaches_iff_taken (J := (·.fault = none)) rfl (fun _ h => h) (fun _ _ _ h hok hs => (readStep_fault h hs).mpr hok)
    (fun _ _ _ h hok hs hr => hok ((readStep_fault h hs).mp hr)) evs

/-- A downstream sends its version string and a DISCONNECT, and has nothing open. -/
def disconnects : List ReadEv :=
  [.other .accept, .read 0 (expectedVerstringPrefix ++ text "Release\n" ++ put32BitMsbFirst 1 ++ [1]) fun _ =>
    ⟨none, false, [], []⟩]

/-- The connstate goes, and the coroutine with it. -/
theorem disconnect_touches_freed : ¬ ∀ evs, Reaches readStep (·.fault = none) ReadSt.init evs := by
  intro h
  have hrun : (run readStep ReadSt.init disconnects).map (·.fault) = some (some .touchedFreed) := by decide +kernel
  obtain ⟨r, hr, hf⟩ := Option.map_eq_some_iff.mp hrun
  have : r.fault = none := h disconnects disconnects r (List.prefix_refl _) hr
  rw [hf] at this
  cases this

end Putty.Share
