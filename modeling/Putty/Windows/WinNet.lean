/-
  Putty.Windows.WinNet — which window the sockets of the Windows network layer
  belong to (`windows/winnet.c`), with the ways a socket comes to exist: the backends'
  connections, connections through a proxy (`proxy.c`), forwarded-port listeners and
  what they accept (`portfwd.c`).

  A Plug carries the window that `do_select` hands to WSAAsyncSelect, and the modules
  that allocate plugs leave it as `snew` left it: only `ssh_init` assigns it, and
  `select_result` when an event comes. A plug is therefore unset until one of the two
  has written it, and what it then holds is up to the event (`garbage`). Messages that
  Windows has posted, and the callbacks they turn into, are one bag (`queue`); they
  outlive their socket, and a closed socket's number may be used again.

  Every socket and plug carries the window of its session as a ghost (`owner`).

  Proved: every `do_select` goes through a plug set to its session's window, and every
  event reaches a socket of the window it was posted to, exactly in the runs whose steps
  are all allowed (`sockets_belong_iff`).

  Not here: the data that sockets carry and the other callbacks of a plug. Plugs are
  not freed. `sk_plug` only swaps in a plug of the same session.
-/

import Putty.Lib.Heap
import Putty.Lib.Run

namespace Putty.Windows.WinNet

open Putty.Lib

abbrev HWND := Nat
abbrev SOCKET := Nat

inductive PlugHwnd where
  /-- Never assigned: `none` reads as NULL. -/
  | unset (garbage : Option HWND)
  | set (hwnd : HWND)
  deriving DecidableEq, Repr

def PlugHwnd.value : PlugHwnd → Option HWND
  | .unset garbage => garbage
  | .set hwnd => some hwnd

structure Plug where
  owner : HWND
  hwnd : PlugHwnd
  /-- The vtable has an `accepting`. -/
  accepting : Bool
  deriving DecidableEq, Repr

structure NetSocket where
  owner : HWND
  plug : Nat
  /-- `none` is INVALID_SOCKET. -/
  s : Option SOCKET
  /-- `error` is not NULL. -/
  error : Bool
  listening : Bool
  frozen : Bool
  frozenReadable : Bool
  /-- The addresses behind the one being tried; 0 when `addr` is NULL. -/
  candidates : Nat
  child : Ptr
  deriving DecidableEq, Repr

/-- What WSAAsyncSelect knows of a socket. -/
structure Reg where
  hwnd : HWND
  owner : HWND
  listening : Bool
  deriving DecidableEq, Repr

inductive NetEvent where
  | connect
  | read
  | write
  | oob
  | close
  | accept
  /-- Any event with an error code. -/
  | error
  deriving DecidableEq, Repr

/-- A posted WM_NETEVENT, with the session its socket was of. -/
structure Posted where
  hwnd : HWND
  skt : SOCKET
  event : NetEvent
  owner : HWND
  deriving DecidableEq, Repr

inductive Obs where
  | select (owner : HWND) (hwnd : PlugHwnd)
  | delivered (hwnd owner : HWND)
  deriving DecidableEq, Repr

structure St where
  plugs : Heap Plug
  socks : Heap NetSocket
  sktree : List Nat
  opened : List SOCKET
  registered : SOCKET → Option Reg
  queue : List Posted
  log : List Obs

def start : St := ⟨Heap.empty, Heap.empty, [], [], fun _ => none, [], []⟩

def push (s : St) (o : Obs) : St := { s with log := s.log ++ [o] }

/-! ## The sockets of the system -/

/-- The number Windows gives a new socket: `k`, or an unused one. -/
def openHandle (s : St) (k : SOCKET) : SOCKET × St :=
  let k := if k ∈ s.opened then s.opened.foldl max 0 + 1 else k
  (k, { s with opened := k :: s.opened })

def closesocket (s : St) (k : SOCKET) : St :=
  { s with opened := s.opened.erase k, registered := Function.update s.registered k none }

/-- `do_select`, with what WSAAsyncSelect answers. -/
def doSelect (s : St) (owner : HWND) (plug : Plug) (skt : Option SOCKET) (startup listening answer : Bool) :
    Option (St × Bool) := do
  let hwnd ← plug.hwnd.value
  let s := push s (.select owner plug.hwnd)
  match skt with
  | none => some (s, false)
  | some k =>
    if answer then
      some ({ s with registered := Function.update s.registered k (if startup then some ⟨hwnd, owner, listening⟩ else none) },
        true)
    else some (s, false)

/-! ## Connecting -/

/-- How far the attempt at one address gets. -/
inductive Attempt where
  | noSocket
  | noBind (k : SOCKET)
  /-- Up to `do_select` and, when that works, `connect`. -/
  | tried (k : SOCKET) (select connect : Bool)
  deriving DecidableEq, Repr

def setSock (s : St) (sid : Nat) (f : NetSocket → NetSocket) : Option St := do
  let socks ← s.socks.modify sid f
  some { s with socks }

/-- Takes the socket out of the tree and puts it back under its new number. -/
def retree (s : St) (sid : Nat) : St := { s with sktree := sid :: s.sktree.filter (· ≠ sid) }

/-- The old socket of an address that did not work. -/
def dropOld (s : St) (so : NetSocket) (plug : Plug) : Option St :=
  match so.s with
  | none => some s
  | some k => do
    let (s, _) ← doSelect s so.owner plug (some k) false false true
    some (closesocket s k)

def tryConnect (s : St) (sid : Nat) (attempt : Attempt) : Option (St × Bool) := do
  let so ← s.socks.cell sid
  let plug ← s.plugs.cell so.plug
  let s ← dropOld s so plug
  match attempt with
  | .noSocket =>
    let s ← setSock s sid fun so => { so with s := none, error := true }
    some (retree s sid, true)
  | .noBind k =>
    let (k, s) := openHandle s k
    let s ← setSock s sid fun so => { so with s := some k, error := true }
    some (retree s sid, true)
  | .tried k select connect =>
    let (k, s) := openHandle s k
    let s ← setSock s sid fun so => { so with s := some k }
    let (s, ok) ← doSelect s so.owner plug (some k) true false select
    let s ← setSock s sid fun so => { so with error := so.error || !(ok && connect) }
    some (retree s sid, !(ok && connect))

/-- `while (err && sk_nextaddr(..))`, over the addresses that are left. -/
def connectLoop (s : St) (sid : Nat) : List Attempt → Option St
  | [] => some s
  | attempt :: rest => do
    let (s, err) ← tryConnect s sid attempt
    let s ← setSock s sid fun so => { so with candidates := rest.length }
    if err then connectLoop s sid rest else some s

def newPlug (s : St) (plug : Plug) : Nat × St := (s.plugs.brk, { s with plugs := s.plugs.alloc plug })

def newSock (s : St) (so : NetSocket) : Nat × St := (s.socks.brk, { s with socks := s.socks.alloc so })

def skNew (s : St) (owner : HWND) (pid : Nat) (first : Attempt) (rest : List Attempt) : Option (Nat × St) := do
  let (sid, s) := newSock s ⟨owner, pid, none, false, false, false, false, rest.length, none⟩
  let s ← connectLoop s sid (first :: rest)
  some (sid, s)

/-! ## Closing -/

/-- `n` bounds the depth of the children. -/
def skNetClose : Nat → St → Nat → Option St
  | 0, _, _ => none
  | n + 1, s, sid => do
    let so ← s.socks.cell sid
    let s ← (match so.child with
      | none => some s
      | some c => skNetClose n s c)
    let s := { s with sktree := s.sktree.filter (· ≠ sid) }
    let plug ← s.plugs.cell so.plug
    let (s, _) ← doSelect s so.owner plug so.s false false true
    let socks ← s.socks.free sid
    let s := { s with socks }
    some (match so.s with
      | none => s
      | some k => closesocket s k)

/-! ## Listening and accepting -/

inductive Listening where
  | noSocket
  /-- `bind` or `listen` fails. -/
  | notBound (k : SOCKET)
  | listens (k : SOCKET) (select : Bool)
  deriving DecidableEq, Repr

/-- One address family; the flag says that the socket has an error. -/
def skNewlistener (s : St) (owner : HWND) (pid : Nat) (outcome : Listening) : Option (Nat × Bool × St) := do
  let (sid, s) := newSock s ⟨owner, pid, none, false, false, false, false, 0, none⟩
  match outcome with
  | .noSocket => some (sid, true, s)
  | .notBound k =>
    let (k, s) := openHandle s k
    let s ← setSock s sid fun so => { so with s := some k }
    some (sid, true, closesocket s k)
  | .listens k select =>
    let (k, s) := openHandle s k
    let s ← setSock s sid fun so => { so with s := some k, listening := true }
    let plug ← s.plugs.cell pid
    let (s, ok) ← doSelect s owner plug (some k) true true select
    if ok then some (sid, false, { s with sktree := sid :: s.sktree })
    else some (sid, true, closesocket s k)

/-- The second socket, for IPv6, with the same plug. -/
def listenSix (s : St) (owner : HWND) (pid sid : Nat) (outcome : Listening) : Option St := do
  let (other, err, s) ← skNewlistener s owner pid outcome
  if err then
    let socks ← s.socks.free other
    some { s with socks }
  else setSock s sid fun so => { so with child := some other }

/-- `pfl_listen`: `six` when no address family was asked for. -/
def pflListen (s : St) (owner : HWND) (garbage : Option HWND) (outcome : Listening) (six : Option Listening) : Option St := do
  let (pid, s) := newPlug s ⟨owner, .unset garbage, true⟩
  let (sid, err, s) ← skNewlistener s owner pid outcome
  if err then skNetClose 2 s sid
  else
    match six with
    | none => some s
    | some outcome => listenSix s owner pid sid outcome

inductive Accepting where
  | failed
  /-- Not from this host, where that is asked for. -/
  | nonlocal
  | connection (k : SOCKET) (select : Bool) (garbage : Option HWND)
  deriving DecidableEq, Repr

/-- `pfl_accepting`, with `sk_net_accept` on the new forwarding's plug. -/
def pflAccepting (s : St) (owner : HWND) (k : SOCKET) (select : Bool) (garbage : Option HWND) : Option St := do
  let (pid, s) := newPlug s ⟨owner, .unset garbage, false⟩
  let (k, s) := openHandle s k
  let (sid, s) := newSock s ⟨owner, pid, some k, false, false, true, false, 0, none⟩
  let plug ← s.plugs.cell pid
  let (s, ok) ← doSelect s owner plug (some k) true false select
  if ok then some { s with sktree := sid :: s.sktree } else some (closesocket s k)

/-! ## Events -/

def findSocket (s : St) (k : SOCKET) : Option Nat :=
  s.sktree.find? fun sid => (s.socks.cell sid).bind (·.s) == some k

/-- What the calls made for one event give. -/
structure Outcome where
  attempts : List Attempt
  accepted : Accepting
  deriving DecidableEq, Repr

def handleEvent (s : St) (sid : Nat) (so : NetSocket) (event : NetEvent) (out : Outcome) : Option St :=
  match event with
  | .error => connectLoop s sid (out.attempts.take so.candidates)
  | .connect => setSock s sid fun so => { so with candidates := 0 }
  | .read => if so.frozen then setSock s sid fun so => { so with frozenReadable := true } else some s
  | .accept =>
    match out.accepted with
    | .connection k select garbage => do
      let plug ← s.plugs.cell so.plug
      if plug.accepting then pflAccepting s so.owner k select garbage else none
    | _ => some s
  | _ => some s

def selectResult (s : St) (p : Posted) (out : Outcome) : Option St :=
  if p.skt = 0 then some s
  else
    match findSocket s p.skt with
    | none => some s
    | some sid => do
      let so ← s.socks.cell sid
      let plugs ← s.plugs.modify so.plug fun plug => { plug with hwnd := .set p.hwnd }
      handleEvent (push { s with plugs } (.delivered p.hwnd so.owner)) sid so p.event out

def reselectLoop (s : St) : List Nat → Option St
  | [] => some s
  | sid :: rest => do
    let so ← s.socks.cell sid
    if so.frozen then reselectLoop s rest
    else
      let plug ← s.plugs.cell so.plug
      let (s, _) ← doSelect s so.owner plug so.s true so.listening true
      reselectLoop s rest

def setFrozen (s : St) (sid : Nat) (frozen : Bool) : Option St := do
  let so ← s.socks.cell sid
  if so.frozen = frozen then some s
  else
    let s ← setSock s sid fun so => { so with frozen := frozen, frozenReadable := false }
    if frozen then some s
    else
      let plug ← s.plugs.cell so.plug
      let (s, _) ← doSelect s so.owner plug so.s true so.listening true
      some s

inductive Client where
  | ssh
  | telnet
  | raw
  | rlogin
  | x11
  /-- A connection out for a remote forwarding. -/
  | forwarding
  deriving DecidableEq, Repr

/-- `ssh_init` alone assigns its plug's window. -/
def clientHwnd (owner : HWND) (garbage : Option HWND) : Client → PlugHwnd
  | .ssh => .set owner
  | _ => .unset garbage

/-- The plug a connection's socket gets: behind a proxy the ProxySocket's own, else the client's. -/
def connectionPlug (s : St) (owner : HWND) (client : Client) (proxied : Bool) (garbage : Option HWND) : Nat × St :=
  let (pid, s) := newPlug s ⟨owner, clientHwnd owner garbage client, false⟩
  if proxied then newPlug s ⟨owner, .unset garbage, false⟩ else (pid, s)

/-- A client's plug and its `new_connection`. -/
def newConnection (s : St) (owner : HWND) (client : Client) (proxied : Bool) (garbage : Option HWND) (first : Attempt)
    (rest : List Attempt) : Option St := do
  let (pid, s) := connectionPlug s owner client proxied garbage
  let (sid, s) ← skNew s owner pid first rest
  let so ← s.socks.cell sid
  -- of the clients, the forwarding alone closes a socket that has an error at once
  if client = .forwarding ∧ so.error = true then skNetClose 2 s sid else some s

inductive Ev where
  | connection (owner : HWND) (client : Client) (proxied : Bool) (garbage : Option HWND) (first : Attempt) (rest : List Attempt)
  | listen (owner : HWND) (garbage : Option HWND) (outcome : Listening) (six : Option Listening)
  /-- A client's further plug, to be swapped in. -/
  | plug (owner : HWND) (garbage : Option HWND) (accepting : Bool)
  | swap (sid pid : Nat)
  | setFrozen (sid : Nat) (frozen : Bool)
  | close (sid : Nat)
  | reselectAll
  /-- Windows posts an event of a registered socket. -/
  | post (k : SOCKET) (event : NetEvent)
  /-- `select_result` on one of the posted events. -/
  | deliver (i : Nat) (out : Outcome)
  deriving DecidableEq, Repr

/-- A client acts on the sockets that are there. -/
def step (s : St) : Ev → Option St
  | .connection owner client proxied garbage first rest => newConnection s owner client proxied garbage first rest
  | .listen owner garbage outcome six => pflListen s owner garbage outcome six
  | .plug owner garbage accepting => some (newPlug s ⟨owner, .unset garbage, accepting⟩).2
  | .swap sid pid =>
    match s.socks.cell sid, s.plugs.cell pid with
    | some so, some plug => if plug.owner = so.owner then setSock s sid fun so => { so with plug := pid } else some s
    | _, _ => some s
  | .setFrozen sid frozen => if (s.socks.cell sid).isSome then setFrozen s sid frozen else some s
  | .close sid => if (s.socks.cell sid).isSome then skNetClose 2 s sid else some s
  | .reselectAll => reselectLoop s s.sktree
  | .post k event =>
    match s.registered k with
    | none => some s
    | some r => some (if event = .accept ∧ r.listening = false then s
        else { s with queue := s.queue ++ [⟨r.hwnd, k, event, r.owner⟩] })
  | .deliver i out =>
    match s.queue[i]? with
    | none => some s
    | some p => selectResult { s with queue := s.queue.eraseIdx i } p out

/-! ## What must hold -/

def Obs.Ok : Obs → Prop
  | .select owner hwnd => hwnd = .set owner
  | .delivered hwnd owner => hwnd = owner

/-- Every `do_select` was made with a plug set to the window of the socket's session, and
    every event came to a socket of that window's session. -/
def Safe (s : St) : Prop := ∀ o ∈ s.log, o.Ok

/-- The attempts end before `do_select` would be called. -/
def endsEarly : List Attempt → Bool
  | [] => true
  | .noSocket :: rest => endsEarly rest
  | [.noBind _] => true
  | _ => false

/-- The socket's plug has been given a window. -/
def wired (s : St) (sid : Nat) : Bool :=
  match (s.socks.cell sid).bind fun so => s.plugs.cell so.plug with
  | some ⟨_, .set _, _⟩ => true
  | _ => false

/-- The sockets made are SSH connections without a proxy, but for those that fail before
    `do_select`; sockets are closed, unfrozen and reselected through a plug that has been
    given a window; no event is handled whose socket's number has passed to another session. -/
def Allowed (s : St) : Ev → Prop
  | .connection _ client proxied _ first rest =>
    client = .ssh ∧ proxied = false ∨ client ≠ .forwarding ∧ endsEarly (first :: rest) = true
  | .listen _ _ _ _ => False
  | .setFrozen sid frozen => ∀ so, s.socks.cell sid = some so → so.frozen = true → frozen = false → wired s sid = true
  | .close sid => (s.socks.cell sid).isSome = true → wired s sid = true
  | .reselectAll => ∀ sid ∈ s.sktree, ∀ so, s.socks.cell sid = some so → so.frozen = false → wired s sid = true
  | .deliver i _ => ∀ p, s.queue[i]? = some p → p.skt ≠ 0 → ∀ sid, findSocket s p.skt = some sid →
      ∀ so, s.socks.cell sid = some so → so.owner = p.owner
  | _ => True

/-! ## The log only grows -/

def Grows (s t : St) : Prop := ∀ o ∈ s.log, o ∈ t.log

theorem Grows.refl (s : St) : Grows s s := fun _ h => h

theorem Grows.trans {s t u : St} (h1 : Grows s t) (h2 : Grows t u) : Grows s u := fun o ho => h2 o (h1 o ho)

theorem setSock_spec {s t : St} {sid : Nat} {f : NetSocket → NetSocket} (h : setSock s sid f = some t) :
    ∃ so, s.socks.cell sid = some so ∧ t = { s with socks := s.socks.put sid (some (f so)) } := by
  unfold setSock at h
  obtain ⟨socks, hm, h⟩ := Option.bind_eq_some_iff.mp h
  obtain ⟨so, hso, rfl⟩ := Option.map_eq_some_iff.mp hm
  cases h
  exact ⟨so, hso, rfl⟩

theorem setSock_eq {s : St} {sid : Nat} {so : NetSocket} (h : s.socks.cell sid = some so) (f : NetSocket → NetSocket) :
    setSock s sid f = some { s with socks := s.socks.put sid (some (f so)) } := by
  simp [setSock, Heap.modify_live f h]

theorem setSock_grows {s t : St} {sid : Nat} {f : NetSocket → NetSocket} (h : setSock s sid f = some t) : Grows s t := by
  obtain ⟨so, -, rfl⟩ := setSock_spec h
  exact Grows.refl s

/-- What a `do_select` that returns has done. -/
structure Selected (s t : St) (owner : HWND) (hwnd : PlugHwnd) (listening : Bool) : Prop where
  log : t.log = s.log ++ [.select owner hwnd]
  plugs : t.plugs = s.plugs
  socks : t.socks = s.socks
  sktree : t.sktree = s.sktree
  queue : t.queue = s.queue
  regs : ∀ k r, t.registered k = some r → s.registered k = some r ∨
    ∃ h, hwnd.value = some h ∧ r = ⟨h, owner, listening⟩

theorem doSelect_spec {s t : St} {owner : HWND} {plug : Plug} {skt : Option SOCKET} {startup listening answer b : Bool}
    (h : doSelect s owner plug skt startup listening answer = some (t, b)) : Selected s t owner plug.hwnd listening := by
  unfold doSelect at h
  obtain ⟨hwnd, hv, h⟩ := Option.bind_eq_some_iff.mp h
  cases skt with
  | none => cases h; exact ⟨rfl, rfl, rfl, rfl, rfl, fun _ _ hr => .inl hr⟩
  | some k =>
    cases answer with
    | false => cases h; exact ⟨rfl, rfl, rfl, rfl, rfl, fun _ _ hr => .inl hr⟩
    | true =>
      cases h
      refine ⟨rfl, rfl, rfl, rfl, rfl, fun k' r hr => ?_⟩
      by_cases hk : k' = k
      · subst hk
        simp only [Function.update_self] at hr
        cases startup with
        | false => cases hr
        | true => cases hr; exact .inr ⟨hwnd, hv, rfl⟩
      · simp only [Function.update_of_ne hk] at hr
        exact .inl hr

theorem Selected.grows {s t : St} {owner : HWND} {hwnd : PlugHwnd} {listening : Bool} (h : Selected s t owner hwnd listening) :
    Grows s t := fun o ho => by rw [h.log]; exact List.mem_append_left _ ho

theorem Selected.mem {s t : St} {owner : HWND} {hwnd : PlugHwnd} {listening : Bool} (h : Selected s t owner hwnd listening) :
    .select owner hwnd ∈ t.log := by rw [h.log]; exact List.mem_append_right _ (List.mem_singleton.mpr rfl)

theorem dropOld_grows {s t : St} {so : NetSocket} {plug : Plug} (h : dropOld s so plug = some t) : Grows s t := by
  unfold dropOld at h
  cases hs : so.s with
  | none => rw [hs] at h; cases h; exact Grows.refl s
  | some k =>
    rw [hs] at h
    obtain ⟨⟨s1, b⟩, h1, h⟩ := Option.bind_eq_some_iff.mp h
    cases h
    exact (doSelect_spec h1).grows

theorem tryConnect_grows {s t : St} {sid : Nat} {attempt : Attempt} {err : Bool}
    (h : tryConnect s sid attempt = some (t, err)) : Grows s t := by
  unfold tryConnect at h
  obtain ⟨so, -, h⟩ := Option.bind_eq_some_iff.mp h
  obtain ⟨plug, -, h⟩ := Option.bind_eq_some_iff.mp h
  obtain ⟨s1, h1, h⟩ := Option.bind_eq_some_iff.mp h
  refine (dropOld_grows h1).trans ?_
  cases attempt with
  | noSocket =>
    obtain ⟨s2, h2, h⟩ := Option.bind_eq_some_iff.mp h
    have h12 := setSock_grows h2
    cases h
    exact h12
  | noBind k =>
    obtain ⟨s2, h2, h⟩ := Option.bind_eq_some_iff.mp h
    have h12 := setSock_grows h2
    cases h
    exact h12
  | tried k select connect =>
    obtain ⟨s2, h2, h⟩ := Option.bind_eq_some_iff.mp h
    obtain ⟨⟨s3, ok⟩, h3, h⟩ := Option.bind_eq_some_iff.mp h
    obtain ⟨s4, h4, h⟩ := Option.bind_eq_some_iff.mp h
    have h14 := ((setSock_grows h2).trans (doSelect_spec h3).grows).trans (setSock_grows h4)
    cases h
    exact h14

theorem connectLoop_grows {sid : Nat} {attempts : List Attempt} : ∀ {s t : St}, connectLoop s sid attempts = some t → Grows s t := by
  induction attempts with
  | nil => intro s t h; cases h; exact Grows.refl s
  | cons attempt rest ih =>
    intro s t h
    unfold connectLoop at h
    obtain ⟨⟨s1, err⟩, h1, h⟩ := Option.bind_eq_some_iff.mp h
    obtain ⟨s2, h2, h⟩ := Option.bind_eq_some_iff.mp h
    refine ((tryConnect_grows h1).trans (setSock_grows h2)).trans ?_
    by_cases he : err = true
    · rw [if_pos he] at h; exact ih h
    · rw [if_neg he] at h; cases h; exact Grows.refl _

theorem skNetClose_grows : ∀ {n : Nat} {s t : St} {sid : Nat}, skNetClose n s sid = some t → Grows s t := by
  intro n
  induction n with
  | zero => intro s t sid h; cases h
  | succ n ih =>
    intro s t sid h
    unfold skNetClose at h
    obtain ⟨so, -, h⟩ := Option.bind_eq_some_iff.mp h
    obtain ⟨s1, h1, h⟩ := Option.bind_eq_some_iff.mp h
    obtain ⟨plug, -, h⟩ := Option.bind_eq_some_iff.mp h
    obtain ⟨⟨s2, b⟩, h2, h⟩ := Option.bind_eq_some_iff.mp h
    obtain ⟨socks, -, h⟩ := Option.bind_eq_some_iff.mp h
    have h01 : Grows s s1 := by
      cases hc : so.child with
      | none => rw [hc] at h1; cases h1; exact Grows.refl s
      | some c => rw [hc] at h1; exact ih h1
    refine h01.trans ((doSelect_spec h2).grows.trans ?_)
    cases h
    cases so.s with
    | none => exact Grows.refl _
    | some k => exact Grows.refl _

theorem skNewlistener_grows {s t : St} {owner : HWND} {pid sid : Nat} {outcome : Listening} {err : Bool}
    (h : skNewlistener s owner pid outcome = some (sid, err, t)) : Grows s t := by
  unfold skNewlistener at h
  cases outcome with
  | noSocket => cases h; exact Grows.refl _
  | notBound k =>
    obtain ⟨s1, h1, h⟩ := Option.bind_eq_some_iff.mp h
    have h01 := setSock_grows h1
    cases h
    exact h01
  | listens k select =>
    obtain ⟨s1, h1, h⟩ := Option.bind_eq_some_iff.mp h
    obtain ⟨plug, -, h⟩ := Option.bind_eq_some_iff.mp h
    obtain ⟨⟨s2, ok⟩, h2, h⟩ := Option.bind_eq_some_iff.mp h
    have h02 := (setSock_grows h1).trans (doSelect_spec h2).grows
    dsimp only at h
    by_cases hok : ok = true
    · rw [if_pos hok] at h; cases h; exact h02
    · rw [if_neg hok] at h; cases h; exact h02

theorem listenSix_grows {s t : St} {owner : HWND} {pid sid : Nat} {outcome : Listening}
    (h : listenSix s owner pid sid outcome = some t) : Grows s t := by
  unfold listenSix at h
  obtain ⟨⟨other, err, s1⟩, h1, h⟩ := Option.bind_eq_some_iff.mp h
  refine (skNewlistener_grows h1).trans ?_
  dsimp only at h
  by_cases he : err = true
  · rw [if_pos he] at h
    obtain ⟨socks, -, h⟩ := Option.bind_eq_some_iff.mp h
    cases h
    exact Grows.refl _
  · rw [if_neg he] at h
    exact setSock_grows h

theorem pflAccepting_grows {s t : St} {owner : HWND} {k : SOCKET} {select : Bool} {garbage : Option HWND}
    (h : pflAccepting s owner k select garbage = some t) : Grows s t := by
  unfold pflAccepting at h
  obtain ⟨plug, -, h⟩ := Option.bind_eq_some_iff.mp h
  obtain ⟨⟨s1, ok⟩, h1, h⟩ := Option.bind_eq_some_iff.mp h
  have hg := (doSelect_spec h1).grows
  dsimp only at h
  by_cases hok : ok = true
  · rw [if_pos hok] at h; cases h; exact hg
  · rw [if_neg hok] at h; cases h; exact hg

theorem handleEvent_grows {s t : St} {sid : Nat} {so : NetSocket} {event : NetEvent} {out : Outcome}
    (h : handleEvent s sid so event out = some t) : Grows s t := by
  unfold handleEvent at h
  cases event with
  | error => exact connectLoop_grows h
  | connect => exact setSock_grows h
  | read =>
    dsimp only at h
    by_cases hf : so.frozen = true
    · rw [if_pos hf] at h; exact setSock_grows h
    · rw [if_neg hf] at h; cases h; exact Grows.refl s
  | accept =>
    cases ha : out.accepted with
    | failed => rw [ha] at h; cases h; exact Grows.refl s
    | nonlocal => rw [ha] at h; cases h; exact Grows.refl s
    | connection k select garbage =>
      rw [ha] at h
      obtain ⟨plug, -, h⟩ := Option.bind_eq_some_iff.mp h
      by_cases hp : plug.accepting = true
      · rw [if_pos hp] at h; exact pflAccepting_grows h
      · rw [if_neg hp] at h; cases h
  | write => cases h; exact Grows.refl s
  | oob => cases h; exact Grows.refl s
  | close => cases h; exact Grows.refl s

/-! ## Runs whose steps are all allowed -/

structure Inv (s : St) : Prop where
  plugs : ∀ pid plug hwnd, s.plugs.cell pid = some plug → plug.hwnd = .set hwnd → hwnd = plug.owner
  socks : ∀ sid so, s.socks.cell sid = some so → so.child = none ∧ so.listening = false ∧
    ∃ plug, s.plugs.cell so.plug = some plug ∧ plug.owner = so.owner
  /-- No listener gets as far as Windows. -/
  regs : ∀ k r, s.registered k = some r → r.hwnd = r.owner ∧ r.listening = false
  queue : ∀ p ∈ s.queue, p.hwnd = p.owner ∧ p.event ≠ .accept
  tree : ∀ sid ∈ s.sktree, ∃ so, s.socks.cell sid = some so
  log : Safe s

theorem start_inv : Inv start := by
  refine ⟨?_, ?_, ?_, ?_, ?_, ?_⟩
  · intro _ _ _ h; cases h
  · intro _ _ h; cases h
  · intro _ _ h; cases h
  · intro _ h; cases h
  · intro _ h; cases h
  · intro _ h; cases h

/-- A socket of an invariant state, with its plug. -/
theorem Inv.plugOf {s : St} (h : Inv s) {sid : Nat} {so : NetSocket} (hso : s.socks.cell sid = some so) :
    ∃ plug, s.plugs.cell so.plug = some plug ∧ (plug.hwnd = .set so.owner ∧ wired s sid = true ∨
      (∃ g, plug.hwnd = .unset g) ∧ wired s sid = false) := by
  obtain ⟨-, -, plug, hp, howner⟩ := h.socks sid so hso
  refine ⟨plug, hp, ?_⟩
  obtain ⟨owner, hwnd, accepting⟩ := plug
  cases hwnd with
  | unset g => exact .inr ⟨⟨g, rfl⟩, by simp [wired, hso, hp]⟩
  | set w =>
    have hw := h.plugs so.plug _ w hp rfl
    dsimp only at hw howner
    exact .inl ⟨by rw [hw, howner], by simp [wired, hso, hp]⟩

theorem Inv.select {s : St} (h : Inv s) {owner : HWND} {plug : Plug} (hset : plug.hwnd = .set owner) (skt : Option SOCKET)
    (startup answer : Bool) : ∃ t b, doSelect s owner plug skt startup false answer = some (t, b) ∧ Inv t ∧
      t.socks = s.socks ∧ t.plugs = s.plugs ∧ t.sktree = s.sktree := by
  obtain ⟨t, b, hs⟩ : ∃ t b, doSelect s owner plug skt startup false answer = some (t, b) := by
    unfold doSelect
    rw [hset]
    cases skt with
    | none => exact ⟨_, _, rfl⟩
    | some k => cases answer <;> exact ⟨_, _, rfl⟩
  have hsel := doSelect_spec hs
  refine ⟨t, b, hs, ⟨?_, ?_, ?_, ?_, ?_, ?_⟩, hsel.socks, hsel.plugs, hsel.sktree⟩
  · rw [hsel.plugs]; exact h.plugs
  · rw [hsel.socks, hsel.plugs]; exact h.socks
  · intro k r hr
    rcases hsel.regs k r hr with hr | ⟨w, hw, rfl⟩
    · exact h.regs k r hr
    · rw [hset] at hw
      cases hw
      exact ⟨rfl, rfl⟩
  · rw [hsel.queue]; exact h.queue
  · rw [hsel.sktree, hsel.socks]; exact h.tree
  · intro o ho
    rw [hsel.log] at ho
    rcases List.mem_append.mp ho with ho | ho
    · exact h.log o ho
    · rw [List.mem_singleton.mp ho]; exact hset

theorem Inv.putSock {s : St} (h : Inv s) {sid : Nat} {so v : NetSocket} {plug : Plug} (hso : s.socks.cell sid = some so)
    (hc : v.child = none) (hl : v.listening = false) (hp : s.plugs.cell v.plug = some plug)
    (ho : plug.owner = v.owner) :
    Inv { s with socks := s.socks.put sid (some v) } ∧ (s.socks.put sid (some v)).cell sid = some v := by
  have hsame := Heap.put_same (Heap.lt_brk hso) (some v)
  refine ⟨⟨h.plugs, ?_, h.regs, h.queue, ?_, h.log⟩, hsame⟩
  · intro k so1 hk
    by_cases e : k = sid
    · subst e
      rw [hsame] at hk
      cases hk
      exact ⟨hc, hl, plug, hp, ho⟩
    · rw [Heap.put_ne _ _ e] at hk
      exact h.socks k so1 hk
  · intro k hk
    by_cases e : k = sid
    · subst e; exact ⟨_, hsame⟩
    · obtain ⟨so1, hso1⟩ := h.tree k hk
      exact ⟨so1, by rw [Heap.put_ne _ _ e]; exact hso1⟩

/-- A socket is changed but keeps its plug and its session. -/
theorem Inv.setSock {s : St} (h : Inv s) {sid : Nat} {so : NetSocket} (hso : s.socks.cell sid = some so)
    (f : NetSocket → NetSocket) (hplug : (f so).plug = so.plug) (howner : (f so).owner = so.owner)
    (hchild : (f so).child = so.child) (hlisten : (f so).listening = so.listening) :
    Inv { s with socks := s.socks.put sid (some (f so)) } ∧ (s.socks.put sid (some (f so))).cell sid = some (f so) := by
  obtain ⟨hc, hl, plug, hp, ho⟩ := h.socks sid so hso
  rw [← hplug] at hp
  exact h.putSock hso (hchild.trans hc) (hlisten.trans hl) hp (ho.trans howner.symm)

theorem Inv.closesocket {s : St} (h : Inv s) (k : SOCKET) : Inv (closesocket s k) := by
  refine ⟨h.plugs, h.socks, ?_, h.queue, h.tree, h.log⟩
  intro k' r hr
  by_cases e : k' = k
  · subst e
    simp [WinNet.closesocket] at hr
  · exact h.regs k' r (by rw [← hr]; exact (Function.update_of_ne e _ _).symm)

theorem Inv.openHandle {s : St} (h : Inv s) (k : SOCKET) : Inv (openHandle s k).2 :=
  ⟨h.plugs, h.socks, h.regs, h.queue, h.tree, h.log⟩

theorem Inv.retree {s : St} (h : Inv s) {sid : Nat} {so : NetSocket} (hso : s.socks.cell sid = some so) : Inv (retree s sid) := by
  refine ⟨h.plugs, h.socks, h.regs, h.queue, ?_, h.log⟩
  intro k hk
  rcases List.mem_cons.mp hk with rfl | hk
  · exact ⟨so, hso⟩
  · exact h.tree k (List.mem_filter.mp hk).1

theorem Inv.newPlug {s : St} (h : Inv s) {plug : Plug} (hset : ∀ w, plug.hwnd = .set w → w = plug.owner) :
    Inv (newPlug s plug).2 := by
  refine ⟨?_, ?_, h.regs, h.queue, h.tree, h.log⟩
  · intro pid p w hp hw
    by_cases e : pid = s.plugs.brk
    · subst e
      have hp : some plug = some p := by rw [← hp]; exact (Heap.alloc_same _ _).symm
      cases hp
      exact hset w hw
    · exact h.plugs pid p w (by rw [← hp]; exact (Heap.alloc_ne _ _ e).symm) hw
  · intro sid so hso
    obtain ⟨hc, hl, p, hp, ho⟩ := h.socks sid so hso
    exact ⟨hc, hl, p, Heap.alloc_live plug hp, ho⟩

theorem Inv.newSock {s : St} (h : Inv s) {so : NetSocket} {plug : Plug} (hc : so.child = none) (hl : so.listening = false)
    (hp : s.plugs.cell so.plug = some plug) (ho : plug.owner = so.owner) : Inv (newSock s so).2 := by
  refine ⟨h.plugs, ?_, h.regs, h.queue, ?_, h.log⟩
  · intro sid so' hso
    by_cases e : sid = s.socks.brk
    · subst e
      have hso : some so = some so' := by rw [← hso]; exact (Heap.alloc_same _ _).symm
      cases hso
      exact ⟨hc, hl, plug, hp, ho⟩
    · exact h.socks sid so' (by rw [← hso]; exact (Heap.alloc_ne _ _ e).symm)
  · intro sid hsid
    obtain ⟨so', hso'⟩ := h.tree sid hsid
    exact ⟨so', Heap.alloc_live so hso'⟩

/-! ## One attempt, through a plug that is set -/

/-- The socket is there, with the plug and the session it had. -/
structure Kept (s t : St) (sid : Nat) (so so' : NetSocket) : Prop where
  cell : t.socks.cell sid = some so'
  plug : so'.plug = so.plug
  owner : so'.owner = so.owner
  plugs : t.plugs = s.plugs

theorem dropOld_inv {s : St} (h : Inv s) {so : NetSocket} {plug : Plug} (hset : plug.hwnd = .set so.owner) :
    ∃ t, dropOld s so plug = some t ∧ Inv t ∧ t.socks = s.socks ∧ t.plugs = s.plugs := by
  unfold dropOld
  cases so.s with
  | none => exact ⟨s, rfl, h, rfl, rfl⟩
  | some k =>
    obtain ⟨t, b, ht, hi, h1, h2, -⟩ := h.select hset (some k) false true
    exact ⟨closesocket t k, by simp [ht], hi.closesocket k, h1, h2⟩

theorem tryConnect_inv {s : St} (h : Inv s) {sid : Nat} {so : NetSocket} {plug : Plug} (hso : s.socks.cell sid = some so)
    (hp : s.plugs.cell so.plug = some plug) (hset : plug.hwnd = .set so.owner) (attempt : Attempt) :
    ∃ t err so', tryConnect s sid attempt = some (t, err) ∧ Inv t ∧ Kept s t sid so so' := by
  obtain ⟨s1, h1, hi1, hsocks, hplugs⟩ := dropOld_inv h hset
  have hso1 : s1.socks.cell sid = some so := by rw [hsocks]; exact hso
  unfold tryConnect
  simp only [hso, hp, h1, Option.bind_eq_bind, Option.bind_some]
  cases attempt with
  | noSocket =>
    obtain ⟨hi2, hc⟩ := hi1.setSock hso1 (fun so => { so with s := none, error := true }) rfl rfl rfl rfl
    rw [setSock_eq hso1]
    exact ⟨_, true, _, rfl, hi2.retree hc, hc, rfl, rfl, hplugs⟩
  | noBind k =>
    have hi1' := hi1.openHandle k
    obtain ⟨hi2, hc⟩ := hi1'.setSock hso1 (fun so => { so with s := some (openHandle s1 k).1, error := true }) rfl rfl rfl rfl
    refine ⟨_, true, _, ?_, hi2.retree hc, hc, rfl, rfl, hplugs⟩
    dsimp only
    rw [setSock_eq (s := (openHandle s1 k).2) hso1]
    rfl
  | tried k select connect =>
    have hi1' := hi1.openHandle k
    obtain ⟨hi2, hc⟩ := hi1'.setSock hso1 (fun so => { so with s := some (openHandle s1 k).1 }) rfl rfl rfl rfl
    obtain ⟨s3, ok, h3, hi3, hsocks3, hplugs3, -⟩ := hi2.select hset (some (openHandle s1 k).1) true select
    have hc3 := (congrArg (·.cell sid) hsocks3).trans hc
    obtain ⟨hi4, hc4⟩ := hi3.setSock hc3 (fun so => { so with error := so.error || !(ok && connect) }) rfl rfl rfl rfl
    refine ⟨_, !(ok && connect), _, ?_, hi4.retree hc4, hc4, rfl, rfl, hplugs3.trans hplugs⟩
    dsimp only
    rw [setSock_eq (s := (openHandle s1 k).2) hso1, Option.bind_some, h3, Option.bind_some, setSock_eq hc3]
    rfl

theorem connectLoop_inv {sid : Nat} {plug : Plug} (attempts : List Attempt) : ∀ {s : St} {so : NetSocket}, Inv s →
    s.socks.cell sid = some so → s.plugs.cell so.plug = some plug → plug.hwnd = .set so.owner →
      ∃ t so', connectLoop s sid attempts = some t ∧ Inv t ∧ Kept s t sid so so' := by
  induction attempts with
  | nil => intro s so h hso _ _; exact ⟨s, so, rfl, h, hso, rfl, rfl, rfl⟩
  | cons attempt rest ih =>
    intro s so h hso hp hset
    obtain ⟨s1, err, so1, h1, hi1, hk1⟩ := tryConnect_inv h hso hp hset attempt
    obtain ⟨hi2, hc2⟩ := hi1.setSock hk1.cell (fun so => { so with candidates := rest.length }) rfl rfl rfl rfl
    unfold connectLoop
    simp only [h1, Option.bind_eq_bind, Option.bind_some, setSock_eq hk1.cell]
    cases err with
    | false => exact ⟨_, _, rfl, hi2, hc2, hk1.plug, hk1.owner, hk1.plugs⟩
    | true =>
      have hp2 : s1.plugs.cell so1.plug = some plug := by rw [hk1.plugs, hk1.plug]; exact hp
      obtain ⟨t, so', ht, hi, hk⟩ := ih hi2 hc2 hp2 (by rw [hset]; exact congrArg _ hk1.owner.symm)
      exact ⟨t, so', ht, hi, hk.cell, hk.plug.trans hk1.plug, hk.owner.trans hk1.owner, hk.plugs.trans hk1.plugs⟩

theorem skNetClose_inv {s : St} (h : Inv s) {sid : Nat} {so : NetSocket} {plug : Plug} {n : Nat} (hso : s.socks.cell sid = some so)
    (hp : s.plugs.cell so.plug = some plug) (hset : plug.hwnd = .set so.owner) :
    ∃ t, skNetClose (n + 1) s sid = some t ∧ Inv t := by
  obtain ⟨hchild, -, -⟩ := h.socks sid so hso
  have h1 : Inv { s with sktree := s.sktree.filter (· ≠ sid) } :=
    ⟨h.plugs, h.socks, h.regs, h.queue, fun k hk => h.tree k (List.mem_filter.mp hk).1, h.log⟩
  obtain ⟨s2, b, h2, hi2, hsocks, hplugs, htree⟩ := h1.select hset so.s false true
  have hso2 : s2.socks.cell sid = some so := by rw [hsocks]; exact hso
  have hi3 : Inv { s2 with socks := s2.socks.put sid none } := by
    refine ⟨hi2.plugs, ?_, hi2.regs, hi2.queue, ?_, hi2.log⟩
    · intro k so' hk
      by_cases e : k = sid
      · subst e
        rw [Heap.put_same (Heap.lt_brk hso2)] at hk
        cases hk
      · rw [Heap.put_ne _ _ e] at hk
        exact hi2.socks k so' hk
    · intro k hk
      obtain ⟨so', hso'⟩ := hi2.tree k hk
      have htree : s2.sktree = s.sktree.filter (· ≠ sid) := htree
      have hk' : k ∈ s.sktree.filter (· ≠ sid) := by rw [← htree]; exact hk
      have hne : k ≠ sid := by simpa using (List.mem_filter.mp hk').2
      exact ⟨so', by rw [Heap.put_ne _ _ hne]; exact hso'⟩
  unfold skNetClose
  simp only [hso, hchild, hp, h2, Heap.free_live hso2, Option.bind_eq_bind, Option.bind_some]
  cases so.s with
  | none => exact ⟨_, rfl, hi3⟩
  | some k => exact ⟨_, rfl, hi3.closesocket k⟩

theorem setFrozen_inv {s : St} (h : Inv s) {sid : Nat} {so : NetSocket} (hso : s.socks.cell sid = some so) (frozen : Bool)
    (hw : so.frozen = true → frozen = false → wired s sid = true) : ∃ t, setFrozen s sid frozen = some t ∧ Inv t := by
  unfold setFrozen
  simp only [hso, Option.bind_eq_bind, Option.bind_some]
  by_cases he : so.frozen = frozen
  · exact ⟨s, if_pos he, h⟩
  rw [if_neg he]
  obtain ⟨hi1, hc1⟩ := h.setSock hso (fun so => { so with frozen, frozenReadable := false }) rfl rfl rfl rfl
  rw [setSock_eq hso, Option.bind_some]
  cases frozen with
  | true => exact ⟨_, if_pos rfl, hi1⟩
  | false =>
    obtain ⟨-, hlisten, -⟩ := h.socks sid so hso
    obtain ⟨plug, hp, ⟨hset, -⟩ | ⟨-, hno⟩⟩ := h.plugOf hso
    · obtain ⟨t, b, ht, hi, -⟩ := hi1.select hset so.s true true
      refine ⟨t, ?_, hi⟩
      rw [if_neg (by simp)]
      simp only [hlisten] at ht
      simp only [hp, hlisten, ht, Option.bind_some]
    · rw [hw (by simpa using he) rfl] at hno
      cases hno

theorem reselectLoop_inv {sids : List Nat} : ∀ {s : St}, Inv s → (∀ sid ∈ sids, ∃ so, s.socks.cell sid = some so) →
    (∀ sid ∈ sids, ∀ so, s.socks.cell sid = some so → so.frozen = false → wired s sid = true) →
      ∃ t, reselectLoop s sids = some t ∧ Inv t := by
  induction sids with
  | nil => intro s h _ _; exact ⟨s, rfl, h⟩
  | cons sid rest ih =>
    intro s h htree hw
    obtain ⟨so, hso⟩ := htree sid List.mem_cons_self
    unfold reselectLoop
    simp only [hso, Option.bind_eq_bind, Option.bind_some]
    by_cases hf : so.frozen = true
    · rw [if_pos hf]
      exact ih h (fun k hk => htree k (List.mem_cons_of_mem _ hk)) fun k hk => hw k (List.mem_cons_of_mem _ hk)
    · rw [if_neg hf]
      obtain ⟨-, hlisten, -⟩ := h.socks sid so hso
      obtain ⟨plug, hp, ⟨hset, -⟩ | ⟨-, hno⟩⟩ := h.plugOf hso
      · obtain ⟨t, b, ht, hi, hsocks, hplugs, -⟩ := h.select hset so.s true true
        simp only [hp, hlisten, ht, Option.bind_some]
        refine ih hi ?_ ?_
        · intro k hk
          rw [hsocks]
          exact htree k (List.mem_cons_of_mem _ hk)
        · intro k hk so' hso' hf'
          rw [hsocks] at hso'
          have := hw k (List.mem_cons_of_mem _ hk) so' hso' hf'
          unfold wired at this ⊢
          rw [hsocks, hplugs]
          exact this
      · rw [hw sid List.mem_cons_self so hso (by simpa using hf)] at hno
        cases hno

/-! ## Attempts through a plug that was never set -/

/-- An attempt at a fresh socket that ends before `do_select`. -/
theorem tryConnect_early {s : St} (h : Inv s) {sid : Nat} {so : NetSocket} (hso : s.socks.cell sid = some so) (hnone : so.s = none)
    {attempt : Attempt} (ha : endsEarly [attempt] = true) :
    ∃ t so', tryConnect s sid attempt = some (t, true) ∧ Inv t ∧ Kept s t sid so so' ∧ so'.error = true ∧
      (so'.s = none ↔ attempt = .noSocket) := by
  obtain ⟨-, -, plug, hp, -⟩ := h.socks sid so hso
  have hold : dropOld s so plug = some s := by unfold dropOld; rw [hnone]
  unfold tryConnect
  simp only [hso, hp, hold, Option.bind_eq_bind, Option.bind_some]
  cases attempt with
  | noSocket =>
    obtain ⟨hi1, hc1⟩ := h.setSock hso (fun so => { so with s := none, error := true }) rfl rfl rfl rfl
    rw [setSock_eq hso]
    exact ⟨_, _, rfl, hi1.retree hc1, ⟨hc1, rfl, rfl, rfl⟩, rfl, by simp⟩
  | noBind k =>
    have hi0 := h.openHandle k
    obtain ⟨hi1, hc1⟩ := hi0.setSock hso (fun so => { so with s := some (openHandle s k).1, error := true }) rfl rfl rfl rfl
    refine ⟨_, _, ?_, hi1.retree hc1, ⟨hc1, rfl, rfl, rfl⟩, rfl, by simp⟩
    dsimp only
    rw [setSock_eq (s := (openHandle s k).2) hso]
    rfl
  | tried k select connect => cases ha

/-- Any other attempt goes through `do_select`. -/
theorem tryConnect_selects {s t : St} {sid : Nat} {so : NetSocket} {plug : Plug} {attempt : Attempt} {err : Bool}
    (hso : s.socks.cell sid = some so) (hp : s.plugs.cell so.plug = some plug)
    (ha : so.s ≠ none ∨ endsEarly [attempt] = false) (h : tryConnect s sid attempt = some (t, err)) :
    .select so.owner plug.hwnd ∈ t.log := by
  have hgrow := tryConnect_grows h
  unfold tryConnect at h
  simp only [hso, hp, Option.bind_eq_bind, Option.bind_some] at h
  obtain ⟨s1, h1, h⟩ := Option.bind_eq_some_iff.mp h
  cases hs : so.s with
  | some k =>
    unfold dropOld at h1
    rw [hs] at h1
    obtain ⟨⟨s0, b⟩, h0, h1⟩ := Option.bind_eq_some_iff.mp h1
    have hmem := (doSelect_spec h0).mem
    cases h1
    cases attempt with
    | noSocket =>
      obtain ⟨s2, h2, h⟩ := Option.bind_eq_some_iff.mp h
      have h12 := setSock_grows h2
      cases h
      exact h12 _ hmem
    | noBind k' =>
      obtain ⟨s2, h2, h⟩ := Option.bind_eq_some_iff.mp h
      have h12 := setSock_grows h2
      cases h
      exact h12 _ hmem
    | tried k' select connect =>
      obtain ⟨s2, h2, h⟩ := Option.bind_eq_some_iff.mp h
      obtain ⟨⟨s3, ok⟩, h3, h⟩ := Option.bind_eq_some_iff.mp h
      obtain ⟨s4, h4, h⟩ := Option.bind_eq_some_iff.mp h
      have h14 := (setSock_grows h4) _ (doSelect_spec h3).mem
      cases h
      exact h14
  | none =>
    cases attempt with
    | noSocket => exact absurd hs (ha.resolve_right (by simp [endsEarly]))
    | noBind k => exact absurd hs (ha.resolve_right (by simp [endsEarly]))
    | tried k select connect =>
      obtain ⟨s2, h2, h⟩ := Option.bind_eq_some_iff.mp h
      obtain ⟨⟨s3, ok⟩, h3, h⟩ := Option.bind_eq_some_iff.mp h
      obtain ⟨s4, h4, h⟩ := Option.bind_eq_some_iff.mp h
      have h14 := (setSock_grows h4) _ (doSelect_spec h3).mem
      cases h
      exact h14

/-- Attempts that all end early leave no trace but the socket's error. -/
theorem connectLoop_early {sid : Nat} {attempts : List Attempt} : ∀ {s : St} {so : NetSocket}, endsEarly attempts = true → Inv s →
    s.socks.cell sid = some so → so.s = none →
      ∃ t so', connectLoop s sid attempts = some t ∧ Inv t ∧ Kept s t sid so so' ∧
        (so.error = true ∨ attempts ≠ [] → so'.error = true) := by
  induction attempts with
  | nil =>
    intro s so _ h hso _
    exact ⟨s, so, rfl, h, ⟨hso, rfl, rfl, rfl⟩, fun he => he.resolve_right (by simp)⟩
  | cons attempt rest ih =>
    intro s so hq h hso hnone
    have ha : endsEarly [attempt] = true := by
      cases attempt with
      | noSocket => rfl
      | noBind k => rfl
      | tried k select connect => cases hq
    obtain ⟨s1, so1, h1, hi1, hk1, he1, hs1⟩ := tryConnect_early h hso hnone ha
    obtain ⟨hi2, hc2⟩ := hi1.setSock hk1.cell (fun so => { so with candidates := rest.length }) rfl rfl rfl rfl
    have hstep : connectLoop s sid (attempt :: rest) =
        connectLoop { s1 with socks := s1.socks.put sid (some { so1 with candidates := rest.length }) } sid rest := by
      rw [connectLoop]
      simp only [h1, Option.bind_eq_bind, Option.bind_some, setSock_eq hk1.cell, if_true]
    rw [hstep]
    cases attempt with
    | noSocket =>
      obtain ⟨t, so', ht, hi, hk, he⟩ := ih hq hi2 hc2 (hs1.mpr rfl)
      exact ⟨t, so', ht, hi, ⟨hk.cell, hk.plug.trans hk1.plug, hk.owner.trans hk1.owner, hk.plugs.trans hk1.plugs⟩,
        fun _ => he (.inl he1)⟩
    | noBind k =>
      cases rest with
      | cons a as => cases hq
      | nil => exact ⟨_, _, rfl, hi2, ⟨hc2, hk1.plug, hk1.owner, hk1.plugs⟩, fun _ => he1⟩
    | tried k select connect => cases hq

theorem connectLoop_first {s t : St} {sid : Nat} {attempt : Attempt} {rest : List Attempt} {o : Obs}
    (hfirst : ∀ t err, tryConnect s sid attempt = some (t, err) → o ∈ t.log)
    (hrun : connectLoop s sid (attempt :: rest) = some t) : o ∈ t.log := by
  rw [connectLoop] at hrun
  obtain ⟨⟨s1, err⟩, h1, hrun⟩ := Option.bind_eq_some_iff.mp hrun
  obtain ⟨s2, h2, hrun⟩ := Option.bind_eq_some_iff.mp hrun
  have hmem := setSock_grows h2 _ (hfirst _ _ h1)
  by_cases he : err = true
  · rw [if_pos he] at hrun; exact connectLoop_grows hrun _ hmem
  · rw [if_neg he] at hrun; cases hrun; exact hmem

theorem connectLoop_selects {sid : Nat} {plug : Plug} {attempts : List Attempt} : ∀ {s t : St} {so : NetSocket},
    endsEarly attempts = false → Inv s → s.socks.cell sid = some so → so.s = none → s.plugs.cell so.plug = some plug →
      connectLoop s sid attempts = some t → .select so.owner plug.hwnd ∈ t.log := by
  induction attempts with
  | nil => intro s t so hq; cases hq
  | cons attempt rest ih =>
    intro s t so hq h hso hnone hp hrun
    by_cases ha : endsEarly [attempt] = true
    · obtain ⟨s1, so1, h1, hi1, hk1, -, hs1⟩ := tryConnect_early h hso hnone ha
      obtain ⟨hi2, hc2⟩ := hi1.setSock hk1.cell (fun so => { so with candidates := rest.length }) rfl rfl rfl rfl
      have hp2 : s1.plugs.cell so1.plug = some plug := by rw [hk1.plugs, hk1.plug]; exact hp
      rw [connectLoop] at hrun
      simp only [h1, Option.bind_eq_bind, Option.bind_some, setSock_eq hk1.cell, if_true] at hrun
      rw [← hk1.owner]
      cases attempt with
      | noSocket =>
        have := ih hq hi2 hc2 (hs1.mpr rfl) hp2 hrun
        exact this
      | noBind k =>
        -- the number this attempt got is dropped by the next one
        cases rest with
        | nil => cases hq
        | cons a as =>
          refine connectLoop_first (fun s3 err h3 => ?_) hrun
          have hs : so1.s ≠ none := fun e => by cases hs1.mp e
          have := tryConnect_selects hc2 (by exact hp2) (.inl (by exact hs)) h3
          exact this
      | tried k select connect => cases ha
    · exact connectLoop_first (fun s1 err h1 => tryConnect_selects hso hp (.inr (by simpa using ha)) h1) hrun

theorem skNetClose_selects {s t : St} {sid n : Nat} {so : NetSocket} {plug : Plug} (hso : s.socks.cell sid = some so)
    (hchild : so.child = none) (hp : s.plugs.cell so.plug = some plug) (h : skNetClose (n + 1) s sid = some t) :
    .select so.owner plug.hwnd ∈ t.log := by
  unfold skNetClose at h
  simp only [hso, hchild, hp, Option.bind_eq_bind, Option.bind_some] at h
  obtain ⟨⟨s1, b⟩, h1, h⟩ := Option.bind_eq_some_iff.mp h
  obtain ⟨socks, -, h⟩ := Option.bind_eq_some_iff.mp h
  have hmem := (doSelect_spec h1).mem
  cases h
  cases so.s with
  | none => exact hmem
  | some k => exact hmem

/-! ## One step -/

theorem newPlug_cell (s : St) (plug : Plug) : (newPlug s plug).2.plugs.cell (newPlug s plug).1 = some plug :=
  Heap.alloc_same _ _

theorem newSock_cell (s : St) (so : NetSocket) : (newSock s so).2.socks.cell (newSock s so).1 = some so :=
  Heap.alloc_same _ _

theorem connectionPlug_spec {s : St} (h : Inv s) (owner : HWND) (client : Client) (proxied : Bool) (garbage : Option HWND) :
    Inv (connectionPlug s owner client proxied garbage).2 ∧ ∃ plug,
      (connectionPlug s owner client proxied garbage).2.plugs.cell (connectionPlug s owner client proxied garbage).1 = some plug ∧
        plug.owner = owner ∧ plug.hwnd = if client = .ssh ∧ proxied = false then .set owner else .unset garbage := by
  have h1 : Inv (newPlug s ⟨owner, clientHwnd owner garbage client, false⟩).2 := by
    refine h.newPlug ?_
    intro w hw
    cases client <;> cases hw
    rfl
  cases proxied with
  | true =>
    refine ⟨h1.newPlug (fun w hw => by cases hw), _, newPlug_cell _ _, rfl, ?_⟩
    rw [if_neg (fun e => by cases e.2)]
  | false =>
    refine ⟨h1, _, newPlug_cell _ _, rfl, ?_⟩
    cases client <;> rfl

theorem newConnection_inv {s : St} (h : Inv s) {owner : HWND} {client : Client} {proxied : Bool} (garbage : Option HWND)
    {first : Attempt} {rest : List Attempt} (hok : Allowed s (.connection owner client proxied garbage first rest)) :
    ∃ t, newConnection s owner client proxied garbage first rest = some t ∧ Inv t := by
  obtain ⟨h1, plug, hp, howner, hhwnd⟩ := connectionPlug_spec h owner client proxied garbage
  unfold newConnection skNew
  generalize connectionPlug s owner client proxied garbage = c at h1 hp ⊢
  obtain ⟨pid, s1⟩ := c
  have h2 : Inv (newSock s1 ⟨owner, pid, none, false, false, false, false, rest.length, none⟩).2 := h1.newSock rfl rfl hp howner
  have hso := newSock_cell s1 ⟨owner, pid, none, false, false, false, false, rest.length, none⟩
  dsimp only at h2 hso ⊢
  rcases hok with ⟨rfl, rfl⟩ | ⟨hclient, hearly⟩
  · obtain ⟨t, so', ht, hi, hk⟩ := connectLoop_inv (first :: rest) h2 hso hp hhwnd
    refine ⟨t, ?_, hi⟩
    simp only [ht, hk.cell, Option.bind_eq_bind, Option.bind_some]
    exact if_neg (fun e => by cases e.1)
  · obtain ⟨t, so', ht, hi, hk, -⟩ := connectLoop_early hearly h2 hso rfl
    refine ⟨t, ?_, hi⟩
    simp only [ht, hk.cell, Option.bind_eq_bind, Option.bind_some]
    exact if_neg (fun e => hclient e.1)

theorem newConnection_selects {s t : St} (h : Inv s) {owner : HWND} {client : Client} {proxied : Bool} {garbage : Option HWND}
    {first : Attempt} {rest : List Attempt} (hno : ¬ Allowed s (.connection owner client proxied garbage first rest))
    (hrun : newConnection s owner client proxied garbage first rest = some t) : .select owner (.unset garbage) ∈ t.log := by
  obtain ⟨h1, plug, hp, howner, hhwnd⟩ := connectionPlug_spec h owner client proxied garbage
  unfold Allowed at hno
  push Not at hno
  rw [if_neg (fun e => hno.1 e.1 e.2)] at hhwnd
  unfold newConnection skNew at hrun
  generalize connectionPlug s owner client proxied garbage = c at h1 hp hrun
  obtain ⟨pid, s1⟩ := c
  have h2 : Inv (newSock s1 ⟨owner, pid, none, false, false, false, false, rest.length, none⟩).2 := h1.newSock rfl rfl hp howner
  have hso := newSock_cell s1 ⟨owner, pid, none, false, false, false, false, rest.length, none⟩
  dsimp only at h2 hso hrun
  obtain ⟨⟨sid, s2⟩, h3, hrun⟩ := Option.bind_eq_some_iff.mp hrun
  obtain ⟨s2', hloop, h3⟩ := Option.bind_eq_some_iff.mp h3
  cases h3
  obtain ⟨so2, hso2, hrun⟩ := Option.bind_eq_some_iff.mp hrun
  dsimp only at hrun hso2
  by_cases hearly : endsEarly (first :: rest) = true
  · obtain ⟨t', so', ht', hi, hk, he⟩ := connectLoop_early hearly h2 hso rfl
    rw [hloop] at ht'
    cases ht'
    rw [hk.cell] at hso2
    cases hso2
    have hclient : client = .forwarding := by
      by_contra hne
      exact hno.2 hne hearly
    rw [if_pos ⟨hclient, he (.inr (by simp))⟩] at hrun
    obtain ⟨hchild, -, -⟩ := hi.socks _ _ hk.cell
    have := skNetClose_selects hk.cell hchild (by rw [hk.plugs, hk.plug]; exact hp) hrun
    rw [hk.owner, hhwnd] at this
    exact this
  · have hmem := connectLoop_selects (by simpa using hearly) h2 hso rfl hp hloop
    rw [hhwnd] at hmem
    split at hrun
    · exact skNetClose_grows hrun _ hmem
    · cases hrun; exact hmem

/-- A listener goes through `do_select`, or has an error. -/
theorem skNewlistener_spec {s t : St} {owner : HWND} {pid sid : Nat} {plug : Plug} {outcome : Listening} {err : Bool}
    (hp : s.plugs.cell pid = some plug) (h : skNewlistener s owner pid outcome = some (sid, err, t)) :
    .select owner plug.hwnd ∈ t.log ∨ err = true ∧ t.plugs = s.plugs ∧
      ∃ so, t.socks.cell sid = some so ∧ so.child = none ∧ so.owner = owner ∧ so.plug = pid := by
  have hso := newSock_cell s ⟨owner, pid, none, false, false, false, false, 0, none⟩
  unfold skNewlistener at h
  cases outcome with
  | noSocket =>
    cases h
    exact .inr ⟨rfl, rfl, _, hso, rfl, rfl, rfl⟩
  | notBound k =>
    obtain ⟨s1, h1, h⟩ := Option.bind_eq_some_iff.mp h
    obtain ⟨so, hso', rfl⟩ := setSock_spec h1
    cases h
    have hso' : (newSock s ⟨owner, pid, none, false, false, false, false, 0, none⟩).2.socks.cell
        (newSock s ⟨owner, pid, none, false, false, false, false, 0, none⟩).1 = some so := hso'
    rw [hso] at hso'
    cases hso'
    exact .inr ⟨rfl, rfl, _, Heap.put_same (Heap.lt_brk hso) _, rfl, rfl, rfl⟩
  | listens k select =>
    obtain ⟨s1, h1, h⟩ := Option.bind_eq_some_iff.mp h
    obtain ⟨so, -, rfl⟩ := setSock_spec h1
    obtain ⟨plug', hp', h⟩ := Option.bind_eq_some_iff.mp h
    have hp' : s.plugs.cell pid = some plug' := hp'
    rw [hp] at hp'
    cases hp'
    obtain ⟨⟨s2, ok⟩, h2, h⟩ := Option.bind_eq_some_iff.mp h
    have hmem := (doSelect_spec h2).mem
    dsimp only at h
    by_cases hok : ok = true
    · rw [if_pos hok] at h; cases h; exact .inl hmem
    · rw [if_neg hok] at h; cases h; exact .inl hmem

/-- A listener's plug is never set, and even a listener that fails is closed through it. -/
theorem pflListen_selects {s t : St} {owner : HWND} {garbage : Option HWND} {outcome : Listening} {six : Option Listening}
    (hrun : pflListen s owner garbage outcome six = some t) : .select owner (.unset garbage) ∈ t.log := by
  have hp := newPlug_cell s ⟨owner, .unset garbage, true⟩
  unfold pflListen at hrun
  generalize newPlug s ⟨owner, .unset garbage, true⟩ = c at hp hrun
  obtain ⟨pid, s1⟩ := c
  dsimp only at hp hrun
  obtain ⟨⟨sid, err, s2⟩, h1, hrun⟩ := Option.bind_eq_some_iff.mp hrun
  dsimp only at hrun
  rcases skNewlistener_spec hp h1 with hmem | ⟨rfl, hplugs, so, hso, hchild, howner, hpid⟩
  · by_cases he : err = true
    · rw [if_pos he] at hrun
      exact skNetClose_grows hrun _ hmem
    · rw [if_neg he] at hrun
      cases six with
      | none => cases hrun; exact hmem
      | some outcome => exact listenSix_grows hrun _ hmem
  · rw [if_pos rfl] at hrun
    have := skNetClose_selects hso hchild (by rw [hplugs, hpid]; exact hp) hrun
    rw [howner] at this
    exact this

theorem findSocket_tree {s : St} {k : SOCKET} {sid : Nat} (h : findSocket s k = some sid) : sid ∈ s.sktree :=
  List.mem_of_find?_eq_some h

/-- The state in which the event's handler runs. -/
theorem delivered_inv {s : St} (h : Inv s) {p : Posted} (hw : p.hwnd = p.owner) {sid : Nat} {so : NetSocket}
    (hso : s.socks.cell sid = some so) (ho : so.owner = p.owner) :
    ∃ plugs plug, s.plugs.modify so.plug (fun plug => { plug with hwnd := .set p.hwnd }) = some plugs ∧
      Inv (push { s with plugs } (.delivered p.hwnd so.owner)) ∧ plugs.cell so.plug = some plug ∧ plug.hwnd = .set so.owner := by
  obtain ⟨-, -, plug, hp, howner⟩ := h.socks sid so hso
  have hlt := Heap.lt_brk hp
  have hsame := Heap.put_same hlt (some { plug with hwnd := .set p.hwnd })
  refine ⟨_, _, Heap.modify_live _ hp, ⟨?_, ?_, h.regs, h.queue, h.tree, ?_⟩, hsame, by rw [hw, ho]⟩
  · intro pid q w hq hset
    by_cases e : pid = so.plug
    · subst e
      have hq : some { plug with hwnd := .set p.hwnd } = some q := by rw [← hq]; exact hsame.symm
      cases hq
      cases hset
      dsimp only
      rw [hw, howner, ho]
    · exact h.plugs pid q w (by rw [← hq]; exact (Heap.put_ne _ _ e).symm) hset
  · intro k so' hk
    obtain ⟨hc, hl, q, hq, hqo⟩ := h.socks k so' hk
    refine ⟨hc, hl, ?_⟩
    by_cases e : so'.plug = so.plug
    · refine ⟨{ plug with hwnd := .set p.hwnd }, ?_, ?_⟩
      · rw [e]; exact hsame
      · rw [e, hp] at hq
        cases hq
        exact hqo
    · exact ⟨q, by rw [← hq]; exact Heap.put_ne _ _ e, hqo⟩
  · intro o hmem
    rcases List.mem_append.mp hmem with hmem | hmem
    · exact h.log o hmem
    · rw [List.mem_singleton.mp hmem]
      exact hw.trans ho.symm

theorem handleEvent_inv {s : St} (h : Inv s) {sid : Nat} {so : NetSocket} {plug : Plug} (hso : s.socks.cell sid = some so)
    (hp : s.plugs.cell so.plug = some plug) (hset : plug.hwnd = .set so.owner) {event : NetEvent} (he : event ≠ .accept)
    (out : Outcome) : ∃ t, handleEvent s sid so event out = some t ∧ Inv t := by
  cases event with
  | error =>
    obtain ⟨t, so', ht, hi, -⟩ := connectLoop_inv (out.attempts.take so.candidates) h hso hp hset
    exact ⟨t, ht, hi⟩
  | connect =>
    obtain ⟨hi, -⟩ := h.setSock hso (fun so => { so with candidates := 0 }) rfl rfl rfl rfl
    exact ⟨_, setSock_eq hso _, hi⟩
  | read =>
    unfold handleEvent
    by_cases hf : so.frozen = true
    · obtain ⟨hi, -⟩ := h.setSock hso (fun so => { so with frozenReadable := true }) rfl rfl rfl rfl
      exact ⟨_, (if_pos hf).trans (setSock_eq hso _), hi⟩
    · exact ⟨s, if_neg hf, h⟩
  | accept => exact absurd rfl he
  | write => exact ⟨s, rfl, h⟩
  | oob => exact ⟨s, rfl, h⟩
  | close => exact ⟨s, rfl, h⟩

theorem selectResult_inv {s : St} (h : Inv s) {p : Posted} (hw : p.hwnd = p.owner) (he : p.event ≠ .accept)
    (hok : p.skt ≠ 0 → ∀ sid, findSocket s p.skt = some sid → ∀ so, s.socks.cell sid = some so → so.owner = p.owner)
    (out : Outcome) : ∃ t, selectResult s p out = some t ∧ Inv t := by
  unfold selectResult
  by_cases h0 : p.skt = 0
  · exact ⟨s, if_pos h0, h⟩
  rw [if_neg h0]
  cases hf : findSocket s p.skt with
  | none => exact ⟨s, rfl, h⟩
  | some sid =>
    obtain ⟨so, hso⟩ := h.tree sid (findSocket_tree hf)
    obtain ⟨plugs, plug, hm, hi, hp, hset⟩ := delivered_inv h hw hso (hok h0 sid hf so hso)
    simp only [hso, hm, Option.bind_eq_bind, Option.bind_some]
    exact handleEvent_inv hi hso hp hset he out

/-- An event that meets a socket of another session is delivered to it. -/
theorem selectResult_delivers {s t : St} {p : Posted} {out : Outcome} (h0 : p.skt ≠ 0) {sid : Nat} (hf : findSocket s p.skt = some sid)
    {so : NetSocket} (hso : s.socks.cell sid = some so) (h : selectResult s p out = some t) : .delivered p.hwnd so.owner ∈ t.log := by
  unfold selectResult at h
  rw [if_neg h0, hf] at h
  simp only [hso, Option.bind_eq_bind, Option.bind_some] at h
  obtain ⟨plugs, -, h⟩ := Option.bind_eq_some_iff.mp h
  exact handleEvent_grows h _ (List.mem_append_right _ (List.mem_singleton.mpr rfl))

theorem step_inv {s : St} {e : Ev} (h : Inv s) (hok : Allowed s e) : ∃ t, step s e = some t ∧ Inv t := by
  cases e with
  | connection owner client proxied garbage first rest => exact newConnection_inv h garbage hok
  | listen owner garbage outcome six => exact hok.elim
  | plug owner garbage accepting => exact ⟨_, rfl, h.newPlug fun w hw => by cases hw⟩
  | swap sid pid =>
    unfold step
    cases hso : s.socks.cell sid with
    | none => exact ⟨s, by simp [hso], h⟩
    | some so =>
      cases hp : s.plugs.cell pid with
      | none => exact ⟨s, by simp [hso, hp], h⟩
      | some plug =>
        by_cases ho : plug.owner = so.owner
        · obtain ⟨hc, hl, -⟩ := h.socks sid so hso
          obtain ⟨hi, -⟩ := h.putSock (v := { so with plug := pid }) hso hc hl hp ho
          exact ⟨_, by simp only [hso, hp, if_pos ho, setSock_eq hso], hi⟩
        · exact ⟨s, by simp [hso, hp, ho], h⟩
  | setFrozen sid frozen =>
    show ∃ t, (if (s.socks.cell sid).isSome then setFrozen s sid frozen else some s) = some t ∧ Inv t
    cases hso : s.socks.cell sid with
    | none => exact ⟨s, rfl, h⟩
    | some so =>
      rw [if_pos (by rfl)]
      exact setFrozen_inv h hso frozen fun hf hf' => hok so hso hf hf'
  | close sid =>
    show ∃ t, (if (s.socks.cell sid).isSome then skNetClose 2 s sid else some s) = some t ∧ Inv t
    cases hso : s.socks.cell sid with
    | none => exact ⟨s, rfl, h⟩
    | some so =>
      rw [if_pos (by rfl)]
      obtain ⟨plug, hp, ⟨hset, -⟩ | ⟨-, hno⟩⟩ := h.plugOf hso
      · exact skNetClose_inv h hso hp hset
      · rw [hok (by rw [hso]; rfl)] at hno
        cases hno
  | reselectAll => exact reselectLoop_inv h h.tree fun sid hsid so hso hf => hok sid hsid so hso hf
  | post k event =>
    unfold step
    cases hr : s.registered k with
    | none => exact ⟨s, by simp [hr], h⟩
    | some r =>
      obtain ⟨hw, hl⟩ := h.regs k r hr
      by_cases he : event = .accept ∧ r.listening = false
      · exact ⟨s, by simp [hr, he], h⟩
      · refine ⟨{ s with queue := s.queue ++ [⟨r.hwnd, k, event, r.owner⟩] }, by simp only [hr, if_neg he], h.plugs, h.socks,
          h.regs, ?_, h.tree, h.log⟩
        intro p hp
        rcases List.mem_append.mp hp with hp | hp
        · exact h.queue p hp
        · rw [List.mem_singleton.mp hp]
          exact ⟨hw, fun e => he ⟨e, hl⟩⟩
  | deliver i out =>
    unfold step
    cases hq : s.queue[i]? with
    | none => exact ⟨s, by simp [hq], h⟩
    | some p =>
      obtain ⟨hw, hev⟩ := h.queue p (List.mem_of_getElem? hq)
      have h1 : Inv { s with queue := s.queue.eraseIdx i } :=
        ⟨h.plugs, h.socks, h.regs, fun q hq => h.queue q (List.mem_of_mem_eraseIdx hq), h.tree, h.log⟩
      obtain ⟨t, ht, hi⟩ := selectResult_inv h1 hw hev (fun h0 sid hf so hso => hok p hq h0 sid hf so hso) out
      exact ⟨t, by simp only [hq]; exact ht, hi⟩

theorem reselectLoop_grows {sids : List Nat} : ∀ {s t : St}, reselectLoop s sids = some t → Grows s t := by
  induction sids with
  | nil => intro s t h; cases h; exact Grows.refl s
  | cons sid rest ih =>
    intro s t h
    unfold reselectLoop at h
    obtain ⟨so, -, h⟩ := Option.bind_eq_some_iff.mp h
    by_cases hf : so.frozen = true
    · rw [if_pos hf] at h; exact ih h
    · rw [if_neg hf] at h
      obtain ⟨plug, -, h⟩ := Option.bind_eq_some_iff.mp h
      obtain ⟨⟨s1, b⟩, h1, h⟩ := Option.bind_eq_some_iff.mp h
      exact (doSelect_spec h1).grows.trans (ih h)

/-- The socket with the unset plug is come to, whatever the ones before it are. -/
theorem reselectLoop_selects {sids : List Nat} : ∀ {s t : St} {sid : Nat} {so : NetSocket} {plug : Plug}, sid ∈ sids →
    s.socks.cell sid = some so → so.frozen = false → s.plugs.cell so.plug = some plug →
      reselectLoop s sids = some t → .select so.owner plug.hwnd ∈ t.log := by
  induction sids with
  | nil => intro s t sid so plug hmem; cases hmem
  | cons k rest ih =>
    intro s t sid so plug hmem hso hfr hp h
    unfold reselectLoop at h
    obtain ⟨sok, hk, h⟩ := Option.bind_eq_some_iff.mp h
    by_cases e : sid = k
    · subst e
      rw [hso] at hk
      cases hk
      rw [if_neg (by simp [hfr])] at h
      simp only [hp, Option.bind_eq_bind, Option.bind_some] at h
      obtain ⟨⟨s1, b⟩, h1, h⟩ := Option.bind_eq_some_iff.mp h
      exact reselectLoop_grows h _ (doSelect_spec h1).mem
    · have hrest : sid ∈ rest := (List.mem_cons.mp hmem).resolve_left e
      by_cases hf : sok.frozen = true
      · rw [if_pos hf] at h
        exact ih hrest hso hfr hp h
      · rw [if_neg hf] at h
        obtain ⟨plugk, -, h⟩ := Option.bind_eq_some_iff.mp h
        obtain ⟨⟨s1, b⟩, h1, h⟩ := Option.bind_eq_some_iff.mp h
        have hsel := doSelect_spec h1
        exact ih hrest (by rw [hsel.socks]; exact hso) hfr (by rw [hsel.plugs]; exact hp) h

theorem setFrozen_selects {s t : St} {sid : Nat} {so : NetSocket} {plug : Plug} (hso : s.socks.cell sid = some so)
    (hf : so.frozen = true) (hp : s.plugs.cell so.plug = some plug) (h : setFrozen s sid false = some t) :
    .select so.owner plug.hwnd ∈ t.log := by
  unfold setFrozen at h
  simp only [hso, Option.bind_eq_bind, Option.bind_some] at h
  rw [if_neg (by simp [hf]), setSock_eq hso, Option.bind_some, if_neg (by simp)] at h
  simp only [hp, Option.bind_some] at h
  obtain ⟨⟨s1, b⟩, h1, h⟩ := Option.bind_eq_some_iff.mp h
  cases h
  exact (doSelect_spec h1).mem

/-- A `do_select` through an unset plug is what must not be. -/
theorem unset_unsafe {t : St} {owner : HWND} {plug : Plug} {g : Option HWND} (hg : plug.hwnd = .unset g)
    (hmem : .select owner plug.hwnd ∈ t.log) : ¬ Safe t := by
  intro hsafe
  have : plug.hwnd = .set owner := hsafe _ hmem
  rw [hg] at this
  cases this

theorem Inv.unwired {s : St} (h : Inv s) {sid : Nat} {so : NetSocket} (hso : s.socks.cell sid = some so)
    (hw : wired s sid ≠ true) : ∃ plug g, s.plugs.cell so.plug = some plug ∧ plug.hwnd = .unset g := by
  obtain ⟨plug, hp, ⟨-, hyes⟩ | ⟨⟨g, hg⟩, -⟩⟩ := h.plugOf hso
  · exact absurd hyes hw
  · exact ⟨plug, g, hp, hg⟩

theorem step_breaks {s t : St} {e : Ev} (h : Inv s) (hno : ¬ Allowed s e) (hs : step s e = some t) : ¬ Safe t := by
  cases e with
  | connection owner client proxied garbage first rest =>
    intro hsafe
    have : PlugHwnd.unset garbage = .set owner := hsafe _ (newConnection_selects h hno hs)
    cases this
  | listen owner garbage outcome six =>
    intro hsafe
    have : PlugHwnd.unset garbage = .set owner := hsafe _ (pflListen_selects hs)
    cases this
  | setFrozen sid frozen =>
    unfold Allowed at hno
    push Not at hno
    obtain ⟨so, hso, hf, rfl, hw⟩ := hno
    obtain ⟨plug, g, hp, hg⟩ := h.unwired hso hw
    have hs : setFrozen s sid false = some t := by rw [← hs]; exact (if_pos (by rw [hso]; rfl)).symm
    exact unset_unsafe hg (setFrozen_selects hso hf hp hs)
  | close sid =>
    unfold Allowed at hno
    push Not at hno
    obtain ⟨hsome, hw⟩ := hno
    obtain ⟨so, hso⟩ := Option.isSome_iff_exists.mp hsome
    obtain ⟨plug, g, hp, hg⟩ := h.unwired hso hw
    have hs : skNetClose 2 s sid = some t := by rw [← hs]; exact (if_pos hsome).symm
    obtain ⟨hchild, -, -⟩ := h.socks sid so hso
    exact unset_unsafe hg (skNetClose_selects hso hchild hp hs)
  | reselectAll =>
    unfold Allowed at hno
    push Not at hno
    obtain ⟨sid, hsid, so, hso, hf, hw⟩ := hno
    obtain ⟨plug, g, hp, hg⟩ := h.unwired hso hw
    exact unset_unsafe hg (reselectLoop_selects hsid hso hf hp hs)
  | deliver i out =>
    unfold Allowed at hno
    push Not at hno
    obtain ⟨p, hq, h0, sid, hf, so, hso, ho⟩ := hno
    have hs : selectResult { s with queue := s.queue.eraseIdx i } p out = some t := by
      rw [← hs]
      simp only [step, hq]
    intro hsafe
    have : p.hwnd = so.owner := hsafe _ (selectResult_delivers h0 (by exact hf) (by exact hso) hs)
    exact ho (this.symm.trans (h.queue p (List.mem_of_getElem? hq)).1)
  | plug => exact absurd trivial hno
  | swap => exact absurd trivial hno
  | post => exact absurd trivial hno

/-! ## Runs -/

/-- Sockets belong to their session's window in every state of a run exactly when every
    step of the run is an allowed one. -/
theorem sockets_belong_iff (evs : List Ev) : Always step (fun _ s => Safe s) start evs ↔ Along step Allowed start evs := by
  refine always_iff_along (I := fun _ s => Inv s) start_inv (fun _ _ h => h.log) ?_ ?_ evs
  · intro _ s e h hok
    exact step_inv h hok
  · intro _ s e t h hno hs
    exact step_breaks h hno hs

/-- A forwarded-port listener and its IPv6 socket, whose plug holds another session's window. -/
theorem listener_selects_unset : ¬ ∀ evs, Always step (fun _ s => Safe s) start evs := by
  intro h
  obtain ⟨s, hs, hsafe⟩ := h [.connection 7 .ssh false none (.tried 3 true true) [],
    .listen 7 (some 9) (.listens 4 true) (some (.listens 5 true))] _ (List.prefix_refl _)
  have hlog : (run step start [.connection 7 .ssh false none (.tried 3 true true) [],
      .listen 7 (some 9) (.listens 4 true) (some (.listens 5 true))]).map (·.log) =
      some [.select 7 (.set 7), .select 7 (.unset (some 9)), .select 7 (.unset (some 9))] := by decide
  rw [hs, Option.map_some, Option.some.injEq] at hlog
  have : PlugHwnd.unset (some 9) = .set 7 := hsafe (.select 7 (.unset (some 9))) (by rw [hlog]; simp)
  cases this

end Putty.Windows.WinNet
