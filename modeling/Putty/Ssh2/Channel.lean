/-
  Putty.Ssh2.Channel — one channel of the SSH-2 connection layer (`ssh2connection.c`).

  Three parties drive it. The server's messages reach it through
  ssh2_connection_filter_queue; the Channel at its local end (a session, a forwarding,
  an agent) calls the sshfwd_ functions; the transport below may throttle it. A message
  may call into the Channel in the middle of its handling, and the Channel may call back
  before it returns: `pending` says where the handling of the message goes on once it
  does (`Ev.ret`). Messages are taken one at a time, and a local call runs to its end.

  A failed assertion of this layer, a NULL Channel called or the freed channel touched is
  `none`. A handler given the NULL packet of a CLOSE reads it, and a zombie given the
  reply to a request aborts: the process stops there (`stopped`, as after a protocol
  error). A send loop that repeats its state never ends (`hung`). In both, nothing more
  happens.

  The list of outstanding channel requests is a list here: its tail pointer is only
  followed when the head is set. Bodies of channel requests, and texts that are only
  logged, are left out.
-/

import Putty.Utils.Bufchain
import Putty.Lib.Run

namespace Putty.Ssh2.Channel

open Putty.Lib Putty.Utils

/-! ## Data -/

def ourV2Winsize : Int := 16384
def ourV2Bigwin : Int := 0x7fffffff
def ourV2Maxpkt : Int := 0x4000

/-- What does not change while a channel lives: the mode, the server's known bugs, and
    the packet protocol's size limit. -/
structure Config where
  sshIsSimple : Bool
  bugSsh2Maxpkt : Bool
  bugChokesOnWinadj : Bool
  bugSendsLateRequestReply : Bool
  packetSizeLimit : UInt32
  deriving DecidableEq, Repr

inductive ThrottleState where
  | throttled
  | unthrottling
  | unthrottled
  deriving DecidableEq, Repr

/-- The want_close policies. A server-side session asks for the close once it has seen
    EOF and the exit of its process (`seen`); every other Channel once EOF went both ways. -/
inductive Policy where
  | default
  | session (seen : Bool)
  deriving DecidableEq, Repr

/-- The Channel at the local end; `null` after the hand-over to a downstream. -/
inductive Chan where
  | live (policy : Policy) (initialFixedWindowSize : Nat)
  | zombie
  | null
  deriving DecidableEq, Repr

/-- Who waits for the reply to a channel request: ssh2_handle_winadj_response with its
    size, or ssh2_channel_response. -/
inductive Handler where
  | winadj (size : Int)
  | response
  deriving DecidableEq, Repr

/-- What is sent on the channel. -/
inductive Msg where
  | data (bytes : List UInt8)
  | extendedData (bytes : List UInt8)
  | windowAdjust (n : UInt32)
  | request (type : String) (wantReply : Bool)
  | success
  | failure
  | eof
  | close
  deriving DecidableEq, Repr

structure Ssh2Channel where
  remoteid : UInt32
  halfopen : Bool
  sentEof : Bool
  sentClose : Bool
  rcvdEof : Bool
  rcvdClose : Bool
  pendingEof : Bool
  throttlingConn : Bool
  throttledByBacklog : Bool
  outbuffer : Bufchain
  errbuffer : Bufchain
  remwindow : UInt32
  remmaxpkt : UInt32
  locwindow : Int
  locmaxwin : Int
  remlocwin : Int
  chanreqs : List Handler
  throttleState : ThrottleState
  shared : Bool
  chan : Chan
  deriving DecidableEq

/-- Where the handling of a message goes on when the Channel returns. -/
inductive Frame where
  | openConfirmation
  | openFailure
  | data
  | request (wantReply : Bool)
  | reply
  | eof
  | closeEof
  | closeThrottle
  deriving DecidableEq, Repr

inductive Life where
  | alive
  /-- ssh2_channel_destroy has run. -/
  | destroyed
  /-- Freed because the server refused to open it. -/
  | refused
  | stopped
  | hung
  deriving DecidableEq, Repr

structure St where
  c : Ssh2Channel
  /-- Each message with the channel number it cites, in the order they are queued. -/
  out : List (UInt32 × Msg)
  allChannelsThrottled : Bool
  /-- What chan_set_input_wanted was last told. -/
  inputWanted : Bool
  life : Life
  pending : Option Frame
  deriving DecidableEq

def push (s : St) (m : Msg) : St := { s with out := s.out ++ [(s.c.remoteid, m)] }

/-- An access to the channel after a call that may have destroyed it. -/
def touch (s : St) : Option St := if s.life = .destroyed then none else some s

/-- Conversion to `int`. -/
def toInt (x : Int) : Int := x.bmod (2 ^ 32)

def toUInt32 (x : Int) : UInt32 := UInt32.ofNat (x % 2 ^ 32).toNat

/-! ## Requests and windows -/

/-- ssh2_chanreq_init, with the push of the packet it returns. -/
def chanreqInit (s : St) (type : String) (handler : Option Handler) : Option St :=
  if s.c.sentClose || s.c.rcvdClose then none
  else some (push { s with c := { s.c with chanreqs := s.c.chanreqs ++ handler.toList } } (.request type handler.isSome))

def handleWinadjResponse (c : Ssh2Channel) (size : Int) : Ssh2Channel :=
  { c with
    remlocwin := toInt (c.remlocwin + size)
    throttleState := if c.throttleState = .unthrottling then .unthrottled else c.throttleState }

def initialFixedWindowSize : Chan → Option Nat
  | .live _ n => some n
  | .zombie => some 0
  | .null => none

def setWindow (cfg : Config) (s : St) (newwin : Int) : Option St :=
  if s.c.rcvdEof || s.c.sentClose then some s
  else do
    let fixed ← initialFixedWindowSize s.c.chan
    if fixed ≠ 0 then some s
    else
      -- the comparison with OUR_V2_MAXPKT is unsigned
      let newwin := if cfg.bugSsh2Maxpkt ∧ (newwin < 0 ∨ newwin > ourV2Maxpkt) then ourV2Maxpkt else newwin
      if newwin.tdiv 2 ≥ s.c.locwindow then do
        let delta := newwin - s.c.locwindow
        let s ←
          if newwin = s.c.locmaxwin ∧ ¬ cfg.bugChokesOnWinadj then do
            let s ← chanreqInit s "winadj@putty.projects.tartarus.org" (some (.winadj delta))
            some { s with c := { s.c with
              throttleState := if s.c.throttleState ≠ .unthrottled then .unthrottling else .unthrottled } }
          else some { s with c := { s.c with remlocwin := newwin, throttleState := .throttled } }
        let s := push s (.windowAdjust (toUInt32 delta))
        some { s with c := { s.c with locwindow := newwin } }
      else some s

/-! ## Closing -/

/-- chan_want_close. -/
def wantClose (chan : Chan) (sentLocalEof rcvdRemoteEof : Bool) : Option Bool :=
  match chan with
  | .live .default _ => some (sentLocalEof && rcvdRemoteEof)
  | .live (.session seen) _ => some seen
  | .zombie => some true
  | .null => none

/-- ssh2_channel_close_local: the channel becomes a zombie. -/
def closeLocal (s : St) : St := if s.c.shared then s else { s with c := { s.c with chan := .zombie } }

def destroy (s : St) : Option St :=
  if s.c.chanreqs ≠ [] then none else some { closeLocal s with life := .destroyed }

def checkClose (s : St) : Option St :=
  if s.c.halfopen then some s
  else do
    let want ← wantClose s.c.chan s.c.sentEof s.c.rcvdEof
    let s :=
      if want ∧ s.c.chanreqs = [] ∧ ¬ s.c.sentClose then
        let s := push s .close
        { s with c := { s.c with sentEof := true, sentClose := true } }
      else s
    if s.c.sentClose ∧ s.c.rcvdClose then
      if s.c.chanreqs ≠ [] then none else destroy s
    else some s

def tryEof (s : St) : Option St :=
  if ¬ s.c.pendingEof then none
  else if s.c.halfopen then some s
  else if bufchainSize s.c.outbuffer > 0 ∨ bufchainSize s.c.errbuffer > 0 then some s
  else
    let s := { s with c := { s.c with pendingEof := false } }
    let s := push s .eof
    checkClose { s with c := { s.c with sentEof := true } }

/-! ## Sending -/

def buffered (c : Ssh2Channel) : Nat := bufchainSize c.outbuffer + bufchainSize c.errbuffer

/-- What a round takes of the bytes at the front of a buffer. -/
def piece (c : Ssh2Channel) (data : List UInt8) : List UInt8 :=
  let data := if data.length > c.remwindow.toNat then data.take c.remwindow.toNat else data
  if data.length > c.remmaxpkt.toNat then data.take c.remmaxpkt.toNat else data

/-- One round of the loop of ssh2_try_send. -/
def sendRound (s : St) : Option St := do
  let err := bufchainSize s.c.errbuffer > 0
  let buf := if err then s.c.errbuffer else s.c.outbuffer
  let data ← bufchainPrefix buf
  let data := piece s.c data
  let s := push s (if err then .extendedData data else .data data)
  let buf ← bufchainConsume buf data.length
  let c := if err then { s.c with errbuffer := buf } else { s.c with outbuffer := buf }
  some { s with c := { c with remwindow := c.remwindow - UInt32.ofNat data.length } }

/-- The loop; a round that sends nothing leaves its condition as it was, for ever. -/
def sendLoop : Nat → St → Option St
  | 0, s => some { s with life := .hung }
  | n + 1, s =>
    if s.c.remwindow > 0 ∧ (bufchainSize s.c.outbuffer > 0 ∨ bufchainSize s.c.errbuffer > 0) then do
      let s ← sendRound s
      sendLoop n s
    else some s

/-- ssh2_try_send. The amount it returns is what is left in the buffers. -/
def trySend (s : St) : Option St := do
  let s ← if s.c.halfopen then some s else sendLoop (buffered s.c + 1) s
  if s.life ≠ .hung ∧ buffered s.c = 0 ∧ s.c.pendingEof then tryEof s else some s

def checkThrottle (s : St) : St :=
  { s with inputWanted :=
      !s.c.throttledByBacklog && !s.allChannelsThrottled && !s.c.pendingEof && !s.c.sentEof }

def trySendAndUnthrottle (s : St) : Option St :=
  if s.c.sentEof then some s
  else do
    let s ← trySend s
    if s.life ≠ .hung ∧ buffered s.c = 0 then do
      let s ← touch s
      some (checkThrottle { s with c := { s.c with throttledByBacklog := false } })
    else some s

/-! ## Calls from the Channel -/

def writeEof (s : St) : Option St :=
  if s.c.sentEof then some s else tryEof { s with c := { s.c with pendingEof := true } }

def initiateClose (s : St) : Option St :=
  let s := closeLocal s
  checkClose { s with c := { s.c with pendingEof := false } }

def unthrottle (cfg : Config) (s : St) (bufsize : Nat) : Option St := do
  let buflimit := if cfg.sshIsSimple then 0 else s.c.locmaxwin.toNat
  let s ← if bufsize < buflimit then setWindow cfg s (toInt (buflimit - bufsize)) else some s
  some (if s.c.throttlingConn ∧ bufsize ≤ buflimit then { s with c := { s.c with throttlingConn := false } } else s)

def write (s : St) (isStderr : Bool) (data : List UInt8) : Option St :=
  if s.c.sentEof then none
  else trySend { s with c :=
    if isStderr then { s.c with errbuffer := bufchainAdd s.c.errbuffer data }
    else { s.c with outbuffer := bufchainAdd s.c.outbuffer data } }

def x11SharingHandover (s : St) : St := { s with c := { s.c with shared := true, chan := .null } }

/-- The Channel drops its fixed window and says so. -/
def windowOverrideRemoved (cfg : Config) (s : St) : Option St :=
  let chan := match s.c.chan with
    | .live policy _ => .live policy 0
    | chan => chan
  setWindow cfg { s with c := { s.c with chan } } (if cfg.sshIsSimple then ourV2Bigwin else ourV2Winsize)

inductive Op where
  | write (isStderr : Bool) (data : List UInt8)
  | writeEof
  | initiateClose
  | unthrottle (bufsize : Nat)
  | windowOverrideRemoved
  | x11SharingHandover
  /-- The ssh2channel_ functions that send a channel request. -/
  | request (type : String) (wantReply : Bool)
  /-- A session's process has ended, and so has its output. -/
  | sessionSeen
  deriving DecidableEq, Repr

def doOp (cfg : Config) (s : St) : Op → Option St
  | .write isStderr data => write s isStderr data
  | .writeEof => writeEof s
  | .initiateClose => initiateClose s
  | .unthrottle bufsize => unthrottle cfg s bufsize
  | .windowOverrideRemoved => windowOverrideRemoved cfg s
  -- made from inside the X11 Channel's chan_send
  | .x11SharingHandover => some (if s.pending = some .data then x11SharingHandover s else s)
  | .request type wantReply => chanreqInit s type (if wantReply then some .response else none)
  | .sessionSeen => some { s with c := { s.c with
      chan := match s.c.chan with
        | .live (.session _) n => .live (.session true) n
        | chan => chan } }

/-! ## Messages from the server -/

inductive ServerMsg where
  | openConfirmation (remoteid remwindow remmaxpkt : UInt32)
  | openFailure
  /-- CHANNEL_DATA is type 0. -/
  | data (extType : UInt32) (bytes : List UInt8)
  /-- A data message that does not parse. -/
  | malformedData
  | windowAdjust (n : UInt32)
  /-- A request whose type the layer knows calls into the Channel. -/
  | request (known wantReply : Bool)
  | reply (success : Bool)
  | eof
  | close
  deriving DecidableEq, Repr

def expectHalfopen : ServerMsg → Bool
  | .openConfirmation _ _ _ => true
  | .openFailure => true
  | _ => false

@[simp] theorem expectHalfopen_openConfirmation (r w p : UInt32) :
    expectHalfopen (.openConfirmation r w p) = true := rfl

@[simp] theorem expectHalfopen_windowAdjust (n : UInt32) : expectHalfopen (.windowAdjust n) = false := rfl

@[simp] theorem expectHalfopen_eof : expectHalfopen .eof = false := rfl

@[simp] theorem expectHalfopen_close : expectHalfopen .close = false := rfl

/-- The end of CHANNEL_CLOSE. -/
def closeFinish (s : St) : Option St :=
  if s.c.rcvdClose then some s else checkClose { s with c := { s.c with rcvdClose := true } }

/-- The handlers of the outstanding requests, each called with no packet. -/
def closeReqs (s : St) : List Handler → St
  | [] => { s with c := { s.c with chanreqs := [] } }
  | .winadj size :: rest => closeReqs { s with c := handleWinadjResponse s.c size } rest
  | .response :: rest => { s with c := { s.c with chanreqs := .response :: rest }, life := .stopped }

/-- CHANNEL_CLOSE from the request cleanup on. -/
def closeRest (cfg : Config) (s : St) : Option St :=
  let s := if cfg.bugSendsLateRequestReply then s else closeReqs s s.c.chanreqs
  if s.life = .stopped then some s
  else if s.c.sentEof then closeFinish s
  else do
    let s ← writeEof { s with c := { s.c with outbuffer := [], errbuffer := [] } }
    let s ← touch s
    some { checkThrottle s with pending := some .closeThrottle }

/-- CHANNEL_REQUEST: no reply once CLOSE is sent. -/
def serverRequest (s : St) (known wantReply : Bool) : Option St :=
  let wantReply := wantReply && !s.c.sentClose
  if known then some { s with pending := some (.request wantReply) }
  else some (if wantReply then push s .failure else s)

def serverMsg (cfg : Config) (s : St) (m : ServerMsg) : Option St :=
  if s.c.shared then some s
  else if s.c.halfopen ≠ expectHalfopen m then some { s with life := .stopped }
  else match m with
    | .openConfirmation remoteid remwindow remmaxpkt =>
      some { s with
        c := { s.c with
          remoteid, halfopen := false, remwindow
          remmaxpkt := if remmaxpkt > cfg.packetSizeLimit then cfg.packetSizeLimit else remmaxpkt }
        pending := some .openConfirmation }
    | .openFailure => some { s with pending := some .openFailure }
    | .data _ bytes =>
      some { s with
        c := { s.c with
          locwindow := toInt (s.c.locwindow - bytes.length)
          remlocwin := toInt (s.c.remlocwin - bytes.length) }
        pending := some .data }
    | .malformedData => some s
    | .windowAdjust n =>
      if s.c.sentEof then some s else trySendAndUnthrottle { s with c := { s.c with remwindow := s.c.remwindow + n } }
    | .request known wantReply => serverRequest s known wantReply
    | .reply _ =>
      match s.c.chanreqs with
      | [] => some { s with life := .stopped }
      | .winadj size :: rest => checkClose { s with c := { handleWinadjResponse s.c size with chanreqs := rest } }
      | .response :: _ =>
        if s.c.chan = .zombie then some { s with life := .stopped } else some { s with pending := some .reply }
    | .eof =>
      if s.c.rcvdEof then some s else some { s with c := { s.c with rcvdEof := true }, pending := some .eof }
    | .close =>
      if s.c.rcvdEof then closeRest cfg s
      else some { s with c := { s.c with rcvdEof := true }, pending := some .closeEof }

/-- CHANNEL_DATA from the return of chan_send on. -/
def resumeData (cfg : Config) (s : St) (bufsize : Int) : Option St :=
  if s.c.shared then some s
  else do
    let c := s.c
    let s := if c.remlocwin ≤ 0 ∧ c.throttleState = .unthrottled ∧ c.locmaxwin < 0x40000000 then
      { s with c := { c with locmaxwin := c.locmaxwin + ourV2Winsize } } else s
    let s ← if bufsize < s.c.locmaxwin then setWindow cfg s (s.c.locmaxwin - bufsize) else some s
    some (if (bufsize > s.c.locmaxwin ∨ (cfg.sshIsSimple ∧ bufsize > 0)) ∧ ¬ s.c.throttlingConn then
      { s with c := { s.c with throttlingConn := true } } else s)

/-- The rest of a message's handling, with what the Channel returned. -/
def resume (cfg : Config) (s : St) (value : Nat) : Frame → Option St
  | .request wantReply =>
    if wantReply then do
      let s ← touch s
      some (push s (if value ≠ 0 then .success else .failure))
    else some s
  | .openConfirmation => do
    let s ← touch s
    let s ← checkClose s
    let s ← touch s
    if s.c.pendingEof then tryEof s else some s
  | .openFailure => do
    let s ← touch s
    some { s with life := .refused }
  | .data => do
    let s ← touch s
    resumeData cfg s (toInt value)
  | .reply => do
    let s ← touch s
    checkClose { s with c := { s.c with chanreqs := s.c.chanreqs.tail } }
  | .eof => do
    let s ← touch s
    checkClose s
  | .closeEof => do
    let s ← touch s
    closeRest cfg s
  | .closeThrottle => do
    let s ← touch s
    closeFinish s

/-! ## The machine -/

inductive Ev where
  | server (m : ServerMsg)
  | ret (value : Nat)
  | op (o : Op)
  | throttleAll (throttled : Bool)
  deriving DecidableEq, Repr

/-- Only a live Channel makes calls: the one a zombie or a downstream replaced is freed. -/
def callable (s : St) : Bool :=
  s.life = .alive && match s.c.chan with
    | .live _ _ => true
    | _ => false

def step (cfg : Config) (s : St) : Ev → Option St
  | .server m => if s.life = .alive ∧ s.pending = none then serverMsg cfg s m else some s
  | .ret value =>
    match s.pending with
    | none => some s
    | some frame =>
      if s.life = .stopped ∨ s.life = .hung then some s
      else resume cfg { s with pending := none } value frame
  | .op o => if callable s then doOp cfg s o else some s
  | .throttleAll throttled =>
    let s := { s with allChannelsThrottled := throttled }
    some (if s.life = .alive ∧ ¬ s.c.shared then checkThrottle s else s)

/-- How a channel comes to be: opened by us, and waiting for the answer, or by the server. -/
inductive Opening where
  | local (fixedWindow : Nat)
  | remote (policy : Policy) (fixedWindow : Nat) (remoteid winsize pktsize : UInt32)
  deriving DecidableEq, Repr

/-- ssh2_channel_init. -/
def channelInit (cfg : Config) (chan : Chan) : Ssh2Channel :=
  let locwindow := if cfg.sshIsSimple then ourV2Bigwin else ourV2Winsize
  { remoteid := 0, halfopen := false, sentEof := false, sentClose := false, rcvdEof := false, rcvdClose := false
    pendingEof := false, throttlingConn := false, throttledByBacklog := false, outbuffer := [], errbuffer := []
    remwindow := 0, remmaxpkt := 0, locwindow, locmaxwin := locwindow, remlocwin := locwindow, chanreqs := []
    throttleState := .unthrottled, shared := false, chan }

def openChannel (cfg : Config) : Opening → Ssh2Channel
  | .local fixed => { channelInit cfg (.live .default fixed) with halfopen := true }
  | .remote policy fixed remoteid winsize pktsize =>
    let c := channelInit cfg (.live policy fixed)
    let c := { c with
      remoteid, remwindow := winsize
      remmaxpkt := if pktsize > cfg.packetSizeLimit then cfg.packetSizeLimit else pktsize }
    if fixed ≠ 0 then { c with locwindow := fixed, locmaxwin := fixed, remlocwin := fixed } else c

def start (cfg : Config) (o : Opening) : St :=
  { c := openChannel cfg o, out := [], allChannelsThrottled := false, inputWanted := false, life := .alive, pending := none }

end Putty.Ssh2.Channel
