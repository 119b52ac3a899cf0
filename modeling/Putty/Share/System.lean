/-
  Putty.Share.System — the upstream as a whole: the connection layer, the registered
  connstates, and what can happen to them.

  An event is one call from outside: a downstream connects, one of its packets has been
  read whole, its stream turns out malformed, its socket fails; the server's connection
  delivers a packet; or the connection layer does something of its own on the tables it
  shares with the sharing code. A downstream whose socket has been closed reads no more,
  but the packets behind the one that closed it, in the same read, are still worked
  through (`reading`). A protocol error of the server ends everything.
-/

import Putty.Share.Code

namespace Putty.Share

open Std Putty.Lib Putty.Utils Putty.Ssh2
open Putty.Ssh2.GlobalRequests (Reply queueGlobalRequestHandler filterReply)

structure St where
  cl : ConnectionLayer
  /-- The registered connstates, by address. -/
  connections : Tree ConnState
  /-- The downstream whose last read may hold more packets. -/
  reading : Option Nat
  protoError : Bool

def St.init : St where
  cl := ⟨0, ∅, ∅, GlobalRequests.init, ∅, []⟩
  connections := ∅
  reading := none
  protoError := false

inductive Ev where
  | accept
  | packet (cs : Nat) (type : Msg) (pkt : List UInt8) (env : Env)
  /-- share_receive gives up on the stream. -/
  | malformed (cs : Nat) (message : List UInt8)
  | closing (cs : Nat)
  | globalReply (reply : Reply) (pkt : List UInt8)
  /-- One round of the packet filter on a CHANNEL_OPEN that it has read up to here. -/
  | serverOpen (src : BinarySource)
  | serverMsg (type : Msg) (pkt : List UInt8)
  | openOurs
  | closeOurs (localid : Nat)
  | forwardOurs (key : FwdKey) (junk : Ptr)
  | unforwardOurs (key : FwdKey)
  /-- An X11 channel of ours has turned out to be for a downstream. -/
  | handover (localid : Nat) (x : X11Setup)

/-- The messages that cite a channel id of ours. -/
def Msg.citesChannel : Msg → Bool
  | .channelOpenConfirmation | .channelOpenFailure | .channelWindowAdjust | .channelData | .channelExtendedData
  | .channelEof | .channelClose | .channelRequest | .channelSuccess | .channelFailure => true
  | _ => false

/-- A call into the sharing code for one connstate, which must not have been freed. -/
def deliver (s : St) (a : Nat) (f : At → Option Done) : Option St := do
  let cs ← s.connections[a]?
  let (cl, cs) ← f ⟨s.cl, cs⟩
  some { s with
    cl
    connections := match cs with
      | some cs => s.connections.insert a cs
      | none => s.connections.erase a }

/-- ssh2_rportfwd_globreq_response: the record is looked at either way. -/
def rportfwdGlobreqResponse (cl : ConnectionLayer) (key : FwdKey) (addr : Nat) (reply : Reply) : Option ConnectionLayer :=
  match reply with
  | .success => (cl.rportfwd key addr).map fun _ => cl
  | .failure => cl.rportfwdRemove key addr

/-- The call of the handler at the head of the queue. -/
def callHandler (s : St) (reply : Reply) (pkt : List UInt8) : Handler → Option St
  | .sharing a => deliver s a fun m => gotGlobreqReply a m reply pkt
  | .rportfwd key addr => (rportfwdGlobreqResponse s.cl key addr reply).map fun cl => { s with cl }

def globalReply (s : St) (reply : Reply) (pkt : List UInt8) : Option St :=
  match s.cl.globreqs.globreqHead with
  | none => some { s with protoError := true }
  | some head => do
    let ogr ← s.cl.globreqs.heap.cell head
    let s ← callHandler s reply pkt ogr.handler
    let globreqs ← filterReply s.cl.globreqs reply []
    some { s with cl := { s.cl with globreqs } }

/-- The forwarding a CHANNEL_OPEN cites, if that is what it is about. -/
def forwardedTcpip (src : BinarySource) : Option FwdKey :=
  let (type, src) := src.getString
  let src := src.getUint32.2.getUint32.2.getUint32.2
  let (fwdaddr, src) := src.getString
  if type = text "forwarded-tcpip" then some (fwdKey fwdaddr src.getUint32.1) else none

/-- An open request for a downstream's forwarding goes to it, as the whole packet. -/
def serverOpen (s : St) (src : BinarySource) : Option St :=
  match (forwardedTcpip src).bind (s.cl.rportfwds[·]?) with
  | some ⟨_, some a⟩ => deliver s a fun m => (gotChannelOpen a m src.data).map At.done
  | _ => some s

def serverMsg (s : St) (type : Msg) (pkt : List UInt8) : Option St :=
  match s.cl.channels[(BinarySource.ofData pkt).getUint32.1.toNat]? with
  | some (.sharectx a) => deliver s a fun m => gotPktFromServer a m type pkt
  | some .ours => some s
  | none => some { s with protoError := true }

def forwardOurs (cl : ConnectionLayer) (key : FwdKey) (junk : Ptr) : Option ConnectionLayer :=
  match cl.rportfwdAlloc key none with
  | none => some cl
  | some (addr, cl) => do
    let globreqs ← queueGlobalRequestHandler cl.globreqs (.rportfwd key addr) junk
    some { cl with globreqs }

def handover (s : St) (localid : Nat) (x : X11Setup) : Option St := do
  let auth ← s.cl.x11authtree[x.auth]?
  let s := { s with cl := { s.cl with channels := s.cl.channels.insert localid (.sharectx auth.shareCs) } }
  deliver s auth.shareCs fun m => (setupX11Channel auth.shareCs m localid auth x).map At.done

/-- The downstream's packets are still being read. -/
def readable (s : St) (a : Nat) : Bool := (s.connections[a]?).any (·.sock) || s.reading == some a

def socketOpen (s : St) (a : Nat) : Bool := (s.connections[a]?).any (·.sock)

def act (s : St) : Ev → Option St
  | .accept => some { s with
      cl := { s.cl with brk := s.cl.brk + 1 }
      connections := s.connections.insert s.cl.brk ConnState.fresh }
  | .packet a type pkt env =>
    if readable s a then deliver s a fun m => gotPktFromDownstream a m type pkt env else none
  | .malformed a message => if readable s a then deliver s a fun m => shareDisconnect a m message else none
  | .closing a => if socketOpen s a then deliver s a fun m => beginCleanup a m else none
  | .globalReply reply pkt => globalReply s reply pkt
  | .serverOpen src => serverOpen s src
  | .serverMsg type pkt => if type.citesChannel then serverMsg s type pkt else none
  | .openOurs => some { s with cl := { s.cl with channels := s.cl.channels.insertIfNew s.cl.allocChannelId .ours } }
  | .closeOurs localid =>
    if s.cl.channels[localid]? = some .ours then some { s with cl := s.cl.deleteSharingChannel localid } else none
  | .forwardOurs key junk => (forwardOurs s.cl key junk).map fun cl => { s with cl }
  | .unforwardOurs key =>
    match s.cl.rportfwds[key]? with
    | some ⟨_, none⟩ => some { s with cl := { s.cl with rportfwds := s.cl.rportfwds.erase key } }
    | _ => none
  | .handover localid x => if s.cl.channels[localid]? = some .ours then handover s localid x else none

/-- Which downstream's read an event belongs to. -/
def Ev.reads : Ev → Option Nat
  | .packet a _ _ _ | .malformed a _ => some a
  | _ => none

def step (s : St) (e : Ev) : Option St :=
  if s.protoError then some s else (act s e).map fun s' => { s' with reading := e.reads }

end Putty.Share
