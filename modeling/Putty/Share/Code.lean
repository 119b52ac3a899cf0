/-
  Putty.Share.Code — connection sharing upstream (`sshshare.c`) and the part of the
  SSH-2 connection layer it works on (`ssh2connection.c`, `ssh2connection-client.c`).

  Several downstreams run their channels over one SSH connection. For each of them a
  connstate keeps what it has open: half-open channels offered to it by the server,
  channels (indexed by the id we gave the server and, once the server has answered, by
  the id it gave us), X11 channels taken over from the connection layer, remote port
  forwardings, and the global requests it has a reply to come for. The connection layer
  keeps who owns each channel id, the remote forwardings, the queue of handlers for
  global replies, and the fake X11 authorisations.

  The 2-3-4 trees are maps keyed by what their comparison functions compare; an index
  by server id maps to the upstream id of the object it points at. Connstates, channel
  objects, forwarding records and fake authorisations have addresses that are never used
  again, so that a pointer to a freed one is recognised; following it is `none`, as a
  failed assertion is. A step answers with what the connection layer and the connstate
  have become, and with no connstate when it has been freed.

  What the environment decides comes with the event: the replies and packets of the
  server, the packets of the downstreams, the contents of uninitialised memory, the
  invented X11 authorisation and the X11 greeting.
-/

import Mathlib
import Putty.Ssh2.GlobalRequests
import Putty.Utils.BinarySink

namespace Putty.Share

open Std Putty.Lib Putty.Utils Putty.Ssh2
open Putty.Ssh2.GlobalRequests (Reply queueGlobalRequestHandler filterReply)

/-- A tree234 of records compared by one number. -/
abbrev Tree (V : Type) := ExtTreeMap Nat V

/-! ## The connection layer -/

/-- What `shost`, `sport` of a forwarding are compared by. -/
structure FwdKey where
  host : List UInt8
  port : Int
  deriving DecidableEq

def FwdKey.cmp : FwdKey → FwdKey → Ordering := compareLex (compareOn FwdKey.host) (compareOn FwdKey.port)

instance : TransCmp FwdKey.cmp := inferInstanceAs (TransCmp (compareLex _ _))

instance : LawfulEqCmp FwdKey.cmp where
  eq_of_compare {a b} h := by
    simp only [FwdKey.cmp, compareLex, compareOn, Ordering.then_eq_eq, Std.compare_eq_iff_eq] at h
    cases a; cases b; simp_all

abbrev FwdTree (V : Type) := ExtTreeMap FwdKey V FwdKey.cmp

structure SshRportfwd where
  addr : Nat
  /-- The connstate it is for, if it is not our own. -/
  shareCtx : Option Nat
  deriving DecidableEq

/-- Whose a channel of the connection layer is: ours, or the one of a connstate. -/
inductive Owner where
  | ours
  | sharectx (cs : Nat)
  deriving DecidableEq

/-- ssh2_sharing_globreq_response or ssh2_rportfwd_globreq_response, with its context. -/
inductive Handler where
  | sharing (cs : Nat)
  | rportfwd (key : FwdKey) (addr : Nat)
  deriving DecidableEq

/-- A fake authorisation that belongs to a downstream's channel. -/
structure X11FakeAuth where
  shareCs : Nat
  shareChan : Nat
  /-- The address of that channel's record. -/
  chanAddr : Nat
  deriving DecidableEq

inductive Msg where
  | disconnect | ignore | debug
  | globalRequest | requestSuccess | requestFailure
  | channelOpen | channelOpenConfirmation | channelOpenFailure
  | channelWindowAdjust | channelData | channelExtendedData | channelEof | channelClose
  | channelRequest | channelSuccess | channelFailure
  | other (number : Nat)
  deriving DecidableEq

def Msg.number : Msg → Nat
  | .disconnect => 1 | .ignore => 2 | .debug => 4
  | .globalRequest => 80 | .requestSuccess => 81 | .requestFailure => 82
  | .channelOpen => 90 | .channelOpenConfirmation => 91 | .channelOpenFailure => 92
  | .channelWindowAdjust => 93 | .channelData => 94 | .channelExtendedData => 95 | .channelEof => 96
  | .channelClose => 97 | .channelRequest => 98 | .channelSuccess => 99 | .channelFailure => 100
  | .other n => n

/-- A packet handed to the server's connection or written to a downstream's socket. -/
inductive Out where
  | toServer (cs : Nat) (type : Msg) (pkt : List UInt8)
  | toDownstream (cs : Nat) (type : Msg) (pkt : List UInt8)
  deriving DecidableEq

structure ConnectionLayer where
  /-- The next address to be given out. -/
  brk : Nat
  channels : Tree Owner
  rportfwds : FwdTree SshRportfwd
  globreqs : GlobalRequests.St Handler
  x11authtree : Tree X11FakeAuth
  out : List Out

namespace ConnectionLayer

variable (cl : ConnectionLayer)

def emit (o : Out) : ConnectionLayer := { cl with out := cl.out ++ [o] }

def sendPacketFromDownstream (cs : Nat) (type : Msg) (pkt : List UInt8) : ConnectionLayer := cl.emit (.toServer cs type pkt)

/-- The lowest number from `n` on that an ascending list leaves out. -/
def firstUnused : List Nat → Nat → Nat
  | [], n => n
  | id :: ids, n => if id = n then firstUnused ids (n + 1) else n

/-- alloc_channel_id: the channels from CHANNEL_NUMBER_OFFSET on that have no gap. -/
def allocChannelId : Nat := firstUnused cl.channels.keys 256

def allocSharingChannel (connstate : Nat) : Nat × ConnectionLayer :=
  (cl.allocChannelId, { cl with channels := cl.channels.insertIfNew cl.allocChannelId (.sharectx connstate) })

def deleteSharingChannel (localid : Nat) : ConnectionLayer := { cl with channels := cl.channels.erase localid }

/-- ssh2_rportfwd_alloc: the address of the new record, unless the address and port are taken. -/
def rportfwdAlloc (key : FwdKey) (shareCtx : Option Nat) : Option (Nat × ConnectionLayer) :=
  if key ∈ cl.rportfwds then none
  else some (cl.brk, { cl with
    brk := cl.brk + 1
    rportfwds := cl.rportfwds.insert key ⟨cl.brk, shareCtx⟩ })

/-- The record at this address, while it has not been freed: it is in the tree until then. -/
def rportfwd (key : FwdKey) (addr : Nat) : Option SshRportfwd := (cl.rportfwds[key]?).filter (·.addr = addr)

/-- Fails when the record has been freed. -/
def rportfwdRemove (key : FwdKey) (addr : Nat) : Option ConnectionLayer := do
  let _ ← cl.rportfwd key addr
  some { cl with rportfwds := cl.rportfwds.erase key }

def sharingQueueGlobalRequest (cs : Nat) (junk : Ptr) : Option ConnectionLayer := do
  let globreqs ← queueGlobalRequestHandler cl.globreqs (.sharing cs) junk
  some { cl with globreqs }

def addSharingX11Display (auth : X11FakeAuth) : Nat × ConnectionLayer :=
  (cl.brk, { cl with brk := cl.brk + 1, x11authtree := cl.x11authtree.insert cl.brk auth })

def removeSharingX11Display (auth : Nat) : ConnectionLayer := { cl with x11authtree := cl.x11authtree.erase auth }

end ConnectionLayer

/-! ## The connstate -/

inductive ChanState where
  | opened
  | sentClose
  | rcvdClose
  /-- Downstream has sent CHANNEL_OPEN but the server has not replied. -/
  | unacknowledged
  deriving DecidableEq

/-- A share_channel; `upstream_id` is its key. -/
structure Channel where
  addr : Nat
  downstreamId : Nat
  serverId : Nat
  downstreamMaxpkt : Int
  state : ChanState
  x11AuthUpstream : Option Nat
  x11OneShot : Bool
  /-- `x11_auth_data` points to memory that has been freed. -/
  x11AuthDataFreed : Bool
  deriving DecidableEq

structure Forwarding where
  active : Bool
  /-- The address of its record in the connection layer. -/
  rpf : Nat
  deriving DecidableEq

structure XChannel where
  upstreamId : Nat
  serverId : Nat
  live : Bool
  window : Int
  msgs : List (Msg × List UInt8)
  deriving DecidableEq

inductive GlobreqType where
  | tcpipForward
  | cancelTcpipForward
  deriving DecidableEq

structure Globreq where
  type : GlobreqType
  wantReply : Bool
  /-- The forwarding it is about, as it is indexed and with the record it had. -/
  fwd : FwdKey
  rpf : Nat
  /-- Which handler of the connection layer's queue was queued for this request. -/
  serial : Nat
  deriving DecidableEq

structure ConnState where
  /-- `sock` is not NULL. -/
  sock : Bool
  halfchannels : Tree Unit
  channelsByUs : Tree Channel
  channelsByServer : Tree Nat
  xchannelsByUs : Tree XChannel
  xchannelsByServer : Tree Nat
  forwardings : FwdTree Forwarding
  /-- The chain that starts at `globreq_head`. -/
  globreqHead : List Globreq
  globreqTail : Ptr

def ConnState.fresh : ConnState := ⟨true, ∅, ∅, ∅, ∅, ∅, ∅, [], none⟩

/-- The connection layer and a connstate that is being worked on. -/
structure At where
  cl : ConnectionLayer
  cs : ConnState

/-- What a call may leave of them. -/
abbrev Done := ConnectionLayer × Option ConnState

def At.done (m : At) : Done := (m.cl, some m.cs)

/-- int from unsigned. -/
def toint (n : UInt32) : Int := if n.toNat < 2 ^ 31 then n.toNat else (n.toNat : Int) - 2 ^ 32

/-- put_uint32 of an int. -/
def putInt (n : Int) : List UInt8 := put32BitMsbFirst (n % 2 ^ 32).toNat

/-- PUT_32BIT_MSB_FIRST into a packet. -/
def patch (pkt : List UInt8) (pos : Nat) (id : Nat) : List UInt8 := pkt.take pos ++ put32BitMsbFirst id ++ pkt.drop (pos + 4)

/-- The C string that mkstr makes of these bytes, as strcmp and strlen see it. -/
def mkstr (pl : List UInt8) : List UInt8 := pl.takeWhile (· ≠ 0)

def fwdKey (host : List UInt8) (port : UInt32) : FwdKey := ⟨mkstr host, toint port⟩

section Connstate

variable (me : Nat) (m : At)

/-! ## Its tables -/

def addHalfchannel (cs : ConnState) (serverId : Nat) : ConnState :=
  { cs with halfchannels := cs.halfchannels.insertIfNew serverId () }

def removeHalfchannel (cs : ConnState) (serverId : Nat) : ConnState :=
  { cs with halfchannels := cs.halfchannels.erase serverId }

def newChannel (addr downstreamId serverId : Nat) (state : ChanState) (maxpkt : UInt32) : Channel where
  addr := addr
  downstreamId := downstreamId
  serverId := serverId
  downstreamMaxpkt := toint maxpkt
  state := state
  x11AuthUpstream := none
  x11OneShot := false
  x11AuthDataFreed := false

/-- share_add_channel: the new record, unless one of the trees has its key already. -/
def addChannel (downstreamId upstreamId serverId : Nat) (state : ChanState) (maxpkt : UInt32) : Option Channel × At :=
  let chan := newChannel m.cl.brk downstreamId serverId state maxpkt
  let cl := { m.cl with brk := m.cl.brk + 1 }
  let byUs := m.cs.channelsByUs.insert upstreamId chan
  if upstreamId ∈ m.cs.channelsByUs then (none, { m with cl })
  else if state = .unacknowledged then (some chan, ⟨cl, { m.cs with channelsByUs := byUs }⟩)
  else if serverId ∈ m.cs.channelsByServer then (none, { m with cl })
  else (some chan, ⟨cl, { m.cs with
    channelsByUs := byUs
    channelsByServer := m.cs.channelsByServer.insert serverId upstreamId }⟩)

def modifyChannel (cs : ConnState) (upstreamId : Nat) (f : Channel → Channel) : ConnState :=
  { cs with channelsByUs := cs.channelsByUs.modify upstreamId f }

def channelSetServerId (cs : ConnState) (upstreamId serverId : Nat) (newstate : ChanState) : ConnState :=
  let cs := modifyChannel cs upstreamId fun c => { c with serverId := serverId, state := newstate }
  { cs with channelsByServer := cs.channelsByServer.insertIfNew serverId upstreamId }

def findChannelByUpstream (cs : ConnState) (upstreamId : Nat) : Option Channel := cs.channelsByUs[upstreamId]?

def findChannelByServer (cs : ConnState) (serverId : Nat) : Option (Nat × Channel) := do
  let upstreamId ← cs.channelsByServer[serverId]?
  let chan ← cs.channelsByUs[upstreamId]?
  some (upstreamId, chan)

/-- share_remove_channel: each del234 takes out what compares equal. -/
def removeChannel (upstreamId : Nat) (chan : Channel) : Option At :=
  if chan.x11AuthDataFreed then none
  else
    let cl := match chan.x11AuthUpstream with
      | some auth => m.cl.removeSharingX11Display auth
      | none => m.cl
    some ⟨cl, { m.cs with
      channelsByUs := m.cs.channelsByUs.erase upstreamId
      channelsByServer := m.cs.channelsByServer.erase chan.serverId }⟩

def addXchannel (cs : ConnState) (upstreamId serverId : Nat) (window : Int) (msgs : List (Msg × List UInt8)) :
    Option ConnState :=
  if upstreamId ∈ cs.xchannelsByUs ∨ serverId ∈ cs.xchannelsByServer then none
  else some { cs with
    xchannelsByUs := cs.xchannelsByUs.insert upstreamId ⟨upstreamId, serverId, true, window, msgs⟩
    xchannelsByServer := cs.xchannelsByServer.insert serverId upstreamId }

def findXchannelByServer (cs : ConnState) (serverId : Nat) : Option XChannel := do
  let upstreamId ← cs.xchannelsByServer[serverId]?
  cs.xchannelsByUs[upstreamId]?

def removeXchannel (cs : ConnState) (xc : XChannel) : ConnState :=
  { cs with
    xchannelsByUs := cs.xchannelsByUs.erase xc.upstreamId
    xchannelsByServer := cs.xchannelsByServer.erase xc.serverId }

def modifyXchannel (cs : ConnState) (upstreamId : Nat) (f : XChannel → XChannel) : ConnState :=
  { cs with xchannelsByUs := cs.xchannelsByUs.modify upstreamId f }

/-- A globreq goes behind the tail, or becomes the head when there is no tail. -/
def pushGlobreq (cs : ConnState) (globreq : Globreq) : ConnState :=
  match cs.globreqTail with
  | some _ => { cs with globreqHead := cs.globreqHead ++ [globreq] }
  | none => { cs with globreqHead := [globreq] }

/-! ## Packets to the downstream -/

/-- The pieces CHANNEL_DATA is cut into; a limit of 0 never gets to the end. -/
def pieces (limit : Int) (data : List UInt8) : Option (List (List UInt8)) :=
  if limit < 0 ∨ data.length ≤ limit then some [data]
  else if _h : limit.toNat = 0 then none
  else (pieces limit (data.drop limit.toNat)).map (data.take limit.toNat :: ·)
termination_by data.length
decreasing_by
  rw [List.length_drop]
  omega

def dataPacket (channel : Nat) (piece : List UInt8) : List UInt8 :=
  put32BitMsbFirst channel ++ put32BitMsbFirst piece.length ++ piece

def sendPacketToDownstream (type : Msg) (pkt : List UInt8) (chan : Option Channel) : Option At :=
  if !m.cs.sock then some m
  else if type = .channelData then do
    let chan ← chan
    let (channel, src) := (BinarySource.ofData pkt).getUint32
    let parts ← pieces chan.downstreamMaxpkt src.getString.1
    some { m with cl := parts.foldl (fun cl p => cl.emit (.toDownstream me type (dataPacket channel.toNat p))) m.cl }
  else some { m with cl := m.cl.emit (.toDownstream me type pkt) }

/-- An answer to a global request, if there was to be one. -/
def sendIfWanted (wantReply : Bool) (type : Msg) (pkt : List UInt8) : Option At :=
  if wantReply then sendPacketToDownstream me m type pkt none else some m

/-! ## Letting a downstream go -/

def openFailure (serverId : Nat) : List UInt8 :=
  put32BitMsbFirst serverId ++ put32BitMsbFirst 2 ++ putString (text "PuTTY downstream no longer available") ++
    putString (text "en")

def cleanupHalfchannels : At :=
  ⟨m.cs.halfchannels.keys.foldl (fun cl id => cl.sendPacketFromDownstream me .channelOpenFailure (openFailure id)) m.cl,
    { m.cs with halfchannels := ∅ }⟩

def cleanupChannel (m : At) (upstreamId : Nat) : Option At :=
  match findChannelByUpstream m.cs upstreamId with
  | none => some m
  | some chan =>
    if chan.state = .sentClose ∨ chan.state = .unacknowledged then some m
    else
      let m := { m with cl := m.cl.sendPacketFromDownstream me .channelClose (put32BitMsbFirst chan.serverId) }
      if chan.state ≠ .rcvdClose then
        some { m with cs := modifyChannel m.cs upstreamId fun c => { c with state := .sentClose } }
      else removeChannel { m with cl := m.cl.deleteSharingChannel upstreamId } upstreamId chan

def cancelPacket (key : FwdKey) : List UInt8 :=
  putString (text "cancel-tcpip-forward") ++ putBool false ++ putString key.host ++ putInt key.port

def cleanupForwarding (m : At) (key : FwdKey) : Option At :=
  match m.cs.forwardings[key]? with
  | none => some m
  | some fwd =>
    if fwd.active then do
      let cl ← (m.cl.sendPacketFromDownstream me .globalRequest (cancelPacket key)).rportfwdRemove key fwd.rpf
      some ⟨cl, { m.cs with forwardings := m.cs.forwardings.erase key }⟩
    else some m

/-- Nothing is left that the connstate is kept for. -/
def ConnState.idle (cs : ConnState) : Bool :=
  cs.halfchannels.isEmpty && cs.channelsByUs.isEmpty && cs.forwardings.isEmpty

def tryCleanup : Option Done := do
  let m := cleanupHalfchannels me m
  let m ← m.cs.channelsByUs.keys.foldlM (cleanupChannel me) m
  let m ← m.cs.forwardings.keys.foldlM (cleanupForwarding me) m
  if m.cs.idle then some (m.cl, none) else some m.done

/-- The socket is closed first; it must not have been before. -/
def beginCleanup : Option Done :=
  if m.cs.sock then tryCleanup me { m with cs := { m.cs with sock := false } } else none

def shareDisconnect (message : List UInt8) : Option Done := do
  let m ← sendPacketToDownstream me m .disconnect
    (put32BitMsbFirst 2 ++ putString message ++ putString (text "en")) none
  beginCleanup me m

/-- The retry of a branch that may have removed the last thing waited for. -/
def retryCleanup : Option Done := if m.cs.sock then some m.done else tryCleanup me m

/-! ## X11 channels -/

/-- What a queued message makes a dead X11 channel answer, and whether it is the CLOSE. -/
def deadResponse (serverId : Nat) : Msg × List UInt8 → List Out × Bool
  | (.channelRequest, data) =>
    if data.length > 4 ∧ ((BinarySource.ofData data).getUint32.2.getString.2.getBool.1) then
      ([.toServer me .channelFailure (put32BitMsbFirst serverId)], false)
    else ([], false)
  | (.channelClose, _) => ([], true)
  | _ => ([], false)

def deadXchannelRespond (xc : XChannel) : At :=
  let answers := xc.msgs.map (deadResponse me xc.serverId)
  let cl := { m.cl with out := m.cl.out ++ answers.flatMap Prod.fst }
  if answers.any Prod.snd then ⟨cl.deleteSharingChannel xc.upstreamId, removeXchannel m.cs xc⟩
  else ⟨cl, modifyXchannel m.cs xc.upstreamId fun x => { x with msgs := [] }⟩

/-- One queued message goes to the downstream that has accepted the channel. -/
def passOn (chan : Option Channel) (m : At) (msg : Msg × List UInt8) : Option At :=
  if 4 ≤ msg.2.length then do
    let c ← chan
    sendPacketToDownstream me m msg.1 (patch msg.2 0 c.downstreamId) chan
  else sendPacketToDownstream me m msg.1 msg.2 chan

def xchannelConfirmation (xc : XChannel) (chan : Option Channel) (downstreamWindow : Nat) : Option At := do
  let m ← xc.msgs.foldlM (passOn me chan) m
  let m := { m with cs := modifyXchannel m.cs xc.upstreamId fun x => { x with msgs := [] } }
  let adjust := put32BitMsbFirst xc.serverId ++ putInt (downstreamWindow - xc.window)
  some { m with cl := m.cl.sendPacketFromDownstream me .channelWindowAdjust adjust }

def xchannelFailure (xc : XChannel) : At :=
  let cl := m.cl.sendPacketFromDownstream me .channelClose (put32BitMsbFirst xc.serverId)
  deadXchannelRespond me ⟨cl, modifyXchannel m.cs xc.upstreamId fun x => { x with live := false }⟩ xc

/-- What the X11 channel of the connection layer was told and has read. -/
structure X11Setup where
  auth : Nat
  remoteid : Nat
  remwindow : Nat
  remmaxpkt : Nat
  locwindow : Int
  peerAddr : List UInt8
  peerPort : Nat
  greeting : List UInt8
  initialData : List UInt8

def setupX11Channel (upstreamId : Nat) (auth : X11FakeAuth) (x : X11Setup) : Option At := do
  let chan ← (findChannelByUpstream m.cs auth.shareChan).filter (·.addr = auth.chanAddr)
  let first := put32BitMsbFirst 0 ++ put32BitMsbFirst (x.greeting.length + x.initialData.length) ++ x.greeting ++ x.initialData
  let cs ← addXchannel m.cs upstreamId x.remoteid (x.locwindow + x.greeting.length) [(.channelData, first)]
  let m ← sendPacketToDownstream me { m with cs } .channelOpen
    (putString (text "x11") ++ put32BitMsbFirst x.remoteid ++ put32BitMsbFirst x.remwindow ++
      put32BitMsbFirst x.remmaxpkt ++ putString x.peerAddr ++ put32BitMsbFirst x.peerPort) none
  if chan.x11OneShot then
    some ⟨m.cl.removeSharingX11Display x.auth, modifyChannel m.cs auth.shareChan fun c =>
      { c with x11AuthUpstream := none, x11OneShot := false, x11AuthDataFreed := true }⟩
  else some m

/-! ## Packets from the server -/

/-- What a reply does to the forwarding its request was about; a record that has been
    freed since must not be touched. -/
def settleForwarding (forwardings : FwdTree Forwarding) (globreq : Globreq) (reply : Reply) : Option (FwdTree Forwarding) :=
  match globreq.type, reply with
  | .cancelTcpipForward, .failure => some forwardings
  | .tcpipForward, .success => do
    let fwd ← (forwardings[globreq.fwd]?).filter (·.rpf = globreq.rpf)
    some (forwardings.insert globreq.fwd { fwd with active := true })
  | .tcpipForward, .failure | .cancelTcpipForward, .success => do
    let _ ← (forwardings[globreq.fwd]?).filter (·.rpf = globreq.rpf)
    some (forwardings.erase globreq.fwd)

def gotGlobreqReply (reply : Reply) (pkt : List UInt8) : Option Done := do
  let globreq ← m.cs.globreqHead.head?
  let forwardings ← settleForwarding m.cs.forwardings globreq reply
  let m := { m with cs := { m.cs with forwardings } }
  let type := match reply with
    | .success => Msg.requestSuccess
    | .failure => Msg.requestFailure
  let m ← sendIfWanted me m globreq.wantReply type pkt
  let globreqHead := m.cs.globreqHead.tail
  let cs := { m.cs with globreqHead, globreqTail := if globreqHead = [] then none else m.cs.globreqTail }
  retryCleanup me { m with cs }

def gotChannelOpen (pkt : List UInt8) : Option At :=
  let (serverId, src) := (BinarySource.ofData pkt).getString.2.getUint32
  if src.err then none
  else sendPacketToDownstream me { m with cs := addHalfchannel m.cs serverId.toNat } .channelOpen pkt none

/-- A message of the server on a channel of this downstream, which is passed on first. -/
def gotChannelMsg (type : Msg) (pkt : List UInt8) (upstreamId : Nat) (chan : Channel) : Option Done := do
  let m ← sendPacketToDownstream me m type (patch pkt 0 chan.downstreamId) (some chan)
  match type with
  | .channelOpenConfirmation =>
    if chan.state = .unacknowledged ∧ 8 ≤ pkt.length then
      let serverId := (BinarySource.get32BitMsbFirst ((pkt.drop 4).take 4)).toNat
      retryCleanup me { m with cs := channelSetServerId m.cs upstreamId serverId .opened }
    else some m.done
  | .channelOpenFailure => do
    let m ← removeChannel { m with cl := m.cl.deleteSharingChannel upstreamId } upstreamId chan
    some m.done
  | .channelClose =>
    if chan.state = .sentClose then do
      let m ← removeChannel { m with cl := m.cl.deleteSharingChannel upstreamId } upstreamId chan
      retryCleanup me m
    else some (At.done { m with cs := modifyChannel m.cs upstreamId fun c => { c with state := .rcvdClose } })
  | _ => some m.done

def gotXchannelMsg (type : Msg) (pkt : List UInt8) (xc : XChannel) : At :=
  let xc := { xc with msgs := xc.msgs ++ [(type, pkt)] }
  let m := { m with cs := modifyXchannel m.cs xc.upstreamId fun _ => xc }
  if xc.live then m else deadXchannelRespond me m xc

/-- share_got_pkt_from_server, for the messages that cite one of our channel ids. -/
def gotPktFromServer (type : Msg) (pkt : List UInt8) : Option Done :=
  let upstreamId := (BinarySource.ofData pkt).getUint32.1.toNat
  match findChannelByUpstream m.cs upstreamId with
  | some chan => gotChannelMsg me m type pkt upstreamId chan
  | none =>
    match m.cs.xchannelsByUs[upstreamId]? with
    | some xc => some (gotXchannelMsg me m type pkt xc).done
    | none => some m.done

/-! ## Packets from the downstream -/

/-- What the environment decides while a packet is handled. -/
structure Env where
  /-- The memory of a new queue entry's link. -/
  junk : Ptr
  agentForwardingPermitted : Bool
  /-- The invented authorisation. -/
  protoname : List UInt8
  datastring : List UInt8

def confused (err : String) : Option Done := shareDisconnect me m (text err)

/-- A failure made up for a request that is not passed on. -/
def refuseRequest (wantReply : Bool) : Option Done := (sendIfWanted me m wantReply .requestFailure []).map At.done

def forwardRequest (key : FwdKey) (wantReply : Bool) (pkt : List UInt8) (wantreplypos : Nat) (env : Env) : Option Done :=
  match m.cl.rportfwdAlloc key (some me) with
  | none => refuseRequest me m wantReply
  | some (rpf, cl) => do
    let cl := cl.sendPacketFromDownstream me .globalRequest (pkt.set wantreplypos 1)
    let serial := cl.globreqs.queued.length
    let cl ← cl.sharingQueueGlobalRequest me env.junk
    if key ∈ m.cs.forwardings then some (cl, some m.cs)
    else
      let cs := { m.cs with forwardings := m.cs.forwardings.insert key ⟨false, rpf⟩ }
      some (cl, some (pushGlobreq cs ⟨.tcpipForward, wantReply, key, rpf, serial⟩))

def cancelRequest (key : FwdKey) (wantReply : Bool) (pkt : List UInt8) (wantreplypos : Nat) (env : Env) : Option Done :=
  match m.cs.forwardings[key]? with
  | none => refuseRequest me m wantReply
  | some fwd => do
    let cl ← m.cl.rportfwdRemove key fwd.rpf
    let cl := cl.sendPacketFromDownstream me .globalRequest (pkt.set wantreplypos 1)
    let serial := cl.globreqs.queued.length
    let cl ← cl.sharingQueueGlobalRequest me env.junk
    some (cl, some (pushGlobreq m.cs ⟨.cancelTcpipForward, wantReply, key, fwd.rpf, serial⟩))

def globalRequest (pkt : List UInt8) (env : Env) : Option Done :=
  let (requestName, src) := (BinarySource.ofData pkt).getString
  let wantreplypos := src.pos
  let (wantReply, src) := src.getBool
  let (host, src) := src.getString
  let (port, src) := src.getUint32
  if requestName = text "tcpip-forward" then
    if src.err then confused me m "Truncated GLOBAL_REQUEST packet"
    else forwardRequest me m (fwdKey host port) wantReply pkt wantreplypos env
  else if requestName = text "cancel-tcpip-forward" then
    if src.err then confused me m "Truncated GLOBAL_REQUEST packet"
    else cancelRequest me m (fwdKey host port) wantReply pkt wantreplypos env
  else refuseRequest me m wantReply

def channelOpen (pkt : List UInt8) : Option Done :=
  let src := (BinarySource.ofData pkt).getString.2
  let idPos := src.pos
  let (oldId, src) := src.getUint32
  let (newId, cl) := m.cl.allocSharingChannel me
  let (maxpkt, src) := src.getUint32.2.getUint32
  let m := { m with cl }
  if src.err then confused me m "Truncated CHANNEL_OPEN packet"
  else
    let m := (addChannel m oldId.toNat newId 0 .unacknowledged maxpkt).2
    some (At.done { m with cl := m.cl.sendPacketFromDownstream me .channelOpen (patch pkt idPos newId) })

def channelOpenConfirmation (pkt : List UInt8) : Option Done :=
  let (serverId, src) := (BinarySource.ofData pkt).getUint32
  let idPos := src.pos
  let (oldId, src) := src.getUint32
  let (downstreamWindow, src) := src.getUint32
  let (maxpkt, src) := src.getUint32
  let serverId := serverId.toNat
  if pkt.length < 16 ∨ src.err then confused me m "Truncated CHANNEL_OPEN_CONFIRMATION packet"
  else if serverId ∈ m.cs.halfchannels then
    let (newId, cl) := m.cl.allocSharingChannel me
    let m := (addChannel { m with cl } oldId.toNat newId serverId .opened maxpkt).2
    some (At.done ⟨m.cl.sendPacketFromDownstream me .channelOpenConfirmation (patch pkt idPos newId),
      removeHalfchannel m.cs serverId⟩)
  else
    match findXchannelByServer m.cs serverId with
    | none => confused me m ("CHANNEL_OPEN_CONFIRMATION packet cited unknown channel " ++ toString serverId)
    | some xc =>
      let (chan, m) := addChannel m oldId.toNat xc.upstreamId serverId .opened maxpkt
      if downstreamWindow.toNat < 256 then
        confused me m ("Initial window size for x11 channel must be at least 256 (got " ++ toString downstreamWindow ++ ")")
      else do
        let m ← xchannelConfirmation me m xc chan downstreamWindow.toNat
        some (At.done { m with cs := removeXchannel m.cs xc })

def channelOpenFailure (pkt : List UInt8) : Option Done :=
  let (serverId, src) := (BinarySource.ofData pkt).getUint32
  let serverId := serverId.toNat
  if src.err then confused me m "Truncated CHANNEL_OPEN_FAILURE packet"
  else if serverId ∈ m.cs.halfchannels then
    some (At.done ⟨m.cl.sendPacketFromDownstream me .channelOpenFailure pkt, removeHalfchannel m.cs serverId⟩)
  else
    match findXchannelByServer m.cs serverId with
    | none => confused me m ("CHANNEL_OPEN_FAILURE packet cited unknown channel " ++ toString serverId)
    | some xc => some (xchannelFailure me m xc).done

/-- Channel messages are passed on as they are; CLOSE also changes the channel's state. -/
def passToServer (type : Msg) (pkt : List UInt8) (serverId : Nat) : Option Done :=
  let m := { m with cl := m.cl.sendPacketFromDownstream me type pkt }
  if type = .channelClose ∧ 4 ≤ pkt.length then
    match findChannelByServer m.cs serverId with
    | none => some m.done
    | some (upstreamId, chan) =>
      if chan.state = .rcvdClose then do
        let m ← removeChannel { m with cl := m.cl.deleteSharingChannel upstreamId } upstreamId chan
        some m.done
      else some (At.done { m with cs := modifyChannel m.cs upstreamId fun c => { c with state := .sentClose } })
  else some m.done

def failChannel (downstreamId : Nat) : Option Done := do
  let m ← sendPacketToDownstream me m .channelFailure (put32BitMsbFirst downstreamId) none
  some m.done

/-- x11_identify_auth_proto: which of the protocols we know. -/
def x11IdentifyAuthProto (proto : List UInt8) : Option Nat :=
  [text "MIT-MAGIC-COOKIE-1", text "XDM-AUTHORIZATION-1"].findIdx? (· = proto)

def x11Req (src : BinarySource) (serverId : Nat) (env : Env) : Option Done :=
  match findChannelByServer m.cs serverId with
  | none => confused me m ("X11 forwarding request for unrecognised channel " ++ toString serverId)
  | some (upstreamId, chan) =>
    let (wantReply, src) := src.getBool
    let (singleConnection, src) := src.getBool
    let (proto, src) := src.getString
    let (_, src) := src.getString
    let (screen, src) := src.getUint32
    if src.err then confused me m "Truncated CHANNEL_REQUEST(\"x11-req\") packet"
    else if (x11IdentifyAuthProto proto).isNone then failChannel me m chan.downstreamId
    else
      let (auth, cl) := m.cl.addSharingX11Display ⟨me, upstreamId, chan.addr⟩
      let cs := modifyChannel m.cs upstreamId fun c =>
        { c with x11AuthUpstream := some auth, x11OneShot := singleConnection, x11AuthDataFreed := false }
      some (At.done ⟨cl.sendPacketFromDownstream me .channelRequest
        (put32BitMsbFirst serverId ++ putString (text "x11-req") ++ putBool wantReply ++ putBool singleConnection ++
          putString env.protoname ++ putString env.datastring ++ put32BitMsbFirst screen.toNat), cs⟩)

def channelMessage (type : Msg) (pkt : List UInt8) (env : Env) : Option Done :=
  let (serverId, src) := (BinarySource.ofData pkt).getUint32
  let serverId := serverId.toNat
  let (requestName, src) := src.getString
  if type = .channelRequest ∧ requestName = text "auth-agent-req@openssh.com" ∧ !env.agentForwardingPermitted then
    match findChannelByServer m.cs serverId with
    | some (_, chan) => failChannel me m chan.downstreamId
    | none => confused me m ("Agent forwarding request for unrecognised channel " ++ toString serverId)
  else if type = .channelRequest ∧ requestName = text "x11-req" then x11Req me m src serverId env
  else passToServer me m type pkt serverId

/-- share_got_pkt_from_downstream. -/
def gotPktFromDownstream (type : Msg) (pkt : List UInt8) (env : Env) : Option Done :=
  match type with
  | .disconnect => beginCleanup me m
  | .globalRequest => globalRequest me m pkt env
  | .channelOpen => channelOpen me m pkt
  | .channelOpenConfirmation => channelOpenConfirmation me m pkt
  | .channelOpenFailure => channelOpenFailure me m pkt
  | .channelWindowAdjust | .channelData | .channelExtendedData | .channelEof | .channelClose | .channelRequest
  | .channelSuccess | .channelFailure | .ignore | .debug => channelMessage me m type pkt env
  | .requestSuccess | .requestFailure | .other _ => confused me m ("Unexpected packet type " ++ toString type.number ++ "\n")

end Connstate

end Putty.Share
