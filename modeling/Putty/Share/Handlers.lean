/-
  Putty.Share.Handlers — everything a packet can do to a connstate.

  `Handled` lists the outcomes of a packet from the downstream and `Served` those of a
  message from the server, each with what the packet must have been for it; the two
  inversion theorems (`gotPktFromDownstream_handled`, `gotPktFromServer_served`) are the
  only places that take the handlers apart. `Acted` does the same for the events of the
  whole upstream (`act_acted`, `step_acted`).
-/

import Putty.Share.Steps

namespace Putty.Share

open Std Putty.Lib Putty.Utils Putty.Ssh2
open Putty.Ssh2.GlobalRequests (Reply queueGlobalRequestHandler filterReply)

/-- A packet whose fields run past its end. -/
def truncatedOpen (pkt : List UInt8) : Bool :=
  (BinarySource.ofData pkt).getString.2.getUint32.2.getUint32.2.getUint32.2.err

/-- The first field of a packet. -/
def firstId (pkt : List UInt8) : Nat := (BinarySource.ofData pkt).getUint32.1.toNat

/-- The sender's channel in an OPEN_CONFIRMATION of the server. -/
def senderId (pkt : List UInt8) : Nat := (BinarySource.get32BitMsbFirst ((pkt.drop 4).take 4)).toNat

/-- The connection layer after a channel id has been given out. -/
def ConnectionLayer.withNew (cl : ConnectionLayer) (me : Nat) : ConnectionLayer := (cl.allocSharingChannel me).2

def At.closeSock (m : At) : At := { m with cs := { m.cs with sock := false } }

def At.send (m : At) (out : List Out) : At := { m with cl := { m.cl with out := m.cl.out ++ out } }

theorem At.send_nil (m : At) : m.send [] = m := by
  simp [At.send]

variable {me : Nat} {m m' : At} {d : Done}

theorem SameButOut.send_eq (h : SameButOut m m') : ∃ out, m' = m.send out := h.eq

/-! ## Ending a session -/

theorem beginCleanup_spec (h : beginCleanup me m = some d) : m.cs.sock = true ∧ tryCleanup me m.closeSock = some d := by
  unfold beginCleanup at h
  split at h
  · next hs => exact ⟨hs, h⟩
  · cases h

theorem shareDisconnect_spec {message : List UInt8} (h : shareDisconnect me m message = some d) :
    m.cs.sock = true ∧ ∃ out, tryCleanup me (m.send out).closeSock = some d := by
  obtain ⟨m1, h1, h2⟩ := Option.bind_eq_some_iff.mp h
  obtain ⟨out, rfl⟩ := (send_spec h1).send_eq
  obtain ⟨hs, hc⟩ := beginCleanup_spec h2
  exact ⟨hs, out, hc⟩

/-! ## X11 channels -/

/-- What an X11 channel that is dead, or has just died, does to the upstream: it waits on,
    or it is closed. -/
inductive XAnswer (m : At) (u k : Nat) : At → Prop
  | stays (out : List Out) (xs : Tree XChannel) : (∀ v, v ∈ xs ↔ v ∈ m.cs.xchannelsByUs) →
      XAnswer m u k (At.send ⟨m.cl, { m.cs with xchannelsByUs := xs }⟩ out)
  | goes (out : List Out) (xs : Tree XChannel) : (∀ v, v ∈ xs ↔ v ∈ m.cs.xchannelsByUs ∧ v ≠ u) →
      XAnswer m u k (At.send ⟨m.cl.deleteSharingChannel u, { m.cs with
        xchannelsByUs := xs
        xchannelsByServer := m.cs.xchannelsByServer.erase k }⟩ out)

theorem deadXchannelRespond_answer (me : Nat) (m : At) (xc : XChannel) : XAnswer m xc.upstreamId xc.serverId (deadXchannelRespond me m xc) := by
  unfold deadXchannelRespond
  dsimp only
  split
  · exact .goes _ _ fun u => mem_erase_nat
  · exact .stays _ _ fun u => mem_modify

/-- What had been sent and queued before does not matter. -/
theorem XAnswer.of_modify {u k v : Nat} {o : List Out} {f : XChannel → XChannel}
    (h : XAnswer (At.send ⟨m.cl, modifyXchannel m.cs v f⟩ o) u k m') : XAnswer m u k m' := by
  cases h with
  | stays out xs hx =>
    have := XAnswer.stays (m := m) (u := u) (k := k) (o ++ out) xs fun v => (hx v).trans mem_modify
    simpa only [At.send, List.append_assoc, modifyXchannel] using this
  | goes out xs hx =>
    have := XAnswer.goes (m := m) (u := u) (k := k) (o ++ out) xs fun v => (hx v).trans (and_congr_left' mem_modify)
    simpa only [At.send, List.append_assoc, modifyXchannel, ConnectionLayer.deleteSharingChannel] using this

theorem xchannelFailure_answer {xc : XChannel} : XAnswer m xc.upstreamId xc.serverId (xchannelFailure me m xc) :=
  XAnswer.of_modify (deadXchannelRespond_answer me (At.send ⟨m.cl, modifyXchannel m.cs xc.upstreamId _⟩ [_]) xc)

theorem gotXchannelMsg_answer {type : Msg} {pkt : List UInt8} {xc : XChannel} :
    XAnswer m xc.upstreamId xc.serverId (gotXchannelMsg me m type pkt xc) := by
  unfold gotXchannelMsg
  dsimp only
  split
  · have := XAnswer.stays (m := m) (u := xc.upstreamId) (k := xc.serverId) []
      (m.cs.xchannelsByUs.modify xc.upstreamId fun _ => { xc with msgs := xc.msgs ++ [(type, pkt)] }) fun u => mem_modify
    rwa [At.send_nil] at this
  · refine XAnswer.of_modify (o := []) (v := xc.upstreamId) (f := fun _ => { xc with msgs := xc.msgs ++ [(type, pkt)] }) ?_
    rw [At.send_nil]
    exact deadXchannelRespond_answer me _ { xc with msgs := xc.msgs ++ [(type, pkt)] }

theorem xchannelConfirmation_spec {xc : XChannel} {chan : Option Channel} {window : Nat}
    (h : xchannelConfirmation me m xc chan window = some m') :
    ∃ out, m' = At.send ⟨m.cl, modifyXchannel m.cs xc.upstreamId fun x => { x with msgs := [] }⟩ out := by
  obtain ⟨m1, h1, h2⟩ := Option.bind_eq_some_iff.mp h
  cases h2
  obtain ⟨out, rfl⟩ := (foldlM_keeps (P := SameButOut m) (fun b x b' hb hx => hb.trans (passOn_spec hx)) (.refl m) h1).send_eq
  refine ⟨out ++ [.toServer me .channelWindowAdjust (put32BitMsbFirst xc.serverId ++ putInt (window - xc.window))], ?_⟩
  simp [At.send, ConnectionLayer.sendPacketFromDownstream, ConnectionLayer.emit]

/-- A channel handed over becomes an X11 channel of its downstream, and a display that is
    for one connection is used up. -/
theorem setupX11Channel_spec {u : Nat} {auth : X11FakeAuth} {x : X11Setup} (h : setupX11Channel me m u auth x = some m') :
    ∃ chan window msgs cs out, m.cs.channelsByUs[auth.shareChan]? = some chan ∧ chan.addr = auth.chanAddr ∧
      (∀ msg ∈ msgs, 4 ≤ msg.2.length ∧ firstId msg.2 = 0) ∧ addXchannel m.cs u x.remoteid window msgs = some cs ∧
      m' = if chan.x11OneShot then At.send ⟨m.cl.removeSharingX11Display x.auth, modifyChannel cs auth.shareChan fun c =>
        { c with x11AuthUpstream := none, x11OneShot := false, x11AuthDataFreed := true }⟩ out
      else At.send ⟨m.cl, cs⟩ out := by
  obtain ⟨chan, hc, h⟩ := Option.bind_eq_some_iff.mp h
  obtain ⟨cs, ha, h⟩ := Option.bind_eq_some_iff.mp h
  obtain ⟨m1, hs, h⟩ := Option.bind_eq_some_iff.mp h
  obtain ⟨out, rfl⟩ := (send_spec hs).send_eq
  obtain ⟨hc, haddr⟩ := Option.filter_eq_some_iff.mp hc
  refine ⟨chan, _, _, cs, out, hc, by simpa using haddr, fun msg hm => ?_, ha, ?_⟩
  · rw [List.mem_singleton.mp hm]
    refine ⟨by simp, ?_⟩
    simp only [List.append_assoc]
    exact (BinarySource.getUint32_reads (by norm_num) (BinarySource.ofData_reads _)).1
  split at h
  · next ho =>
    cases h
    rw [if_pos ho]
    rfl
  · next ho =>
    cases h
    rw [if_neg ho]

/-! ## What the connection layer calls -/

theorem gotGlobreqReply_spec {reply : Reply} {pkt : List UInt8} (h : gotGlobreqReply me m reply pkt = some d) :
    ∃ globreq rest forwardings out, m.cs.globreqHead = globreq :: rest ∧
      settleForwarding m.cs.forwardings globreq reply = some forwardings ∧
      retryCleanup me (At.send ⟨m.cl, { m.cs with
        forwardings
        globreqHead := rest
        globreqTail := if rest = [] then none else m.cs.globreqTail }⟩ out) = some d := by
  obtain ⟨globreq, hg, h⟩ := Option.bind_eq_some_iff.mp h
  obtain ⟨forwardings, hf, h⟩ := Option.bind_eq_some_iff.mp h
  obtain ⟨m1, hs, h⟩ := Option.bind_eq_some_iff.mp h
  obtain ⟨out, rfl⟩ := (sendIfWanted_spec hs).send_eq
  obtain ⟨rest, hr⟩ := List.head?_eq_some_iff.mp hg
  refine ⟨globreq, rest, forwardings, out, hr, hf, ?_⟩
  simpa only [At.send, hr, List.tail_cons] using h

theorem gotChannelOpen_spec {pkt : List UInt8} (h : gotChannelOpen me m pkt = some m') :
    ∃ id out, m' = At.send ⟨m.cl, addHalfchannel m.cs id⟩ out := by
  unfold gotChannelOpen at h
  dsimp only at h
  split at h
  · cases h
  · obtain ⟨out, rfl⟩ := (send_spec h).send_eq
    exact ⟨_, out, rfl⟩

/-! ## Packets from the downstream -/

inductive Handled (me : Nat) (m : At) (type : Msg) (pkt : List UInt8) : Done → Prop
  /-- Only packets were sent. -/
  | quiet (out : List Out) : Handled me m type pkt (m.send out).done
  | ended (out : List Out) {d : Done} : m.cs.sock = true → tryCleanup me (m.send out).closeSock = some d →
      Handled me m type pkt d
  | openTruncated (out : List Out) {d : Done} : type = .channelOpen → truncatedOpen pkt = true → m.cs.sock = true →
      tryCleanup me (At.send ⟨m.cl.withNew me, m.cs⟩ out).closeSock = some d → Handled me m type pkt d
  | opened (oldId : Nat) (maxpkt : UInt32) (out : List Out) : type = .channelOpen → truncatedOpen pkt = false →
      Handled me m type pkt
        ((addChannel ⟨m.cl.withNew me, m.cs⟩ oldId m.cl.allocChannelId 0 .unacknowledged maxpkt).2.send out).done
  | confirmedHalf (oldId : Nat) (maxpkt : UInt32) (m1 : At) (out : List Out) : type = .channelOpenConfirmation →
      firstId pkt ∈ m.cs.halfchannels →
      m1 = (addChannel ⟨m.cl.withNew me, m.cs⟩ oldId m.cl.allocChannelId (firstId pkt) .opened maxpkt).2 →
      Handled me m type pkt (At.send ⟨m1.cl, removeHalfchannel m1.cs (firstId pkt)⟩ out).done
  | confirmedX (xc : XChannel) (oldId : Nat) (maxpkt : UInt32) (chan : Option Channel) (m1 m2 : At) (window : Nat) :
      type = .channelOpenConfirmation → findXchannelByServer m.cs (firstId pkt) = some xc →
      addChannel m oldId xc.upstreamId (firstId pkt) .opened maxpkt = (chan, m1) →
      xchannelConfirmation me m1 xc chan window = some m2 →
      Handled me m type pkt (At.done ⟨m2.cl, removeXchannel m2.cs xc⟩)
  | windowTooSmall (xc : XChannel) (oldId : Nat) (maxpkt : UInt32) (chan : Option Channel) (m1 : At) (out : List Out)
      {d : Done} : type = .channelOpenConfirmation → findXchannelByServer m.cs (firstId pkt) = some xc →
      addChannel m oldId xc.upstreamId (firstId pkt) .opened maxpkt = (chan, m1) → m1.cs.sock = true →
      tryCleanup me (m1.send out).closeSock = some d → Handled me m type pkt d
  | refusedHalf (out : List Out) : type = .channelOpenFailure → firstId pkt ∈ m.cs.halfchannels →
      Handled me m type pkt (At.send ⟨m.cl, removeHalfchannel m.cs (firstId pkt)⟩ out).done
  | refusedX (xc : XChannel) : type = .channelOpenFailure → findXchannelByServer m.cs (firstId pkt) = some xc →
      Handled me m type pkt (xchannelFailure me m xc).done
  | forwarded (key : FwdKey) (wantReply : Bool) (rpf : Nat) (cl cl' : ConnectionLayer) (out : List Out) (junk : Ptr) :
      type = .globalRequest → m.cl.rportfwdAlloc key (some me) = some (rpf, cl) →
      (At.send ⟨cl, m.cs⟩ out).cl.sharingQueueGlobalRequest me junk = some cl' →
      Handled me m type pkt (cl', some (if key ∈ m.cs.forwardings then m.cs
        else pushGlobreq { m.cs with forwardings := m.cs.forwardings.insert key ⟨false, rpf⟩ }
          ⟨.tcpipForward, wantReply, key, rpf, cl.globreqs.queued.length⟩))
  | cancelled (key : FwdKey) (wantReply : Bool) (fwd : Forwarding) (cl cl' : ConnectionLayer) (out : List Out) (junk : Ptr) :
      type = .globalRequest → m.cs.forwardings[key]? = some fwd → m.cl.rportfwdRemove key fwd.rpf = some cl →
      (At.send ⟨cl, m.cs⟩ out).cl.sharingQueueGlobalRequest me junk = some cl' →
      Handled me m type pkt (cl', some (pushGlobreq m.cs
        ⟨.cancelTcpipForward, wantReply, key, fwd.rpf, cl.globreqs.queued.length⟩))
  | closedBoth (u : Nat) (chan : Channel) (out : List Out) (m1 : At) : type = .channelClose →
      findChannelByServer m.cs (firstId pkt) = some (u, chan) → chan.state = .rcvdClose →
      removeChannel (At.send ⟨m.cl.deleteSharingChannel u, m.cs⟩ out) u chan = some m1 → Handled me m type pkt m1.done
  | closed (u : Nat) (chan : Channel) (out : List Out) : type = .channelClose →
      findChannelByServer m.cs (firstId pkt) = some (u, chan) → chan.state ≠ .rcvdClose →
      Handled me m type pkt (At.send ⟨m.cl, modifyChannel m.cs u fun c => { c with state := .sentClose }⟩ out).done
  | x11 (u : Nat) (chan : Channel) (single : Bool) (out : List Out) : type = .channelRequest →
      findChannelByServer m.cs (firstId pkt) = some (u, chan) →
      Handled me m type pkt (At.send ⟨(m.cl.addSharingX11Display ⟨me, u, chan.addr⟩).2, modifyChannel m.cs u fun c =>
        { c with x11AuthUpstream := some m.cl.brk, x11OneShot := single, x11AuthDataFreed := false }⟩ out).done

variable {type : Msg} {pkt : List UInt8} {env : Env}

theorem confused_handled {err : String} (h : confused me m err = some d) : Handled me m type pkt d := by
  obtain ⟨hs, out, hc⟩ := shareDisconnect_spec h
  exact .ended out hs hc

theorem refuseRequest_handled {wantReply : Bool} (h : refuseRequest me m wantReply = some d) : Handled me m type pkt d := by
  obtain ⟨m1, h1, rfl⟩ := Option.map_eq_some_iff.mp h
  obtain ⟨out, rfl⟩ := (sendIfWanted_spec h1).send_eq
  exact .quiet out

theorem failChannel_handled {id : Nat} (h : failChannel me m id = some d) : Handled me m type pkt d := by
  obtain ⟨m1, h1, h2⟩ := Option.bind_eq_some_iff.mp h
  obtain ⟨out, rfl⟩ := (send_spec h1).send_eq
  cases h2
  exact .quiet out

theorem forwardRequest_handled {key : FwdKey} {wantReply : Bool} {pos : Nat}
    (h : forwardRequest me m key wantReply pkt pos env = some d) : Handled me m .globalRequest pkt d := by
  unfold forwardRequest at h
  split at h
  · exact refuseRequest_handled h
  · next rpf cl ha =>
    obtain ⟨cl', h1, h2⟩ := Option.bind_eq_some_iff.mp h
    have hd : d = (cl', some (if key ∈ m.cs.forwardings then m.cs
        else pushGlobreq { m.cs with forwardings := m.cs.forwardings.insert key ⟨false, rpf⟩ }
          ⟨.tcpipForward, wantReply, key, rpf, cl.globreqs.queued.length⟩)) := by
      split at h2
      · next hk =>
        cases h2
        rw [if_pos hk]
      · next hk =>
        cases h2
        rw [if_neg hk]
        rfl
    rw [hd]
    exact .forwarded key wantReply rpf cl cl' _ env.junk rfl ha h1

theorem cancelRequest_handled {key : FwdKey} {wantReply : Bool} {pos : Nat}
    (h : cancelRequest me m key wantReply pkt pos env = some d) : Handled me m .globalRequest pkt d := by
  unfold cancelRequest at h
  split at h
  · exact refuseRequest_handled h
  · next fwd hf =>
    obtain ⟨cl, h1, h2⟩ := Option.bind_eq_some_iff.mp h
    obtain ⟨cl', h3, h4⟩ := Option.bind_eq_some_iff.mp h2
    cases h4
    exact .cancelled key wantReply fwd cl cl' _ env.junk rfl hf h1 h3

theorem globalRequest_handled (h : globalRequest me m pkt env = some d) : Handled me m .globalRequest pkt d := by
  unfold globalRequest at h
  dsimp only at h
  split at h
  · split at h
    · exact confused_handled h
    · exact forwardRequest_handled h
  · split at h
    · split at h
      · exact confused_handled h
      · exact cancelRequest_handled h
    · exact refuseRequest_handled h

theorem channelOpen_handled (h : channelOpen me m pkt = some d) : Handled me m .channelOpen pkt d := by
  unfold channelOpen at h
  dsimp only at h
  split at h
  · next he =>
    obtain ⟨hs, out, hc⟩ := shareDisconnect_spec h
    exact .openTruncated out rfl he hs hc
  · next he =>
    cases h
    exact .opened _ _ _ rfl (eq_false_of_ne_true he)

theorem channelOpenConfirmation_handled (h : channelOpenConfirmation me m pkt = some d) :
    Handled me m .channelOpenConfirmation pkt d := by
  unfold channelOpenConfirmation at h
  dsimp only at h
  split at h
  · exact confused_handled h
  · split at h
    · next hk =>
      cases h
      exact .confirmedHalf _ _ _ _ rfl hk rfl
    · split at h
      · exact confused_handled h
      · next xc hx =>
        split at h
        · obtain ⟨hs, out, hc⟩ := shareDisconnect_spec h
          exact .windowTooSmall xc _ _ _ _ out rfl hx rfl hs hc
        · obtain ⟨m2, h1, h2⟩ := Option.bind_eq_some_iff.mp h
          cases h2
          exact .confirmedX xc _ _ _ _ m2 _ rfl hx rfl h1

theorem channelOpenFailure_handled (h : channelOpenFailure me m pkt = some d) :
    Handled me m .channelOpenFailure pkt d := by
  unfold channelOpenFailure at h
  dsimp only at h
  split at h
  · exact confused_handled h
  · split at h
    · next hk =>
      cases h
      exact .refusedHalf _ rfl hk
    · split at h
      · exact confused_handled h
      · next xc hx =>
        cases h
        exact .refusedX xc rfl hx

theorem passToServer_handled (h : passToServer me m type pkt (firstId pkt) = some d) : Handled me m type pkt d := by
  unfold passToServer at h
  dsimp only at h
  split at h
  · next ht =>
    split at h
    · cases h
      exact .quiet _
    · next u chan hf =>
      split at h
      · next hr =>
        obtain ⟨m1, h1, h2⟩ := Option.bind_eq_some_iff.mp h
        cases h2
        exact .closedBoth u chan [.toServer me type pkt] m1 ht.1 hf hr h1
      · next hr =>
        cases h
        exact .closed u chan [.toServer me type pkt] ht.1 hf hr
  · cases h
    exact .quiet _

theorem x11Req_handled {src : BinarySource} (h : x11Req me m src (firstId pkt) env = some d) :
    Handled me m .channelRequest pkt d := by
  unfold x11Req at h
  split at h
  · exact confused_handled h
  · next u chan hf =>
    dsimp only at h
    split at h
    · exact confused_handled h
    · split at h
      · exact failChannel_handled h
      · cases h
        exact .x11 u chan _ _ rfl hf

theorem channelMessage_handled (h : channelMessage me m type pkt env = some d) : Handled me m type pkt d := by
  unfold channelMessage at h
  dsimp only at h
  split at h
  · split at h
    · exact failChannel_handled h
    · exact confused_handled h
  · split at h
    · next ht =>
      rw [ht.1]
      exact x11Req_handled h
    · exact passToServer_handled h

/-- What a packet of the downstream does. -/
theorem gotPktFromDownstream_handled (h : gotPktFromDownstream me m type pkt env = some d) : Handled me m type pkt d := by
  cases type with
  | disconnect =>
    obtain ⟨hs, hc⟩ := beginCleanup_spec h
    exact .ended [] hs (by simpa [At.send] using hc)
  | globalRequest => exact globalRequest_handled h
  | channelOpen => exact channelOpen_handled h
  | channelOpenConfirmation => exact channelOpenConfirmation_handled h
  | channelOpenFailure => exact channelOpenFailure_handled h
  | requestSuccess | requestFailure | other => exact confused_handled h
  | _ => exact channelMessage_handled (show channelMessage me m _ pkt env = some d from h)

/-! ## Messages from the server -/

inductive Served (me : Nat) (m : At) (type : Msg) (pkt : List UInt8) : Done → Prop
  | quiet (out : List Out) : Served me m type pkt (m.send out).done
  | acknowledged (c : Channel) (out : List Out) {d : Done} : type = .channelOpenConfirmation →
      m.cs.channelsByUs[firstId pkt]? = some c → c.state = .unacknowledged → 8 ≤ pkt.length →
      retryCleanup me (At.send ⟨m.cl, channelSetServerId m.cs (firstId pkt) (senderId pkt) .opened⟩ out) = some d →
      Served me m type pkt d
  | openFailed (c : Channel) (out : List Out) (m1 : At) : type = .channelOpenFailure →
      m.cs.channelsByUs[firstId pkt]? = some c →
      removeChannel (At.send ⟨m.cl.deleteSharingChannel (firstId pkt), m.cs⟩ out) (firstId pkt) c = some m1 →
      Served me m type pkt m1.done
  | closedBoth (c : Channel) (out : List Out) (m1 : At) {d : Done} : type = .channelClose →
      m.cs.channelsByUs[firstId pkt]? = some c → c.state = .sentClose →
      removeChannel (At.send ⟨m.cl.deleteSharingChannel (firstId pkt), m.cs⟩ out) (firstId pkt) c = some m1 →
      retryCleanup me m1 = some d → Served me m type pkt d
  | closed (c : Channel) (out : List Out) : type = .channelClose →
      m.cs.channelsByUs[firstId pkt]? = some c → c.state ≠ .sentClose →
      Served me m type pkt
        (At.send ⟨m.cl, modifyChannel m.cs (firstId pkt) fun c => { c with state := .rcvdClose }⟩ out).done
  | xchannel (xc : XChannel) : m.cs.channelsByUs[firstId pkt]? = none →
      m.cs.xchannelsByUs[firstId pkt]? = some xc → Served me m type pkt (gotXchannelMsg me m type pkt xc).done

theorem gotChannelMsg_served {c : Channel} (hc : m.cs.channelsByUs[firstId pkt]? = some c)
    (h : gotChannelMsg me m type pkt (firstId pkt) c = some d) : Served me m type pkt d := by
  obtain ⟨m1, h1, h2⟩ := Option.bind_eq_some_iff.mp h
  obtain ⟨out, rfl⟩ := (send_spec h1).send_eq
  split at h2
  · split at h2
    · next hu => exact .acknowledged c out rfl hc hu.1 hu.2 h2
    · cases h2
      exact .quiet out
  · obtain ⟨m1, h3, h4⟩ := Option.bind_eq_some_iff.mp h2
    cases h4
    exact .openFailed c out m1 rfl hc h3
  · split at h2
    · next hs =>
      obtain ⟨m1, h3, h4⟩ := Option.bind_eq_some_iff.mp h2
      exact .closedBoth c out m1 rfl hc hs h3 h4
    · next hs =>
      cases h2
      exact .closed c out rfl hc hs
  · cases h2
    exact .quiet out

/-- What a message of the server does. -/
theorem gotPktFromServer_served (h : gotPktFromServer me m type pkt = some d) : Served me m type pkt d := by
  unfold gotPktFromServer findChannelByUpstream at h
  dsimp only at h
  split at h
  · next c hc => exact gotChannelMsg_served hc h
  · next hn =>
    split at h
    · next xc hx =>
      cases h
      exact .xchannel xc hn hx
    · cases h
      have hq : Served me m type pkt (m.send []).done := .quiet []
      rwa [At.send_nil] at hq

/-! ## Events -/

/-- What a call for one connstate leaves of the upstream. -/
def St.after (s : St) (a : Nat) (d : Done) : St :=
  { s with
    cl := d.1
    connections := match d.2 with
      | some cs => s.connections.insert a cs
      | none => s.connections.erase a }

theorem after_get {s : St} {a : Nat} {cs : ConnState} (hc : (s.after a d).connections[a]? = some cs) : d.2 = some cs := by
  unfold St.after at hc
  dsimp only at hc
  split at hc
  · next cs' hd =>
    rw [ExtTreeMap.getElem?_insert, if_pos ReflCmp.compare_self] at hc
    rw [hd, hc]
  · rw [ExtTreeMap.getElem?_erase, if_pos ReflCmp.compare_self] at hc
    cases hc

theorem after_get_ne {s : St} {a b : Nat} (hb : b ≠ a) : (s.after a d).connections[b]? = s.connections[b]? := by
  unfold St.after
  dsimp only
  split
  · rw [get_insert, if_neg hb.symm]
  · rw [get_erase, if_neg hb.symm]

/-- A property of every registered connstate. -/
def St.Each (s : St) (I : ConnState → Prop) : Prop := ∀ (a : Nat) cs, s.connections[a]? = some cs → I cs

theorem St.Each.after {s : St} {I : ConnState → Prop} {a : Nat} (h : s.Each I) (hd : ∀ cs, d.2 = some cs → I cs) :
    (s.after a d).Each I := by
  intro b cs hb
  unfold St.after at hb
  dsimp only at hb
  split at hb
  · next cs' hc =>
    rw [ExtTreeMap.getElem?_insert] at hb
    split at hb
    · cases hb
      exact hd cs hc
    · exact h b cs hb
  · rw [ExtTreeMap.getElem?_erase] at hb
    split at hb
    · cases hb
    · exact h b cs hb

theorem St.Each.accept {s : St} {I : ConnState → Prop} (h : s.Each I) (hf : I ConnState.fresh) :
    St.Each { s with
      cl := { s.cl with brk := s.cl.brk + 1 }
      connections := s.connections.insert s.cl.brk ConnState.fresh } I :=
  St.Each.after (d := ({ s.cl with brk := s.cl.brk + 1 }, some ConnState.fresh)) h fun _ hd => Option.some.inj hd ▸ hf

theorem deliver_after {s s' : St} {a : Nat} {f : At → Option Done} (h : deliver s a f = some s') :
    ∃ cs d, s.connections[a]? = some cs ∧ f ⟨s.cl, cs⟩ = some d ∧ s' = s.after a d := by
  obtain ⟨cs, cl, cs', h1, h2, h3⟩ := deliver_spec h
  exact ⟨cs, (cl, cs'), h1, h2, h3⟩

/-- Everything an event can do to the upstream. -/
inductive Acted (s : St) : Ev → St → Prop
  | accept : Acted s .accept { s with
      cl := { s.cl with brk := s.cl.brk + 1 }
      connections := s.connections.insert s.cl.brk ConnState.fresh }
  | packet {a : Nat} {type : Msg} {pkt : List UInt8} {env : Env} {cs : ConnState} {d : Done} : readable s a = true →
      s.connections[a]? = some cs → Handled a ⟨s.cl, cs⟩ type pkt d →
      gotPktFromDownstream a ⟨s.cl, cs⟩ type pkt env = some d → Acted s (.packet a type pkt env) (s.after a d)
  | malformed {a : Nat} {message : List UInt8} {cs : ConnState} {d : Done} (out : List Out) : readable s a = true →
      s.connections[a]? = some cs → cs.sock = true → tryCleanup a (At.send ⟨s.cl, cs⟩ out).closeSock = some d →
      Acted s (.malformed a message) (s.after a d)
  | closing {a : Nat} {cs : ConnState} {d : Done} : s.connections[a]? = some cs → cs.sock = true →
      tryCleanup a (At.mk s.cl cs).closeSock = some d → Acted s (.closing a) (s.after a d)
  | replyNone {reply : Reply} {pkt : List UInt8} : s.cl.globreqs.globreqHead = none →
      Acted s (.globalReply reply pkt) { s with protoError := true }
  | replySharing {reply : Reply} {pkt : List UInt8} {head : Nat} {next : Ptr} {a : Nat} {cs : ConnState} {d : Done}
      {globreqs : GlobalRequests.St Handler} : s.cl.globreqs.globreqHead = some head →
      s.cl.globreqs.heap.cell head = some ⟨.sharing a, next⟩ → s.connections[a]? = some cs →
      gotGlobreqReply a ⟨s.cl, cs⟩ reply pkt = some d → filterReply d.1.globreqs reply [] = some globreqs →
      Acted s (.globalReply reply pkt) (s.after a ({ d.1 with globreqs }, d.2))
  | replyOurs {reply : Reply} {pkt : List UInt8} {head : Nat} {next : Ptr} {key : FwdKey} {addr : Nat}
      {cl : ConnectionLayer} {globreqs : GlobalRequests.St Handler} : s.cl.globreqs.globreqHead = some head →
      s.cl.globreqs.heap.cell head = some ⟨.rportfwd key addr, next⟩ →
      rportfwdGlobreqResponse s.cl key addr reply = some cl → filterReply cl.globreqs reply [] = some globreqs →
      Acted s (.globalReply reply pkt) { s with cl := { cl with globreqs } }
  | openSharing {src : BinarySource} {key : FwdKey} {r : SshRportfwd} {a : Nat} {cs : ConnState} {m : At} :
      s.cl.rportfwds[key]? = some r → r.shareCtx = some a → s.connections[a]? = some cs →
      gotChannelOpen a ⟨s.cl, cs⟩ src.data = some m → Acted s (.serverOpen src) (s.after a m.done)
  | openOther {src : BinarySource} : Acted s (.serverOpen src) s
  | msgSharing {type : Msg} {pkt : List UInt8} {a : Nat} {cs : ConnState} {d : Done} :
      s.cl.channels[firstId pkt]? = some (.sharectx a) → s.connections[a]? = some cs →
      Served a ⟨s.cl, cs⟩ type pkt d → gotPktFromServer a ⟨s.cl, cs⟩ type pkt = some d →
      Acted s (.serverMsg type pkt) (s.after a d)
  | msgOurs {type : Msg} {pkt : List UInt8} : s.cl.channels[firstId pkt]? = some .ours → Acted s (.serverMsg type pkt) s
  | msgNone {type : Msg} {pkt : List UInt8} : s.cl.channels[firstId pkt]? = none →
      Acted s (.serverMsg type pkt) { s with protoError := true }
  | openOurs : Acted s .openOurs
      { s with cl := { s.cl with channels := s.cl.channels.insertIfNew s.cl.allocChannelId .ours } }
  | closeOurs {u : Nat} : s.cl.channels[u]? = some .ours → Acted s (.closeOurs u) { s with cl := s.cl.deleteSharingChannel u }
  | forwardTaken {key : FwdKey} {junk : Ptr} : key ∈ s.cl.rportfwds → Acted s (.forwardOurs key junk) s
  | forwardOurs {key : FwdKey} {junk : Ptr} {addr : Nat} {cl : ConnectionLayer} {globreqs : GlobalRequests.St Handler} :
      s.cl.rportfwdAlloc key none = some (addr, cl) →
      queueGlobalRequestHandler cl.globreqs (.rportfwd key addr) junk = some globreqs →
      Acted s (.forwardOurs key junk) { s with cl := { cl with globreqs } }
  | unforwardOurs {key : FwdKey} {addr : Nat} : s.cl.rportfwds[key]? = some ⟨addr, none⟩ →
      Acted s (.unforwardOurs key) { s with cl := { s.cl with rportfwds := s.cl.rportfwds.erase key } }
  | handover {u : Nat} {x : X11Setup} {auth : X11FakeAuth} {cs : ConnState} {m : At} : s.cl.channels[u]? = some .ours →
      s.cl.x11authtree[x.auth]? = some auth → s.connections[auth.shareCs]? = some cs →
      setupX11Channel auth.shareCs ⟨{ s.cl with channels := s.cl.channels.insert u (.sharectx auth.shareCs) }, cs⟩ u auth x =
        some m → Acted s (.handover u x) (s.after auth.shareCs m.done)

theorem globalReply_acted {s s' : St} {reply : Reply} {pkt : List UInt8} (h : globalReply s reply pkt = some s') :
    Acted s (.globalReply reply pkt) s' := by
  unfold globalReply at h
  split at h
  · next hn =>
    cases h
    exact .replyNone hn
  · next head hh =>
    obtain ⟨⟨handler, next⟩, hc, h⟩ := Option.bind_eq_some_iff.mp h
    obtain ⟨s1, h1, h⟩ := Option.bind_eq_some_iff.mp h
    obtain ⟨g, hg, h⟩ := Option.bind_eq_some_iff.mp h
    cases h
    cases handler with
    | sharing a =>
      obtain ⟨cs, d, ha, hd, rfl⟩ := deliver_after (f := fun m => gotGlobreqReply a m reply pkt) h1
      exact .replySharing hh hc ha hd hg
    | rportfwd key addr =>
      obtain ⟨cl, hcl, rfl⟩ := Option.map_eq_some_iff.mp (show Option.map _ _ = some s1 from h1)
      exact .replyOurs hh hc hcl hg

theorem serverOpen_acted {s s' : St} {src : BinarySource} (h : serverOpen s src = some s') : Acted s (.serverOpen src) s' := by
  unfold serverOpen at h
  split at h
  · next addr a hr =>
    obtain ⟨key, -, hr⟩ := Option.bind_eq_some_iff.mp hr
    obtain ⟨cs, d, ha, hd, rfl⟩ := deliver_after h
    obtain ⟨m, hm, rfl⟩ := Option.map_eq_some_iff.mp hd
    exact .openSharing hr rfl ha hm
  · cases h
    exact .openOther

theorem serverMsg_acted {s s' : St} {type : Msg} {pkt : List UInt8} (h : serverMsg s type pkt = some s') :
    Acted s (.serverMsg type pkt) s' := by
  unfold serverMsg at h
  split at h
  · next a ha =>
    obtain ⟨cs, d, hcs, hd, rfl⟩ := deliver_after h
    exact .msgSharing ha hcs (gotPktFromServer_served hd) hd
  · next ho =>
    cases h
    exact .msgOurs ho
  · next hn =>
    cases h
    exact .msgNone hn

theorem forwardOurs_acted {s : St} {cl : ConnectionLayer} {key : FwdKey} {junk : Ptr}
    (h : forwardOurs s.cl key junk = some cl) : Acted s (.forwardOurs key junk) { s with cl } := by
  unfold forwardOurs at h
  split at h
  · next hn =>
    cases h
    unfold ConnectionLayer.rportfwdAlloc at hn
    split at hn
    · next hk => exact .forwardTaken hk
    · cases hn
  · next addr cl1 ha =>
    obtain ⟨g, hg, h⟩ := Option.bind_eq_some_iff.mp h
    cases h
    exact .forwardOurs ha hg

theorem handover_acted {s s' : St} {u : Nat} {x : X11Setup} (ho : s.cl.channels[u]? = some .ours)
    (h : handover s u x = some s') : Acted s (.handover u x) s' := by
  obtain ⟨auth, ha, h⟩ := Option.bind_eq_some_iff.mp h
  obtain ⟨cs, d, hcs, hd, rfl⟩ := deliver_after h
  obtain ⟨m, hm, rfl⟩ := Option.map_eq_some_iff.mp hd
  exact .handover ho ha hcs hm

/-- What an event does. -/
theorem act_acted {s s' : St} {e : Ev} (h : act s e = some s') : Acted s e s' := by
  cases e with
  | accept =>
    cases h
    exact .accept
  | packet a type pkt env =>
    simp only [act] at h
    split at h
    · next hr =>
      obtain ⟨cs, d, ha, hd, rfl⟩ := deliver_after h
      exact .packet hr ha (gotPktFromDownstream_handled hd) hd
    · cases h
  | malformed a message =>
    simp only [act] at h
    split at h
    · next hr =>
      obtain ⟨cs, d, ha, hd, rfl⟩ := deliver_after h
      obtain ⟨hs, out, hc⟩ := shareDisconnect_spec hd
      exact .malformed out hr ha hs hc
    · cases h
  | closing a =>
    simp only [act] at h
    split at h
    · obtain ⟨cs, d, ha, hd, rfl⟩ := deliver_after h
      obtain ⟨hs, hc⟩ := beginCleanup_spec hd
      exact .closing ha hs hc
    · cases h
  | globalReply reply pkt => exact globalReply_acted h
  | serverOpen src => exact serverOpen_acted h
  | serverMsg type pkt =>
    simp only [act] at h
    split at h
    · exact serverMsg_acted h
    · cases h
  | openOurs =>
    cases h
    exact .openOurs
  | closeOurs u =>
    simp only [act] at h
    split at h
    · next ho =>
      cases h
      exact .closeOurs ho
    · cases h
  | forwardOurs key junk =>
    obtain ⟨cl, hcl, rfl⟩ := Option.map_eq_some_iff.mp h
    exact forwardOurs_acted hcl
  | unforwardOurs key =>
    simp only [act] at h
    split at h
    · next addr hk =>
      cases h
      exact .unforwardOurs hk
    · cases h
  | handover u x =>
    simp only [act] at h
    split at h
    · next ho => exact handover_acted ho h
    · cases h

/-- A step is an event, unless the server has broken the protocol before. -/
theorem step_acted {s s' : St} {e : Ev} (h : step s e = some s') :
    (s.protoError = true ∧ s' = s) ∨
      s.protoError = false ∧ ∃ s1, Acted s e s1 ∧ act s e = some s1 ∧ s' = { s1 with reading := e.reads } := by
  unfold step at h
  split at h
  · next hp =>
    cases h
    exact Or.inl ⟨hp, rfl⟩
  · next hp =>
    obtain ⟨s1, h1, rfl⟩ := Option.map_eq_some_iff.mp h
    exact Or.inr ⟨eq_false_of_ne_true hp, s1, act_acted h1, h1, rfl⟩

end Putty.Share
