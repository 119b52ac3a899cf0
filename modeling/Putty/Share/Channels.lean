/-
  Putty.Share.Channels — the index of a connstate's channels by server id
  (`sshshare.c`, share_add_channel, share_channel_set_server_id, share_remove_channel).

  A channel that the server has not acknowledged has no server id: its record says 0, and
  it is kept out of the index. What adds, closes or cleans up channels keeps the index
  exact (`Handled.indexed`, `tryCleanup_indexed`). Three messages of the server about an
  unacknowledged channel do not: its CLOSE, which makes it count as acknowledged; its
  OPEN_FAILURE, which removes whatever is indexed under 0; an OPEN_CONFIRMATION that cites
  a server id which is in use. The index stays exact in just the runs without them
  (`index_exact_iff`).
-/

import Putty.Share.Handlers
import Putty.Lib.Index

namespace Putty.Share

open Std Putty.Lib Putty.Utils Putty.Ssh2
open Putty.Ssh2.GlobalRequests (Reply queueGlobalRequestHandler filterReply)

/-- The server id a channel is indexed under. -/
def Channel.key (c : Channel) : Option Nat := if c.state = .unacknowledged then none else some c.serverId

def Indexed (cs : ConnState) : Prop := IsIndex Channel.key cs.channelsByUs cs.channelsByServer

/-- The index is exact, and neither tree has an entry twice. -/
structure WellIndexed (cs : ConnState) : Prop where
  indexed : Indexed cs
  halfchannels : cs.halfchannels.keys.Nodup
  channelsByUs : cs.channelsByUs.keys.Nodup

theorem keys_nodup {V : Type} (t : Tree V) : t.keys.Nodup := by
  refine t.distinct_keys.imp fun {a b} hab e => ?_
  rw [e] at hab
  exact hab ReflCmp.compare_self

theorem Indexed.well {cs : ConnState} (h : Indexed cs) : WellIndexed cs := ⟨h, keys_nodup _, keys_nodup _⟩

/-- The messages about an unacknowledged channel that leave the index exact. -/
def KeepsIndex (cs : ConnState) (type : Msg) (pkt : List UInt8) : Prop :=
  ∀ c, cs.channelsByUs[firstId pkt]? = some c → c.state = .unacknowledged →
    match type with
    | .channelClose => False
    | .channelOpenFailure => cs.channelsByServer[c.serverId]? = none
    | .channelOpenConfirmation => 8 ≤ pkt.length → cs.channelsByServer[senderId pkt]? = none
    | _ => True

def IndexKeeping (s : St) : Ev → Prop
  | .serverMsg type pkt => s.protoError = false → ∀ a cs, s.cl.channels[firstId pkt]? = some (.sharectx a) →
      s.connections[a]? = some cs → KeepsIndex cs type pkt
  | _ => True

/-! ## The operations -/

variable {me : Nat} {m m' : At} {d : Done}

theorem Channel.key_acknowledged {c : Channel} (h : c.state ≠ .unacknowledged) : c.key = some c.serverId := if_neg h

theorem Channel.key_unacknowledged {c : Channel} (h : c.state = .unacknowledged) : c.key = none := if_pos h

theorem Indexed.of_tables {cs cs' : ConnState} (h : Indexed cs) (h1 : cs'.channelsByUs = cs.channelsByUs)
    (h2 : cs'.channelsByServer = cs.channelsByServer) : Indexed cs' := by
  unfold Indexed
  rw [h1, h2]
  exact h

/-- What the index finds is an acknowledged channel under its own id. -/
theorem Indexed.found {cs : ConnState} {k u : Nat} {c : Channel} (h : Indexed cs)
    (hf : findChannelByServer cs k = some (u, c)) :
    cs.channelsByUs[u]? = some c ∧ c.serverId = k ∧ c.state ≠ .unacknowledged := by
  obtain ⟨v, h1, h2⟩ := Option.bind_eq_some_iff.mp hf
  obtain ⟨c', h3, h4⟩ := Option.bind_eq_some_iff.mp h2
  cases h4
  obtain ⟨c', h5, h6⟩ := (h k u).mp h1
  cases h3.symm.trans h5
  by_cases hu : c.state = .unacknowledged
  · rw [Channel.key_unacknowledged hu] at h6
    cases h6
  · rw [Channel.key_acknowledged hu] at h6
    exact ⟨h3, Option.some.inj h6, hu⟩

theorem Indexed.modify {cs : ConnState} {u : Nat} {f : Channel → Channel} (h : Indexed cs)
    (hf : ∀ c, cs.channelsByUs[u]? = some c → (f c).key = c.key) : Indexed (modifyChannel cs u f) := IsIndex.modify h hf

/-- Only the state of an acknowledged channel changes. -/
theorem Indexed.set_state {cs : ConnState} {u : Nat} {c : Channel} {state : ChanState} (h : Indexed cs)
    (hc : cs.channelsByUs[u]? = some c) (hu : c.state ≠ .unacknowledged) (hs : state ≠ .unacknowledged) :
    Indexed (modifyChannel cs u fun c => { c with state := state }) := by
  refine h.modify fun c' hc' => ?_
  cases hc.symm.trans hc'
  rw [Channel.key_acknowledged hu]
  exact if_neg hs

theorem Indexed.add (h : Indexed m.cs) (d u k : Nat) (state : ChanState) (maxpkt : UInt32) :
    Indexed (addChannel m d u k state maxpkt).2.cs := by
  obtain ⟨o, cs, he, ⟨-, rfl, -⟩ | ⟨-, hu, hk, rfl⟩⟩ := addChannel_spec m d u k state maxpkt
  · rw [he]
    exact h
  · rw [he]
    have hu' : m.cs.channelsByUs[u]? = none := getElem?_neg _ _ hu
    show IsIndex Channel.key (m.cs.channelsByUs.insert u _) (if _ then _ else _)
    split
    · next hs => exact IsIndex.insert_unindexed h hu' (if_pos hs)
    · next hs =>
      refine IsIndex.put h ?_ (getElem?_neg _ _ (hk hs)) (if_neg hs)
      rw [hu']
      rfl

/-- Removing an acknowledged channel removes its own entry. -/
theorem Indexed.remove {u : Nat} {c : Channel} (h : Indexed m.cs) (hc : m.cs.channelsByUs[u]? = some c)
    (hu : c.state ≠ .unacknowledged) (hr : removeChannel m u c = some m') : Indexed m'.cs := by
  rw [(removeChannel_spec hr).1]
  exact IsIndex.erase h hc (Channel.key_acknowledged hu)

/-- So does removing an unacknowledged one while nothing is indexed under what it says. -/
theorem Indexed.remove_unacknowledged {u : Nat} {c : Channel} (h : Indexed m.cs) (hc : m.cs.channelsByUs[u]? = some c)
    (hu : c.state = .unacknowledged) (hk : m.cs.channelsByServer[c.serverId]? = none)
    (hr : removeChannel m u c = some m') : Indexed m'.cs := by
  rw [(removeChannel_spec hr).1]
  show IsIndex _ _ (m.cs.channelsByServer.erase c.serverId)
  rw [erase_absent hk]
  refine IsIndex.erase_unindexed h ?_
  rw [hc]
  exact Channel.key_unacknowledged hu

/-- While the index stays exact, a removal takes nothing else out of it. -/
theorem removes_only_itself {u : Nat} {c : Channel} (hi : Indexed m.cs) (hr : removeChannel m u c = some m')
    (hi' : Indexed m'.cs) {k v : Nat} (hv : v ≠ u) (h : m.cs.channelsByServer[k]? = some v) :
    m'.cs.channelsByServer[k]? = some v := by
  obtain ⟨d, hd, hk⟩ := (hi k v).mp h
  refine (hi' k v).mpr ⟨d, ?_, hk⟩
  rw [(removeChannel_spec hr).1]
  show (m.cs.channelsByUs.erase u)[v]? = some d
  rw [ExtTreeMap.getElem?_erase, if_neg fun e => hv (LawfulEqCmp.eq_of_compare e).symm]
  exact hd

/-! ## The cleanup -/

theorem cleanupChannel_indexed {u : Nat} (h : Indexed m.cs) (hc : cleanupChannel me m u = some m') : Indexed m'.cs := by
  obtain ⟨rfl, -⟩ | ⟨c, out, hu, hs, rfl⟩ | ⟨c, out, x11, hu, hs, rfl⟩ := cleanupChannel_spec hc
  · exact h
  · exact h.set_state hu (by simp [hs]) (by simp)
  · exact IsIndex.erase h hu (Channel.key_acknowledged (by simp [hs]))

theorem cleanupForwarding_tables {key : FwdKey} (h : cleanupForwarding me m key = some m') :
    m'.cs.channelsByUs = m.cs.channelsByUs ∧ m'.cs.channelsByServer = m.cs.channelsByServer := by
  obtain ⟨rfl, -⟩ | ⟨f, rpf, out, -, -, -, -, rfl⟩ := cleanupForwarding_spec h
  · exact ⟨rfl, rfl⟩
  · exact ⟨rfl, rfl⟩

theorem cleanupHalfchannels_tables : (cleanupHalfchannels me m).cs.channelsByUs = m.cs.channelsByUs ∧
    (cleanupHalfchannels me m).cs.channelsByServer = m.cs.channelsByServer := by
  obtain ⟨out, he⟩ := cleanupHalfchannels_spec me m
  rw [he]
  exact ⟨rfl, rfl⟩

theorem tryCleanup_indexed {cs : ConnState} (h : Indexed m.cs) (hc : tryCleanup me m = some d) (hd : d.2 = some cs) :
    Indexed cs := by
  obtain ⟨m2, h2, rfl⟩ := tryCleanup_ends (P := fun m => Indexed m.cs)
    (fun m h => h.of_tables cleanupHalfchannels_tables.1 cleanupHalfchannels_tables.2)
    (fun m u m' h hu => cleanupChannel_indexed h hu)
    (fun m key m' h hk => h.of_tables (cleanupForwarding_tables hk).1 (cleanupForwarding_tables hk).2) h hc
  dsimp only at hd
  split at hd
  · cases hd
  · cases hd
    exact h2

theorem retryCleanup_indexed {cs : ConnState} (h : Indexed m.cs) (hc : retryCleanup me m = some d) (hd : d.2 = some cs) :
    Indexed cs := by
  unfold retryCleanup at hc
  split at hc
  · cases hc
    cases hd
    exact h
  · exact tryCleanup_indexed h hc hd

/-! ## Packets -/

theorem XAnswer.tables {u k : Nat} (h : XAnswer m u k m') :
    m'.cs.channelsByUs = m.cs.channelsByUs ∧ m'.cs.channelsByServer = m.cs.channelsByServer := by
  cases h with
  | stays out xs hx => exact ⟨rfl, rfl⟩
  | goes out xs hx => exact ⟨rfl, rfl⟩

/-- No packet of the downstream spoils the index. -/
theorem Handled.indexed {type : Msg} {pkt : List UInt8} {cs : ConnState} (h : Indexed m.cs) (hh : Handled me m type pkt d)
    (hd : d.2 = some cs) : Indexed cs := by
  cases hh with
  | quiet out =>
    cases hd
    exact h
  | ended out _ hc => exact tryCleanup_indexed (m := (m.send out).closeSock) h hc hd
  | openTruncated out _ _ _ hc => exact tryCleanup_indexed (m := (At.send ⟨m.cl.withNew me, m.cs⟩ out).closeSock) h hc hd
  | opened oldId maxpkt out _ _ =>
    cases hd
    exact Indexed.add (m := ⟨m.cl.withNew me, m.cs⟩) h _ _ _ _ _
  | confirmedHalf oldId maxpkt m1 out _ _ hm =>
    cases hd
    cases hm
    exact Indexed.add (m := ⟨m.cl.withNew me, m.cs⟩) h _ _ _ _ _
  | confirmedX xc oldId maxpkt chan m1 m2 window _ _ ha hx =>
    cases hd
    have h1 : Indexed m1.cs := by
      have := h.add oldId xc.upstreamId (firstId pkt) .opened maxpkt
      rwa [ha] at this
    obtain ⟨out, rfl⟩ := xchannelConfirmation_spec hx
    exact h1
  | windowTooSmall xc oldId maxpkt chan m1 out _ _ ha _ hc =>
    have h1 : Indexed m1.cs := by
      have := h.add oldId xc.upstreamId (firstId pkt) .opened maxpkt
      rwa [ha] at this
    exact tryCleanup_indexed (m := (m1.send out).closeSock) h1 hc hd
  | refusedHalf out _ _ =>
    cases hd
    exact h
  | refusedX xc _ _ =>
    cases hd
    exact h.of_tables xchannelFailure_answer.tables.1 xchannelFailure_answer.tables.2
  | forwarded key wantReply rpf cl cl' out junk _ _ _ =>
    cases hd
    split
    · exact h
    · obtain ⟨globreqHead, hp⟩ := pushGlobreq_spec { m.cs with forwardings := m.cs.forwardings.insert key ⟨false, rpf⟩ }
        ⟨.tcpipForward, wantReply, key, rpf, cl.globreqs.queued.length⟩
      rw [hp]
      exact h
  | cancelled key wantReply fwd cl cl' out junk _ _ _ _ =>
    cases hd
    obtain ⟨globreqHead, hp⟩ := pushGlobreq_spec m.cs
      ⟨.cancelTcpipForward, wantReply, key, fwd.rpf, cl.globreqs.queued.length⟩
    rw [hp]
    exact h
  | closedBoth u chan out m1 _ hf _ hr =>
    cases hd
    obtain ⟨hc, -, hu⟩ := h.found hf
    exact Indexed.remove (m := At.send ⟨m.cl.deleteSharingChannel u, m.cs⟩ out) h hc hu hr
  | closed u chan out _ hf _ =>
    cases hd
    obtain ⟨hc, -, hu⟩ := h.found hf
    exact h.set_state hc hu (by simp)
  | x11 u chan single out _ hf =>
    cases hd
    exact h.modify fun c hc => rfl

/-- A message of the server keeps it exact unless it is one of the three. -/
theorem Served.indexed {type : Msg} {pkt : List UInt8} {cs : ConnState} (h : Indexed m.cs) (hk : KeepsIndex m.cs type pkt)
    (hh : Served me m type pkt d) (hd : d.2 = some cs) : Indexed cs := by
  cases hh with
  | quiet out =>
    cases hd
    exact h
  | acknowledged c out ht hc hu hl hr =>
    subst ht
    refine retryCleanup_indexed ?_ hr hd
    have hn := hk c hc hu hl
    exact IsIndex.assign h hc (Channel.key_unacknowledged hu) hn rfl
  | openFailed c out m1 ht hc hr =>
    subst ht
    cases hd
    by_cases hu : c.state = .unacknowledged
    · exact Indexed.remove_unacknowledged (m := At.send ⟨m.cl.deleteSharingChannel (firstId pkt), m.cs⟩ out) h hc hu
        (hk c hc hu) hr
    · exact Indexed.remove (m := At.send ⟨m.cl.deleteSharingChannel (firstId pkt), m.cs⟩ out) h hc hu hr
  | closedBoth c out m1 ht hc hs hr hb =>
    refine retryCleanup_indexed ?_ hb hd
    exact Indexed.remove (m := At.send ⟨m.cl.deleteSharingChannel (firstId pkt), m.cs⟩ out) h hc (by simp [hs]) hr
  | closed c out ht hc hs =>
    subst ht
    cases hd
    exact h.set_state hc (fun hu => hk c hc hu) (by simp)
  | xchannel xc _ _ =>
    cases hd
    exact h.of_tables gotXchannelMsg_answer.tables.1 gotXchannelMsg_answer.tables.2

/-! ## Events -/

theorem setupX11Channel_indexed {u : Nat} {auth : X11FakeAuth} {x : X11Setup} (h : Indexed m.cs)
    (hx : setupX11Channel me m u auth x = some m') : Indexed m'.cs := by
  obtain ⟨chan, window, msgs, cs, out, -, -, -, ha, rfl⟩ := setupX11Channel_spec hx
  have h1 : Indexed cs := by
    obtain ⟨-, -, rfl⟩ := addXchannel_spec ha
    exact h
  split
  · exact h1.modify fun c hc => rfl
  · exact h1

theorem gotGlobreqReply_indexed {reply : Reply} {pkt : List UInt8} {cs : ConnState} (h : Indexed m.cs)
    (hg : gotGlobreqReply me m reply pkt = some d) (hd : d.2 = some cs) : Indexed cs := by
  obtain ⟨globreq, rest, forwardings, out, -, -, hr⟩ := gotGlobreqReply_spec hg
  exact retryCleanup_indexed (m := At.send ⟨m.cl, { m.cs with
    forwardings
    globreqHead := rest
    globreqTail := if rest = [] then none else m.cs.globreqTail }⟩ out) h hr hd

theorem step_indexed {s s' : St} {e : Ev} (h : s.Each Indexed) (hok : IndexKeeping s e) (hs : step s e = some s') :
    s'.Each Indexed := by
  obtain ⟨-, rfl⟩ | ⟨hp, s1, ha, -, rfl⟩ := step_acted hs
  · exact h
  show s1.Each Indexed
  cases ha with
  | accept =>
    exact h.accept IsIndex.empty
  | packet _ hc hh _ => exact h.after fun cs hd => hh.indexed (h _ _ hc) hd
  | @malformed a message cs d out _ hc _ ht =>
    exact h.after fun cs' hd => tryCleanup_indexed (m := (At.send ⟨s.cl, cs⟩ out).closeSock) (h a cs hc) ht hd
  | @closing a cs d hc _ ht =>
    exact h.after fun cs' hd => tryCleanup_indexed (m := (At.mk s.cl cs).closeSock) (h a cs hc) ht hd
  | replySharing _ _ hc hg _ => exact h.after fun cs hd => gotGlobreqReply_indexed (h _ _ hc) hg hd
  | openSharing _ _ hc hg =>
    refine h.after fun cs hd => ?_
    cases hd
    obtain ⟨id, out, rfl⟩ := gotChannelOpen_spec hg
    exact (h _ _ hc).of_tables rfl rfl
  | msgSharing hch hc hh _ => exact h.after fun cs hd => hh.indexed (h _ _ hc) (hok hp _ _ hch hc) hd
  | handover _ _ hc hx =>
    refine h.after fun cs hd => ?_
    cases hd
    exact setupX11Channel_indexed (h _ _ hc) hx
  | _ => exact h

/-! ## The three messages -/

/-- Nothing is indexed as an unacknowledged channel. -/
theorem Indexed.not_unacknowledged {cs : ConnState} {u k : Nat} {c : Channel} (h : Indexed cs)
    (hc : cs.channelsByUs[u]? = some c) (hu : c.state = .unacknowledged) : cs.channelsByServer[k]? ≠ some u := by
  intro hk
  obtain ⟨c', hc', hkey⟩ := (h k u).mp hk
  cases hc.symm.trans hc'
  rw [Channel.key_unacknowledged hu] at hkey
  cases hkey

/-- A channel of its own server id that the index does not lead to, and that no cleanup
    removes. -/
def Astray (cs : ConnState) (u : Nat) : Prop :=
  ∃ c, cs.channelsByUs[u]? = some c ∧ (c.state = .opened ∨ c.state = .sentClose) ∧ cs.channelsByServer[c.serverId]? ≠ some u

theorem Astray.not_indexed {cs : ConnState} {u : Nat} (h : Astray cs u) : ¬ Indexed cs := by
  obtain ⟨c, hc, hs, hk⟩ := h
  intro hi
  refine hk (IsIndex.of_mem hi hc (Channel.key_acknowledged ?_))
  rcases hs with hs | hs <;> simp [hs]

theorem cleanupChannel_astray {u v : Nat} (h : Astray m.cs u) (hv : cleanupChannel me m v = some m') : Astray m'.cs u := by
  obtain ⟨c, hc, hs, hk⟩ := h
  obtain ⟨rfl, -⟩ | ⟨c', out, hc', -, rfl⟩ | ⟨c', out, x11, hc', hs', rfl⟩ := cleanupChannel_spec hv
  · exact ⟨c, hc, hs, hk⟩
  · show ∃ _, (m.cs.channelsByUs.modify v _)[u]? = _ ∧ _
    rw [ExtTreeMap.getElem?_modify]
    split
    · next he =>
      cases LawfulEqCmp.eq_of_compare he
      rw [hc]
      exact ⟨_, rfl, Or.inr rfl, hk⟩
    · exact ⟨c, hc, hs, hk⟩
  · refine ⟨c, ?_, hs, ?_⟩
    · show (m.cs.channelsByUs.erase v)[u]? = _
      rw [ExtTreeMap.getElem?_erase, if_neg, hc]
      intro he
      rw [LawfulEqCmp.eq_of_compare he, hc] at hc'
      cases hc'
      rcases hs with hs | hs <;> simp [hs] at hs'
    · show (m.cs.channelsByServer.erase c'.serverId)[c.serverId]? ≠ _
      rw [ExtTreeMap.getElem?_erase]
      split
      · simp
      · exact hk

theorem Astray.of_tables {cs cs' : ConnState} {u : Nat} (h : Astray cs u) (h1 : cs'.channelsByUs = cs.channelsByUs)
    (h2 : cs'.channelsByServer = cs.channelsByServer) : Astray cs' u := by
  unfold Astray
  rw [h1, h2]
  exact h

/-- Neither is the downstream let go. -/
theorem retryCleanup_astray {u : Nat} (h : Astray m.cs u) (hc : retryCleanup me m = some d) :
    ∃ cs, d.2 = some cs ∧ Astray cs u := by
  unfold retryCleanup at hc
  split at hc
  · cases hc
    exact ⟨_, rfl, h⟩
  · obtain ⟨m2, h2, rfl⟩ := tryCleanup_ends (P := fun m => Astray m.cs u)
      (fun m h => h.of_tables cleanupHalfchannels_tables.1 cleanupHalfchannels_tables.2)
      (fun m u m' h hu => cleanupChannel_astray h hu)
      (fun m key m' h hk => h.of_tables (cleanupForwarding_tables hk).1 (cleanupForwarding_tables hk).2) h hc
    refine ⟨m2.cs, ?_, h2⟩
    dsimp only
    rw [if_neg]
    intro hi
    obtain ⟨c, hc, -⟩ := h2
    rw [(idle_iff.mp hi).2.1] at hc
    simp at hc

/-- Each of the three messages spoils the index. -/
theorem spoils_index {type : Msg} {pkt : List UInt8} (h : Indexed m.cs) (hk : ¬ KeepsIndex m.cs type pkt)
    (hg : gotPktFromServer me m type pkt = some d) : ∃ cs, d.2 = some cs ∧ ¬ Indexed cs := by
  simp only [KeepsIndex, not_forall] at hk
  obtain ⟨c, hc, hu, hk⟩ := hk
  have hg : gotChannelMsg me m type pkt (firstId pkt) c = some d := by
    unfold gotPktFromServer findChannelByUpstream at hg
    dsimp only at hg
    rw [show m.cs.channelsByUs[(BinarySource.ofData pkt).getUint32.1.toNat]? = some c from hc] at hg
    exact hg
  obtain ⟨m1, h1, hg⟩ := Option.bind_eq_some_iff.mp hg
  obtain ⟨out, rfl⟩ := (send_spec h1).send_eq
  split at hk
  · -- CLOSE: acknowledged from here on, but under no id
    simp only [hu, reduceCtorEq, ↓reduceIte] at hg
    cases hg
    refine ⟨_, rfl, fun hi => ?_⟩
    refine h.not_unacknowledged hc hu (IsIndex.of_mem hi ?_ (Channel.key_acknowledged (c := { c with state := .rcvdClose }) ?_))
    · show (m.cs.channelsByUs.modify (firstId pkt) _)[firstId pkt]? = _
      rw [ExtTreeMap.getElem?_modify, if_pos ReflCmp.compare_self]
      exact congrArg _ hc
    · simp
  · -- OPEN_FAILURE: the entry under 0 goes, and it was another channel's
    obtain ⟨m2, hr, hg⟩ := Option.bind_eq_some_iff.mp hg
    cases hg
    refine ⟨_, rfl, fun hi => ?_⟩
    obtain ⟨w, hw⟩ := Option.ne_none_iff_exists'.mp hk
    have hne : w ≠ firstId pkt := fun e => h.not_unacknowledged hc hu (e ▸ hw)
    have := removes_only_itself (m := At.send ⟨m.cl.deleteSharingChannel (firstId pkt), m.cs⟩ out) h hr hi hne hw
    rw [(removeChannel_spec hr).1] at this
    simp at this
  · -- OPEN_CONFIRMATION: it is not entered under the id it is told
    simp only [Classical.not_imp] at hk
    obtain ⟨w, hw⟩ := Option.ne_none_iff_exists'.mp hk.2
    have hne : w ≠ firstId pkt := fun e => h.not_unacknowledged hc hu (e ▸ hw)
    simp only [hu, hk.1, and_self, ↓reduceIte] at hg
    have ha : Astray (channelSetServerId m.cs (firstId pkt) (senderId pkt) .opened) (firstId pkt) := by
      refine ⟨{ c with serverId := senderId pkt, state := .opened }, ?_, Or.inl rfl, ?_⟩
      · show (m.cs.channelsByUs.modify (firstId pkt) _)[firstId pkt]? = _
        rw [ExtTreeMap.getElem?_modify, if_pos ReflCmp.compare_self]
        exact congrArg _ hc
      · show (m.cs.channelsByServer.insertIfNew (senderId pkt) (firstId pkt))[senderId pkt]? ≠ _
        have hm : senderId pkt ∈ m.cs.channelsByServer := by
          rw [ExtTreeMap.mem_iff_isSome_getElem?, hw]
          rfl
        rw [ExtTreeMap.getElem?_insertIfNew, if_neg (fun hn => hn.2 hm), hw]
        simpa using hne
    obtain ⟨cs, hcs, hno⟩ := retryCleanup_astray ha hg
    exact ⟨cs, hcs, hno.not_indexed⟩
  · exact absurd trivial hk

theorem step_spoils {s s' : St} {e : Ev} (h : s.Each Indexed) (hok : ¬ IndexKeeping s e) (hs : step s e = some s') :
    ¬ s'.Each WellIndexed := by
  cases e with
  | serverMsg type pkt =>
    simp only [IndexKeeping, not_forall] at hok
    obtain ⟨hp, a, cs, hch, hcs, hk⟩ := hok
    obtain ⟨hp', -⟩ | ⟨-, s1, ha, -, rfl⟩ := step_acted hs
    · rw [hp] at hp'
      cases hp'
    cases ha with
    | msgSharing hch' hcs' _ hg =>
      cases hch.symm.trans hch'
      cases hcs.symm.trans hcs'
      obtain ⟨cs', hd, hno⟩ := spoils_index (m := ⟨s.cl, cs⟩) (h a cs hcs) hk hg
      intro hall
      refine hno (hall a cs' ?_).indexed
      simp [St.after, hd]
    | msgOurs ho => cases hch.symm.trans ho
    | msgNone hn => cases hch.symm.trans hn
  | _ => exact absurd trivial hok

/-! ## Runs -/

theorem init_each {I : ConnState → Prop} : St.init.Each I := by
  intro a cs h
  simp [St.init] at h

/-- The index is exact in every state of the runs in which the server closes no channel
    it has not acknowledged, refuses none while another has the server id 0, and confirms
    none under an id in use; in no others. While it is, no channel's removal takes out
    another's entry. -/
theorem index_exact_iff (evs : List Ev) :
    (Reaches step (·.Each WellIndexed) St.init evs ↔ Taken step IndexKeeping St.init evs) ∧
    ∀ (m m' : At) (u : Nat) (c : Channel), Indexed m.cs → removeChannel m u c = some m' → Indexed m'.cs →
      ∀ k v : Nat, v ≠ u → m.cs.channelsByServer[k]? = some v → m'.cs.channelsByServer[k]? = some v :=
  ⟨reaches_iff_taken (J := (St.Each · Indexed)) init_each (fun _ h a cs hc => (h a cs hc).well) (fun _ _ _ h hok hs => step_indexed h hok hs)
    (fun _ _ _ h hok hs => step_spoils h hok hs) evs,
    fun _ _ _ _ hi hr hi' _ _ hv h => removes_only_itself hi hr hi' hv h⟩

/-- Two channels that the server has opened. -/
def twoChannels : At := (addChannel (addChannel ⟨St.init.cl, ConnState.fresh⟩ 7 256 0 .opened 0).2 8 257 1 .opened 0).2

/-- The first one goes, and the second keeps its entry. -/
theorem second_entry_stays : ∃ m', removeChannel twoChannels 256 (newChannel 0 7 0 .opened 0) = some m' ∧
    m'.cs.channelsByServer[1]? = some 257 := by
  have hi : Indexed twoChannels.cs := Indexed.add (Indexed.add (m := ⟨St.init.cl, ConnState.fresh⟩) IsIndex.empty _ _ _ _ _) _ _ _ _ _
  have hc : twoChannels.cs.channelsByUs[256]? = some (newChannel 0 7 0 .opened 0) := by decide +kernel
  have h1 : twoChannels.cs.channelsByServer[1]? = some 257 := by decide +kernel
  cases hr : removeChannel twoChannels 256 (newChannel 0 7 0 .opened 0) with
  | none => cases hr
  | some m' =>
    exact ⟨m', rfl, (index_exact_iff []).2 _ m' 256 _ hi hr (hi.remove hc (by decide) hr) 1 257 (by decide) h1⟩

/-- A downstream opens two channels; the server accepts the first as its channel 0, as
    an OpenSSH server does, and refuses the second. -/
def refusedAfterZero : List Ev :=
  let open' := putString (text "session") ++ put32BitMsbFirst 7 ++ put32BitMsbFirst 65536 ++ put32BitMsbFirst 32768
  let env : Env := ⟨none, false, [], []⟩
  [.accept, .packet 0 .channelOpen open' env, .packet 0 .channelOpen open' env,
    .serverMsg .channelOpenConfirmation
      (put32BitMsbFirst 256 ++ put32BitMsbFirst 0 ++ put32BitMsbFirst 65536 ++ put32BitMsbFirst 32768),
    .serverMsg .channelOpenFailure (put32BitMsbFirst 257 ++ put32BitMsbFirst 1 ++ putString [] ++ putString [])]

def found (evs : List Ev) (u k : Nat) : Option (Option (Nat × ChanState) × Option Nat) :=
  (run step St.init evs).bind fun s => s.connections[0]?.map fun cs =>
    (cs.channelsByUs[u]?.map fun c => (c.serverId, c.state), cs.channelsByServer[k]?)

/-- The first one is open then, and the index no longer leads to it. -/
theorem open_channel_unindexed : ¬ ∀ evs, Reaches step (·.Each WellIndexed) St.init evs := by
  intro h
  have hrun : found refusedAfterZero 256 0 = some (some (0, .opened), none) := by decide +kernel
  obtain ⟨s, hs, hf⟩ := Option.bind_eq_some_iff.mp hrun
  obtain ⟨cs, hcs, hf⟩ := Option.map_eq_some_iff.mp hf
  simp only [Prod.mk.injEq, Option.map_eq_some_iff] at hf
  obtain ⟨⟨c, hc, hid, hst⟩, hno⟩ := hf
  have hi := (h refusedAfterZero _ s (List.prefix_refl _) hs 0 cs hcs).indexed
  have := IsIndex.of_mem hi hc (Channel.key_acknowledged (by simp [hst]))
  rw [hid, hno] at this
  cases this

end Putty.Share
