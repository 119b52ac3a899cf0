/-
  Putty.Share.Zombies — who finishes the cleanup of a downstream that has gone
  (`sshshare.c`, share_try_cleanup and its callers).

  A connstate without a socket stays registered only for what it still waits for. The
  branches that take away something it may have been waiting for try the cleanup again,
  all but one: the server's OPEN_FAILURE. Nobody frees a connstate whose last object goes
  that way (`zombie_after_open_failure`), and none is left behind in the runs where that
  does not happen (`no_zombie_iff`).

  What is behind the last packet in the same read cannot take away an object: a cleanup
  leaves no half-open channel and none that has seen the server's CLOSE (`Settled`).
-/

import Putty.Share.Handlers

namespace Putty.Share

open Std Putty.Lib Putty.Utils Putty.Ssh2
open Putty.Ssh2.GlobalRequests (Reply queueGlobalRequestHandler filterReply)

/-- Connected, or waiting for something. -/
def Busy (cs : ConnState) : Prop := cs.sock = false → cs.idle = false

/-- What a cleanup leaves. -/
def Settled (cs : ConnState) : Prop :=
  cs.halfchannels = ∅ ∧ ∀ (u : Nat) c, cs.channelsByUs[u]? = some c → c.state ≠ .rcvdClose

/-- This channel is all that is left. -/
def Alone (cs : ConnState) (u : Nat) : Prop :=
  cs.halfchannels = ∅ ∧ cs.forwardings = ∅ ∧ ∀ v : Nat, v ∈ cs.channelsByUs ↔ v = u

/-- The server does not refuse the last channel of a downstream that has gone. -/
def CompletesCleanup (s : St) : Ev → Prop
  | .serverMsg .channelOpenFailure pkt => s.protoError = false → ∀ a cs, s.cl.channels[firstId pkt]? = some (.sharectx a) →
      s.connections[a]? = some cs → cs.sock = false → ¬ Alone cs (firstId pkt)
  | _ => True

variable {me : Nat} {m m' : At} {d : Done} {cs : ConnState}

/-! ## What keeps a connstate -/

theorem idle_eq_false : cs.idle = false ↔ cs.halfchannels ≠ ∅ ∨ cs.channelsByUs ≠ ∅ ∨ cs.forwardings ≠ ∅ := by
  rw [← Bool.not_eq_true, idle_iff]
  tauto

theorem ne_empty_of_mem {V : Type} {t : Tree V} {u : Nat} (h : u ∈ t) : t ≠ ∅ := by
  rintro rfl
  simp at h

theorem idle_of_channel {u : Nat} (h : u ∈ cs.channelsByUs) : cs.idle = false :=
  idle_eq_false.mpr (Or.inr (Or.inl (ne_empty_of_mem h)))

/-- The same objects are left. -/
theorem idle_congr {cs cs' : ConnState} (h : cs.idle = false) (h1 : cs.halfchannels ≠ ∅ → cs'.halfchannels ≠ ∅)
    (h2 : ∀ u, u ∈ cs.channelsByUs → u ∈ cs'.channelsByUs) (h3 : cs.forwardings ≠ ∅ → cs'.forwardings ≠ ∅) :
    cs'.idle = false := by
  obtain h | h | h := idle_eq_false.mp h
  · exact idle_eq_false.mpr (Or.inl (h1 h))
  · obtain ⟨u, hu⟩ : ∃ u, u ∈ cs.channelsByUs := by
      by_contra hno
      exact h (ExtTreeMap.eq_empty_iff_forall_not_mem.mpr fun u hu => hno ⟨u, hu⟩)
    exact idle_of_channel (h2 u hu)
  · exact idle_eq_false.mpr (Or.inr (Or.inr (h3 h)))

/-! ## The cleanup -/

/-- After the channel loop none that has seen the server's CLOSE is left. -/
theorem cleanupChannels_settled : ∀ {l : List Nat} {m m' : At},
    (∀ (u : Nat) c, m.cs.channelsByUs[u]? = some c → c.state = .rcvdClose → u ∈ l) → l.foldlM (cleanupChannel me) m = some m' →
    ∀ (u : Nat) c, m'.cs.channelsByUs[u]? = some c → c.state ≠ .rcvdClose
  | [], m, m', hl, h, u, c, hc, hs => by
    cases h
    simpa using hl u c hc hs
  | v :: l, m, m', hl, h, u, c, hc, hs => by
    rw [List.foldlM_cons] at h
    obtain ⟨m1, h1, h2⟩ := Option.bind_eq_some_iff.mp h
    refine cleanupChannels_settled (fun w b hw hb => ?_) h2 u c hc hs
    obtain ⟨rfl, hv⟩ | ⟨c', out, hc', hs', rfl⟩ | ⟨c', out, x11, hc', hs', rfl⟩ := cleanupChannel_spec h1
    · rcases List.mem_cons.mp (hl w b hw hb) with rfl | hw'
      · rcases hv b hw with hv | hv <;> simp [hb] at hv
      · exact hw'
    · have hw : (m.cs.channelsByUs.modify v fun c => { c with state := .sentClose })[w]? = some b := hw
      rw [ExtTreeMap.getElem?_modify] at hw
      split at hw
      · obtain ⟨b', -, rfl⟩ := Option.map_eq_some_iff.mp hw
        cases hb
      · next hne =>
        rcases List.mem_cons.mp (hl w b hw hb) with rfl | hw'
        · exact absurd ReflCmp.compare_self hne
        · exact hw'
    · have hw : (m.cs.channelsByUs.erase v)[w]? = some b := hw
      rw [ExtTreeMap.getElem?_erase] at hw
      split at hw
      · cases hw
      · next hne =>
        rcases List.mem_cons.mp (hl w b hw hb) with rfl | hw'
        · exact absurd ReflCmp.compare_self hne
        · exact hw'

theorem cleanupChannel_halfchannels {u : Nat} (h : cleanupChannel me m u = some m') :
    m'.cs.halfchannels = m.cs.halfchannels ∧ m'.cs.sock = m.cs.sock := by
  obtain ⟨rfl, -⟩ | ⟨c, out, -, -, rfl⟩ | ⟨c, out, x11, -, -, rfl⟩ := cleanupChannel_spec h
  · exact ⟨rfl, rfl⟩
  · exact ⟨rfl, rfl⟩
  · exact ⟨rfl, rfl⟩

theorem cleanupForwarding_channels {key : FwdKey} (h : cleanupForwarding me m key = some m') :
    m'.cs.channelsByUs = m.cs.channelsByUs ∧ m'.cs.halfchannels = m.cs.halfchannels ∧ m'.cs.sock = m.cs.sock := by
  obtain ⟨rfl, -⟩ | ⟨f, rpf, out, -, -, -, -, rfl⟩ := cleanupForwarding_spec h
  · exact ⟨rfl, rfl, rfl⟩
  · exact ⟨rfl, rfl, rfl⟩

/-- A connstate that the cleanup leaves still waits for something. -/
theorem tryCleanup_settled (h : tryCleanup me m = some d) (hd : d.2 = some cs) : cs.idle = false ∧ Settled cs := by
  obtain ⟨m1, m2, h1, h2, rfl⟩ := tryCleanup_spec h
  dsimp only at hd
  split at hd
  · cases hd
  · next hi =>
    cases hd
    obtain ⟨out, he⟩ := cleanupHalfchannels_spec me m
    rw [he] at h1
    have hhalf := foldlM_keeps (P := fun m : At => m.cs.halfchannels = ∅)
      (fun b u b' hb hu => (cleanupChannel_halfchannels hu).1.trans hb) rfl h1
    have hstate := cleanupChannels_settled (fun u c hc _ => by
      rw [ExtTreeMap.mem_keys, ExtTreeMap.mem_iff_isSome_getElem?]
      exact Option.isSome_iff_exists.mpr ⟨c, hc⟩) h1
    refine ⟨eq_false_of_ne_true hi, ?_⟩
    exact foldlM_keeps (P := fun m : At => Settled m.cs) (fun b key b' hb hk => by
      obtain ⟨hc, hh, -⟩ := cleanupForwarding_channels hk
      unfold Settled
      rw [hc, hh]
      exact hb) ⟨hhalf, hstate⟩ h2

theorem retryCleanup_busy (h : retryCleanup me m = some d) (hd : d.2 = some cs) : Busy cs := by
  unfold retryCleanup at h
  split at h
  · next hs =>
    cases h
    cases hd
    intro hs'
    rw [hs] at hs'
    cases hs'
  · exact fun _ => (tryCleanup_settled h hd).1

/-! ## Packets of the downstream -/

/-- Connected, or settled and waiting for something. -/
def Sound (cs : ConnState) : Prop := cs.sock = false → cs.idle = false ∧ Settled cs

theorem Sound.busy (h : Sound cs) : Busy cs := fun hs => (h hs).1

theorem tryCleanup_sound (h : tryCleanup me m = some d) (hd : d.2 = some cs) : Sound cs := fun _ => tryCleanup_settled h hd

/-- The same objects are left, and no channel in a state that is not settled. -/
theorem Sound.congr {cs' : ConnState} (h : Sound cs) (hs : cs'.sock = cs.sock) (h1 : cs'.halfchannels = cs.halfchannels)
    (h2 : ∀ u : Nat, u ∈ cs.channelsByUs → u ∈ cs'.channelsByUs) (h3 : cs.forwardings ≠ ∅ → cs'.forwardings ≠ ∅)
    (h4 : ∀ (u : Nat) c, cs'.channelsByUs[u]? = some c → c.state = .rcvdClose →
      ∃ c', cs.channelsByUs[u]? = some c' ∧ c'.state = .rcvdClose) : Sound cs' := by
  intro hs'
  obtain ⟨hi, hh, hr⟩ := h (hs.symm.trans hs')
  refine ⟨idle_congr hi (by rw [h1]; exact id) h2 h3, h1.trans hh, fun u c hc hst => ?_⟩
  obtain ⟨c', hc', hst'⟩ := h4 u c hc hst
  exact hr u c' hc' hst'

theorem Sound.modify {u : Nat} {f : Channel → Channel} (h : Sound cs)
    (hf : ∀ c, (f c).state = .rcvdClose → c.state = .rcvdClose) : Sound (modifyChannel cs u f) := by
  refine h.congr rfl rfl (fun v hv => mem_modify.mpr hv) id fun v c hc hst => ?_
  obtain ⟨c', hc', rfl | ⟨-, rfl⟩⟩ := modifyChannel_get hc
  · exact ⟨c, hc', hst⟩
  · exact ⟨c', hc', hf c' hst⟩

theorem XAnswer.sound {u k : Nat} (h : Sound m.cs) (ha : XAnswer m u k m') : Sound m'.cs := by
  cases ha with
  | stays out xs _ => exact h.congr rfl rfl (fun _ => id) id fun u c hc hs => ⟨c, hc, hs⟩
  | goes out xs _ => exact h.congr rfl rfl (fun _ => id) id fun u c hc hs => ⟨c, hc, hs⟩

theorem Sound.add {state : ChanState} (h : Sound m.cs) (hst : state ≠ .rcvdClose) (dn u k : Nat) (maxpkt : UInt32) :
    Sound (addChannel m dn u k state maxpkt).2.cs := by
  obtain ⟨o, cs, he, ⟨-, rfl, -⟩ | ⟨-, hu, -, rfl⟩⟩ := addChannel_spec m dn u k state maxpkt
  · rw [he]
    exact h
  · rw [he]
    refine h.congr rfl rfl (fun v hv => ExtTreeMap.mem_insert.mpr (Or.inr hv)) id fun v c hc hs => ?_
    have hc : (m.cs.channelsByUs.insert u (newChannel m.cl.brk dn k state maxpkt))[v]? = some c := hc
    rw [ExtTreeMap.getElem?_insert] at hc
    split at hc
    · cases hc
      exact absurd hs hst
    · exact ⟨c, hc, hs⟩

/-- Connected. -/
theorem Sound.of_sock (h : cs.sock = true) : Sound cs := by
  intro hs
  rw [h] at hs
  cases hs

/-- No packet of the downstream leaves a zombie, not even behind its last one. -/
theorem Handled.sound {type : Msg} {pkt : List UInt8} (h : Sound m.cs) (hh : Handled me m type pkt d) (hd : d.2 = some cs) :
    Sound cs := by
  cases hh with
  | quiet out =>
    cases hd
    exact h
  | ended out _ hc => exact tryCleanup_sound hc hd
  | openTruncated out _ _ _ hc => exact tryCleanup_sound hc hd
  | opened oldId maxpkt out _ _ =>
    cases hd
    exact Sound.add (m := ⟨m.cl.withNew me, m.cs⟩) h (by simp) _ _ _ _
  | confirmedHalf oldId maxpkt m1 out _ hk hm =>
    cases hd
    by_cases hs : m.cs.sock = true
    · subst hm
      exact Sound.of_sock (addChannel_sock.trans hs)
    · rw [(h (eq_false_of_ne_true hs)).2.1] at hk
      simp at hk
  | confirmedX xc oldId maxpkt chan m1 m2 window _ _ ha hx =>
    cases hd
    obtain ⟨out, rfl⟩ := xchannelConfirmation_spec hx
    have h1 : Sound m1.cs := by
      have := h.add (by simp : ChanState.opened ≠ .rcvdClose) oldId xc.upstreamId (firstId pkt) maxpkt
      rwa [ha] at this
    exact h1.congr rfl rfl (fun _ => id) id fun u c hc hs => ⟨c, hc, hs⟩
  | windowTooSmall xc oldId maxpkt chan m1 out _ _ ha _ hc => exact tryCleanup_sound hc hd
  | refusedHalf out _ hk =>
    cases hd
    by_cases hs : m.cs.sock = true
    · exact Sound.of_sock hs
    · rw [(h (eq_false_of_ne_true hs)).2.1] at hk
      simp at hk
  | refusedX xc _ _ =>
    cases hd
    exact xchannelFailure_answer.sound h
  | forwarded key wantReply rpf cl cl' out junk _ _ _ =>
    cases hd
    split
    · exact h
    · obtain ⟨globreqHead, hp⟩ := pushGlobreq_spec { m.cs with forwardings := m.cs.forwardings.insert key ⟨false, rpf⟩ }
        ⟨.tcpipForward, wantReply, key, rpf, cl.globreqs.queued.length⟩
      rw [hp]
      exact h.congr rfl rfl (fun _ => id) (fun _ => ExtTreeMap.insert_ne_empty) fun u c hc hs => ⟨c, hc, hs⟩
  | cancelled key wantReply fwd cl cl' out junk _ _ _ _ =>
    cases hd
    obtain ⟨globreqHead, hp⟩ := pushGlobreq_spec m.cs
      ⟨.cancelTcpipForward, wantReply, key, fwd.rpf, cl.globreqs.queued.length⟩
    rw [hp]
    exact h
  | closedBoth u chan out m1 _ hf hst hr =>
    cases hd
    obtain ⟨v, -, h2⟩ := Option.bind_eq_some_iff.mp hf
    obtain ⟨c, hc, h4⟩ := Option.bind_eq_some_iff.mp h2
    cases h4
    by_cases hs : m.cs.sock = true
    · exact Sound.of_sock ((removeChannel_sock hr).trans hs)
    · exact absurd hst ((h (eq_false_of_ne_true hs)).2.2 u chan hc)
  | closed u chan out _ hf _ =>
    cases hd
    exact h.modify (by simp)
  | x11 u chan single out _ hf =>
    cases hd
    exact h.modify fun c => id

/-! ## Messages of the server -/

theorem XAnswer.busy {u k : Nat} (h : Busy m.cs) (ha : XAnswer m u k m') : Busy m'.cs := by
  cases ha with
  | stays out xs _ => exact h
  | goes out xs _ => exact h

theorem Busy.modify {u : Nat} {f : Channel → Channel} (h : Busy cs) : Busy (modifyChannel cs u f) := fun hs =>
  idle_congr (h hs) id (fun _ hv => mem_modify.mpr hv) id

/-- A channel goes that was not the only thing left. -/
theorem Busy.remove {u : Nat} {c : Channel} (hc : m.cs.channelsByUs[u]? = some c)
    (hno : m.cs.sock = false → ¬ Alone m.cs u) (hr : removeChannel m u c = some m') : Busy m'.cs := by
  rw [(removeChannel_spec hr).1]
  intro hs
  have hno := hno hs
  refine idle_eq_false.mpr ?_
  by_contra hall
  simp only [not_or, not_not] at hall
  obtain ⟨h1, h2, h3⟩ := hall
  refine hno ⟨h1, h3, fun v => ?_⟩
  have hv : v ∉ m.cs.channelsByUs.erase u := by
    rw [h2]
    simp
  rw [mem_erase_nat, not_and, not_not] at hv
  refine ⟨hv, ?_⟩
  rintro rfl
  rw [ExtTreeMap.mem_iff_isSome_getElem?, hc]
  rfl

theorem Served.busy {type : Msg} {pkt : List UInt8} (h : Busy m.cs)
    (hok : type = .channelOpenFailure → m.cs.sock = false → ¬ Alone m.cs (firstId pkt)) (hh : Served me m type pkt d)
    (hd : d.2 = some cs) : Busy cs := by
  cases hh with
  | quiet out =>
    cases hd
    exact h
  | acknowledged c out _ _ _ _ hr => exact retryCleanup_busy hr hd
  | openFailed c out m1 ht hc hr =>
    cases hd
    exact Busy.remove (m := At.send ⟨m.cl.deleteSharingChannel (firstId pkt), m.cs⟩ out) hc (hok ht) hr
  | closedBoth c out m1 _ _ _ _ hb => exact retryCleanup_busy hb hd
  | closed c out _ _ _ =>
    cases hd
    exact h.modify
  | xchannel xc _ _ =>
    cases hd
    exact gotXchannelMsg_answer.busy h

/-- Refusing the last channel makes a zombie. -/
theorem openFailure_zombie {pkt : List UInt8} (hs : m.cs.sock = false) (ha : Alone m.cs (firstId pkt))
    (hg : gotPktFromServer me m .channelOpenFailure pkt = some d) : ∃ cs, d.2 = some cs ∧ ¬ Busy cs := by
  obtain ⟨c, hc⟩ : ∃ c, m.cs.channelsByUs[firstId pkt]? = some c := by
    have := (ha.2.2 (firstId pkt)).mpr rfl
    rw [ExtTreeMap.mem_iff_isSome_getElem?] at this
    exact Option.isSome_iff_exists.mp this
  have hg : gotChannelMsg me m .channelOpenFailure pkt (firstId pkt) c = some d := by
    unfold gotPktFromServer findChannelByUpstream at hg
    dsimp only at hg
    rw [show m.cs.channelsByUs[(BinarySource.ofData pkt).getUint32.1.toNat]? = some c from hc] at hg
    exact hg
  obtain ⟨m1, h1, hg⟩ := Option.bind_eq_some_iff.mp hg
  obtain ⟨out, rfl⟩ := (send_spec h1).send_eq
  obtain ⟨m2, hr, hg⟩ := Option.bind_eq_some_iff.mp hg
  cases hg
  refine ⟨_, rfl, fun hb => ?_⟩
  rw [(removeChannel_spec hr).1] at hb
  have hi := hb hs
  refine absurd hi ?_
  rw [Bool.not_eq_false, idle_iff]
  refine ⟨ha.1, ?_, ha.2.1⟩
  refine ExtTreeMap.eq_empty_iff_forall_not_mem.mpr fun v hv => ?_
  obtain ⟨hv, hne⟩ := mem_erase_nat.mp hv
  exact hne ((ha.2.2 v).mp hv)

theorem setupX11Channel_busy {u : Nat} {auth : X11FakeAuth} {x : X11Setup} (h : Busy m.cs)
    (hx : setupX11Channel me m u auth x = some m') : Busy m'.cs := by
  obtain ⟨chan, window, msgs, cs, out, -, -, -, ha, rfl⟩ := setupX11Channel_spec hx
  obtain ⟨-, -, rfl⟩ := addXchannel_spec ha
  split
  · exact Busy.modify h
  · exact h

/-! ## Events -/

structure Reaped (s : St) : Prop where
  busy : s.Each Busy
  /-- Behind the last packet. -/
  reading : ∀ (a : Nat) cs, s.reading = some a → s.connections[a]? = some cs → Sound cs

theorem Reaped.sound {s : St} {a : Nat} (h : Reaped s) (hr : readable s a = true) (hc : s.connections[a]? = some cs) :
    Sound cs := by
  unfold readable at hr
  rw [hc, Bool.or_eq_true] at hr
  rcases hr with hs | hr
  · exact Sound.of_sock hs
  · exact h.reading a cs (by simpa using hr) hc

/-- No downstream's read goes on. -/
theorem Reaped.outside {s : St} (h : s.Each Busy) : Reaped { s with reading := none } := ⟨h, fun _ _ hr => nomatch hr⟩

theorem step_reaped {s s' : St} {e : Ev} (h : Reaped s) (hok : CompletesCleanup s e) (hs : step s e = some s') : Reaped s' := by
  obtain ⟨-, rfl⟩ | ⟨hp, s1, ha, -, rfl⟩ := step_acted hs
  · exact h
  cases ha with
  | accept => exact .outside (h.busy.accept (Sound.of_sock rfl).busy)
  | packet hr hc hh _ =>
    have hb : ∀ cs, _ = some cs → Sound cs := fun cs hd => hh.sound (h.sound hr hc) hd
    refine ⟨h.busy.after fun cs hd => (hb cs hd).busy, fun a cs hr hc => ?_⟩
    cases hr
    exact hb cs (after_get hc)
  | malformed out _ hc _ ht =>
    refine ⟨h.busy.after fun cs hd => (tryCleanup_sound ht hd).busy, fun a cs hr hc => ?_⟩
    cases hr
    exact tryCleanup_sound ht (after_get hc)
  | closing hc _ ht => exact .outside (h.busy.after fun cs hd => (tryCleanup_sound ht hd).busy)
  | replySharing _ _ hc hg _ =>
    refine .outside (h.busy.after fun cs hd => ?_)
    obtain ⟨globreq, rest, forwardings, out, -, -, hr⟩ := gotGlobreqReply_spec hg
    exact retryCleanup_busy hr hd
  | openSharing _ _ hc hg =>
    refine .outside (h.busy.after fun cs hd => ?_)
    obtain ⟨id, out, rfl⟩ := gotChannelOpen_spec hg
    cases hd
    exact fun hs => idle_eq_false.mpr (Or.inl ExtTreeMap.insertIfNew_ne_empty)
  | msgSharing hch hc hh _ =>
    refine .outside (h.busy.after fun cs hd => ?_)
    exact hh.busy (h.busy _ _ hc) (fun ht => by subst ht; exact hok hp _ _ hch hc) hd
  | handover _ _ hc hx =>
    refine .outside (h.busy.after fun cs hd => ?_)
    cases hd
    exact setupX11Channel_busy (h.busy _ _ hc) hx
  | _ => exact .outside h.busy

theorem step_zombie {s s' : St} {e : Ev} (hok : ¬ CompletesCleanup s e) (hs : step s e = some s') : ¬ s'.Each Busy := by
  unfold CompletesCleanup at hok
  split at hok
  · next pkt =>
    simp only [not_forall, not_not] at hok
    obtain ⟨hp, a, cs, hch, hc, hsock, ha⟩ := hok
    obtain ⟨hp', -⟩ | ⟨-, s1, hacted, -, rfl⟩ := step_acted hs
    · rw [hp] at hp'
      cases hp'
    cases hacted with
    | msgSharing hch' hc' _ hg =>
      cases hch.symm.trans hch'
      cases hc.symm.trans hc'
      obtain ⟨cs', hd, hno⟩ := openFailure_zombie (m := ⟨s.cl, cs⟩) hsock ha hg
      intro hall
      refine hno (hall a cs' ?_)
      simp [St.after, hd]
    | msgOurs ho => cases hch.symm.trans ho
    | msgNone hn => cases hch.symm.trans hn
  · exact absurd trivial hok

/-- A connstate without a socket is registered in every state of a run only while it has a
    half-open channel, a channel or a forwarding left, just when the server never refuses
    the last channel of a downstream that has gone. -/
theorem no_zombie_iff (evs : List Ev) :
    Reaches step (·.Each Busy) St.init evs ↔ Taken step CompletesCleanup St.init evs :=
  reaches_iff_taken (J := Reaped) ⟨fun a cs h => by simp [St.init] at h, fun a cs h => by cases h⟩ (fun _ h => h.busy)
    (fun _ _ _ h hok hs => step_reaped h hok hs) (fun _ _ _ _ hok hs => step_zombie hok hs) evs

/-- A downstream asks for a channel and goes; the server refuses. -/
def refusedLast : List Ev :=
  let open' := putString (text "session") ++ put32BitMsbFirst 7 ++ put32BitMsbFirst 65536 ++ put32BitMsbFirst 32768
  [.accept, .packet 0 .channelOpen open' ⟨none, false, [], []⟩, .closing 0,
    .serverMsg .channelOpenFailure (put32BitMsbFirst 256 ++ put32BitMsbFirst 1 ++ putString [] ++ putString [])]

/-- Nothing is left of it, and it is still registered. -/
theorem zombie_after_open_failure : ¬ ∀ evs, Reaches step (·.Each Busy) St.init evs := by
  intro h
  have hrun : (run step St.init refusedLast).bind (fun s => s.connections[0]?.map fun cs => (cs.sock, cs.idle)) =
      some (false, true) := by decide +kernel
  obtain ⟨s, hs, hf⟩ := Option.bind_eq_some_iff.mp hrun
  obtain ⟨cs, hcs, hf⟩ := Option.map_eq_some_iff.mp hf
  simp only [Prod.mk.injEq] at hf
  have := h refusedLast _ s (List.prefix_refl _) hs 0 cs hcs hf.1
  rw [hf.2] at this
  cases this

end Putty.Share
