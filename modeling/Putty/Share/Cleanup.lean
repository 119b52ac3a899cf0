/-
  Putty.Share.Cleanup — what still refers to a connstate when it is freed (`sshshare.c`,
  share_try_cleanup and share_connstate_free; `ssh2connection.c`, the sharing callbacks).

  The connection layer keeps raw pointers to connstates: as the owner of a channel id, in
  a remote forwarding, and in a queued handler for a global reply. The connstate is freed
  when it has no half-open channel, no channel and no forwarding left, whatever the
  connection layer has.

  What gets out of step: the server refuses a forwarding and its record stays
  (`refused_forwarding_dangles`); an X11 channel is offered, which the freeing condition does
  not count; a channel id is given out for an OPEN that turns out truncated, or for a
  confirmation under a server id that is taken; and the requests that are not remembered
  (`InTurn`). A run without these leaves no pointer to a connstate that has been freed
  (`orderly_runs_leave_nothing_dangling`).
-/

import Putty.Share.Endings
import Putty.Share.Zombies

namespace Putty.Share

open Std Putty.Lib Putty.Utils Putty.Ssh2
open Putty.Ssh2.GlobalRequests (Reply queueGlobalRequestHandler filterReply View)

/-- Every connstate that the connection layer refers to is registered. -/
structure NoDangling (s : St) : Prop where
  channels : ∀ u a : Nat, s.cl.channels[u]? = some (.sharectx a) → a ∈ s.connections
  rportfwds : ∀ (key : FwdKey) (r : SshRportfwd) (a : Nat), s.cl.rportfwds[key]? = some r → r.shareCtx = some a →
    a ∈ s.connections
  globreqs : ∀ a, pending s.cl.globreqs a ≠ [] → a ∈ s.connections

/-- No session ends while an X11 channel that was offered to it is neither accepted nor
    refused, and none is offered after that. -/
def X11Settled (s : St) : Ev → Prop
  | .packet a type pkt env => ∀ cs, s.connections[a]? = some cs → packetEnds cs type pkt env = true → cs.xchannelsByUs = ∅
  | .malformed a _ | .closing a => ∀ cs, s.connections[a]? = some cs → cs.xchannelsByUs = ∅
  | .handover _ x => ∀ auth cs, s.cl.x11authtree[x.auth]? = some auth → s.connections[auth.shareCs]? = some cs →
      cs.sock = true
  | _ => True

/-- No channel id is given out, or kept, without a channel record. -/
def IdsRecorded (s : St) : Ev → Prop
  | .packet a type pkt _ => ∀ cs, s.connections[a]? = some cs →
      (type = .channelOpen → truncatedOpen pkt = false) ∧
      (type = .channelOpenConfirmation → firstId pkt ∈ cs.channelsByServer →
        firstId pkt ∉ cs.halfchannels ∧ findXchannelByServer cs (firstId pkt) = none)
  | _ => True

/-- The server refuses no forwarding. -/
def ForwardsGranted (s : St) : Ev → Prop
  | .globalReply .failure _ => ∀ a cs globreq rest, nextHandler s.cl.globreqs = some (.sharing a) →
      s.connections[a]? = some cs → cs.globreqHead = globreq :: rest → globreq.type = .cancelTcpipForward
  | _ => True

def Orderly (s : St) (e : Ev) : Prop :=
  InTurn s e ∧ (s.protoError = false → X11Settled s e ∧ IdsRecorded s e ∧ ForwardsGranted s e)

/-! ## What a connstate knows of -/

/-- Every channel id that is a connstate's has a record there. -/
def Numbered (a : Nat) (table : Tree Owner) (byUs : Tree Channel) (xbyUs : Tree XChannel) : Prop :=
  ∀ u : Nat, table[u]? = some (.sharectx a) → u ∈ byUs ∨ u ∈ xbyUs

/-- What a reply will be about is there until it comes; a forwarding that is being
    cancelled has lost its record in the connection layer. -/
def Awaited (rportfwds : FwdTree SshRportfwd) (forwardings : FwdTree Forwarding) (globreq : Globreq) : Prop :=
  ∃ f, forwardings[globreq.fwd]? = some f ∧ f.rpf = globreq.rpf ∧
    match globreq.type with
    | .tcpipForward => f.active = false
    | .cancelTcpipForward => ∀ r, rportfwds[globreq.fwd]? = some r → r.addr ≠ f.rpf

/-- The forwardings of a connstate, and its requests about them. -/
structure Remembers (a : Nat) (rportfwds : FwdTree SshRportfwd) (brk : Nat) (forwardings : FwdTree Forwarding)
    (globreqs : List Globreq) : Prop where
  known : ∀ (key : FwdKey) (r : SshRportfwd), rportfwds[key]? = some r → r.shareCtx = some a →
    ∃ f, forwardings[key]? = some f ∧ f.rpf = r.addr
  requests : globreqs = [] ∨ ∃ globreq, globreqs = [globreq] ∧ Awaited rportfwds forwardings globreq
  low : ∀ (key : FwdKey) (f : Forwarding), forwardings[key]? = some f → f.rpf < brk

/-- Everything the connection layer has of the connstate is known to it, and once its
    session has ended no X11 channel is left. -/
structure Accounted (a : Nat) (m : At) : Prop where
  numbered : Numbered a m.cl.channels m.cs.channelsByUs m.cs.xchannelsByUs
  forwards : Remembers a m.cl.rportfwds m.cl.brk m.cs.forwardings m.cs.globreqHead
  settled : m.cs.sock = false → m.cs.xchannelsByUs = ∅

/-- Nothing new refers to any connstate but `o`. -/
structure Adds (o : Option Nat) (cl cl' : ConnectionLayer) : Prop where
  channels : ∀ u b : Nat, some b ≠ o → cl'.channels[u]? = some (.sharectx b) → cl.channels[u]? = some (.sharectx b)
  rportfwds : ∀ (key : FwdKey) (r : SshRportfwd), cl'.rportfwds[key]? = some r →
    cl.rportfwds[key]? = some r ∨ cl.brk ≤ r.addr ∧ ∀ b, r.shareCtx = some b → some b = o
  brk : cl.brk ≤ cl'.brk

/-- Nothing refers to `a`. -/
def Stray (cl : ConnectionLayer) (a : Nat) : Prop :=
  (∀ u : Nat, cl.channels[u]? ≠ some (.sharectx a)) ∧
    ∀ (key : FwdKey) (r : SshRportfwd), cl.rportfwds[key]? = some r → r.shareCtx ≠ some a

variable {a : Nat} {o : Option Nat} {m m1 : At} {d : Done} {cl cl' cl'' : ConnectionLayer} {cs : ConnState} {u : Nat}
  {type : Msg} {pkt : List UInt8}

namespace Adds

theorem refl (o : Option Nat) (cl : ConnectionLayer) : Adds o cl cl := ⟨fun _ _ _ => id, fun _ _ => Or.inl, Nat.le_refl _⟩

theorem of_eq (h1 : cl'.channels = cl.channels) (h2 : cl'.rportfwds = cl.rportfwds) (h3 : cl.brk ≤ cl'.brk) :
    Adds o cl cl' := by
  refine ⟨fun u b _ h => ?_, fun key r h => Or.inl ?_, h3⟩
  · rwa [h1] at h
  · rwa [h2] at h

theorem trans (h : Adds o cl cl') (h' : Adds o cl' cl'') : Adds o cl cl'' := by
  refine ⟨fun u b hb hu => h.channels u b hb (h'.channels u b hb hu), fun key r hr => ?_, Nat.le_trans h.brk h'.brk⟩
  obtain hr | ⟨hnew, hb⟩ := h'.rportfwds key r hr
  · exact h.rportfwds key r hr
  · exact Or.inr ⟨Nat.le_trans h.brk hnew, hb⟩

theorem erase_channel : Adds o cl (cl.deleteSharingChannel u) := by
  refine ⟨fun v b _ hv => ?_, fun _ _ => Or.inl, Nat.le_refl _⟩
  have hv : (cl.channels.erase u)[v]? = some (.sharectx b) := hv
  rw [get_erase] at hv
  split at hv
  · cases hv
  · exact hv

theorem erase_rportfwd {key : FwdKey} : Adds o cl { cl with rportfwds := cl.rportfwds.erase key } := by
  refine ⟨fun _ _ _ => id, fun k r hr => Or.inl ?_, Nat.le_refl _⟩
  have hr : (cl.rportfwds.erase key)[k]? = some r := hr
  rw [get_erase_fwd] at hr
  split at hr
  · cases hr
  · exact hr

theorem withNew : Adds (some a) cl (cl.withNew a) := by
  refine ⟨fun u b hb hu => ?_, fun _ _ => Or.inl, Nat.le_refl _⟩
  have hu : (cl.channels.insertIfNew cl.allocChannelId (.sharectx a))[u]? = some (.sharectx b) := hu
  rw [ExtTreeMap.getElem?_insertIfNew] at hu
  split at hu
  · cases hu
    exact absurd rfl hb
  · exact hu

end Adds

theorem Remembers.mono {rportfwds : FwdTree SshRportfwd} {brk brk' : Nat} {forwardings : FwdTree Forwarding}
    {globreqs : List Globreq} (h : Remembers a rportfwds brk forwardings globreqs) (hb : brk ≤ brk') :
    Remembers a rportfwds brk' forwardings globreqs :=
  ⟨h.known, h.requests, fun key f hf => Nat.lt_of_lt_of_le (h.low key f hf) hb⟩

/-- The connection layer changes for somebody else. -/
theorem Accounted.frame (h : Accounted a ⟨cl, cs⟩) (ho : Adds o cl cl') (ha : some a ≠ o) : Accounted a ⟨cl', cs⟩ := by
  refine ⟨fun u hu => h.numbered u (ho.channels u a ha hu), ⟨fun key r hr hctx => ?_, ?_, ?_⟩, h.settled⟩
  · obtain hr | ⟨-, hb⟩ := ho.rportfwds key r hr
    · exact h.forwards.known key r hr hctx
    · exact absurd (hb a hctx) ha
  · obtain hn | ⟨globreq, hg, f, hf, hrpf, hm⟩ := h.forwards.requests
    · exact Or.inl hn
    · refine Or.inr ⟨globreq, hg, f, hf, hrpf, ?_⟩
      split at hm
      · exact hm
      · intro r hr
        obtain hr | ⟨hnew, -⟩ := ho.rportfwds _ r hr
        · exact hm r hr
        · exact Nat.ne_of_gt (Nat.lt_of_lt_of_le (h.forwards.low _ f hf) hnew)
  · exact fun key f hf => Nat.lt_of_lt_of_le (h.forwards.low key f hf) ho.brk

theorem Stray.frame (h : Stray cl a) (ho : Adds o cl cl') (ha : some a ≠ o) : Stray cl' a := by
  refine ⟨fun u hu => h.1 u (ho.channels u a ha hu), fun key r hr hctx => ?_⟩
  obtain hr | ⟨-, hb⟩ := ho.rportfwds key r hr
  · exact h.2 key r hr hctx
  · exact ha (hb a hctx)

/-! ## The cleanup -/

theorem Numbered.mono {table : Tree Owner} {byUs byUs' : Tree Channel} {xbyUs xbyUs' : Tree XChannel}
    (h : Numbered a table byUs xbyUs) (hb : ∀ u : Nat, u ∈ byUs → u ∈ byUs') (hx : ∀ u : Nat, u ∈ xbyUs → u ∈ xbyUs') :
    Numbered a table byUs' xbyUs' := fun u hu => (h u hu).imp (hb u) (hx u)

/-- An id goes with what was under it. -/
theorem Numbered.erase {table : Tree Owner} {byUs byUs' : Tree Channel} {xbyUs xbyUs' : Tree XChannel}
    (h : Numbered a table byUs xbyUs) (hb : ∀ v : Nat, v ≠ u → v ∈ byUs → v ∈ byUs')
    (hx : ∀ v : Nat, v ≠ u → v ∈ xbyUs → v ∈ xbyUs') : Numbered a (table.erase u) byUs' xbyUs' := by
  intro v hv
  rw [get_erase] at hv
  split at hv
  · cases hv
  · next hne => exact (h v hv).imp (hb v (Ne.symm hne)) (hx v (Ne.symm hne))

theorem cleanupChannel_accounted (h : Accounted a m) (hc : cleanupChannel a m u = some m1) :
    Accounted a m1 ∧ Adds (some a) m.cl m1.cl := by
  obtain ⟨rfl, -⟩ | ⟨c, out, -, -, rfl⟩ | ⟨c, out, x11, -, -, rfl⟩ := cleanupChannel_spec hc
  · exact ⟨h, .refl _ _⟩
  · exact ⟨⟨h.numbered.mono (fun v hv => mem_modify.mpr hv) fun _ => id, h.forwards, h.settled⟩, .of_eq rfl rfl (Nat.le_refl _)⟩
  · exact ⟨⟨h.numbered.erase (fun v hne hv => mem_erase_nat.mpr ⟨hv, hne⟩) fun _ _ => id, h.forwards, h.settled⟩,
      Adds.erase_channel.trans (.of_eq rfl rfl (Nat.le_refl _))⟩

/-- What goes with its record is not what a reply is waited for about. -/
theorem cleanupForwarding_accounted {key : FwdKey} (h : Accounted a m) (hc : cleanupForwarding a m key = some m1) :
    Accounted a m1 ∧ Adds (some a) m.cl m1.cl := by
  obtain ⟨rfl, -⟩ | ⟨f, rpf, out, hf, hact, hr, haddr, rfl⟩ := cleanupForwarding_spec hc
  · exact ⟨h, .refl _ _⟩
  · refine ⟨⟨h.numbered, ⟨fun k r hk hctx => ?_, ?_, fun k f' hk => ?_⟩, h.settled⟩,
      Adds.erase_rportfwd.trans (.of_eq rfl rfl (Nat.le_refl _))⟩
    · have hk : (m.cl.rportfwds.erase key)[k]? = some r := hk
      rw [get_erase_fwd] at hk
      split at hk
      · cases hk
      · next hne =>
        obtain ⟨f', hf', he⟩ := h.forwards.known k r hk hctx
        refine ⟨f', ?_, he⟩
        show (m.cs.forwardings.erase key)[k]? = _
        rw [get_erase_fwd, if_neg hne, hf']
    · obtain hn | ⟨globreq, hg, f', hf', hrpf, hm⟩ := h.forwards.requests
      · exact Or.inl hn
      · have hne : key ≠ globreq.fwd := by
          rintro rfl
          cases hf.symm.trans hf'
          split at hm
          · rw [hact] at hm
            cases hm
          · exact hm rpf hr haddr
        refine Or.inr ⟨globreq, hg, f', ?_, hrpf, ?_⟩
        · show (m.cs.forwardings.erase key)[globreq.fwd]? = _
          rw [get_erase_fwd, if_neg hne, hf']
        · split at hm
          · exact hm
          · intro r hr'
            have hr' : (m.cl.rportfwds.erase key)[globreq.fwd]? = some r := hr'
            rw [get_erase_fwd, if_neg hne] at hr'
            exact hm r hr'
    · have hk : (m.cs.forwardings.erase key)[k]? = some f' := hk
      rw [get_erase_fwd] at hk
      split at hk
      · cases hk
      · exact h.forwards.low k f' hk

/-- What a call for one connstate leaves: an account of it, or nothing that refers to it. -/
structure Settles (a : Nat) (m : At) (d : Done) : Prop where
  adds : Adds (some a) m.cl d.1
  stays : ∀ cs, d.2 = some cs → Accounted a ⟨d.1, cs⟩
  goes : d.2 = none → Stray d.1 a ∧ m.cs.globreqHead = []

theorem Accounted.settles {n : At} (h : Accounted a n) (ho : Adds (some a) m.cl n.cl) : Settles a m n.done :=
  ⟨ho, fun cs hd => by cases hd; exact h, fun hd => nomatch hd⟩

/-- An idle connstate whose session has ended is not referred to any more. -/
theorem Accounted.stray (h : Accounted a m) (hs : m.cs.sock = false) (hi : m.cs.idle = true) :
    Stray m.cl a ∧ m.cs.globreqHead = [] := by
  obtain ⟨-, hch, hfw⟩ := idle_iff.mp hi
  refine ⟨⟨fun u hu => ?_, fun key r hr hctx => ?_⟩, ?_⟩
  · rcases h.numbered u hu with hm | hm
    · simp [hch] at hm
    · simp [h.settled hs] at hm
  · obtain ⟨f, hf, -⟩ := h.forwards.known key r hr hctx
    simp [hfw] at hf
  · obtain hn | ⟨globreq, -, f, hf, -⟩ := h.forwards.requests
    · exact hn
    · simp [hfw] at hf

theorem tryCleanup_settles (h : Accounted a m) (hs : m.cs.sock = false) (hc : tryCleanup a m = some d) : Settles a m d := by
  obtain ⟨m2, ⟨h2, ho, hs2, hg⟩, rfl⟩ := tryCleanup_ends
    (P := fun m' => Accounted a m' ∧ Adds (some a) m.cl m'.cl ∧ m'.cs.sock = false ∧ m'.cs.globreqHead = m.cs.globreqHead)
    (fun m1 h1 => by
      obtain ⟨out, he⟩ := cleanupHalfchannels_spec a m1
      rw [he]
      exact ⟨⟨h1.1.numbered, h1.1.forwards, h1.1.settled⟩, h1.2.1.trans (.of_eq rfl rfl (Nat.le_refl _)), h1.2.2⟩)
    (fun m1 u m' h1 hu => by
      obtain ⟨h2, ho⟩ := cleanupChannel_accounted h1.1 hu
      refine ⟨h2, h1.2.1.trans ho, ?_⟩
      obtain ⟨rfl, -⟩ | ⟨c, out, -, -, rfl⟩ | ⟨c, out, x11, -, -, rfl⟩ := cleanupChannel_spec hu
      · exact h1.2.2
      · exact h1.2.2
      · exact h1.2.2)
    (fun m1 key m' h1 hk => by
      obtain ⟨h2, ho⟩ := cleanupForwarding_accounted h1.1 hk
      refine ⟨h2, h1.2.1.trans ho, ?_⟩
      obtain ⟨rfl, -⟩ | ⟨f, rpf, out, -, -, -, -, rfl⟩ := cleanupForwarding_spec hk
      · exact h1.2.2
      · exact h1.2.2)
    ⟨h, .refl _ _, hs, rfl⟩ hc
  refine ⟨ho, fun cs hd => ?_, fun hd => ?_⟩
  · dsimp only at hd
    split at hd
    · cases hd
    · cases hd
      exact h2
  · dsimp only at hd
    split at hd
    · next hi =>
      obtain ⟨hstray, hnone⟩ := h2.stray hs2 hi
      exact ⟨hstray, hg.symm.trans hnone⟩
    · cases hd

theorem retryCleanup_settles (h : Accounted a m) (hc : retryCleanup a m = some d) : Settles a m d := by
  unfold retryCleanup at hc
  split at hc
  · cases hc
    exact h.settles (.refl _ _)
  · next hs => exact tryCleanup_settles h (eq_false_of_ne_true hs) hc

theorem Settles.after (h : Settles a m1 d) (ho : Adds (some a) m.cl m1.cl) (hg : m1.cs.globreqHead = m.cs.globreqHead) :
    Settles a m d :=
  ⟨ho.trans h.adds, h.stays, fun hd => ⟨(h.goes hd).1, hg.symm.trans (h.goes hd).2⟩⟩

/-- The session ends with no X11 channel left. -/
theorem Accounted.closeSock (h : Accounted a m) (hx : m.cs.xchannelsByUs = ∅) : Accounted a m.closeSock :=
  ⟨h.numbered, h.forwards, fun _ => hx⟩

/-! ## Packets of the downstream -/

/-- A channel gets its record, if no other one has its server id. -/
theorem addChannel_records (m : At) (dn u k : Nat) (state : ChanState) (maxpkt : UInt32)
    (hk : state ≠ .unacknowledged → k ∉ m.cs.channelsByServer) :
    ∃ byUs byServer, (addChannel m dn u k state maxpkt).2 =
        ⟨{ m.cl with brk := m.cl.brk + 1 }, { m.cs with channelsByUs := byUs, channelsByServer := byServer }⟩ ∧
      u ∈ byUs ∧ ∀ v : Nat, v ∈ m.cs.channelsByUs → v ∈ byUs := by
  obtain ⟨o, cs, he, ⟨-, rfl, hcoll⟩ | ⟨-, -, -, rfl⟩⟩ := addChannel_spec m dn u k state maxpkt
  · refine ⟨m.cs.channelsByUs, m.cs.channelsByServer, by rw [he], ?_, fun _ => id⟩
    rcases hcoll with hu | ⟨hst, hm⟩
    · exact hu
    · exact absurd hm (hk hst)
  · exact ⟨_, _, by rw [he], ExtTreeMap.mem_insert_self, fun v hv => ExtTreeMap.mem_insert.mpr (Or.inr hv)⟩

theorem Numbered.withNew {byUs byUs' : Tree Channel} {xbyUs : Tree XChannel} (h : Numbered a cl.channels byUs xbyUs)
    (hu : cl.allocChannelId ∈ byUs') (hb : ∀ v : Nat, v ∈ byUs → v ∈ byUs') : Numbered a (cl.withNew a).channels byUs' xbyUs := by
  intro v hv
  have hv : (cl.channels.insertIfNew cl.allocChannelId (.sharectx a))[v]? = some (.sharectx a) := hv
  rw [ExtTreeMap.getElem?_insertIfNew] at hv
  split at hv
  · next he =>
    cases Std.compare_eq_iff_eq.mp he.1
    exact Or.inl hu
  · exact (h v hv).imp_left (hb v)

theorem XAnswer.settles {k : Nat} (h : Accounted a m) (ha : XAnswer m u k m1) : Settles a m m1.done := by
  cases ha with
  | stays out xs hx =>
    refine Accounted.settles ⟨h.numbered.mono (fun _ => id) fun v hv => (hx v).mpr hv, h.forwards, fun hs => ?_⟩
      (.of_eq rfl rfl (Nat.le_refl _))
    exact ExtTreeMap.eq_empty_iff_forall_not_mem.mpr fun v hv => by simpa [h.settled hs] using (hx v).mp hv
  | goes out xs hx =>
    refine Accounted.settles ⟨h.numbered.erase (fun _ _ => id) fun v hne hv => (hx v).mpr ⟨hv, hne⟩, h.forwards, fun hs => ?_⟩
      (Adds.erase_channel.trans (.of_eq rfl rfl (Nat.le_refl _)))
    exact ExtTreeMap.eq_empty_iff_forall_not_mem.mpr fun v hv => by simpa [h.settled hs] using ((hx v).mp hv).1

/-- A channel and its id go together. -/
theorem removeChannel_accounted {c : Channel} {out : List Out} (h : Accounted a m)
    (hr : removeChannel (At.send ⟨m.cl.deleteSharingChannel u, m.cs⟩ out) u c = some m1) :
    Accounted a m1 ∧ Adds (some a) m.cl m1.cl := by
  obtain ⟨h1, x11, h2⟩ := removeChannel_spec hr
  obtain ⟨cl, cs⟩ := m1
  cases h1
  cases h2
  exact ⟨⟨h.numbered.erase (fun v hne hv => mem_erase_nat.mpr ⟨hv, hne⟩) fun _ _ => id, h.forwards, h.settled⟩,
    Adds.erase_channel.trans (.of_eq rfl rfl (Nat.le_refl _))⟩

theorem Accounted.modify {f : Channel → Channel} (h : Accounted a m) : Accounted a ⟨m.cl, modifyChannel m.cs u f⟩ :=
  ⟨h.numbered.mono (fun _ hv => mem_modify.mpr hv) fun _ => id, h.forwards, h.settled⟩

theorem found_mem {k : Nat} {xc : XChannel} (h : findXchannelByServer cs k = some xc) : cs.xchannelsByUs ≠ ∅ := by
  obtain ⟨v, -, hv⟩ := Option.bind_eq_some_iff.mp h
  exact ne_empty_of_mem (mem_of_get hv)

/-- What ends in a cleanup is a packet that ends its session. -/
theorem packetEnds_of_cleanup {env : Env} {n : At} (hg : gotPktFromDownstream a m type pkt env = some d) (hs : m.cs.sock = true)
    (hc : tryCleanup a n.closeSock = some d) : packetEnds m.cs type pkt env = true := by
  obtain ⟨he, -⟩ | ⟨-, cs, hd, hcs⟩ := gotPktFromDownstream_outcome hg
  · exact he
  · have := tryCleanup_sock hc hd
    rw [hcs, hs] at this
    cases this

theorem Handled.settles {env : Env} (ht : type ≠ .globalRequest) (h : Accounted a m)
    (hx : packetEnds m.cs type pkt env = true → m.cs.xchannelsByUs = ∅)
    (hopen : type = .channelOpen → truncatedOpen pkt = false)
    (hconf : type = .channelOpenConfirmation → firstId pkt ∈ m.cs.channelsByServer →
      firstId pkt ∉ m.cs.halfchannels ∧ findXchannelByServer m.cs (firstId pkt) = none)
    (hg : gotPktFromDownstream a m type pkt env = some d) (hh : Handled a m type pkt d) : Settles a m d := by
  have hbrk : m.cl.brk ≤ m.cl.brk + 1 := Nat.le_succ _
  cases hh with
  | quiet out => exact Accounted.settles (n := m.send out) ⟨h.numbered, h.forwards, h.settled⟩ (.of_eq rfl rfl (Nat.le_refl _))
  | ended out hs hc =>
    have hempty := hx (packetEnds_of_cleanup (n := m.send out) hg hs hc)
    exact (tryCleanup_settles (m := (m.send out).closeSock) ⟨h.numbered, h.forwards, fun _ => hempty⟩ rfl hc).after
      (.of_eq rfl rfl (Nat.le_refl _)) rfl
  | openTruncated out hto he _ _ =>
    rw [hopen hto] at he
    cases he
  | opened oldId maxpkt out _ _ =>
    obtain ⟨byUs, byServer, he, hu, hsub⟩ := addChannel_records ⟨m.cl.withNew a, m.cs⟩ oldId m.cl.allocChannelId 0
      .unacknowledged maxpkt fun hn => absurd rfl hn
    rw [he]
    exact Accounted.settles ⟨h.numbered.withNew hu hsub, h.forwards.mono hbrk, h.settled⟩
      (Adds.withNew.trans (.of_eq rfl rfl hbrk))
  | confirmedHalf oldId maxpkt m1 out htc hk hm =>
    obtain ⟨byUs, byServer, he, hu, hsub⟩ := addChannel_records ⟨m.cl.withNew a, m.cs⟩ oldId m.cl.allocChannelId
      (firstId pkt) .opened maxpkt fun _ hm => (hconf htc hm).1 hk
    rw [he] at hm
    subst hm
    exact Accounted.settles ⟨h.numbered.withNew hu hsub, h.forwards.mono hbrk, h.settled⟩
      (Adds.withNew.trans (.of_eq rfl rfl hbrk))
  | confirmedX xc oldId maxpkt chan m1 m2 window htc hf ha hxc =>
    obtain ⟨byUs, byServer, he, hu, hsub⟩ := addChannel_records m oldId xc.upstreamId (firstId pkt) .opened maxpkt
      fun _ hm => by
        have := (hconf htc hm).2
        rw [hf] at this
        cases this
    rw [ha] at he
    dsimp only at he
    subst he
    obtain ⟨out, rfl⟩ := xchannelConfirmation_spec hxc
    refine Accounted.settles ⟨fun v hv => ?_, h.forwards.mono hbrk, fun hs => ?_⟩ (.of_eq rfl rfl hbrk)
    · by_cases hv' : v = xc.upstreamId
      · exact Or.inl (hv' ▸ hu)
      · refine (h.numbered v hv).imp (hsub v) fun hm => ?_
        exact mem_erase_nat.mpr ⟨mem_modify.mpr hm, hv'⟩
    · exact absurd (h.settled hs) (found_mem hf)
  | windowTooSmall xc oldId maxpkt chan m1 out htc hf ha hs hc =>
    have hsock : m.cs.sock = true := by
      have : (addChannel m oldId xc.upstreamId (firstId pkt) .opened maxpkt).2.cs.sock = m.cs.sock := addChannel_sock
      rw [ha] at this
      exact this.symm.trans hs
    exact absurd (hx (packetEnds_of_cleanup (n := m1.send out) hg hsock hc)) (found_mem hf)
  | refusedHalf out _ _ =>
    exact Accounted.settles (n := At.send ⟨m.cl, removeHalfchannel m.cs (firstId pkt)⟩ out)
      ⟨h.numbered, h.forwards, h.settled⟩ (.of_eq rfl rfl (Nat.le_refl _))
  | refusedX xc _ _ => exact xchannelFailure_answer.settles h
  | forwarded _ _ _ _ _ _ _ hgr => exact absurd hgr ht
  | cancelled _ _ _ _ _ _ _ hgr => exact absurd hgr ht
  | closedBoth u chan out m1 _ _ _ hr =>
    obtain ⟨h1, ho⟩ := removeChannel_accounted h hr
    exact h1.settles ho
  | closed u chan out _ _ _ =>
    exact Accounted.settles (n := At.send ⟨m.cl, modifyChannel m.cs u _⟩ out)
      ⟨h.modify.numbered, h.forwards, h.settled⟩ (.of_eq rfl rfl (Nat.le_refl _))
  | x11 u chan single out _ _ =>
    exact Accounted.settles ⟨h.modify.numbered, h.forwards.mono hbrk, h.settled⟩ (.of_eq rfl rfl hbrk)

/-! ## Global requests -/

theorem get_insert_fwd {V : Type} {t : FwdTree V} {k l : FwdKey} {v : V} :
    (t.insert k v)[l]? = if k = l then some v else t[l]? := by
  rw [ExtTreeMap.getElem?_insert]
  exact if_congr LawfulEqCmp.compare_eq_iff_eq rfl rfl

theorem pushGlobreq_alone {globreq : Globreq} (h : cs.globreqHead = []) :
    pushGlobreq cs globreq = { cs with globreqHead := [globreq] } := by
  unfold pushGlobreq
  split
  · rw [h]
    rfl
  · rfl

variable {env : Env} {key : FwdKey} {wantReply : Bool} {reply : Reply}

theorem Remembers.forward {n : Nat} (h : Remembers a m.cl.rportfwds m.cl.brk m.cs.forwardings []) :
    Remembers a (m.cl.rportfwds.insert key ⟨m.cl.brk, some a⟩) (m.cl.brk + 1) (m.cs.forwardings.insert key ⟨false, m.cl.brk⟩)
      [⟨.tcpipForward, wantReply, key, m.cl.brk, n⟩] := by
  refine ⟨fun k r hr hctx => ?_, Or.inr ⟨_, rfl, ⟨false, m.cl.brk⟩, ?_, rfl, rfl⟩, fun k f hf => ?_⟩
  · rw [get_insert_fwd] at hr
    split at hr
    · next he =>
      cases hr
      exact ⟨⟨false, m.cl.brk⟩, by rw [get_insert_fwd, if_pos he], rfl⟩
    · next hne =>
      obtain ⟨f, hf, he⟩ := h.known k r hr hctx
      exact ⟨f, by rw [get_insert_fwd, if_neg hne, hf], he⟩
  · rw [get_insert_fwd, if_pos rfl]
  · rw [get_insert_fwd] at hf
    split at hf
    · cases hf
      exact Nat.lt_succ_self _
    · exact Nat.lt_succ_of_lt (h.low k f hf)

theorem Remembers.cancel {fwd : Forwarding} {n : Nat} (h : Remembers a m.cl.rportfwds m.cl.brk m.cs.forwardings [])
    (hf : m.cs.forwardings[key]? = some fwd) :
    Remembers a (m.cl.rportfwds.erase key) m.cl.brk m.cs.forwardings [⟨.cancelTcpipForward, wantReply, key, fwd.rpf, n⟩] := by
  refine ⟨fun k r hr hctx => ?_, Or.inr ⟨_, rfl, fwd, hf, rfl, fun r hr => ?_⟩, h.low⟩
  · rw [get_erase_fwd] at hr
    split at hr
    · cases hr
    · exact h.known k r hr hctx
  · rw [get_erase_fwd, if_pos rfl] at hr
    cases hr

theorem Adds.forward {globreqs : GlobalRequests.St Handler} {out : List Out} :
    Adds (some a) cl { cl with
      brk := cl.brk + 1
      rportfwds := cl.rportfwds.insert key ⟨cl.brk, some a⟩
      globreqs
      out } := by
  refine ⟨fun _ _ _ => id, fun k r hr => ?_, Nat.le_succ _⟩
  have hr : (cl.rportfwds.insert key ⟨cl.brk, some a⟩)[k]? = some r := hr
  rw [get_insert_fwd] at hr
  split at hr
  · cases hr
    exact Or.inr ⟨Nat.le_refl _, fun b hb => hb.symm⟩
  · exact Or.inl hr

/-- A request that is passed on in its turn is remembered. -/
theorem globalRequest_settles (h : Accounted a m) (hx : packetEnds m.cs .globalRequest pkt env = true → m.cs.xchannelsByUs = ∅)
    (hturn : (∀ key, forwardOf pkt = some key → key ∉ m.cl.rportfwds → key ∉ m.cs.forwardings ∧ m.cs.globreqHead = []) ∧
      ∀ key, cancelOf pkt = some key → key ∈ m.cs.forwardings → m.cs.globreqHead = [])
    (hg : globalRequest a m pkt env = some d) : Settles a m d := by
  have hquiet : ∀ out, d = (m.send out).done → Settles a m d := fun out he =>
    he ▸ Accounted.settles (n := m.send out) ⟨h.numbered, h.forwards, h.settled⟩ (.of_eq rfl rfl (Nat.le_refl _))
  obtain ⟨key, wantReply, pos, hf, -, he⟩ | ⟨key, wantReply, pos, -, hf, he⟩ | ⟨-, -, ⟨err, he⟩ | ⟨wantReply, he⟩⟩ :=
    globalRequest_cases a m pkt env
  · rw [he] at hg
    obtain ⟨-, out, hd⟩ | ⟨hk, globreqs, out, -, rfl⟩ := forwardRequest_spec hg
    · exact hquiet out hd
    · obtain ⟨hkey, hnone⟩ := hturn.1 key hf hk
      rw [if_neg hkey, pushGlobreq_alone (by exact hnone)]
      have hfw := h.forwards
      rw [hnone] at hfw
      exact ⟨.forward, fun cs hd => by cases hd; exact ⟨h.numbered, hfw.forward, h.settled⟩, fun hd => nomatch hd⟩
  · rw [he] at hg
    obtain ⟨-, out, hd⟩ | ⟨fwd, r, globreqs, out, hfwd, -, -, -, rfl⟩ := cancelRequest_spec hg
    · exact hquiet out hd
    · have hkey : key ∈ m.cs.forwardings := by
        rw [ExtTreeMap.mem_iff_isSome_getElem?]
        exact Option.isSome_iff_exists.mpr ⟨fwd, hfwd⟩
      have hnone := hturn.2 key hf hkey
      rw [pushGlobreq_alone hnone]
      have hfw := h.forwards
      rw [hnone] at hfw
      exact ⟨Adds.erase_rportfwd.trans (.of_eq rfl rfl (Nat.le_refl _)),
        fun cs hd => by cases hd; exact ⟨h.numbered, hfw.cancel hfwd, h.settled⟩, fun hd => nomatch hd⟩
  · have hends := hg
    rw [he] at hg
    obtain ⟨hs, out, ht⟩ := shareDisconnect_spec hg
    have hempty := hx (packetEnds_of_cleanup (n := m.send out) (by exact hends) hs ht)
    exact (tryCleanup_settles (m := (m.send out).closeSock) ⟨h.numbered, h.forwards, fun _ => hempty⟩ rfl ht).after
      (.of_eq rfl rfl (Nat.le_refl _)) rfl
  · rw [he] at hg
    obtain ⟨out, hd⟩ := refuseRequest_spec hg
    exact hquiet out hd

/-! ## Messages of the server -/

theorem Served.settles (h : Accounted a m) (hh : Served a m type pkt d) : Settles a m d := by
  cases hh with
  | quiet out => exact Accounted.settles (n := m.send out) ⟨h.numbered, h.forwards, h.settled⟩ (.of_eq rfl rfl (Nat.le_refl _))
  | acknowledged c out _ _ _ _ hr =>
    exact (retryCleanup_settles (m := At.send ⟨m.cl, channelSetServerId m.cs (firstId pkt) (senderId pkt) .opened⟩ out)
      ⟨h.modify.numbered, h.forwards, h.settled⟩ hr).after (.of_eq rfl rfl (Nat.le_refl _)) rfl
  | openFailed c out m1 _ _ hr =>
    obtain ⟨h1, ho⟩ := removeChannel_accounted h hr
    exact h1.settles ho
  | closedBoth c out m1 _ _ _ hr hb =>
    obtain ⟨h1, ho⟩ := removeChannel_accounted h hr
    refine (retryCleanup_settles h1 hb).after ho ?_
    rw [(removeChannel_spec hr).1]
    rfl
  | closed c out _ _ _ =>
    exact Accounted.settles (n := At.send ⟨m.cl, modifyChannel m.cs (firstId pkt) _⟩ out)
      ⟨h.modify.numbered, h.forwards, h.settled⟩ (.of_eq rfl rfl (Nat.le_refl _))
  | xchannel xc _ _ => exact gotXchannelMsg_answer.settles h

/-- A reply settles the one request there is. -/
theorem gotGlobreqReply_settles (h : Accounted a m)
    (hgranted : reply = .failure → ∀ globreq rest, m.cs.globreqHead = globreq :: rest → globreq.type = .cancelTcpipForward)
    (hg : gotGlobreqReply a m reply pkt = some d) :
    Adds (some a) m.cl d.1 ∧ (∀ cs, d.2 = some cs → Accounted a ⟨d.1, cs⟩) ∧ (d.2 = none → Stray d.1 a) ∧
      m.cs.globreqHead.tail = [] := by
  obtain ⟨globreq, rest, forwardings, out, he, hset, hr⟩ := gotGlobreqReply_spec hg
  have hfw := h.forwards
  rw [he] at hfw
  obtain ⟨hrest, f, hf, hrpf, hm⟩ : rest = [] ∧ Awaited m.cl.rportfwds m.cs.forwardings globreq := by
    obtain hn | ⟨globreq', hl, haw⟩ := hfw.requests
    · cases hn
    · cases hl
      exact ⟨rfl, haw⟩
  subst hrest
  have hnew : Remembers a m.cl.rportfwds m.cl.brk forwardings [] := by
    unfold settleForwarding at hset
    split at hset
    · cases hset
      exact ⟨hfw.known, Or.inl rfl, hfw.low⟩
    · next htype _ =>
      obtain ⟨f', hf', hset⟩ := Option.bind_eq_some_iff.mp hset
      obtain ⟨hf', -⟩ := Option.filter_eq_some_iff.mp hf'
      cases hf.symm.trans hf'
      cases hset
      refine ⟨fun k r hk hctx => ?_, Or.inl rfl, fun k f' hk => ?_⟩
      · obtain ⟨f', hf', hrp⟩ := hfw.known k r hk hctx
        by_cases hkey : globreq.fwd = k
        · cases hkey
          cases hf.symm.trans hf'
          exact ⟨{ f with active := true }, by rw [get_insert_fwd, if_pos rfl], hrp⟩
        · exact ⟨f', by rw [get_insert_fwd, if_neg hkey, hf'], hrp⟩
      · rw [get_insert_fwd] at hk
        split at hk
        · cases hk
          exact hfw.low _ f hf
        · exact hfw.low k f' hk
    · next htype =>
      exact absurd (hgranted rfl globreq [] he) (by rw [htype]; simp)
    · next htype =>
      obtain ⟨f', -, hset⟩ := Option.bind_eq_some_iff.mp hset
      cases hset
      rw [htype] at hm
      refine ⟨fun k r hk hctx => ?_, Or.inl rfl, fun k f' hk => ?_⟩
      · obtain ⟨f', hf', hrp⟩ := hfw.known k r hk hctx
        refine ⟨f', ?_, hrp⟩
        rw [get_erase_fwd, if_neg, hf']
        rintro rfl
        cases hf.symm.trans hf'
        exact hm r hk hrp.symm
      · rw [get_erase_fwd] at hk
        split at hk
        · cases hk
        · exact hfw.low k f' hk
  have hs := retryCleanup_settles (m := At.send ⟨m.cl, { m.cs with
    forwardings
    globreqHead := []
    globreqTail := if ([] : List Globreq) = [] then none else m.cs.globreqTail }⟩ out) ⟨h.numbered, hnew, h.settled⟩ hr
  have ho : Adds (some a) m.cl { m.cl with out := m.cl.out ++ out } := .of_eq rfl rfl (Nat.le_refl _)
  exact ⟨ho.trans hs.adds, hs.stays, fun hd => (hs.goes hd).1, by rw [he]; rfl⟩

/-- A channel handed over is recorded with its id. -/
theorem setupX11Channel_settles {auth : X11FakeAuth} {x : X11Setup} (h : Accounted a ⟨cl, cs⟩) (hs : cs.sock = true)
    (hx : setupX11Channel a ⟨{ cl with channels := cl.channels.insert u (.sharectx a) }, cs⟩ u auth x = some m1) :
    Settles a ⟨cl, cs⟩ m1.done := by
  obtain ⟨chan, window, msgs, cs1, out, -, -, -, ha, rfl⟩ := setupX11Channel_spec hx
  obtain ⟨-, -, rfl⟩ := addXchannel_spec ha
  have hn : Numbered a (cl.channels.insert u (.sharectx a)) cs.channelsByUs
      (cs.xchannelsByUs.insert u ⟨u, x.remoteid, true, window, msgs⟩) := by
    intro v hv
    rw [get_insert] at hv
    split at hv
    · next he => exact Or.inr (he ▸ ExtTreeMap.mem_insert_self)
    · exact (h.numbered v hv).imp_right fun hm => ExtTreeMap.mem_insert.mpr (Or.inr hm)
  have ho : Adds (some a) cl { cl with channels := cl.channels.insert u (.sharectx a) } := by
    refine ⟨fun v b hb hv => ?_, fun _ _ => Or.inl, Nat.le_refl _⟩
    have hv : (cl.channels.insert u (.sharectx a))[v]? = some (.sharectx b) := hv
    rw [get_insert] at hv
    split at hv
    · cases hv
      exact absurd rfl hb
    · exact hv
  have hopen : cs.sock = false → cs.xchannelsByUs.insert u ⟨u, x.remoteid, true, window, msgs⟩ = ∅ := fun he => by
    rw [hs] at he
    cases he
  split
  · exact Accounted.settles (n := At.send ⟨_, modifyChannel _ _ _⟩ out)
      ⟨hn.mono (fun _ hv => mem_modify.mpr hv) fun _ => id, h.forwards, hopen⟩ (ho.trans (.of_eq rfl rfl (Nat.le_refl _)))
  · exact Accounted.settles ⟨hn, h.forwards, hopen⟩ (ho.trans (.of_eq rfl rfl (Nat.le_refl _)))

/-! ## Events -/

structure Anchored (s : St) : Prop where
  each : ∀ (a : Nat) cs, s.connections[a]? = some cs → Accounted a ⟨s.cl, cs⟩
  strays : ∀ a : Nat, a ∉ s.connections → Stray s.cl a ∧ pending s.cl.globreqs a = []

theorem Anchored.noDangling {s : St} (h : Anchored s) : NoDangling s := by
  refine ⟨fun u a hu => ?_, fun key r a hr hctx => ?_, fun a hp => ?_⟩
  · by_contra hno
    exact (h.strays a hno).1.1 u hu
  · by_contra hno
    exact (h.strays a hno).1.2 key r hr hctx
  · by_contra hno
    exact hp (h.strays a hno).2

variable {s s' : St}

theorem Anchored.after (h : Anchored s) (ho : Adds (some a) s.cl d.1) (hstays : ∀ cs, d.2 = some cs → Accounted a ⟨d.1, cs⟩)
    (hgoes : d.2 = none → Stray d.1 a ∧ pending d.1.globreqs a = [])
    (hp : ∀ b, b ≠ a → pending d.1.globreqs b = pending s.cl.globreqs b) : Anchored (s.after a d) := by
  have hne : ∀ b, b ≠ a → some b ≠ some a := fun b hb he => hb (Option.some.inj he)
  refine ⟨fun b cs hc => ?_, fun b hb => ?_⟩
  · by_cases he : b = a
    · subst he
      exact hstays cs (after_get hc)
    · rw [after_get_ne he] at hc
      exact (h.each b cs hc).frame ho (hne b he)
  · by_cases he : b = a
    · subst he
      refine hgoes ?_
      cases hd : d.2 with
      | none => rfl
      | some cs =>
        refine absurd (mem_of_get (v := cs) ?_) hb
        unfold St.after
        simp [hd]
    · obtain ⟨hs, hpb⟩ := h.strays b fun hm => by
        obtain ⟨cs, hc⟩ := get_of_mem hm
        rw [← after_get_ne (d := d) he] at hc
        exact hb (mem_of_get hc)
      exact ⟨hs.frame ho (hne b he), (hp b he).trans hpb⟩

/-- A call that leaves the requests as they are. -/
theorem Anchored.settles (h : Anchored s) (hr : Requests s) (hc : s.connections[a]? = some cs)
    (hs : Settles a ⟨s.cl, cs⟩ d) (hu : d.1.globreqs = s.cl.globreqs) : Anchored (s.after a d) := by
  refine h.after hs.adds hs.stays (fun hd => ⟨(hs.goes hd).1, ?_⟩) fun b _ => by rw [hu]
  rw [hu, ← hr.lists a cs hc, (hs.goes hd).2]
  rfl

/-- The connection layer alone. -/
theorem Anchored.layer {reading : Option Nat} {protoError : Bool} (h : Anchored s) (ho : Adds none s.cl cl)
    (hp : ∀ b, pending cl.globreqs b = pending s.cl.globreqs b) : Anchored { s with cl, reading, protoError } :=
  ⟨fun b cs hc => (h.each b cs hc).frame ho (by simp), fun b hb => ⟨(h.strays b hb).1.frame ho (by simp),
    (hp b).trans (h.strays b hb).2⟩⟩

theorem Anchored.congr {s1 : St} (h : Anchored s) (h1 : s1.cl = s.cl) (h2 : s1.connections = s.connections) : Anchored s1 := by
  refine ⟨fun a cs hc => ?_, fun a ha => ?_⟩
  · rw [h1]
    exact h.each a cs (h2 ▸ hc)
  · rw [h1]
    exact h.strays a (h2 ▸ ha)

/-- A request is queued for a connstate that stays, or the queue is left as it is. -/
theorem globalRequest_queue (hg : globalRequest a m pkt env = some d) :
    (∃ cs, d.2 = some cs ∧ queueGlobalRequestHandler m.cl.globreqs (.sharing a) env.junk = some d.1.globreqs) ∨
      d.1.globreqs = m.cl.globreqs := by
  obtain ⟨key, wantReply, pos, -, -, he⟩ | ⟨key, wantReply, pos, -, -, he⟩ | ⟨-, -, ⟨err, he⟩ | ⟨wantReply, he⟩⟩ :=
    globalRequest_cases a m pkt env
  · rw [he] at hg
    obtain ⟨-, out, rfl⟩ | ⟨-, globreqs, out, hq, rfl⟩ := forwardRequest_spec hg
    · exact Or.inr rfl
    · exact Or.inl ⟨_, rfl, hq⟩
  · rw [he] at hg
    obtain ⟨-, out, rfl⟩ | ⟨fwd, r, globreqs, out, -, -, -, hq, rfl⟩ := cancelRequest_spec hg
    · exact Or.inr rfl
    · exact Or.inl ⟨_, rfl, hq⟩
  · rw [he] at hg
    obtain ⟨-, out, ht⟩ := shareDisconnect_spec hg
    exact Or.inr (tryCleanup_undisturbed (m := (m.send out).closeSock) ht).globreqs
  · rw [he] at hg
    obtain ⟨out, rfl⟩ := refuseRequest_spec hg
    exact Or.inr rfl

theorem packet_anchored (h : Anchored s) (hr : Requests s) (hp : s.protoError = false)
    (hc : s.connections[a]? = some cs) (hok : Orderly s (.packet a type pkt env)) (hh : Handled a ⟨s.cl, cs⟩ type pkt d)
    (hg : gotPktFromDownstream a ⟨s.cl, cs⟩ type pkt env = some d) : Anchored (s.after a d) := by
  obtain ⟨hturn, hrest⟩ := hok
  obtain ⟨hx, hids, -⟩ := hrest hp
  have hacc := h.each a cs hc
  by_cases ht : type = .globalRequest
  · subst ht
    have hs := globalRequest_settles hacc (hx cs hc) (hturn hp cs hc) hg
    obtain ⟨cs', hd, hq⟩ | hu := globalRequest_queue hg
    · obtain ⟨hs', hv⟩ := hr.view
      refine h.after hs.adds hs.stays (fun hn => ?_) fun b hne => ?_
      · rw [hd] at hn
        cases hn
      · rw [pending_queue hv hq, if_neg (by simpa using hne.symm), List.append_nil]
    · exact h.settles hr hc hs hu
  · obtain ⟨hopen, hconf⟩ := hids cs hc
    exact h.settles hr hc (hh.settles ht hacc (hx cs hc) hopen hconf hg) (hh.undisturbed ht).globreqs

theorem step_anchored {e : Ev} (h : Anchored s) (hr : Requests s) (hok : Orderly s e) (hs : step s e = some s') :
    Anchored s' := by
  obtain ⟨-, rfl⟩ | ⟨hp, s1, ha, -, rfl⟩ := step_acted hs
  · exact h
  refine Anchored.congr (s := s1) ?_ rfl rfl
  cases ha with
  | accept =>
    have hnew := h.strays s.cl.brk (hr.fresh s.cl.brk (Nat.le_refl _)).1
    refine h.after (a := s.cl.brk) (d := ({ s.cl with brk := s.cl.brk + 1 }, some ConnState.fresh))
      (.of_eq rfl rfl (Nat.le_succ _)) (fun cs hd => ?_) (fun hd => nomatch hd) fun _ _ => rfl
    cases hd
    exact ⟨fun u hu => absurd hu (hnew.1.1 u), ⟨fun key r hk hctx => absurd hctx (hnew.1.2 key r hk), Or.inl rfl,
      fun key f hf => by simp [ConnState.fresh] at hf⟩, fun hs => nomatch hs⟩
  | packet _ hc hh hg => exact packet_anchored h hr hp hc hok hh hg
  | @malformed a message cs d out _ hc _ ht =>
    have hacc := h.each a cs hc
    have hs := tryCleanup_settles (m := (At.send ⟨s.cl, cs⟩ out).closeSock)
      ⟨hacc.numbered, hacc.forwards, fun _ => (hok.2 hp).1 cs hc⟩ rfl ht
    exact h.settles hr hc (hs.after (m := ⟨s.cl, cs⟩) (.of_eq rfl rfl (Nat.le_refl _)) rfl) (tryCleanup_undisturbed ht).globreqs
  | @closing a cs d hc _ ht =>
    have hs := tryCleanup_settles ((h.each a cs hc).closeSock ((hok.2 hp).1 cs hc)) rfl ht
    exact h.settles hr hc (hs.after (m := ⟨s.cl, cs⟩) (.refl _ _) rfl) (tryCleanup_undisturbed ht).globreqs
  | replyNone => exact h.layer (.refl _ _) fun _ => rfl
  | @replySharing reply pkt head next a cs d globreqs hh hcell hc hg hf =>
    have hnext : nextHandler s.cl.globreqs = some (.sharing a) := by
      simp [nextHandler, hh, hcell]
    obtain ⟨ho, hstays, hgoes, htail⟩ := gotGlobreqReply_settles (h.each a cs hc) (fun he globreq rest hl => by
      subst he
      exact (hok.2 hp).2.2 a cs globreq rest hnext hc hl) hg
    obtain ⟨globreq, rest, forwardings, out, hl, -, hretry⟩ := gotGlobreqReply_spec hg
    have hgl : d.1.globreqs = s.cl.globreqs := (retryCleanup_undisturbed hretry).globreqs
    rw [hgl] at hf
    obtain ⟨hs', hv⟩ := hr.view
    have hpend := pending_reply hv hh hcell hf
    refine h.after (ho.trans (.of_eq rfl rfl (Nat.le_refl _))) (fun cs' hd => ?_) (fun hd => ?_) fun b hne => ?_
    · have := hstays cs' hd
      exact ⟨this.numbered, this.forwards, this.settled⟩
    · refine ⟨(hgoes hd).frame (o := none) (.of_eq rfl rfl (Nat.le_refl _)) (by simp), ?_⟩
      have hlist := hr.lists a cs hc
      rw [show cs.globreqHead = globreq :: rest from hl] at htail
      rw [show cs.globreqHead = globreq :: rest from hl, hpend a, if_pos rfl,
        show rest = [] from htail] at hlist
      exact (List.cons.inj hlist).2.symm
    · rw [hpend b, if_neg (by simpa using hne.symm), List.nil_append]
  | @replyOurs _ _ _ _ _ _ cl _ hh hcell hresp hf =>
    obtain ⟨r, -, -, hcl⟩ := rportfwdGlobreqResponse_spec hresp
    obtain ⟨hs', hv⟩ := hr.view
    have hgl : cl.globreqs = s.cl.globreqs := by
      rcases hcl with rfl | rfl
      · rfl
      · rfl
    have ho : Adds none s.cl cl := by
      rcases hcl with rfl | rfl
      · exact .refl _ _
      · exact Adds.erase_rportfwd
    rw [hgl] at hf
    refine h.layer (ho.trans (.of_eq rfl rfl (Nat.le_refl _))) fun b => ?_
    · rw [pending_reply hv hh hcell hf b, if_neg (by simp), List.nil_append]
  | @openSharing src key r a cs m _ _ hc hg =>
    obtain ⟨id, out, rfl⟩ := gotChannelOpen_spec hg
    have hacc := h.each a cs hc
    exact h.settles hr hc (Accounted.settles (n := At.send ⟨s.cl, addHalfchannel cs id⟩ out)
      ⟨hacc.numbered, hacc.forwards, hacc.settled⟩ (.of_eq rfl rfl (Nat.le_refl _))) rfl
  | @msgSharing type pkt a cs d _ hc hh _ =>
    exact h.settles hr hc (hh.settles (h.each a cs hc)) hh.undisturbed.globreqs
  | openOurs =>
    refine h.layer ⟨fun u b _ hu => ?_, fun _ _ => Or.inl, Nat.le_refl _⟩ fun _ => rfl
    have hu : (s.cl.channels.insertIfNew s.cl.allocChannelId .ours)[u]? = some (.sharectx b) := hu
    rw [ExtTreeMap.getElem?_insertIfNew] at hu
    split at hu
    · cases hu
    · exact hu
  | closeOurs _ => exact h.layer Adds.erase_channel fun _ => rfl
  | forwardOurs hal hq =>
    obtain ⟨-, rfl, rfl⟩ := rportfwdAlloc_spec hal
    obtain ⟨hs', hv⟩ := hr.view
    refine h.layer ⟨fun _ _ _ => id, fun k r hk => ?_, Nat.le_succ _⟩ fun b => ?_
    · have hk : (s.cl.rportfwds.insert _ ⟨s.cl.brk, none⟩)[k]? = some r := hk
      rw [get_insert_fwd] at hk
      split at hk
      · cases hk
        exact Or.inr ⟨Nat.le_refl _, fun b hb => nomatch hb⟩
      · exact Or.inl hk
    · rw [pending_queue hv hq, if_neg (by simp), List.append_nil]
  | unforwardOurs _ => exact h.layer Adds.erase_rportfwd fun _ => rfl
  | @handover u x auth cs m _ hauth hc hx =>
    have hs := setupX11Channel_settles (h.each _ cs hc) ((hok.2 hp).1 auth cs hauth hc) hx
    exact h.settles hr hc hs (setupX11Channel_undisturbed hx).globreqs
  | _ => exact h.layer (.refl _ _) fun _ => rfl

theorem init_anchored : Anchored St.init :=
  ⟨fun a cs hc => by simp [St.init] at hc, fun a _ => ⟨⟨fun u hu => by simp [St.init] at hu,
    fun key r hk => by simp [St.init] at hk⟩, by simp [St.init, pending, outstanding, GlobalRequests.init]⟩⟩

/-- In a run whose steps are all orderly the connection layer never refers to a connstate that
    has been freed. -/
theorem orderly_runs_leave_nothing_dangling (evs : List Ev) (h : Taken step Orderly St.init evs) :
    Reaches step NoDangling St.init evs := fun pre t hp hr =>
  (reaches_of_inv (J := fun s => Requests s ∧ Anchored s) ⟨init_requests, init_anchored⟩
    (fun _ _ _ hj hok hs => ⟨step_requests hj.1 hok.1 hs, step_anchored hj.2 hj.1 hok hs⟩) h pre t hp hr).2.noDangling

def openSession : List UInt8 :=
  putString (text "session") ++ put32BitMsbFirst 7 ++ put32BitMsbFirst 65536 ++ put32BitMsbFirst 32768

/-- A downstream opens a channel and goes; the server grants the channel and closes it. -/
def opensAndGoes : List Ev :=
  [.accept, .packet 0 .channelOpen openSession ⟨none, false, [], []⟩, .closing 0,
    .serverMsg .channelOpenConfirmation
      (put32BitMsbFirst 256 ++ put32BitMsbFirst 5 ++ put32BitMsbFirst 65536 ++ put32BitMsbFirst 32768),
    .serverMsg .channelClose (put32BitMsbFirst 256)]

theorem opens_and_goes_leaves_nothing : (run step St.init opensAndGoes).map (·.connections.isEmpty) = some true ∧
    Reaches step NoDangling St.init opensAndGoes := by
  refine ⟨by decide +kernel, orderly_runs_leave_nothing_dangling _ ?_⟩
  have hopen : truncatedOpen openSession = false := by decide
  refine taken_cons fun t1 h1 => ⟨⟨trivial, fun _ => ⟨trivial, trivial, trivial⟩⟩, ?_⟩
  refine taken_cons fun t2 h2 => ⟨⟨trivial, fun _ => ⟨fun cs _ he => ?_, fun cs _ => ⟨fun _ => hopen, fun ht => nomatch ht⟩, trivial⟩⟩, ?_⟩
  · rw [show packetEnds cs .channelOpen openSession _ = truncatedOpen openSession from rfl, hopen] at he
    cases he
  refine taken_cons fun t3 h3 => ⟨⟨trivial, fun _ => ⟨fun cs hc => ?_, trivial, trivial⟩⟩, ?_⟩
  · have hrun : (run step St.init (opensAndGoes.take 2)).bind (fun s => s.connections[0]?.map (·.xchannelsByUs.isEmpty)) =
        some true := by decide +kernel
    have ht : run step St.init (opensAndGoes.take 2) = some t2 := by
      simp only [opensAndGoes, List.take_succ_cons, List.take_zero, run_cons, run_nil, h1, h2, Option.bind_some]
    rw [ht, Option.bind_some, hc] at hrun
    exact ExtTreeMap.isEmpty_iff.mp (Option.some.inj hrun)
  exact taken_cons fun t4 _ => ⟨⟨trivial, fun _ => ⟨trivial, trivial, trivial⟩⟩,
    taken_cons fun t5 _ => ⟨⟨trivial, fun _ => ⟨trivial, trivial, trivial⟩⟩, taken_nil⟩⟩

/-- A downstream asks for a forwarding, the server refuses it, and the downstream goes. -/
def refusedForwarding : List Ev :=
  let ask := putString (text "tcpip-forward") ++ putBool true ++ putString (text "localhost") ++ put32BitMsbFirst 8080
  [.accept, .packet 0 .globalRequest ask ⟨none, false, [], []⟩, .globalReply .failure [], .closing 0]

/-- The record of the forwarding is still there, and its connstate is not. -/
theorem refused_forwarding_dangles : ¬ ∀ evs, Reaches step NoDangling St.init evs := by
  intro h
  have hrun : (run step St.init refusedForwarding).bind (fun s =>
      s.cl.rportfwds[(⟨text "localhost", 8080⟩ : FwdKey)]?.map fun r => (r.shareCtx, decide (0 ∈ s.connections))) =
      some (some 0, false) := by decide +kernel
  obtain ⟨s, hs, hf⟩ := Option.bind_eq_some_iff.mp hrun
  obtain ⟨r, hr, hf⟩ := Option.map_eq_some_iff.mp hf
  simp only [Prod.mk.injEq, decide_eq_false_iff_not] at hf
  exact hf.2 ((h refusedForwarding refusedForwarding s (List.prefix_refl _) hs).rportfwds _ r 0 hr hf.1)

end Putty.Share
