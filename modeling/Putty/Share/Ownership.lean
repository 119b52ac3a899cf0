/-
  Putty.Share.Ownership — which downstream a channel id of ours belongs to.

  The connection layer's table names the owner of every id in use. What a connstate has
  under an id is named there as its own (`Holds`), so no two downstreams, and no downstream
  and ourselves, hold the same id: an id is given out while it is in nobody's hands
  (`allocChannelId_fresh`), and is freed together with the record under it.

  One order of packets gets around that. A downstream that accepts an X11 channel with too
  small a window is let go with the channel under both its tables; a refusal of the same
  channel behind that, in the same read, frees the id and leaves the record. `NoLateRefusal`
  excludes it.
-/

import Putty.Share.Handlers
import Putty.Lib.Index

namespace Putty.Share

open Std Putty.Lib Putty.Utils Putty.Ssh2
open Putty.Ssh2.GlobalRequests (Reply queueGlobalRequestHandler filterReply)

/-! ## New ids -/

theorem firstUnused_spec : ∀ {l : List Nat} {n : Nat}, l.Pairwise (· < ·) → (∀ x ∈ l, n ≤ x) →
    ConnectionLayer.firstUnused l n ∉ l ∧ n ≤ ConnectionLayer.firstUnused l n
  | [], n, _, _ => ⟨by simp, Nat.le_refl n⟩
  | id :: ids, n, hs, hn => by
    obtain ⟨hlt, hs⟩ := List.pairwise_cons.mp hs
    have hid := hn id (by simp)
    unfold ConnectionLayer.firstUnused
    split
    · next he =>
      obtain ⟨h1, h2⟩ := firstUnused_spec (n := n + 1) hs fun x hx => by have := hlt x hx; omega
      refine ⟨fun hm => ?_, by omega⟩
      rcases List.mem_cons.mp hm with hm | hm
      · omega
      · exact h1 hm
    · next he =>
      refine ⟨fun hm => ?_, Nat.le_refl n⟩
      rcases List.mem_cons.mp hm with hm | hm
      · exact he hm.symm
      · have := hlt n hm
        omega

/-- The ids in use are those that alloc_channel_id gives out. -/
def Low (cl : ConnectionLayer) : Prop := ∀ u : Nat, u ∈ cl.channels → 256 ≤ u

theorem allocChannelId_fresh {cl : ConnectionLayer} (h : Low cl) :
    cl.channels[cl.allocChannelId]? = none ∧ 256 ≤ cl.allocChannelId := by
  have hs : cl.channels.keys.Pairwise (· < ·) := cl.channels.ordered_keys.imp fun hab => by
    simpa [compare_lt_iff_lt] using hab
  obtain ⟨h1, h2⟩ := firstUnused_spec hs fun x hx => h x (ExtTreeMap.mem_keys.mp hx)
  exact ⟨getElem?_neg _ _ fun hm => h1 (ExtTreeMap.mem_keys.mpr hm), h2⟩

/-! ## What a connstate holds -/

/-- The ids of its channels are its own; while packets of it can come, so are those of its
    X11 channels, and none is both, unless it has just been let go for that. -/
structure Holds (a : Nat) (readable : Prop) (table : Tree Owner) (byUs : Tree Channel) (xbyUs : Tree XChannel)
    (sock : Bool) : Prop where
  channels : ∀ u : Nat, u ∈ byUs → table[u]? = some (.sharectx a)
  xchannels : readable → ∀ u : Nat, u ∈ xbyUs → table[u]? = some (.sharectx a)
  both : readable → ∀ (u : Nat) c, byUs[u]? = some c → u ∈ xbyUs →
    sock = false ∧ (c.state = .opened ∨ c.state = .sentClose)

/-- An X11 channel is filed under its id, and the messages kept for it cite that id, or 0
    as the greeting does that we made up. -/
structure FiledUnder (u : Nat) (xc : XChannel) : Prop where
  id : xc.upstreamId = u
  msgs : ∀ msg ∈ xc.msgs, 4 ≤ msg.2.length ∧ (firstId msg.2 = u ∨ firstId msg.2 = 0)

def Filed (xbyUs : Tree XChannel) : Prop := ∀ (u : Nat) xc, xbyUs[u]? = some xc → FiledUnder u xc

variable {a : Nat} {r : Prop} {table table' : Tree Owner} {byUs : Tree Channel} {xbyUs xbyUs' : Tree XChannel}
  {sock : Bool} {u : Nat} {c : Channel}

namespace Holds

/-- The table of the connection layer changes elsewhere. -/
theorem frame (h : Holds a r table byUs xbyUs sock)
    (hf : ∀ u : Nat, table[u]? = some (.sharectx a) → table'[u]? = some (.sharectx a)) :
    Holds a r table' byUs xbyUs sock :=
  ⟨fun u hu => hf u (h.channels u hu), fun hr u hu => hf u (h.xchannels hr u hu), h.both⟩

theorem weaken {r' : Prop} (h : Holds a r table byUs xbyUs sock) (hr : r' → r) : Holds a r' table byUs xbyUs sock :=
  ⟨h.channels, fun h' => h.xchannels (hr h'), fun h' => h.both (hr h')⟩

theorem close (h : Holds a r table byUs xbyUs sock) : Holds a r table byUs xbyUs false :=
  ⟨h.channels, h.xchannels, fun hr u c hu hx => ⟨rfl, (h.both hr u c hu hx).2⟩⟩

/-- A channel comes under an id of its own. -/
theorem insert (h : Holds a r table byUs xbyUs sock) (hu : table[u]? = some (.sharectx a))
    (hx : r → u ∈ xbyUs → sock = false ∧ (c.state = .opened ∨ c.state = .sentClose)) :
    Holds a r table (byUs.insert u c) xbyUs sock := by
  refine ⟨fun v hv => ?_, h.xchannels, fun hr v c' hv hvx => ?_⟩
  · obtain ⟨c', hc⟩ := get_of_mem hv
    rw [get_insert] at hc
    split at hc
    · next he => rw [← he, hu]
    · exact h.channels v (mem_of_get hc)
  · rw [get_insert] at hv
    split at hv
    · next he =>
      subst he
      cases hv
      exact hx hr hvx
    · exact h.both hr v c' hv hvx

theorem modify {f : Channel → Channel} (h : Holds a r table byUs xbyUs sock)
    (hf : r → ∀ c, byUs[u]? = some c → u ∈ xbyUs → (f c).state = .opened ∨ (f c).state = .sentClose) :
    Holds a r table (byUs.modify u f) xbyUs sock := by
  refine ⟨fun v hv => h.channels v (mem_modify.mp hv), h.xchannels, fun hr v c' hv hvx => ?_⟩
  rw [ExtTreeMap.getElem?_modify] at hv
  split at hv
  · next he =>
    cases Std.compare_eq_iff_eq.mp he
    obtain ⟨c, hc, rfl⟩ := Option.map_eq_some_iff.mp hv
    exact ⟨(h.both hr u c hc hvx).1, hf hr c hc hvx⟩
  · exact h.both hr v c' hv hvx

/-- A channel goes with its id. -/
theorem erase (h : Holds a r table byUs xbyUs sock) (hx : r → u ∉ xbyUs) :
    Holds a r (table.erase u) (byUs.erase u) xbyUs sock := by
  refine ⟨fun v hv => ?_, fun hr v hv => ?_, fun hr v c' hv hvx => ?_⟩
  · obtain ⟨hv, hne⟩ := mem_erase_nat.mp hv
    rw [get_erase, if_neg hne.symm]
    exact h.channels v hv
  · rw [get_erase, if_neg fun e : u = v => hx hr (e ▸ hv)]
    exact h.xchannels hr v hv
  · rw [get_erase] at hv
    split at hv
    · cases hv
    · exact h.both hr v c' hv hvx

/-- The X11 channels stay or go. -/
theorem xsubset (h : Holds a r table byUs xbyUs sock) (hx : ∀ v, v ∈ xbyUs' → v ∈ xbyUs) :
    Holds a r table byUs xbyUs' sock :=
  ⟨h.channels, fun hr v hv => h.xchannels hr v (hx v hv), fun hr v c hv hvx => h.both hr v c hv (hx v hvx)⟩

/-- An X11 channel goes with its id. -/
theorem xerase (h : Holds a r table byUs xbyUs sock) (hu : u ∉ byUs) (hx : ∀ v, v ∈ xbyUs' ↔ v ∈ xbyUs ∧ v ≠ u) :
    Holds a r (table.erase u) byUs xbyUs' sock := by
  refine ⟨fun v hv => ?_, fun hr v hv => ?_, fun hr v c hv hvx => h.both hr v c hv ((hx v).mp hvx).1⟩
  · rw [get_erase, if_neg fun e : u = v => hu (e ▸ hv)]
    exact h.channels v hv
  · rw [get_erase, if_neg ((hx v).mp hv).2.symm]
    exact h.xchannels hr v ((hx v).mp hv).1

end Holds

/-! ## What a call for one connstate keeps -/

/-- The ids of others stay theirs. -/
structure Spares (a : Nat) (cl cl' : ConnectionLayer) : Prop where
  others : ∀ u b : Nat, b ≠ a → cl.channels[u]? = some (.sharectx b) → cl'.channels[u]? = some (.sharectx b)
  low : Low cl → Low cl'

namespace Spares

variable {cl cl' cl'' : ConnectionLayer}

theorem of_channels (h : cl'.channels = cl.channels) : Spares a cl cl' := by
  exact ⟨fun u o _ hu => by rw [h]; exact hu, fun hl u hu => hl u (by rw [← h]; exact hu)⟩

theorem trans (h : Spares a cl cl') (h' : Spares a cl' cl'') : Spares a cl cl'' :=
  ⟨fun u o ho hu => h'.others u o ho (h.others u o ho hu), fun hl => h'.low (h.low hl)⟩

theorem erase (hu : cl.channels[u]? = some (.sharectx a)) : Spares a cl (cl.deleteSharingChannel u) := by
  refine ⟨fun v o ho hv => ?_, fun hl v hv => hl v (mem_erase_nat.mp hv).1⟩
  show (cl.channels.erase u)[v]? = _
  rw [get_erase, if_neg, hv]
  rintro rfl
  cases hu.symm.trans hv
  exact ho rfl

theorem withNew : Spares a cl (cl.withNew a) := by
  refine ⟨fun v o ho hv => ?_, fun hl v hv => ?_⟩
  · show (cl.channels.insertIfNew _ _)[v]? = _
    rw [ExtTreeMap.getElem?_insertIfNew, if_neg, hv]
    rintro ⟨he, hn⟩
    cases Std.compare_eq_iff_eq.mp he
    exact hn (mem_of_get hv)
  · rcases ExtTreeMap.mem_insertIfNew.mp hv with he | hv
    · cases Std.compare_eq_iff_eq.mp he
      exact (allocChannelId_fresh hl).2
    · exact hl v hv

end Spares

/-- The connstate at `a` holds only what is its own; `r` says that the read its last packet was
    in is still being worked through. -/
def Own (a : Nat) (r : Prop) (m : At) : Prop :=
  Holds a (m.cs.sock = true ∨ r) m.cl.channels m.cs.channelsByUs m.cs.xchannelsByUs m.cs.sock ∧ Filed m.cs.xchannelsByUs

/-- What a call leaves of it, and of the others. -/
def Kept (a : Nat) (r : Prop) (m : At) (d : Done) : Prop :=
  Spares a m.cl d.1 ∧ ∀ cs, d.2 = some cs → Own a r ⟨d.1, cs⟩

variable {m m' : At} {d : Done} {type : Msg} {pkt : List UInt8}

/-- Neither the ids nor the tables change. -/
theorem Own.congr (h : Own a r m) (h1 : m'.cl.channels = m.cl.channels) (h2 : m'.cs.channelsByUs = m.cs.channelsByUs)
    (h3 : m'.cs.xchannelsByUs = m.cs.xchannelsByUs) (h4 : m'.cs.sock = m.cs.sock) : Own a r m' := by
  unfold Own
  rw [h1, h2, h3, h4]
  exact h

theorem Own.kept {n : At} (h : Own a r n) (hs : Spares a m.cl n.cl) : Kept a r m n.done :=
  ⟨hs, fun cs hd => by cases hd; exact h⟩

theorem Own.closeSock (h : Own a r m) : Own a r m.closeSock := ⟨h.1.close.weaken (Or.imp_left fun e => nomatch e), h.2⟩

theorem cleanupChannel_own (h : Own a r m) (hc : cleanupChannel a m u = some m') : Own a r m' ∧ Spares a m.cl m'.cl := by
  obtain ⟨rfl, -⟩ | ⟨c, out, hu, hs, rfl⟩ | ⟨c, out, x11, hu, hs, rfl⟩ := cleanupChannel_spec hc
  · exact ⟨h, .of_channels rfl⟩
  · exact ⟨⟨h.1.modify fun _ _ _ _ => Or.inr rfl, h.2⟩, .of_channels rfl⟩
  · refine ⟨⟨h.1.erase fun hr hx => ?_, h.2⟩, ?_⟩
    · rcases (h.1.both hr u c hu hx).2 with hst | hst <;> simp [hs] at hst
    · exact Spares.trans (Spares.erase (h.1.channels u (mem_of_get hu))) (.of_channels rfl)

theorem tryCleanup_kept (h : Own a r m) (hc : tryCleanup a m = some d) : Kept a r m d := by
  obtain ⟨m2, ⟨h2, hs⟩, rfl⟩ := tryCleanup_ends (P := fun m' => Own a r m' ∧ Spares a m.cl m'.cl)
    (fun m1 h1 => by
      obtain ⟨out, he⟩ := cleanupHalfchannels_spec a m1
      rw [he]
      exact ⟨h1.1, h1.2.trans (.of_channels rfl)⟩)
    (fun m1 u m' h1 hu => ⟨(cleanupChannel_own h1.1 hu).1, h1.2.trans (cleanupChannel_own h1.1 hu).2⟩)
    (fun m1 key m' h1 hk => by
      obtain ⟨rfl, -⟩ | ⟨f, rpf, out, -, -, -, -, rfl⟩ := cleanupForwarding_spec hk
      · exact h1
      · exact ⟨h1.1, h1.2.trans (.of_channels rfl)⟩)
    ⟨h, .of_channels rfl⟩ hc
  refine ⟨hs, fun cs hd => ?_⟩
  dsimp only at hd
  split at hd
  · cases hd
  · cases hd
    exact h2

theorem retryCleanup_kept (h : Own a r m) (hc : retryCleanup a m = some d) : Kept a r m d := by
  unfold retryCleanup at hc
  split at hc
  · cases hc
    exact h.kept (.of_channels rfl)
  · exact tryCleanup_kept h hc

theorem Kept.after {m0 : At} (h : Kept a r m d) (hs : Spares a m0.cl m.cl) : Kept a r m0 d := ⟨hs.trans h.1, h.2⟩

theorem Filed.modify {f : XChannel → XChannel} {v : Nat} (h : Filed xbyUs) (hf : ∀ x, FiledUnder v x → FiledUnder v (f x)) :
    Filed (xbyUs.modify v f) := by
  intro w x hx
  rw [ExtTreeMap.getElem?_modify] at hx
  split at hx
  · next he =>
    cases Std.compare_eq_iff_eq.mp he
    obtain ⟨x', hx', rfl⟩ := Option.map_eq_some_iff.mp hx
    exact hf x' (h v x' hx')
  · exact h w x hx

theorem Filed.erase {v : Nat} (h : Filed xbyUs) : Filed (xbyUs.erase v) := by
  intro w x hx
  rw [get_erase] at hx
  split at hx
  · cases hx
  · exact h w x hx

theorem FiledUnder.emptied {xc : XChannel} (h : FiledUnder u xc) : FiledUnder u { xc with msgs := [] } :=
  ⟨h.id, fun _ hm => nomatch hm⟩

theorem deadXchannelRespond_filed {xc : XChannel} (h : Filed m.cs.xchannelsByUs) :
    Filed (deadXchannelRespond a m xc).cs.xchannelsByUs := by
  unfold deadXchannelRespond
  dsimp only
  split
  · exact h.erase
  · exact h.modify fun _ => FiledUnder.emptied

theorem gotXchannelMsg_filed {xc : XChannel} (h : Filed m.cs.xchannelsByUs) (hx : FiledUnder xc.upstreamId xc)
    (hp : 4 ≤ pkt.length) (hid : firstId pkt = xc.upstreamId) : Filed (gotXchannelMsg a m type pkt xc).cs.xchannelsByUs := by
  have h1 : Filed (m.cs.xchannelsByUs.modify xc.upstreamId fun _ => { xc with msgs := xc.msgs ++ [(type, pkt)] }) := by
    refine h.modify fun _ _ => ⟨rfl, fun msg hm => ?_⟩
    rcases List.mem_append.mp hm with hm | hm
    · exact hx.msgs msg hm
    · rw [List.mem_singleton.mp hm]
      exact ⟨hp, Or.inl hid⟩
  unfold gotXchannelMsg
  dsimp only
  split
  · exact h1
  · exact deadXchannelRespond_filed h1

/-! ## Packets of the downstream -/

/-- The refusal is not of an X11 channel that is under both tables. -/
def NotBoth (cs : ConnState) (type : Msg) (pkt : List UInt8) : Prop :=
  type = .channelOpenFailure → ∀ xc, findXchannelByServer cs (firstId pkt) = some xc → xc.upstreamId ∉ cs.channelsByUs

theorem Own.found {k : Nat} {xc : XChannel} (h : Own a r m) (hf : findXchannelByServer m.cs k = some xc) :
    m.cs.xchannelsByUs[xc.upstreamId]? = some xc := by
  obtain ⟨v, -, hv⟩ := Option.bind_eq_some_iff.mp hf
  rw [(h.2 v xc hv).id]
  exact hv

/-- An id just given out is the connstate's, and nothing is filed under it yet. -/
theorem Own.withNew (h : Own a True m) (hl : Low m.cl) :
    Own a True ⟨m.cl.withNew a, m.cs⟩ ∧ (m.cl.withNew a).channels[m.cl.allocChannelId]? = some (.sharectx a) ∧
      m.cl.allocChannelId ∉ m.cs.xchannelsByUs := by
  have hn := (allocChannelId_fresh hl).1
  refine ⟨⟨h.1.frame fun v hv => ?_, h.2⟩, ?_, fun hx => ?_⟩
  · show (m.cl.channels.insertIfNew _ _)[v]? = _
    rw [insertIfNew_absent hn, get_insert, if_neg, hv]
    rintro rfl
    rw [hn] at hv
    cases hv
  · show (m.cl.channels.insertIfNew _ _)[m.cl.allocChannelId]? = _
    rw [insertIfNew_absent hn, get_insert, if_pos rfl]
  · rw [h.1.xchannels (Or.inr trivial) _ hx] at hn
    cases hn

theorem Own.add {t : ChanState} (h : Own a r m) (hu : m.cl.channels[u]? = some (.sharectx a))
    (hx : m.cs.sock = true ∨ r → u ∈ m.cs.xchannelsByUs → m.cs.sock = false ∧ (t = .opened ∨ t = .sentClose))
    (dn k : Nat) (maxpkt : UInt32) : Own a r (addChannel m dn u k t maxpkt).2 := by
  obtain ⟨o, cs, he, ⟨-, rfl, -⟩ | ⟨-, -, -, rfl⟩⟩ := addChannel_spec m dn u k t maxpkt
  · rw [he]
    exact h.congr rfl rfl rfl rfl
  · rw [he]
    exact ⟨h.1.insert hu hx, h.2⟩

theorem addChannel_channels {dn k : Nat} {state : ChanState} {maxpkt : UInt32} :
    (addChannel m dn u k state maxpkt).2.cl.channels = m.cl.channels := by
  obtain ⟨o, cs, he, -⟩ := addChannel_spec m dn u k state maxpkt
  rw [he]

/-- It is under both tables until it is taken out of the second, or the downstream is let go. -/
theorem Own.confirm {dn k : Nat} {xc : XChannel} {maxpkt : UInt32} {chan : Option Channel} {m1 : At} (h : Own a True m)
    (hf : m.cs.xchannelsByUs[xc.upstreamId]? = some xc)
    (ha : addChannel m dn xc.upstreamId k .opened maxpkt = (chan, m1)) :
    Own a True m1.closeSock ∧ Own a True ⟨m1.cl, removeXchannel m1.cs xc⟩ ∧ m1.cl.channels = m.cl.channels := by
  have hu := h.1.xchannels (Or.inr trivial) _ (mem_of_get hf)
  have hsub : ∀ v, v ∈ m.cs.xchannelsByUs.erase xc.upstreamId → v ∈ m.cs.xchannelsByUs := fun v hv => (mem_erase_nat.mp hv).1
  have hfiled : Filed (m.cs.xchannelsByUs.erase xc.upstreamId) := h.2.erase
  obtain ⟨o, cs, he, ⟨-, rfl, -⟩ | ⟨-, -, -, rfl⟩⟩ := addChannel_spec m dn xc.upstreamId k .opened maxpkt
  · rw [ha] at he
    cases he
    exact ⟨h.closeSock.congr rfl rfl rfl rfl, ⟨h.1.xsubset hsub, hfiled⟩, rfl⟩
  · rw [ha] at he
    cases he
    refine ⟨⟨h.closeSock.1.insert hu fun _ _ => ⟨rfl, Or.inl rfl⟩, h.2⟩, ⟨(h.1.xsubset hsub).insert hu fun _ hx => ?_, hfiled⟩, rfl⟩
    exact absurd rfl (mem_erase_nat.mp hx).2

/-- An X11 channel that goes with its id was not also a channel. -/
theorem XAnswer.kept {xc : XChannel} (h : Own a r m) (ha : XAnswer m xc.upstreamId xc.serverId m')
    (hu : m.cl.channels[xc.upstreamId]? = some (.sharectx a)) (hb : xc.upstreamId ∉ m.cs.channelsByUs)
    (hf : Filed m'.cs.xchannelsByUs) : Kept a r m m'.done := by
  cases ha with
  | stays out xs hx => exact Own.kept ⟨h.1.xsubset fun v hv => (hx v).mp hv, hf⟩ (.of_channels rfl)
  | goes out xs hx =>
    exact Own.kept ⟨h.1.xerase hb hx, hf⟩ ((Spares.erase hu).trans (.of_channels rfl))

theorem Own.modify {f : Channel → Channel} (h : Own a r m)
    (hf : m.cs.sock = true ∨ r → ∀ c, m.cs.channelsByUs[u]? = some c → u ∈ m.cs.xchannelsByUs → (f c).state = .opened ∨ (f c).state = .sentClose) :
    Own a r ⟨m.cl, modifyChannel m.cs u f⟩ := ⟨h.1.modify hf, h.2⟩

/-- A channel that is only in the first table goes with its id. -/
theorem Own.remove {c : Channel} {out : List Out} (h : Own a r m) (hc : m.cs.channelsByUs[u]? = some c)
    (hx : m.cs.sock = true ∨ r → u ∉ m.cs.xchannelsByUs) (hr : removeChannel (At.send ⟨m.cl.deleteSharingChannel u, m.cs⟩ out) u c = some m') :
    Own a r m' ∧ Spares a m.cl m'.cl := by
  obtain ⟨h1, x11, h2⟩ := removeChannel_spec hr
  obtain ⟨cl, cs⟩ := m'
  cases h1
  cases h2
  exact ⟨⟨h.1.erase hx, h.2⟩, (Spares.erase (h.1.channels u (mem_of_get hc))).trans (.of_channels rfl)⟩

theorem Own.push {l : ConnectionLayer} {c : ConnState} {globreq : Globreq} (h : Own a r ⟨l, c⟩) :
    Own a r ⟨l, pushGlobreq c globreq⟩ := by
  obtain ⟨globreqHead, hp⟩ := pushGlobreq_spec c globreq
  rw [hp]
  exact h

theorem Handled.kept (h : Own a True m) (hl : Low m.cl) (hn : NotBoth m.cs type pkt) (hh : Handled a m type pkt d) :
    Kept a True m d := by
  cases hh with
  | quiet out => exact h.kept (n := m.send out) (.of_channels rfl)
  | ended out _ hc => exact (tryCleanup_kept (m := (m.send out).closeSock) h.closeSock hc).after (.of_channels rfl)
  | openTruncated out _ _ _ hc =>
    exact (tryCleanup_kept (m := (At.send ⟨m.cl.withNew a, m.cs⟩ out).closeSock) (h.withNew hl).1.closeSock hc).after
      (Spares.withNew.trans (.of_channels rfl))
  | opened oldId maxpkt out _ _ =>
    obtain ⟨h1, hu, hx⟩ := h.withNew hl
    have h2 := h1.add (t := .unacknowledged) hu (fun _ hm => absurd hm hx) oldId 0 maxpkt
    exact Own.kept (h2.congr rfl rfl rfl rfl) (Spares.withNew.trans (.of_channels addChannel_channels))
  | confirmedHalf oldId maxpkt m1 out _ _ hm =>
    obtain ⟨h1, hu, hx⟩ := h.withNew hl
    have h2 := h1.add (t := .opened) hu (fun _ hm => absurd hm hx) oldId (firstId pkt) maxpkt
    subst hm
    exact Own.kept (h2.congr rfl rfl rfl rfl) (Spares.withNew.trans (.of_channels addChannel_channels))
  | confirmedX xc oldId maxpkt chan m1 m2 window _ hf ha hx =>
    obtain ⟨hclose, h1, hcl⟩ := h.confirm (h.found hf) ha
    obtain ⟨out, rfl⟩ := xchannelConfirmation_spec hx
    refine Own.kept ⟨h1.1.xsubset fun v hv => ?_, ?_⟩ (.of_channels hcl)
    · obtain ⟨hv, hne⟩ := mem_erase_nat.mp hv
      exact mem_erase_nat.mpr ⟨mem_modify.mp hv, hne⟩
    · exact Filed.erase (Filed.modify hclose.2 fun _ => FiledUnder.emptied)
  | windowTooSmall xc oldId maxpkt chan m1 out _ hf ha _ hc =>
    obtain ⟨h1, -, hcl⟩ := h.confirm (h.found hf) ha
    exact (tryCleanup_kept (m := (m1.send out).closeSock) h1 hc).after (.of_channels hcl)
  | refusedHalf out _ _ => exact h.kept (n := At.send ⟨m.cl, removeHalfchannel m.cs (firstId pkt)⟩ out) (.of_channels rfl)
  | refusedX xc ht hf =>
    refine xchannelFailure_answer.kept h (h.1.xchannels (Or.inr trivial) _ (mem_of_get (h.found hf))) (hn ht xc hf) ?_
    exact deadXchannelRespond_filed (h.2.modify fun _ hx => ⟨hx.id, hx.msgs⟩)
  | forwarded key wantReply rpf cl cl' out junk _ hal hq =>
    obtain ⟨-, -, rfl⟩ := rportfwdAlloc_spec hal
    obtain ⟨globreqs, -, rfl⟩ := sharingQueueGlobalRequest_spec hq
    refine ⟨.of_channels rfl, fun cs hd => ?_⟩
    cases hd
    split
    · exact h
    · exact Own.push (c := { m.cs with forwardings := m.cs.forwardings.insert key ⟨false, _⟩ }) h
  | cancelled key wantReply fwd cl cl' out junk _ _ hrm hq =>
    obtain ⟨r, -, -, rfl⟩ := rportfwdRemove_spec hrm
    obtain ⟨globreqs, -, rfl⟩ := sharingQueueGlobalRequest_spec hq
    refine ⟨.of_channels rfl, fun cs hd => ?_⟩
    cases hd
    exact h.push
  | closedBoth u chan out m1 _ hf hst hr =>
    obtain ⟨v, -, h2⟩ := Option.bind_eq_some_iff.mp hf
    obtain ⟨c, hc, h4⟩ := Option.bind_eq_some_iff.mp h2
    cases h4
    obtain ⟨h5, h6⟩ := h.remove hc (fun _ hx => by
      rcases (h.1.both (Or.inr trivial) u chan hc hx).2 with hs | hs <;> simp [hst] at hs) hr
    exact h5.kept h6
  | closed u chan out _ _ _ =>
    exact Own.kept (n := At.send ⟨m.cl, modifyChannel m.cs u _⟩ out) (h.modify fun _ _ _ _ => Or.inr rfl) (.of_channels rfl)
  | x11 u chan single out _ _ =>
    exact Own.kept ⟨h.1.modify fun _ c hc hx => (h.1.both (Or.inr trivial) u c hc hx).2, h.2⟩ (.of_channels rfl)

/-! ## Messages of the server -/

/-- While it is connected, none of its channels is under both tables. -/
theorem Own.single {c : Channel} (h : Own a False m) (hc : m.cs.channelsByUs[u]? = some c)
    (hs : m.cs.sock = true ∨ False) : u ∉ m.cs.xchannelsByUs := by
  intro hx
  have := (h.1.both hs u c hc hx).1
  simp [this] at hs

/-- A packet that cites one of the ids in use has the field. -/
theorem Low.length (hl : Low m.cl) (hm : firstId pkt ∈ m.cl.channels) : 4 ≤ pkt.length := by
  by_contra hlt
  have := (BinarySource.getUint32_short (BinarySource.ofData_reads pkt) (by omega)).1
  have hid : firstId pkt = 0 := by
    unfold firstId
    rw [this]
    rfl
  have := hl _ hm
  omega

theorem Served.kept (h : Own a False m) (hl : Low m.cl) (hch : m.cl.channels[firstId pkt]? = some (.sharectx a))
    (hh : Served a m type pkt d) : Kept a False m d := by
  cases hh with
  | quiet out => exact h.kept (n := m.send out) (.of_channels rfl)
  | acknowledged c out _ hc _ _ hr =>
    refine (retryCleanup_kept ?_ hr).after (.of_channels rfl)
    exact ⟨h.1.modify fun _ _ _ _ => Or.inl rfl, h.2⟩
  | openFailed c out m1 _ hc hr =>
    obtain ⟨h1, h2⟩ := h.remove hc (fun hs => h.single hc hs) hr
    exact h1.kept h2
  | closedBoth c out m1 _ hc _ hr hb =>
    obtain ⟨h1, h2⟩ := h.remove hc (fun hs => h.single hc hs) hr
    exact (retryCleanup_kept h1 hb).after h2
  | closed c out _ hc _ =>
    exact Own.kept (n := At.send ⟨m.cl, modifyChannel m.cs (firstId pkt) _⟩ out)
      (h.modify fun hs c hc hx => absurd hx (h.single hc hs)) (.of_channels rfl)
  | xchannel xc hn hx =>
    have he := (h.2 _ xc hx).id
    refine gotXchannelMsg_answer.kept h (he ▸ hch) (fun hm => ?_) ?_
    · obtain ⟨c, hc⟩ := get_of_mem hm
      rw [he, hn] at hc
      cases hc
    · exact gotXchannelMsg_filed h.2 (he ▸ h.2 _ xc hx) (hl.length (mem_of_get hch)) he.symm

theorem gotGlobreqReply_kept {reply : Reply} (h : Own a r m) (hg : gotGlobreqReply a m reply pkt = some d) : Kept a r m d := by
  obtain ⟨globreq, rest, forwardings, out, -, -, hr⟩ := gotGlobreqReply_spec hg
  exact (retryCleanup_kept (m := At.send ⟨m.cl, { m.cs with
    forwardings
    globreqHead := rest
    globreqTail := if rest = [] then none else m.cs.globreqTail }⟩ out) h hr).after (.of_channels rfl)

/-- The id of a channel handed over is the downstream's from then on. -/
theorem setupX11Channel_own {x : X11Setup} {auth : X11FakeAuth} (h : Own a r m) (hu : u ∉ m.cs.channelsByUs)
    (hch : m.cl.channels[u]? = some (.sharectx a)) (hx : setupX11Channel a m u auth x = some m') :
    Own a r m' ∧ m'.cl.channels = m.cl.channels := by
  obtain ⟨chan, window, msgs, cs, out, -, -, hmsgs, ha, rfl⟩ := setupX11Channel_spec hx
  obtain ⟨-, -, rfl⟩ := addXchannel_spec ha
  have hfiled : FiledUnder u ⟨u, x.remoteid, true, window, msgs⟩ :=
    ⟨rfl, fun msg hm => ⟨(hmsgs msg hm).1, Or.inr (hmsgs msg hm).2⟩⟩
  have h1 : Own a r ⟨m.cl, { m.cs with
      xchannelsByUs := m.cs.xchannelsByUs.insert u ⟨u, x.remoteid, true, window, msgs⟩
      xchannelsByServer := m.cs.xchannelsByServer.insert x.remoteid u }⟩ := by
    refine ⟨⟨h.1.channels, fun hr v hv => ?_, fun hr v c hc hv => ?_⟩, fun v xc hv => ?_⟩
    · obtain ⟨xc, hxc⟩ := get_of_mem hv
      rw [get_insert] at hxc
      split at hxc
      · next he => exact he ▸ hch
      · exact h.1.xchannels hr v (mem_of_get hxc)
    · obtain ⟨xc, hxc⟩ := get_of_mem hv
      rw [get_insert] at hxc
      split at hxc
      · next he =>
        subst he
        exact absurd (mem_of_get (t := m.cs.channelsByUs) hc) hu
      · exact h.1.both hr v c hc (mem_of_get hxc)
    · rw [get_insert] at hv
      split at hv
      · next he =>
        cases hv
        exact he ▸ hfiled
      · exact h.2 v xc hv
  split
  · refine ⟨⟨h1.1.modify fun hr c hc hx => ?_, h1.2⟩, rfl⟩
    exact (h1.1.both hr _ c hc hx).2
  · exact ⟨h1, rfl⟩

/-! ## Events -/

structure Owned (s : St) : Prop where
  low : Low s.cl
  each : ∀ (a : Nat) cs, s.connections[a]? = some cs → Own a (s.reading = some a) ⟨s.cl, cs⟩

/-- No refusal of an X11 channel that is under both tables of a downstream that has been
    let go. -/
def NoLateRefusal (s : St) : Ev → Prop
  | .packet a type pkt _ => ∀ cs, s.connections[a]? = some cs → cs.sock = false → NotBoth cs type pkt
  | _ => True

theorem Own.weaken {r' : Prop} (h : Own a r m) (hr : r' → r) : Own a r' m := ⟨h.1.weaken (Or.imp_right hr), h.2⟩

/-- A call for one connstate, and what it means for the others. -/
theorem Owned.after {s : St} {m : At} {reading : Option Nat} (h : Owned s) (hs : Spares a s.cl m.cl) (hk : Kept a r m d)
    (hr : reading = some a → r) (hb : ∀ b, b ≠ a → reading ≠ some b) : Owned { s.after a d with reading } := by
  have hsp := hs.trans hk.1
  refine ⟨hsp.low h.low, fun b cs hc => ?_⟩
  by_cases he : b = a
  · subst he
    exact (hk.2 cs (after_get hc)).weaken hr
  · have hc : s.connections[b]? = some cs := by
      rw [← after_get_ne he]
      exact hc
    have := h.each b cs hc
    exact ⟨(this.1.frame fun v hv => hsp.others v b he hv).weaken
      (Or.imp_right fun e => absurd e (hb b he)), this.2⟩

/-- The table changes where nothing of a connstate is. -/
theorem Owned.layer {s : St} {cl : ConnectionLayer} {protoError : Bool} (h : Owned s) (hl : Low s.cl → Low cl)
    (hf : ∀ (u : Nat) a, s.cl.channels[u]? = some (.sharectx a) → cl.channels[u]? = some (.sharectx a)) :
    Owned { s with cl, reading := none, protoError } :=
  ⟨hl h.low, fun b cs hc => ⟨((h.each b cs hc).1.frame fun v hv => hf v b hv).weaken (Or.imp_right fun e => nomatch e),
    (h.each b cs hc).2⟩⟩

theorem Kept.congr {cl : ConnectionLayer} (h : Kept a r m d) (hc : cl.channels = d.1.channels) : Kept a r m (cl, d.2) :=
  ⟨h.1.trans (.of_channels hc), fun cs hd => (h.2 cs hd).congr hc rfl rfl rfl⟩

theorem Own.readable (h : Own a r m) (hr : m.cs.sock = true ∨ r) : Own a True m := ⟨h.1.weaken fun _ => hr, h.2⟩

theorem readable_iff {s : St} {cs : ConnState} (hc : s.connections[a]? = some cs) :
    readable s a = true ↔ cs.sock = true ∨ s.reading = some a := by
  unfold readable
  rw [hc]
  simp

theorem Owned.not_both {s : St} {cs : ConnState} {env : Env} (h : Owned s) (hc : s.connections[a]? = some cs)
    (hok : NoLateRefusal s (.packet a type pkt env)) : NotBoth cs type pkt := by
  cases hs : cs.sock with
  | false => exact hok cs hc hs
  | true =>
    intro _ xc hf hm
    obtain ⟨c, hb⟩ := get_of_mem hm
    have ho := h.each a cs hc
    have := (ho.1.both (Or.inl hs) _ c hb (mem_of_get (ho.found hf))).1
    rw [show cs.sock = false from this] at hs
    cases hs

theorem rportfwdGlobreqResponse_channels {cl cl' : ConnectionLayer} {key : FwdKey} {addr : Nat} {reply : Reply}
    (h : rportfwdGlobreqResponse cl key addr reply = some cl') : cl'.channels = cl.channels := by
  cases reply with
  | success =>
    obtain ⟨_, -, rfl⟩ := Option.map_eq_some_iff.mp h
    rfl
  | failure =>
    obtain ⟨_, -, -, rfl⟩ := rportfwdRemove_spec h
    rfl

theorem step_owned {s s' : St} {e : Ev} (h : Owned s) (hok : NoLateRefusal s e) (hs : step s e = some s') : Owned s' := by
  obtain ⟨-, rfl⟩ | ⟨hp, s1, ha, -, rfl⟩ := step_acted hs
  · exact h
  cases ha with
  | accept =>
    refine h.after (a := s.cl.brk) (m := ⟨s.cl, ConnState.fresh⟩) (r := False)
      (d := ({ s.cl with brk := s.cl.brk + 1 }, some ConnState.fresh)) (.of_channels rfl) ⟨.of_channels rfl, fun cs hd => ?_⟩
      (fun e => nomatch e) fun b _ e => nomatch e
    cases hd
    exact ⟨⟨fun u hu => by simp [ConnState.fresh] at hu, fun _ u hu => by simp [ConnState.fresh] at hu,
      fun _ u c hc => by simp [ConnState.fresh] at hc⟩, fun u xc hx => by simp [ConnState.fresh] at hx⟩
  | @packet a type pkt env cs d hr hc hh _ =>
    have ho := (h.each a cs hc).readable (readable_iff hc |>.mp hr)
    exact h.after (.of_channels rfl) (hh.kept ho h.low (h.not_both hc hok)) (fun _ => trivial) fun b hb e =>
      hb (Option.some.inj e).symm
  | @malformed a message cs d out hr hc _ ht =>
    have ho := (h.each a cs hc).readable (readable_iff hc |>.mp hr)
    exact h.after (m := (At.send ⟨s.cl, cs⟩ out).closeSock) (.of_channels rfl) (tryCleanup_kept ho.closeSock ht)
      (fun _ => trivial) fun b hb e => hb (Option.some.inj e).symm
  | @closing a cs d hc _ ht =>
    exact h.after (m := (At.mk s.cl cs).closeSock) (.of_channels rfl) (tryCleanup_kept (h.each a cs hc).closeSock ht)
      (fun e => nomatch e) fun b _ e => nomatch e
  | replyNone => exact h.layer id fun _ _ => id
  | @replySharing reply pkt head next a cs d globreqs _ _ hc hg _ =>
    exact h.after (m := ⟨s.cl, cs⟩) (.of_channels rfl) ((gotGlobreqReply_kept (h.each a cs hc) hg).congr rfl)
      (fun e => nomatch e) fun b _ e => nomatch e
  | replyOurs _ _ hr _ =>
    have hc := rportfwdGlobreqResponse_channels hr
    exact h.layer (fun hl u hu => hl u (by rwa [← hc])) fun u a hu => by
      show _ = _
      rw [hc]
      exact hu
  | @openSharing src key r a cs m _ _ hc hg =>
    obtain ⟨id, out, rfl⟩ := gotChannelOpen_spec hg
    exact h.after (m := ⟨s.cl, cs⟩) (.of_channels rfl)
      (Own.kept (n := At.send ⟨s.cl, addHalfchannel cs id⟩ out) (h.each a cs hc) (.of_channels rfl))
      (fun e => nomatch e) fun b _ e => nomatch e
  | openOther => exact h.layer id fun _ _ => id
  | @msgSharing type pkt a cs d hch hc hh _ =>
    exact h.after (m := ⟨s.cl, cs⟩) (.of_channels rfl) (hh.kept ((h.each a cs hc).weaken False.elim) h.low hch)
      (fun e => nomatch e) fun b _ e => nomatch e
  | msgOurs _ => exact h.layer id fun _ _ => id
  | msgNone _ => exact h.layer id fun _ _ => id
  | openOurs =>
    refine h.layer (fun hl u hu => ?_) fun u a hu => ?_
    · rcases ExtTreeMap.mem_insertIfNew.mp hu with he | hu
      · cases Std.compare_eq_iff_eq.mp he
        exact (allocChannelId_fresh hl).2
      · exact hl u hu
    · show (s.cl.channels.insertIfNew _ _)[u]? = _
      rw [insertIfNew_absent (allocChannelId_fresh h.low).1, get_insert, if_neg, hu]
      rintro rfl
      rw [(allocChannelId_fresh h.low).1] at hu
      cases hu
  | closeOurs ho =>
    refine h.layer (fun hl u hu => hl u (mem_erase_nat.mp hu).1) fun v a hv => ?_
    show (s.cl.channels.erase _)[v]? = _
    rw [get_erase, if_neg, hv]
    rintro rfl
    cases ho.symm.trans hv
  | forwardTaken _ => exact h.layer id fun _ _ => id
  | forwardOurs ha _ =>
    obtain ⟨-, -, rfl⟩ := rportfwdAlloc_spec ha
    exact h.layer id fun _ _ => id
  | unforwardOurs _ => exact h.layer id fun _ _ => id
  | @handover u x auth cs m ho _ hc hx =>
    have hne : ∀ v b : Nat, s.cl.channels[v]? = some (.sharectx b) → u ≠ v := by
      rintro v b hv rfl
      cases ho.symm.trans hv
    have ho' := h.each _ cs hc
    obtain ⟨h1, h2⟩ := setupX11Channel_own (a := auth.shareCs) (r := s.reading = some auth.shareCs)
      (m := ⟨{ s.cl with channels := s.cl.channels.insert u (.sharectx auth.shareCs) }, cs⟩)
      ⟨ho'.1.frame fun v hv => by rw [get_insert, if_neg (hne v _ hv), hv], ho'.2⟩
      (fun hm => hne u _ (ho'.1.channels u hm) rfl) (by rw [get_insert, if_pos rfl]) hx
    refine h.after (m := ⟨{ s.cl with channels := s.cl.channels.insert u (.sharectx auth.shareCs) }, cs⟩)
      ⟨fun v b _ hv => ?_, fun hl v hv => ?_⟩ (h1.kept (.of_channels h2)) (fun e => nomatch e) fun b _ e => nomatch e
    · rw [get_insert, if_neg (hne v b hv), hv]
    · rcases ExtTreeMap.mem_insert.mp hv with he | hv
      · cases Std.compare_eq_iff_eq.mp he
        exact hl u (mem_of_get ho)
      · exact hl v hv

theorem init_owned : Owned St.init :=
  ⟨fun u hu => by simp [St.init] at hu, fun a cs hc => by simp [St.init] at hc⟩

end Putty.Share
