/-
  Putty.Share.Rejections — what a CHANNEL_OPEN or OPEN_CONFIRMATION that is rejected leaves
  behind (`sshshare.c`, share_got_pkt_from_downstream).

  A packet is rejected by letting its downstream go. `OnlyEnds`: what is left is what
  letting the downstream go leaves in the state before the packet (records allocated and
  freed again apart), so no id, no channel and no message to the server comes from the
  packet. Two rejections do more. A CHANNEL_OPEN that is cut short has been given a channel
  id before it is looked at; the id stays in the table of the connection layer, in the name
  of a connstate that may have been freed. A confirmation of an X11 channel with too small
  a window has registered the channel, and the cleanup then closes it at the server.

  Proved: these are the only two (`rejected_only_ends_iff`), the first of them for every
  CHANNEL_OPEN that is cut short while ids and channels are in step (`Owned.not_reclaimed`).
-/

import Putty.Share.Endings
import Putty.Share.Ownership

namespace Putty.Share

open Std Putty.Lib Putty.Utils Putty.Ssh2

variable {me : Nat} {m m' : At} {d : Done} {type : Msg} {pkt : List UInt8} {env : Env} {t : Tree Owner} {u : Nat}

/-- The packet has done nothing but end the session. -/
def OnlyEnds (me : Nat) (m : At) (d : Done) : Prop :=
  ∃ err brk, confused me ⟨{ m.cl with brk }, m.cs⟩ err = some d

/-- The cleanup takes the channel out of both tables. -/
def Closing (cs : ConnState) (u : Nat) : Prop := ∃ c, cs.channelsByUs[u]? = some c ∧ c.state = .rcvdClose

/-- The id that would be given out is in use, or the cleanup frees it. -/
def Reclaimed (m : At) : Prop := m.cl.allocChannelId ∈ m.cl.channels ∨ Closing m.cs m.cl.allocChannelId

/-! ## The tables after the cleanup -/

theorem cleanupChannel_tables (h : cleanupChannel me m u = some m') (v : Nat) :
    (Closing m'.cs v ↔ v ≠ u ∧ Closing m.cs v) ∧
      (v = u → Closing m.cs v → m'.cl.channels[v]? = none ∧ v ∉ m'.cs.channelsByUs) ∧
      (¬ (v = u ∧ Closing m.cs v) → m'.cl.channels[v]? = m.cl.channels[v]? ∧
        (v ∈ m'.cs.channelsByUs ↔ v ∈ m.cs.channelsByUs)) := by
  obtain ⟨rfl, hstay⟩ | ⟨c, out, hu, hs, rfl⟩ | ⟨c, out, x11, hu, hs, rfl⟩ := cleanupChannel_spec h
  · have hnot : ¬ Closing m'.cs u := by
      rintro ⟨c, hc, hs⟩
      rcases hstay c hc with h | h <;> rw [hs] at h <;> cases h
    refine ⟨⟨fun hc => ⟨fun he => hnot (he ▸ hc), hc⟩, And.right⟩, fun he hc => absurd (he ▸ hc) hnot, fun _ => ⟨rfl, Iff.rfl⟩⟩
  · have hnot : ¬ Closing m.cs u := by
      rintro ⟨c', hc', hs'⟩
      rw [hu] at hc'
      cases hc'
      rw [hs] at hs'
      cases hs'
    have hget : ∀ w, w ≠ u → (modifyChannel m.cs u fun c => { c with state := .sentClose }).channelsByUs[w]? =
        m.cs.channelsByUs[w]? := by
      intro w hw
      unfold modifyChannel
      rw [ExtTreeMap.getElem?_modify, if_neg fun he => hw (Std.compare_eq_iff_eq.mp he).symm]
    have hself : (modifyChannel m.cs u fun c => { c with state := .sentClose }).channelsByUs[u]? =
        some { c with state := .sentClose } := by
      unfold modifyChannel
      rw [ExtTreeMap.getElem?_modify, if_pos ReflCmp.compare_self, hu]
      rfl
    refine ⟨⟨fun ⟨c', hc', hs'⟩ => ?_, fun ⟨hne, hc⟩ => ?_⟩, fun he hc => absurd (he ▸ hc) hnot, fun _ => ⟨rfl, mem_modify⟩⟩
    · have hne : v ≠ u := by
        rintro rfl
        rw [hself] at hc'
        cases hc'
        cases hs'
      rw [hget v hne] at hc'
      exact ⟨hne, c', hc', hs'⟩
    · obtain ⟨c', hc', hs'⟩ := hc
      exact ⟨c', by rw [hget v hne]; exact hc', hs'⟩
  · refine ⟨?_, ?_, ?_⟩
    · unfold Closing
      dsimp only
      rw [get_erase]
      by_cases he : u = v
      · simp [he]
      · simp [he, Ne.symm he]
    · rintro rfl -
      exact ⟨by rw [get_erase, if_pos rfl], fun hm => (mem_erase_nat.mp hm).2 rfl⟩
    · intro hne
      have hvu : v ≠ u := by
        rintro rfl
        exact hne ⟨rfl, c, hu, hs⟩
      refine ⟨by rw [get_erase, if_neg hvu.symm], ?_⟩
      rw [mem_erase_nat]
      simp [hvu]

theorem cleanupChannels_tables : ∀ {l : List Nat} {m m' : At}, l.foldlM (cleanupChannel me) m = some m' → ∀ v,
    (v ∈ l ∧ Closing m.cs v → m'.cl.channels[v]? = none ∧ v ∉ m'.cs.channelsByUs) ∧
      (¬ (v ∈ l ∧ Closing m.cs v) → m'.cl.channels[v]? = m.cl.channels[v]? ∧
        (v ∈ m'.cs.channelsByUs ↔ v ∈ m.cs.channelsByUs))
  | [], m, m', h, v => by
    cases h
    exact ⟨fun hv => absurd hv.1 List.not_mem_nil, fun _ => ⟨rfl, Iff.rfl⟩⟩
  | u :: l, m, m', h, v => by
    rw [List.foldlM_cons] at h
    obtain ⟨m1, h1, h2⟩ := Option.bind_eq_some_iff.mp h
    obtain ⟨hclosing, hgone, hsame⟩ := cleanupChannel_tables h1 v
    obtain ⟨ih1, ih2⟩ := cleanupChannels_tables h2 v
    by_cases hu : v = u ∧ Closing m.cs v
    · obtain ⟨hg1, hg2⟩ := hgone hu.1 hu.2
      obtain ⟨h3, h4⟩ := ih2 fun hv => (hclosing.mp hv.2).1 hu.1
      refine ⟨fun _ => ⟨h3.trans hg1, fun hm => hg2 (h4.mp hm)⟩, fun hn => absurd ⟨?_, hu.2⟩ hn⟩
      rw [hu.1]
      exact List.mem_cons_self
    · obtain ⟨hs1, hs2⟩ := hsame hu
      constructor
      · rintro ⟨hv, hc⟩
        have hne : v ≠ u := fun he => hu ⟨he, hc⟩
        exact ih1 ⟨(List.mem_cons.mp hv).resolve_left hne, hclosing.mpr ⟨hne, hc⟩⟩
      · intro hn
        obtain ⟨h3, h4⟩ := ih2 fun hv => hn ⟨List.mem_cons_of_mem u hv.1, (hclosing.mp hv.2).2⟩
        exact ⟨h3.trans hs1, h4.trans hs2⟩

theorem tryCleanup_tables (h : tryCleanup me m = some d) (v : Nat) :
    (Closing m.cs v → d.1.channels[v]? = none) ∧ (¬ Closing m.cs v → d.1.channels[v]? = m.cl.channels[v]?) ∧
      ∀ cs, d.2 = some cs → (v ∈ cs.channelsByUs ↔ v ∈ m.cs.channelsByUs ∧ ¬ Closing m.cs v) := by
  obtain ⟨m1, m2, h1, h2, rfl⟩ := tryCleanup_spec h
  obtain ⟨out, he⟩ := cleanupHalfchannels_spec me m
  rw [he] at h1
  have hfwd : m2.cl.channels = m1.cl.channels ∧ m2.cs.channelsByUs = m1.cs.channelsByUs := by
    refine foldlM_keeps (P := fun m' => m'.cl.channels = m1.cl.channels ∧ m'.cs.channelsByUs = m1.cs.channelsByUs)
      (fun m3 key m4 h3 h4 => ?_) ⟨rfl, rfl⟩ h2
    obtain ⟨rfl, -⟩ | ⟨f, rpf, out, -, -, -, -, rfl⟩ := cleanupForwarding_spec h4
    · exact h3
    · exact h3
  obtain ⟨hgone, hsame⟩ := cleanupChannels_tables h1 v
  have hmem : Closing m.cs v → v ∈ m.cs.channelsByUs.keys := fun ⟨c, hc, _⟩ => ExtTreeMap.mem_keys.mpr (mem_of_get hc)
  refine ⟨fun hc => ?_, fun hc => ?_, fun cs hcs => ?_⟩
  · dsimp only
    rw [hfwd.1]
    exact (hgone ⟨hmem hc, hc⟩).1
  · dsimp only
    rw [hfwd.1]
    exact (hsame fun hv => hc hv.2).1
  · dsimp only at hcs
    split at hcs
    · cases hcs
    · cases hcs
      rw [hfwd.2]
      by_cases hc : Closing m.cs v
      · exact ⟨fun hm => absurd hm (hgone ⟨hmem hc, hc⟩).2, fun hm => absurd hc hm.2⟩
      · rw [(hsame fun hv => hc hv.2).2]
        exact ⟨fun hm => ⟨hm, hc⟩, And.left⟩

/-! ## The table of ids has no part in the cleanup -/

def ConnectionLayer.withChannels (cl : ConnectionLayer) (t : Tree Owner) : ConnectionLayer := { cl with channels := t }

def At.withChannels (m : At) (t : Tree Owner) : At := ⟨m.cl.withChannels t, m.cs⟩

theorem cleanupHalfchannels_with : cleanupHalfchannels me (m.withChannels t) = (cleanupHalfchannels me m).withChannels t := by
  unfold cleanupHalfchannels ConnectionLayer.sendPacketFromDownstream
  rw [foldl_emit_out, foldl_emit_out]
  rfl

theorem cleanupChannel_with (m : At) (t : Tree Owner) (u : Nat) :
    ∃ t', cleanupChannel me (m.withChannels t) u = (cleanupChannel me m u).map (·.withChannels t') := by
  unfold cleanupChannel
  cases hc : findChannelByUpstream m.cs u with
  | none => exact ⟨t, by simp [At.withChannels, hc]⟩
  | some chan =>
    by_cases hs : chan.state = .sentClose ∨ chan.state = .unacknowledged
    · exact ⟨t, by simp [At.withChannels, hc, hs]⟩
    · by_cases hr : chan.state = .rcvdClose
      · refine ⟨t.erase u, ?_⟩
        by_cases hx : chan.x11AuthDataFreed = true
        · simp [At.withChannels, hc, hr, removeChannel, hx]
        · cases ha : chan.x11AuthUpstream <;>
            simp [At.withChannels, ConnectionLayer.withChannels, ConnectionLayer.sendPacketFromDownstream, ConnectionLayer.emit,
              ConnectionLayer.deleteSharingChannel, ConnectionLayer.removeSharingX11Display, hc, hr, removeChannel, hx, ha]
      · refine ⟨t, ?_⟩
        simp [At.withChannels, ConnectionLayer.withChannels, ConnectionLayer.sendPacketFromDownstream, ConnectionLayer.emit,
          hc, hs, hr]

theorem cleanupChannels_with : ∀ (l : List Nat) (m : At) (t : Tree Owner),
    ∃ t', l.foldlM (cleanupChannel me) (m.withChannels t) = (l.foldlM (cleanupChannel me) m).map (·.withChannels t')
  | [], m, t => ⟨t, rfl⟩
  | u :: l, m, t => by
    have hone : ∃ t', cleanupChannel me (m.withChannels t) u = (cleanupChannel me m u).map (·.withChannels t') := cleanupChannel_with m t u
    obtain ⟨t1, h1⟩ := hone
    rw [List.foldlM_cons, List.foldlM_cons, h1]
    cases cleanupChannel me m u with
    | none => exact ⟨t, rfl⟩
    | some m1 => exact cleanupChannels_with l m1 t1

theorem cleanupForwarding_with (m : At) (t : Tree Owner) (key : FwdKey) :
    cleanupForwarding me (m.withChannels t) key = (cleanupForwarding me m key).map (·.withChannels t) := by
  unfold cleanupForwarding
  cases hf : m.cs.forwardings[key]? with
  | none => simp [At.withChannels, hf]
  | some fwd =>
    cases ha : fwd.active with
    | false => simp [At.withChannels, hf, ha]
    | true =>
      simp only [At.withChannels, hf, ha, if_true, ConnectionLayer.rportfwdRemove, ConnectionLayer.rportfwd,
        ConnectionLayer.withChannels, ConnectionLayer.sendPacketFromDownstream, ConnectionLayer.emit]
      cases (m.cl.rportfwds[key]?).filter (·.addr = fwd.rpf) <;> rfl

theorem cleanupForwardings_with (l : List FwdKey) (m : At) (t : Tree Owner) :
    l.foldlM (cleanupForwarding me) (m.withChannels t) = (l.foldlM (cleanupForwarding me) m).map (·.withChannels t) := by
  induction l generalizing m with
  | nil => rfl
  | cons key l ih =>
    rw [List.foldlM_cons, List.foldlM_cons, cleanupForwarding_with]
    cases cleanupForwarding me m key with
    | none => rfl
    | some m1 => exact ih m1

theorem tryCleanup_with (m : At) (t : Tree Owner) :
    ∃ t', tryCleanup me (m.withChannels t) = (tryCleanup me m).map fun d => (d.1.withChannels t', d.2) := by
  unfold tryCleanup
  rw [cleanupHalfchannels_with]
  generalize cleanupHalfchannels me m = n
  have hall : ∃ t', n.cs.channelsByUs.keys.foldlM (cleanupChannel me) (n.withChannels t) =
      (n.cs.channelsByUs.keys.foldlM (cleanupChannel me) n).map (·.withChannels t') := cleanupChannels_with _ n t
  obtain ⟨t1, h1⟩ := hall
  refine ⟨t1, ?_⟩
  show (List.foldlM (cleanupChannel me) (n.withChannels t) n.cs.channelsByUs.keys).bind _ =
    Option.map _ ((List.foldlM (cleanupChannel me) n n.cs.channelsByUs.keys).bind _)
  rw [h1]
  cases List.foldlM (cleanupChannel me) n n.cs.channelsByUs.keys with
  | none => rfl
  | some m1 =>
    show (List.foldlM (cleanupForwarding me) (m1.withChannels t1) m1.cs.forwardings.keys).bind _ =
      Option.map _ ((List.foldlM (cleanupForwarding me) m1 m1.cs.forwardings.keys).bind _)
    rw [cleanupForwardings_with]
    cases List.foldlM (cleanupForwarding me) m1 m1.cs.forwardings.keys with
    | none => rfl
    | some m2 =>
      show (if m2.cs.idle then _ else _) = Option.map _ (if m2.cs.idle then _ else _)
      split <;> rfl

theorem confused_eq (hs : m.cs.sock = true) (err : String) : confused me m err =
    tryCleanup me (m.send [.toDownstream me .disconnect
      (put32BitMsbFirst 2 ++ putString (text err) ++ putString (text "en"))]).closeSock := by
  unfold confused shareDisconnect sendPacketToDownstream beginCleanup
  simp [hs, ConnectionLayer.emit, At.send, At.closeSock]

theorem confused_sock {err : String} (h : confused me m err = some d) : m.cs.sock = true :=
  (shareDisconnect_spec h).1

theorem confused_with (hs : m.cs.sock = true) (t : Tree Owner) (err : String) :
    ∃ t', confused me (m.withChannels t) err = (confused me m err).map fun d => (d.1.withChannels t', d.2) := by
  rw [confused_eq hs, confused_eq (m := m.withChannels t) hs]
  exact tryCleanup_with (m.send [.toDownstream me .disconnect
    (put32BitMsbFirst 2 ++ putString (text err) ++ putString (text "en"))]).closeSock t

theorem confused_tables {err : String} (h : confused me m err = some d) (v : Nat) :
    (Closing m.cs v → d.1.channels[v]? = none) ∧ (¬ Closing m.cs v → d.1.channels[v]? = m.cl.channels[v]?) ∧
      ∀ cs, d.2 = some cs → (v ∈ cs.channelsByUs ↔ v ∈ m.cs.channelsByUs ∧ ¬ Closing m.cs v) := by
  rw [confused_eq (confused_sock h)] at h
  exact tryCleanup_tables h v

/-- An id that was in use, or that the cleanup frees, may as well have been given out. -/
theorem confused_given {err : String} (hr : Reclaimed m) (h : confused me ⟨m.cl.withNew me, m.cs⟩ err = some d) :
    confused me m err = some d := by
  have hs : m.cs.sock = true := confused_sock (m := ⟨m.cl.withNew me, m.cs⟩) h
  have htables := fun v => confused_tables h v
  have hwith : ∃ t', confused me (m.withChannels (m.cl.withNew me).channels) err =
      (confused me m err).map fun d => (d.1.withChannels t', d.2) := confused_with hs _ err
  obtain ⟨t', ht'⟩ := hwith
  have hm : m.withChannels (m.cl.withNew me).channels = ⟨m.cl.withNew me, m.cs⟩ := rfl
  rw [hm, h] at ht'
  obtain ⟨d', hd', he⟩ := Option.map_eq_some_iff.mp ht'.symm
  have htables' := fun v => confused_tables hd' v
  suffices hch : t' = d'.1.channels by
    rw [hd', ← he, hch]
    rfl
  have hd1 : d.1.channels = t' := by
    rw [← he]
    rfl
  apply ExtTreeMap.ext_getElem?
  intro v
  rw [← hd1]
  by_cases hc : Closing m.cs v
  · rw [(htables v).1 hc, (htables' v).1 hc]
  · rw [(htables v).2.1 hc, (htables' v).2.1 hc]
    show (m.cl.channels.insertIfNew _ _)[v]? = _
    rw [ExtTreeMap.getElem?_insertIfNew, if_neg]
    rintro ⟨hv, hn⟩
    cases Std.compare_eq_iff_eq.mp hv
    exact hr.elim hn hc

/-! ## Rejected messages -/

theorem open_only_ends_iff (ht : truncatedOpen pkt = true) (h : channelOpen me m pkt = some d) :
    OnlyEnds me m d ↔ Reclaimed m := by
  have hc : confused me ⟨m.cl.withNew me, m.cs⟩ "Truncated CHANNEL_OPEN packet" = some d := by
    unfold channelOpen at h
    unfold truncatedOpen at ht
    dsimp only at h
    rwa [if_pos ht] at h
  constructor
  · rintro ⟨err, brk, hd⟩
    by_contra hr
    obtain ⟨hin, hcl⟩ := not_or.mp hr
    have h1 := (confused_tables hc m.cl.allocChannelId).2.1 hcl
    have h2 := (confused_tables hd m.cl.allocChannelId).2.1 hcl
    rw [h1] at h2
    have hnew : (m.cl.withNew me).channels[m.cl.allocChannelId]? = some (.sharectx me) := by
      show (m.cl.channels.insertIfNew _ _)[_]? = _
      rw [ExtTreeMap.getElem?_insertIfNew, if_pos ⟨ReflCmp.compare_self, hin⟩]
    exact hin (mem_of_get (h2.symm.trans hnew))
  · exact fun hr => ⟨_, m.cl.brk, confused_given hr hc⟩

/-- The channel that is registered before the window is looked at is there afterwards. -/
theorem registered_only_ends_iff {xc : XChannel} {dn : Nat} {maxpkt : UInt32} {err : String}
    (ht : truncatedConfirmation pkt = false) (hk : firstId pkt ∉ m.cs.halfchannels)
    (hx : findXchannelByServer m.cs (firstId pkt) = some xc)
    (h : confused me (addChannel m dn xc.upstreamId (firstId pkt) .opened maxpkt).2 err = some d) :
    OnlyEnds me m d ↔ ¬ LeftOpen m.cs .channelOpenConfirmation pkt := by
  obtain ⟨o, cs, ha, ⟨-, rfl, hcoll⟩ | ⟨-, hu, hs, rfl⟩⟩ := addChannel_spec m dn xc.upstreamId (firstId pkt) .opened maxpkt
  · rw [ha] at h
    refine ⟨fun _ ⟨_, _, _, xc', hx', hu, hs⟩ => ?_, fun _ => ⟨err, m.cl.brk + 1, h⟩⟩
    cases hx.symm.trans hx'
    rcases hcoll with hm | ⟨-, hm⟩
    · exact hu hm
    · exact hs hm
  · rw [ha] at h
    refine ⟨fun ⟨err', brk, h'⟩ _ => ?_, fun hl => absurd ⟨rfl, ht, hk, xc, hx, hu, hs (by simp)⟩ hl⟩
    have hget : (m.cs.channelsByUs.insert xc.upstreamId (newChannel m.cl.brk dn (firstId pkt) .opened maxpkt))[xc.upstreamId]? =
        some (newChannel m.cl.brk dn (firstId pkt) .opened maxpkt) := ExtTreeMap.getElem?_insert_self
    have htables := confused_tables h xc.upstreamId
    obtain ⟨out, -, hends⟩ := confused_ends h
    have hkept : d.2 ≠ none := fun hd => (tryCleanup_freed_iff hends).mp hd (.inl ⟨xc.upstreamId, _, hget, by simp [newChannel]⟩)
    obtain ⟨cs, hcs⟩ := Option.ne_none_iff_exists'.mp hkept
    have hclosing : ¬ Closing { m.cs with
        channelsByUs := m.cs.channelsByUs.insert xc.upstreamId (newChannel m.cl.brk dn (firstId pkt) .opened maxpkt)
        channelsByServer := if ChanState.opened = .unacknowledged then m.cs.channelsByServer
          else m.cs.channelsByServer.insert (firstId pkt) xc.upstreamId } xc.upstreamId := by
      rintro ⟨c, hc, hst⟩
      cases hget.symm.trans hc
      cases hst
    have hin := (htables.2.2 cs hcs).mpr ⟨mem_of_get hget, hclosing⟩
    exact hu ((confused_tables h' xc.upstreamId).2.2 cs hcs |>.mp hin).1

theorem confirmation_only_ends_iff (he : confirmationEnds m.cs pkt = true) (h : channelOpenConfirmation me m pkt = some d) :
    OnlyEnds me m d ↔ ¬ LeftOpen m.cs .channelOpenConfirmation pkt := by
  unfold channelOpenConfirmation at h
  dsimp only at h
  split at h
  · next ht =>
    have ht : truncatedConfirmation pkt = true := by simpa [truncatedConfirmation] using ht
    refine ⟨fun _ hl => ?_, fun _ => ⟨_, m.cl.brk, h⟩⟩
    rw [hl.2.1] at ht
    cases ht
  · next ht =>
    have ht : truncatedConfirmation pkt = false := by
      rw [← Bool.not_eq_true]
      simpa [truncatedConfirmation] using ht
    split at h
    · next hk =>
      have hk : firstId pkt ∈ m.cs.halfchannels := hk
      simp [confirmationEnds, ht, hk] at he
    · next hk =>
      have hk : firstId pkt ∉ m.cs.halfchannels := hk
      split at h
      · next hx =>
        have hx : findXchannelByServer m.cs (firstId pkt) = none := hx
        refine ⟨fun _ hl => ?_, fun _ => ⟨_, m.cl.brk, h⟩⟩
        obtain ⟨_, _, _, xc, hx', _⟩ := hl
        rw [hx] at hx'
        cases hx'
      · next xc hx =>
        have hx : findXchannelByServer m.cs (firstId pkt) = some xc := hx
        split at h
        · next hw => exact registered_only_ends_iff ht hk hx h
        · next hw =>
          have hw : smallWindow pkt = false := by
            rw [← Bool.not_eq_true]
            simpa [smallWindow] using hw
          simp [confirmationEnds, ht, hk, hx, hw] at he

/-! ## Which rejections leave nothing -/

/-- The messages that ask for a channel or grant one. -/
def Msg.opens (type : Msg) : Prop := type = .channelOpen ∨ type = .channelOpenConfirmation

/-- A rejected message only ends the session, a CHANNEL_OPEN if its id was nobody's to give,
    and a confirmation unless it has registered an X11 channel. -/
theorem rejected_only_ends_iff (hopens : type.opens) (hrejected : packetEnds m.cs type pkt env = true)
    (h : gotPktFromDownstream me m type pkt env = some d) :
    OnlyEnds me m d ↔ (type = .channelOpen → Reclaimed m) ∧ ¬ LeftOpen m.cs type pkt := by
  rcases hopens with rfl | rfl
  · rw [open_only_ends_iff hrejected h]
    exact ⟨fun hr => ⟨fun _ => hr, fun hl => nomatch hl.1⟩, fun hr => hr.1 rfl⟩
  · rw [confirmation_only_ends_iff hrejected h]
    exact ⟨fun hl => ⟨nofun, hl⟩, And.right⟩

/-- A confirmation of a channel that nobody offered. -/
theorem unknown_confirmation_only_ends : ∃ d, gotPktFromDownstream 0 ⟨St.init.cl, ConnState.fresh⟩ .channelOpenConfirmation
    (List.replicate 16 0) ⟨none, false, [], []⟩ = some d ∧ OnlyEnds 0 ⟨St.init.cl, ConnState.fresh⟩ d := by
  have hsome : (gotPktFromDownstream 0 ⟨St.init.cl, ConnState.fresh⟩ .channelOpenConfirmation (List.replicate 16 0)
      ⟨none, false, [], []⟩).isSome = true := by decide +kernel
  obtain ⟨d, hd⟩ := Option.isSome_iff_exists.mp hsome
  refine ⟨d, hd, (rejected_only_ends_iff (.inr rfl) (by decide +kernel) hd).mpr ⟨nofun, ?_⟩⟩
  rintro ⟨-, -, -, xc, hx, -⟩
  have hnone : findXchannelByServer ConnState.fresh (firstId (List.replicate 16 0)) = none := by decide +kernel
  rw [hnone] at hx
  cases hx

/-- An empty CHANNEL_OPEN, the first packet of a downstream: its connstate is freed, and the
    connection layer goes on routing messages about channel 256 to it. -/
theorem truncated_open_keeps_id :
    (run step St.init [.accept, .packet 0 .channelOpen [] ⟨none, false, [], []⟩]).map
        (fun s => (s.connections.isEmpty, s.cl.channels[256]?)) = some (true, some (.sharectx 0)) ∧
      ¬ ∀ (me : Nat) (m : At) (type : Msg) (pkt : List UInt8) (env : Env) (d : Done), type.opens →
        packetEnds m.cs type pkt env = true → gotPktFromDownstream me m type pkt env = some d → OnlyEnds me m d := by
  refine ⟨by decide +kernel, fun hall => ?_⟩
  have hsome : (gotPktFromDownstream 0 ⟨St.init.cl, ConnState.fresh⟩ .channelOpen [] ⟨none, false, [], []⟩).isSome = true := by
    decide +kernel
  obtain ⟨d, hd⟩ := Option.isSome_iff_exists.mp hsome
  have hends := hall 0 ⟨St.init.cl, ConnState.fresh⟩ .channelOpen [] ⟨none, false, [], []⟩ d (.inl rfl) (by decide +kernel) hd
  have hopen : channelOpen 0 ⟨St.init.cl, ConnState.fresh⟩ [] = some d := hd
  rcases (open_only_ends_iff (by decide +kernel) hopen).mp hends with hin | ⟨c, hc, -⟩
  · simp [St.init] at hin
  · simp [ConnState.fresh] at hc

end Putty.Share
