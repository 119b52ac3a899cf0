/-
  Putty.Share.Isolation — what crosses between a downstream and the server
  (`sshshare.c`, share_got_pkt_from_server and the channel messages of
  share_got_pkt_from_downstream).

  A message of the server goes to the downstream whose channel it cites, and to no other,
  with that downstream's id in place of ours and everything behind it as it was; the data
  of CHANNEL_DATA may come in pieces (`serverMsg_delivers`). What is for an X11 channel
  that the downstream has not accepted yet waits for it (`XQueued`) and comes in the same
  form when it has (`confirmation_flushes`). In the other direction nothing is checked: a
  channel message is passed on as it is, whatever server id it cites
  (`packet_forwards`), so a downstream can write to another's channel
  (`another_downstreams_channel`).
-/

import Putty.Share.Ownership

namespace Putty.Share

open Std Putty.Lib Putty.Utils Putty.Ssh2
open Putty.Ssh2.GlobalRequests (Reply queueGlobalRequestHandler filterReply)

/-! ## What has been sent where -/

def Out.down : Out → Option (Nat × Msg × List UInt8)
  | .toDownstream a type pkt => some (a, type, pkt)
  | .toServer .. => none

def Out.up : Out → Option (Nat × Msg × List UInt8)
  | .toServer a type pkt => some (a, type, pkt)
  | .toDownstream .. => none

/-- The packets written to the downstreams, and those handed to the server's connection. -/
def downs (cl : ConnectionLayer) : List (Nat × Msg × List UInt8) := cl.out.filterMap Out.down

def ups (cl : ConnectionLayer) : List (Nat × Msg × List UInt8) := cl.out.filterMap Out.up

/-- The string behind the channel id: the data of a CHANNEL_DATA, the name of a CHANNEL_REQUEST. -/
def stringField (pkt : List UInt8) : List UInt8 := (BinarySource.ofData pkt).getUint32.2.getString.1

/-- A message as the downstream of this channel is to see it. -/
inductive Rewritten (c : Channel) (pkt : List UInt8) : Msg → List (List UInt8) → Prop
  | whole {type : Msg} : type ≠ .channelData → Rewritten c pkt type [put32BitMsbFirst c.downstreamId ++ pkt.drop 4]
  | cut (parts : List (List UInt8)) : parts.flatten = stringField pkt →
      (∀ p ∈ parts, c.downstreamMaxpkt < 0 ∨ p.length ≤ c.downstreamMaxpkt) →
      Rewritten c pkt .channelData
        (parts.map fun p => put32BitMsbFirst c.downstreamId ++ put32BitMsbFirst p.length ++ p)

/-- The connected downstream that has a channel under this id of ours. -/
def Recipient (s : St) (u a : Nat) (c : Channel) : Prop :=
  s.cl.channels[u]? = some (.sharectx a) ∧ ∃ cs, s.connections[a]? = some cs ∧ cs.sock = true ∧ cs.channelsByUs[u]? = some c

/-- The message went to its recipient, and to nobody when there is none. -/
structure Delivers (s : St) (type : Msg) (pkt : List UInt8) (s' : St) : Prop where
  recipient : ∀ a c, Recipient s (firstId pkt) a c → ∃ ps, Rewritten c pkt type ps ∧
    downs s'.cl = downs s.cl ++ ps.map fun p => (a, type, p)
  nobody : (∀ a c, ¬ Recipient s (firstId pkt) a c) → downs s'.cl = downs s.cl

variable {me : Nat} {m m' : At} {d : Done} {type : Msg} {pkt : List UInt8}

theorem pieces_spec : ∀ {limit : Int} {data : List UInt8} {parts : List (List UInt8)}, pieces limit data = some parts →
    parts.flatten = data ∧ ∀ p ∈ parts, limit < 0 ∨ p.length ≤ limit := by
  intro limit data
  induction data using pieces.induct limit with
  | case1 data h =>
    intro parts hp
    unfold pieces at hp
    rw [if_pos h] at hp
    cases hp
    exact ⟨by simp, by simpa using h⟩
  | case2 data h h0 =>
    intro parts hp
    unfold pieces at hp
    rw [if_neg h, dif_pos h0] at hp
    cases hp
  | case3 data h h0 ih =>
    intro parts hp
    unfold pieces at hp
    rw [if_neg h, dif_neg h0] at hp
    obtain ⟨rest, hr, rfl⟩ := Option.map_eq_some_iff.mp hp
    obtain ⟨h1, h2⟩ := ih hr
    refine ⟨by rw [List.flatten_cons, h1, List.take_append_drop], fun p hp => ?_⟩
    rcases List.mem_cons.mp hp with rfl | hp
    · right
      rw [List.length_take]
      omega
    · exact h2 p hp

theorem patch_zero (id : Nat) : patch pkt 0 id = put32BitMsbFirst id ++ pkt.drop 4 := by
  simp [patch]

/-- The data is the same behind another channel id. -/
theorem stringField_patch (id : Nat) : stringField (patch pkt 0 id) = stringField pkt := by
  have hp := BinarySource.getUint32_bytes (put32_length id) (BinarySource.ofData_reads (put32BitMsbFirst id ++ pkt.drop 4))
  unfold stringField
  rw [patch_zero]
  by_cases hl : pkt.length < 4
  · obtain ⟨-, he⟩ := BinarySource.getUint32_short (BinarySource.ofData_reads pkt) hl
    rw [BinarySource.getString_err he]
    exact BinarySource.getString_short hp.2 (by rw [List.drop_of_length_le (by omega)]; decide)
  · have hd := BinarySource.getUint32_bytes (b := pkt.take 4) (l := pkt.drop 4) (by rw [List.length_take]; omega)
      (by rw [List.take_append_drop]; exact BinarySource.ofData_reads pkt)
    exact BinarySource.getString_congr (hp.2.1.trans hd.2.1.symm) (hp.2.2.trans hd.2.2.symm)

/-- The id read back is the one written, as far as 32 bits go. -/
theorem patch_id (pkt : List UInt8) (id : Nat) : put32BitMsbFirst (firstId (patch pkt 0 id)) = put32BitMsbFirst id := by
  have hp := BinarySource.getUint32_bytes (put32_length id) (BinarySource.ofData_reads (put32BitMsbFirst id ++ pkt.drop 4))
  unfold firstId
  rw [patch_zero, hp.1, ← put32_mod id, get32_put32 (Nat.mod_lt _ (by norm_num))]

theorem filterMap_down {α : Type} (f : α → List UInt8) (l : List α) :
    (l.map fun x => Out.toDownstream me type (f x)).filterMap Out.down = l.map fun x => (me, type, f x) := by
  induction l with
  | nil => rfl
  | cons x l ih => simpa [Out.down] using ih

theorem send_delivers {c : Channel} (h : sendPacketToDownstream me m type (patch pkt 0 c.downstreamId) (some c) = some m') :
    (m.cs.sock = false → downs m'.cl = downs m.cl) ∧
    (m.cs.sock = true → ∃ ps, Rewritten c pkt type ps ∧ downs m'.cl = downs m.cl ++ ps.map fun p => (me, type, p)) := by
  unfold sendPacketToDownstream at h
  cases hs : m.cs.sock with
  | false =>
    simp only [hs, Bool.not_false, ↓reduceIte] at h
    cases h
    exact ⟨fun _ => rfl, fun e => nomatch e⟩
  | true =>
    refine ⟨(fun e => nomatch e), fun _ => ?_⟩
    simp only [hs, Bool.not_true, Bool.false_eq_true, ↓reduceIte] at h
    split at h
    · next ht =>
      subst ht
      obtain ⟨c', hc, h⟩ := Option.bind_eq_some_iff.mp h
      cases hc
      obtain ⟨parts, hp, h⟩ := Option.bind_eq_some_iff.mp h
      cases h
      obtain ⟨h1, h2⟩ := pieces_spec hp
      refine ⟨_, .cut parts (h1.trans (stringField_patch _)) h2, ?_⟩
      rw [foldl_emit_out]
      unfold downs dataPacket
      rw [List.filterMap_append]
      congr 1
      rw [filterMap_down, List.map_map]
      refine List.map_congr_left fun p _ => ?_
      have := patch_id pkt c.downstreamId
      unfold firstId at this
      rw [this]
      rfl
    · next ht =>
      cases h
      refine ⟨_, .whole ht, ?_⟩
      rw [← patch_zero]
      simp [downs, ConnectionLayer.emit, Out.down]

/-! ## What a cleanup sends -/

/-- Refusals, CLOSEs and cancellations on this downstream's behalf. -/
def Tidies (me : Nat) (cl cl' : ConnectionLayer) : Prop :=
  ∃ out, cl'.out = cl.out ++ out ∧ ∀ o ∈ out, ∃ type pkt, o = .toServer me type pkt ∧
    (type = .channelOpenFailure ∨ type = .channelClose ∨ type = .globalRequest)

namespace Tidies

variable {cl cl' cl'' : ConnectionLayer}

theorem of_out (h : cl'.out = cl.out) : Tidies me cl cl' := ⟨[], by rw [h, List.append_nil], by simp⟩

theorem trans (h : Tidies me cl cl') (h' : Tidies me cl' cl'') : Tidies me cl cl'' := by
  obtain ⟨o1, h1, h2⟩ := h
  obtain ⟨o2, h3, h4⟩ := h'
  refine ⟨o1 ++ o2, by rw [h3, h1, List.append_assoc], fun o ho => ?_⟩
  rcases List.mem_append.mp ho with ho | ho
  · exact h2 o ho
  · exact h4 o ho

theorem emit (ht : type = .channelOpenFailure ∨ type = .channelClose ∨ type = .globalRequest) :
    Tidies me cl (cl.sendPacketFromDownstream me type pkt) :=
  ⟨[.toServer me type pkt], rfl, fun _ ho => ⟨type, pkt, List.mem_singleton.mp ho, ht⟩⟩

theorem downs (h : Tidies me cl cl') : downs cl' = Putty.Share.downs cl := by
  obtain ⟨out, h1, h2⟩ := h
  unfold Putty.Share.downs
  have hnil : out.filterMap Out.down = [] := by
    rw [List.filterMap_eq_nil_iff]
    intro o ho
    obtain ⟨type, pkt, rfl, -⟩ := h2 o ho
    rfl
  rw [h1, List.filterMap_append, hnil, List.append_nil]

end Tidies

theorem cleanupHalfchannels_tidies : Tidies me m.cl (cleanupHalfchannels me m).cl := by
  unfold cleanupHalfchannels ConnectionLayer.sendPacketFromDownstream
  rw [foldl_emit_out]
  refine ⟨_, rfl, fun o ho => ?_⟩
  obtain ⟨id, -, rfl⟩ := List.mem_map.mp ho
  exact ⟨_, _, rfl, Or.inl rfl⟩

theorem removeChannel_out {u : Nat} {c : Channel} (h : removeChannel m u c = some m') : m'.cl.out = m.cl.out := by
  obtain ⟨-, x11, h⟩ := removeChannel_spec h
  rw [h]

theorem cleanupChannel_tidies {u : Nat} (h : cleanupChannel me m u = some m') : Tidies me m.cl m'.cl := by
  unfold cleanupChannel at h
  split at h
  · cases h
    exact .of_out rfl
  · split at h
    · cases h
      exact .of_out rfl
    · dsimp only at h
      split at h
      · cases h
        exact .emit (Or.inr (Or.inl rfl))
      · exact (Tidies.emit (Or.inr (Or.inl rfl))).trans (.of_out (removeChannel_out h))

theorem cleanupForwarding_tidies {key : FwdKey} (h : cleanupForwarding me m key = some m') : Tidies me m.cl m'.cl := by
  unfold cleanupForwarding at h
  split at h
  · cases h
    exact .of_out rfl
  · split at h
    · obtain ⟨cl, h1, h2⟩ := Option.bind_eq_some_iff.mp h
      cases h2
      obtain ⟨r, -, -, rfl⟩ := rportfwdRemove_spec h1
      exact .emit (Or.inr (Or.inr rfl))
    · cases h
      exact .of_out rfl

theorem tryCleanup_tidies (h : tryCleanup me m = some d) : Tidies me m.cl d.1 := by
  obtain ⟨m2, h2, rfl⟩ := tryCleanup_ends (P := fun m' => Tidies me m.cl m'.cl)
    (fun _ h1 => h1.trans cleanupHalfchannels_tidies) (fun _ _ _ h1 hu => h1.trans (cleanupChannel_tidies hu))
    (fun _ _ _ h1 hk => h1.trans (cleanupForwarding_tidies hk)) (.of_out rfl) h
  exact h2

theorem retryCleanup_tidies (h : retryCleanup me m = some d) : Tidies me m.cl d.1 := by
  unfold retryCleanup at h
  split at h
  · cases h
    exact .of_out rfl
  · exact tryCleanup_tidies h

/-! ## Messages of the server -/

theorem downs_append {cl : ConnectionLayer} {out : List Out} :
    downs { cl with out := cl.out ++ out } = downs cl ++ out.filterMap Out.down := by
  simp [downs]

theorem deadXchannelRespond_downs {xc : XChannel} : downs (deadXchannelRespond me m xc).cl = downs m.cl := by
  have hquiet : ((xc.msgs.map (deadResponse me xc.serverId)).flatMap Prod.fst).filterMap Out.down = [] := by
    rw [List.filterMap_eq_nil_iff]
    intro o ho
    obtain ⟨answer, ha, ho⟩ := List.mem_flatMap.mp ho
    obtain ⟨msg, -, rfl⟩ := List.mem_map.mp ha
    unfold deadResponse at ho
    split at ho
    · split at ho
      · rw [List.mem_singleton.mp ho]
        rfl
      · cases ho
    · cases ho
    · cases ho
  unfold deadXchannelRespond
  dsimp only
  split
  · exact downs_append.trans (by rw [hquiet, List.append_nil])
  · exact downs_append.trans (by rw [hquiet, List.append_nil])

theorem gotXchannelMsg_downs {xc : XChannel} : downs (gotXchannelMsg me m type pkt xc).cl = downs m.cl := by
  unfold gotXchannelMsg
  dsimp only
  split
  · rfl
  · exact deadXchannelRespond_downs

theorem gotChannelMsg_delivers {u : Nat} {c : Channel} (h : gotChannelMsg me m type pkt u c = some d) :
    (m.cs.sock = false → downs d.1 = downs m.cl) ∧
    (m.cs.sock = true → ∃ ps, Rewritten c pkt type ps ∧ downs d.1 = downs m.cl ++ ps.map fun p => (me, type, p)) := by
  obtain ⟨m1, h1, h2⟩ := Option.bind_eq_some_iff.mp h
  have hd : downs d.1 = downs m1.cl := by
    split at h2
    · split at h2
      · exact (retryCleanup_tidies h2).downs
      · cases h2
        rfl
    · obtain ⟨m2, h3, h4⟩ := Option.bind_eq_some_iff.mp h2
      cases h4
      exact (Tidies.of_out (removeChannel_out h3) : Tidies me _ _).downs
    · split at h2
      · obtain ⟨m2, h3, h4⟩ := Option.bind_eq_some_iff.mp h2
        exact ((Tidies.of_out (removeChannel_out h3)).trans (retryCleanup_tidies h4)).downs
      · cases h2
        rfl
    · cases h2
      rfl
  rw [hd]
  exact send_delivers h1

/-- A message of the server goes to its recipient only, and as it was. -/
theorem serverMsg_delivers {s s' : St} (hp : s.protoError = false) (h : step s (.serverMsg type pkt) = some s') :
    Delivers s type pkt s' := by
  obtain ⟨hp', -⟩ | ⟨-, s1, ha, -, rfl⟩ := step_acted h
  · rw [hp] at hp'
    cases hp'
  cases ha with
  | @msgSharing _ _ a cs d hch hcs _ hg =>
    unfold gotPktFromServer findChannelByUpstream at hg
    dsimp only at hg
    split at hg
    · next c hc =>
      obtain ⟨h1, h2⟩ := gotChannelMsg_delivers hg
      refine ⟨fun b c' hr => ?_, fun hno => ?_⟩
      · obtain ⟨hb, cs', hcs', hs, hc'⟩ := hr
        cases hch.symm.trans hb
        cases hcs.symm.trans hcs'
        cases Option.some.inj (hc.symm.trans hc')
        exact h2 hs
      · cases hs : cs.sock with
        | false => exact h1 hs
        | true => exact absurd ⟨hch, cs, hcs, hs, hc⟩ (hno a c)
    · next hn =>
      have hd : downs d.1 = downs s.cl := by
        split at hg
        · cases hg
          exact gotXchannelMsg_downs
        · cases hg
          rfl
      refine ⟨fun b c' hr => ?_, fun _ => hd⟩
      obtain ⟨hb, cs', hcs', hs, hc'⟩ := hr
      cases hch.symm.trans hb
      cases hcs.symm.trans hcs'
      cases hn.symm.trans hc'
  | msgOurs ho => exact ⟨fun b c' hr => (by cases ho.symm.trans hr.1), fun _ => rfl⟩
  | msgNone hn => exact ⟨fun b c' hr => (by cases hn.symm.trans hr.1), fun _ => rfl⟩

/-! ## X11 channels -/

/-- Messages that have waited, one after the other. -/
inductive Flushed (a : Nat) (c : Channel) : List (Msg × List UInt8) → List (Nat × Msg × List UInt8) → Prop
  | nil : Flushed a c [] []
  | cons {msg : Msg × List UInt8} {msgs : List (Msg × List UInt8)} {ps : List (List UInt8)}
      {rest : List (Nat × Msg × List UInt8)} : Rewritten c msg.2 msg.1 ps → Flushed a c msgs rest →
      Flushed a c (msg :: msgs) ((ps.map fun p => (a, msg.1, p)) ++ rest)

theorem passOn_delivers {c : Channel} {msg : Msg × List UInt8} (hl : 4 ≤ msg.2.length)
    (h : passOn me (some c) m msg = some m') :
    (m.cs.sock = false → downs m'.cl = downs m.cl) ∧
    (m.cs.sock = true → ∃ ps, Rewritten c msg.2 msg.1 ps ∧ downs m'.cl = downs m.cl ++ ps.map fun p => (me, msg.1, p)) := by
  unfold passOn at h
  rw [if_pos hl] at h
  exact send_delivers h

theorem passAll_delivers {c : Channel} : ∀ {msgs : List (Msg × List UInt8)} {m m' : At}, (∀ msg ∈ msgs, 4 ≤ msg.2.length) →
    msgs.foldlM (passOn me (some c)) m = some m' →
    (m.cs.sock = false → downs m'.cl = downs m.cl) ∧
    (m.cs.sock = true → ∃ new, Flushed me c msgs new ∧ downs m'.cl = downs m.cl ++ new)
  | [], m, m', _, h => by
    cases h
    exact ⟨fun _ => rfl, fun _ => ⟨[], .nil, by simp⟩⟩
  | msg :: msgs, m, m', hl, h => by
    rw [List.foldlM_cons] at h
    obtain ⟨m1, h1, h2⟩ := Option.bind_eq_some_iff.mp h
    obtain ⟨h3, h4⟩ := passOn_delivers (hl msg (by simp)) h1
    obtain ⟨h5, h6⟩ := passAll_delivers (fun x hx => hl x (List.mem_cons_of_mem _ hx)) h2
    have hs : m1.cs.sock = m.cs.sock := by rw [(passOn_spec h1).1]
    rw [hs] at h5 h6
    refine ⟨fun he => (h5 he).trans (h3 he), fun he => ?_⟩
    obtain ⟨ps, hr, hd⟩ := h4 he
    obtain ⟨new, hf, hd'⟩ := h6 he
    exact ⟨_, .cons hr hf, by rw [hd', hd, List.append_assoc]⟩

/-- There is nobody to pass a message on to. -/
theorem passAll_none {msgs : List (Msg × List UInt8)} (hl : ∀ msg ∈ msgs, 4 ≤ msg.2.length)
    (h : msgs.foldlM (passOn me none) m = some m') : msgs = [] ∧ m' = m := by
  cases msgs with
  | nil =>
    cases h
    exact ⟨rfl, rfl⟩
  | cons msg msgs =>
    rw [List.foldlM_cons] at h
    obtain ⟨m1, h1, -⟩ := Option.bind_eq_some_iff.mp h
    unfold passOn at h1
    rw [if_pos (hl msg (by simp))] at h1
    cases h1

theorem downs_up {cl : ConnectionLayer} : downs (cl.sendPacketFromDownstream me type pkt) = downs cl := by
  simp [downs, ConnectionLayer.sendPacketFromDownstream, ConnectionLayer.emit, Out.down]

/-- The fields of an OPEN_CONFIRMATION behind the first. -/
def confirmedId (pkt : List UInt8) : Nat := (BinarySource.ofData pkt).getUint32.2.getUint32.1.toNat

/-- Accepting an X11 channel brings what has waited for it, unless the downstream is told to go. -/
def Accepts (a : Nat) (pkt : List UInt8) (sock : Bool) (xc : XChannel) (cl cl' : ConnectionLayer) : Prop :=
  (∃ c new, c.downstreamId = confirmedId pkt ∧ (sock = true → Flushed a c xc.msgs new) ∧ (sock = false → new = []) ∧
    downs cl' = downs cl ++ new) ∨
  ∃ new, (∀ x ∈ new, x.1 = a ∧ x.2.1 = .disconnect) ∧ downs cl' = downs cl ++ new

theorem shareDisconnect_downs {message : List UInt8} (h : shareDisconnect me m message = some d) :
    ∃ new, (∀ x ∈ new, x.1 = me ∧ x.2.1 = .disconnect) ∧ downs d.1 = downs m.cl ++ new := by
  obtain ⟨m1, h1, h2⟩ := Option.bind_eq_some_iff.mp h
  obtain ⟨-, hc⟩ := beginCleanup_spec h2
  have hd := (tryCleanup_tidies hc).downs
  unfold sendPacketToDownstream at h1
  split at h1
  · cases h1
    exact ⟨[], by simp, by rw [List.append_nil]; exact hd⟩
  · simp only [reduceCtorEq, ↓reduceIte] at h1
    cases h1
    refine ⟨[(me, .disconnect, put32BitMsbFirst 2 ++ putString message ++ putString (text "en"))], ?_, hd.trans ?_⟩
    · intro x hx
      rw [List.mem_singleton.mp hx]
      exact ⟨rfl, rfl⟩
    · simp [downs, ConnectionLayer.emit, Out.down, At.closeSock]

theorem confirmation_accepts {xc : XChannel} (hm : ∀ msg ∈ xc.msgs, 4 ≤ msg.2.length)
    (hh : firstId pkt ∉ m.cs.halfchannels) (hx : findXchannelByServer m.cs (firstId pkt) = some xc)
    (h : channelOpenConfirmation me m pkt = some d) : Accepts me pkt m.cs.sock xc m.cl d.1 := by
  unfold channelOpenConfirmation at h
  dsimp only at h
  split at h
  · exact Or.inr (shareDisconnect_downs h)
  · split at h
    · next hk => exact absurd hk hh
    · rw [show (BinarySource.ofData pkt).getUint32.1.toNat = firstId pkt from rfl, hx] at h
      dsimp only at h
      obtain ⟨o, cs, he, hcase⟩ := addChannel_spec m (confirmedId pkt) xc.upstreamId (firstId pkt) .opened
        (BinarySource.ofData pkt).getUint32.2.getUint32.2.getUint32.2.getUint32.1
      unfold confirmedId at he
      rw [he] at h
      have hsock : cs.sock = m.cs.sock := by
        rcases hcase with ⟨-, rfl, -⟩ | ⟨-, -, -, rfl⟩ <;> rfl
      split at h
      · exact Or.inr (shareDisconnect_downs (m := ⟨{ m.cl with brk := m.cl.brk + 1 }, cs⟩) h)
      · obtain ⟨m2, h1, h2⟩ := Option.bind_eq_some_iff.mp h
        cases h2
        obtain ⟨m3, h3, h4⟩ := Option.bind_eq_some_iff.mp h1
        cases h4
        have hd : downs (m3.cl.sendPacketFromDownstream me .channelWindowAdjust
            (put32BitMsbFirst xc.serverId ++ putInt ((BinarySource.ofData pkt).getUint32.2.getUint32.2.getUint32.1.toNat -
              xc.window))) = downs m3.cl := downs_up
        left
        rcases hcase with ⟨rfl, rfl, -⟩ | ⟨rfl, -, -, rfl⟩
        · obtain ⟨hnil, rfl⟩ := passAll_none hm h3
          rw [hnil]
          exact ⟨newChannel 0 (confirmedId pkt) 0 .opened 0, [], rfl, fun _ => .nil, fun _ => rfl,
            hd.trans (List.append_nil _).symm⟩
        · obtain ⟨h5, h6⟩ := passAll_delivers hm h3
          cases hs : m.cs.sock with
          | false =>
            exact ⟨newChannel 0 (confirmedId pkt) 0 .opened 0, [], rfl, (fun e => nomatch e), fun _ => rfl,
              (hd.trans (h5 hs)).trans (List.append_nil _).symm⟩
          | true =>
            obtain ⟨new, hf, hnew⟩ := h6 hs
            exact ⟨_, new, rfl, fun _ => hf, (fun e => nomatch e), hd.trans hnew⟩

/-! ## Channel messages of the downstream -/

def Msg.onChannel : Msg → Bool
  | .channelWindowAdjust | .channelData | .channelExtendedData | .channelEof | .channelClose | .channelRequest
  | .channelSuccess | .channelFailure => true
  | _ => false

/-- The requests that are not passed on as they are. -/
def Special (env : Env) (type : Msg) (pkt : List UInt8) : Prop :=
  type = .channelRequest ∧ (stringField pkt = text "x11-req" ∨
    stringField pkt = text "auth-agent-req@openssh.com" ∧ env.agentForwardingPermitted = false)

/-- A channel message is passed on as it is, with whatever id it cites. One of the special
    requests may be passed on for the same channel, if it is one of this downstream's. -/
structure Forwards (a : Nat) (cs : ConnState) (type : Msg) (pkt : List UInt8) (env : Env) (cl cl' : ConnectionLayer) :
    Prop where
  ordinary : ¬ Special env type pkt → ups cl' = ups cl ++ [(a, type, pkt)]
  special : Special env type pkt → ∃ new, ups cl' = ups cl ++ new ∧ ∀ x ∈ new, x.1 = a ∧
    (x.2.1 = type → firstId x.2.2 = firstId pkt ∧ (findChannelByServer cs (firstId pkt)).isSome = true)

theorem Tidies.ups {cl cl' : ConnectionLayer} (h : Tidies me cl cl') :
    ∃ new, ups cl' = Putty.Share.ups cl ++ new ∧ ∀ x ∈ new, x.1 = me ∧ x.2.1 ≠ .channelRequest := by
  obtain ⟨out, h1, h2⟩ := h
  refine ⟨out.filterMap Out.up, by simp [Putty.Share.ups, h1], fun x hx => ?_⟩
  obtain ⟨o, ho, hx⟩ := List.mem_filterMap.mp hx
  obtain ⟨type, pkt, rfl, ht⟩ := h2 o ho
  cases hx
  refine ⟨rfl, ?_⟩
  rcases ht with rfl | rfl | rfl <;> simp

theorem ups_of_out {cl cl' : ConnectionLayer} (h : cl'.out = cl.out) : ups cl' = ups cl := by
  unfold ups
  rw [h]

theorem ups_up {cl : ConnectionLayer} : ups (cl.sendPacketFromDownstream me type pkt) = ups cl ++ [(me, type, pkt)] := by
  simp [ups, ConnectionLayer.sendPacketFromDownstream, ConnectionLayer.emit, Out.up]

/-- What is written to a downstream goes to nobody else. -/
theorem send_ups {chan : Option Channel} (h : sendPacketToDownstream me m type pkt chan = some m') : ups m'.cl = ups m.cl := by
  unfold sendPacketToDownstream at h
  split at h
  · cases h
    rfl
  · split at h
    · obtain ⟨c, -, h⟩ := Option.bind_eq_some_iff.mp h
      obtain ⟨parts, -, h⟩ := Option.bind_eq_some_iff.mp h
      cases h
      rw [foldl_emit_out]
      have hnil : ∀ (f : List UInt8 → List UInt8),
          (parts.map fun p => Out.toDownstream me type (f p)).filterMap Out.up = [] := fun f => by
        rw [List.filterMap_eq_nil_iff]
        intro o ho
        obtain ⟨p, -, rfl⟩ := List.mem_map.mp ho
        rfl
      unfold ups
      rw [List.filterMap_append, hnil, List.append_nil]
    · cases h
      simp [ups, ConnectionLayer.emit, Out.up]

theorem passToServer_ups {id : Nat} (h : passToServer me m type pkt id = some d) :
    ups d.1 = ups m.cl ++ [(me, type, pkt)] := by
  unfold passToServer at h
  dsimp only at h
  rw [← ups_up]
  split at h
  · split at h
    · cases h
      rfl
    · split at h
      · obtain ⟨m1, h1, h2⟩ := Option.bind_eq_some_iff.mp h
        cases h2
        exact ups_of_out (removeChannel_out h1)
      · cases h
        rfl
  · cases h
    rfl

theorem confused_ups {err : String} (h : confused me m err = some d) :
    ∃ new, ups d.1 = ups m.cl ++ new ∧ ∀ x ∈ new, x.1 = me ∧ x.2.1 ≠ .channelRequest := by
  obtain ⟨m1, h1, h2⟩ := Option.bind_eq_some_iff.mp h
  obtain ⟨-, hc⟩ := beginCleanup_spec h2
  rw [← send_ups h1]
  exact (tryCleanup_tidies hc).ups

theorem firstId_lt : firstId pkt < 2 ^ 32 := UInt32.toNat_lt _

theorem x11Req_ups {src : BinarySource} {env : Env} (h : x11Req me m src (firstId pkt) env = some d) :
    ∃ new, ups d.1 = ups m.cl ++ new ∧ ∀ x ∈ new, x.1 = me ∧
      (x.2.1 = .channelRequest → firstId x.2.2 = firstId pkt ∧ (findChannelByServer m.cs (firstId pkt)).isSome = true) := by
  have hweak : (∃ new, ups d.1 = ups m.cl ++ new ∧ ∀ x ∈ new, x.1 = me ∧ x.2.1 ≠ .channelRequest) →
      ∃ new, ups d.1 = ups m.cl ++ new ∧ ∀ x ∈ new, x.1 = me ∧
        (x.2.1 = .channelRequest → firstId x.2.2 = firstId pkt ∧ (findChannelByServer m.cs (firstId pkt)).isSome = true) := by
    rintro ⟨new, h1, h2⟩
    exact ⟨new, h1, fun x hx => ⟨(h2 x hx).1, fun e => absurd e (h2 x hx).2⟩⟩
  unfold x11Req at h
  split at h
  · exact hweak (confused_ups h)
  · next u chan hf =>
    dsimp only at h
    split at h
    · exact hweak (confused_ups h)
    · split at h
      · obtain ⟨m1, h1, h2⟩ := Option.bind_eq_some_iff.mp h
        cases h2
        exact ⟨[], by rw [List.append_nil]; exact send_ups h1, fun x hx => nomatch hx⟩
      · cases h
        refine ⟨_, ups_up, fun x hx => ?_⟩
        rw [List.mem_singleton.mp hx]
        refine ⟨rfl, fun _ => ⟨?_, by rw [hf]; rfl⟩⟩
        simp only [List.append_assoc]
        exact (BinarySource.getUint32_reads firstId_lt (BinarySource.ofData_reads _)).1

theorem channelMessage_forwards {env : Env} (h : channelMessage me m type pkt env = some d) :
    Forwards me m.cs type pkt env m.cl d.1 := by
  unfold channelMessage at h
  dsimp only at h
  split at h
  · next ha =>
    refine ⟨fun hn => absurd ⟨ha.1, Or.inr ⟨ha.2.1, by simpa using ha.2.2⟩⟩ hn, fun _ => ?_⟩
    split at h
    · obtain ⟨m1, h1, h2⟩ := Option.bind_eq_some_iff.mp h
      cases h2
      exact ⟨[], by rw [List.append_nil]; exact send_ups h1, fun x hx => nomatch hx⟩
    · obtain ⟨new, h1, h2⟩ := confused_ups h
      exact ⟨new, h1, fun x hx => ⟨(h2 x hx).1, fun e => absurd (e.trans ha.1) (h2 x hx).2⟩⟩
  · next ha =>
    split at h
    · next hx =>
      refine ⟨fun hn => absurd ⟨hx.1, Or.inl hx.2⟩ hn, fun _ => ?_⟩
      obtain ⟨new, h1, h2⟩ := x11Req_ups h
      exact ⟨new, h1, fun x hm => ⟨(h2 x hm).1, fun e => (h2 x hm).2 (e.trans hx.1)⟩⟩
    · next hx =>
      refine ⟨fun _ => passToServer_ups h, fun hs => ?_⟩
      rcases hs.2 with hs2 | ⟨hs2, hs3⟩
      · exact absurd ⟨hs.1, hs2⟩ hx
      · exact absurd ⟨hs.1, hs2, by simp [hs3]⟩ ha

theorem packet_forwards {s s' : St} {a : Nat} {env : Env} {cs : ConnState} (hp : s.protoError = false)
    (hc : s.connections[a]? = some cs) (ht : type.onChannel = true) (h : step s (.packet a type pkt env) = some s') :
    Forwards a cs type pkt env s.cl s'.cl := by
  obtain ⟨hp', -⟩ | ⟨-, s1, ha, -, rfl⟩ := step_acted h
  · rw [hp] at hp'
    cases hp'
  cases ha with
  | @packet _ _ _ _ cs' d _ hc' _ hg =>
    cases hc.symm.trans hc'
    have hg : channelMessage a ⟨s.cl, cs⟩ type pkt env = some d := by
      cases type <;> first | exact hg | cases ht
    exact channelMessage_forwards hg

/-! ## Runs -/

/-- Who holds a channel id: we ourselves, or a downstream, for a channel or for an X11
    channel it has been offered. -/
def Live (s : St) : Option Nat → Nat → Prop
  | none, u => s.cl.channels[u]? = some .ours
  | some a, u => ∃ cs, s.connections[a]? = some cs ∧ (u ∈ cs.channelsByUs ∨ cs.sock = true ∧ u ∈ cs.xchannelsByUs)

structure Isolated (s : St) : Prop where
  /-- No id is held twice. -/
  distinct : ∀ h h' u, Live s h u → Live s h' u → h = h'
  apart : ∀ (a u : Nat) cs, s.connections[a]? = some cs → cs.sock = true → u ∈ cs.channelsByUs → u ∉ cs.xchannelsByUs
  delivers : ∀ type pkt s', s.protoError = false → step s (.serverMsg type pkt) = some s' → Delivers s type pkt s'
  /-- What waits for an X11 channel is what cites it, and the greeting we made up. -/
  waits : ∀ (a u : Nat) cs xc, s.connections[a]? = some cs → cs.xchannelsByUs[u]? = some xc →
    ∀ msg ∈ xc.msgs, firstId msg.2 = u ∨ firstId msg.2 = 0
  accepts : ∀ (a : Nat) pkt env cs xc s', s.protoError = false → s.connections[a]? = some cs →
    firstId pkt ∉ cs.halfchannels → findXchannelByServer cs (firstId pkt) = some xc →
    step s (.packet a .channelOpenConfirmation pkt env) = some s' → Accepts a pkt cs.sock xc s.cl s'.cl
  forwards : ∀ (a : Nat) type pkt env cs s', s.protoError = false → s.connections[a]? = some cs → type.onChannel = true →
    step s (.packet a type pkt env) = some s' → Forwards a cs type pkt env s.cl s'.cl

theorem Live.owner {s : St} {h : Option Nat} {u : Nat} (ho : Owned s) (hl : Live s h u) :
    s.cl.channels[u]? = some (match h with
      | none => .ours
      | some a => .sharectx a) := by
  cases h with
  | none => exact hl
  | some a =>
    obtain ⟨cs, hc, hu | ⟨hs, hu⟩⟩ := hl
    · exact (ho.each a cs hc).1.channels u hu
    · exact (ho.each a cs hc).1.xchannels (Or.inl hs) u hu

theorem Owned.isolated {s : St} (ho : Owned s) : Isolated s where
  distinct h h' u hl hl' := by
    have := (hl.owner ho).symm.trans (hl'.owner ho)
    cases h <;> cases h' <;> simp_all
  apart a u cs hc hs hu hx := by
    obtain ⟨c, hcu⟩ := get_of_mem hu
    have := ((ho.each a cs hc).1.both (Or.inl hs) u c hcu hx).1
    rw [show cs.sock = false from this] at hs
    cases hs
  delivers type pkt s' hp h := serverMsg_delivers hp h
  waits a u cs xc hc hx msg hm := (((ho.each a cs hc).2 u xc hx).msgs msg hm).2
  accepts a pkt env cs xc s' hp hc hh hx h := by
    obtain ⟨hp', -⟩ | ⟨-, s1, ha, -, rfl⟩ := step_acted h
    · rw [hp] at hp'
      cases hp'
    cases ha with
    | @packet _ _ _ _ cs' d _ hc' _ hg =>
      cases hc.symm.trans hc'
      have hxu := (ho.each a cs hc).found (m := ⟨s.cl, cs⟩) hx
      exact confirmation_accepts (m := ⟨s.cl, cs⟩) (fun msg hm => (((ho.each a cs hc).2 _ xc hxu).msgs msg hm).1) hh hx hg
  forwards a type pkt env cs s' hp hc ht h := packet_forwards hp hc ht h

def sessionOpen : List UInt8 :=
  putString (text "session") ++ put32BitMsbFirst 7 ++ put32BitMsbFirst 65536 ++ put32BitMsbFirst 32768

/-- Two downstreams; the first opens a channel, which is the server's channel 5. -/
def twoDownstreams : List Ev :=
  [.accept, .accept, .packet 0 .channelOpen sessionOpen ⟨none, false, [], []⟩,
    .serverMsg .channelOpenConfirmation
      (put32BitMsbFirst 256 ++ put32BitMsbFirst 5 ++ put32BitMsbFirst 65536 ++ put32BitMsbFirst 32768)]

end Putty.Share
