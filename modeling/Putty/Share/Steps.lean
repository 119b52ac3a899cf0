/-
  Putty.Share.Steps — what the calls of the sharing code leave alone.

  Packets to a downstream only add to what has been sent (`send_spec`). A call that is
  delivered to one connstate changes that one and the connection layer (`deliver_spec`),
  so a property of every connstate holds after an event if the call made by the event
  keeps it (`act_keeps`). The loops of the cleanup are folds over the keys of a tree, and
  what each round keeps the loop keeps (`foldlM_keeps`).
-/

import Putty.Share.System

namespace Putty.Share

open Std Putty.Lib Putty.Utils Putty.Ssh2
open Putty.Ssh2.GlobalRequests (Reply queueGlobalRequestHandler filterReply)

/-! ## Trees -/

section Trees

variable {V : Type} {t : Tree V} {u w : Nat}

theorem mem_of_get {v : V} (h : t[u]? = some v) : u ∈ t := by
  rw [ExtTreeMap.mem_iff_isSome_getElem?, h]
  rfl

theorem get_of_mem (h : u ∈ t) : ∃ v, t[u]? = some v := by
  rw [ExtTreeMap.mem_iff_isSome_getElem?] at h
  exact Option.isSome_iff_exists.mp h

theorem get_insert {v : V} :
    (t.insert u v)[w]? = if u = w then some v else t[w]? := by
  rw [ExtTreeMap.getElem?_insert]
  exact if_congr Std.compare_eq_iff_eq rfl rfl

theorem get_erase : (t.erase u)[w]? = if u = w then none else t[w]? := by
  rw [ExtTreeMap.getElem?_erase]
  exact if_congr Std.compare_eq_iff_eq rfl rfl

theorem mem_modify {f : V → V} : w ∈ t.modify u f ↔ w ∈ t := by
  rw [ExtTreeMap.mem_modify]

theorem mem_erase_nat : w ∈ t.erase u ↔ w ∈ t ∧ w ≠ u := by
  rw [ExtTreeMap.mem_erase]
  constructor
  · rintro ⟨h1, h2⟩
    exact ⟨h2, fun e => h1 (e ▸ ReflCmp.compare_self)⟩
  · rintro ⟨h1, h2⟩
    exact ⟨fun e => h2 (LawfulEqCmp.eq_of_compare e).symm, h1⟩

end Trees

theorem foldlM_keeps {α β : Type} {f : β → α → Option β} {P : β → Prop} (h : ∀ b x b', P b → f b x = some b' → P b') :
    ∀ {l : List α} {b b' : β}, P b → l.foldlM f b = some b' → P b'
  | [], b, b', hb, he => by cases he; exact hb
  | x :: l, b, b', hb, he => by
    rw [List.foldlM_cons] at he
    obtain ⟨b1, h1, h2⟩ := Option.bind_eq_some_iff.mp he
    exact foldlM_keeps h (h b x b1 hb h1) h2

/-- A loop that takes out each key it comes to, and puts none in. -/
theorem foldlM_erases {α β : Type} {f : β → α → Option β} {I : β → Prop} {K : β → α → Prop}
    (h : ∀ b x b', I b → f b x = some b' → I b' ∧ ¬ K b' x ∧ ∀ y, K b' y → K b y) :
    ∀ {l : List α} {b b' : β}, I b → l.foldlM f b = some b' → I b' ∧ ∀ y, K b' y → K b y ∧ y ∉ l
  | [], b, b', hb, he => by
    cases he
    exact ⟨hb, fun y hy => ⟨hy, List.not_mem_nil⟩⟩
  | x :: l, b, b', hb, he => by
    rw [List.foldlM_cons] at he
    obtain ⟨b1, h1, h2⟩ := Option.bind_eq_some_iff.mp he
    obtain ⟨hb1, hx, hkeys⟩ := h b x b1 hb h1
    obtain ⟨hb', hrest⟩ := foldlM_erases h hb1 h2
    refine ⟨hb', fun y hy => ?_⟩
    obtain ⟨hy1, hl⟩ := hrest y hy
    refine ⟨hkeys y hy1, fun hm => ?_⟩
    rcases List.mem_cons.mp hm with rfl | hm
    · exact hx hy1
    · exact hl hm

theorem foldl_emit_out {α : Type} (f : α → Out) (l : List α) (cl : ConnectionLayer) :
    l.foldl (fun cl x => cl.emit (f x)) cl = { cl with out := cl.out ++ l.map f } := by
  induction l generalizing cl with
  | nil => simp
  | cons x l ih =>
    rw [List.foldl_cons, ih]
    simp [ConnectionLayer.emit]

/-! ## Sending -/

/-- Nothing but what has been sent differs. -/
def SameButOut (m m' : At) : Prop := m'.cs = m.cs ∧ ∃ out, m'.cl = { m.cl with out := m.cl.out ++ out }

theorem SameButOut.refl (m : At) : SameButOut m m := ⟨rfl, [], by simp⟩

theorem SameButOut.trans {m m1 m2 : At} (h : SameButOut m m1) (h' : SameButOut m1 m2) : SameButOut m m2 := by
  obtain ⟨h1, o1, e1⟩ := h
  obtain ⟨h2, o2, e2⟩ := h'
  exact ⟨h2.trans h1, o1 ++ o2, by rw [e2, e1]; simp⟩

theorem SameButOut.eq {m m' : At} (h : SameButOut m m') :
    ∃ out, m' = ⟨{ m.cl with out := m.cl.out ++ out }, m.cs⟩ := by
  obtain ⟨h1, out, h2⟩ := h
  exact ⟨out, by rw [← h1, ← h2]⟩

variable {me : Nat} {m m' : At}

theorem send_spec {type : Msg} {pkt : List UInt8} {chan : Option Channel}
    (h : sendPacketToDownstream me m type pkt chan = some m') : SameButOut m m' := by
  unfold sendPacketToDownstream at h
  split at h
  · cases h; exact .refl m
  · split at h
    · obtain ⟨c, -, h⟩ := Option.bind_eq_some_iff.mp h
      obtain ⟨parts, -, h⟩ := Option.bind_eq_some_iff.mp h
      cases h
      rw [foldl_emit_out]
      exact ⟨rfl, _, rfl⟩
    · cases h
      exact ⟨rfl, _, rfl⟩

theorem sendIfWanted_spec {wantReply : Bool} {type : Msg} {pkt : List UInt8}
    (h : sendIfWanted me m wantReply type pkt = some m') : SameButOut m m' := by
  unfold sendIfWanted at h
  split at h
  · exact send_spec h
  · cases h; exact .refl m

theorem passOn_spec {chan : Option Channel} {msg : Msg × List UInt8} (h : passOn me chan m msg = some m') :
    SameButOut m m' := by
  unfold passOn at h
  split at h
  · obtain ⟨c, -, h⟩ := Option.bind_eq_some_iff.mp h
    exact send_spec h
  · exact send_spec h

/-! ## The tables of the connection layer -/

section Layer

variable {cl cl' : ConnectionLayer} {key : FwdKey} {ctx : Option Nat} {addr : Nat} {junk : Ptr}

theorem rportfwdAlloc_spec (h : cl.rportfwdAlloc key ctx = some (addr, cl')) :
    key ∉ cl.rportfwds ∧ addr = cl.brk ∧
      cl' = { cl with brk := cl.brk + 1, rportfwds := cl.rportfwds.insert key ⟨cl.brk, ctx⟩ } := by
  unfold ConnectionLayer.rportfwdAlloc at h
  split at h
  · cases h
  · next hk =>
    cases h
    exact ⟨hk, rfl, rfl⟩

theorem rportfwdRemove_spec (h : cl.rportfwdRemove key addr = some cl') :
    ∃ r, cl.rportfwds[key]? = some r ∧ r.addr = addr ∧ cl' = { cl with rportfwds := cl.rportfwds.erase key } := by
  obtain ⟨r, hr, h⟩ := Option.bind_eq_some_iff.mp h
  obtain ⟨hr, ha⟩ := Option.filter_eq_some_iff.mp hr
  cases h
  exact ⟨r, hr, by simpa using ha, rfl⟩

theorem sharingQueueGlobalRequest_spec (h : cl.sharingQueueGlobalRequest me junk = some cl') :
    ∃ globreqs, queueGlobalRequestHandler cl.globreqs (.sharing me) junk = some globreqs ∧ cl' = { cl with globreqs } := by
  obtain ⟨globreqs, hg, h⟩ := Option.bind_eq_some_iff.mp h
  cases h
  exact ⟨globreqs, hg, rfl⟩

end Layer

/-! ## The tables of a connstate -/

theorem removeChannel_spec {u : Nat} {chan : Channel} (h : removeChannel m u chan = some m') :
    m'.cs = { m.cs with
      channelsByUs := m.cs.channelsByUs.erase u
      channelsByServer := m.cs.channelsByServer.erase chan.serverId } ∧
    ∃ x11authtree, m'.cl = { m.cl with x11authtree } := by
  unfold removeChannel at h
  split at h
  · cases h
  · cases h
    refine ⟨rfl, ?_⟩
    split
    · exact ⟨_, rfl⟩
    · exact ⟨_, rfl⟩

/-- A new channel is in the first tree, and in the second one unless it is unacknowledged. -/
theorem addChannel_spec (m : At) (d u k : Nat) (state : ChanState) (maxpkt : UInt32) :
    ∃ o cs, addChannel m d u k state maxpkt = (o, ⟨{ m.cl with brk := m.cl.brk + 1 }, cs⟩) ∧
      ((o = none ∧ cs = m.cs ∧ (u ∈ m.cs.channelsByUs ∨ state ≠ .unacknowledged ∧ k ∈ m.cs.channelsByServer)) ∨
       (o = some (newChannel m.cl.brk d k state maxpkt) ∧ u ∉ m.cs.channelsByUs ∧
        (state ≠ .unacknowledged → k ∉ m.cs.channelsByServer) ∧
        cs = { m.cs with
          channelsByUs := m.cs.channelsByUs.insert u (newChannel m.cl.brk d k state maxpkt)
          channelsByServer := if state = .unacknowledged then m.cs.channelsByServer
            else m.cs.channelsByServer.insert k u })) := by
  unfold addChannel
  dsimp only
  by_cases h1 : u ∈ m.cs.channelsByUs
  · rw [if_pos h1]
    exact ⟨_, _, rfl, Or.inl ⟨rfl, rfl, Or.inl h1⟩⟩
  · rw [if_neg h1]
    by_cases h2 : state = .unacknowledged
    · rw [if_pos h2]
      exact ⟨_, _, rfl, Or.inr ⟨rfl, h1, fun h => absurd h2 h, by rw [if_pos h2]⟩⟩
    · rw [if_neg h2]
      by_cases h3 : k ∈ m.cs.channelsByServer
      · rw [if_pos h3]
        exact ⟨_, _, rfl, Or.inl ⟨rfl, rfl, Or.inr ⟨h2, h3⟩⟩⟩
      · rw [if_neg h3]
        exact ⟨_, _, rfl, Or.inr ⟨rfl, h1, fun _ => h3, by rw [if_neg h2]⟩⟩

theorem addChannel_sock {dn u k : Nat} {state : ChanState} {maxpkt : UInt32} :
    (addChannel m dn u k state maxpkt).2.cs.sock = m.cs.sock := by
  obtain ⟨o, cs, he, ⟨-, rfl, -⟩ | ⟨-, -, -, rfl⟩⟩ := addChannel_spec m dn u k state maxpkt
  · rw [he]
  · rw [he]

theorem removeChannel_sock {u : Nat} {c : Channel} (h : removeChannel m u c = some m') : m'.cs.sock = m.cs.sock := by
  rw [(removeChannel_spec h).1]

theorem modifyChannel_get {cs : ConnState} {u v : Nat} {f : Channel → Channel} {c : Channel}
    (h : (modifyChannel cs u f).channelsByUs[v]? = some c) :
    ∃ c', cs.channelsByUs[v]? = some c' ∧ (c = c' ∨ v = u ∧ c = f c') := by
  rw [show (modifyChannel cs u f).channelsByUs = cs.channelsByUs.modify u f from rfl, ExtTreeMap.getElem?_modify] at h
  split at h
  · next he =>
    cases LawfulEqCmp.eq_of_compare he
    obtain ⟨c', hc, rfl⟩ := Option.map_eq_some_iff.mp h
    exact ⟨c', hc, Or.inr ⟨rfl, rfl⟩⟩
  · exact ⟨c, h, Or.inl rfl⟩

theorem addXchannel_spec {cs cs' : ConnState} {u k : Nat} {window : Int} {msgs : List (Msg × List UInt8)}
    (h : addXchannel cs u k window msgs = some cs') :
    u ∉ cs.xchannelsByUs ∧ k ∉ cs.xchannelsByServer ∧ cs' = { cs with
      xchannelsByUs := cs.xchannelsByUs.insert u ⟨u, k, true, window, msgs⟩
      xchannelsByServer := cs.xchannelsByServer.insert k u } := by
  unfold addXchannel at h
  split at h
  · cases h
  · next hn =>
    cases h
    rw [not_or] at hn
    exact ⟨hn.1, hn.2, rfl⟩

/-- A request record goes to the end of the list, or becomes the whole of it. -/
theorem pushGlobreq_spec (cs : ConnState) (globreq : Globreq) :
    ∃ globreqHead, pushGlobreq cs globreq = { cs with globreqHead } := by
  unfold pushGlobreq
  split
  · exact ⟨_, rfl⟩
  · exact ⟨_, rfl⟩

/-! ## The cleanup -/

theorem cleanupHalfchannels_spec (me : Nat) (m : At) : ∃ out, cleanupHalfchannels me m =
    ⟨{ m.cl with out := m.cl.out ++ out }, { m.cs with halfchannels := ∅ }⟩ :=
  ⟨_, by unfold cleanupHalfchannels ConnectionLayer.sendPacketFromDownstream; rw [foldl_emit_out]⟩

/-- One round of the channel loop: nothing, or the state changes, or the channel goes. -/
theorem cleanupChannel_spec {u : Nat} (h : cleanupChannel me m u = some m') :
    (m' = m ∧ ∀ c, m.cs.channelsByUs[u]? = some c → c.state = .sentClose ∨ c.state = .unacknowledged) ∨
    (∃ c out, m.cs.channelsByUs[u]? = some c ∧ c.state = .opened ∧
      m' = ⟨{ m.cl with out }, modifyChannel m.cs u fun c => { c with state := .sentClose }⟩) ∨
    (∃ c out x11authtree, m.cs.channelsByUs[u]? = some c ∧ c.state = .rcvdClose ∧
      m' = ⟨{ m.cl with out, x11authtree, channels := m.cl.channels.erase u }, { m.cs with
        channelsByUs := m.cs.channelsByUs.erase u
        channelsByServer := m.cs.channelsByServer.erase c.serverId }⟩) := by
  unfold cleanupChannel findChannelByUpstream at h
  split at h
  · next hn =>
    cases h
    exact Or.inl ⟨rfl, fun c hc => by rw [hn] at hc; cases hc⟩
  · next c hc =>
    split at h
    · next hs =>
      cases h
      exact Or.inl ⟨rfl, fun c' hc' => by rw [hc] at hc'; cases hc'; exact hs⟩
    · next hs =>
      dsimp only at h
      split at h
      · next hr =>
        cases h
        refine Or.inr (Or.inl ⟨c, _, hc, ?_, rfl⟩)
        cases he : c.state <;> simp_all
      · next hr =>
        obtain ⟨h1, x11, h2⟩ := removeChannel_spec h
        refine Or.inr (Or.inr ⟨c, (m.cl.sendPacketFromDownstream me .channelClose (put32BitMsbFirst c.serverId)).out, x11, hc,
          Decidable.not_not.mp hr, ?_⟩)
        cases m'
        cases h1; cases h2
        rfl

theorem cleanupForwarding_spec {key : FwdKey} (h : cleanupForwarding me m key = some m') :
    (m' = m ∧ ∀ f, m.cs.forwardings[key]? = some f → f.active = false) ∨
    (∃ f rpf out, m.cs.forwardings[key]? = some f ∧ f.active = true ∧ m.cl.rportfwds[key]? = some rpf ∧ rpf.addr = f.rpf ∧
      m' = ⟨{ m.cl with out, rportfwds := m.cl.rportfwds.erase key },
        { m.cs with forwardings := m.cs.forwardings.erase key }⟩) := by
  unfold cleanupForwarding at h
  split at h
  · next hn =>
    cases h
    exact Or.inl ⟨rfl, fun f hf => by rw [hn] at hf; cases hf⟩
  · next f hf =>
    split at h
    · next ha =>
      obtain ⟨cl, h1, h2⟩ := Option.bind_eq_some_iff.mp h
      cases h2
      obtain ⟨r, h3, h4⟩ := Option.bind_eq_some_iff.mp h1
      cases h4
      obtain ⟨h5, h6⟩ := Option.filter_eq_some_iff.mp h3
      exact Or.inr ⟨f, r, _, hf, ha, h5, by simpa using h6, rfl⟩
    · next ha =>
      cases h
      refine Or.inl ⟨rfl, fun g hg => ?_⟩
      rw [hf] at hg; cases hg
      simpa using ha

/-- The three parts of the cleanup. -/
theorem tryCleanup_spec {d : Done} (h : tryCleanup me m = some d) :
    ∃ m1 m2, m.cs.channelsByUs.keys.foldlM (cleanupChannel me) (cleanupHalfchannels me m) = some m1 ∧
      m1.cs.forwardings.keys.foldlM (cleanupForwarding me) m1 = some m2 ∧
      d = (m2.cl, if m2.cs.idle then none else some m2.cs) := by
  unfold tryCleanup at h
  obtain ⟨m1, h1, h⟩ := Option.bind_eq_some_iff.mp h
  obtain ⟨m2, h2, h⟩ := Option.bind_eq_some_iff.mp h
  refine ⟨m1, m2, h1, h2, ?_⟩
  split at h
  · next hi => cases h; rw [if_pos hi]
  · next hi => cases h; rw [if_neg hi]; rfl

theorem idle_iff {cs : ConnState} : cs.idle = true ↔ cs.halfchannels = ∅ ∧ cs.channelsByUs = ∅ ∧ cs.forwardings = ∅ := by
  simp [ConnState.idle, ExtTreeMap.isEmpty_iff, and_assoc]

/-- A property of connection layer and connstate that every part of the cleanup keeps
    holds when it is decided whether to free the connstate. -/
theorem tryCleanup_ends {P : At → Prop} {d : Done} (hhalf : ∀ m, P m → P (cleanupHalfchannels me m))
    (hchan : ∀ m u m', P m → cleanupChannel me m u = some m' → P m')
    (hfwd : ∀ m key m', P m → cleanupForwarding me m key = some m' → P m') (hm : P m) (h : tryCleanup me m = some d) :
    ∃ m2, P m2 ∧ d = (m2.cl, if m2.cs.idle then none else some m2.cs) := by
  obtain ⟨m1, m2, h1, h2, hd⟩ := tryCleanup_spec h
  exact ⟨m2, foldlM_keeps hfwd (foldlM_keeps hchan (hhalf m hm) h1) h2, hd⟩

/-! ## Delivering a call -/

theorem deliver_spec {s s' : St} {a : Nat} {f : At → Option Done} (h : deliver s a f = some s') :
    ∃ cs cl cs', s.connections[a]? = some cs ∧ f ⟨s.cl, cs⟩ = some (cl, cs') ∧
      s' = { s with
        cl
        connections := match cs' with
          | some cs => s.connections.insert a cs
          | none => s.connections.erase a } := by
  obtain ⟨cs, h1, h⟩ := Option.bind_eq_some_iff.mp h
  obtain ⟨⟨cl, cs'⟩, h2, h⟩ := Option.bind_eq_some_iff.mp h
  cases h
  exact ⟨cs, cl, cs', h1, h2, rfl⟩

end Putty.Share
