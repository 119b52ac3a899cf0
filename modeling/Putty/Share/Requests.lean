/-
  Putty.Share.Requests — the global requests of the downstreams (`sshshare.c`,
  share_got_pkt_from_downstream and ssh2_sharing_globreq_response; `ssh2connection.c`,
  ssh2_sharing_queue_global_request).

  A tcpip-forward or cancel-tcpip-forward that is passed on is remembered twice: the
  connection layer queues a handler for its reply, and the connstate a record of what the
  reply is about. The reply takes the first of each.

  The connstate's list does not keep up. Its tail pointer is never set, so a request that
  is made while another one is unanswered takes the place of the whole list, and a
  forwarding that the connstate still has although the connection layer has dropped it is
  asked for again without a record (`second_request_takes_the_place`). In the runs where
  neither happens, and in no others, the two queues agree in every state
  (`requests_agree_iff`).
-/

import Putty.Share.Handlers

namespace Putty.Share

open Std Putty.Lib Putty.Utils Putty.Ssh2
open Putty.Ssh2.GlobalRequests (Reply queueGlobalRequestHandler filterReply View)

/-! ## What is outstanding -/

/-- The handlers whose reply has not come, each with its place among all that were queued. -/
def outstanding (g : GlobalRequests.St Handler) : List (Handler × Nat) :=
  (g.queued.drop g.called.length).zipIdx g.called.length

/-- The places of those queued for one connstate. -/
def pending (g : GlobalRequests.St Handler) (a : Nat) : List Nat :=
  ((outstanding g).filter (·.1 = .sharing a)).map (·.2)

/-- The handler that the next reply is handed to. -/
def nextHandler (g : GlobalRequests.St Handler) : Option Handler :=
  g.globreqHead.bind fun head => (g.heap.cell head).map (·.handler)

/-- Every connstate has one record for each of its outstanding handlers, in order, and the
    next reply finds the record of the request it answers. -/
structure Agreed (s : St) : Prop where
  lists : ∀ (a : Nat) cs, s.connections[a]? = some cs → cs.globreqHead.map (·.serial) = pending s.cl.globreqs a
  answered : ∀ (a : Nat) cs, nextHandler s.cl.globreqs = some (.sharing a) → s.connections[a]? = some cs →
    ∃ globreq rest, cs.globreqHead = globreq :: rest ∧ globreq.serial = s.cl.globreqs.called.length

variable {g g' : GlobalRequests.St Handler} {hs : List Handler} {handler : Handler} {next : Ptr} {reply : Reply}
  {head : Nat}

theorem outstanding_eq (h : View g hs) : outstanding g = hs.zipIdx g.called.length := by
  unfold outstanding
  rw [h.drop_called]

theorem pending_queue (h : View g hs) (hq : queueGlobalRequestHandler g handler next = some g') (a : Nat) :
    pending g' a = pending g a ++ if handler = .sharing a then [g.queued.length] else [] := by
  obtain ⟨h', -, hc⟩ := h.queue hq
  have hlen : g.called.length + hs.length = g.queued.length := by
    rw [h.queued]
    simp
  unfold pending
  rw [outstanding_eq h', outstanding_eq h, hc, List.zipIdx_append, List.filter_append, List.map_append, hlen]
  congr 1
  split
  · next he => simp [he]
  · next he => simp [he]

theorem pending_reply {ogr : GlobalRequests.OutstandingGlobalRequest Handler} (h : View g hs)
    (hh : g.globreqHead = some head) (hc : g.heap.cell head = some ogr) (hf : filterReply g reply [] = some g') (a : Nat) :
    pending g a = (if ogr.handler = .sharing a then [g.called.length] else []) ++ pending g' a := by
  obtain ⟨hs', rfl, h', -, hcalled⟩ := h.reply hh hc hf
  unfold pending
  rw [outstanding_eq h', outstanding_eq h, hcalled, List.zipIdx_cons, List.length_append]
  simp only [List.length_cons, List.length_nil, Nat.zero_add]
  split
  · next he => rw [List.filter_cons_of_pos (by simpa using he)]; rfl
  · next he => rw [List.filter_cons_of_neg (by simpa using he)]; rfl

/-- The place of the handler that is called next. -/
theorem pending_next {a : Nat} (h : View g hs) (hn : nextHandler g = some (.sharing a)) :
    ∃ rest, pending g a = g.called.length :: rest := by
  obtain ⟨head, hh, hc⟩ := Option.bind_eq_some_iff.mp hn
  obtain ⟨ogr, hc, ho⟩ := Option.map_eq_some_iff.mp hc
  obtain ⟨rfl, hdead, -⟩ | ⟨xs, hl, rfl, -⟩ := h.entries
  · rw [hdead] at hc
    cases hc
  obtain ⟨⟨junk, hseg⟩, -, as, z, he, -⟩ := hl
  cases xs with
  | nil => simp at he
  | cons x xs =>
    obtain ⟨hp, hx, -⟩ := hseg
    cases hh.symm.trans hp
    cases hc.symm.trans hx
    refine ⟨(((xs.map (·.2.handler)).zipIdx (g.called.length + 1)).filter (·.1 = .sharing a)).map (·.2), ?_⟩
    unfold pending
    rw [outstanding_eq h, List.map_cons, List.zipIdx_cons, List.filter_cons_of_pos (by simpa using ho)]
    rfl

/-! ## The requests of a downstream -/

structure RequestFields where
  name : List UInt8
  key : FwdKey
  truncated : Bool

def requestFields (pkt : List UInt8) : RequestFields :=
  let (name, src) := (BinarySource.ofData pkt).getString
  let (host, src) := src.getBool.2.getString
  let (port, src) := src.getUint32
  ⟨name, fwdKey host port, src.err⟩

/-- The forwarding a request asks for, if that is what it does. -/
def forwardOf (pkt : List UInt8) : Option FwdKey :=
  let r := requestFields pkt
  if r.name = text "tcpip-forward" ∧ r.truncated = false then some r.key else none

/-- The forwarding a request cancels. -/
def cancelOf (pkt : List UInt8) : Option FwdKey :=
  let r := requestFields pkt
  if r.name = text "cancel-tcpip-forward" ∧ r.truncated = false then some r.key else none

/-- Nothing is passed on for a downstream that still waits for a reply, nor a request for a
    forwarding that it still has. -/
def InTurn (s : St) : Ev → Prop
  | .packet a .globalRequest pkt _ => s.protoError = false → ∀ cs, s.connections[a]? = some cs →
      (∀ key, forwardOf pkt = some key → key ∉ s.cl.rportfwds → key ∉ cs.forwardings ∧ cs.globreqHead = []) ∧
      ∀ key, cancelOf pkt = some key → key ∈ cs.forwardings → cs.globreqHead = []
  | _ => True

variable {me : Nat} {m m1 : At} {d : Done} {pkt : List UInt8} {env : Env}

/-- A GLOBAL_REQUEST is one of the two, or it is refused or not understood. -/
theorem globalRequest_cases (me : Nat) (m : At) (pkt : List UInt8) (env : Env) :
    (∃ key wantReply pos, forwardOf pkt = some key ∧ cancelOf pkt = none ∧
      globalRequest me m pkt env = forwardRequest me m key wantReply pkt pos env) ∨
    (∃ key wantReply pos, forwardOf pkt = none ∧ cancelOf pkt = some key ∧
      globalRequest me m pkt env = cancelRequest me m key wantReply pkt pos env) ∨
    forwardOf pkt = none ∧ cancelOf pkt = none ∧
      ((∃ err, globalRequest me m pkt env = confused me m err) ∨
        ∃ wantReply, globalRequest me m pkt env = refuseRequest me m wantReply) := by
  unfold forwardOf cancelOf globalRequest requestFields
  dsimp only
  by_cases hf : (BinarySource.ofData pkt).getString.1 = text "tcpip-forward"
  · have hne : text "tcpip-forward" ≠ text "cancel-tcpip-forward" := by decide
    cases ht : (BinarySource.ofData pkt).getString.2.getBool.2.getString.2.getUint32.2.err with
    | true => exact Or.inr (Or.inr ⟨by simp, by simp, Or.inl ⟨_, by rw [if_pos hf, if_pos rfl]⟩⟩)
    | false => exact Or.inl ⟨_, _, _, by rw [if_pos ⟨hf, rfl⟩], by rw [hf]; simp [hne], by rw [if_pos hf, if_neg (by simp)]⟩
  · by_cases hc : (BinarySource.ofData pkt).getString.1 = text "cancel-tcpip-forward"
    · cases ht : (BinarySource.ofData pkt).getString.2.getBool.2.getString.2.getUint32.2.err with
      | true => exact Or.inr (Or.inr ⟨by simp, by simp, Or.inl ⟨_, by rw [if_neg hf, if_pos hc, if_pos rfl]⟩⟩)
      | false =>
        exact Or.inr (Or.inl ⟨_, _, _, by simp [hf], by rw [if_pos ⟨hc, rfl⟩],
          by rw [if_neg hf, if_pos hc, if_neg (by simp)]⟩)
    · exact Or.inr (Or.inr ⟨by simp [hf], by simp [hc], Or.inr ⟨_, by rw [if_neg hf, if_neg hc]⟩⟩)

theorem refuseRequest_spec {wantReply : Bool} (h : refuseRequest me m wantReply = some d) : ∃ out, d = (m.send out).done := by
  obtain ⟨m1, h1, rfl⟩ := Option.map_eq_some_iff.mp h
  obtain ⟨out, rfl⟩ := (sendIfWanted_spec h1).send_eq
  exact ⟨out, rfl⟩

theorem forwardRequest_spec {key : FwdKey} {wantReply : Bool} {pos : Nat}
    (h : forwardRequest me m key wantReply pkt pos env = some d) :
    (key ∈ m.cl.rportfwds ∧ ∃ out, d = (m.send out).done) ∨
    key ∉ m.cl.rportfwds ∧ ∃ globreqs out, queueGlobalRequestHandler m.cl.globreqs (.sharing me) env.junk = some globreqs ∧
      d = ({ m.cl with brk := m.cl.brk + 1, rportfwds := m.cl.rportfwds.insert key ⟨m.cl.brk, some me⟩, globreqs, out },
        some (if key ∈ m.cs.forwardings then m.cs
          else pushGlobreq { m.cs with forwardings := m.cs.forwardings.insert key ⟨false, m.cl.brk⟩ }
            ⟨.tcpipForward, wantReply, key, m.cl.brk, m.cl.globreqs.queued.length⟩)) := by
  unfold forwardRequest at h
  split at h
  · next hn =>
    unfold ConnectionLayer.rportfwdAlloc at hn
    split at hn
    · next hk => exact Or.inl ⟨hk, refuseRequest_spec h⟩
    · cases hn
  · next rpf cl ha =>
    obtain ⟨hk, rfl, rfl⟩ := rportfwdAlloc_spec ha
    obtain ⟨cl', h1, h2⟩ := Option.bind_eq_some_iff.mp h
    obtain ⟨globreqs, hq, rfl⟩ := sharingQueueGlobalRequest_spec h1
    refine Or.inr ⟨hk, globreqs, m.cl.out ++ [.toServer me .globalRequest (pkt.set pos 1)], hq, ?_⟩
    split at h2
    · next hm =>
      cases h2
      rw [if_pos hm]
      rfl
    · next hm =>
      cases h2
      rw [if_neg hm]
      rfl

theorem cancelRequest_spec {key : FwdKey} {wantReply : Bool} {pos : Nat}
    (h : cancelRequest me m key wantReply pkt pos env = some d) :
    (key ∉ m.cs.forwardings ∧ ∃ out, d = (m.send out).done) ∨
    ∃ fwd r globreqs out, m.cs.forwardings[key]? = some fwd ∧ m.cl.rportfwds[key]? = some r ∧ r.addr = fwd.rpf ∧
      queueGlobalRequestHandler m.cl.globreqs (.sharing me) env.junk = some globreqs ∧
      d = ({ m.cl with rportfwds := m.cl.rportfwds.erase key, globreqs, out },
        some (pushGlobreq m.cs ⟨.cancelTcpipForward, wantReply, key, fwd.rpf, m.cl.globreqs.queued.length⟩)) := by
  unfold cancelRequest at h
  split at h
  · next hn => exact Or.inl ⟨fun hm => by simp [ExtTreeMap.mem_iff_isSome_getElem?, hn] at hm, refuseRequest_spec h⟩
  · next fwd hf =>
    obtain ⟨cl, h1, h2⟩ := Option.bind_eq_some_iff.mp h
    obtain ⟨r, hr, ha, rfl⟩ := rportfwdRemove_spec h1
    obtain ⟨cl', h3, h4⟩ := Option.bind_eq_some_iff.mp h2
    obtain ⟨globreqs, hq, rfl⟩ := sharingQueueGlobalRequest_spec h3
    cases h4
    exact Or.inr ⟨fwd, r, globreqs, _, hf, hr, ha, hq, rfl⟩

/-! ## What has nothing to do with them -/

/-- Neither queue has changed. -/
structure Undisturbed (m : At) (d : Done) : Prop where
  globreqs : d.1.globreqs = m.cl.globreqs
  brk : m.cl.brk ≤ d.1.brk
  lists : ∀ cs, d.2 = some cs → cs.globreqHead = m.cs.globreqHead ∧ cs.globreqTail = m.cs.globreqTail

namespace Undisturbed

theorem of_eq (h1 : m1.cl.globreqs = m.cl.globreqs) (h2 : m.cl.brk ≤ m1.cl.brk) (h3 : m1.cs.globreqHead = m.cs.globreqHead)
    (h4 : m1.cs.globreqTail = m.cs.globreqTail) : Undisturbed m m1.done :=
  ⟨h1, h2, fun cs hd => by cases hd; exact ⟨h3, h4⟩⟩

theorem same (h1 : m1.cl.globreqs = m.cl.globreqs) (h2 : m1.cl.brk = m.cl.brk) (h3 : m1.cs.globreqHead = m.cs.globreqHead)
    (h4 : m1.cs.globreqTail = m.cs.globreqTail) : Undisturbed m m1.done := of_eq h1 (Nat.le_of_eq h2.symm) h3 h4

theorem trans {n : At} (h : Undisturbed m n.done) (h' : Undisturbed n d) : Undisturbed m d :=
  ⟨h'.globreqs.trans h.globreqs, Nat.le_trans h.brk h'.brk, fun cs hd =>
    ⟨(h'.lists cs hd).1.trans (h.lists _ rfl).1, (h'.lists cs hd).2.trans (h.lists _ rfl).2⟩⟩

end Undisturbed

theorem tryCleanup_undisturbed (h : tryCleanup me m = some d) : Undisturbed m d := by
  obtain ⟨m2, h2, rfl⟩ := tryCleanup_ends (P := fun m' => Undisturbed m m'.done)
    (fun m1 h1 => by
      obtain ⟨out, he⟩ := cleanupHalfchannels_spec me m1
      rw [he]
      exact h1.trans (.same rfl rfl rfl rfl))
    (fun m1 u m' h1 hu => by
      obtain ⟨rfl, -⟩ | ⟨c, out, -, -, rfl⟩ | ⟨c, out, x11, -, -, rfl⟩ := cleanupChannel_spec hu
      · exact h1
      · exact h1.trans (.same rfl rfl rfl rfl)
      · exact h1.trans (.same rfl rfl rfl rfl))
    (fun m1 key m' h1 hk => by
      obtain ⟨rfl, -⟩ | ⟨f, rpf, out, -, -, -, -, rfl⟩ := cleanupForwarding_spec hk
      · exact h1
      · exact h1.trans (.same rfl rfl rfl rfl))
    (.same rfl rfl rfl rfl) h
  refine ⟨h2.globreqs, h2.brk, fun cs hd => ?_⟩
  dsimp only at hd
  split at hd
  · cases hd
  · cases hd
    exact h2.lists _ rfl

theorem retryCleanup_undisturbed (h : retryCleanup me m = some d) : Undisturbed m d := by
  unfold retryCleanup at h
  split at h
  · cases h
    exact .same rfl rfl rfl rfl
  · exact tryCleanup_undisturbed h

theorem addChannel_undisturbed (m : At) (dn u k : Nat) (state : ChanState) (maxpkt : UInt32) :
    Undisturbed m (addChannel m dn u k state maxpkt).2.done := by
  obtain ⟨o, cs, he, ⟨-, rfl, -⟩ | ⟨-, -, -, rfl⟩⟩ := addChannel_spec m dn u k state maxpkt
  · rw [he]
    exact .of_eq rfl (Nat.le_succ _) rfl rfl
  · rw [he]
    exact .of_eq rfl (Nat.le_succ _) rfl rfl

theorem removeChannel_undisturbed {u : Nat} {c : Channel} (h : removeChannel m u c = some m1) : Undisturbed m m1.done := by
  obtain ⟨h1, x11, h2⟩ := removeChannel_spec h
  obtain ⟨cl, cs⟩ := m1
  cases h1
  cases h2
  exact .same rfl rfl rfl rfl

theorem XAnswer.undisturbed {u k : Nat} (h : XAnswer m u k m1) : Undisturbed m m1.done := by
  cases h with
  | stays out xs _ => exact .same rfl rfl rfl rfl
  | goes out xs _ => exact .same rfl rfl rfl rfl

theorem setupX11Channel_undisturbed {u : Nat} {auth : X11FakeAuth} {x : X11Setup}
    (h : setupX11Channel me m u auth x = some m1) : Undisturbed m m1.done := by
  obtain ⟨chan, window, msgs, cs, out, -, -, -, ha, rfl⟩ := setupX11Channel_spec h
  obtain ⟨-, -, rfl⟩ := addXchannel_spec ha
  split
  · exact .same rfl rfl rfl rfl
  · exact .same rfl rfl rfl rfl

/-- Packets other than global requests. -/
theorem Handled.undisturbed {type : Msg} (ht : type ≠ .globalRequest) (h : Handled me m type pkt d) : Undisturbed m d := by
  cases h with
  | ended out _ hc => exact .trans (n := (m.send out).closeSock) (.same rfl rfl rfl rfl) (tryCleanup_undisturbed hc)
  | openTruncated out _ _ _ hc =>
    exact .trans (n := (At.send ⟨m.cl.withNew me, m.cs⟩ out).closeSock) (.same rfl rfl rfl rfl) (tryCleanup_undisturbed hc)
  | opened oldId maxpkt out _ _ =>
    have h1 := addChannel_undisturbed ⟨m.cl.withNew me, m.cs⟩ oldId m.cl.allocChannelId 0 .unacknowledged maxpkt
    exact .trans (n := ⟨m.cl.withNew me, m.cs⟩) (.same rfl rfl rfl rfl) (h1.trans (.same rfl rfl rfl rfl))
  | confirmedHalf oldId maxpkt m1 out _ _ hm =>
    have h1 := addChannel_undisturbed ⟨m.cl.withNew me, m.cs⟩ oldId m.cl.allocChannelId (firstId pkt) .opened maxpkt
    subst hm
    exact .trans (n := ⟨m.cl.withNew me, m.cs⟩) (.same rfl rfl rfl rfl) (h1.trans (.same rfl rfl rfl rfl))
  | confirmedX xc oldId maxpkt chan m1 m2 window _ _ ha hx =>
    have h1 := addChannel_undisturbed m oldId xc.upstreamId (firstId pkt) .opened maxpkt
    rw [ha] at h1
    obtain ⟨out, rfl⟩ := xchannelConfirmation_spec hx
    exact h1.trans (.same rfl rfl rfl rfl)
  | windowTooSmall xc oldId maxpkt chan m1 out _ _ ha _ hc =>
    have h1 := addChannel_undisturbed m oldId xc.upstreamId (firstId pkt) .opened maxpkt
    rw [ha] at h1
    exact h1.trans (.trans (n := (m1.send out).closeSock) (.same rfl rfl rfl rfl) (tryCleanup_undisturbed hc))
  | refusedX xc _ _ => exact xchannelFailure_answer.undisturbed
  | forwarded _ _ _ _ _ _ _ h => exact absurd h ht
  | cancelled _ _ _ _ _ _ _ h => exact absurd h ht
  | closedBoth u chan out m1 _ _ _ hr =>
    exact .trans (n := At.send ⟨m.cl.deleteSharingChannel u, m.cs⟩ out) (.same rfl rfl rfl rfl) (removeChannel_undisturbed hr)
  | x11 u chan single out _ _ => exact .of_eq rfl (Nat.le_succ _) rfl rfl
  | _ => exact .same rfl rfl rfl rfl

theorem Served.undisturbed {type : Msg} (h : Served me m type pkt d) : Undisturbed m d := by
  cases h with
  | acknowledged c out _ _ _ _ hr =>
    exact .trans (n := At.send ⟨m.cl, channelSetServerId m.cs (firstId pkt) (senderId pkt) .opened⟩ out)
      (.same rfl rfl rfl rfl) (retryCleanup_undisturbed hr)
  | openFailed c out m1 _ _ hr =>
    exact .trans (n := At.send ⟨m.cl.deleteSharingChannel (firstId pkt), m.cs⟩ out) (.same rfl rfl rfl rfl)
      (removeChannel_undisturbed hr)
  | closedBoth c out m1 _ _ _ hr hb =>
    have h1 : Undisturbed m m1.done := .trans (n := At.send ⟨m.cl.deleteSharingChannel (firstId pkt), m.cs⟩ out)
      (.same rfl rfl rfl rfl) (removeChannel_undisturbed hr)
    exact h1.trans (retryCleanup_undisturbed hb)
  | xchannel xc _ _ => exact gotXchannelMsg_answer.undisturbed
  | _ => exact .same rfl rfl rfl rfl

/-! ## Events -/

structure Requests (s : St) : Prop where
  view : ∃ hs, View s.cl.globreqs hs
  lists : ∀ (a : Nat) cs, s.connections[a]? = some cs → cs.globreqHead.map (·.serial) = pending s.cl.globreqs a
  tail : s.Each (·.globreqTail = none)
  /-- No address that has not been given out is in use. -/
  fresh : ∀ a : Nat, s.cl.brk ≤ a → a ∉ s.connections ∧ Handler.sharing a ∉ s.cl.globreqs.queued

theorem Requests.agreed {s : St} (h : Requests s) : Agreed s := by
  refine ⟨h.lists, fun a cs hn hc => ?_⟩
  obtain ⟨hs, hv⟩ := h.view
  obtain ⟨rest, hp⟩ := pending_next hv hn
  have hl := h.lists a cs hc
  rw [hp] at hl
  obtain ⟨globreq, rest', he, hserial, -⟩ := List.map_eq_cons_iff.mp hl
  exact ⟨globreq, rest', he, hserial⟩

variable {s s' : St} {a : Nat} {cs : ConnState} {cl : ConnectionLayer}

theorem Requests.congr {s1 : St} (h : Requests s) (h1 : s1.cl = s.cl) (h2 : s1.connections = s.connections) : Requests s1 := by
  obtain ⟨hv, hl, ht, hf⟩ := h
  refine ⟨h1 ▸ hv, fun a cs hc => ?_, fun a cs hc => ht a cs (h2 ▸ hc), fun a ha => ?_⟩
  · rw [h1]
    exact hl a cs (h2 ▸ hc)
  · rw [h1, h2]
    exact hf a (h1 ▸ ha)

/-- A call for one connstate. -/
theorem Requests.after (h : Requests s) (hv : ∃ hs, View d.1.globreqs hs) (hb : s.cl.brk ≤ d.1.brk) (ha : a < d.1.brk)
    (hq : ∀ b, d.1.brk ≤ b → Handler.sharing b ∉ d.1.globreqs.queued)
    (hothers : ∀ b, b ≠ a → pending d.1.globreqs b = pending s.cl.globreqs b)
    (hme : ∀ cs, d.2 = some cs → cs.globreqHead.map (·.serial) = pending d.1.globreqs a ∧ cs.globreqTail = none) :
    Requests (s.after a d) := by
  refine ⟨hv, fun b cs hc => ?_, h.tail.after fun cs hd => (hme cs hd).2, fun b hbb => ⟨fun hm => ?_, hq b hbb⟩⟩
  · by_cases he : b = a
    · subst he
      exact (hme cs (after_get hc)).1
    · rw [after_get_ne he] at hc
      exact (h.lists b cs hc).trans (hothers b he).symm
  · obtain ⟨cs, hc⟩ := get_of_mem hm
    rw [after_get_ne (Nat.ne_of_gt (Nat.lt_of_lt_of_le ha hbb))] at hc
    exact (h.fresh b (Nat.le_trans hb hbb)).1 (mem_of_get hc)

theorem Requests.addr_lt (h : Requests s) (hc : s.connections[a]? = some cs) : a < s.cl.brk := by
  by_contra hlt
  exact (h.fresh a (Nat.le_of_not_lt hlt)).1 (mem_of_get hc)

theorem Requests.undisturbed (h : Requests s) (hc : s.connections[a]? = some cs) (hcl : m.cl.globreqs = s.cl.globreqs)
    (hb : m.cl.brk = s.cl.brk) (hcs : m.cs.globreqHead = cs.globreqHead ∧ m.cs.globreqTail = cs.globreqTail)
    (hu : Undisturbed m d) : Requests (s.after a d) := by
  have hg : d.1.globreqs = s.cl.globreqs := hu.globreqs.trans hcl
  have hbrk : s.cl.brk ≤ d.1.brk := hb ▸ hu.brk
  refine h.after (hg ▸ h.view) hbrk (Nat.lt_of_lt_of_le (h.addr_lt hc) hbrk) (fun b hbb => ?_)
    (fun b _ => by rw [hg]) fun cs' hd => ?_
  · rw [hg]
    exact (h.fresh b (Nat.le_trans hbrk hbb)).2
  · obtain ⟨h1, h2⟩ := hu.lists cs' hd
    rw [h1, h2, hcs.1, hcs.2, hg]
    exact ⟨h.lists a cs hc, h.tail a cs hc⟩

/-- A request that is passed on while nothing else is outstanding, with its record. -/
theorem Requests.pushed {junk : Ptr} {globreq : Globreq} {cs' : ConnState} {globreqs : GlobalRequests.St Handler}
    (h : Requests s) (hc : s.connections[a]? = some cs)
    (hq : queueGlobalRequestHandler s.cl.globreqs (.sharing a) junk = some globreqs) (hb : s.cl.brk ≤ cl.brk)
    (hg : cl.globreqs = globreqs) (hnone : cs.globreqHead = []) (htail : cs'.globreqTail = cs.globreqTail)
    (hserial : globreq.serial = s.cl.globreqs.queued.length) : Requests (s.after a (cl, some (pushGlobreq cs' globreq))) := by
  subst hg
  obtain ⟨hs, hv⟩ := h.view
  obtain ⟨hv', hqd, -⟩ := hv.queue hq
  have halt := h.addr_lt hc
  refine h.after ⟨_, hv'⟩ hb (Nat.lt_of_lt_of_le halt hb) (fun b hbb hm => ?_) (fun b hne => ?_) fun cs1 hd => ?_
  · rw [hqd, List.mem_append, List.mem_singleton] at hm
    rcases hm with hm | he
    · exact (h.fresh b (Nat.le_trans hb hbb)).2 hm
    · cases he
      exact absurd hbb (Nat.not_le_of_lt (Nat.lt_of_lt_of_le halt hb))
  · rw [pending_queue hv hq, if_neg (by simpa using hne.symm), List.append_nil]
  · cases hd
    have ht := h.tail a cs hc
    have hold := h.lists a cs hc
    rw [hnone] at hold
    rw [pending_queue hv hq, if_pos rfl, ← hold]
    unfold pushGlobreq
    rw [htail, ht]
    simp [hserial]

/-- The connection layer alone. -/
theorem Requests.layer {reading : Option Nat} {protoError : Bool} (h : Requests s) (hv : ∃ hs, View cl.globreqs hs)
    (hb : s.cl.brk ≤ cl.brk) (hq : ∀ b, cl.brk ≤ b → Handler.sharing b ∉ cl.globreqs.queued)
    (hp : ∀ b, pending cl.globreqs b = pending s.cl.globreqs b) : Requests { s with cl, reading, protoError } :=
  ⟨hv, fun b cs hc => (h.lists b cs hc).trans (hp b).symm, h.tail,
    fun b hbb => ⟨(h.fresh b (Nat.le_trans hb hbb)).1, hq b hbb⟩⟩

theorem rportfwdGlobreqResponse_spec {cl' : ConnectionLayer} {key : FwdKey} {addr : Nat}
    (h : rportfwdGlobreqResponse cl key addr reply = some cl') :
    ∃ r, cl.rportfwds[key]? = some r ∧ r.addr = addr ∧
      (cl' = cl ∨ cl' = { cl with rportfwds := cl.rportfwds.erase key }) := by
  cases reply with
  | success =>
    obtain ⟨r, hr, rfl⟩ := Option.map_eq_some_iff.mp h
    obtain ⟨hr, ha⟩ := Option.filter_eq_some_iff.mp hr
    exact ⟨r, hr, by simpa using ha, Or.inl rfl⟩
  | failure =>
    obtain ⟨r, hr, ha, rfl⟩ := rportfwdRemove_spec h
    exact ⟨r, hr, ha, Or.inr rfl⟩

/-- The reply takes the first handler and the first record. -/
theorem Requests.replied {ogr : GlobalRequests.OutstandingGlobalRequest Handler}
    {globreqs : GlobalRequests.St Handler} (h : Requests s) (hh : s.cl.globreqs.globreqHead = some head)
    (hcell : s.cl.globreqs.heap.cell head = some ogr) (ho : ogr.handler = .sharing a) (hc : s.connections[a]? = some cs)
    (hg : gotGlobreqReply a ⟨s.cl, cs⟩ reply pkt = some d) (hf : filterReply d.1.globreqs reply [] = some globreqs) :
    Requests (s.after a ({ d.1 with globreqs }, d.2)) := by
  obtain ⟨globreq, rest, forwardings, out, he, -, hr⟩ := gotGlobreqReply_spec hg
  have hu := retryCleanup_undisturbed hr
  have hgl : d.1.globreqs = s.cl.globreqs := hu.globreqs
  have hbrk : s.cl.brk ≤ d.1.brk := hu.brk
  rw [hgl] at hf
  obtain ⟨hs, hv⟩ := h.view
  have hp := pending_reply hv hh hcell hf
  obtain ⟨hs', -, hv', hqd, -⟩ := hv.reply hh hcell hf
  refine h.after ⟨hs', hv'⟩ hbrk (Nat.lt_of_lt_of_le (h.addr_lt hc) hbrk) (fun b hbb => ?_) (fun b hne => ?_) fun cs1 hd => ?_
  · rw [hqd]
    exact (h.fresh b (Nat.le_trans hbrk hbb)).2
  · rw [hp b, ho, if_neg (by simpa using hne.symm), List.nil_append]
  · obtain ⟨h1, h2⟩ := hu.lists cs1 hd
    have hl := h.lists a cs hc
    rw [show cs.globreqHead = globreq :: rest from he, hp a, ho, if_pos rfl] at hl
    simp only [At.send] at h1 h2
    rw [h1, h2]
    refine ⟨(List.cons.inj hl).2, ?_⟩
    split
    · rfl
    · exact h.tail a cs hc

theorem globalRequest_requests (h : Requests s) (hc : s.connections[a]? = some cs)
    (hok : (∀ key, forwardOf pkt = some key → key ∉ s.cl.rportfwds → key ∉ cs.forwardings ∧ cs.globreqHead = []) ∧
      ∀ key, cancelOf pkt = some key → key ∈ cs.forwardings → cs.globreqHead = [])
    (hg : globalRequest a ⟨s.cl, cs⟩ pkt env = some d) : Requests (s.after a d) := by
  have hquiet : ∀ out, d = (At.send ⟨s.cl, cs⟩ out).done → Requests (s.after a d) := fun out he =>
    h.undisturbed (m := ⟨s.cl, cs⟩) hc rfl rfl ⟨rfl, rfl⟩ (he ▸ .same rfl rfl rfl rfl)
  obtain ⟨key, wantReply, pos, hf, -, he⟩ | ⟨key, wantReply, pos, -, hf, he⟩ | ⟨-, -, ⟨err, he⟩ | ⟨wantReply, he⟩⟩ :=
    globalRequest_cases a ⟨s.cl, cs⟩ pkt env
  · rw [he] at hg
    obtain ⟨-, out, hd⟩ | ⟨hk, globreqs, out, hq, rfl⟩ := forwardRequest_spec hg
    · exact hquiet out hd
    · obtain ⟨hkey, hnone⟩ := hok.1 key hf hk
      rw [if_neg hkey]
      exact h.pushed hc hq (Nat.le_succ _) rfl hnone rfl rfl
  · rw [he] at hg
    obtain ⟨-, out, hd⟩ | ⟨fwd, r, globreqs, out, hfwd, -, -, hq, rfl⟩ := cancelRequest_spec hg
    · exact hquiet out hd
    · have hkey : key ∈ cs.forwardings := by
        rw [ExtTreeMap.mem_iff_isSome_getElem?]
        exact Option.isSome_iff_exists.mpr ⟨fwd, hfwd⟩
      exact h.pushed hc hq (Nat.le_refl _) rfl (hok.2 key hf hkey) rfl rfl
  · rw [he] at hg
    obtain ⟨-, out, ht⟩ := shareDisconnect_spec hg
    exact h.undisturbed (m := (At.send ⟨s.cl, cs⟩ out).closeSock) hc rfl rfl ⟨rfl, rfl⟩ (tryCleanup_undisturbed ht)
  · rw [he] at hg
    obtain ⟨out, hd⟩ := refuseRequest_spec hg
    exact hquiet out hd

theorem step_requests {e : Ev} (h : Requests s) (hok : InTurn s e) (hs : step s e = some s') : Requests s' := by
  obtain ⟨-, rfl⟩ | ⟨hp, s1, ha, -, rfl⟩ := step_acted hs
  · exact h
  refine Requests.congr (s := s1) ?_ rfl rfl
  cases ha with
  | accept =>
    have hnew := h.fresh s.cl.brk (Nat.le_refl _)
    refine h.after (a := s.cl.brk) (d := ({ s.cl with brk := s.cl.brk + 1 }, some ConnState.fresh)) h.view (Nat.le_succ _)
      (Nat.lt_succ_self _) (fun b hb => (h.fresh b (Nat.le_of_succ_le hb)).2) (fun _ _ => rfl) fun cs hd => ?_
    cases hd
    refine ⟨?_, rfl⟩
    obtain ⟨hs, hv⟩ := h.view
    unfold pending
    rw [outstanding_eq hv, List.filter_eq_nil_iff.mpr fun x hx => ?_]
    · rfl
    · have hm := List.mem_zipIdx hx
      simp only [decide_eq_true_eq]
      intro hx
      refine hnew.2 ?_
      rw [hv.queued, List.mem_append]
      exact Or.inr (hx ▸ hm.2.2 ▸ List.getElem_mem _)
  | @packet a type pkt env cs d _ hc hh hg =>
    by_cases ht : type = .globalRequest
    · subst ht
      exact globalRequest_requests h hc (hok hp cs hc) hg
    · exact h.undisturbed (m := ⟨s.cl, cs⟩) hc rfl rfl ⟨rfl, rfl⟩ (hh.undisturbed ht)
  | malformed out _ hc _ ht =>
    exact h.undisturbed (m := (At.send ⟨s.cl, _⟩ out).closeSock) hc rfl rfl ⟨rfl, rfl⟩ (tryCleanup_undisturbed ht)
  | closing hc _ ht =>
    exact h.undisturbed (m := (At.mk s.cl _).closeSock) hc rfl rfl ⟨rfl, rfl⟩ (tryCleanup_undisturbed ht)
  | replySharing hh hcell hc hg hf => exact h.replied hh hcell rfl hc hg hf
  | @replyOurs _ _ _ _ _ _ cl _ hh hcell hr hf =>
    obtain ⟨r, -, -, hcl⟩ := rportfwdGlobreqResponse_spec hr
    obtain ⟨hs, hv⟩ := h.view
    obtain ⟨hgl, hbrk⟩ : cl.globreqs = s.cl.globreqs ∧ cl.brk = s.cl.brk := by
      rcases hcl with rfl | rfl
      · exact ⟨rfl, rfl⟩
      · exact ⟨rfl, rfl⟩
    rw [hgl] at hf
    obtain ⟨hs', -, hv', hqd, -⟩ := hv.reply hh hcell hf
    refine h.layer ⟨hs', hv'⟩ (Nat.le_of_eq hbrk.symm) (fun b hb => ?_) fun b => ?_
    · rw [hqd]
      exact (h.fresh b (hbrk ▸ hb)).2
    · rw [pending_reply hv hh hcell hf b, if_neg (by simp), List.nil_append]
  | openSharing _ _ hc hg =>
    obtain ⟨id, out, rfl⟩ := gotChannelOpen_spec hg
    exact h.undisturbed (m := ⟨s.cl, _⟩) hc rfl rfl ⟨rfl, rfl⟩ (.same rfl rfl rfl rfl)
  | msgSharing _ hc hh _ => exact h.undisturbed (m := ⟨s.cl, _⟩) hc rfl rfl ⟨rfl, rfl⟩ hh.undisturbed
  | forwardOurs hal hq =>
    obtain ⟨-, -, rfl⟩ := rportfwdAlloc_spec hal
    obtain ⟨hs, hv⟩ := h.view
    obtain ⟨hv', hqd, -⟩ := hv.queue hq
    refine h.layer ⟨_, hv'⟩ (Nat.le_succ _) (fun b hb hm => ?_) fun b => ?_
    · rw [hqd, List.mem_append, List.mem_singleton] at hm
      rcases hm with hm | he
      · exact (h.fresh b (Nat.le_of_succ_le hb)).2 hm
      · cases he
    · rw [pending_queue hv hq, if_neg (by simp), List.append_nil]
  | @handover u x auth cs m _ _ hc hx =>
    exact h.undisturbed (m := ⟨{ s.cl with channels := s.cl.channels.insert u (.sharectx auth.shareCs) }, cs⟩) hc rfl rfl
      ⟨rfl, rfl⟩ (setupX11Channel_undisturbed hx)
  | _ => exact h.layer h.view (Nat.le_refl _) (fun b hb => (h.fresh b hb).2) fun _ => rfl

/-- One record too few: a request was passed on and the list did not grow. -/
theorem push_disagrees {junk : Ptr} {globreqs : GlobalRequests.St Handler} (globreq : Globreq) (grown : Bool) (cs' : ConnState)
    (h : Requests s) (hc : s.connections[a]? = some cs)
    (hq : queueGlobalRequestHandler s.cl.globreqs (.sharing a) junk = some globreqs) (hg : cl.globreqs = globreqs)
    (hgrown : grown = true → cs.globreqHead ≠ [])
    (hcs : cs'.globreqHead = cs.globreqHead ∧ cs'.globreqTail = cs.globreqTail) :
    ¬ Agreed (s.after a (cl, some (if grown then pushGlobreq cs' globreq else cs'))) := by
  subst hg
  intro hagreed
  obtain ⟨hs, hv⟩ := h.view
  have hnew := hagreed.lists a (if grown then pushGlobreq cs' globreq else cs') (by simp [St.after])
  have hold := congrArg List.length (h.lists a cs hc)
  have hlen := congrArg List.length hnew
  rw [show (s.after a (cl, some (if grown then pushGlobreq cs' globreq else cs'))).cl = cl from rfl,
    pending_queue hv hq, if_pos rfl, List.length_append] at hlen
  simp only [List.length_map, List.length_cons, List.length_nil] at hlen hold
  cases grown with
  | true =>
    have ht : cs'.globreqTail = none := hcs.2.trans (h.tail a cs hc)
    simp only [pushGlobreq, ht, if_true, List.length_cons, List.length_nil] at hlen
    exact hgrown rfl (List.length_eq_zero_iff.mp (by omega))
  | false =>
    simp only [Bool.false_eq_true, if_false, hcs.1] at hlen
    omega

theorem step_disagrees {e : Ev} (h : Requests s) (hok : ¬ InTurn s e) (hs : step s e = some s') : ¬ Agreed s' := by
  unfold InTurn at hok
  split at hok
  · next a pkt env =>
    simp only [not_forall] at hok
    obtain ⟨hp, cs, hc, hok⟩ := hok
    obtain ⟨hp', -⟩ | ⟨-, s1, hacted, -, rfl⟩ := step_acted hs
    · rw [hp] at hp'
      cases hp'
    cases hacted with
    | @packet _ _ _ _ cs' d _ hc' _ hg =>
      cases hc.symm.trans hc'
      have hg : globalRequest a ⟨s.cl, cs⟩ pkt env = some d := hg
      suffices hno : ¬ Agreed (s.after a d) from fun ha => hno ⟨ha.lists, ha.answered⟩
      rw [not_and_or] at hok
      rcases hok with hok | hok
      · simp only [not_forall] at hok
        obtain ⟨key, hf, hk, hok⟩ := hok
        obtain ⟨key', wantReply, pos, hf', -, he⟩ | ⟨key', wantReply, pos, hf', -⟩ | ⟨hf', -⟩ :=
          globalRequest_cases a ⟨s.cl, cs⟩ pkt env
        · cases hf.symm.trans hf'
          rw [he] at hg
          obtain ⟨hk', -⟩ | ⟨-, globreqs, out, hq, rfl⟩ := forwardRequest_spec hg
          · exact absurd hk' hk
          · by_cases hkey : key ∈ cs.forwardings
            · rw [if_pos hkey]
              exact push_disagrees ⟨.tcpipForward, wantReply, key, 0, 0⟩ false _ h hc hq rfl nofun ⟨rfl, rfl⟩
            · rw [if_neg hkey]
              exact push_disagrees _ true { cs with forwardings := cs.forwardings.insert key ⟨false, _⟩ }
                h hc hq rfl (fun _ hnone => hok ⟨hkey, hnone⟩) ⟨rfl, rfl⟩
        · cases hf.symm.trans hf'
        · cases hf.symm.trans hf'
      · simp only [not_forall] at hok
        obtain ⟨key, hf, hk, hok⟩ := hok
        obtain ⟨key', wantReply, pos, -, hf', he⟩ | ⟨key', wantReply, pos, -, hf', he⟩ | ⟨-, hf', -⟩ :=
          globalRequest_cases a ⟨s.cl, cs⟩ pkt env
        · cases hf.symm.trans hf'
        · cases hf.symm.trans hf'
          rw [he] at hg
          obtain ⟨hk', -⟩ | ⟨fwd, r, globreqs, out, hfwd, -, -, hq, rfl⟩ := cancelRequest_spec hg
          · exact absurd hk hk'
          · exact push_disagrees _ true cs h hc hq rfl (fun _ hnone => hok hnone) ⟨rfl, rfl⟩
        · cases hf.symm.trans hf'
  · exact absurd trivial hok

theorem init_requests : Requests St.init :=
  ⟨⟨[], GlobalRequests.init_view⟩, fun a cs hc => by simp [St.init] at hc, fun a cs hc => by simp [St.init] at hc,
    fun a _ => ⟨by simp [St.init], by simp [St.init, GlobalRequests.init]⟩⟩

/-- A downstream asks for two forwardings before the server has answered. -/
def askTwice : List Ev :=
  let ask (port : Nat) := putString (text "tcpip-forward") ++ putBool true ++ putString (text "localhost") ++ put32BitMsbFirst port
  [.accept, .packet 0 .globalRequest (ask 8080) ⟨none, false, [], []⟩,
    .packet 0 .globalRequest (ask 8081) ⟨none, false, [], []⟩]

end Putty.Share
