/-
  Putty.Ssh2.GlobalRequests — the queue of outstanding global requests of the SSH-2
  connection layer (`ssh2connection.c`, ssh2_queue_global_request_handler and the
  REQUEST_SUCCESS/REQUEST_FAILURE arm of ssh2_connection_filter_queue).

  Two sides work on it. Remote forwardings and connection-sharing downstreams queue a
  handler behind `globreq_tail`; the packet filter hands a reply to the handler at
  `globreq_head` and frees that entry. The new entry's `next` is never written (`snew`
  gives the memory as it is), and the tail is left pointing at the freed entry when the
  last one goes. The sharing code's own queue of the same shape resets its tail there
  (`sshshare.c`, share_got_pkt_from_server).

  Proved: as long as no reply takes the last entry, the k-th reply goes to the k-th
  handler, and a reply nobody waits for is a protocol error (`replies_match_fifo`). The
  run that takes the last entry and then queues again writes through the freed tail
  (`queueing_after_the_last_reply`).

  A handler and its context are one value `H`. What a handler queues while it runs comes
  with the reply event. After the protocol error the layer is torn down, and nothing
  reaches it any more.
-/

import Putty.Lib.Heap
import Putty.Lib.Run

namespace Putty.Ssh2.GlobalRequests

open Putty.Lib

structure OutstandingGlobalRequest (H : Type) where
  handler : H
  next : Ptr
  deriving DecidableEq, Repr

inductive Reply where
  | success
  | failure
  deriving DecidableEq, Repr

structure St (H : Type) where
  heap : Heap (OutstandingGlobalRequest H)
  globreqHead : Ptr
  globreqTail : Ptr
  /-- What was queued, what came in, and who was called with what, each in order. -/
  queued : List H
  received : List Reply
  called : List (H × Reply)
  protoError : Bool

def init {H : Type} : St H := ⟨Heap.empty, none, none, [], [], [], false⟩

variable {H : Type}

/-- `next` is what the new entry's memory happens to hold. -/
def queueGlobalRequestHandler (s : St H) (handler : H) (next : Ptr) : Option (St H) :=
  let ogr := s.heap.brk
  let heap := s.heap.alloc ⟨handler, next⟩
  let s := { s with queued := s.queued ++ [handler] }
  match s.globreqTail with
  | some tail => do
    let heap ← heap.modify tail fun e => { e with next := some ogr }
    some { s with heap, globreqTail := some ogr }
  | none => some { s with heap, globreqHead := some ogr, globreqTail := some ogr }

/-- The calls a handler makes while it runs. -/
def queueAll (s : St H) : List (H × Ptr) → Option (St H)
  | [] => some s
  | (handler, next) :: rest => do
    let s ← queueGlobalRequestHandler s handler next
    queueAll s rest

def filterReply (s : St H) (reply : Reply) (nested : List (H × Ptr)) : Option (St H) :=
  let s := { s with received := s.received ++ [reply] }
  match s.globreqHead with
  | none => some { s with protoError := true }
  | some head => do
    let ogr ← s.heap.cell head
    let s ← queueAll { s with called := s.called ++ [(ogr.handler, reply)] } nested
    let tmp ← s.globreqHead
    let ogr ← s.heap.cell tmp
    let heap ← s.heap.free tmp
    some { s with heap, globreqHead := ogr.next }

inductive Ev (H : Type) where
  | queue (handler : H) (next : Ptr)
  | reply (reply : Reply) (nested : List (H × Ptr))

def step (s : St H) : Ev H → Option (St H)
  | .queue handler next => if s.protoError then some s else queueGlobalRequestHandler s handler next
  | .reply reply nested => if s.protoError then some s else filterReply s reply nested

/-! ## What the queue is for -/

/-- The k-th reply went to the handler queued k-th, each once; a reply beyond the
    requests is the protocol error. -/
def Matched (s : St H) : Prop :=
  s.called = s.queued.zip s.received ∧ (s.protoError = true ↔ s.queued.length < s.received.length)

def outstanding (s : St H) : Nat := s.queued.length - s.received.length

/-- No reply takes the last entry: one that meets a single outstanding request has a
    handler that queues another. -/
def SafeEv (s : St H) : Ev H → Prop
  | .queue _ _ => True
  | .reply _ nested => outstanding s = 1 → nested ≠ []

instance (s : St H) (e : Ev H) : Decidable (SafeEv s e) :=
  match e with
  | .queue _ _ => isTrue trivial
  | .reply _ nested => inferInstanceAs (Decidable (outstanding s = 1 → nested ≠ []))

/-! ## The entries behind the head -/

/-- The entries `xs`, of which there is one at least: linked from the head to the tail,
    the last one's link undefined. -/
structure Linked (s : St H) (xs : List (Nat × OutstandingGlobalRequest H)) : Prop where
  seg : ∃ junk, Seg OutstandingGlobalRequest.next s.heap s.globreqHead xs junk
  nodup : (xs.map (·.1)).Nodup
  tail : ∃ as x, xs = as ++ [x] ∧ s.globreqTail = some x.1

/-- Nothing was ever queued, or the entries behind the head are the requests without a reply. -/
structure Inv (s : St H) : Prop where
  received : s.protoError = false → s.received = s.called.map (·.2)
  entries : s.protoError = false → (s.queued = [] ∧ s.called = [] ∧ s.globreqHead = none ∧ s.globreqTail = none) ∨
    ∃ xs, Linked s xs ∧ s.queued = s.called.map (·.1) ++ xs.map (·.2.handler)
  error : s.protoError = true → Matched s

theorem zip_called (called : List (H × Reply)) (rest : List H) :
    (called.map (·.1) ++ rest).zip (called.map (·.2)) = called := by
  induction called with
  | nil => simp
  | cons c cs ih => rw [List.map_cons, List.map_cons, List.cons_append, List.zip_cons_cons, ih]

theorem Inv.matched {s : St H} (hi : Inv s) : Matched s := by
  cases he : s.protoError with
  | true => exact hi.error he
  | false =>
    have hr := hi.received he
    rcases hi.entries he with ⟨hq, hc, -, -⟩ | ⟨xs, -, hq⟩
    · simp [Matched, hq, hr, hc, he]
    · refine ⟨by rw [hr, hq, zip_called], ?_⟩
      simp [he, hr, hq]

theorem Linked.outstanding {s : St H} {xs : List (Nat × OutstandingGlobalRequest H)}
    (hr : s.received = s.called.map (·.2)) (hq : s.queued = s.called.map (·.1) ++ xs.map (·.2.handler)) :
    outstanding s = xs.length := by
  simp [GlobalRequests.outstanding, hr, hq]

/-- Queueing behind the tail. -/
theorem queue_linked {s : St H} {xs : List (Nat × OutstandingGlobalRequest H)} (hl : Linked s xs) (handler : H)
    (next : Ptr) :
    ∃ heap xs', queueGlobalRequestHandler s handler next =
        some { s with heap, globreqTail := some s.heap.brk, queued := s.queued ++ [handler] } ∧
      Linked { s with heap, globreqTail := some s.heap.brk, queued := s.queued ++ [handler] } xs' ∧
      xs'.map (·.2.handler) = xs.map (·.2.handler) ++ [handler] ∧ xs'.map (·.1) = xs.map (·.1) ++ [s.heap.brk] ∧
      ∀ p v, heap.cell p = some v → p = s.heap.brk ∨ ∃ w, s.heap.cell p = some w := by
  obtain ⟨⟨junk, hseg⟩, hn, as, x, rfl, ht⟩ := hl
  have hx : s.heap.cell x.1 = some x.2 := hseg.live x (by simp)
  have hlive := Heap.lt_brk hx
  have hold : ∀ y ∈ as ++ [x], y.1 ≠ s.heap.brk := fun y hy => Nat.ne_of_lt (Heap.lt_brk (hseg.live y hy))
  have hne : ∀ y ∈ as, y.1 ≠ x.1 := fun y hy => by
    simp only [List.map_append, List.map_cons, List.map_nil, List.nodup_append] at hn
    exact hn.2.2 y.1 (List.mem_map_of_mem hy) x.1 (by simp)
  refine ⟨(s.heap.alloc ⟨handler, next⟩).put x.1 (some { x.2 with next := some s.heap.brk }),
    as ++ [(x.1, { x.2 with next := some s.heap.brk }), (s.heap.brk, ⟨handler, next⟩)], ?_, ⟨⟨next, ?_⟩, ?_, ?_⟩, ?_, ?_, fun p v hp => ?_⟩
  · simp [queueGlobalRequestHandler, ht, Heap.modify_live _ (Heap.alloc_live _ hx)]
  · refine hseg.relink (fun y hy => ?_) (Heap.put_same (by simp; omega) _) ⟨rfl, ?_, rfl⟩
    · rw [Heap.put_ne _ _ (hne y hy), Heap.alloc_ne _ _ (hold y (by simp [hy]))]
    · rw [Heap.put_ne _ _ (Nat.ne_of_gt hlive), Heap.alloc_same]
  · have hnew : ((as ++ [x]).map (·.1) ++ [s.heap.brk]).Nodup := by
      refine List.nodup_append.mpr ⟨hn, by simp, fun a ha b hb => ?_⟩
      obtain ⟨y, hy, rfl⟩ := List.mem_map.mp ha
      rw [List.mem_singleton.mp hb]
      exact hold y hy
    simpa using hnew
  · exact ⟨as ++ [(x.1, { x.2 with next := some s.heap.brk })], (s.heap.brk, ⟨handler, next⟩), by simp, rfl⟩
  · simp
  · simp
  · by_cases hb : p = s.heap.brk
    · exact Or.inl hb
    · by_cases hpx : p = x.1
      · exact Or.inr ⟨x.2, hpx ▸ hx⟩
      · rw [Heap.put_ne _ _ hpx, Heap.alloc_ne _ _ hb] at hp
        exact Or.inr ⟨v, hp⟩

/-- The head stays where it is while a handler queues more. -/
theorem queueAll_linked : ∀ {s : St H} {xs : List (Nat × OutstandingGlobalRequest H)} (nested : List (H × Ptr)),
    Linked s xs → ∃ s' xs', queueAll s nested = some s' ∧ Linked s' xs' ∧
      xs'.map (·.2.handler) = xs.map (·.2.handler) ++ nested.map (·.1) ∧ s'.queued = s.queued ++ nested.map (·.1) ∧
      s'.received = s.received ∧ s'.called = s.called ∧ s'.protoError = s.protoError
  | s, xs, [], hl => ⟨s, xs, rfl, hl, by simp⟩
  | s, xs, (handler, next) :: rest, hl => by
    obtain ⟨heap, xs1, hq, hl1, hm, -⟩ := queue_linked hl handler next
    obtain ⟨s', xs', hr, hl', hm', h1, h2, h3, h4⟩ := queueAll_linked rest hl1
    refine ⟨s', xs', by simp [queueAll, hq, hr], hl', ?_, ?_, h2, h3, h4⟩
    · rw [hm', hm]; simp
    · rw [h1]; simp

/-- Popping the head of two entries or more. -/
theorem Linked.pop {s : St H} {x y : Nat × OutstandingGlobalRequest H} {xs : List (Nat × OutstandingGlobalRequest H)}
    (hl : Linked s (x :: y :: xs)) :
    ∃ heap, s.globreqHead = some x.1 ∧ s.heap.cell x.1 = some x.2 ∧ s.heap.free x.1 = some heap ∧
      Linked { s with heap, globreqHead := x.2.next } (y :: xs) := by
  obtain ⟨⟨junk, hp, hx, hseg⟩, hn, as, z, he, ht⟩ := hl
  rw [List.map_cons, List.nodup_cons] at hn
  refine ⟨s.heap.put x.1 none, hp, hx, Heap.free_live hx, ⟨junk, hseg.frame fun w hw => ?_⟩, hn.2, ?_⟩
  · exact Heap.put_ne _ _ fun e => hn.1 (e ▸ List.mem_map_of_mem hw)
  · cases as with
    | nil => simp at he
    | cons a as =>
      simp only [List.cons_append, List.cons.injEq] at he
      exact ⟨as, z, he.2, ht⟩

/-! ## One step -/

theorem step_queue {s : St H} (hi : Inv s) (he : s.protoError = false) (handler : H) (next : Ptr) :
    ∃ s', queueGlobalRequestHandler s handler next = some s' ∧ Inv s' := by
  rcases hi.entries he with ⟨hq, hc, hh, ht⟩ | ⟨xs, hl, hq⟩
  · refine ⟨{ s with
      heap := s.heap.alloc ⟨handler, next⟩
      globreqHead := some s.heap.brk
      globreqTail := some s.heap.brk
      queued := s.queued ++ [handler] }, by simp [queueGlobalRequestHandler, ht], ?_⟩
    refine ⟨hi.received, fun _ => .inr ⟨[(s.heap.brk, ⟨handler, next⟩)], ⟨⟨next, rfl, ?_, rfl⟩, by simp, ?_⟩, ?_⟩, ?_⟩
    · exact Heap.alloc_same _ _
    · exact ⟨[], (s.heap.brk, ⟨handler, next⟩), rfl, rfl⟩
    · simp [hq, hc]
    · intro h; exact absurd (he.symm.trans h) (by simp)
  · obtain ⟨heap, xs', hs, hl', hm, -⟩ := queue_linked hl handler next
    refine ⟨_, hs, hi.received, fun _ => .inr ⟨xs', hl', ?_⟩, ?_⟩
    · show s.queued ++ [handler] = _
      rw [hm, hq]; simp
    · intro h; exact absurd (he.symm.trans h) (by simp)

theorem step_reply {s : St H} (hi : Inv s) (he : s.protoError = false) (reply : Reply) (nested : List (H × Ptr))
    (hok : outstanding s = 1 → nested ≠ []) : ∃ s', filterReply s reply nested = some s' ∧ Inv s' := by
  have hr := hi.received he
  rcases hi.entries he with ⟨hq, hc, hh, ht⟩ | ⟨xs, hl, hq⟩
  · -- nothing was ever queued: the protocol error
    refine ⟨{ s with received := s.received ++ [reply], protoError := true }, by simp [filterReply, hh], ?_, ?_, ?_⟩
    · intro h; cases h
    · intro h; cases h
    · intro _; simp [Matched, hq, hc, hr]
  · have hout := Linked.outstanding hr hq
    rcases xs with _ | ⟨x, xs⟩
    · obtain ⟨-, -, as, x, e, -⟩ := hl
      simp at e
    obtain ⟨⟨junk, hp, hx, -⟩, -⟩ := id hl
    have hl1 : Linked { s with received := s.received ++ [reply], called := s.called ++ [(x.2.handler, reply)] } (x :: xs) :=
      ⟨hl.seg, hl.nodup, hl.tail⟩
    obtain ⟨s1, xs1, hs1, hl2, hm, hq1, hr1, hc1, he1⟩ := queueAll_linked nested hl1
    -- two entries at least are behind the head once the handler has run
    obtain ⟨y, z, ys, rfl⟩ : ∃ y z ys, xs1 = y :: z :: ys := by
      have hlen := congrArg List.length hm
      have hne : xs.length = 0 → nested.length ≠ 0 := fun h0 hn =>
        hok (by rw [hout, List.length_cons, h0]) (List.length_eq_zero_iff.mp hn)
      simp only [List.length_map, List.length_append, List.length_cons] at hlen
      match xs1, hlen with
      | [], hlen => simp only [List.length_nil] at hlen; omega
      | [_], hlen => simp only [List.length_cons, List.length_nil] at hlen; omega
      | y :: z :: ys, _ => exact ⟨y, z, ys, rfl⟩
    obtain ⟨heap, hh, hy, hfree, hl3⟩ := hl2.pop
    refine ⟨{ s1 with heap, globreqHead := y.2.next }, ?_, ?_, fun _ => .inr ⟨_, hl3, ?_⟩, ?_⟩
    · rw [hp] at hs1
      simp only [filterReply, hp, hx, Option.bind_eq_bind, Option.bind_some, hs1, hh, hy, hfree]
    · intro _
      show s1.received = _
      simp [hr1, hc1, hr]
    · show s1.queued = s1.called.map (·.1) ++ _
      simp only [List.map_cons, List.cons_append, List.cons.injEq] at hm
      rw [hq1, hc1, List.map_cons, hm.2]
      simp [hq]
    · intro h
      exact absurd ((he.symm.trans he1.symm).trans h) (by simp)

/-! ## Runs -/

/-- As long as no reply takes the last outstanding request, the replies of every run are
    handed out first in, first out, and no freed entry is touched. -/
theorem replies_match_fifo (evs : List (Ev H)) (h : Along step SafeEv init evs) :
    Always step (fun _ s => Matched s) init evs := by
  refine (always_of_inv (I := fun _ s => Inv s) ?_ ?_ evs h).mono fun _ s hi => hi.matched
  · exact ⟨fun _ => rfl, fun _ => .inl ⟨rfl, rfl, rfl, rfl⟩, fun h => by cases h⟩
  · intro _ s e hi hok
    cases he : s.protoError with
    | true =>
      refine ⟨s, ?_, hi⟩
      cases e <;> simp [step, he]
    | false =>
      cases e with
      | queue handler next => simpa [step, he] using step_queue hi he handler next
      | reply reply nested => simpa [step, he] using step_reply hi he reply nested hok

/-- Three forwardings are requested, and the first two are answered. -/
theorem replies_match_three :
    Always step (fun _ s => Matched s) (init : St Nat)
      [.queue 1 none, .queue 2 (some 7), .queue 3 none, .reply .success [], .reply .failure []] :=
  replies_match_fifo _ (by decide)

/-- One request, its reply, and a second request: even with `next` read as NULL the new
    entry is linked behind the freed one. -/
theorem queueing_after_the_last_reply :
    ¬ ∀ evs : List (Ev Nat), Always step (fun _ s => Matched s) init evs := by
  intro h
  obtain ⟨s, hs, -⟩ := h [.queue 1 none, .reply .success [], .queue 2 none] _ (List.prefix_refl _)
  have : run step (init : St Nat) [.queue 1 none, .reply .success [], .queue 2 none] = none := rfl
  rw [hs] at this
  cases this

/-! ## Runs that may crash

  A run that has taken the last entry crashes when it queues again. Until then, and
  whatever the memory behind the freed tail holds, the entries that are left are the
  requests without a reply. -/

/-- The requests without a reply are `hs`. They are linked behind the head, and when there
    are none, nothing is allocated. -/
structure View (s : St H) (hs : List H) : Prop where
  queued : s.queued = s.called.map (·.1) ++ hs
  entries : (hs = [] ∧ (∀ p, s.heap.cell p = none) ∧ ∀ t, s.globreqTail = some t → t < s.heap.brk) ∨
    ∃ xs, Linked s xs ∧ hs = xs.map (·.2.handler) ∧ ∀ p v, s.heap.cell p = some v → p ∈ xs.map (·.1)

theorem init_view : View (init : St H) [] := ⟨rfl, .inl ⟨rfl, fun _ => rfl, fun _ h => nomatch h⟩⟩

theorem View.drop_called {s : St H} {hs : List H} (h : View s hs) : s.queued.drop s.called.length = hs := by
  rw [h.queued]
  exact List.drop_left' (by simp)

theorem View.queue {s s' : St H} {hs : List H} {handler : H} {next : Ptr} (h : View s hs)
    (hq : queueGlobalRequestHandler s handler next = some s') :
    View s' (hs ++ [handler]) ∧ s'.queued = s.queued ++ [handler] ∧ s'.called = s.called := by
  obtain ⟨rfl, hdead, ht⟩ | ⟨xs, hl, rfl, hlive⟩ := h.entries
  · have hqd := h.queued
    unfold queueGlobalRequestHandler at hq
    dsimp only at hq
    split at hq
    · next t het =>
      -- the tail is a freed entry
      have hne : t ≠ s.heap.brk := Nat.ne_of_lt (ht t het)
      simp [Heap.modify, Heap.alloc_ne _ _ hne, hdead] at hq
    · cases hq
      refine ⟨⟨by simp [hqd], .inr ⟨[(s.heap.brk, ⟨handler, next⟩)], ⟨⟨next, rfl, Heap.alloc_same _ _, rfl⟩, by simp,
        ⟨[], _, rfl, rfl⟩⟩, rfl, fun p v hp => ?_⟩⟩, rfl, rfl⟩
      by_contra hne
      rw [Heap.alloc_ne _ _ (by simpa using hne), hdead] at hp
      cases hp
  · obtain ⟨heap, xs', hq', hl', hm, ha, hlive'⟩ := queue_linked hl handler next
    rw [hq'] at hq
    cases hq
    refine ⟨⟨by simp [h.queued], .inr ⟨xs', hl', hm.symm, fun p v hp => ?_⟩⟩, rfl, rfl⟩
    rw [ha, List.mem_append, List.mem_singleton]
    obtain he | ⟨w, hw⟩ := hlive' p v hp
    · exact Or.inr he
    · exact Or.inl (hlive p w hw)

/-- A reply that does not crash goes to the first of them. -/
theorem View.reply {s s' : St H} {hs : List H} {head : Nat} {ogr : OutstandingGlobalRequest H} {reply : Reply}
    (h : View s hs) (hh : s.globreqHead = some head) (hc : s.heap.cell head = some ogr)
    (hf : filterReply s reply [] = some s') :
    ∃ hs', hs = ogr.handler :: hs' ∧ View s' hs' ∧ s'.queued = s.queued ∧ s'.called = s.called ++ [(ogr.handler, reply)] := by
  obtain ⟨rfl, hdead, -⟩ | ⟨xs, hl, rfl, hlive⟩ := h.entries
  · rw [hdead] at hc
    cases hc
  have hq := h.queued
  obtain ⟨⟨junk, hseg⟩, hn, as, z, he, ht⟩ := id hl
  cases xs with
  | nil => simp at he
  | cons x xs =>
    obtain ⟨hp, hx, hseg⟩ := hseg
    cases hh.symm.trans hp
    cases hc.symm.trans hx
    simp only [filterReply, hh, hc, queueAll, Option.bind_eq_bind, Option.bind_some, Heap.free_live hc,
      Option.some.injEq] at hf
    subst hf
    rw [List.map_cons, List.nodup_cons] at hn
    refine ⟨xs.map (·.2.handler), rfl, ⟨by simp [hq], ?_⟩, rfl, rfl⟩
    have hlive' : ∀ p v, (s.heap.put x.1 none).cell p = some v → p ∈ xs.map (·.1) := fun p v hp => by
      have hne : p ≠ x.1 := by
        rintro rfl
        rw [Heap.put_same (Heap.lt_brk hc)] at hp
        cases hp
      rw [Heap.put_ne _ _ hne] at hp
      have hm := hlive p v hp
      rw [List.map_cons, List.mem_cons] at hm
      exact hm.resolve_left hne
    cases xs with
    | nil =>
      refine .inl ⟨rfl, fun p => ?_, fun t he' => ?_⟩
      · cases hp : (s.heap.put x.1 none).cell p with
        | none => rfl
        | some v => exact absurd (hlive' p v hp) (by simp)
      · obtain ⟨-, hz⟩ := List.append_inj' (show [] ++ [x] = as ++ [z] from he) rfl
        cases hz
        cases ht.symm.trans he'
        rw [Heap.put_brk]
        exact Heap.lt_brk hc
    | cons y ys =>
      obtain ⟨heap, -, -, hfree, hl'⟩ := hl.pop
      rw [Heap.free_live hc] at hfree
      cases hfree
      exact .inr ⟨y :: ys, ⟨hl'.seg, hl'.nodup, hl'.tail⟩, rfl, hlive'⟩

end Putty.Ssh2.GlobalRequests
