/-
  Putty.Sshcommon.QueueRuns — packet queues refine lists.

  Every operation, run where it may be, returns, answers as the lists do and leaves in
  every queue what its list says.
-/

import Putty.Sshcommon.QueueContents

namespace Putty.Sshcommon

open Putty.Lib PacketQueueNode PacketQueues

variable {Q P : Type} [DecidableEq Q] [DecidableEq P]

/-! ## Concatenation -/

section Concatenate

variable {s : PacketQueues Q P} {c : Option Q → List P} {d q1 q2 : Q}

theorem orNull_behind (h : Option Q) (vs : List P) : orNull (some (head h)) (some (behind h vs)) = (vs.map qnode).head? := by
  cases vs with
  | nil => exact if_pos rfl
  | cons v vs => exact if_neg (by simp [behind])

theorem orNull_before (h : Option Q) (us : List P) : orNull (some (head h)) (some (before h us)) = (us.map qnode).getLast? := by
  cases us with
  | nil => exact if_pos rfl
  | cons u us =>
    have hb : before h (u :: us) = (us.map (qnode (Q := Q))).getLastD (qnode u) := by
      rw [before, List.map_cons, List.getLastD_cons]
    rw [List.map_cons, getLast?_cons_getLastD, hb]
    apply if_neg
    intro he
    have hm := getLastD_mem_cons (qnode u) (us.map (qnode (Q := Q)))
    rw [Option.some.inj he] at hm
    simp at hm

def emptied (l : Links (PacketQueueNode Q P)) (q1 q2 : Q) : Links (PacketQueueNode Q P) :=
  (((l.setPrev (head (some q1)) (some (head (some q1)))).setNext (head (some q1)) (some (head (some q1)))).setPrev
    (head (some q2)) (some (head (some q2)))).setNext (head (some q2)) (some (head (some q2)))

theorem emptied_next (l : Links (PacketQueueNode Q P)) (q1 q2 : Q) (a : PacketQueueNode Q P) : (emptied l q1 q2).next a =
    if a = head (some q1) ∨ a = head (some q2) then some a else l.next a := by
  unfold emptied
  rw [Links.setNext_next, Links.setPrev_next, Links.setNext_next, Links.setPrev_next]
  split_ifs <;> simp_all

theorem emptied_prev (l : Links (PacketQueueNode Q P)) (q1 q2 : Q) (a : PacketQueueNode Q P) : (emptied l q1 q2).prev a =
    if a = head (some q1) ∨ a = head (some q2) then some a else l.prev a := by
  unfold emptied
  rw [Links.setNext_prev, Links.setPrev_prev, Links.setNext_prev, Links.setPrev_prev]
  split_ifs <;> simp_all

/-- The two steps that link the last node of one queue and the first of the other. -/
def bridged (l : Links (PacketQueueNode Q P)) (tail1 head2 : Option P) : Links (PacketQueueNode Q P) :=
  let l := match tail1 with
    | some t => l.setNext (qnode t) (head2.map qnode)
    | none => l
  match head2 with
  | some y => l.setPrev (qnode y) (tail1.map qnode)
  | none => l

def hung (l : Links (PacketQueueNode Q P)) (d x u : PacketQueueNode Q P) : Links (PacketQueueNode Q P) :=
  (((l.setNext d (some x)).setPrev d (some u)).setPrev x (some d)).setNext u (some d)

/-- Everything the concatenation does to the links. -/
def concatenated (l : Links (PacketQueueNode Q P)) (d q1 q2 : Q) (head1 tail1 head2 tail2 : Option P) :
    Links (PacketQueueNode Q P) :=
  match head1.or head2, tail2.or tail1 with
  | some x, some u => hung (bridged (emptied l q1 q2) tail1 head2) (head (some d)) (qnode x) (qnode u)
  | _, _ => emptied l q1 q2

theorem hung_next (l : Links (PacketQueueNode Q P)) (d x u a : PacketQueueNode Q P) :
    (hung l d x u).next a = if a = u then some d else if a = d then some x else l.next a := by
  simp only [hung, Links.setNext_next, Links.setPrev_next]

theorem hung_prev (l : Links (PacketQueueNode Q P)) (d x u a : PacketQueueNode Q P) :
    (hung l d x u).prev a = if a = x then some d else if a = d then some u else l.prev a := by
  simp only [hung, Links.setNext_prev, Links.setPrev_prev]

/-- The end of the concatenation: the destination, empty, gets the first node and the last. -/
def hangEnds (s : PacketQueues Q P) (dest head1 tail2 : Option (PacketQueueNode Q P)) : Option (PacketQueues Q P) := do
  if (← s.next dest) = dest ∧ (← s.prev dest) = dest then
    if head1 = none then
      if tail2 = none then some s else none
    else if tail2 = none then none
    else do
      let s ← s.setNext dest head1
      let s ← s.setPrev dest tail2
      let s ← s.setPrev head1 dest
      s.setNext tail2 dest
  else none

/-- The concatenation once both queues are empty, with the ends that they had. -/
def joinEnds (s : PacketQueues Q P) (dest head1 tail1 head2 tail2 : Option (PacketQueueNode Q P)) : Option (PacketQueues Q P) := do
  let s ← if tail1.isSome then s.setNext tail1 head2 else some s
  let head1 := if tail1.isSome then head1 else head2
  let s ← if head2.isSome then s.setPrev head2 tail1 else some s
  let tail2 := if head2.isSome then tail2 else tail1
  hangEnds s dest head1 tail2

theorem concatenate_eq (s : PacketQueues Q P) (d q1 q2 : Q) : s.pqBaseConcatenate d q1 q2 =
    joinEnds { s with links := emptied s.links q1 q2 } (some (head (some d)))
      (orNull (some (head (some q1))) (s.links.next (head (some q1)))) (orNull (some (head (some q1))) (s.links.prev (head (some q1))))
      (orNull (some (head (some q2))) (s.links.next (head (some q2)))) (orNull (some (head (some q2))) (s.links.prev (head (some q2)))) :=
  rfl

theorem joinEnds_eq {dest head1 tail2 : Option (PacketQueueNode Q P)} {tail1 head2 : Option P}
    (ht : ∀ z ∈ tail1, s.alive (qnode z) = true) (hy : ∀ z ∈ head2, s.alive (qnode z) = true) :
    joinEnds s dest head1 (tail1.map qnode) (head2.map qnode) tail2 =
      hangEnds { s with links := bridged s.links tail1 head2 } dest (if tail1.isSome then head1 else head2.map qnode)
        (if head2.isSome then tail2 else tail1.map qnode) := by
  cases tail1 with
  | none =>
    cases head2 with
    | none => rfl
    | some y => exact congrArg (Option.bind · _) (setPrev_some (hy y rfl) _)
  | some t =>
    refine (congrArg (Option.bind · _) (setNext_some (ht t rfl) _)).trans ?_
    cases head2 with
    | none => rfl
    | some y => exact congrArg (Option.bind · _) (setPrev_some ((alive_links _).trans (hy y rfl)) _)

theorem hangEnds_eq {x u : P} (hd : s.links.Adj (head (some d)) (head (some d))) (hx : s.alive (qnode x) = true)
    (hu : s.alive (qnode u) = true) : hangEnds s (some (head (some d))) (some (qnode x)) (some (qnode u)) =
      some { s with links := hung s.links (head (some d)) (qnode x) (qnode u) } := by
  have hah : s.alive (head (some d)) = true := rfl
  unfold hangEnds
  simp only [setNext_some, setPrev_some, next_some, prev_some, alive_links, hah, hx, hu, Option.bind_eq_bind, Option.bind_some, hung]
  exact if_pos hd

/-- Only packets are linked here: the ends of the queues stay as they were. -/
theorem bridged_head (l : Links (PacketQueueNode Q P)) (tail1 head2 : Option P) (h : Option Q) :
    (bridged l tail1 head2).next (head h) = l.next (head h) ∧ (bridged l tail1 head2).prev (head h) = l.prev (head h) := by
  cases tail1 <;> cases head2 <;> simp [bridged, Links.setNext_next, Links.setPrev_prev]

theorem concatenate_joined {head1 tail1 head2 tail2 : Option P} (hs1 : head1.isSome = tail1.isSome)
    (hs2 : head2.isSome = tail2.isSome)
    (hal : ∀ z, z ∈ head1 ∨ z ∈ tail1 ∨ z ∈ head2 ∨ z ∈ tail2 → s.freed z = false)
    (h1 : orNull (some (head (some q1))) (s.links.next (head (some q1))) = head1.map qnode)
    (h2 : orNull (some (head (some q1))) (s.links.prev (head (some q1))) = tail1.map qnode)
    (h3 : orNull (some (head (some q2))) (s.links.next (head (some q2))) = head2.map qnode)
    (h4 : orNull (some (head (some q2))) (s.links.prev (head (some q2))) = tail2.map qnode)
    (hd : (emptied s.links q1 q2).next (head (some d)) = some (head (some d)) ∧
      (emptied s.links q1 q2).prev (head (some d)) = some (head (some d))) :
    s.pqBaseConcatenate d q1 q2 = some { s with links := concatenated s.links d q1 q2 head1 tail1 head2 tail2 } := by
  have haq : ∀ l z, s.freed z = false → ({ s with links := l } : PacketQueues Q P).alive (qnode z) = true := fun l z hz => by
    rw [PacketQueues.alive, hz, Bool.not_false]
  have hfront : (if tail1.isSome then head1.map (qnode (Q := Q)) else head2.map qnode) = (head1.or head2).map qnode := by
    rw [← hs1]
    cases head1 <;> simp
  have hback : (if head2.isSome then tail2.map (qnode (Q := Q)) else tail1.map qnode) = (tail2.or tail1).map qnode := by
    rw [hs2]
    cases tail2 <;> simp
  have hsame : (head1.or head2).isSome = (tail2.or tail1).isSome := by
    rw [Option.isSome_or, Option.isSome_or, hs1, hs2, Bool.or_comm]
  obtain ⟨hn, hp⟩ := bridged_head (emptied s.links q1 q2) tail1 head2 (some d)
  have hdest : (bridged (emptied s.links q1 q2) tail1 head2).Adj (head (some d)) (head (some d)) := ⟨hn.trans hd.1, hp.trans hd.2⟩
  rw [concatenate_eq, h1, h2, h3, h4, joinEnds_eq (fun z hz => haq _ z (hal z (.inr (.inl hz))))
    (fun z hz => haq _ z (hal z (.inr (.inr (.inl hz))))), hfront, hback, concatenated]
  cases hx : head1.or head2 with
  | none =>
    cases hu : tail2.or tail1 with
    | none =>
      rw [(Option.or_eq_none_iff.mp hx).2, (Option.or_eq_none_iff.mp hu).2] at hdest ⊢
      exact if_pos hdest
    | some u =>
      rw [hx, hu] at hsame
      cases hsame
  | some x =>
    cases hu : tail2.or tail1 with
    | none =>
      rw [hx, hu] at hsame
      cases hsame
    | some u =>
      have ex : s.freed x = false := by
        rcases Option.or_eq_some_iff.mp hx with h | ⟨-, h⟩
        · exact hal x (.inl h)
        · exact hal x (.inr (.inr (.inl h)))
      have eu : s.freed u = false := by
        rcases Option.or_eq_some_iff.mp hu with h | ⟨-, h⟩
        · exact hal u (.inr (.inr (.inr h)))
        · exact hal u (.inr (.inl h))
      exact hangEnds_eq hdest (haq _ x ex) (haq _ u eu)

theorem concatenated_next {l : Links (PacketQueueNode Q P)} {xs ys : List P} {u x : P} (hx : (xs ++ ys).head? = some x)
    (hu : (xs ++ ys).getLast? = some u) (a : PacketQueueNode Q P) :
    (concatenated l d q1 q2 xs.head? xs.getLast? ys.head? ys.getLast?).next a =
      if a = qnode u then some (head (some d)) else if a = head (some d) then some (qnode x)
      else if a ∈ (xs.getLast?.map qnode) then ys.head?.map qnode else (emptied l q1 q2).next a := by
  have h1 : xs.head?.or ys.head? = some x := by rw [← hx, List.head?_append]
  have h2 : ys.getLast?.or xs.getLast? = some u := by rw [← hu, List.getLast?_append]
  have hb : (bridged (emptied l q1 q2) xs.getLast? ys.head?).next a =
      if a ∈ (xs.getLast?.map qnode) then ys.head?.map qnode else (emptied l q1 q2).next a := by
    cases xs.getLast? <;> cases ys.head? <;> simp [bridged, Links.setNext_next, eq_comm]
  rw [concatenated, h1, h2, hung_next, hb]

theorem concatenated_prev {l : Links (PacketQueueNode Q P)} {xs ys : List P} {u x : P} (hx : (xs ++ ys).head? = some x)
    (hu : (xs ++ ys).getLast? = some u) (a : PacketQueueNode Q P) :
    (concatenated l d q1 q2 xs.head? xs.getLast? ys.head? ys.getLast?).prev a =
      if a = qnode x then some (head (some d)) else if a = head (some d) then some (qnode u)
      else if a ∈ (ys.head?.map qnode) then xs.getLast?.map qnode else (emptied l q1 q2).prev a := by
  have h1 : xs.head?.or ys.head? = some x := by rw [← hx, List.head?_append]
  have h2 : ys.getLast?.or xs.getLast? = some u := by rw [← hu, List.getLast?_append]
  have hb : (bridged (emptied l q1 q2) xs.getLast? ys.head?).prev a =
      if a ∈ (ys.head?.map qnode) then xs.getLast?.map qnode else (emptied l q1 q2).prev a := by
    cases xs.getLast? <;> cases ys.head? <;> simp [bridged, Links.setPrev_prev, eq_comm]
  rw [concatenated, h1, h2, hung_prev, hb]

section

variable {l l' : Links (PacketQueueNode Q P)} {busy : P → Prop} {zs : List P}

omit [DecidableEq P]

/-- What the queues contain afterwards. -/
def gathered (c : Option Q → List P) (d q1 q2 : Q) (zs : List P) : Option Q → List P :=
  Function.update (Function.update (Function.update c (some q1) []) (some q2) []) (some d) zs

theorem gathered_cases (c : Option Q → List P) (d q1 q2 : Q) (zs : List P) (h : Option Q) :
    h = some d ∧ gathered c d q1 q2 zs h = zs ∨
      h ≠ some d ∧ (h = some q1 ∨ h = some q2) ∧ gathered c d q1 q2 zs h = [] ∨
      h ≠ some d ∧ h ≠ some q1 ∧ h ≠ some q2 ∧ gathered c d q1 q2 zs h = c h := by
  unfold gathered
  by_cases hd : h = some d
  · subst hd
    exact .inl ⟨rfl, Function.update_self ..⟩
  · rw [Function.update_of_ne hd]
    by_cases h2 : h = some q2
    · subst h2
      exact .inr (.inl ⟨hd, .inr rfl, Function.update_self ..⟩)
    · rw [Function.update_of_ne h2]
      by_cases h1 : h = some q1
      · subst h1
        exact .inr (.inl ⟨hd, .inl rfl, Function.update_self ..⟩)
      · rw [Function.update_of_ne h1]
        exact .inr (.inr ⟨hd, h1, h2, rfl⟩)

theorem Shape.gather (hs : Shape l c busy) (ha : Apart c)
    (hzs : ∀ z, z ∈ zs ↔ z ∈ c (some q1) ∨ z ∈ c (some q2)) (hd : c (some d) = [] ∨ d = q1 ∨ d = q2)
    (hring : Ring l' (head (some d)) (zs.map qnode))
    (hself : ∀ q, q = q1 ∨ q = q2 → q ≠ d → l'.Adj (head (some q)) (head (some q)))
    (hn : ∀ a, a ≠ head (some d) → a ≠ head (some q1) → a ≠ head (some q2) → (∀ z ∈ zs, a ≠ qnode z) → l'.next a = l.next a)
    (hp : ∀ a, a ≠ head (some d) → a ≠ head (some q1) → a ≠ head (some q2) → (∀ z ∈ zs, a ≠ qnode z) → l'.prev a = l.prev a) :
    Shape l' (gathered c d q1 q2 zs) busy := by
  constructor
  · intro h
    rcases gathered_cases c d q1 q2 zs h with ⟨rfl, he⟩ | ⟨hne, hq, he⟩ | ⟨h0, h1, h2, he⟩ <;> rw [he]
    · exact hring
    · rw [List.map_nil, ring_nil]
      rcases hq with rfl | rfl
      · exact hself q1 (.inl rfl) fun hqd => hne (congrArg some hqd)
      · exact hself q2 (.inr rfl) fun hqd => hne (congrArg some hqd)
    · have key : ∀ a ∈ head h :: (c h).map qnode, a ≠ head (some d) ∧ a ≠ head (some q1) ∧ a ≠ head (some q2) ∧
          ∀ z ∈ zs, a ≠ qnode z := by
        intro a hm
        rcases List.mem_cons.mp hm with rfl | hm
        · refine ⟨?_, ?_, ?_, fun z _ => by simp⟩ <;> intro he' <;> injection he' with he' <;> contradiction
        · obtain ⟨y, hy, rfl⟩ := List.mem_map.mp hm
          refine ⟨by simp, by simp, by simp, fun z hz he' => ?_⟩
          injection he' with he'
          subst he'
          rcases (hzs y).mp hz with hz | hz
          · exact h1 (ha.home _ _ y hy hz)
          · exact h2 (ha.home _ _ y hy hz)
      refine (hs.ring h).frame (fun a hm => ?_) (fun a hm => ?_)
      · obtain ⟨k1, k2, k3, k4⟩ := key a hm
        exact hn a k1 k2 k3 k4
      · obtain ⟨k1, k2, k3, k4⟩ := key a hm
        exact hp a k1 k2 k3 k4
  · intro y hb hy
    have hyz : y ∉ zs := by
      have := hy (some d)
      unfold gathered at this
      rwa [Function.update_self] at this
    have hy' : ∀ h, y ∉ c h := by
      intro h hm
      have hyh := hy h
      rcases gathered_cases c d q1 q2 zs h with ⟨rfl, he⟩ | ⟨-, hq, -⟩ | ⟨-, -, -, he⟩
      · rcases hd with hd | rfl | rfl
        · rw [hd] at hm
          cases hm
        · exact hyz ((hzs y).mpr (.inl hm))
        · exact hyz ((hzs y).mpr (.inr hm))
      · rcases hq with rfl | rfl
        · exact hyz ((hzs y).mpr (.inl hm))
        · exact hyz ((hzs y).mpr (.inr hm))
      · rw [he] at hyh
        exact hyh hm
    have hout : ∀ z ∈ zs, (qnode y : PacketQueueNode Q P) ≠ qnode z := by
      rintro z hz he
      injection he with he
      exact hyz (he ▸ hz)
    rw [hn _ (by simp) (by simp) (by simp) hout, hp _ (by simp) (by simp) (by simp) hout]
    exact hs.loose y hb hy'

theorem Apart.gather (ha : Apart c) (hzs : ∀ z, z ∈ zs ↔ z ∈ c (some q1) ∨ z ∈ c (some q2)) (hnd : zs.Nodup) :
    Apart (gathered c d q1 q2 zs) := by
  have key : ∀ h y, y ∈ gathered c d q1 q2 zs h → h = some d ∧ (y ∈ c (some q1) ∨ y ∈ c (some q2)) ∨
      y ∈ c h ∧ h ≠ some q1 ∧ h ≠ some q2 := by
    intro h y hy
    rcases gathered_cases c d q1 q2 zs h with ⟨rfl, he⟩ | ⟨-, -, he⟩ | ⟨-, h1, h2, he⟩ <;> rw [he] at hy
    · exact .inl ⟨rfl, (hzs y).mp hy⟩
    · cases hy
    · exact .inr ⟨hy, h1, h2⟩
  constructor
  · intro h
    rcases gathered_cases c d q1 q2 zs h with ⟨rfl, he⟩ | ⟨-, -, he⟩ | ⟨-, -, -, he⟩ <;> rw [he]
    · exact hnd
    · exact List.nodup_nil
    · exact ha.nodup h
  · intro h h' y hy hy'
    rcases key h y hy with ⟨rfl, hm⟩ | ⟨hm, k1, k2⟩ <;> rcases key h' y hy' with ⟨rfl, hm'⟩ | ⟨hm', k1', k2'⟩
    · rfl
    · rcases hm with hm | hm
      · exact absurd (ha.home _ _ y hm' hm) k1'
      · exact absurd (ha.home _ _ y hm' hm) k2'
    · rcases hm' with hm' | hm'
      · exact absurd (ha.home _ _ y hm hm') k1
      · exact absurd (ha.home _ _ y hm hm') k2
    · exact ha.home _ _ y hm hm'

end

section

variable {l : Links (PacketQueueNode Q P)} {xs ys : List P}

theorem concatenated_nil (h : xs ++ ys = []) :
    concatenated l d q1 q2 xs.head? xs.getLast? ys.head? ys.getLast? = emptied l q1 q2 := by
  obtain ⟨rfl, rfl⟩ := List.append_eq_nil_iff.mp h
  rfl

omit [DecidableEq P] in
theorem ends_of_ne_nil (h : xs ++ ys ≠ []) : ∃ x u, (xs ++ ys).head? = some x ∧ (xs ++ ys).getLast? = some u := by
  cases hzs : xs ++ ys with
  | nil => exact absurd hzs h
  | cons z zs => exact ⟨z, zs.getLastD z, rfl, getLast?_cons_getLastD z zs⟩

theorem concatenated_frame {a : PacketQueueNode Q P} (h0 : a ≠ head (some d)) (h1 : a ≠ head (some q1))
    (h2 : a ≠ head (some q2)) (hz : ∀ z ∈ xs ++ ys, a ≠ qnode z) :
    (concatenated l d q1 q2 xs.head? xs.getLast? ys.head? ys.getLast?).next a = l.next a ∧
      (concatenated l d q1 q2 xs.head? xs.getLast? ys.head? ys.getLast?).prev a = l.prev a := by
  by_cases hne : xs ++ ys = []
  · rw [concatenated_nil hne, emptied_next, emptied_prev, if_neg (by tauto), if_neg (by tauto)]
    exact ⟨rfl, rfl⟩
  · obtain ⟨x, u, hx, hu⟩ := ends_of_ne_nil hne
    have hxz := hz x (List.mem_of_mem_head? hx)
    have huz := hz u (List.mem_of_getLast? hu)
    have ht : a ∉ xs.getLast?.map (qnode (Q := Q)) := by
      rintro hm
      obtain ⟨t, ht, rfl⟩ := Option.map_eq_some_iff.mp hm
      exact hz t (List.mem_append_left ys (List.mem_of_getLast? ht)) rfl
    have hy : a ∉ ys.head?.map (qnode (Q := Q)) := by
      rintro hm
      obtain ⟨y, hy, rfl⟩ := Option.map_eq_some_iff.mp hm
      exact hz y (List.mem_append_right xs (List.mem_of_mem_head? hy)) rfl
    rw [concatenated_next hx hu, concatenated_prev hx hu, if_neg huz, if_neg hxz, if_neg h0, if_neg h0, if_neg ht, if_neg hy,
      emptied_next, emptied_prev, if_neg (by tauto), if_neg (by tauto)]
    exact ⟨rfl, rfl⟩

theorem concatenated_self {q : Q} (hq : q = q1 ∨ q = q2) (hd : q ≠ d) :
    (concatenated l d q1 q2 xs.head? xs.getLast? ys.head? ys.getLast?).Adj (head (some q)) (head (some q)) := by
  have hqq : (head (some q) : PacketQueueNode Q P) = head (some q1) ∨ (head (some q) : PacketQueueNode Q P) = head (some q2) :=
    hq.imp (congrArg fun q => head (some q)) (congrArg fun q => head (some q))
  unfold Links.Adj
  by_cases hne : xs ++ ys = []
  · rw [concatenated_nil hne, emptied_next, emptied_prev, if_pos hqq, if_pos hqq]
    exact ⟨rfl, rfl⟩
  · obtain ⟨x, u, hx, hu⟩ := ends_of_ne_nil hne
    have h0 : (head (some q) : PacketQueueNode Q P) ≠ head (some d) := by simpa using hd
    have hxs : head (some q) ∉ xs.getLast?.map (qnode (Q := Q)) := by simp
    have hys : head (some q) ∉ ys.head?.map (qnode (Q := Q)) := by simp
    rw [concatenated_next hx hu, concatenated_prev hx hu, if_neg nofun, if_neg h0, if_neg hxs, if_neg nofun, if_neg h0,
      if_neg hys, emptied_next, emptied_prev, if_pos hqq, if_pos hqq]
    exact ⟨rfl, rfl⟩

/-- The nodes of both queues, hung on the destination. -/
theorem concatenated_ring (h1 : Ring l (head (some q1)) (xs.map qnode)) (h2 : Ring l (head (some q2)) (ys.map qnode))
    (hd : (xs ++ ys).Nodup) (hne : xs ++ ys ≠ []) :
    Ring (concatenated l d q1 q2 xs.head? xs.getLast? ys.head? ys.getLast?) (head (some d)) ((xs ++ ys).map qnode) := by
  obtain ⟨x, u, hx, hu⟩ := ends_of_ne_nil hne
  obtain ⟨hd1, hd2, hd3⟩ := List.nodup_append.mp hd
  have hinj : Function.Injective (qnode : P → PacketQueueNode Q P) := fun _ _ he => by injection he
  have hN : ∀ z, z ∉ xs.getLast? → z ∉ ys.getLast? →
      (concatenated l d q1 q2 xs.head? xs.getLast? ys.head? ys.getLast?).next (qnode z) = l.next (qnode z) := by
    intro z k1 k2
    have hzu : (qnode z : PacketQueueNode Q P) ≠ qnode u := by
      rintro he
      obtain rfl := hinj he
      rw [List.getLast?_append] at hu
      rcases Option.or_eq_some_iff.mp hu with hu | ⟨-, hu⟩
      · exact k2 hu
      · exact k1 hu
    have hzx : (qnode z : PacketQueueNode Q P) ∉ xs.getLast?.map qnode := by
      intro hm
      obtain ⟨t, ht, he⟩ := Option.map_eq_some_iff.mp hm
      exact k1 (hinj he ▸ ht)
    rw [concatenated_next hx hu, if_neg hzu, if_neg nofun, if_neg hzx, emptied_next, if_neg (by simp)]
  have hP : ∀ z, z ∉ xs.head? → z ∉ ys.head? →
      (concatenated l d q1 q2 xs.head? xs.getLast? ys.head? ys.getLast?).prev (qnode z) = l.prev (qnode z) := by
    intro z k1 k2
    have hzx : (qnode z : PacketQueueNode Q P) ≠ qnode x := by
      rintro he
      obtain rfl := hinj he
      rw [List.head?_append] at hx
      rcases Option.or_eq_some_iff.mp hx with hx | ⟨-, hx⟩
      · exact k1 hx
      · exact k2 hx
    have hzy : (qnode z : PacketQueueNode Q P) ∉ ys.head?.map qnode := by
      intro hm
      obtain ⟨t, ht, he⟩ := Option.map_eq_some_iff.mp hm
      exact k2 (hinj he ▸ ht)
    rw [concatenated_prev hx hu, if_neg hzx, if_neg nofun, if_neg hzy, emptied_prev, if_neg (by simp)]
  have hfirst : (xs.map qnode ++ ys.map qnode).headD (head (some d)) = qnode x := by
    rw [← List.map_append, List.headD_eq_head?_getD, List.head?_map, hx]
    rfl
  have hlast : (xs.map qnode ++ ys.map qnode).getLastD (head (some d)) = qnode u := by
    rw [← List.map_append, List.getLastD_eq_getLast?, List.getLast?_map, hu]
    rfl
  rw [List.map_append]
  apply Ring.join h1.chain h2.chain (hd1.map hinj) (hd2.map hinj) (by simpa using hne)
  · rintro a ha hal
    obtain ⟨z, hz, rfl⟩ := List.mem_map.mp ha
    rw [List.getLast?_map] at hal
    exact hN z (fun hm => hal (Option.mem_map_of_mem _ hm)) fun hm => hd3 z hz z (List.mem_of_getLast? hm) rfl
  · rintro a ha hal
    obtain ⟨z, hz, rfl⟩ := List.mem_map.mp ha
    rw [List.head?_map] at hal
    exact hP z (fun hm => hal (Option.mem_map_of_mem _ hm)) fun hm => hd3 z hz z (List.mem_of_mem_head? hm) rfl
  · rintro a ha hal
    obtain ⟨z, hz, rfl⟩ := List.mem_map.mp ha
    rw [List.getLast?_map] at hal
    exact hN z (fun hm => hd3 z (List.mem_of_getLast? hm) z hz rfl) fun hm => hal (Option.mem_map_of_mem _ hm)
  · rintro a ha hal
    obtain ⟨z, hz, rfl⟩ := List.mem_map.mp ha
    rw [List.head?_map] at hal
    exact hP z (fun hm => hd3 z (List.mem_of_mem_head? hm) z hz rfl) fun hm => hal (Option.mem_map_of_mem _ hm)
  · rintro a ha b hb
    rw [List.getLast?_map] at ha
    rw [List.head?_map] at hb
    obtain ⟨t, ht, rfl⟩ := Option.map_eq_some_iff.mp ha
    obtain ⟨y, hy, rfl⟩ := Option.map_eq_some_iff.mp hb
    have hu' : ys.getLast? = some u := by
      rw [List.getLast?_append] at hu
      cases hys : ys.getLast? with
      | none => simp [List.getLast?_eq_none_iff.mp hys] at hy
      | some v => simpa [hys] using hu
    have hx' : xs.head? = some x := by
      rw [List.head?_append] at hx
      cases hxs : xs.head? with
      | none => simp [List.head?_eq_none_iff.mp hxs] at ht
      | some v => simpa [hxs] using hx
    have htu : (qnode t : PacketQueueNode Q P) ≠ qnode u := fun he =>
      hd3 t (List.mem_of_getLast? ht) u (List.mem_of_getLast? hu') (hinj he)
    have hyx : (qnode y : PacketQueueNode Q P) ≠ qnode x := fun he =>
      hd3 x (List.mem_of_mem_head? hx') y (List.mem_of_mem_head? hy) (hinj he).symm
    unfold Links.Adj
    rw [concatenated_next hx hu, concatenated_prev hx hu, if_neg htu, if_neg nofun, if_pos (Option.mem_map_of_mem _ ht),
      if_neg hyx, if_neg nofun, if_pos (Option.mem_map_of_mem _ hy), ht, hy]
    exact ⟨rfl, rfl⟩
  · rw [hfirst]
    unfold Links.Adj
    rw [concatenated_next hx hu, concatenated_prev hx hu, if_neg nofun, if_pos rfl, if_pos rfl]
    exact ⟨rfl, rfl⟩
  · rw [hlast]
    unfold Links.Adj
    rw [concatenated_next hx hu, concatenated_prev hx hu, if_pos rfl, if_neg nofun, if_pos rfl]
    exact ⟨rfl, rfl⟩

/-- A queue given twice is still there once. -/
theorem concatenated_twice (h : Ring l (head (some q1)) (xs.map qnode)) (hd : xs.Nodup) (hne : xs ≠ []) :
    Ring (concatenated l d q1 q1 xs.head? xs.getLast? xs.head? xs.getLast?) (head (some d)) (xs.map qnode) := by
  have hinj : Function.Injective (qnode : P → PacketQueueNode Q P) := fun _ _ he => by injection he
  obtain ⟨x, u, hx, hu⟩ := ends_of_ne_nil (by simpa using hne : xs ++ xs ≠ [])
  have hx' : xs.head? = some x := by
    rw [List.head?_append] at hx
    simpa using hx
  have hu' : xs.getLast? = some u := by
    rw [List.getLast?_append] at hu
    simpa using hu
  have hfirst : (xs.map qnode ++ []).headD (head (some d)) = qnode x := by
    rw [List.append_nil, List.headD_eq_head?_getD, List.head?_map, hx']
    rfl
  have hlast : (xs.map qnode ++ []).getLastD (head (some d)) = qnode u := by
    rw [List.append_nil, List.getLastD_eq_getLast?, List.getLast?_map, hu']
    rfl
  rw [← List.append_nil (xs.map qnode)]
  apply Ring.join h.chain .nil (hd.map hinj) List.nodup_nil (by simpa using hne)
  · rintro a ha hal
    obtain ⟨z, hz, rfl⟩ := List.mem_map.mp ha
    rw [List.getLast?_map, hu'] at hal
    have hzu : (qnode z : PacketQueueNode Q P) ≠ qnode u := fun he => hal (by rw [he]; rfl)
    rw [concatenated_next hx hu, if_neg hzu, if_neg nofun, hu', if_neg hal, emptied_next, if_neg (by simp)]
  · rintro a ha hal
    obtain ⟨z, hz, rfl⟩ := List.mem_map.mp ha
    rw [List.head?_map, hx'] at hal
    have hzx : (qnode z : PacketQueueNode Q P) ≠ qnode x := fun he => hal (by rw [he]; rfl)
    rw [concatenated_prev hx hu, if_neg hzx, if_neg nofun, hx', if_neg hal, emptied_prev, if_neg (by simp)]
  · exact fun a ha => absurd ha (by simp)
  · exact fun a ha => absurd ha (by simp)
  · exact fun a _ b hb => absurd hb (by simp)
  · rw [hfirst]
    unfold Links.Adj
    rw [concatenated_next hx hu, concatenated_prev hx hu, if_neg nofun, if_pos rfl, if_pos rfl]
    exact ⟨rfl, rfl⟩
  · rw [hlast]
    unfold Links.Adj
    rw [concatenated_next hx hu, concatenated_prev hx hu, if_pos rfl, if_neg nofun, if_pos rfl]
    exact ⟨rfl, rfl⟩

end

/-- The contents of `q1` and `q2`, one behind the other. -/
def inOrder (c : Option Q → List P) (q1 q2 : Q) : List P :=
  if q1 = q2 then c (some q1) else c (some q1) ++ c (some q2)

omit [DecidableEq Q] [DecidableEq P] in
theorem isSome_ends (xs : List P) : xs.head?.isSome = xs.getLast?.isSome := by
  cases xs <;> simp

omit [DecidableEq P] in
theorem mem_inOrder (c : Option Q → List P) (q1 q2 : Q) (z : P) :
    z ∈ inOrder c q1 q2 ↔ z ∈ c (some q1) ∨ z ∈ c (some q2) := by
  unfold inOrder
  split_ifs with h
  · simp [h]
  · exact List.mem_append

omit [DecidableEq P] in
theorem inOrder_nodup (ha : Apart c) (q1 q2 : Q) : (inOrder c q1 q2).Nodup := by
  unfold inOrder
  split_ifs with h
  · exact ha.nodup _
  · refine List.nodup_append.mpr ⟨ha.nodup _, ha.nodup _, ?_⟩
    rintro z hz _ hz' rfl
    exact h (Option.some.inj (ha.home _ _ z hz hz'))

theorem Holds.concatenate (hh : Holds s c (fun _ => False)) (hd : c (some d) = [] ∨ d = q1 ∨ d = q2) :
    ∃ l, s.pqBaseConcatenate d q1 q2 = some { s with links := l } ∧
      Holds { s with links := l } (gathered c d q1 q2 (inOrder c q1 q2)) (fun _ => False) := by
  have r1 := hh.shape.ring (some q1)
  have r2 := hh.shape.ring (some q2)
  have hdest : (emptied s.links q1 q2).Adj (head (some d)) (head (some d)) := by
    unfold Links.Adj
    rw [emptied_next, emptied_prev]
    rcases hd with hd | rfl | rfl
    · have r := hh.shape.ring (some d)
      rw [hd, List.map_nil, ring_nil] at r
      split_ifs
      · exact ⟨rfl, rfl⟩
      · exact r
    · rw [if_pos (.inl rfl), if_pos (.inl rfl)]
      exact ⟨rfl, rfl⟩
    · rw [if_pos (.inr rfl), if_pos (.inr rfl)]
      exact ⟨rfl, rfl⟩
  let l := concatenated s.links d q1 q2 (c (some q1)).head? (c (some q1)).getLast? (c (some q2)).head? (c (some q2)).getLast?
  have hexec : s.pqBaseConcatenate d q1 q2 = some { s with links := l } := by
    apply concatenate_joined (isSome_ends _) (isSome_ends _) ?_ ?_ ?_ ?_ ?_ hdest
    · rintro z (hz | hz | hz | hz)
      · exact hh.live _ z (List.mem_of_mem_head? hz)
      · exact hh.live _ z (List.mem_of_getLast? hz)
      · exact hh.live _ z (List.mem_of_mem_head? hz)
      · exact hh.live _ z (List.mem_of_getLast? hz)
    · rw [r1.first, ← List.head?_map]
      exact orNull_behind _ _
    · rw [r1.last, ← List.getLast?_map]
      exact orNull_before _ _
    · rw [r2.first, ← List.head?_map]
      exact orNull_behind _ _
    · rw [r2.last, ← List.getLast?_map]
      exact orNull_before _ _
  have hout : ∀ a : PacketQueueNode Q P, (∀ z ∈ inOrder c q1 q2, a ≠ qnode z) →
      ∀ z ∈ c (some q1) ++ c (some q2), a ≠ qnode z := fun a ha z hz =>
    ha z ((mem_inOrder c q1 q2 z).mpr (List.mem_append.mp hz))
  refine ⟨l, hexec, hh.shape.gather hh.apart (mem_inOrder c q1 q2) hd ?_ (fun q => concatenated_self) ?_ ?_,
    hh.apart.gather (mem_inOrder c q1 q2) (inOrder_nodup hh.apart q1 q2), ?_⟩
  · by_cases hne : c (some q1) ++ c (some q2) = []
    · obtain ⟨e1, e2⟩ := List.append_eq_nil_iff.mp hne
      have hnil : inOrder c q1 q2 = [] := by simp [inOrder, e1, e2]
      show Ring (concatenated s.links d q1 q2 _ _ _ _) _ _
      rw [concatenated_nil hne, hnil, List.map_nil, ring_nil]
      exact hdest
    · unfold inOrder
      split_ifs with h
      · subst h
        exact concatenated_twice r1 (hh.apart.nodup _) (by simpa using hne)
      · have hnd := inOrder_nodup hh.apart q1 q2
        rw [inOrder, if_neg h] at hnd
        exact concatenated_ring r1 r2 hnd hne
  · exact fun a h0 h1 h2 ha => (concatenated_frame h0 h1 h2 (hout a ha)).1
  · exact fun a h0 h1 h2 ha => (concatenated_frame h0 h1 h2 (hout a ha)).2
  · intro h z hz
    rcases gathered_cases c d q1 q2 (inOrder c q1 q2) h with ⟨rfl, he⟩ | ⟨-, -, he⟩ | ⟨-, -, -, he⟩ <;> rw [he] at hz
    · rcases (mem_inOrder c q1 q2 z).mp hz with hz | hz
      · exact hh.live _ z hz
      · exact hh.live _ z hz
    · cases hz
    · exact hh.live _ z hz

end Concatenate

variable {s : PacketQueues Q P} {c : Option Q → List P} {busy : P → Prop} {h : Option Q} {x : P} {us vs : List P}

/-! ## The operations -/

section Rep

variable (queueKind : Q → PacketKind) (pktKind : P → PacketKind)

structure Rep (a : Queues Q P) (s : PacketQueues Q P) : Prop where
  holds : Holds s a.contents (fun _ => False)
  freed : s.freed = a.freed
  kind : ∀ q, ∀ x ∈ a.contents (some q), pktKind x = queueKind q
  parked : ∀ x ∈ a.contents none, pktKind x = .pktIn ∧ s.onFreeQueue x = true
  /-- A packet pushed again keeps the flag it was given on the free queue. -/
  flagged : ∀ x, s.onFreeQueue x = true → pktKind x = .pktIn ∧ (s.freed x = true ∨ ∃ h, x ∈ a.contents h)

variable {queueKind pktKind} {a : Queues Q P} {q : Q}

theorem Rep.ensure (hr : Rep queueKind pktKind a s) (hf : a.freed x = false) (hx : ∀ q, x ∉ a.contents (some q)) :
    ∃ l, s.pqEnsureUnlinked x = some { s with links := l } ∧
      Holds { s with links := l } (a.unpark x).contents (fun y => False ∨ y = x) := by
  have hf' : s.freed x = false := by rw [hr.freed, hf]
  have hal : s.alive (qnode x) = true := by simp [PacketQueues.alive, hf']
  unfold PacketQueues.pqEnsureUnlinked Queues.unpark Queues.set
  rw [if_pos hal]
  by_cases hp : x ∈ a.contents none
  · obtain ⟨us, vs, hc⟩ := List.append_of_mem hp
    have hd := hr.holds.apart.nodup none
    rw [hc, List.nodup_middle, List.nodup_cons] at hd
    have hxu : x ∉ us := fun hm => hd.1 (List.mem_append_left vs hm)
    rw [if_pos (hr.parked x hp).2, hc, List.erase_append_right _ hxu, List.erase_cons_head]
    exact hr.holds.unlinkNode hc
  · have hnone : ∀ h, x ∉ a.contents h := by
      intro h
      cases h with
      | none => exact hp
      | some q => exact hx q
    have hflag : s.onFreeQueue x = false := by
      by_contra hfl
      rcases (hr.flagged x (by simpa using hfl)).2 with h | ⟨h, hm⟩
      · rw [hf'] at h
        cases h
      · exact hnone h hm
    have hnull := hr.holds.shape.loose x (by simp [hf']) hnone
    refine ⟨s.links, ?_, ?_⟩
    · rw [hflag, if_neg (by simp), if_pos hnull]
    · dsimp only
      rw [List.erase_of_not_mem hp, Function.update_eq_self]
      exact ⟨hr.holds.shape.mono (by tauto), hr.holds.apart, hr.holds.live⟩

theorem Rep.unparked (hr : Rep queueKind pktKind a s) (hx : ∀ q, x ∉ a.contents (some q)) (h : Option Q) :
    x ∉ (a.unpark x).contents h := by
  cases h with
  | none =>
    rw [Queues.unpark_none]
    exact (hr.holds.apart.nodup none).not_mem_erase
  | some q =>
    rw [Queues.unpark_some]
    exact hx q

theorem Rep.pushed (hr : Rep queueKind pktKind a s) (hl : a.Legal queueKind pktKind (.push q x)) :
    ∃ l, s.pqBasePush q x = some { s with links := l } ∧
      Holds { s with links := l } (a.step queueKind (.push q x)).1.contents (fun _ => False) := by
  obtain ⟨hf, hx, -⟩ := hl
  obtain ⟨l, he, hh⟩ := hr.ensure hf hx
  have hf' : s.freed x = false := by rw [hr.freed, hf]
  obtain ⟨l', he', hh'⟩ := hh.linkLast (hr.unparked hx) hf' (some q)
  rw [Queues.unpark_some] at hh'
  refine ⟨l', ?_, hh'⟩
  unfold PacketQueues.pqBasePush
  rw [he]
  exact he'

theorem Rep.pushedFront (hr : Rep queueKind pktKind a s) (hl : a.Legal queueKind pktKind (.pushFront q x)) :
    ∃ l, s.pqBasePushFront q x = some { s with links := l } ∧
      Holds { s with links := l } (a.step queueKind (.pushFront q x)).1.contents (fun _ => False) := by
  obtain ⟨hf, hx, -⟩ := hl
  obtain ⟨l, he, hh⟩ := hr.ensure hf hx
  have hf' : s.freed x = false := by rw [hr.freed, hf]
  obtain ⟨l', he', hh'⟩ := hh.linkFirst (hr.unparked hx) hf' (some q)
  rw [Queues.unpark_some] at hh'
  refine ⟨l', ?_, hh'⟩
  unfold PacketQueues.pqBasePushFront
  rw [he]
  exact he'

omit [DecidableEq Q] in
/-- Where `prev` points, and what is behind it. -/
theorem following_split {zs : List P} (hd : zs.Nodup) {prev : Option P} (hp : ∀ x ∈ prev, x ∈ zs) :
    ∃ us vs, zs = us ++ vs ∧ Queues.following prev zs = vs.head? ∧ before (some q) us = place q prev := by
  cases prev with
  | none => exact ⟨[], zs, rfl, rfl, rfl⟩
  | some x =>
    obtain ⟨us, vs, rfl⟩ := List.append_of_mem (hp x rfl)
    rw [List.nodup_middle, List.nodup_cons] at hd
    refine ⟨us ++ [x], vs, by simp, ?_, by simp [before, place]⟩
    have hdrop : (us ++ x :: vs).dropWhile (· ≠ x) = x :: vs := by
      rw [List.dropWhile_append_of_pos]
      · simp
      · rintro y hy
        simp only [decide_eq_true_eq]
        rintro rfl
        exact hd.1 (List.mem_append_left vs hy)
    rw [Queues.following, hdrop, List.tail_cons]

theorem Holds.inPop (hh : Holds s c (fun _ => False)) (hc : c (some q) = us ++ x :: vs) :
    ∃ l, s.pqInPop x = some { s with links := l, onFreeQueue := Function.update s.onFreeQueue x true } ∧
      Holds { s with links := l } (Function.update (Function.update c (some q) (us ++ vs)) none (c none ++ [x]))
        (fun _ => False) := by
  obtain ⟨l, he, hh'⟩ := hh.unlinkNode hc
  have hf : s.freed x = false := hh.live (some q) x (by simp [hc])
  have hout := (hh.apart.remove hc).2
  obtain ⟨l', he', hh''⟩ := hh'.linkLast hout hf none
  rw [Function.update_of_ne (by simp)] at hh''
  refine ⟨l', ?_, hh''⟩
  have hal : PacketQueues.alive { s with links := l } (qnode x) = true := by simp [PacketQueues.alive, hf]
  unfold PacketQueues.pqInPop
  rw [setNext_some hal, Option.bind_some, prev_some rfl, Option.bind_some,
    setPrev_some (by rw [alive_links]; exact hal), Option.bind_some] at he'
  simp only [he, Option.bind_eq_bind, Option.bind_some, pktinFreeqHead]
  rw [prev_some rfl, Option.bind_some, setPrev_some hal, Option.bind_some,
    setNext_some (by rw [alive_links]; exact hal), Option.bind_some]
  exact congrArg (Option.bind · _) he'

theorem Holds.outPop (hh : Holds s c (fun _ => False)) (hc : c h = us ++ x :: vs) :
    ∃ l, s.pqOutPop x = some { s with links := l } ∧
      Holds { s with links := l } (Function.update c h (us ++ vs)) (fun _ => False) := by
  obtain ⟨l, he, hh'⟩ := hh.unlinkNode hc
  have hf : s.freed x = false := hh.live h x (by simp [hc])
  have hout := (hh.apart.remove hc).2
  have hal : PacketQueues.alive { s with links := l } (qnode x) = true := by simp [PacketQueues.alive, hf]
  refine ⟨(l.setNext (qnode x) none).setPrev (qnode x) none, ?_, ?_, hh'.apart, hh'.live⟩
  · unfold PacketQueues.pqOutPop
    simp only [he, Option.bind_eq_bind, Option.bind_some]
    rw [setNext_some hal, Option.bind_some, setPrev_some (by rw [alive_links]; exact hal)]
  · apply (hh'.shape.mono fun y hy => or_assoc.mpr hy).settle hout
    · rw [Links.setPrev_next, Links.setNext_next, if_pos rfl]
    · rw [Links.setPrev_prev, if_pos rfl]
    · intro b hb
      rw [Links.setPrev_next, Links.setNext_next, if_neg hb]
    · intro b hb
      rw [Links.setPrev_prev, if_neg hb, Links.setNext_prev]

/-! ## Freeing -/

omit [DecidableEq Q] [DecidableEq P] in
theorem next_chain_congr {l l' : Links (PacketQueueNode Q P)} (hn : ∀ a, a ≠ head none → l'.next a = l.next a) {zs : List P}
    (hc : (zs.map qnode ++ [head none]).IsChain (fun a b => l.next a = some b)) :
    (zs.map qnode ++ [head none]).IsChain (fun a b => l'.next a = some b) := by
  induction zs with
  | nil => exact .singleton _
  | cons z zs ih =>
    rw [List.map_cons, List.cons_append, List.isChain_cons] at hc ⊢
    exact ⟨fun y hy => (hn (qnode z) nofun).trans (hc.1 y hy), ih hc.2⟩

theorem freeLoop_spec (zs : List P) : ∀ (s : PacketQueues Q P) (fuel : Nat), zs.Nodup → (∀ z ∈ zs, s.freed z = false) →
    (head none :: (zs.map qnode ++ [head none])).IsChain (fun a b => s.links.next a = some b) → zs.length < fuel →
    ∃ l, pktinFreeLoop fuel s = some { s with links := l, freed := fun x => s.freed x || decide (x ∈ zs) } ∧
      l.prev = s.links.prev ∧ (∀ a, a ≠ head none → l.next a = s.links.next a) ∧ l.next (head none) = some (head none) := by
  induction zs with
  | nil =>
    intro s fuel _ _ hc hfuel
    obtain ⟨n, rfl⟩ := Nat.exists_eq_succ_of_ne_zero (Nat.ne_of_gt hfuel)
    have hnext : s.links.next (head none) = some (head none) := by simpa using hc
    refine ⟨s.links, ?_, rfl, fun _ _ => rfl, hnext⟩
    rw [pktinFreeLoop, pktinFreeqHead, next_some rfl, hnext]
    simp
  | cons z zs ih =>
    intro s fuel hd hf hc hfuel
    obtain ⟨n, rfl⟩ := Nat.exists_eq_succ_of_ne_zero (Nat.ne_of_gt (Nat.zero_lt_of_lt hfuel))
    obtain ⟨hz, hd⟩ := List.nodup_cons.mp hd
    rw [List.map_cons, List.cons_append, List.isChain_cons_cons, List.isChain_cons, head?_append_headD] at hc
    obtain ⟨h1, h2, h3⟩ := hc
    have h2 : s.links.next (qnode z) = some (behind none zs) := h2 _ rfl
    have hal : s.alive (qnode z) = true := by simp [PacketQueues.alive, hf z]
    let l := s.links.setNext (head none) (some (behind none zs))
    let s' : PacketQueues Q P := { s with links := l, freed := Function.update s.freed z true }
    have hf' : ∀ y ∈ zs, s'.freed y = false := fun y hy => by
      show Function.update s.freed z true y = false
      have hyz : y ≠ z := fun he => hz (he ▸ hy)
      rw [Function.update_of_ne hyz]
      exact hf y (List.mem_cons_of_mem z hy)
    have hl : ∀ a, a ≠ head none → l.next a = s.links.next a := fun a ha => by
      rw [Links.setNext_next, if_neg ha]
    have hc' : (head none :: (zs.map qnode ++ [head none])).IsChain (fun a b => s'.links.next a = some b) := by
      rw [List.isChain_cons, head?_append_headD]
      refine ⟨fun y hy => ?_, ?_⟩
      · rw [Option.mem_some_iff] at hy
        show l.next (head none) = some y
        rw [← hy, Links.setNext_next, if_pos rfl]
        rfl
      · exact next_chain_congr hl h3
    obtain ⟨l', he, hp, hn, hend⟩ := ih s' n hd hf' hc' (Nat.lt_of_succ_lt_succ hfuel)
    refine ⟨l', ?_, hp, fun a ha => (hn a ha).trans (hl a ha), hend⟩
    · rw [pktinFreeLoop, pktinFreeqHead, next_some rfl, h1]
      simp only [Option.bind_eq_bind, Option.bind_some]
      rw [next_some hal, h2, Option.bind_some, setNext_some rfl, Option.bind_some]
      refine he.trans ?_
      congr 2
      funext y
      show (Function.update s.freed z true y || decide (y ∈ zs)) = (s.freed y || decide (y ∈ z :: zs))
      by_cases hyz : y = z
      · subst hyz
        simp
      · simp [hyz]

theorem Holds.free (hh : Holds s c (fun _ => False)) {fuel : Nat} (hfuel : (c none).length < fuel) :
    ∃ l, pktinFreeQueueCallback fuel s = some { s with links := l, freed := fun x => s.freed x || decide (x ∈ c none) } ∧
      Holds { s with links := l, freed := fun x => s.freed x || decide (x ∈ c none) } (Function.update c none [])
        (fun _ => False) := by
  have hring := hh.shape.ring none
  have hc : (head none :: ((c none).map qnode ++ [head none])).IsChain (fun a b => s.links.next a = some b) :=
    List.IsChain.imp (fun _ _ h => h.1) hring
  obtain ⟨l, he, hp, hn, hend⟩ := freeLoop_spec (c none) s fuel (hh.apart.nodup none) (hh.live none) hc hfuel
  refine ⟨l.setPrev (head none) (some (head none)), ?_, ⟨fun h => ?_, fun x hb hx => ?_⟩, ?_, ?_⟩
  · unfold pktinFreeQueueCallback
    rw [he]
    exact setPrev_some (a := pktinFreeqHead) rfl _
  · by_cases hh' : h = none
    · subst hh'
      rw [Function.update_self, List.map_nil, ring_nil]
      exact ⟨hend, by rw [Links.setPrev_prev, if_pos rfl]⟩
    · rw [Function.update_of_ne hh']
      have hne : ∀ a ∈ head h :: (c h).map qnode, a ≠ head none := by
        rintro a hm rfl
        rcases List.mem_cons.mp hm with hm | hm
        · injection hm with hm
          exact hh' hm.symm
        · simp at hm
      refine (hh.shape.ring h).frame (fun a hm => hn a (hne a hm)) (fun a hm => ?_)
      rw [Links.setPrev_prev, if_neg (hne a hm), hp]
  · have hx' : ∀ h, x ∉ c h := not_mem_of_update hx fun hm => absurd (.inl (by simp [hm])) hb
    rw [Links.setPrev_next, hn (qnode x) nofun, Links.setPrev_prev, if_neg nofun, hp]
    exact hh.shape.loose x (fun h => hb (h.imp_left fun h => by simp [h])) hx'
  · exact hh.apart.clear
  · intro h x hx
    by_cases hh' : h = none
    · subst hh'
      rw [Function.update_self] at hx
      cases hx
    · rw [Function.update_of_ne hh'] at hx
      have hxn : x ∉ c none := fun hm => hh' (hh.apart.home h none x hx hm)
      simp [hh.live h x hx, hxn]

/-! ## Steps -/

omit [DecidableEq Q] [DecidableEq P] in
/-- What an operation that sets no flag and frees nothing has to keep. -/
theorem Rep.of_contents (hr : Rep queueKind pktKind a s) {a' : Queues Q P} {l : Links (PacketQueueNode Q P)}
    (hh : Holds { s with links := l } a'.contents (fun _ => False)) (hf : a'.freed = a.freed)
    (hkind : ∀ q, ∀ x ∈ a'.contents (some q), pktKind x = queueKind q)
    (hparked : ∀ x ∈ a'.contents none, x ∈ a.contents none)
    (hkeep : ∀ h, ∀ x ∈ a.contents h, pktKind x = .pktIn → ∃ h', x ∈ a'.contents h') :
    Rep queueKind pktKind a' { s with links := l } where
  holds := hh
  freed := hr.freed.trans hf.symm
  kind := hkind
  parked := fun x hx => hr.parked x (hparked x hx)
  flagged := fun x hx => by
    obtain ⟨hk, hor⟩ := hr.flagged x hx
    refine ⟨hk, hor.imp_right ?_⟩
    rintro ⟨h, hm⟩
    exact hkeep h x hm hk

/-- The contents after pushing, at either end. -/
theorem push_contents (a : Queues Q P) (x : P) (q : Q) (zs : List P) (h : Option Q) :
    h = some q ∧ ((a.unpark x).set (some q) zs).contents h = zs ∨
      h = none ∧ ((a.unpark x).set (some q) zs).contents h = (a.contents none).erase x ∨
      h ≠ some q ∧ h ≠ none ∧ ((a.unpark x).set (some q) zs).contents h = a.contents h := by
  by_cases hq : h = some q
  · subst hq
    exact .inl ⟨rfl, by simp⟩
  · cases h with
    | none => exact .inr (.inl ⟨rfl, by simp⟩)
    | some q' => exact .inr (.inr ⟨hq, nofun, by simp [Function.update_of_ne hq]⟩)

theorem Rep.placed (hr : Rep queueKind pktKind a s) (hk : pktKind x = queueKind q) {zs : List P}
    (hzs : ∀ y, y ∈ zs ↔ y = x ∨ y ∈ a.contents (some q)) {l : Links (PacketQueueNode Q P)}
    (hh : Holds { s with links := l } ((a.unpark x).set (some q) zs).contents (fun _ => False)) :
    Rep queueKind pktKind ((a.unpark x).set (some q) zs) { s with links := l } := by
  apply hr.of_contents hh rfl
  · intro q' y hy
    rcases push_contents a x q zs (some q') with ⟨hq, he⟩ | ⟨hq, -⟩ | ⟨-, -, he⟩
    · rw [he, hzs] at hy
      injection hq with hq
      subst hq
      rcases hy with rfl | hy
      · exact hk
      · exact hr.kind q' y hy
    · cases hq
    · rw [he] at hy
      exact hr.kind q' y hy
  · intro y hy
    rw [Queues.set_contents, Function.update_of_ne (by simp), Queues.unpark_none] at hy
    exact List.mem_of_mem_erase hy
  · intro h y hy _
    by_cases hyx : y = x
    · exact ⟨some q, by rw [Queues.set_contents, Function.update_self, hzs]; exact .inl hyx⟩
    · refine ⟨h, ?_⟩
      rcases push_contents a x q zs h with ⟨rfl, he⟩ | ⟨rfl, he⟩ | ⟨-, -, he⟩ <;> rw [he]
      · exact (hzs y).mpr (.inr hy)
      · exact (List.mem_erase_of_ne hyx).mpr hy
      · exact hy

theorem Rep.concatenated (hr : Rep queueKind pktKind a s) {qdest q1 q2 : Q}
    (hl : a.Legal queueKind pktKind (.concatenate qdest q1 q2)) {l : Links (PacketQueueNode Q P)}
    (hh : Holds { s with links := l } (gathered a.contents qdest q1 q2 (inOrder a.contents q1 q2)) (fun _ => False)) :
    Rep queueKind pktKind (a.step queueKind (.concatenate qdest q1 q2)).1 { s with links := l } := by
  obtain ⟨hd, hk1, hk2⟩ := hl
  have hh' : Holds { s with links := l } (a.step queueKind (.concatenate qdest q1 q2)).1.contents (fun _ => False) := hh
  apply hr.of_contents hh' rfl
  · intro q y hy
    change y ∈ gathered a.contents qdest q1 q2 (inOrder a.contents q1 q2) (some q) at hy
    rcases gathered_cases a.contents qdest q1 q2 (inOrder a.contents q1 q2) (some q) with
      ⟨hq, he⟩ | ⟨-, -, he⟩ | ⟨-, -, -, he⟩ <;> rw [he] at hy
    · injection hq with hq
      subst hq
      rcases (mem_inOrder a.contents q1 q2 y).mp hy with hy | hy
      · rw [← hk1]
        exact hr.kind q1 y hy
      · rw [← hk2]
        exact hr.kind q2 y hy
    · cases hy
    · exact hr.kind q y hy
  · intro y hy
    change y ∈ gathered a.contents qdest q1 q2 (inOrder a.contents q1 q2) none at hy
    rcases gathered_cases a.contents qdest q1 q2 (inOrder a.contents q1 q2) none with
      ⟨hq, -⟩ | ⟨-, hq | hq, -⟩ | ⟨-, -, -, he⟩
    · cases hq
    · cases hq
    · cases hq
    · rwa [he] at hy
  · intro h y hy _
    have hgo : ∀ z, z ∈ a.contents (some q1) ∨ z ∈ a.contents (some q2) →
        ∃ h', z ∈ gathered a.contents qdest q1 q2 (inOrder a.contents q1 q2) h' := fun z hz =>
      ⟨some qdest, by rw [gathered, Function.update_self]; exact (mem_inOrder a.contents q1 q2 z).mpr hz⟩
    rcases gathered_cases a.contents qdest q1 q2 (inOrder a.contents q1 q2) h with
      ⟨rfl, -⟩ | ⟨-, hq, -⟩ | ⟨-, -, -, he⟩
    · rcases hd with hd | rfl | rfl
      · rw [hd] at hy
        cases hy
      · exact hgo y (.inl hy)
      · exact hgo y (.inr hy)
    · rcases hq with rfl | rfl
      · exact hgo y (.inl hy)
      · exact hgo y (.inr hy)
    · refine ⟨h, ?_⟩
      show y ∈ gathered a.contents qdest q1 q2 (inOrder a.contents q1 q2) h
      rwa [he]

theorem Rep.freePktin (hr : Rep queueKind pktKind a s) {l : Links (PacketQueueNode Q P)}
    (hh : Holds { s with links := l, freed := fun x => s.freed x || decide (x ∈ a.contents none) }
      (Function.update a.contents none []) (fun _ => False)) :
    Rep queueKind pktKind (a.step queueKind .freePktin).1
      { s with links := l, freed := fun x => s.freed x || decide (x ∈ a.contents none) } where
  holds := hh
  freed := by
    rw [hr.freed]
    rfl
  kind := fun q y hy => by
    change y ∈ Function.update a.contents none [] (some q) at hy
    rw [Function.update_of_ne (by simp)] at hy
    exact hr.kind q y hy
  parked := fun y hy => by
    change y ∈ Function.update a.contents none [] none at hy
    rw [Function.update_self] at hy
    cases hy
  flagged := fun y hy => by
    obtain ⟨hk, hor⟩ := hr.flagged y hy
    refine ⟨hk, ?_⟩
    rcases hor with hf | ⟨h, hm⟩
    · exact .inl (by simp [hf])
    · cases h with
      | none => exact .inl (by simp [hm])
      | some q => exact .inr ⟨some q, by rw [Queues.step, Queues.set_contents, Function.update_of_ne (by simp)]; exact hm⟩

omit [DecidableEq P] in
theorem Rep.outPopped (hr : Rep queueKind pktKind a s) (hq : queueKind q = .pktOut) (hc : a.contents (some q) = us ++ x :: vs)
    {l : Links (PacketQueueNode Q P)} (hh : Holds { s with links := l } (Function.update a.contents (some q) (us ++ vs)) (fun _ => False)) :
    Rep queueKind pktKind (a.set (some q) (us ++ vs)) { s with links := l } := by
  have hsub : ∀ y ∈ us ++ vs, y ∈ a.contents (some q) := fun y hy => by
    rw [hc]
    simp at hy ⊢
    tauto
  have hh' : Holds { s with links := l } (a.set (some q) (us ++ vs)).contents (fun _ => False) := hh
  apply hr.of_contents hh' rfl
  · intro q' y hy
    rw [Queues.set_contents] at hy
    by_cases hqq : q' = q
    · subst hqq
      rw [Function.update_self] at hy
      exact hr.kind q' y (hsub y hy)
    · rw [Function.update_of_ne (by simpa using hqq)] at hy
      exact hr.kind q' y hy
  · intro y hy
    rwa [Queues.set_contents, Function.update_of_ne (by simp)] at hy
  · intro h y hy hk
    refine ⟨h, ?_⟩
    have hne : h ≠ some q := by
      rintro rfl
      rw [hr.kind q y hy, hq] at hk
      cases hk
    rwa [Queues.set_contents, Function.update_of_ne hne]

theorem Rep.inPopped (hr : Rep queueKind pktKind a s) (hq : queueKind q = .pktIn) (hc : a.contents (some q) = us ++ x :: vs)
    {l : Links (PacketQueueNode Q P)} (hh : Holds { s with links := l }
      (Function.update (Function.update a.contents (some q) (us ++ vs)) none (a.contents none ++ [x])) (fun _ => False)) :
    Rep queueKind pktKind ((a.set (some q) (us ++ vs)).set none (a.contents none ++ [x]))
      { s with links := l, onFreeQueue := Function.update s.onFreeQueue x true } where
  holds := ⟨hh.shape, hh.apart, hh.live⟩
  freed := hr.freed
  kind := fun q' y hy => by
    rw [Queues.set_contents, Function.update_of_ne (by simp), Queues.set_contents] at hy
    by_cases hqq : q' = q
    · subst hqq
      rw [Function.update_self] at hy
      apply hr.kind q' y
      rw [hc]
      simp at hy ⊢
      tauto
    · rw [Function.update_of_ne (by simpa using hqq)] at hy
      exact hr.kind q' y hy
  parked := fun y hy => by
    rw [Queues.set_contents, Function.update_self] at hy
    rcases List.mem_append.mp hy with hy | hy
    · obtain ⟨hk, hf⟩ := hr.parked y hy
      refine ⟨hk, ?_⟩
      show Function.update s.onFreeQueue x true y = true
      rw [Function.update_apply, hf, ite_self]
    · rw [List.mem_singleton.mp hy]
      exact ⟨(hr.kind q x (by simp [hc])).trans hq, Function.update_self ..⟩
  flagged := fun y hy => by
    by_cases hyx : y = x
    · subst hyx
      refine ⟨(hr.kind q y (by simp [hc])).trans hq, .inr ⟨none, ?_⟩⟩
      rw [Queues.set_contents, Function.update_self]
      simp
    · change Function.update s.onFreeQueue x true y = true at hy
      rw [Function.update_of_ne hyx] at hy
      obtain ⟨hk, hor⟩ := hr.flagged y hy
      refine ⟨hk, hor.imp_right ?_⟩
      rintro ⟨h, hm⟩
      refine ⟨h, ?_⟩
      rw [Queues.set_contents, Function.update_apply, Queues.set_contents, Function.update_apply]
      split_ifs with h0 h1
      · subst h0
        exact List.mem_append_left _ hm
      · subst h1
        rw [hc] at hm
        simp at hm ⊢
        tauto
      · exact hm

theorem pqAfter_end {pqPop : PacketQueues Q P → P → Option (PacketQueues Q P)} {n : PacketQueueNode Q P} (pop : Bool)
    (hal : s.alive n = true) (hn : s.links.next n = some (head (some q))) : pqAfter pqPop s q n pop = some (s, none) := by
  unfold pqAfter
  rw [next_some hal, hn]
  simp

theorem pqAfter_node {pqPop : PacketQueues Q P → P → Option (PacketQueues Q P)} {n : PacketQueueNode Q P} (pop : Bool)
    (hal : s.alive n = true) (hn : s.links.next n = some (qnode x)) : pqAfter pqPop s q n pop =
      if pop then (pqPop s x).map fun s => (s, some x) else some (s, some x) := by
  unfold pqAfter
  rw [next_some hal, hn]
  cases pop with
  | false => rfl
  | true => cases hp : pqPop s x <;> simp [hp]

theorem Rep.after (hr : Rep queueKind pktKind a s) {prev : Option P} {pop : Bool} (hl : a.Legal queueKind pktKind (.after q prev pop))
    (fuel : Nat) : ∃ s', s.step queueKind fuel (.after q prev pop) = some (s', (a.step queueKind (.after q prev pop)).2) ∧
      Rep queueKind pktKind (a.step queueKind (.after q prev pop)).1 s' := by
  have hnd := hr.holds.apart.nodup (some q)
  obtain ⟨us, vs, hc, hfol, hpl⟩ := following_split (q := q) hnd hl
  have hring := hr.holds.shape.ring (some q)
  rw [hc, List.map_append] at hring
  have hnext : s.links.next (place q prev) = some (behind (some q) vs) := by
    rw [← hpl]
    exact (ring_append.mp hring).2.2.1
  have hal : s.alive (place q prev) = true := by
    rw [← hpl]
    exact alive_before fun y hy => hr.holds.live (some q) y (by simp [hc, hy])
  cases vs with
  | nil =>
    refine ⟨s, ?_, ?_⟩
    · cases hk : queueKind q <;>
        simp [PacketQueues.step, hk, pqInAfter, pqOutAfter, pqAfter_end pop hal hnext, Queues.step, hfol]
    · simpa [Queues.step, hfol] using hr
  | cons y vs =>
    have hnode : ∀ pqPop, pqAfter pqPop s q (place q prev) pop = _ := fun _ => pqAfter_node pop hal hnext
    have hstep : a.step queueKind (.after q prev pop) = (if pop then a.pop queueKind q y else a, some y) := by
      simp [Queues.step, hfol]
    have hyu : y ∉ us := by
      rw [hc, List.nodup_middle, List.nodup_cons] at hnd
      exact fun hm => hnd.1 (List.mem_append_left vs hm)
    have herase : (a.contents (some q)).erase y = us ++ vs := by
      rw [hc, List.erase_append_right _ hyu, List.erase_cons_head]
    rw [hstep]
    cases pop with
    | false =>
      refine ⟨s, ?_, hr⟩
      cases hk : queueKind q <;> simp [PacketQueues.step, hk, pqInAfter, pqOutAfter, hnode]
    | true =>
      cases hk : queueKind q with
      | pktIn =>
        obtain ⟨l, he, hh⟩ := hr.holds.inPop hc
        refine ⟨_, by simp only [PacketQueues.step, hk, pqInAfter, hnode, he]; rfl, ?_⟩
        have hrep := hr.inPopped hk hc hh
        simpa [Queues.pop, hk, herase] using hrep
      | pktOut =>
        obtain ⟨l, he, hh⟩ := hr.holds.outPop hc
        refine ⟨_, by simp only [PacketQueues.step, hk, pqOutAfter, hnode, he]; rfl, ?_⟩
        have hrep := hr.outPopped hk hc hh
        simpa [Queues.pop, hk, herase] using hrep

theorem Rep.step (hr : Rep queueKind pktKind a s) {op : Op Q P} (hl : a.Legal queueKind pktKind op) {fuel : Nat}
    (hfuel : (a.contents none).length < fuel) : ∃ s', s.step queueKind fuel op = some (s', (a.step queueKind op).2) ∧
      Rep queueKind pktKind (a.step queueKind op).1 s' := by
  cases op with
  | push pq pkt =>
    obtain ⟨l, he, hh⟩ := hr.pushed hl
    refine ⟨_, by rw [PacketQueues.step, he]; rfl, hr.placed hl.2.2 (fun y => ?_) hh⟩
    simp
    tauto
  | pushFront pq pkt =>
    obtain ⟨l, he, hh⟩ := hr.pushedFront hl
    exact ⟨_, by rw [PacketQueues.step, he]; rfl, hr.placed hl.2.2 (fun y => List.mem_cons) hh⟩
  | after pq prev pop => exact hr.after hl fuel
  | concatenate qdest q1 q2 =>
    obtain ⟨l, he, hh⟩ := hr.holds.concatenate hl.1
    exact ⟨_, by rw [PacketQueues.step, he]; rfl, hr.concatenated hl hh⟩
  | freePktin =>
    obtain ⟨l, he, hh⟩ := hr.holds.free hfuel
    exact ⟨_, by rw [PacketQueues.step, he]; rfl, hr.freePktin hh⟩

/-- One operation parks at most one packet. -/
theorem parked_le (a : Queues Q P) (op : Op Q P) :
    ((a.step queueKind op).1.contents none).length ≤ (a.contents none).length + 1 := by
  cases op with
  | push pq pkt =>
    simp only [Queues.step, Queues.set_contents, Function.update_of_ne (Option.some_ne_none pq).symm, Queues.unpark_none]
    exact Nat.le_succ_of_le List.length_erase_le
  | pushFront pq pkt =>
    simp only [Queues.step, Queues.set_contents, Function.update_of_ne (Option.some_ne_none pq).symm, Queues.unpark_none]
    exact Nat.le_succ_of_le List.length_erase_le
  | after pq prev pop =>
    cases hf : Queues.following prev (a.contents (some pq)) with
    | none => simp [Queues.step, hf]
    | some pkt =>
      cases pop with
      | false => simp [Queues.step, hf]
      | true => cases hk : queueKind pq <;> simp [Queues.step, hf, Queues.pop, hk]
  | concatenate qdest q1 q2 => simp [Queues.step]
  | freePktin => simp [Queues.step]

theorem Rep.run {fuel : Nat} (ops : List (Op Q P)) : ∀ {a : Queues Q P} {s : PacketQueues Q P}, Rep queueKind pktKind a s →
    a.LegalRun queueKind pktKind ops → (a.contents none).length + ops.length < fuel → ∃ s',
      s.run queueKind fuel ops = some (s', (a.run queueKind ops).2) ∧ Rep queueKind pktKind (a.run queueKind ops).1 s' := by
  induction ops with
  | nil => exact fun {a s} hr _ _ => ⟨s, rfl, hr⟩
  | cons op ops ih =>
    intro a s hr hl hfuel
    obtain ⟨hop, hops⟩ := hl
    rw [List.length_cons] at hfuel
    obtain ⟨s1, h1, hr1⟩ := hr.step hop (show (a.contents none).length < fuel by omega)
    have hpark : ((a.step queueKind op).1.contents none).length ≤ (a.contents none).length + 1 := parked_le a op
    obtain ⟨s2, h2, hr2⟩ := ih hr1 hops (by omega)
    refine ⟨s2, ?_, hr2⟩
    unfold PacketQueues.run
    rw [h1]
    show (PacketQueues.run queueKind fuel s1 ops).bind _ = _
    rw [h2]
    rfl

omit [DecidableEq Q] [DecidableEq P] in
theorem rep_init : Rep queueKind pktKind Queues.init (PacketQueues.init : PacketQueues Q P) where
  holds :=
    { shape := ⟨fun _ => ring_nil.mpr ⟨rfl, rfl⟩, fun _ _ _ => ⟨rfl, rfl⟩⟩
      apart := ⟨fun _ => List.nodup_nil, fun _ _ _ hm => absurd hm List.not_mem_nil⟩
      live := fun _ _ hm => absurd hm List.not_mem_nil }
  freed := rfl
  kind := fun _ _ hm => absurd hm List.not_mem_nil
  parked := fun _ hm => absurd hm List.not_mem_nil
  flagged := fun _ h => absurd h Bool.false_ne_true

/-! ## Nothing is lost -/

/-- On a list, or freed. -/
def Kept (a : Queues Q P) (pkt : P) : Prop := (∃ h, pkt ∈ a.contents h) ∨ a.freed pkt = true

theorem kept_place {y : P} {zs : List P} (hzs : ∀ z, z = y ∨ z ∈ a.contents (some q) → z ∈ zs) (hk : Kept a x ∨ x = y) :
    Kept ((a.unpark y).set (some q) zs) x := by
  by_cases hxy : x = y
  · exact .inl ⟨some q, by rw [Queues.set_contents, Function.update_self]; exact hzs x (.inl hxy)⟩
  · rcases hk.resolve_right hxy with ⟨h, hm⟩ | hf
    · refine .inl ⟨h, ?_⟩
      rcases push_contents a y q zs h with ⟨rfl, he⟩ | ⟨rfl, he⟩ | ⟨-, -, he⟩ <;> rw [he]
      · exact hzs x (.inr hm)
      · exact (List.mem_erase_of_ne hxy).mpr hm
      · exact hm
    · exact .inr hf

theorem kept_pop {y : P} (hk : Kept a x) : Kept (a.pop queueKind q y) x ∨ queueKind q = .pktOut ∧ x = y := by
  rcases hk with ⟨h, hm⟩ | hf
  · by_cases hxy : h = some q ∧ x = y
    · obtain ⟨rfl, rfl⟩ := hxy
      cases hq : queueKind q with
      | pktIn => exact .inl (.inl ⟨none, by simp [Queues.pop, hq]⟩)
      | pktOut => exact .inr ⟨rfl, rfl⟩
    · have hmem : x ∈ (a.set (some q) ((a.contents (some q)).erase y)).contents h := by
        rw [Queues.set_contents, Function.update_apply]
        split_ifs with hh
        · subst hh
          exact (List.mem_erase_of_ne fun he => hxy ⟨rfl, he⟩).mpr hm
        · exact hm
      refine .inl (.inl ⟨h, ?_⟩)
      cases hq : queueKind q with
      | pktIn =>
        simp only [Queues.pop, hq]
        rw [Queues.set_contents, Function.update_apply]
        split_ifs with hh
        · subst hh
          exact List.mem_append_left _ hmem
        · exact hmem
      | pktOut => simpa only [Queues.pop, hq] using hmem
  · refine .inl (.inr ?_)
    cases hq : queueKind q <;> simpa [Queues.pop, hq] using hf

theorem kept_concatenate {qdest q1 q2 : Q} (hd : a.contents (some qdest) = [] ∨ qdest = q1 ∨ qdest = q2) (hk : Kept a x) :
    Kept (a.step queueKind (.concatenate qdest q1 q2)).1 x := by
  rcases hk with ⟨h, hm⟩ | hf
  · have hgo : x ∈ a.contents (some q1) ∨ x ∈ a.contents (some q2) → Kept (a.step queueKind (.concatenate qdest q1 q2)).1 x := by
      intro hx
      refine .inl ⟨some qdest, ?_⟩
      rw [Queues.step, Queues.set_contents, Function.update_self]
      exact (mem_inOrder a.contents q1 q2 x).mpr hx
    rcases gathered_cases a.contents qdest q1 q2 (inOrder a.contents q1 q2) h with
      ⟨rfl, -⟩ | ⟨-, hq, -⟩ | ⟨-, -, -, he⟩
    · rcases hd with hd | rfl | rfl
      · rw [hd] at hm
        cases hm
      · exact hgo (.inl hm)
      · exact hgo (.inr hm)
    · rcases hq with rfl | rfl
      · exact hgo (.inl hm)
      · exact hgo (.inr hm)
    · refine .inl ⟨h, ?_⟩
      show x ∈ gathered a.contents qdest q1 q2 (inOrder a.contents q1 q2) h
      rwa [he]
  · exact .inr hf

theorem kept_step {op : Op Q P} (hl : a.Legal queueKind pktKind op)
    (hk : Kept a x ∨ Queues.Pushed [op] x) : Kept (a.step queueKind op).1 x ∨
      ∃ pq prev, op = .after pq prev true ∧ queueKind pq = .pktOut ∧ (a.step queueKind op).2 = some x := by
  cases op with
  | push pq pkt =>
    refine .inl (kept_place (fun z hz => ?_) (hk.imp_right ?_))
    · simp
      tauto
    · rintro ⟨_, h⟩
      simp at h
      exact h.2
  | pushFront pq pkt =>
    refine .inl (kept_place (fun z hz => List.mem_cons.mpr hz) (hk.imp_right ?_))
    rintro ⟨_, h⟩
    simp at h
    exact h.2
  | after pq prev pop =>
    have hka : Kept a x := hk.resolve_right (by simp [Queues.Pushed])
    cases hf : Queues.following prev (a.contents (some pq)) with
    | none => exact .inl (by simpa [Queues.step, hf] using hka)
    | some pkt =>
      cases pop with
      | false => exact .inl (by simpa [Queues.step, hf] using hka)
      | true =>
        have hpop : Kept (a.pop queueKind pq pkt) x ∨ queueKind pq = .pktOut ∧ x = pkt := kept_pop hka
        rcases hpop with hka' | ⟨hq, rfl⟩
        · exact .inl (by simpa [Queues.step, hf] using hka')
        · exact .inr ⟨pq, prev, rfl, hq, by simp [Queues.step, hf]⟩
  | concatenate qdest q1 q2 => exact .inl (kept_concatenate hl.1 (hk.resolve_right (by simp [Queues.Pushed])))
  | freePktin =>
    rcases hk.resolve_right (by simp [Queues.Pushed]) with ⟨h, hm⟩ | hf
    · cases h with
      | none => exact .inl (.inr (by simp [Queues.step, hm]))
      | some q => exact .inl (.inl ⟨some q, by simpa [Queues.step] using hm⟩)
    · exact .inl (.inr (by simp [Queues.step, hf]))

theorem kept_run (ops : List (Op Q P)) : ∀ {a : Queues Q P}, a.LegalRun queueKind pktKind ops →
    Kept a x ∨ Queues.Pushed ops x →
    Kept (a.run queueKind ops).1 x ∨ Queues.PoppedOut queueKind ops (a.run queueKind ops).2 x := by
  induction ops with
  | nil => exact fun _ hk => .inl (hk.resolve_right (by simp [Queues.Pushed]))
  | cons op ops ih =>
    intro a hl hk
    obtain ⟨hop, hops⟩ := hl
    have hk' : (Kept a x ∨ Queues.Pushed [op] x) ∨ Queues.Pushed ops x := by
      unfold Queues.Pushed at hk ⊢
      simp only [List.mem_cons, List.not_mem_nil, or_false] at hk ⊢
      rcases hk with hk | ⟨pq, (h | h) | h | h⟩
      · exact .inl (.inl hk)
      · exact .inl (.inr ⟨pq, .inl h⟩)
      · exact .inr ⟨pq, .inl h⟩
      · exact .inl (.inr ⟨pq, .inr h⟩)
      · exact .inr ⟨pq, .inr h⟩
    have hpop : ∀ pq prev, (Op.after pq prev true, some x) ∈ ops.zip ((a.step queueKind op).1.run queueKind ops).2 →
        queueKind pq = .pktOut → Queues.PoppedOut queueKind (op :: ops) (a.run queueKind (op :: ops)).2 x :=
      fun pq prev hm hq => ⟨pq, prev, hq, List.mem_cons_of_mem _ hm⟩
    have hrest : Kept (a.step queueKind op).1 x ∨ Queues.Pushed ops x →
        Kept (a.run queueKind (op :: ops)).1 x ∨ Queues.PoppedOut queueKind (op :: ops) (a.run queueKind (op :: ops)).2 x := by
      intro h
      rcases ih hops h with h | ⟨pq, prev, hq, hm⟩
      · exact .inl h
      · exact .inr (hpop pq prev hm hq)
    rcases hk' with hk | hk
    · rcases kept_step hop hk with h | ⟨pq, prev, rfl, hq, hr⟩
      · exact hrest (.inl h)
      · exact .inr ⟨pq, prev, hq, by simp [Queues.run, hr]⟩
    · exact hrest (.inr hk)

end Rep

/-! ## Packet queues and lists -/

theorem packet_queues_are_lists (queueKind : Q → PacketKind) (pktKind : P → PacketKind) (ops : List (Op Q P))
    (hl : Queues.init.LegalRun queueKind pktKind ops) {fuel : Nat} (hfuel : ops.length < fuel) :
    ∃ s, PacketQueues.init.run queueKind fuel ops = some (s, (Queues.init.run queueKind ops).2) ∧
      (∀ h, Ring s.links (head h) (((Queues.init.run queueKind ops).1.contents h).map qnode)) ∧
      Apart (Queues.init.run queueKind ops).1.contents ∧
      (∀ h, ∀ x ∈ (Queues.init.run queueKind ops).1.contents h, s.freed x = false) ∧
      ∀ x, Queues.Pushed ops x → (∃ h, x ∈ (Queues.init.run queueKind ops).1.contents h) ∨ s.freed x = true ∨
        Queues.PoppedOut queueKind ops (Queues.init.run queueKind ops).2 x := by
  have hfuel' : ((Queues.init : Queues Q P).contents none).length + ops.length < fuel := by simpa [Queues.init] using hfuel
  have hinit : Rep queueKind pktKind Queues.init PacketQueues.init := rep_init
  obtain ⟨s, hrun, hr⟩ := hinit.run ops hl hfuel'
  refine ⟨s, hrun, hr.holds.shape.ring, hr.holds.apart, hr.holds.live, fun x hx => ?_⟩
  rw [hr.freed, ← or_assoc]
  exact kept_run ops hl (.inr hx)

/-- Popped, pushed again while it is on the free queue, moved; the packet behind it popped and freed. -/
theorem packet_comes_back : ∃ s, PacketQueues.init.run (fun _ : Fin 2 => .pktIn) 9 [.push 0 5, .after 0 none true,
      .pushFront 0 5, .push 0 6, .concatenate 1 1 0, .after 1 (some 5) true, .freePktin, .after 1 none false] =
        some (s, [none, some 5, none, none, none, some 6, none, some 5]) ∧
      Ring s.links (head (some 1)) [qnode 5] ∧ s.freed 5 = false := by
  obtain ⟨s, hrun, hring, -, hlive, -⟩ := packet_queues_are_lists (fun _ : Fin 2 => .pktIn) (fun _ : Nat => .pktIn)
    [.push 0 5, .after 0 none true, .pushFront 0 5, .push 0 6, .concatenate 1 1 0, .after 1 (some 5) true, .freePktin,
      .after 1 none false] (by decide) (show 8 < 9 by decide)
  exact ⟨s, hrun, hring (some 1), hlive (some 1) 5 (by decide)⟩

/-- With both operands the same queue, the contents are not there twice. -/
theorem concatenate_twice_keeps_once : ∃ s replies, PacketQueues.init.run (fun _ : Fin 1 => .pktIn) 3 [.push 0 7, .concatenate 0 0 0] =
      some (s, replies) ∧ Ring s.links (head (some 0)) ([7].map qnode) ∧ ¬ Ring s.links (head (some 0)) (([7] ++ [7]).map qnode) := by
  have hinit : Rep (fun _ : Fin 1 => .pktIn) (fun _ : Nat => .pktIn) Queues.init PacketQueues.init := rep_init
  obtain ⟨s, hrun, hr⟩ := hinit.run [.push 0 7, .concatenate 0 0 0] (by decide) (show 2 < 3 by decide)
  have hring : Ring s.links (head (some 0)) ([7].map qnode) := hr.holds.shape.ring (some 0)
  refine ⟨s, _, hrun, hring, fun h => ?_⟩
  have h1 : s.links.next (qnode 7) = some (head (some 0)) := (ring_cons.mp hring).2.2.1
  have h2 : s.links.next (qnode 7) = some (qnode 7) := (List.isChain_cons_cons.mp (ring_cons.mp h).1).1.1
  rw [h1] at h2
  cases h2

end Putty.Sshcommon
