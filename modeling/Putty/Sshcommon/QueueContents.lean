/-
  Putty.Sshcommon.QueueContents — what packet queues contain.

  `Shape l c busy`: every queue, and the free queue, is a ring through the packets of its
  list in `c`, and a packet on no list has NULL links, `busy` packets apart (the one that
  is being moved, and freed ones). Taking a packet out and putting one in keep it
  (`Shape.unlink`, `Shape.link`), and every operation is made of these two, of the
  concatenation and of the callback that frees.
-/

import Putty.Sshcommon.PacketQueue

namespace Putty.Sshcommon

open Putty.Lib PacketQueueNode

variable {Q P : Type}

/-! ## Shapes -/

/-- No packet twice on a list or on two lists. -/
structure Apart (c : Option Q → List P) : Prop where
  nodup : ∀ h, (c h).Nodup
  home : ∀ h h' x, x ∈ c h → x ∈ c h' → h = h'

structure Shape (l : Links (PacketQueueNode Q P)) (c : Option Q → List P) (busy : P → Prop) : Prop where
  ring : ∀ h, Ring l (head h) ((c h).map qnode)
  loose : ∀ x, ¬busy x → (∀ h, x ∉ c h) → l.next (qnode x) = none ∧ l.prev (qnode x) = none

theorem ring_nodup (h : Option Q) {zs : List P} (hd : zs.Nodup) :
    (head h :: zs.map qnode : List (PacketQueueNode Q P)).Nodup :=
  List.nodup_cons.mpr ⟨by simp, hd.map fun _ _ he => by injection he⟩

/-- The nodes around a place in a queue. -/
def before (h : Option Q) (us : List P) : PacketQueueNode Q P := (us.map qnode).getLastD (head h)

def behind (h : Option Q) (vs : List P) : PacketQueueNode Q P := (vs.map qnode).headD (head h)

theorem before_cases (h : Option Q) (us : List P) : before h us = head h ∨ ∃ x ∈ us, before h us = qnode x := by
  have hm := getLastD_mem_cons (head h) (us.map (qnode (Q := Q)))
  rcases List.mem_cons.mp hm with hm | hm
  · exact .inl hm
  · obtain ⟨x, hx, he⟩ := List.mem_map.mp hm
    exact .inr ⟨x, hx, he.symm⟩

theorem behind_cases (h : Option Q) (vs : List P) : behind h vs = head h ∨ ∃ x ∈ vs, behind h vs = qnode x := by
  have hm := headD_mem_append (head h) (vs.map (qnode (Q := Q)))
  rcases List.mem_append.mp hm with hm | hm
  · obtain ⟨x, hx, he⟩ := List.mem_map.mp hm
    exact .inr ⟨x, hx, he.symm⟩
  · exact .inl (List.mem_singleton.mp hm)

section Moves

variable {l l' : Links (PacketQueueNode Q P)} {c : Option Q → List P} {busy : P → Prop} {h : Option Q} {x : P}
  {us vs : List P}

/-- The nodes of another queue are none of those around a place in this one. -/
theorem Apart.other (ha : Apart c) (hc : ∀ y ∈ us ++ vs, y ∈ c h) {h' : Option Q} (hne : h' ≠ h)
    {a : PacketQueueNode Q P} (hm : a ∈ head h' :: (c h').map qnode) : a ≠ before h us ∧ a ≠ behind h vs := by
  have key : ∀ b, (b = head h ∨ ∃ y ∈ us ++ vs, b = qnode y) → a ≠ b := by
    rintro b (rfl | ⟨y, hy, rfl⟩) rfl
    · simp [Ne.symm hne] at hm
    · obtain ⟨z, hz, he⟩ := List.mem_map.mp ((List.mem_cons.mp hm).resolve_left (by simp))
      injection he with he
      exact hne (ha.home _ _ z hz (he ▸ hc y hy))
  refine ⟨key _ ((before_cases h us).imp_right ?_), key _ ((behind_cases h vs).imp_right ?_)⟩
  · exact fun ⟨y, hy, he⟩ => ⟨y, List.mem_append_left vs hy, he⟩
  · exact fun ⟨y, hy, he⟩ => ⟨y, List.mem_append_right us hy, he⟩

/-- A packet on no list is none of them either. -/
theorem outside (hc : ∀ y ∈ us ++ vs, y ∈ c h) {y : P} (hy : ∀ h, y ∉ c h) :
    qnode y ≠ before h us ∧ qnode y ≠ behind h vs := by
  constructor
  · rcases before_cases h us with he | ⟨z, hz, he⟩ <;> rw [he]
    · simp
    · intro hyz
      injection hyz with hyz
      exact hy h (hyz ▸ hc z (List.mem_append_left vs hz))
  · rcases behind_cases h vs with he | ⟨z, hz, he⟩ <;> rw [he]
    · simp
    · intro hyz
      injection hyz with hyz
      exact hy h (hyz ▸ hc z (List.mem_append_right us hz))

theorem node_ne (hx : x ∉ c h) {a : PacketQueueNode Q P} (hm : a ∈ head h :: (c h).map qnode) : a ≠ qnode x := by
  rintro rfl
  obtain ⟨z, hz, he⟩ := List.mem_map.mp ((List.mem_cons.mp hm).resolve_left (by simp))
  injection he with he
  exact hx (he ▸ hz)

variable [DecidableEq Q]

theorem not_mem_of_update {zs : List P} {y : P} (hy : ∀ h', y ∉ Function.update c h zs h') (hz : y ∈ c h → y ∈ zs) :
    ∀ h', y ∉ c h' := by
  intro h' hm
  have hy' := hy h'
  by_cases hh : h' = h
  · subst hh
    rw [Function.update_self] at hy'
    exact hy' (hz hm)
  · rw [Function.update_of_ne hh] at hy'
    exact hy' hm

theorem Apart.remove (ha : Apart c) (hc : c h = us ++ x :: vs) :
    Apart (Function.update c h (us ++ vs)) ∧ ∀ h', x ∉ Function.update c h (us ++ vs) h' := by
  have hd := ha.nodup h
  rw [hc, List.nodup_middle, List.nodup_cons] at hd
  have hsub : ∀ h' y, y ∈ Function.update c h (us ++ vs) h' → y ∈ c h' := by
    intro h' y hy
    by_cases hh : h' = h
    · subst hh
      rw [Function.update_self] at hy
      rw [hc]
      simp at hy ⊢
      tauto
    · rwa [Function.update_of_ne hh] at hy
  refine ⟨⟨fun h' => ?_, fun h' h'' y hy hy' => ha.home h' h'' y (hsub _ _ hy) (hsub _ _ hy')⟩, fun h' hx => ?_⟩
  · by_cases hh : h' = h
    · subst hh
      rw [Function.update_self]
      exact hd.2
    · rw [Function.update_of_ne hh]
      exact ha.nodup h'
  · have hh : h' = h := ha.home h' h x (hsub _ _ hx) (by simp [hc])
    subst hh
    rw [Function.update_self] at hx
    exact hd.1 hx

theorem Apart.clear (ha : Apart c) : Apart (Function.update c h []) := by
  have hsub : ∀ h' y, y ∈ Function.update c h [] h' → y ∈ c h' := by
    intro h' y hy
    by_cases hh : h' = h
    · subst hh
      rw [Function.update_self] at hy
      cases hy
    · rwa [Function.update_of_ne hh] at hy
  refine ⟨fun h' => ?_, fun h' h'' y hy hy' => ha.home h' h'' y (hsub _ _ hy) (hsub _ _ hy')⟩
  by_cases hh : h' = h
  · subst hh
    rw [Function.update_self]
    exact List.nodup_nil
  · rw [Function.update_of_ne hh]
    exact ha.nodup h'

theorem Apart.add (ha : Apart c) (hc : c h = us ++ vs) (hx : ∀ h, x ∉ c h) :
    Apart (Function.update c h (us ++ x :: vs)) := by
  have hmem : ∀ h' y, y ∈ Function.update c h (us ++ x :: vs) h' → y ∈ c h' ∨ y = x ∧ h' = h := by
    intro h' y hy
    by_cases hh : h' = h
    · subst hh
      rw [Function.update_self] at hy
      rw [hc]
      simp at hy ⊢
      tauto
    · rw [Function.update_of_ne hh] at hy
      exact .inl hy
  refine ⟨fun h' => ?_, fun h' h'' y hy hy' => ?_⟩
  · by_cases hh : h' = h
    · subst hh
      rw [Function.update_self, List.nodup_middle, List.nodup_cons, ← hc]
      exact ⟨hx h', ha.nodup h'⟩
    · rw [Function.update_of_ne hh]
      exact ha.nodup h'
  · rcases hmem _ _ hy with h1 | ⟨rfl, rfl⟩ <;> rcases hmem _ _ hy' with h2 | ⟨h2, h3⟩
    · exact ha.home h' h'' y h1 h2
    · exact absurd (h2 ▸ h1) (hx h')
    · exact absurd h2 (hx h'')
    · exact h3.symm

theorem Shape.unlink (hs : Shape l c busy) (ha : Apart c) (hc : c h = us ++ x :: vs)
    (hpn : l'.next (before h us) = some (behind h vs)) (hnp : l'.prev (behind h vs) = some (before h us))
    (hn : ∀ a, a ≠ qnode x → a ≠ before h us → l'.next a = l.next a)
    (hp : ∀ a, a ≠ qnode x → a ≠ behind h vs → l'.prev a = l.prev a) :
    Shape l' (Function.update c h (us ++ vs)) (fun y => busy y ∨ y = x) := by
  have hmem : ∀ y ∈ us ++ vs, y ∈ c h := fun y hy => by
    rw [hc]
    rcases List.mem_append.mp hy with hy | hy
    · exact List.mem_append_left _ hy
    · exact List.mem_append_right _ (List.mem_cons_of_mem x hy)
  have hxh : x ∈ c h := by simp [hc]
  constructor
  · intro h'
    by_cases hh : h' = h
    · subst hh
      rw [Function.update_self, List.map_append]
      apply Ring.unlink (x := qnode x) _ _ hpn hnp hn hp
      · have := hs.ring h'
        rwa [hc, List.map_append, List.map_cons] at this
      · have := ring_nodup h' (ha.nodup h')
        rwa [hc, List.map_append, List.map_cons] at this
    · rw [Function.update_of_ne hh]
      have hx : x ∉ c h' := fun hm => hh (ha.home _ _ x hm hxh)
      refine (hs.ring h').frame (fun a hm => hn a (node_ne hx hm) ?_) (fun a hm => hp a (node_ne hx hm) ?_)
      · exact (ha.other hmem hh hm).1
      · exact (ha.other hmem hh hm).2
  · intro y hb hy
    obtain ⟨hb, hyx⟩ := not_or.mp hb
    have hy' : ∀ h', y ∉ c h' := not_mem_of_update hy fun hm => by
      rw [hc] at hm
      simp at hm ⊢
      tauto
    have hout := outside hmem hy'
    have hyq : (qnode y : PacketQueueNode Q P) ≠ qnode x := fun he => hyx (by injection he)
    rw [hn _ hyq hout.1, hp _ hyq hout.2]
    exact hs.loose y hb hy'

theorem Shape.link (hs : Shape l c (fun y => busy y ∨ y = x)) (ha : Apart c) (hc : c h = us ++ vs)
    (hx : ∀ h, x ∉ c h) (hxn : l'.next (qnode x) = some (behind h vs)) (hxp : l'.prev (qnode x) = some (before h us))
    (hpn : l'.next (before h us) = some (qnode x)) (hnp : l'.prev (behind h vs) = some (qnode x))
    (hn : ∀ a, a ≠ qnode x → a ≠ before h us → l'.next a = l.next a)
    (hp : ∀ a, a ≠ qnode x → a ≠ behind h vs → l'.prev a = l.prev a) :
    Shape l' (Function.update c h (us ++ x :: vs)) busy := by
  have hmem : ∀ y ∈ us ++ vs, y ∈ c h := fun y hy => hc ▸ hy
  constructor
  · intro h'
    by_cases hh : h' = h
    · subst hh
      rw [Function.update_self, List.map_append, List.map_cons]
      apply Ring.insert (l := l) _ _ _ hxn hxp hpn hnp hn hp
      · have := hs.ring h'
        rwa [hc, List.map_append] at this
      · have := ring_nodup h' (ha.nodup h')
        rwa [hc, List.map_append] at this
      · intro hm
        rw [← List.map_append, ← hc] at hm
        exact node_ne (hx h') hm rfl
    · rw [Function.update_of_ne hh]
      refine (hs.ring h').frame (fun a hm => hn a (node_ne (hx h') hm) ?_) (fun a hm => hp a (node_ne (hx h') hm) ?_)
      · exact (ha.other hmem hh hm).1
      · exact (ha.other hmem hh hm).2
  · intro y hb hy
    have hyx : y ≠ x := by
      rintro rfl
      have := hy h
      rw [Function.update_self] at this
      simp at this
    have hy' : ∀ h', y ∉ c h' := not_mem_of_update hy fun hm => by
      rw [hc] at hm
      simp at hm ⊢
      tauto
    have hout := outside hmem hy'
    have hyq : (qnode y : PacketQueueNode Q P) ≠ qnode x := fun he => hyx (by injection he)
    rw [hn _ hyq hout.1, hp _ hyq hout.2]
    exact hs.loose y (by tauto) hy'

end Moves

theorem Shape.mono {l : Links (PacketQueueNode Q P)} {c : Option Q → List P} {busy busy' : P → Prop}
    (hs : Shape l c busy) (hb : ∀ x, busy x → busy' x) : Shape l c busy' :=
  ⟨hs.ring, fun x hx hc => hs.loose x (fun h => hx (hb x h)) hc⟩

/-- A packet on no list, with NULL links, needs no exception. -/
theorem Shape.settle {l l' : Links (PacketQueueNode Q P)} {c : Option Q → List P} {busy : P → Prop} {x : P}
    (hs : Shape l c (fun y => busy y ∨ y = x)) (hx : ∀ h, x ∉ c h) (hxn : l'.next (qnode x) = none)
    (hxp : l'.prev (qnode x) = none) (hn : ∀ a, a ≠ qnode x → l'.next a = l.next a)
    (hp : ∀ a, a ≠ qnode x → l'.prev a = l.prev a) : Shape l' c busy := by
  constructor
  · intro h
    exact (hs.ring h).frame (fun a hm => hn a (node_ne (hx h) hm)) (fun a hm => hp a (node_ne (hx h) hm))
  · intro y hb hy
    by_cases hyx : y = x
    · subst hyx
      exact ⟨hxn, hxp⟩
    · have hyq : (qnode y : PacketQueueNode Q P) ≠ qnode x := fun he => hyx (by injection he)
      rw [hn _ hyq, hp _ hyq]
      exact hs.loose y (by tauto) hy

/-! ## Running the code -/

namespace PacketQueues

variable {s : PacketQueues Q P} {a x p n : PacketQueueNode Q P}

@[simp] theorem alive_links (l : Links (PacketQueueNode Q P)) : ({ s with links := l }).alive a = s.alive a := by
  cases a <;> rfl

theorem next_some (h : s.alive a = true) : s.next (some a) = some (s.links.next a) := if_pos h

theorem prev_some (h : s.alive a = true) : s.prev (some a) = some (s.links.prev a) := if_pos h

theorem alive_before {h : Option Q} {us : List P} (hu : ∀ y ∈ us, s.freed y = false) :
    s.alive (before h us) = true := by
  rcases before_cases h us with he | ⟨y, hy, he⟩
  · rw [he]
    rfl
  · rw [he]
    simp [alive, hu y hy]

theorem alive_behind {h : Option Q} {vs : List P} (hv : ∀ y ∈ vs, s.freed y = false) :
    s.alive (behind h vs) = true := by
  rcases behind_cases h vs with he | ⟨y, hy, he⟩
  · rw [he]
    rfl
  · rw [he]
    simp [alive, hv y hy]

variable [DecidableEq Q] [DecidableEq P]

theorem setNext_some (h : s.alive a = true) (v : Option (PacketQueueNode Q P)) :
    s.setNext (some a) v = some { s with links := s.links.setNext a v } := if_pos h

theorem setPrev_some (h : s.alive a = true) (v : Option (PacketQueueNode Q P)) :
    s.setPrev (some a) v = some { s with links := s.links.setPrev a v } := if_pos h

/-- The links around a node taken out between `p` and `n`. -/
def unlinked (l : Links (PacketQueueNode Q P)) (p n : PacketQueueNode Q P) : Links (PacketQueueNode Q P) :=
  (l.setPrev n (some p)).setNext p (some n)

theorem unlinkNode_eq (hx : s.alive x = true) (hp : s.alive p = true) (hn : s.alive n = true)
    (hxn : s.links.next x = some n) (hxp : s.links.prev x = some p) (hne : x ≠ n) :
    s.unlinkNode (some x) = some { s with links := unlinked s.links p n } := by
  unfold unlinkNode
  simp [next_some, prev_some, setNext_some, setPrev_some, hx, hp, hn, hxn, hxp, Links.setPrev_prev, hne, unlinked]

theorem linkNode_eq (hx : s.alive x = true) (hp : s.alive p = true) (hn : s.alive n = true)
    (hxn : s.links.next x = some n) (hxp : s.links.prev x = some p) (hne : x ≠ n) :
    s.linkNode (some x) = some { s with links := (s.links.setPrev n (some x)).setNext p (some x) } := by
  unfold linkNode
  simp [next_some, prev_some, setNext_some, setPrev_some, hx, hp, hn, hxn, hxp, Links.setPrev_prev, hne]

end PacketQueues

open PacketQueues

/-- `c` is what the queues contain; the packets in `busy` are being moved. -/
structure Holds (s : PacketQueues Q P) (c : Option Q → List P) (busy : P → Prop) : Prop where
  shape : Shape s.links c (fun x => s.freed x = true ∨ busy x)
  apart : Apart c
  live : ∀ h, ∀ x ∈ c h, s.freed x = false

variable {s : PacketQueues Q P} {c : Option Q → List P} {busy : P → Prop} {h : Option Q} {x : P} {us vs : List P}

theorem Holds.alive (hh : Holds s c busy) (hx : x ∈ c h) : s.alive (qnode x) = true := by
  simp [PacketQueues.alive, hh.live h x hx]

/-- The links of the packet that is being moved may change. -/
theorem Holds.aim (hh : Holds s c (fun y => busy y ∨ y = x)) (hx : ∀ h, x ∉ c h) {l : Links (PacketQueueNode Q P)}
    (hn : ∀ a, a ≠ qnode x → l.next a = s.links.next a) (hp : ∀ a, a ≠ qnode x → l.prev a = s.links.prev a) :
    Holds { s with links := l } c (fun y => busy y ∨ y = x) := by
  refine ⟨⟨fun h => ?_, fun y hb hy => ?_⟩, hh.apart, hh.live⟩
  · exact (hh.shape.ring h).frame (fun a hm => hn a (node_ne (hx h) hm)) (fun a hm => hp a (node_ne (hx h) hm))
  · have hyq : (qnode y : PacketQueueNode Q P) ≠ qnode x := fun he => hb (.inr (.inr (by injection he)))
    rw [hn _ hyq, hp _ hyq]
    exact hh.shape.loose y hb hy

variable [DecidableEq Q] [DecidableEq P]

theorem Holds.unlinkNode (hh : Holds s c busy) (hc : c h = us ++ x :: vs) :
    ∃ l, s.unlinkNode (some (qnode x)) = some { s with links := l } ∧
      Holds { s with links := l } (Function.update c h (us ++ vs)) (fun y => busy y ∨ y = x) := by
  have hu : ∀ y ∈ us, s.freed y = false := fun y hy => hh.live h y (by simp [hc, hy])
  have hv : ∀ y ∈ vs, s.freed y = false := fun y hy => hh.live h y (by simp [hc, hy])
  have hd := hh.apart.nodup h
  rw [hc, List.nodup_middle, List.nodup_cons] at hd
  have hring := hh.shape.ring h
  rw [hc, List.map_append, List.map_cons] at hring
  obtain ⟨-, -, h1, h2⟩ := ring_node.mp hring
  have hxn : (qnode x : PacketQueueNode Q P) ≠ behind h vs := by
    rcases behind_cases h vs with he | ⟨y, hy, he⟩ <;> rw [he]
    · simp
    · intro hxy
      injection hxy with hxy
      exact hd.1 (by simp [hxy, hy])
  obtain ⟨hrem, hout⟩ := hh.apart.remove hc
  refine ⟨_, unlinkNode_eq (hh.alive (h := h) (by simp [hc])) (alive_before hu) (alive_behind hv) h2.1 h1.2 hxn, ?_⟩
  constructor
  · refine (hh.shape.unlink hh.apart hc ?_ ?_ ?_ ?_).mono fun y hy => or_assoc.mp hy
    · rw [unlinked, Links.setNext_next, if_pos rfl]
    · rw [unlinked, Links.setNext_prev, Links.setPrev_prev, if_pos rfl]
    · intro a _ ha
      rw [unlinked, Links.setNext_next, if_neg ha, Links.setPrev_next]
    · intro a _ ha
      rw [unlinked, Links.setNext_prev, Links.setPrev_prev, if_neg ha]
  · exact hrem
  · intro h' y hy
    by_cases hh' : h' = h
    · subst hh'
      rw [Function.update_self] at hy
      exact hh.live h' y (by rw [hc]; simp at hy ⊢; tauto)
    · rw [Function.update_of_ne hh'] at hy
      exact hh.live h' y hy

theorem Holds.linkNode (hh : Holds s c (fun y => busy y ∨ y = x)) (hc : c h = us ++ vs) (hx : ∀ h, x ∉ c h)
    (hf : s.freed x = false) (hxn : s.links.next (qnode x) = some (behind h vs))
    (hxp : s.links.prev (qnode x) = some (before h us)) :
    ∃ l, s.linkNode (some (qnode x)) = some { s with links := l } ∧
      Holds { s with links := l } (Function.update c h (us ++ x :: vs)) busy := by
  have hu : ∀ y ∈ us, s.freed y = false := fun y hy => hh.live h y (by simp [hc, hy])
  have hv : ∀ y ∈ vs, s.freed y = false := fun y hy => hh.live h y (by simp [hc, hy])
  obtain ⟨hxb, hxn'⟩ : qnode x ≠ before h us ∧ qnode x ≠ behind h vs := outside (fun y hy => hc ▸ hy) hx
  have hal : s.alive (qnode x) = true := by simp [PacketQueues.alive, hf]
  refine ⟨_, linkNode_eq hal (alive_before hu) (alive_behind hv) hxn hxp hxn', ?_, hh.apart.add hc hx, ?_⟩
  · apply (hh.shape.mono fun y hy => or_assoc.mpr hy).link hh.apart hc hx
    · rw [Links.setNext_next, if_neg hxb, Links.setPrev_next, hxn]
    · rw [Links.setNext_prev, Links.setPrev_prev, if_neg hxn', hxp]
    · rw [Links.setNext_next, if_pos rfl]
    · rw [Links.setNext_prev, Links.setPrev_prev, if_pos rfl]
    · intro a _ ha
      rw [Links.setNext_next, if_neg ha, Links.setPrev_next]
    · intro a _ ha
      rw [Links.setNext_prev, Links.setPrev_prev, if_neg ha]
  · intro h' y hy
    by_cases hh' : h' = h
    · subst hh'
      rw [Function.update_self] at hy
      rcases List.mem_append.mp hy with hy | hy
      · exact hu y hy
      · rcases List.mem_cons.mp hy with rfl | hy
        · exact hf
        · exact hv y hy
    · rw [Function.update_of_ne hh'] at hy
      exact hh.live h' y hy

/-- Behind the last packet: the end of pushing, and of popping into the free queue. -/
theorem Holds.linkLast (hh : Holds s c (fun y => busy y ∨ y = x)) (hx : ∀ h, x ∉ c h) (hf : s.freed x = false) (h : Option Q) :
    ∃ l, ((s.setNext (some (qnode x)) (some (head h))).bind fun s => (s.prev (some (head h))).bind fun p =>
        (s.setPrev (some (qnode x)) p).bind fun s => s.linkNode (some (qnode x))) = some { s with links := l } ∧
      Holds { s with links := l } (Function.update c h (c h ++ [x])) busy := by
  have hal : s.alive (qnode x) = true := by simp [PacketQueues.alive, hf]
  have hprev := (hh.shape.ring h).last
  let l := (s.links.setNext (qnode x) (some (head h))).setPrev (qnode x) (s.links.prev (head h))
  have haim : Holds { s with links := l } c (fun y => busy y ∨ y = x) := by
    apply hh.aim hx
    · intro a ha
      rw [Links.setPrev_next, Links.setNext_next, if_neg ha]
    · intro a ha
      rw [Links.setPrev_prev, if_neg ha, Links.setNext_prev]
  obtain ⟨l', hl', hh'⟩ := haim.linkNode (show c h = c h ++ [] from (List.append_nil _).symm) hx hf
    (by rw [Links.setPrev_next, Links.setNext_next, if_pos rfl]; rfl)
    (by rw [Links.setPrev_prev, if_pos rfl]; exact hprev)
  refine ⟨l', ?_, hh'⟩
  rw [setNext_some hal, Option.bind_some, prev_some rfl, Option.bind_some, setPrev_some (by rw [alive_links]; exact hal),
    Option.bind_some]
  exact hl'

theorem Holds.linkFirst (hh : Holds s c (fun y => busy y ∨ y = x)) (hx : ∀ h, x ∉ c h) (hf : s.freed x = false) (h : Option Q) :
    ∃ l, ((s.setPrev (some (qnode x)) (some (head h))).bind fun s => (s.next (some (head h))).bind fun n =>
        (s.setNext (some (qnode x)) n).bind fun s => s.linkNode (some (qnode x))) = some { s with links := l } ∧
      Holds { s with links := l } (Function.update c h (x :: c h)) busy := by
  have hal : s.alive (qnode x) = true := by simp [PacketQueues.alive, hf]
  have hnext := (hh.shape.ring h).first
  let l := (s.links.setPrev (qnode x) (some (head h))).setNext (qnode x) (s.links.next (head h))
  have haim : Holds { s with links := l } c (fun y => busy y ∨ y = x) := by
    apply hh.aim hx
    · intro a ha
      rw [Links.setNext_next, if_neg ha, Links.setPrev_next]
    · intro a ha
      rw [Links.setNext_prev, Links.setPrev_prev, if_neg ha]
  obtain ⟨l', hl', hh'⟩ := haim.linkNode (show c h = [] ++ c h from rfl) hx hf
    (by rw [Links.setNext_next, if_pos rfl]; exact hnext)
    (by rw [Links.setNext_prev, Links.setPrev_prev, if_pos rfl]; rfl)
  refine ⟨l', ?_, hh'⟩
  rw [setPrev_some hal, Option.bind_some, next_some rfl, Option.bind_some, setNext_some (by rw [alive_links]; exact hal),
    Option.bind_some]
  exact hl'

end Putty.Sshcommon
