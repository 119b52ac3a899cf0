/-
  Putty.Tree.OutOfRange — addpos234 with a position outside the tree.

  A negative position is refused before anything is done. Any other goes into the first
  loop of add234_internal, which compares it with the counts of the kids: the kids a
  node does not have count 0, so a node with fewer than three elements has a place for
  positions just beyond its last kid, and the element goes in there. A leaf takes the
  position for the slot without comparing it with anything, and an empty tree does not
  look at it.

  Proved: such a call returns NULL and leaves the tree alone exactly when the position is
  negative, or the root has kids and the position is beyond the places they leave
  (`addpos234_refuses_iff`).
-/

import Putty.Tree.Find

namespace Putty.Tree

open Putty.Lib

variable {E : Type}

/-- The root has kids. -/
def InternalRoot (t : Tree234 E) (n : Node E) : Prop := ∃ r, t.root = some r ∧ t.node r = some n ∧ n.kid 0 ≠ none

/-- Beyond the last element of a node, each kid it lacks is a place for one position more. -/
theorem slotAt_beyond {d : Nat} (par : Ptr) (b : Sub E (d + 1)) {index : Int} (hi : b.size < index) :
    ((b.record par).slotAt index = none ↔ b.size + (3 - b.rest.length) < index) ∧
      ∀ i index', (b.record par).slotAt index = some (i, index') → b.rest.length < i ∧ i ≤ 3 := by
  revert hi
  refine Branch.cases (P := fun b : Branch E (Sub E d) => Sub.size (d := d + 1) b < index →
    ((Sub.record par b).slotAt index = none ↔ Sub.size (d := d + 1) b + (3 - b.rest.length) < index) ∧
      ∀ i index', (Sub.record par b).slotAt index = some (i, index') → b.rest.length < i ∧ i ≤ 3) b ?_ ?_ ?_
  · intro a k0 e0 k1 h h'
    have hsize : Sub.size (d := d + 1) (Branch.mk a k0 [(e0, k1)] h h') = k0.size + (k1.size + 1) := by
      simp [Sub.size, Sub.contents]
    rw [hsize]
    intro hi
    have h0 := k0.size_nonneg
    have h1 := k1.size_nonneg
    simp only [Node.slotAt, Sub.record, nodeOf, Node.count, List.map_cons, List.map_nil, List.takeD_succ,
      List.takeD_zero, List.tail_cons, List.tail_nil, List.getD_cons_zero, List.getD_cons_succ]
    grind
  · intro a k0 e0 k1 e1 k2 h h'
    have hsize : Sub.size (d := d + 1) (Branch.mk a k0 [(e0, k1), (e1, k2)] h h') = k0.size + (k1.size + (k2.size + 1) + 1) := by
      simp [Sub.size, Sub.contents]
    rw [hsize]
    intro hi
    have h0 := k0.size_nonneg
    have h1 := k1.size_nonneg
    have h2 := k2.size_nonneg
    simp only [Node.slotAt, Sub.record, nodeOf, Node.count, List.map_cons, List.map_nil, List.takeD_succ,
      List.takeD_zero, List.tail_cons, List.tail_nil, List.getD_cons_zero, List.getD_cons_succ]
    grind
  · intro a k0 e0 k1 e1 k2 e2 k3 h h'
    have hsize : Sub.size (d := d + 1) (Branch.mk a k0 [(e0, k1), (e1, k2), (e2, k3)] h h') =
        k0.size + (k1.size + (k2.size + (k3.size + 1) + 1) + 1) := by
      simp [Sub.size, Sub.contents]
    rw [hsize]
    intro hi
    have h0 := k0.size_nonneg
    have h1 := k1.size_nonneg
    have h2 := k2.size_nonneg
    have h3 := k3.size_nonneg
    simp only [Node.slotAt, Sub.record, nodeOf, Node.count, List.map_cons, List.map_nil, List.takeD_succ,
      List.takeD_zero, List.tail_cons, List.getD_cons_zero, List.getD_cons_succ]
    grind

theorem record_kid_none {d : Nat} (par : Ptr) (b : Sub E (d + 1)) {i : Nat} (hi : b.rest.length < i) (h3 : i ≤ 3) :
    (b.record par).kid i = none := by
  revert hi
  refine Branch.cases (P := fun b : Branch E (Sub E d) => b.rest.length < i → (Sub.record par b).kid i = none) b ?_ ?_ ?_
  · intro a k0 e0 k1 h h' hi
    obtain rfl | rfl : i = 2 ∨ i = 3 := by simp only [List.length_cons, List.length_nil] at hi; omega
    · rfl
    · rfl
  · intro a k0 e0 k1 e1 k2 h h' hi
    obtain rfl : i = 3 := by simp only [List.length_cons, List.length_nil] at hi; omega
    rfl
  · intro a k0 e0 k1 e1 k2 e2 k3 h h' hi
    simp only [List.length_cons, List.length_nil] at hi
    omega

theorem leaf_kid_none (par : Ptr) (b : Sub E 1) {i : Nat} (hi : i ≤ 3) : (b.record par).kid i = none := by
  refine Branch.cases (P := fun b : Branch E (Sub E 0) => (Sub.record par b).kid i = none) b ?_ ?_ ?_ <;> intros <;>
    obtain rfl | rfl | rfl | rfl : i = 0 ∨ i = 1 ∨ i = 2 ∨ i = 3 := by omega
  all_goals rfl

variable {t : Tree234 E} {C : Multiset (Nat × Node E)}

/-- The first loop refuses, at a root with kids, what is beyond the places they leave, and ends there otherwise. -/
theorem descend_internal {d : Nat} {b : Sub E (d + 2)} (h : Owns t.heap (b.cells none + C)) (e : E) {index : Int} (h0 : 0 ≤ index)
    (hi : b.size < index) (fuel : Nat) :
    t.descend e (fuel + 1) b.addr index = some .outOfRange ∧ b.size + (3 - b.rest.length) < index ∨
      (∃ i, t.descend e (fuel + 1) b.addr index = some (.slot b.addr i)) ∧ ¬ b.size + (3 - b.rest.length) < index := by
  have h1 : Owns t.heap ({(b.addr, b.record none)} + ((b.first.cells (some b.addr) +
      (b.rest.map fun x => x.2.cells (some b.addr)).sum) + C)) := h.of_eq (add_assoc _ _ _)
  have hkid : ((b.record none).kid 0).isNone = false := rfl
  have hturn : t.turnFor e (b.record none) index = some (((b.record none).slotAt index).map .inr) := by
    unfold Tree234.turnFor
    rw [if_pos h0, hkid]
    rfl
  obtain ⟨hnone, hslot⟩ := slotAt_beyond none b hi
  cases hs : (b.record none).slotAt index with
  | none =>
    left
    refine ⟨?_, hnone.mp hs⟩
    unfold Tree234.descend
    simp only [node_eq h1, hturn, hs, Option.bind_eq_bind, Option.bind_some, Option.map_none]
  | some x =>
    obtain ⟨i, index'⟩ := x
    right
    obtain ⟨hlt, hle⟩ := hslot i index' hs
    refine ⟨⟨i, ?_⟩, ?_⟩
    · unfold Tree234.descend
      simp only [node_eq h1, hturn, hs, Option.bind_eq_bind, Option.bind_some, Option.map_some,
        record_kid_none none b hlt hle]
      rw [if_neg (by omega)]
    · intro hbig
      rw [hnone.mpr hbig] at hs
      cases hs

/-- A leaf takes the position for the slot. -/
theorem descend_leaf {b : Sub E 1} (h : Owns t.heap (b.cells none + C)) (e : E) {index : Int} (h0 : 0 ≤ index) (fuel : Nat) :
    t.descend e (fuel + 1) b.addr index = none ∨ ∃ i, t.descend e (fuel + 1) b.addr index = some (.slot b.addr i) := by
  have h1 : Owns t.heap ({(b.addr, b.record none)} + ((b.first.cells (some b.addr) +
      (b.rest.map fun x => x.2.cells (some b.addr)).sum) + C)) := h.of_eq (add_assoc _ _ _)
  have hturn : t.turnFor e (b.record none) index = some (some (.inr (index.toNat, index))) := by
    unfold Tree234.turnFor
    rw [if_pos h0, leaf_kid_none none b (by omega)]
    rfl
  unfold Tree234.descend
  simp only [node_eq h1, hturn, Option.bind_eq_bind, Option.bind_some]
  by_cases hi : index.toNat > 3
  · left
    rw [if_pos hi]
  · right
    rw [if_neg hi, leaf_kid_none none b (by omega)]
    exact ⟨_, rfl⟩

/-- An insertion answers with the element, not with NULL. -/
theorem insertion_ne (o : Option (Tree234 E)) (e : E) : (o.bind fun t => some (t, some e)) ≠ some (t, none) := by
  cases o with
  | none =>
    intro h
    cases h
  | some t' =>
    intro h
    cases h

/-- A position outside the tree is refused, and the tree left alone, exactly when it is negative or the
    root has kids and it is beyond the places that they leave. -/
theorem addpos234_refuses_iff {l : List E} (h : Rep t l) (hcmp : t.cmp = none) (e : E) {index : Int}
    (hout : index < 0 ∨ l.length < index) :
    t.addpos234 e index = some (t, none) ↔
      index < 0 ∨ ∃ n, InternalRoot t n ∧ (l.length : Int) + (3 - n.elements234) < index := by
  unfold Tree234.addpos234
  rw [hcmp]
  by_cases hneg : index < 0
  · rw [if_pos (.inl hneg)]
    exact ⟨fun _ => .inl hneg, fun _ => rfl⟩
  have h0 : 0 ≤ index := by omega
  have hlen : (l.length : Int) < index := by omega
  rw [if_neg (by simp [hneg])]
  have hpos : ∀ {P : Prop}, index < 0 ∨ P ↔ P := by
    intro P
    constructor
    · intro hp
      exact hp.resolve_left hneg
    · exact Or.inr
  rw [hpos]
  obtain ⟨d, T, hroot, hO, rfl⟩ := h
  have hO' : Owns t.heap (T.cells none + 0) := hO.of_eq (add_zero _).symm
  match d, T, hroot, hO', hlen with
  | 0, T, hroot, hO', hlen =>
    -- an empty tree
    have hroot : t.root = none := hroot
    unfold Tree234.add234Internal
    rw [hroot]
    constructor
    · intro hno
      have hsnd := congrArg (Option.map Prod.snd) hno
      cases hsnd
    · intro hno
      obtain ⟨n, ⟨r, hr, -⟩, -⟩ := hno
      rw [hroot] at hr
      cases hr
  | 1, T, hroot, hO', hlen =>
    have hroot : t.root = some T.addr := hroot
    have hnode : t.node T.addr = some (T.record none) := node_eq (C := _ + 0) (hO'.of_eq (add_assoc _ _ _))
    unfold Tree234.add234Internal
    rw [hroot]
    constructor
    · intro hno
      exfalso
      rcases descend_leaf hO' e h0 t.heap.brk with hd | ⟨i, hd⟩
      · simp only [hd, Option.bind_eq_bind, Option.bind_none] at hno
        cases hno
      · simp only [hd, Option.bind_eq_bind, Option.bind_some] at hno
        exact insertion_ne _ e hno
    · intro hno
      obtain ⟨n, ⟨r, hr, hn, hkid⟩, -⟩ := hno
      rw [hroot] at hr
      cases hr
      rw [hnode] at hn
      cases hn
      exact absurd (leaf_kid_none none T (by omega)) hkid
  | d + 2, T, hroot, hO', hlen =>
    have hroot : t.root = some T.addr := hroot
    have hnode : t.node T.addr = some (T.record none) := node_eq (C := _ + 0) (hO'.of_eq (add_assoc _ _ _))
    have hcond : (∃ n, InternalRoot t n ∧ ((Sub.contents T).length : Int) + (3 - n.elements234) < index) ↔
        T.size + (3 - T.rest.length) < index := by
      constructor
      · intro hno
        obtain ⟨n, ⟨r, hr, hn, -⟩, hlt⟩ := hno
        rw [hroot] at hr
        cases hr
        rw [hnode] at hn
        cases hn
        rw [T.elements234] at hlt
        exact hlt
      · intro hlt
        refine ⟨T.record none, ⟨T.addr, hroot, hnode, ?_⟩, by rw [T.elements234]; exact hlt⟩
        intro hkid
        cases hkid
    unfold Tree234.add234Internal
    rw [hcond, hroot]
    rcases descend_internal hO' e h0 hlen t.heap.brk with ⟨hd, hbig⟩ | ⟨⟨i, hd⟩, hsmall⟩
    · simp only [hd, Option.bind_eq_bind, Option.bind_some]
      exact ⟨fun _ => hbig, fun _ => trivial⟩
    · simp only [hd, Option.bind_eq_bind, Option.bind_some]
      exact ⟨fun hno => absurd hno (insertion_ne _ e), fun hbig => absurd hbig hsmall⟩

theorem addpos234_refuses_iff_leaf :
    (leafTree none [10, 11] (by simp) (by simp)).addpos234 12 3 = some (leafTree none [10, 11] (by simp) (by simp), none) ↔
      (3 : Int) < 0 ∨ ∃ n, InternalRoot (leafTree (E := Nat) none [10, 11] (by simp) (by simp)) n ∧
        (([10, 11] : List Nat).length : Int) + (3 - n.elements234) < 3 :=
  addpos234_refuses_iff (leafTree_rep none [10, 11] (by simp) (by simp)) rfl 12 (.inr (by decide))

/-- An empty tree takes an element at position 5. -/
theorem empty_takes_position_five :
    ¬ ∀ (t : Tree234 Nat) (l : List Nat), Rep t l → t.cmp = none → ∀ e (index : Int), index < 0 ∨ l.length < index →
      t.addpos234 e index = some (t, none) := by
  intro h
  have hno := h (Tree234.newtree234 none) [] (newtree234_rep none) rfl 1 5 (.inr (by decide))
  have hsnd := congrArg (Option.map Prod.snd) hno
  cases hsnd

end Putty.Tree
