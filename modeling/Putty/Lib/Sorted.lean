/-
  Putty.Lib.Sorted — adding to a list that a comparison function keeps in order.

  `cmp` answers a negative number, zero or a positive one, as C comparison functions
  do. An element that compares equal to one of the list is not added; the result says
  which element stands for it. `Ordered` is a list in order, as a tree of the comparison
  holds it.
-/

import Mathlib.Data.List.Nodup
import Mathlib.Data.List.Pairwise
import Mathlib.Logic.Function.Basic
import Mathlib.Tactic.Linarith

namespace Putty.Lib

variable {E : Type*} (cmp : E → E → Int)

def addSorted (e : E) : List E → E × List E
  | [] => (e, [e])
  | x :: xs =>
    if cmp e x < 0 then (e, e :: x :: xs)
    else if cmp e x = 0 then (x, x :: xs)
    else ((addSorted e xs).1, x :: (addSorted e xs).2)

/-- The list splits where the search stops: at an equal element, or before the first greater one. -/
theorem addSorted_cases (e : E) (xs : List E) :
    (∃ l x r, xs = l ++ x :: r ∧ (∀ y ∈ l, 0 < cmp e y) ∧ cmp e x = 0 ∧ addSorted cmp e xs = (x, xs)) ∨
      ∃ l r, xs = l ++ r ∧ (∀ y ∈ l, 0 < cmp e y) ∧ (∀ y ∈ r.head?, cmp e y < 0) ∧
        addSorted cmp e xs = (e, l ++ e :: r) := by
  induction xs with
  | nil => exact .inr ⟨[], [], rfl, by simp, by simp, rfl⟩
  | cons x xs ih =>
    by_cases hlt : cmp e x < 0
    · exact .inr ⟨[], x :: xs, rfl, by simp, by simpa using hlt, by simp [addSorted, hlt]⟩
    by_cases heq : cmp e x = 0
    · exact .inl ⟨[], x, xs, rfl, by simp, heq, by simp [addSorted, heq]⟩
    have hgt : 0 < cmp e x := by omega
    rcases ih with ⟨l, y, r, rfl, hl, hy, he⟩ | ⟨l, r, rfl, hl, hr, he⟩
    · refine .inl ⟨x :: l, y, r, rfl, ?_, hy, by simp [addSorted, hlt, heq, he]⟩
      intro z hz
      rcases List.mem_cons.mp hz with rfl | hz
      · exact hgt
      · exact hl z hz
    · refine .inr ⟨x :: l, r, rfl, ?_, hr, by simp [addSorted, hlt, heq, he]⟩
      intro z hz
      rcases List.mem_cons.mp hz with rfl | hz
      · exact hgt
      · exact hl z hz

/-! ## Lists in order -/

/-- The comparison is a strict order, up to the elements that compare equal. -/
class Comparison (cmp : E → E → Int) : Prop where
  swap : ∀ x y, cmp x y < 0 ↔ 0 < cmp y x
  trans : ∀ x y z, cmp x y < 0 → cmp y z < 0 → cmp x z < 0

theorem addSorted_pairwise {cmp : E → E → Int} [hc : Comparison cmp] (e : E) {xs : List E}
    (h : xs.Pairwise fun x y => cmp x y < 0) : (addSorted cmp e xs).2.Pairwise fun x y => cmp x y < 0 := by
  rcases addSorted_cases cmp e xs with ⟨l, x, r, -, -, -, he⟩ | ⟨l, r, rfl, hl, hr, he⟩
  · rw [he]
    exact h
  · rw [he]
    obtain ⟨hl', hr', hlr⟩ := List.pairwise_append.mp h
    have hlt : ∀ y ∈ l, cmp y e < 0 := fun y hy => (hc.swap y e).mpr (hl y hy)
    have hgt : ∀ y ∈ r, cmp e y < 0 := by
      cases r with
      | nil => exact fun y hy => absurd hy List.not_mem_nil
      | cons z r =>
        have hz : cmp e z < 0 := hr z rfl
        intro y hy
        rcases List.mem_cons.mp hy with rfl | hy
        · exact hz
        · exact hc.trans e z y hz (List.rel_of_pairwise_cons hr' hy)
    refine List.pairwise_append.mpr ⟨hl', List.pairwise_cons.mpr ⟨hgt, hr'⟩, fun y hy z hz => ?_⟩
    rcases List.mem_cons.mp hz with rfl | hz
    · exact hlt y hy
    · exact hlr y hy z hz

/-- A list that the comparison keeps in order: what a tree of it holds. -/
structure Ordered (cmp : E → E → Int) where
  list : List E
  sorted : list.Pairwise fun x y => cmp x y < 0

namespace Ordered

variable {cmp : E → E → Int}

def empty : Ordered cmp := ⟨[], List.Pairwise.nil⟩

/-- The element that `is` compares equal. -/
def find (t : Ordered cmp) (is : E → Int) : Option E := t.list.find? fun x => is x = 0

/-- `none` when an element compares equal already. -/
def add [Comparison cmp] (t : Ordered cmp) (e : E) : Option (Ordered cmp) :=
  if t.list.any fun x => cmp e x = 0 then none else some ⟨(addSorted cmp e t.list).2, addSorted_pairwise e t.sorted⟩

def del (t : Ordered cmp) (e : E) : Ordered cmp := ⟨t.list.filter fun x => cmp e x ≠ 0, t.sorted.filter _⟩

theorem mem_add [Comparison cmp] {t t' : Ordered cmp} {e : E} (h : t.add e = some t') (x : E) :
    x ∈ t'.list ↔ x = e ∨ x ∈ t.list := by
  unfold add at h
  split at h
  · cases h
  · next hno =>
    cases h
    rcases addSorted_cases cmp e t.list with ⟨l, y, r, hl, -, hy, -⟩ | ⟨l, r, hl, -, -, he⟩
    · refine absurd (List.any_eq_true.mpr ⟨y, ?_, decide_eq_true hy⟩) hno
      rw [hl]
      exact List.mem_append_right _ List.mem_cons_self
    · show x ∈ (addSorted cmp e t.list).2 ↔ _
      rw [he, hl]
      simp only [List.mem_append, List.mem_cons]
      tauto

theorem add_eq_none [Comparison cmp] {t : Ordered cmp} {e : E} : t.add e = none ↔ ∃ x ∈ t.list, cmp e x = 0 := by
  unfold add
  split
  · next h => exact ⟨fun _ => by simpa using h, fun _ => rfl⟩
  · next h => exact ⟨fun h' => (by cases h'), fun h' => absurd (by simpa using h') h⟩

theorem mem_del {t : Ordered cmp} {e x : E} : x ∈ (t.del e).list ↔ x ∈ t.list ∧ cmp e x ≠ 0 := by
  simp [del]

/-- Two elements of the list that compare equal are one. -/
theorem unique [hc : Comparison cmp] {t : Ordered cmp} {x y : E} (hx : x ∈ t.list) (hy : y ∈ t.list) (h : cmp x y = 0) : x = y := by
  by_contra hne
  have hsymm : Std.Symm fun x y => cmp x y ≠ 0 ∧ cmp y x ≠ 0 := ⟨fun _ _ h => ⟨h.2, h.1⟩⟩
  have hpair : t.list.Pairwise fun x y => cmp x y ≠ 0 ∧ cmp y x ≠ 0 := by
    refine t.sorted.imp fun {x y} hlt => ⟨?_, ?_⟩
    · omega
    · have := (hc.swap x y).mp hlt
      omega
  exact (hpair.forall hx hy hne).1 h

theorem nodup [hc : Comparison cmp] (t : Ordered cmp) : t.list.Nodup := by
  refine t.sorted.imp fun {x y} hlt heq => ?_
  have := (hc.swap x y).mp hlt
  rw [heq] at hlt this
  omega

theorem find_eq_some {t : Ordered cmp} {is : E → Int} {x : E} (h : t.find is = some x) : x ∈ t.list ∧ is x = 0 :=
  ⟨List.mem_of_find?_eq_some h, by simpa using List.find?_some h⟩

theorem find_eq_none {t : Ordered cmp} {is : E → Int} : t.find is = none ↔ ∀ x ∈ t.list, is x ≠ 0 := by
  simp [find]

/-! ### Looking up by a key

  Elements with one key compare equal, so the list is a map from keys to elements. -/

section Lookup

variable {κ : Type*} [DecidableEq κ] (key : E → κ)

def lookup (t : Ordered cmp) (k : κ) : Option E := t.list.find? fun x => key x = k

variable {key} [Comparison cmp] (hkey : ∀ x y, key x = key y → cmp x y = 0)
include hkey

theorem lookup_eq_some {t : Ordered cmp} {k : κ} {x : E} : t.lookup key k = some x ↔ x ∈ t.list ∧ key x = k := by
  constructor
  · intro h
    exact ⟨List.mem_of_find?_eq_some h, by simpa using List.find?_some h⟩
  · rintro ⟨hm, rfl⟩
    cases hf : t.lookup key (key x) with
    | none =>
      have hno := List.find?_eq_none.mp hf x hm
      rw [decide_eq_true rfl] at hno
      exact absurd rfl hno
    | some y =>
      have hk : key y = key x := by simpa using List.find?_some hf
      rw [unique (List.mem_of_find?_eq_some hf) hm (hkey _ _ hk)]

omit [DecidableEq κ] in
theorem keys_nodup (t : Ordered cmp) : (t.list.map key).Nodup :=
  List.Nodup.map_on (fun _ hx _ hy h => unique hx hy (hkey _ _ h)) t.nodup

theorem lookup_add {t t' : Ordered cmp} {e : E} (h : t.add e = some t') :
    t'.lookup key = Function.update (t.lookup key) (key e) (some e) := by
  have hno : ∀ x ∈ t.list, cmp e x ≠ 0 := by
    intro x hx h0
    rw [add_eq_none.mpr ⟨x, hx, h0⟩] at h
    cases h
  funext k
  refine Option.ext fun x => ?_
  rw [lookup_eq_some hkey, mem_add h]
  by_cases hk : k = key e
  · rw [hk, Function.update_self, Option.some.injEq]
    constructor
    · rintro ⟨hx | hx, hkx⟩
      · exact hx.symm
      · exact absurd (hkey _ _ hkx.symm) (hno x hx)
    · rintro rfl
      exact ⟨.inl rfl, rfl⟩
  · rw [Function.update_of_ne hk, lookup_eq_some hkey]
    constructor
    · rintro ⟨hx | hx, hkx⟩
      · exact absurd (hkx.symm.trans (congrArg key hx)) hk
      · exact ⟨hx, hkx⟩
    · rintro ⟨hx, hkx⟩
      exact ⟨.inr hx, hkx⟩

theorem lookup_del {t : Ordered cmp} {e : E} (he : e ∈ t.list) :
    (t.del e).lookup key = Function.update (t.lookup key) (key e) none := by
  funext k
  refine Option.ext fun x => ?_
  rw [lookup_eq_some hkey, mem_del]
  by_cases hk : k = key e
  · rw [hk, Function.update_self]
    constructor
    · rintro ⟨⟨-, hne⟩, hkx⟩
      exact absurd (hkey _ _ hkx.symm) hne
    · intro h
      cases h
  · rw [Function.update_of_ne hk, lookup_eq_some hkey]
    constructor
    · rintro ⟨⟨hx, -⟩, hkx⟩
      exact ⟨hx, hkx⟩
    · rintro ⟨hx, hkx⟩
      exact ⟨⟨hx, fun h0 => hk (hkx.symm.trans (congrArg key (unique he hx h0).symm))⟩, hkx⟩

end Lookup

end Ordered

/-! ## Distinct numbers in order -/

/-- Between two places of a strictly ascending list there is a number for each place. -/
theorem ascending_spread {α : Type*} {f : α → Nat} {l : List α} (h : l.Pairwise fun x y => f x < f y) {i j : Nat}
    (hij : i ≤ j) (hj : j < l.length) : f l[i] + (j - i) ≤ f l[j] := by
  induction j, hij using Nat.le_induction with
  | base => omega
  | succ j hij ih =>
    have hstep := List.pairwise_iff_getElem.mp h j (j + 1) (by omega) hj (Nat.lt_succ_self j)
    have := ih (by omega)
    omega

end Putty.Lib
