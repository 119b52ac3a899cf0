/-
  Putty.Lib.Dlist — doubly linked lists that end in NULL.

  `Dlist l first xs`: from `first`, the next links lead through `xs` and end, and every prev
  link leads back the way the next link came. Such a list depends only on the links of its
  own nodes (`Dlist.frame`); the rules for putting a node in front (`Dlist.push`) and for
  taking the last one off (`Dlist.dropLast`) ask only which links the operation has changed.
-/

import Putty.Lib.Ring

namespace Putty.Lib

variable {A : Type}

structure Dlist (l : Links A) (first : Option A) (xs : List A) : Prop where
  first_eq : first = xs.head?
  links : xs.IsChain l.Adj
  front : ∀ a, xs.head? = some a → l.prev a = none
  back : ∀ a, xs.getLast? = some a → l.next a = none

namespace Dlist

variable {l l' : Links A} {first : Option A} {xs : List A} {x : A}

theorem nil (l : Links A) : Dlist l none [] where
  first_eq := rfl
  links := .nil
  front := by simp
  back := by simp

theorem frame (h : Dlist l first xs) (hn : ∀ a ∈ xs, l'.next a = l.next a) (hp : ∀ a ∈ xs, l'.prev a = l.prev a) :
    Dlist l' first xs :=
  ⟨h.first_eq, isChain_congr (fun a ha => hn a (List.dropLast_subset _ ha)) (fun a ha => hp a (List.mem_of_mem_tail ha)) h.links,
    fun a ha => (hp a (List.mem_of_head? ha)).trans (h.front a ha), fun a ha => (hn a (List.mem_of_getLast? ha)).trans (h.back a ha)⟩

/-- A new node in front. -/
theorem push (h : Dlist l first xs) (hx : x ∉ xs) (hd : xs.Nodup) (hxn : l'.next x = first) (hxp : l'.prev x = none)
    (hfirst : ∀ a, first = some a → l'.prev a = some x) (hn : ∀ a, a ≠ x → l'.next a = l.next a)
    (hp : ∀ a, a ≠ x → first ≠ some a → l'.prev a = l.prev a) : Dlist l' (some x) (x :: xs) := by
  have hne : ∀ a ∈ xs, a ≠ x := fun a ha he => hx (he ▸ ha)
  cases xs with
  | nil =>
    refine ⟨rfl, .singleton x, fun a ha => ?_, fun a ha => ?_⟩
    · obtain rfl := Option.some.inj ha
      exact hxp
    · obtain rfl : x = a := by simpa using ha
      exact hxn.trans h.first_eq
  | cons y ys =>
    have hy : first = some y := h.first_eq
    have hys := (List.nodup_cons.mp hd).1
    refine ⟨rfl, List.isChain_cons_cons.mpr ⟨⟨hxn.trans hy, hfirst y hy⟩, isChain_congr ?_ ?_ h.links⟩, fun a ha => ?_, fun a ha => ?_⟩
    · exact fun a ha => hn a (hne a (List.dropLast_subset _ ha))
    · intro a ha
      refine hp a (hne a (List.mem_of_mem_tail ha)) fun he => ?_
      obtain rfl : y = a := Option.some.inj (hy.symm.trans he)
      exact hys ha
    · obtain rfl := Option.some.inj ha
      exact hxp
    · rw [List.getLast?_cons_cons] at ha
      exact (hn a (hne a (List.mem_of_getLast? ha))).trans (h.back a ha)

/-- The prev link of the last node leads to the one before it. -/
theorem prev_last (h : Dlist l first (xs ++ [x])) : l.prev x = xs.getLast? := by
  rcases List.eq_nil_or_concat xs with rfl | ⟨ys, y, rfl⟩
  · exact h.front x rfl
  · have hc := h.links
    rw [List.concat_eq_append, List.append_assoc, List.isChain_append] at hc
    have hyx : ([y] ++ [x]).IsChain l.Adj := hc.2.1
    rw [List.concat_eq_append, List.getLast?_concat]
    exact (List.isChain_cons_cons.mp hyx).1.2

/-- The last node goes; its own links do not matter any more. -/
theorem dropLast (h : Dlist l first (xs ++ [x])) (hd : (xs ++ [x]).Nodup) {first' : Option A}
    (hfirst : first' = if xs = [] then none else first) (hlast : ∀ a, xs.getLast? = some a → l'.next a = none)
    (hn : ∀ a ∈ xs, xs.getLast? ≠ some a → l'.next a = l.next a) (hp : ∀ a ∈ xs, l'.prev a = l.prev a) : Dlist l' first' xs := by
  rcases List.eq_nil_or_concat xs with rfl | ⟨ys, y, rfl⟩
  · rw [hfirst, if_pos rfl]
    exact nil l'
  · rw [List.concat_eq_append] at *
    have hne : ys ++ [y] ≠ [] := by simp
    have hhead : (ys ++ [y] ++ [x]).head? = (ys ++ [y]).head? := by
      cases ys <;> rfl
    have hnodup : (ys ++ [y]).Nodup := (List.nodup_append.mp hd).1
    refine ⟨?_, isChain_congr ?_ ?_ (List.isChain_append.mp h.links).1, fun a ha => ?_, hlast⟩
    · rw [hfirst, if_neg hne, h.first_eq, hhead]
    · intro a ha
      rw [List.dropLast_concat] at ha
      refine hn a (List.mem_append_left _ ha) fun he => ?_
      rw [List.getLast?_concat] at he
      obtain rfl := Option.some.inj he
      exact (List.nodup_append.mp hnodup).2.2 y ha y (by simp) rfl
    · exact fun a ha => hp a (List.mem_of_mem_tail ha)
    · exact (hp a (List.mem_of_head? ha)).trans (h.front a (hhead ▸ ha))

end Dlist

end Putty.Lib
