/-
  Putty.Lib.Owns — the cells of a heap that a structure is made of.

  `Owns h C`: the cells `C` are all live in `h`, with these contents and at distinct
  addresses. A sum `C + D` is two structures apart from each other, so what an
  operation on `C` does leaves `D` as it is: each rule below is stated for one cell
  beside the rest `C`.
-/

import Mathlib.Data.Multiset.AddSub
import Mathlib.Data.Multiset.MapFold
import Mathlib.Data.Multiset.UnionInter
import Mathlib.Tactic.Abel
import Putty.Lib.Heap

namespace Putty.Lib

variable {α : Type*}

structure Owns (h : Heap α) (C : Multiset (Nat × α)) : Prop where
  apart : (C.map Prod.fst).Nodup
  live : ∀ x ∈ C, h.cell x.1 = some x.2

variable {h : Heap α} {C D : Multiset (Nat × α)} {a : Nat} {v : α}

theorem Owns.of_eq (hO : Owns h C) (e : C = D) : Owns h D := e ▸ hO

theorem Owns.cell (hO : Owns h ({(a, v)} + C)) : h.cell a = some v := hO.live (a, v) (by simp)

theorem Owns.alloc (hO : Owns h C) (w : α) : Owns (h.alloc w) ({(h.brk, w)} + C) := by
  have hlt : ∀ x ∈ C, x.1 < h.brk := fun x hx => Heap.lt_brk (hO.live x hx)
  constructor
  · rw [Multiset.map_add, Multiset.map_singleton, Multiset.singleton_add, Multiset.nodup_cons]
    refine ⟨?_, hO.apart⟩
    intro hm
    obtain ⟨x, hx, e⟩ := Multiset.mem_map.mp hm
    have := hlt x hx
    omega
  · intro x hx
    rcases Multiset.mem_add.mp hx with hx | hx
    · rw [Multiset.mem_singleton.mp hx]
      exact Heap.alloc_same h w
    · exact Heap.alloc_live w (hO.live x hx)

/-- Fewer cells than the heap has handed out. -/
theorem Owns.card_le_brk (hO : Owns h C) : C.card ≤ h.brk := by
  obtain ⟨l, hl⟩ := Quot.exists_rep (C.map Prod.fst)
  have hnd : l.Nodup := by
    have := hO.apart
    rwa [← hl] at this
  have := Heap.length_le_brk (h := h) hnd fun b hb => by
    have hm : b ∈ C.map Prod.fst := by rw [← hl]; exact hb
    obtain ⟨x, hx, rfl⟩ := Multiset.mem_map.mp hm
    exact ⟨x.2, hO.live x hx⟩
  have hcard : (C.map Prod.fst).card = l.length := by rw [← hl]; rfl
  rw [Multiset.card_map] at hcard
  omega

end Putty.Lib
