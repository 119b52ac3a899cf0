/-
  Putty.Lib.Heap — a heap of cells of one type, and NULL-terminated chains in it.

  An address is a number, NULL is `none`. A cell that was never handed out, or was
  freed, holds nothing; following a pointer to it is a crash (`none`). `alloc` hands
  out an address that was never used, so two cells are never confused.

  `Seg next h p as q`: from `p`, following `next` through the cells `as` (each with
  its contents) leads to `q`.
-/

import Mathlib.Data.List.Perm.Subperm
import Mathlib.Data.List.Range
import Mathlib.Logic.Function.Basic

namespace Putty.Lib

/-- A pointer: NULL or an address. -/
abbrev Ptr := Option Nat

structure Heap (α : Type*) where
  cell : Nat → Option α
  /-- Every address from here on is unused. -/
  brk : Nat
  fresh : ∀ a, brk ≤ a → cell a = none

namespace Heap

variable {α : Type*}

def empty : Heap α := ⟨fun _ => none, 0, fun _ _ => rfl⟩

/-- Overwrite a cell; an address that was never handed out has none. -/
def put (h : Heap α) (a : Nat) (v : Option α) : Heap α :=
  if hb : a < h.brk then
    ⟨Function.update h.cell a v, h.brk, fun x hx => by
      rw [Function.update_of_ne (by omega)]; exact h.fresh x hx⟩
  else h

def alloc (h : Heap α) (v : α) : Heap α :=
  ⟨Function.update h.cell h.brk (some v), h.brk + 1, fun x hx => by
    rw [Function.update_of_ne (by omega)]; exact h.fresh x (by omega)⟩

/-- Write through a pointer: a crash when the cell is not live. -/
def modify (h : Heap α) (a : Nat) (f : α → α) : Option (Heap α) := (h.cell a).map fun v => h.put a (some (f v))

def free (h : Heap α) (a : Nat) : Option (Heap α) := (h.cell a).map fun _ => h.put a none

theorem lt_brk {h : Heap α} {a : Nat} {v : α} (hv : h.cell a = some v) : a < h.brk := by
  by_contra hn
  rw [h.fresh a (by omega)] at hv
  cases hv

@[simp] theorem put_brk (h : Heap α) (a : Nat) (v : Option α) : (h.put a v).brk = h.brk := by
  unfold put; split <;> rfl

theorem put_same {h : Heap α} {a : Nat} (ha : a < h.brk) (v : Option α) : (h.put a v).cell a = v := by
  simp [put, ha]

theorem put_ne (h : Heap α) {a b : Nat} (v : Option α) (hb : b ≠ a) : (h.put a v).cell b = h.cell b := by
  unfold put; split
  · simp [Function.update_of_ne hb]
  · rfl

@[simp] theorem alloc_brk (h : Heap α) (v : α) : (h.alloc v).brk = h.brk + 1 := rfl

@[simp] theorem alloc_same (h : Heap α) (v : α) : (h.alloc v).cell h.brk = some v := by simp [alloc]

theorem alloc_ne (h : Heap α) (v : α) {b : Nat} (hb : b ≠ h.brk) : (h.alloc v).cell b = h.cell b := by
  simp [alloc, Function.update_of_ne hb]

theorem alloc_live {h : Heap α} {b : Nat} {w : α} (v : α) (hb : h.cell b = some w) : (h.alloc v).cell b = some w := by
  have := lt_brk hb
  rw [alloc_ne h v (by omega)]; exact hb

theorem modify_live {h : Heap α} {a : Nat} {v : α} (f : α → α) (hv : h.cell a = some v) :
    h.modify a f = some (h.put a (some (f v))) := by simp [modify, hv]

theorem free_live {h : Heap α} {a : Nat} {v : α} (hv : h.cell a = some v) : h.free a = some (h.put a none) := by
  simp [free, hv]

/-- Distinct live addresses are fewer than the heap has handed out. -/
theorem length_le_brk {h : Heap α} {as : List Nat} (hn : as.Nodup) (hl : ∀ a ∈ as, ∃ v, h.cell a = some v) :
    as.length ≤ h.brk := by
  have hsub : as ⊆ List.range h.brk := fun a ha => by
    obtain ⟨v, hv⟩ := hl a ha
    exact List.mem_range.mpr (lt_brk hv)
  simpa using (hn.subperm hsub).length_le

end Heap

/-! ## Chains -/

variable {α : Type*} (next : α → Ptr)

def Seg (h : Heap α) : Ptr → List (Nat × α) → Ptr → Prop
  | p, [], q => p = q
  | p, x :: xs, q => p = some x.1 ∧ h.cell x.1 = some x.2 ∧ Seg h (next x.2) xs q

variable {next}

theorem Seg.live {h : Heap α} : ∀ {p q : Ptr} {xs : List (Nat × α)}, Seg next h p xs q → ∀ x ∈ xs, h.cell x.1 = some x.2
  | _, _, [], _, _, hx => absurd hx (by simp)
  | _, _, y :: ys, hs, x, hx => by
    rcases List.mem_cons.mp hx with rfl | hx
    · exact hs.2.1
    · exact Seg.live hs.2.2 x hx

theorem Seg.frame {h h' : Heap α} : ∀ {p q : Ptr} {xs : List (Nat × α)}, Seg next h p xs q →
    (∀ x ∈ xs, h'.cell x.1 = h.cell x.1) → Seg next h' p xs q
  | _, _, [], hs, _ => hs
  | _, _, x :: xs, hs, hf =>
    ⟨hs.1, (hf x (by simp)).trans hs.2.1, Seg.frame hs.2.2 fun y hy => hf y (by simp [hy])⟩

theorem seg_append {h : Heap α} {p q : Ptr} {xs ys : List (Nat × α)} :
    Seg next h p (xs ++ ys) q ↔ ∃ m, Seg next h p xs m ∧ Seg next h m ys q := by
  induction xs generalizing p with
  | nil => simp [Seg]
  | cons x xs ih =>
    simp only [List.cons_append, Seg, ih]
    constructor
    · rintro ⟨h1, h2, m, h3, h4⟩; exact ⟨m, ⟨h1, h2, h3⟩, h4⟩
    · rintro ⟨m, ⟨h1, h2, h3⟩, h4⟩; exact ⟨h1, h2, m, h3, h4⟩

/-- A node is rewritten in place: the chain runs through it as before, and on to where its new `next` leads. -/
theorem Seg.relink {h h' : Heap α} {p q r : Ptr} {xs ys zs : List (Nat × α)} {x : Nat × α} {v : α}
    (hs : Seg next h p (xs ++ x :: ys) q) (hxs : ∀ y ∈ xs, h'.cell y.1 = h.cell y.1) (hx : h'.cell x.1 = some v)
    (hz : Seg next h' (next v) zs r) : Seg next h' p (xs ++ (x.1, v) :: zs) r := by
  obtain ⟨m, h1, rfl, -, -⟩ := seg_append.mp hs
  exact seg_append.mpr ⟨some x.1, h1.frame hxs, rfl, hx, hz⟩

theorem Seg.length_le_brk {h : Heap α} {p q : Ptr} {xs : List (Nat × α)} (hs : Seg next h p xs q)
    (hn : (xs.map (·.1)).Nodup) : xs.length ≤ h.brk := by
  have := Heap.length_le_brk (h := h) hn fun a ha => by
    obtain ⟨x, hx, rfl⟩ := List.mem_map.mp ha
    exact ⟨x.2, hs.live x hx⟩
  simpa using this

end Putty.Lib
