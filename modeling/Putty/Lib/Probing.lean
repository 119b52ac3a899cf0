/-
  Putty.Lib.Probing — open addressing with linear probing.

  A table maps each slot to its contents, `none` where it is unused. `Reaches slot n start x`:
  going on from `start`, round the `n` slots, there are only used slots up to one that
  holds `x`. Filling an unused slot, and filling a slot with what it holds, keep that
  (`Reaches.put`), and a search that stops at `x` or at an unused slot stops at `x`
  (`Reaches.found`).
-/

import Mathlib.Logic.Function.Basic

namespace Putty.Lib.Probing

variable {C : Type} {slot : Nat → Option C} {n start : Nat} {x y : C}

/-- Every slot before the `d`-th from `start` is used. -/
def UsedBefore (slot : Nat → Option C) (n start d : Nat) : Prop := ∀ e < d, slot ((start + e) % n) ≠ none

def Reaches (slot : Nat → Option C) (n start : Nat) (x : C) : Prop :=
  ∃ d, UsedBefore slot n start d ∧ slot ((start + d) % n) = some x

theorem UsedBefore.put {d : Nat} (h : UsedBefore slot n start d) (i : Nat) (y : C) :
    UsedBefore (Function.update slot i (some y)) n start d := by
  intro e he
  rw [Function.update_apply]
  split
  · exact Option.some_ne_none y
  · exact h e he

theorem Reaches.put (h : Reaches slot n start x) {i : Nat} (hi : slot i = none ∨ slot i = some y) :
    Reaches (Function.update slot i (some y)) n start x := by
  obtain ⟨d, hused, hx⟩ := h
  refine ⟨d, hused.put i y, ?_⟩
  rw [Function.update_apply]
  split
  · next he =>
    -- the slot was used, so it held `y`
    rcases hi with hi | hi
    · rw [he, hi] at hx
      cases hx
    · rw [← hi, ← he, hx]
  · exact hx

theorem Reaches.new {d : Nat} (h : UsedBefore slot n start d) (y : C) :
    Reaches (Function.update slot ((start + d) % n) (some y)) n start y :=
  ⟨d, h.put _ y, Function.update_self _ _ _⟩

theorem Reaches.found {d : Nat} (h : Reaches slot n start x) (hused : ∀ e < d, slot ((start + e) % n) ≠ some x) :
    slot ((start + d) % n) ≠ none := by
  obtain ⟨k, hk, hx⟩ := h
  rcases Nat.lt_trichotomy d k with hlt | heq | hgt
  · exact hk d hlt
  · rw [heq, hx]
    exact Option.some_ne_none x
  · exact absurd hx (hused k hgt)

end Putty.Lib.Probing
