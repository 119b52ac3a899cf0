/-
  Putty.Lib.Index — a second index over the rows of a table.

  The rows are kept under a first key; `key` gives the second one of a row, or none for
  a row the index leaves out. `IsIndex` says that the index leads from each second key
  to its row and to nothing else. Every change of the table has its rule: a row that
  comes, goes, changes without touching its second key, or gets one.
-/

import Mathlib

namespace Putty.Lib

open Std

variable {K L V : Type*} {cmpK : K → K → Ordering} {cmpL : L → L → Ordering}
variable [TransCmp cmpK] [TransCmp cmpL]
variable {key : V → Option L} {rows rows' : ExtTreeMap K V cmpK} {index : ExtTreeMap L K cmpL} {u : K} {c : V} {k : L}

/-! ## Changes that come to the same -/

section Same

variable [LawfulEqCmp cmpK]

theorem erase_absent (h : rows[u]? = none) : rows.erase u = rows := by
  refine ExtTreeMap.ext_getElem? fun v => ?_
  rw [ExtTreeMap.getElem?_erase]
  split
  · next hv => rw [← ExtTreeMap.getElem?_congr hv, h]
  · rfl

theorem insertIfNew_absent (h : rows[u]? = none) : rows.insertIfNew u c = rows.insert u c := by
  refine ExtTreeMap.ext_getElem? fun v => ?_
  have hu : u ∉ rows := fun hm => by simp [getElem?_pos rows u hm] at h
  rw [ExtTreeMap.getElem?_insertIfNew, ExtTreeMap.getElem?_insert]
  exact if_congr (and_iff_left hu) rfl rfl

theorem modify_present {f : V → V} (h : rows[u]? = some c) : rows.modify u f = rows.insert u (f c) := by
  refine ExtTreeMap.ext_getElem? fun v => ?_
  rw [ExtTreeMap.getElem?_modify, ExtTreeMap.getElem?_insert]
  split
  · rw [h]
    rfl
  · rfl

end Same

/-! ## The index -/

def IsIndex (key : V → Option L) (rows : ExtTreeMap K V cmpK) (index : ExtTreeMap L K cmpL) : Prop :=
  ∀ k u, index[k]? = some u ↔ ∃ c, rows[u]? = some c ∧ key c = some k

namespace IsIndex

theorem of_mem (h : IsIndex key rows index) (hc : rows[u]? = some c) (hk : key c = some k) :
    index[k]? = some u := (h k u).mpr ⟨c, hc, hk⟩

theorem empty : IsIndex key (∅ : ExtTreeMap K V cmpK) (∅ : ExtTreeMap L K cmpL) := by
  intro k u
  simp

/-- The rows change, but no row's second key does. -/
theorem congr (h : IsIndex key rows index) (hr : ∀ u : K, rows'[u]?.bind key = rows[u]?.bind key) : IsIndex key rows' index := by
  intro k u
  rw [h k u, ← Option.bind_eq_some_iff, ← Option.bind_eq_some_iff, hr u]

variable [LawfulEqCmp cmpK]

/-- A row that the index leaves out comes. -/
theorem insert_unindexed (h : IsIndex key rows index) (hu : rows[u]? = none) (hc : key c = none) :
    IsIndex key (rows.insert u c) index := by
  refine h.congr fun v => ?_
  rw [ExtTreeMap.getElem?_insert]
  split
  · next hv =>
    rw [← LawfulEqCmp.eq_of_compare hv, hu]
    exact hc
  · rfl

theorem modify {f : V → V} (h : IsIndex key rows index) (hf : ∀ c, rows[u]? = some c → key (f c) = key c) :
    IsIndex key (rows.modify u f) index := by
  refine h.congr fun v => ?_
  rw [ExtTreeMap.getElem?_modify]
  split
  · next hv =>
    rw [← LawfulEqCmp.eq_of_compare hv]
    cases hc : rows[u]? with
    | none => rfl
    | some c => exact hf c hc
  · rfl

/-- A row that the index leaves out goes. -/
theorem erase_unindexed (h : IsIndex key rows index) (hu : rows[u]?.bind key = none) : IsIndex key (rows.erase u) index := by
  refine h.congr fun v => ?_
  rw [ExtTreeMap.getElem?_erase]
  split
  · next hv =>
    rw [← LawfulEqCmp.eq_of_compare hv, hu]
    rfl
  · rfl

variable [LawfulEqCmp cmpL]

/-- A row is put in, or gets a second key, under one that is free. -/
theorem put (h : IsIndex key rows index) (hu : rows[u]?.bind key = none) (hk : index[k]? = none) (hc : key c = some k) :
    IsIndex key (rows.insert u c) (index.insert k u) := by
  intro l v
  rw [ExtTreeMap.getElem?_insert, ExtTreeMap.getElem?_insert]
  by_cases hv : u = v
  · subst hv
    rw [if_pos ((ReflCmp.compare_self : cmpK u u = .eq))]
    by_cases hl : k = l
    · subst hl
      rw [if_pos ((ReflCmp.compare_self : cmpL k k = .eq))]
      simpa using hc
    · rw [if_neg fun e => hl (LawfulEqCmp.eq_of_compare e)]
      constructor
      · intro hi
        obtain ⟨d, hd, hl⟩ := (h l u).mp hi
        rw [hd] at hu
        exact absurd (hl.symm.trans hu) (by simp)
      · rintro ⟨d, hd, hl'⟩
        cases hd
        exact absurd (Option.some.inj (hc.symm.trans hl')) hl
  · rw [if_neg fun e => hv (LawfulEqCmp.eq_of_compare e)]
    by_cases hl : k = l
    · subst hl
      rw [if_pos ((ReflCmp.compare_self : cmpL k k = .eq)), ← h k v, hk]
      simp [hv]
    · rw [if_neg fun e => hl (LawfulEqCmp.eq_of_compare e)]
      exact h l v

/-- A row gets its second key. -/
theorem assign {f : V → V} (h : IsIndex key rows index) (hu : rows[u]? = some c) (hc : key c = none)
    (hk : index[k]? = none) (hf : key (f c) = some k) : IsIndex key (rows.modify u f) (index.insertIfNew k u) := by
  rw [modify_present hu, insertIfNew_absent hk]
  exact h.put (by rw [hu]; exact hc) hk hf

theorem erase (h : IsIndex key rows index) (hu : rows[u]? = some c) (hc : key c = some k) :
    IsIndex key (rows.erase u) (index.erase k) := by
  intro l v
  rw [ExtTreeMap.getElem?_erase, ExtTreeMap.getElem?_erase]
  by_cases hl : k = l
  · subst hl
    rw [if_pos ((ReflCmp.compare_self : cmpL k k = .eq))]
    split
    · simp
    · next hv =>
      rw [← h k v, h.of_mem hu hc]
      simp only [reduceCtorEq, Option.some.injEq, false_iff]
      rintro rfl
      exact hv ReflCmp.compare_self
  · rw [if_neg fun e => hl (LawfulEqCmp.eq_of_compare e)]
    split
    · next hv =>
      cases LawfulEqCmp.eq_of_compare hv
      rw [h l u, hu]
      simp [hc, hl]
    · exact h l v

end IsIndex

end Putty.Lib
