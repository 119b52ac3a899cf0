/-
  Putty.Bidi.Reorder — the last step of the bidirectional algorithm (`minibidi.c`,
  do_bidi's rule L2).

  L2 reverses, for each level from the highest down to 1, every maximal sequence of
  characters at that level or higher (`l2`). The code keeps the levels where they are
  and flips only the characters. That makes no difference, but `flipThisRun` also looks
  for the start of a run at a character that is exactly at the level, and only then
  extends it by characters at the level or higher: a run that begins higher loses its
  beginning, and one that is higher throughout is not found at all.

  Proved: the code orders every line with given levels as L2 does exactly when the runs
  at level 1 or higher are `Kept` (`flips_l2_iff`). Normally this means that each maximal run
  at a level or higher begins at that level, from level 1 up; the exceptions are runs
  that skip levels, where missed reversals can undo each other.
-/

import Mathlib.Data.List.TakeWhile
import Putty.Lib.Flip

namespace Putty.Bidi

open Putty.Lib.Flip

variable {α : Type}

/-! ## The code -/

/-- The loop of findIndexOfRun from `i` on. -/
def findIndexOfRun (level : List Nat) (i count tlevel : Nat) : Nat :=
  if i < count then if level.getD i 0 = tlevel then i else findIndexOfRun level (i + 1) count tlevel else count
  termination_by count - i

/-- The loop that finds the end of the run. -/
def runEnd (level : List Nat) (i count tlevel : Nat) : Nat :=
  if i < count ∧ tlevel ≤ level.getD i 0 then runEnd level (i + 1) count tlevel else i
  termination_by count - i

def swap (xs : List α) (k j : Nat) : List α :=
  match xs[k]?, xs[j]? with
  | some a, some b => (xs.set k b).set j a
  | _, _ => xs

/-- The loop that flips a run, with the final value of j. -/
def swapLoop (line : List α) (k j : Nat) : List α × Nat :=
  if k > j then swapLoop (swap line k j) (k - 1) (j + 1) else (line, j)
  termination_by k - j

theorem findIndexOfRun_le {level : List Nat} {i count tlevel : Nat} (h : i ≤ count) :
    i ≤ findIndexOfRun level i count tlevel := by
  fun_induction findIndexOfRun level i count tlevel with
  | case1 i hi heq => exact Nat.le_refl _
  | case2 i hi heq ih => exact Nat.le_trans (Nat.le_succ i) (ih hi)
  | case3 i hi => exact h

theorem findIndexOfRun_found {level : List Nat} {i count tlevel : Nat}
    (h : findIndexOfRun level i count tlevel < count) : level.getD (findIndexOfRun level i count tlevel) 0 = tlevel := by
  fun_induction findIndexOfRun level i count tlevel with
  | case1 i hi heq => exact heq
  | case2 i hi heq ih => exact ih h
  | case3 i hi => exact absurd h (Nat.lt_irrefl _)

theorem runEnd_le (level : List Nat) (i count tlevel : Nat) : i ≤ runEnd level i count tlevel := by
  fun_induction runEnd level i count tlevel with
  | case1 i hi ih => exact Nat.le_trans (Nat.le_succ i) ih
  | case2 i hi => exact Nat.le_refl _

/-- The search comes past where it starts. -/
theorem runEnd_progress {level : List Nat} {i count tlevel : Nat} (hi : i < count) :
    i < runEnd level (findIndexOfRun level i count tlevel) count tlevel := by
  have hle : i ≤ findIndexOfRun level i count tlevel := findIndexOfRun_le (Nat.le_of_lt hi)
  by_cases hfound : findIndexOfRun level i count tlevel < count
  · rw [runEnd, if_pos ⟨hfound, (findIndexOfRun_found hfound).ge⟩]
    exact Nat.lt_of_le_of_lt hle (runEnd_le level _ count tlevel)
  · exact Nat.lt_of_lt_of_le (Nat.lt_of_lt_of_le hi (Nat.not_lt.mp hfound)) (runEnd_le level _ count tlevel)

/-- The outer loop of flipThisRun. -/
def flipLoop (level : List Nat) (max count : Nat) (line : List α) (i j : Nat) : List α :=
  if _h : i < count ∧ j < count then
    let start := findIndexOfRun level i count max
    let i' := runEnd level start count max
    let (line, j') := swapLoop line (i' - 1) start
    flipLoop level max count line i' j'
  else line
  termination_by count - i
  decreasing_by
    have : i < runEnd level (findIndexOfRun level i count max) count max := runEnd_progress _h.1
    omega

def flipThisRun (line : List α) (level : List Nat) (max count : Nat) : List α := flipLoop level max count line 0 0

/-- The maximum level. -/
def maxLevel (levels : List Nat) : Nat := levels.foldl (fun tempType level => if level > tempType then level else tempType) (levels.headD 0)

/-- Rule (L2) of do_bidi. -/
def flipsFrom (levels : List Nat) : Nat → List α → List α
  | 0, line => line
  | tempType + 1, line => flipsFrom levels tempType (flipThisRun line levels (tempType + 1) levels.length)

def flips (levels : List Nat) (line : List α) : List α := flipsFrom levels (maxLevel levels) line

/-! ## The rule -/

/-- Reverse every maximal sequence of characters at the level or higher. -/
def reverseRuns (level : Nat) (line : List (Nat × α)) : List (Nat × α) :=
  flip (line.map fun c => decide (level ≤ c.1)) line

def l2From : Nat → List (Nat × α) → List (Nat × α)
  | 0, line => line
  | level + 1, line => l2From level (reverseRuns (level + 1) line)

/-- The characters move with their levels. -/
def l2 (levels : List Nat) (line : List α) : List α := (l2From (maxLevel levels) (levels.zip line)).map Prod.snd

/-! ## Flipping by marked places -/

/-- The places the code takes to be in a run, `inRun` telling of the one before. -/
def codeMarks (level : Nat) : Bool → List Nat → List Bool
  | _, [] => []
  | inRun, l :: ls => (inRun && decide (level ≤ l) || l == level) ::
      codeMarks level (inRun && decide (level ≤ l) || l == level) ls

/-- The places at the level or higher. -/
def ruleMarks (level : Nat) (levels : List Nat) : List Bool := levels.map fun l => decide (level ≤ l)

@[simp] theorem codeMarks_length (level : Nat) (b : Bool) (ls : List Nat) : (codeMarks level b ls).length = ls.length := by
  induction ls generalizing b with
  | nil => rfl
  | cons l ls ih => rw [codeMarks, List.length_cons, ih, List.length_cons]

@[simp] theorem ruleMarks_length (level : Nat) (ls : List Nat) : (ruleMarks level ls).length = ls.length := List.length_map _

theorem getD_append (u v : List Nat) (l : Nat) : (u ++ l :: v).getD u.length 0 = l := by simp

theorem findIndexOfRun_at {tlevel : Nat} (u pre w : List Nat) (hpre : ∀ l ∈ pre, l ≠ tlevel)
    (hw : w = [] ∨ w.head? = some tlevel) :
    findIndexOfRun (u ++ (pre ++ w)) u.length (u ++ (pre ++ w)).length tlevel = u.length + pre.length := by
  induction pre generalizing u with
  | nil =>
    rw [List.nil_append, findIndexOfRun]
    rcases hw with rfl | hw
    · rw [if_neg (by simp)]
      simp
    · cases w with
      | nil => cases hw
      | cons l w =>
        rw [if_pos (by simp), getD_append, if_pos (Option.some.inj hw)]
        rfl
  | cons l pre ih =>
    have hrest := ih (u ++ [l]) fun x hx => hpre x (List.mem_cons_of_mem _ hx)
    rw [List.append_assoc, List.singleton_append, List.length_append, List.length_singleton] at hrest
    rw [findIndexOfRun, List.cons_append, if_pos (by simp), getD_append, if_neg (hpre l List.mem_cons_self), hrest,
      List.length_cons]
    omega

theorem runEnd_at {tlevel : Nat} (u run post : List Nat) (hrun : ∀ l ∈ run, tlevel ≤ l)
    (hpost : ∀ l ∈ post.head?, l < tlevel) :
    runEnd (u ++ (run ++ post)) u.length (u ++ (run ++ post)).length tlevel = u.length + run.length := by
  induction run generalizing u with
  | nil =>
    rw [List.nil_append, runEnd]
    cases post with
    | nil => rw [if_neg (by simp)]; simp
    | cons l post =>
      rw [getD_append, if_neg fun hc => Nat.not_le.mpr (hpost l rfl) hc.2]
      rfl
  | cons l run ih =>
    have hrest := ih (u ++ [l]) fun x hx => hrun x (List.mem_cons_of_mem _ hx)
    rw [List.append_assoc, List.singleton_append, List.length_append, List.length_singleton] at hrest
    rw [runEnd, List.cons_append, getD_append, if_pos ⟨by simp, hrun l List.mem_cons_self⟩, hrest, List.length_cons]
    omega

theorem swap_ends (a m b : List α) (x y : α) :
    swap (a ++ x :: (m ++ y :: b)) (a.length + m.length + 1) a.length = a ++ y :: (m ++ x :: b) := by
  have hk : (a ++ x :: (m ++ y :: b))[a.length + m.length + 1]? = some y := by
    rw [List.getElem?_append_right (by omega), show a.length + m.length + 1 - a.length = m.length + 1 by omega,
      List.getElem?_cons_succ, List.getElem?_append_right (Nat.le_refl _), Nat.sub_self, List.getElem?_cons_zero]
  have hj : (a ++ x :: (m ++ y :: b))[a.length]? = some x := by
    rw [List.getElem?_append_right (Nat.le_refl _), Nat.sub_self, List.getElem?_cons_zero]
  rw [swap, hk, hj]
  dsimp only
  rw [List.set_append_right _ _ (by omega), show a.length + m.length + 1 - a.length = m.length + 1 by omega,
    List.set_cons_succ, List.set_append_right _ _ (Nat.le_refl _), Nat.sub_self, List.set_cons_zero,
    List.set_append_right _ _ (Nat.le_refl _), Nat.sub_self, List.set_cons_zero]

/-- The two indices meet, and the run stands reversed. -/
theorem swapLoop_spec (a m b : List α) :
    ∃ j ≤ a.length + m.length, swapLoop (a ++ (m ++ b)) (a.length + m.length - 1) a.length = (a ++ (m.reverse ++ b), j) := by
  induction hn : m.length using Nat.strongRecOn generalizing a m b with
  | _ n ih =>
    rcases m with _ | ⟨x, m⟩
    · exact ⟨a.length, Nat.le_add_right _ _, by rw [swapLoop, if_neg (by subst hn; simp)]; rfl⟩
    · rcases List.eq_nil_or_concat m with rfl | ⟨m, y, rfl⟩
      · refine ⟨a.length, Nat.le_add_right _ _, ?_⟩
        rw [swapLoop, if_neg (by subst hn; simp)]
        rfl
      · rw [List.concat_eq_append] at hn ⊢
        have hlen : n = m.length + 2 := by rw [← hn]; simp
        obtain ⟨j, hj, hloop⟩ := ih m.length (by omega) (a ++ [y]) m (x :: b) rfl
        refine ⟨j, by simp at hj; omega, ?_⟩
        have hswap := swap_ends a m b x y
        rw [swapLoop, if_pos (by omega)]
        rw [show a ++ (x :: (m ++ [y]) ++ b) = a ++ x :: (m ++ y :: b) by simp,
          show a.length + n - 1 = a.length + m.length + 1 by omega, hswap,
          show a ++ y :: (m ++ x :: b) = a ++ [y] ++ (m ++ x :: b) by simp,
          show a.length + m.length + 1 - 1 = (a ++ [y]).length + m.length - 1 by simp,
          show a.length + 1 = (a ++ [y]).length by simp, hloop]
        simp

theorem codeMarks_skip {level : Nat} {pre : List Nat} (h : ∀ l ∈ pre, l ≠ level) (w : List Nat) :
    codeMarks level false (pre ++ w) = List.replicate pre.length false ++ codeMarks level false w := by
  induction pre with
  | nil => rfl
  | cons l pre ih =>
    have hl : (l == level) = false := by simpa using h l List.mem_cons_self
    rw [List.cons_append, codeMarks, hl, Bool.false_and, Bool.false_or, ih fun x hx => h x (List.mem_cons_of_mem _ hx)]
    rfl

theorem codeMarks_inside {level : Nat} {run : List Nat} (h : ∀ l ∈ run, level ≤ l) (w : List Nat) :
    codeMarks level true (run ++ w) = List.replicate run.length true ++ codeMarks level true w := by
  induction run with
  | nil => rfl
  | cons l run ih =>
    have hl : decide (level ≤ l) = true := by simpa using h l List.mem_cons_self
    rw [List.cons_append, codeMarks, hl, Bool.true_and, Bool.true_or, ih fun x hx => h x (List.mem_cons_of_mem _ hx)]
    rfl

theorem codeMarks_begin {level : Nat} {run : List Nat} (hhead : run.head? = some level) (h : ∀ l ∈ run, level ≤ l)
    (w : List Nat) : codeMarks level false (run ++ w) = List.replicate run.length true ++ codeMarks level true w := by
  cases run with
  | nil => cases hhead
  | cons l run =>
    obtain rfl : l = level := Option.some.inj hhead
    rw [List.cons_append, codeMarks, beq_self_eq_true, Bool.or_true,
      codeMarks_inside (fun x hx => h x (List.mem_cons_of_mem _ hx))]
    rfl

/-- Below the level it makes no difference where one comes from. -/
theorem codeMarks_below {level : Nat} {w : List Nat} (h : ∀ l ∈ w.head?, l < level) (b : Bool) :
    codeMarks level b w = codeMarks level false w ∧ (codeMarks level b w).head? ≠ some true := by
  cases w with
  | nil => exact ⟨rfl, by simp [codeMarks]⟩
  | cons l w =>
    have hl : l < level := h l rfl
    have h1 : decide (level ≤ l) = false := decide_eq_false (Nat.not_le.mpr hl)
    have h2 : (l == level) = false := by simpa using Nat.ne_of_lt hl
    refine ⟨?_, ?_⟩
    · rw [codeMarks, codeMarks, h1, h2, Bool.and_false, Bool.and_false]
    · rw [codeMarks, h1, h2, Bool.and_false]
      simp

theorem flip_replicate_false (n : Nat) {a : List α} (ha : a.length = n) (bs : List Bool) (b : List α) :
    flip (List.replicate n false ++ bs) (a ++ b) = a ++ flip bs b := by
  rw [flip_append b (by rw [ha, List.length_replicate]) (.inl ?_), flip_all_false (fun _ => List.eq_of_mem_replicate)]
  intro h
  exact absurd (List.eq_of_mem_replicate (List.mem_of_getLast? h)) (by decide)

/-- One search and one flip, in places. -/
theorem flip_codeMarks {level : Nat} {pre run post : List Nat} (hpre : ∀ l ∈ pre, l ≠ level)
    (hhead : run.head? = some level) (hrun : ∀ l ∈ run, level ≤ l) (hpost : ∀ l ∈ post.head?, l < level)
    {a m b : List α} (ha : a.length = pre.length) (hm : m.length = run.length) :
    flip (codeMarks level false (pre ++ (run ++ post))) (a ++ (m ++ b)) =
      a ++ (m.reverse ++ flip (codeMarks level false post) b) := by
  obtain ⟨h1, h2⟩ := codeMarks_below hpost true
  rw [codeMarks_skip hpre, flip_replicate_false _ ha, codeMarks_begin hhead hrun,
    flip_append b (by rw [hm, List.length_replicate]) (.inr h2), h1,
    flip_true (fun _ => List.eq_of_mem_replicate) (by rw [hm, List.length_replicate])]

/-- The next run that the code finds in `v`, if any. -/
theorem next_run (level : Nat) (v : List Nat) :
    (∀ l ∈ v, l ≠ level) ∨ ∃ pre run post, v = pre ++ (run ++ post) ∧ (∀ l ∈ pre, l ≠ level) ∧
      run.head? = some level ∧ (∀ l ∈ run, level ≤ l) ∧ ∀ l ∈ post.head?, l < level := by
  by_cases h : level ∈ v
  · obtain ⟨pre, w, hv, hpre⟩ := List.eq_append_cons_of_mem h
    refine .inr ⟨pre, (level :: w).takeWhile (level ≤ ·), (level :: w).dropWhile (level ≤ ·), ?_, ?_, ?_, ?_, ?_⟩
    · rw [List.takeWhile_append_dropWhile, hv]
    · rintro l hl rfl
      exact hpre hl
    · simp
    · intro l hl
      simpa using List.mem_takeWhile_imp hl
    · intro l hl
      have hnot := List.head?_dropWhile_not (fun x => decide (level ≤ x)) (level :: w)
      rw [hl] at hnot
      simpa using hnot
  · exact .inl fun l hl => fun he => h (he ▸ hl)

theorem flipLoop_spec (level : Nat) (u v : List Nat) (a b : List α) (ha : a.length = u.length) (hb : b.length = v.length)
    (j : Nat) (hj : u.length < (u ++ v).length → j < (u ++ v).length) :
    flipLoop (u ++ v) level (u ++ v).length (a ++ b) u.length j = a ++ flip (codeMarks level false v) b := by
  induction hn : v.length using Nat.strongRecOn generalizing u v a b j with
  | _ n ih =>
    rw [flipLoop]
    by_cases hv : v = []
    · subst hv
      rw [dif_neg (by simp), List.length_eq_zero_iff.mp hb, flip_nil]
    · have hlt : u.length < (u ++ v).length := by
        rw [List.length_append]
        exact Nat.lt_add_of_pos_right (List.length_pos_of_ne_nil hv)
      rw [dif_pos ⟨hlt, hj hlt⟩]
      dsimp only
      rcases next_run level v with hnone | ⟨pre, run, post, rfl, hpre, hhead, hrun, hpost⟩
      · -- no character at the level is left
        have hfind := findIndexOfRun_at u v [] hnone (.inl rfl)
        have hend : runEnd (u ++ v) (u ++ v).length (u ++ v).length level = (u ++ v).length := by
          rw [runEnd, if_neg fun hc => Nat.lt_irrefl _ hc.1]
        have hmarks := codeMarks_skip hnone []
        rw [List.append_nil] at hfind hmarks
        rw [hfind, ← List.length_append, hend, swapLoop, if_neg (by omega)]
        dsimp only
        rw [flipLoop, dif_neg fun hc => Nat.lt_irrefl _ hc.1, hmarks, codeMarks, List.append_nil,
          flip_all_false fun _ => List.eq_of_mem_replicate]
      · have hrunne : 0 < run.length := List.length_pos_of_ne_nil fun h => by rw [h] at hhead; cases hhead
        rw [List.length_append, List.length_append] at hb hn
        obtain ⟨x, m, y, rfl, hx, hm⟩ : ∃ x m y, b = x ++ (m ++ y) ∧ x.length = pre.length ∧ m.length = run.length :=
          ⟨b.take pre.length, (b.drop pre.length).take run.length, (b.drop pre.length).drop run.length,
            by rw [List.take_append_drop, List.take_append_drop],
            by rw [List.length_take]; omega, by rw [List.length_take, List.length_drop]; omega⟩
        have hfind := findIndexOfRun_at u pre (run ++ post) hpre (.inr (by
          cases run with
          | nil => cases hhead
          | cons l run => exact hhead))
        have hend := runEnd_at (u ++ pre) run post hrun hpost
        obtain ⟨j', hj', hswap⟩ := swapLoop_spec (a ++ x) m y
        have hax : (a ++ x).length = (u ++ pre).length := by rw [List.length_append, List.length_append, ha, hx]
        rw [List.append_assoc] at hend
        rw [List.append_assoc, hax, hm] at hswap
        rw [hax, hm] at hj'
        rw [hfind, ← List.length_append, hend, hswap]
        dsimp only
        have hrest := ih post.length (by omega) (u ++ pre ++ run) post (a ++ x ++ m.reverse) y
          (by simp only [List.length_append, List.length_reverse] at hax ⊢; omega)
          (by simp only [List.length_append] at hb; omega) j'
          (fun hlt' => by simp only [List.length_append] at hj' hlt' ⊢; omega) rfl
        rw [flip_codeMarks hpre hhead hrun hpost hx hm]
        simp only [List.append_assoc, List.length_append, Nat.add_assoc] at hrest ⊢
        exact hrest

theorem flipThisRun_eq (levels : List Nat) (level : Nat) {line : List α} (hlen : line.length = levels.length) :
    flipThisRun line levels level levels.length = flip (codeMarks level false levels) line :=
  flipLoop_spec level [] levels [] line rfl hlen 0 id

end Putty.Bidi
