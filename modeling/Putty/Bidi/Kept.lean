/-
  Putty.Bidi.Kept — which arrays of levels the code reorders as rule L2 does.

  Both the rule and the code go down the levels and flip marked places. Taken apart at
  the maximal runs of a level, they agree on a line when they agree on each run; and on
  a run at level `k` or higher they agree when it is `Kept k`: it begins at level `k` and
  the runs above `k` in it are kept, or it is higher throughout and comes out `Turned`
  one level up, the code having missed one reversal. A turned run is a single character,
  or one whose last character alone is at the level, or higher throughout and kept one
  level up.
-/

import Putty.Bidi.Reorder

namespace Putty.Bidi

open Putty.Lib.Flip

variable {α : Type}

/-! ## Maximal runs -/

/-- `S` is a maximal run at the level or higher between `u` and `v`. -/
structure IsRun (level : Nat) (u S v : List Nat) : Prop where
  ne : S ≠ []
  high : ∀ l ∈ S, level ≤ l
  before : ∀ l ∈ u.getLast?, l < level
  behind : ∀ l ∈ v.head?, l < level

mutual

inductive Kept : Nat → List Nat → Prop
  | begins {level : Nat} {R : List Nat} : R.head? = some level →
      (∀ u S v, R = u ++ (S ++ v) → IsRun (level + 1) u S v → Kept (level + 1) S) → Kept level R
  | above {level : Nat} {R : List Nat} : (∀ l ∈ R, level < l) → Turned (level + 1) R → Kept level R

inductive Turned : Nat → List Nat → Prop
  | single {level : Nat} (l : Nat) : Turned level [l]
  | last {level : Nat} {P : List Nat} : P ≠ [] → (∀ l ∈ P, level < l) → Kept (level + 1) P → Turned level (P ++ [level])
  | above {level : Nat} {R : List Nat} : (∀ l ∈ R, level < l) → Kept (level + 1) R → Turned level R

end

/-! ## Flips of both kinds -/

section Marks

variable (marks : Nat → List Nat → List Bool)

/-- Flip what is marked at the levels `level + n - 1`, …, `level`. -/
def flipsBy (levels : List Nat) (level n : Nat) (line : List α) : List α :=
  descend (fun level line => flip (marks level levels) line) level n line

/-- Marks are set place by place, and start afresh below their level. -/
structure Local : Prop where
  length : ∀ level levels, (marks level levels).length = levels.length
  cut : ∀ level u v, (∀ l ∈ u.getLast?, l < level) ∨ (∀ l ∈ v.head?, l < level) →
    marks level (u ++ v) = marks level u ++ marks level v ∧
      ((marks level u).getLast? ≠ some true ∨ (marks level v).head? ≠ some true)

variable {marks}

theorem flipsBy_perm (levels : List Nat) (level n : Nat) (line : List α) : (flipsBy marks levels level n line).Perm line := by
  induction n generalizing level with
  | zero => exact List.Perm.refl _
  | succ n ih => exact (flip_perm _ _).trans (ih (level + 1))

theorem flipsBy_length (levels : List Nat) (level n : Nat) (line : List α) :
    (flipsBy marks levels level n line).length = line.length := (flipsBy_perm levels level n line).length_eq

@[simp] theorem flipsBy_nil (levels : List Nat) (level n : Nat) : flipsBy marks levels level n ([] : List α) = [] :=
  List.length_eq_zero_iff.mp (flipsBy_length levels level n [])

@[simp] theorem flipsBy_singleton (levels : List Nat) (level n : Nat) (x : α) : flipsBy marks levels level n [x] = [x] :=
  List.perm_singleton.mp (flipsBy_perm levels level n [x])

theorem flipsBy_cut (hm : Local marks) {level : Nat} (n : Nat) {u v : List Nat} {a : List α} (b : List α)
    (ha : a.length = u.length) (h : (∀ l ∈ u.getLast?, l < level) ∨ ∀ l ∈ v.head?, l < level) :
    flipsBy marks (u ++ v) level n (a ++ b) = flipsBy marks u level n a ++ flipsBy marks v level n b := by
  induction n generalizing level with
  | zero => rfl
  | succ n ih =>
    have hup : (∀ l ∈ u.getLast?, l < level + 1) ∨ ∀ l ∈ v.head?, l < level + 1 :=
      h.imp (fun h l hl => Nat.lt_succ_of_lt (h l hl)) (fun h l hl => Nat.lt_succ_of_lt (h l hl))
    obtain ⟨hmarks, hends⟩ := hm.cut level u v h
    show flip (marks level (u ++ v)) (flipsBy marks (u ++ v) (level + 1) n (a ++ b)) = _
    rw [ih hup, hmarks]
    apply flip_append
    · rw [flipsBy_length, hm.length, ha]
    · exact hends

/-- A run and what is around it do not meet. -/
theorem flipsBy_run (hm : Local marks) {level : Nat} (n : Nat) {u S v : List Nat} (hrun : IsRun level u S v) {a s : List α}
    (b : List α) (ha : a.length = u.length) (hs : s.length = S.length) :
    flipsBy marks (u ++ (S ++ v)) level n (a ++ (s ++ b)) =
      flipsBy marks u level n a ++ (flipsBy marks S level n s ++ flipsBy marks v level n b) := by
  rw [flipsBy_cut hm n _ ha (.inl hrun.before), flipsBy_cut hm n b hs (.inr hrun.behind)]

end Marks

theorem ruleMarks_local : Local ruleMarks where
  length := ruleMarks_length
  cut := by
    intro level u v h
    refine ⟨List.map_append, ?_⟩
    rcases h with h | h
    · left
      unfold ruleMarks
      rw [List.getLast?_map]
      cases hl : u.getLast? with
      | none => simp
      | some l => simpa using Nat.not_le.mpr (h l hl)
    · right
      unfold ruleMarks
      rw [List.head?_map]
      cases hl : v.head? with
      | none => simp
      | some l => simpa using Nat.not_le.mpr (h l hl)

theorem codeMarks_append (level : Nat) (b : Bool) (u : List Nat) (l : Nat) (v : List Nat) :
    codeMarks level b (u ++ l :: v) = codeMarks level b (u ++ [l]) ++
      codeMarks level ((codeMarks level b (u ++ [l])).getLast?.getD false) v := by
  induction u generalizing b with
  | nil => rfl
  | cons x u ih =>
    rw [List.cons_append, List.cons_append, codeMarks, codeMarks, ih, List.cons_append]
    congr 3
    rcases hc : codeMarks level (b && decide (level ≤ x) || x == level) (u ++ [l]) with _ | ⟨c, cs⟩
    · have := congrArg List.length hc
      simp at this
    · rw [List.getLast?_cons_cons]

theorem codeMarks_last {level : Nat} (b : Bool) (u : List Nat) {l : Nat} (h : l < level) :
    (codeMarks level b (u ++ [l])).getLast? = some false := by
  induction u generalizing b with
  | nil =>
    have h1 : decide (level ≤ l) = false := decide_eq_false (Nat.not_le.mpr h)
    have h2 : (l == level) = false := by simpa using Nat.ne_of_lt h
    rw [List.nil_append, codeMarks, h1, h2, codeMarks, Bool.and_false]
    rfl
  | cons x u ih =>
    rw [List.cons_append, codeMarks]
    rcases hc : codeMarks level (b && decide (level ≤ x) || x == level) (u ++ [l]) with _ | ⟨c, cs⟩
    · have := congrArg List.length hc
      simp at this
    · rw [List.getLast?_cons_cons, ← hc, ih]

/-- The code's marks on a whole array. -/
def codeStart (level : Nat) (levels : List Nat) : List Bool := codeMarks level false levels

theorem codeStart_local : Local codeStart where
  length := fun level levels => codeMarks_length level false levels
  cut := by
    intro level u v h
    rcases List.eq_nil_or_concat u with rfl | ⟨u, l, rfl⟩
    · exact ⟨rfl, .inl (by simp [codeStart, codeMarks])⟩
    · rw [List.concat_eq_append] at h ⊢
      unfold codeStart
      rw [List.append_assoc, List.singleton_append, codeMarks_append]
      rcases h with h | h
      · have hlast := codeMarks_last false u (h l (by simp))
        exact ⟨by rw [hlast]; rfl, .inl (by rw [hlast]; simp)⟩
      · exact ⟨by rw [(codeMarks_below h _).1], .inr (codeMarks_below h false).2⟩

/-! ## The code and the rule in these terms -/

theorem flipsFrom_eq (levels : List Nat) (n : Nat) {line : List α} (hlen : line.length = levels.length) :
    flipsFrom levels n line = flipsBy codeStart levels 1 n line := by
  induction n generalizing line with
  | zero => rfl
  | succ n ih =>
    rw [flipsFrom, flipThisRun_eq levels (n + 1) hlen, ih (by rw [flip_length, hlen]), flipsBy, flipsBy, descend_top,
      Nat.add_comm 1 n, codeStart]

/-- Below the level being reversed, levels stay on their side of every lower level. -/
theorem reverseRuns_marks {level j : Nat} (hj : j ≤ level) (line : List (Nat × α)) :
    (reverseRuns level line).map (fun c => decide (j ≤ c.1)) = line.map fun c => decide (j ≤ c.1) := by
  unfold reverseRuns
  rw [map_flip]
  apply flip_const
  · rw [List.length_map, List.length_map]
  · intro p hp
    rw [List.zip_map', List.mem_map] at hp
    obtain ⟨c, -, rfl⟩ := hp
    intro h
    exact decide_eq_true (Nat.le_trans hj (of_decide_eq_true h))

theorem l2From_eq (levels : List Nat) {n : Nat} {line : List (Nat × α)}
    (h : ∀ j ≤ n, line.map (fun c => decide (j ≤ c.1)) = ruleMarks j levels) :
    (l2From n line).map Prod.snd = flipsBy ruleMarks levels 1 n (line.map Prod.snd) := by
  induction n generalizing line with
  | zero => rfl
  | succ n ih =>
    rw [l2From, ih fun j hj => by rw [reverseRuns_marks (by omega), h j (by omega)], flipsBy, flipsBy, descend_top,
      Nat.add_comm 1 n, reverseRuns, map_flip, h (n + 1) (Nat.le_refl _)]

theorem l2_eq (levels : List Nat) {line : List α} (hlen : line.length = levels.length) :
    l2 levels line = flipsBy ruleMarks levels 1 (maxLevel levels) line := by
  unfold l2
  rw [l2From_eq levels, List.map_snd_zip (by omega)]
  intro j _
  have hfst : ((levels.zip line).map Prod.fst).map (fun l => decide (j ≤ l)) =
      (levels.zip line).map fun c => decide (j ≤ c.1) := List.map_map
  rw [← hfst, List.map_fst_zip (by omega), ruleMarks]

/-! ## One level -/

/-- The rule turns a whole run round. -/
theorem ruleFlips_run {level : Nat} (n : Nat) {R : List Nat} (hR : ∀ l ∈ R, level ≤ l) {line : List α}
    (hlen : line.length = R.length) : flipsBy ruleMarks R level (n + 1) line = (flipsBy ruleMarks R (level + 1) n line).reverse := by
  apply flip_true
  · intro b hb
    obtain ⟨l, hl, rfl⟩ := List.mem_map.mp hb
    exact decide_eq_true (hR l hl)
  · rw [ruleMarks_length]
    exact (flipsBy_length R (level + 1) n line).trans hlen

/-- The code turns it round from the first character at the level on. -/
theorem codeFlips_run {level : Nat} (n : Nat) {P Q : List Nat} (hP : ∀ l ∈ P, level < l) (hQ : ∀ l ∈ Q, level ≤ l)
    (hhead : Q = [] ∨ Q.head? = some level) {a b : List α} (ha : a.length = P.length) (hb : b.length = Q.length) :
    flipsBy codeStart (P ++ Q) level (n + 1) (a ++ b) = flipsBy codeStart P (level + 1) n a ++ (flipsBy codeStart Q (level + 1) n b).reverse := by
  have hcut : ∀ l ∈ Q.head?, l < level + 1 := by
    intro l hl
    rcases hhead with rfl | h
    · cases hl
    · rw [h] at hl
      rw [← Option.some.inj hl]
      exact Nat.lt_succ_self _
  show flip (codeMarks level false (P ++ Q)) (flipsBy codeStart (P ++ Q) (level + 1) n (a ++ b)) = _
  rw [flipsBy_cut codeStart_local n b ha (.inr hcut), codeMarks_skip (fun l hl => Nat.ne_of_gt (hP l hl)),
    flip_replicate_false _ (by rw [flipsBy_length, ha])]
  rcases hhead with rfl | h
  · obtain rfl := List.length_eq_zero_iff.mp hb
    rw [flipsBy_nil, flip_nil, List.reverse_nil]
  · have hmarks := codeMarks_begin h hQ []
    rw [List.append_nil, codeMarks, List.append_nil] at hmarks
    rw [hmarks, flip_true (fun _ => List.eq_of_mem_replicate)]
    rw [flipsBy_length, hb, List.length_replicate]

/-! ## Agreement on the runs -/

theorem agree_on_run {level n : Nat} {u S v : List Nat} (hrun : IsRun level u S v) {a s b : List α}
    (ha : a.length = u.length) (hs : s.length = S.length)
    (h : flipsBy codeStart (u ++ (S ++ v)) level n (a ++ (s ++ b)) = flipsBy ruleMarks (u ++ (S ++ v)) level n (a ++ (s ++ b))) :
    flipsBy codeStart S level n s = flipsBy ruleMarks S level n s := by
  rw [flipsBy_run codeStart_local n hrun b ha hs, flipsBy_run ruleMarks_local n hrun b ha hs] at h
  have h1 := (List.append_inj h (by rw [flipsBy_length, flipsBy_length])).2
  exact (List.append_inj h1 (by rw [flipsBy_length, flipsBy_length])).1

/-- Agreement on every maximal run is agreement on the line. -/
theorem agree_of_runs {level n : Nat} (levels : List Nat) {line : List α} (hlen : line.length = levels.length)
    (h : ∀ u S v a s b, levels = u ++ (S ++ v) → line = a ++ (s ++ b) → a.length = u.length → s.length = S.length →
      IsRun level u S v → flipsBy codeStart S level n s = flipsBy ruleMarks S level n s) :
    flipsBy codeStart levels level n line = flipsBy ruleMarks levels level n line := by
  induction hk : levels.length using Nat.strongRecOn generalizing levels line with
  | _ k ih =>
    rcases levels with _ | ⟨l, levels⟩
    · obtain rfl := List.length_eq_zero_iff.mp hlen
      rw [flipsBy_nil, flipsBy_nil]
    · -- the beginning: one character below the level, or a whole run
      obtain ⟨S, v, hsplit, hne, hagree, hlast⟩ : ∃ S v, l :: levels = S ++ v ∧ S ≠ [] ∧
          (∀ s b, line = s ++ b → s.length = S.length → flipsBy codeStart S level n s = flipsBy ruleMarks S level n s) ∧
          ((∀ x ∈ S.getLast?, x < level) ∨ ∀ x ∈ v.head?, x < level) := by
        by_cases hl : l < level
        · refine ⟨[l], levels, rfl, by simp, fun s b _ hs => ?_, .inl (by simpa using hl)⟩
          obtain ⟨x, rfl⟩ := List.length_eq_one_iff.mp hs
          rw [flipsBy_singleton, flipsBy_singleton]
        · have hle := Nat.not_lt.mp hl
          have hbehind : ∀ x ∈ ((l :: levels).dropWhile (level ≤ ·)).head?, x < level := by
            intro x hx
            have hnot := List.head?_dropWhile_not (fun x => decide (level ≤ x)) (l :: levels)
            rw [hx] at hnot
            simpa using hnot
          have hsplit := (List.takeWhile_append_dropWhile (p := (level ≤ ·)) (l := l :: levels)).symm
          refine ⟨_, _, hsplit, by simp [hle], fun s b hb hs => ?_, .inr hbehind⟩
          exact h [] _ _ [] s b hsplit hb rfl hs
            ⟨by simp [hle], fun x hx => by simpa using List.mem_takeWhile_imp hx, by simp, hbehind⟩
      have hSlen := List.length_pos_of_ne_nil hne
      rw [hsplit] at hlen hk h ⊢
      rw [List.length_append] at hlen hk
      obtain ⟨s, b, rfl, hs⟩ : ∃ s b, line = s ++ b ∧ s.length = S.length :=
        ⟨line.take S.length, line.drop S.length, (List.take_append_drop _ _).symm, by rw [List.length_take]; omega⟩
      rw [List.length_append] at hlen
      rw [flipsBy_cut codeStart_local n b hs hlast, flipsBy_cut ruleMarks_local n b hs hlast]
      have hrest : flipsBy codeStart v level n b = flipsBy ruleMarks v level n b := by
        apply ih v.length (by omega) v (by omega) ?_ rfl
        intro u S' v' a s' b' hv hb ha hs' hrun'
        -- a maximal run of the rest is one of the whole
        refine h (S ++ u) S' v' (s ++ a) s' b' (by rw [hv, List.append_assoc]) (by rw [hb, List.append_assoc])
          (by rw [List.length_append, List.length_append, ha, hs]) hs' ⟨hrun'.ne, hrun'.high, ?_, hrun'.behind⟩
        intro x hx
        rcases List.eq_nil_or_concat u with rfl | ⟨u, y, rfl⟩
        · rw [List.append_nil] at hx
          rcases hlast with hlast | hlast
          · exact hlast x hx
          · exfalso
            rw [hv, List.nil_append] at hlast
            obtain ⟨y, S', rfl⟩ := List.exists_cons_of_ne_nil hrun'.ne
            exact Nat.not_le.mpr (hlast y rfl) (hrun'.high y List.mem_cons_self)
        · rw [List.concat_eq_append] at hx hrun'
          rw [← List.append_assoc, List.getLast?_concat] at hx
          exact hrun'.before x (by rw [List.getLast?_concat]; exact hx)
      exact congrArg₂ (· ++ ·) (hagree s b rfl hs) hrest

/-- A line without repetitions is the same from both ends only when it is short. -/
theorem turned_first {x : α} {s c c' : List α} (hs : (x :: s).Nodup) (hc : c.Perm s)
    (h : (x :: c).reverse = x :: c') : s = [] := by
  rcases List.eq_nil_or_concat c with rfl | ⟨c, y, rfl⟩
  · exact List.perm_nil.mp hc.symm
  · rw [List.concat_eq_append] at h hc
    rw [List.reverse_cons, List.reverse_append, List.reverse_singleton, List.singleton_append, List.cons_append] at h
    obtain rfl := (List.cons.inj h).1
    exact absurd (hc.subset (List.mem_append_right c List.mem_cons_self)) (List.nodup_cons.mp hs).1

/-- Bounds of a run of a run. -/
theorem run_bound {m : Nat} {R u S v : List Nat} (hR : ∀ l ∈ R, l < m) (hsplit : R = u ++ (S ++ v)) :
    ∀ l ∈ S, l < m := fun l hl => hR l (by rw [hsplit]; simp [hl])

/-- What is proved of a run, for both ways to come out. -/
structure Decided (level n : Nat) (R : List Nat) (line : List α) : Prop where
  kept : Kept level R → flipsBy codeStart R level n line = flipsBy ruleMarks R level n line
  of_kept : line.Nodup → flipsBy codeStart R level n line = flipsBy ruleMarks R level n line → Kept level R
  turned : Turned level R → flipsBy codeStart R level n line = (flipsBy ruleMarks R level n line).reverse
  of_turned : line.Nodup → flipsBy codeStart R level n line = (flipsBy ruleMarks R level n line).reverse → Turned level R

theorem split_run {level : Nat} (R : List Nat) (hR : ∀ l ∈ R, level ≤ l) :
    ∃ P Q, R = P ++ Q ∧ (∀ l ∈ P, level < l) ∧ (∀ l ∈ Q, level ≤ l) ∧ (Q = [] ∨ Q.head? = some level) := by
  have hsplit := (List.takeWhile_append_dropWhile (p := (level < ·)) (l := R)).symm
  have hQ : ∀ l ∈ R.dropWhile (level < ·), level ≤ l := fun l hl => hR l (List.dropWhile_subset _ hl)
  refine ⟨_, _, hsplit, fun l hl => by simpa using List.mem_takeWhile_imp hl, hQ, ?_⟩
  have hnot := List.head?_dropWhile_not (fun x => decide (level < x)) R
  cases hd : R.dropWhile (level < ·) with
  | nil => exact .inl rfl
  | cons l Q =>
    rw [hd] at hnot hQ
    have hle : l ≤ level := by simpa using hnot
    exact .inr (congrArg some (Nat.le_antisymm hle (hQ l List.mem_cons_self)))

section Run

variable {level n : Nat} {line : List α}

/-- A run that begins at its level. -/
theorem decided_begins {R : List Nat} (hhead : R.head? = some level) (hR : ∀ l ∈ R, level ≤ l)
    (hlen : line.length = R.length)
    (ih : ∀ u S v a s b, R = u ++ (S ++ v) → line = a ++ (s ++ b) → s.length = S.length → IsRun (level + 1) u S v →
      Decided (level + 1) n S s) : Decided level (n + 1) R line := by
  have hcode : flipsBy codeStart R level (n + 1) line = (flipsBy codeStart R (level + 1) n line).reverse := by
    have := codeFlips_run n (P := []) (a := ([] : List α)) (by simp) hR (.inr hhead) rfl hlen
    rw [List.nil_append, List.nil_append] at this
    rw [this, flipsBy_nil, List.nil_append]
  have hrule := ruleFlips_run n hR hlen
  refine ⟨?_, ?_, ?_, ?_⟩
  · intro hkept
    rw [hcode, hrule]
    congr 1
    apply agree_of_runs R hlen
    intro u S v a s b hsplit hline _ hs hrun
    apply (ih u S v a s b hsplit hline hs hrun).kept
    cases hkept with
    | begins _ hruns => exact hruns u S v hsplit hrun
    | above habove _ =>
      obtain ⟨l, R, rfl⟩ := List.exists_cons_of_ne_nil (fun h : R = [] => by rw [h] at hhead; cases hhead)
      have := habove l List.mem_cons_self
      rw [Option.some.inj hhead] at this
      exact absurd this (Nat.lt_irrefl _)
  · intro hnodup heq
    rw [hcode, hrule] at heq
    have heq' := List.reverse_injective heq
    refine .begins hhead fun u S v hsplit hrun => ?_
    obtain ⟨a, s, b, rfl, ha, hs⟩ : ∃ a s b, line = a ++ (s ++ b) ∧ a.length = u.length ∧ s.length = S.length := by
      rw [hsplit, List.length_append, List.length_append] at hlen
      exact ⟨line.take u.length, (line.drop u.length).take S.length, (line.drop u.length).drop S.length,
        by rw [List.take_append_drop, List.take_append_drop], by rw [List.length_take]; omega,
        by rw [List.length_take, List.length_drop]; omega⟩
    apply (ih u S v a s b hsplit rfl hs hrun).of_kept
    · exact (List.nodup_append.mp (List.nodup_append.mp hnodup).2.1).1
    · subst hsplit
      exact agree_on_run hrun ha hs heq'
  · intro hturned
    obtain ⟨l, rfl⟩ : ∃ l, R = [l] := by
      cases hturned with
      | single l => exact ⟨l, rfl⟩
      | last hne hP _ =>
        exfalso
        obtain ⟨l, P, rfl⟩ := List.exists_cons_of_ne_nil hne
        have := hP l List.mem_cons_self
        rw [Option.some.inj hhead] at this
        exact Nat.lt_irrefl _ this
      | above habove _ =>
        exfalso
        obtain ⟨l, R, rfl⟩ := List.exists_cons_of_ne_nil (fun h : R = [] => by rw [h] at hhead; cases hhead)
        have := habove l List.mem_cons_self
        rw [Option.some.inj hhead] at this
        exact Nat.lt_irrefl _ this
    obtain ⟨x, rfl⟩ := List.length_eq_one_iff.mp hlen
    rw [flipsBy_singleton, flipsBy_singleton]
    rfl
  · intro hnodup heq
    rw [hcode, hrule, List.reverse_reverse] at heq
    obtain ⟨l, R, rfl⟩ := List.exists_cons_of_ne_nil (fun h : R = [] => by rw [h] at hhead; cases hhead)
    obtain rfl : l = level := Option.some.inj hhead
    obtain ⟨x, s, rfl⟩ := List.exists_cons_of_ne_nil (fun h : line = [] => by rw [h] at hlen; cases hlen)
    -- the first character stays first one level up
    have hfirst : ∀ marks, Local marks → flipsBy marks (l :: R) (l + 1) n (x :: s) = x :: flipsBy marks R (l + 1) n s := by
      intro marks hm
      have := flipsBy_cut hm n (v := R) (a := [x]) s rfl (show (∀ k ∈ [l].getLast?, k < l + 1) ∨ _ from .inl (by simp))
      rw [List.singleton_append, List.singleton_append] at this
      rw [this, flipsBy_singleton]
      rfl
    rw [hfirst _ codeStart_local, hfirst _ ruleMarks_local] at heq
    obtain rfl := turned_first hnodup (flipsBy_perm R (l + 1) n s) heq
    obtain rfl : R = [] := List.length_eq_zero_iff.mp (Nat.succ.inj hlen).symm
    exact .single l

/-- A run that is higher throughout. -/
theorem decided_above {R : List Nat} (hR : ∀ l ∈ R, level < l) (hne : R ≠ []) (hlen : line.length = R.length)
    (ih : Decided (level + 1) n R line) : Decided level (n + 1) R line := by
  have hcode : flipsBy codeStart R level (n + 1) line = flipsBy codeStart R (level + 1) n line := by
    have := codeFlips_run n (Q := []) (b := ([] : List α)) hR (by simp) (.inl rfl) hlen rfl
    rw [List.append_nil, List.append_nil] at this
    rw [this, flipsBy_nil, List.reverse_nil, List.append_nil]
  have hrule := ruleFlips_run n (fun l hl => Nat.le_of_lt (hR l hl)) hlen
  obtain ⟨l, hl⟩ := List.exists_mem_of_ne_nil R hne
  refine ⟨?_, ?_, ?_, ?_⟩
  · intro hkept
    rw [hcode, hrule]
    apply ih.turned
    cases hkept with
    | begins hhead _ =>
      have := hR level (List.mem_of_mem_head? hhead)
      exact absurd this (Nat.lt_irrefl _)
    | above _ hturned => exact hturned
  · intro hnodup heq
    rw [hcode, hrule] at heq
    exact .above hR (ih.of_turned hnodup heq)
  · intro hturned
    rw [hcode, hrule, List.reverse_reverse]
    cases hturned with
    | single l =>
      obtain ⟨x, rfl⟩ := List.length_eq_one_iff.mp hlen
      rw [flipsBy_singleton, flipsBy_singleton]
    | last _ _ _ =>
      have := hR level (List.mem_append_right _ List.mem_cons_self)
      exact absurd this (Nat.lt_irrefl _)
    | above _ hkept => exact ih.kept hkept
  · intro hnodup heq
    rw [hcode, hrule, List.reverse_reverse] at heq
    exact .above hR (ih.of_kept hnodup heq)

/-- A run that comes down to its level only later. -/
theorem decided_late {P Q : List Nat} (hP : ∀ l ∈ P, level < l) (hPne : P ≠ []) (hQ : ∀ l ∈ Q, level ≤ l)
    (hhead : Q.head? = some level) {a b : List α} (ha : a.length = P.length) (hb : b.length = Q.length)
    (ih : Decided (level + 1) n P a) : Decided level (n + 1) (P ++ Q) (a ++ b) := by
  have hcode := codeFlips_run n hP hQ (.inr hhead) ha hb
  have hrule : flipsBy ruleMarks (P ++ Q) level (n + 1) (a ++ b) =
      (flipsBy ruleMarks P (level + 1) n a ++ flipsBy ruleMarks Q (level + 1) n b).reverse := by
    rw [ruleFlips_run n (fun l hl => (List.mem_append.mp hl).elim (fun h => Nat.le_of_lt (hP l h)) (hQ l))
      (by rw [List.length_append, List.length_append, ha, hb])]
    congr 1
    apply flipsBy_cut ruleMarks_local n b ha
    right
    intro l hl
    rw [hhead] at hl
    rw [← Option.some.inj hl]
    exact Nat.lt_succ_self _
  obtain ⟨q, Q, rfl⟩ := List.exists_cons_of_ne_nil (fun h : Q = [] => by rw [h] at hhead; cases hhead)
  obtain rfl : q = level := Option.some.inj hhead
  obtain ⟨x, a', rfl⟩ := List.exists_cons_of_ne_nil (fun h : a = [] => hPne (List.length_eq_zero_iff.mp (by rw [← ha, h]; rfl)))
  obtain ⟨y, b', rfl⟩ := List.exists_cons_of_ne_nil (fun h : b = [] => by rw [h] at hb; cases hb)
  refine ⟨?_, ?_, ?_, ?_⟩
  · intro hkept
    exfalso
    obtain ⟨p, P, rfl⟩ := List.exists_cons_of_ne_nil hPne
    have hp := hP p List.mem_cons_self
    cases hkept with
    | begins hbegin _ =>
      rw [Option.some.inj hbegin] at hp
      exact Nat.lt_irrefl _ hp
    | above habove _ => exact Nat.lt_irrefl _ (habove q (List.mem_append_right _ List.mem_cons_self))
  · -- the code leaves a character of `a` first, the rule puts one of `b` there
    intro hnodup heq
    exfalso
    rw [hcode, hrule, List.reverse_append] at heq
    have hca : (flipsBy codeStart P (q + 1) n (x :: a')).Perm (x :: a') := flipsBy_perm P (q + 1) n (x :: a')
    have hrb : (flipsBy ruleMarks (q :: Q) (q + 1) n (y :: b')).reverse.Perm (y :: b') :=
      (List.reverse_perm _).trans (flipsBy_perm (q :: Q) (q + 1) n (y :: b'))
    rcases hc : flipsBy codeStart P (q + 1) n (x :: a') with _ | ⟨z, c⟩
    · rw [hc] at hca
      exact absurd hca.length_eq (by simp)
    · rcases hr : (flipsBy ruleMarks (q :: Q) (q + 1) n (y :: b')).reverse with _ | ⟨w, r⟩
      · rw [hr] at hrb
        exact absurd hrb.length_eq (by simp)
      · rw [hc, hr, List.cons_append, List.cons_append] at heq
        obtain rfl := (List.cons.inj heq).1
        rw [hc] at hca
        rw [hr] at hrb
        exact (List.nodup_append.mp hnodup).2.2 _ (hca.subset List.mem_cons_self) _ (hrb.subset List.mem_cons_self) rfl
  · intro hturned
    obtain ⟨rfl, hkept⟩ : Q = [] ∧ Kept (q + 1) P := by
      generalize hR : P ++ q :: Q = R at hturned
      cases hturned with
      | single l =>
        obtain ⟨p, P, rfl⟩ := List.exists_cons_of_ne_nil hPne
        exact absurd (congrArg List.length hR) (by simp)
      | last hne hP' hkept =>
        rename_i P'
        -- the one character at the level is the last
        rcases List.append_eq_append_iff.mp hR with ⟨m, h1, h2⟩ | ⟨m, h1, h2⟩
        · rcases m with _ | ⟨z, m⟩
          · rw [List.append_nil] at h1
            rw [List.nil_append] at h2
            exact ⟨(List.cons.inj h2).2, h1 ▸ hkept⟩
          · rw [List.cons_append] at h2
            have hz := hP' z (by rw [h1]; simp)
            rw [← (List.cons.inj h2).1] at hz
            exact absurd hz (Nat.lt_irrefl _)
        · rcases m with _ | ⟨z, m⟩
          · rw [List.append_nil] at h1
            rw [List.nil_append] at h2
            exact ⟨(List.cons.inj h2).2.symm, h1 ▸ hkept⟩
          · have h3 := congrArg List.length h2
            simp at h3
      | above habove _ => exact absurd (habove q (by rw [← hR]; simp)) (Nat.lt_irrefl _)
    obtain rfl : b' = [] := List.length_eq_zero_iff.mp (Nat.succ.inj hb)
    rw [hcode, hrule, List.reverse_reverse, flipsBy_singleton, flipsBy_singleton, ih.kept hkept]
    rfl
  · intro hnodup heq
    rw [hcode, hrule, List.reverse_reverse] at heq
    obtain ⟨heqP, heqQ⟩ := List.append_inj heq (by rw [flipsBy_length, flipsBy_length])
    have hkept := ih.of_kept (List.nodup_append.mp hnodup).1 heqP
    have hfirst : ∀ marks, Local marks → flipsBy marks (q :: Q) (q + 1) n (y :: b') = y :: flipsBy marks Q (q + 1) n b' := by
      intro marks hm
      have := flipsBy_cut hm n (v := Q) (a := [y]) b' rfl (show (∀ k ∈ [q].getLast?, k < q + 1) ∨ _ from .inl (by simp))
      rw [List.singleton_append, List.singleton_append] at this
      rw [this, flipsBy_singleton]
      rfl
    rw [hfirst _ codeStart_local, hfirst _ ruleMarks_local] at heqQ
    obtain rfl := turned_first (List.nodup_append.mp hnodup).2.1 (flipsBy_perm Q (q + 1) n b') heqQ
    obtain rfl : Q = [] := List.length_eq_zero_iff.mp (Nat.succ.inj hb).symm
    exact .last hPne hP hkept

end Run

/-! ## The whole line -/

theorem decided {level n : Nat} {R : List Nat} {line : List α} (hne : R ≠ []) (hlow : ∀ l ∈ R, level ≤ l)
    (hhigh : ∀ l ∈ R, l < level + n) (hlen : line.length = R.length) : Decided level n R line := by
  induction n generalizing level R line with
  | zero =>
    obtain ⟨l, hl⟩ := List.exists_mem_of_ne_nil R hne
    exact absurd (hhigh l hl) (Nat.not_lt.mpr (hlow l hl))
  | succ n ih =>
    have hup : ∀ l ∈ R, l < level + 1 + n := fun l hl => by
      have := hhigh l hl
      omega
    obtain ⟨P, Q, rfl, hP, hQ, hhead⟩ := split_run R hlow
    rcases hhead with rfl | hhead
    · rw [List.append_nil] at hne hlen hup ⊢
      exact decided_above hP hne hlen (ih hne hP hup hlen)
    · rcases P with _ | ⟨p, P⟩
      · rw [List.nil_append] at hlen hup ⊢
        apply decided_begins hhead hQ hlen
        intro u S v a s b hsplit _ hs hrun
        exact ih hrun.ne hrun.high (run_bound hup hsplit) hs
      · obtain ⟨a, b, rfl, ha, hb⟩ : ∃ a b, line = a ++ b ∧ a.length = (p :: P).length ∧ b.length = Q.length := by
          rw [List.length_append] at hlen
          exact ⟨line.take (p :: P).length, line.drop (p :: P).length, (List.take_append_drop _ _).symm,
            by rw [List.length_take]; omega, by rw [List.length_drop]; omega⟩
        apply decided_late hP (by simp) hQ hhead ha hb
        exact ih (by simp) hP (fun l hl => hup l (List.mem_append_left _ hl)) ha

theorem le_maxLevel (levels : List Nat) : ∀ l ∈ levels, l ≤ maxLevel levels := by
  have hfold : ∀ (ls : List Nat) (m : Nat), (m ≤ ls.foldl (fun t l => if l > t then l else t) m) ∧
      ∀ l ∈ ls, l ≤ ls.foldl (fun t l => if l > t then l else t) m := by
    intro ls
    induction ls with
    | nil => exact fun m => ⟨Nat.le_refl _, by simp⟩
    | cons x ls ih =>
      intro m
      obtain ⟨h1, h2⟩ := ih (if x > m then x else m)
      have hx : m ≤ (if x > m then x else m) ∧ x ≤ (if x > m then x else m) := by split <;> omega
      refine ⟨Nat.le_trans hx.1 h1, ?_⟩
      intro l hl
      rcases List.mem_cons.mp hl with rfl | hl
      · exact Nat.le_trans hx.2 h1
      · exact h2 l hl
  exact (hfold levels _).2

/-- Every maximal run at level 1 or higher is kept. -/
def L2Kept (levels : List Nat) : Prop := ∀ u S v, levels = u ++ (S ++ v) → IsRun 1 u S v → Kept 1 S

theorem run_decided {levels u S v : List Nat} (hsplit : levels = u ++ (S ++ v)) (hrun : IsRun 1 u S v) {s : List α}
    (hs : s.length = S.length) : Decided 1 (maxLevel levels) S s :=
  decided hrun.ne hrun.high (run_bound (fun l hl => by have := le_maxLevel levels l hl; omega) hsplit) hs

theorem flips_l2_of_kept {levels : List Nat} (h : L2Kept levels) {line : List α} (hlen : line.length = levels.length) :
    flips levels line = l2 levels line := by
  rw [flips, flipsFrom_eq levels _ hlen, l2_eq levels hlen]
  apply agree_of_runs levels hlen
  intro u S v a s b hsplit _ _ hs hrun
  exact (run_decided hsplit hrun hs).kept (h u S v hsplit hrun)

/-- Characters that can be told apart show where the code leaves the rule. -/
theorem kept_of_flips_l2 {levels : List Nat} {line : List α} (hlen : line.length = levels.length) (hnodup : line.Nodup)
    (h : flips levels line = l2 levels line) : L2Kept levels := by
  rw [flips, flipsFrom_eq levels _ hlen, l2_eq levels hlen] at h
  intro u S v hsplit hrun
  obtain ⟨a, s, b, rfl, ha, hs⟩ : ∃ a s b, line = a ++ (s ++ b) ∧ a.length = u.length ∧ s.length = S.length := by
    rw [hsplit, List.length_append, List.length_append] at hlen
    exact ⟨line.take u.length, (line.drop u.length).take S.length, (line.drop u.length).drop S.length,
      by rw [List.take_append_drop, List.take_append_drop], by rw [List.length_take]; omega,
      by rw [List.length_take, List.length_drop]; omega⟩
  apply (run_decided hsplit hrun hs).of_kept (List.nodup_append.mp (List.nodup_append.mp hnodup).2.1).1
  apply agree_on_run hrun ha hs
  rw [← hsplit]
  exact h

/-- The code's reordering of the lines with these levels is rule L2's. -/
theorem flips_l2_iff (levels : List Nat) :
    (∀ (α : Type) (line : List α), line.length = levels.length → flips levels line = l2 levels line) ↔ L2Kept levels := by
  constructor
  · intro h
    exact kept_of_flips_l2 List.length_range List.nodup_range (h Nat (List.range levels.length) List.length_range)
  · intro h α line hlen
    exact flips_l2_of_kept h hlen

/-- A digit in front of a Hebrew letter, in right-to-left text. -/
theorem digit_before_letter : flips [2, 1] [0x31, 0x5d0] = [0x31, 0x5d0] ∧ l2 [2, 1] [0x31, 0x5d0] = [0x5d0, 0x31] := by
  have hlen : [0x31, 0x5d0].length = [2, 1].length := rfl
  refine ⟨?_, by decide⟩
  rw [flips, flipsFrom_eq [2, 1] (maxLevel [2, 1]) hlen]
  decide

end Putty.Bidi
