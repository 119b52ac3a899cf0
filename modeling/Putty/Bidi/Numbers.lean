/-
  Putty.Bidi.Numbers — European numbers before any letter, and the levels of a whole line.

  W7 does not count the start of a left-to-right line as left-to-right text, so a European
  number before any letter stays one there (`w7_same`, `w7_differs`), and gets a level of
  its own. Together with the neutrals at the ends of a line this is all that do_bidi does
  otherwise than the rules with boundary neutrals kept in the text (`levels_kept_iff`).
  `levels_right` compares with the levels of the standard, which takes them out.
-/

import Putty.Bidi.Resolve

namespace Putty.Bidi

open BidiType Standard

/-! ## Numbers before any letter -/

def Strong (t : BidiType) : Prop := t = L ∨ t = R ∨ t = AL

instance (t : BidiType) : Decidable (Strong t) := inferInstanceAs (Decidable (_ ∨ _ ∨ _))

/-- The first letter or European number is a number. -/
def NumberFirst (l : List BidiType) : Prop := l.find? (fun t => Strong t ∨ t = EN) = some EN

instance (l : List BidiType) : Decidable (NumberFirst l) := inferInstanceAs (Decidable (_ = _))

theorem numberFirst_cons (t : BidiType) (l : List BidiType) : NumberFirst (t :: l) ↔ t = EN ∨ (¬ Strong t ∧ NumberFirst l) := by
  unfold NumberFirst
  by_cases hs : Strong t
  · rw [List.find?_cons_of_pos (by simp [hs])]
    have hne : t ≠ EN := by
      rintro rfl
      exact absurd hs (by decide)
    simp [hs, hne]
  · by_cases hn : t = EN
    · rw [List.find?_cons_of_pos (by simp [hn])]
      simp [hn]
    · rw [List.find?_cons_of_neg (by simp [hs, hn])]
      simp [hs, hn]

theorem not_numberFirst_nil : ¬ NumberFirst [] := nofun

/-- Rules that carry something along and keep letters and European numbers apart from the rest. -/
theorem numberFirst_scan {σ : Type} {f : σ → List BidiType → List BidiType} {P : σ → Prop} (hnil : ∀ s, f s [] = [])
    (hcons : ∀ s t l, P s → ∃ u s', f s (t :: l) = u :: f s' l ∧ (u = EN ↔ t = EN) ∧ (Strong u ↔ Strong t) ∧
      (t ≠ EN → ¬ Strong t → P s')) (l : List BidiType) {s : σ} (hs : P s) : NumberFirst (f s l) ↔ NumberFirst l := by
  induction l generalizing s with
  | nil => rw [hnil]
  | cons t l ih =>
    obtain ⟨u, s', heq, hen, hstrong, hinv⟩ := hcons s t l hs
    rw [heq, numberFirst_cons, numberFirst_cons, hen, hstrong]
    by_cases ht : t = EN
    · simp [ht]
    · by_cases hst : Strong t
      · simp [hst]
      · rw [ih (hinv ht hst)]

theorem numberFirst_w1 (l : List BidiType) {p : BidiType} (hp : p ≠ EN ∧ ¬ Strong p) : NumberFirst (w1 p l) ↔ NumberFirst l := by
  refine numberFirst_scan (f := w1) (P := fun p => p ≠ EN ∧ ¬ Strong p) (fun _ => rfl) (fun p t l hp => ⟨_, _, rfl, ?_⟩) l hp
  by_cases ht : t = NSM
  · subst ht
    rw [if_pos rfl]
    exact ⟨iff_of_false hp.1 (by decide), iff_of_false hp.2 (by decide), fun _ _ => hp⟩
  · rw [if_neg ht]
    exact ⟨Iff.rfl, Iff.rfl, fun h h' => ⟨h, h'⟩⟩

theorem numberFirst_w2 (l : List BidiType) {strong : BidiType} (hs : strong ≠ AL) : NumberFirst (w2 strong l) ↔ NumberFirst l := by
  refine numberFirst_scan (f := w2) (P := fun strong => strong ≠ AL) (fun _ => rfl) (fun strong t l hs => ⟨_, _, rfl, ?_⟩) l hs
  rw [if_neg fun h => hs h.2]
  refine ⟨Iff.rfl, Iff.rfl, fun _ hst => ?_⟩
  rw [if_neg (show ¬ (t = L ∨ t = R ∨ t = AL) from hst)]
  exact hs

theorem numberFirst_map {g : BidiType → BidiType} (hg : ∀ t, (g t = EN ↔ t = EN) ∧ (Strong (g t) ↔ Strong t)) (l : List BidiType) :
    NumberFirst (l.map g) ↔ NumberFirst l := by
  induction l with
  | nil => rfl
  | cons t l ih =>
    rw [List.map_cons, numberFirst_cons, numberFirst_cons, (hg t).1, (hg t).2]
    exact or_congr Iff.rfl (and_congr Iff.rfl ih)

theorem numberFirst_w4 (l : List BidiType) {prev : Option BidiType} (hp : prev ≠ some EN) : NumberFirst (w4 prev l) ↔ NumberFirst l := by
  refine numberFirst_scan (f := w4) (P := fun prev => prev ≠ some EN) (fun _ => rfl) (fun prev t l hp => ⟨_, _, rfl, ?_⟩) l hp
  rw [if_neg fun h => hp h.2.1]
  by_cases ht : t = CS ∧ prev = some AN ∧ l.head? = some AN
  · rw [if_pos ht, ht.1]
    exact ⟨by decide, by decide, by decide⟩
  · rw [if_neg ht]
    exact ⟨Iff.rfl, Iff.rfl, fun hen _ h => hen (Option.some.inj h)⟩

/-- Terminators become numbers only in front of one. -/
theorem numberFirst_w5 (l : List BidiType) : NumberFirst (w5 false l) ↔ NumberFirst l := by
  have hrun : ∀ l : List BidiType, l.find? (· ≠ ET) = some EN → NumberFirst l := by
    intro l
    induction l with
    | nil => exact nofun
    | cons t l ih =>
      intro h
      rw [numberFirst_cons]
      by_cases ht : t = ET
      · rw [ht, List.find?_cons_of_neg (by simp)] at h
        exact .inr ⟨by rw [ht]; decide, ih h⟩
      · rw [List.find?_cons_of_pos (by simpa using ht)] at h
        exact .inl (Option.some.inj h)
  induction l with
  | nil => rfl
  | cons t l ih =>
    rw [w5]
    by_cases ht : t = ET
    · subst ht
      rw [if_pos rfl]
      by_cases hen : l.find? (· ≠ ET) = some EN
      · rw [if_pos (.inr hen)]
        exact iff_of_true ((numberFirst_cons _ _).mpr (.inl rfl)) ((numberFirst_cons _ _).mpr (.inr ⟨by decide, hrun l hen⟩))
      · rw [if_neg (by simpa using hen), numberFirst_cons, numberFirst_cons]
        exact or_congr Iff.rfl (and_congr Iff.rfl ih)
    · rw [if_neg ht, numberFirst_cons, numberFirst_cons]
      by_cases hen : t = EN
      · simp [hen]
      · rw [decide_eq_false hen]
        exact or_congr Iff.rfl (and_congr Iff.rfl ih)

/-- What W7 sees of the start of a left-to-right line. -/
theorem numberFirst_numbered (original : List BidiType) :
    NumberFirst (numbered L (original.map spaces)) ↔ original.head? ≠ some NSM ∧ NumberFirst original := by
  have hw3 : ∀ t, ((if t = AL then R else t) = EN ↔ t = EN) ∧ (Strong (if t = AL then R else t) ↔ Strong t) := by
    intro t
    cases t <;> simp [Strong]
  have hw6 : ∀ t, ((if t = ES ∨ t = ET ∨ t = CS then ON else t) = EN ↔ t = EN) ∧
      (Strong (if t = ES ∨ t = ET ∨ t = CS then ON else t) ↔ Strong t) := by
    intro t
    cases t <;> simp [Strong]
  have hspaces : ∀ t, (spaces t = EN ↔ t = EN) ∧ (Strong (spaces t) ↔ Strong t) := by
    intro t
    cases t <;> simp [spaces, Strong]
  rw [numbered, w6, numberFirst_map hw6, numberFirst_w5, numberFirst_w4 _ (by decide), w3, numberFirst_map hw3,
    numberFirst_w2 _ (by decide)]
  cases original with
  | nil => exact iff_of_false not_numberFirst_nil (fun h => not_numberFirst_nil h.2)
  | cons t l =>
    rw [List.map_cons, w1, numberFirst_cons]
    by_cases ht : t = NSM
    · subst ht
      have hmark : (if spaces NSM = NSM then L else spaces NSM) = L := rfl
      rw [hmark]
      exact iff_of_false (by simp [Strong]) (fun h => h.1 rfl)
    · have hsp : spaces t ≠ NSM := by
        unfold spaces
        split_ifs
        · decide
        · exact ht
      rw [if_neg hsp, numberFirst_cons]
      rw [(hspaces t).1, (hspaces t).2]
      have hhead : (t :: l).head? ≠ some NSM := fun h => ht (Option.some.inj h)
      simp only [ne_eq, hhead, not_false_eq_true, true_and]
      by_cases hen : t = EN
      · simp [hen]
      · by_cases hst : Strong t
        · simp [hst]
        · rw [numberFirst_w1 _ ⟨fun h => hen ((hspaces t).1.mp h), fun h => hst ((hspaces t).2.mp h)⟩, numberFirst_map hspaces]

/-- W7 sees no difference between the start of the line and right-to-left text. -/
theorem w7_same {l : List BidiType} (h : ¬ NumberFirst l) : w7 R l = w7 L l := by
  induction l with
  | nil => rfl
  | cons t l ih =>
    rw [numberFirst_cons, not_or] at h
    have hplain : ∀ s, (if t = EN ∧ s = L then L else t) = t := fun s => if_neg fun hc => h.1 hc.1
    rw [w7, w7, hplain, hplain]
    by_cases ht : t = L ∨ t = R ∨ t = AL
    · rw [if_pos ht, if_pos ht]
    · rw [if_neg ht, if_neg ht, ih fun hn => h.2 ⟨ht, hn⟩]

theorem w7_differs {l : List BidiType} (h : NumberFirst l) : ∃ i : Nat, l[i]? = some EN ∧ (w7 R l)[i]? = some EN ∧ (w7 L l)[i]? = some L := by
  induction l with
  | nil => exact absurd h not_numberFirst_nil
  | cons t l ih =>
    rw [w7, w7]
    rcases (numberFirst_cons t l).mp h with rfl | ⟨hs, hn⟩
    · exact ⟨0, rfl, rfl, rfl⟩
    · obtain ⟨i, h1, h2, h3⟩ := ih hn
      have hst : ¬ (t = L ∨ t = R ∨ t = AL) := hs
      rw [if_neg hst, if_neg hst]
      exact ⟨i + 1, h1, h2, h3⟩

/-- Neutrals and paragraph separators stay what they are. -/
def Steady (l out : List BidiType) : Prop := ∀ (i : Nat) (x : BidiType), (x = ON ∨ x = B) → l[i]? = some x → out[i]? = some x

theorem Steady.trans {a b c : List BidiType} (h : Steady a b) (h' : Steady b c) : Steady a c := fun i x hx hi => h' i x hx (h i x hx hi)

theorem steady_scan {σ : Type} {f : σ → List BidiType → List BidiType}
    (hcons : ∀ s t l, ∃ u s', f s (t :: l) = u :: f s' l ∧ ((t = ON ∨ t = B) → u = t)) (l : List BidiType) (s : σ) : Steady l (f s l) := by
  induction l generalizing s with
  | nil =>
    intro i x _ hi
    cases hi
  | cons t l ih =>
    obtain ⟨u, s', heq, hu⟩ := hcons s t l
    intro i x hx hi
    rw [heq]
    cases i with
    | zero =>
      obtain rfl : t = x := Option.some.inj hi
      rw [List.getElem?_cons_zero, hu hx]
    | succ i => exact ih s' i x hx hi

theorem steady_map {g : BidiType → BidiType} (hg : g ON = ON ∧ g B = B) (l : List BidiType) : Steady l (l.map g) := by
  rintro i x (rfl | rfl) hi
  · rw [List.getElem?_map, hi, Option.map_some, hg.1]
  · rw [List.getElem?_map, hi, Option.map_some, hg.2]

theorem steady_numbered (e : BidiType) (l : List BidiType) : Steady l (numbered e l) := by
  have h1 : Steady l (w1 e l) := by
    refine steady_scan (f := w1) (fun s t l => ⟨_, _, rfl, ?_⟩) l e
    rintro (rfl | rfl) <;> rfl
  have h2 : Steady (w1 e l) (w2 e (w1 e l)) := by
    refine steady_scan (f := w2) (fun s t l => ⟨_, _, rfl, ?_⟩) _ e
    rintro (rfl | rfl) <;> simp
  have h4 : ∀ l, Steady l (w4 none l) := by
    intro l
    refine steady_scan (f := w4) (fun s t l => ⟨_, _, rfl, ?_⟩) l none
    rintro (rfl | rfl) <;> simp
  have h5 : ∀ l, Steady l (w5 false l) := by
    intro l
    refine steady_scan (f := w5) (fun s t l => ?_) l false
    by_cases ht : t = ET
    · subst ht
      exact ⟨_, _, if_pos rfl, fun h => absurd h (by decide)⟩
    · exact ⟨_, _, if_neg ht, fun _ => rfl⟩
  exact ((((h1.trans h2).trans (steady_map ⟨rfl, rfl⟩ _)).trans (h4 _)).trans (h5 _)).trans (steady_map ⟨rfl, rfl⟩ _)

/-- A character that W7 sees as a number is none that L1 resets. -/
theorem number_not_reset {original : List BidiType} {e : BidiType} {i : Nat} (h : (numbered e (original.map spaces))[i]? = some EN) :
    ¬ Resets (original.drop i) := by
  intro hr
  rcases hd : original.drop i with _ | ⟨t, ts⟩
  · rw [hd] at hr
    exact hr
  · have ht : original[i]? = some t := by
      have h0 : (original.drop i)[0]? = some t := by rw [hd]; rfl
      rwa [List.getElem?_drop, Nat.add_zero] at h0
    have hkind : spaces t = ON ∨ spaces t = B := by
      rw [hd] at hr
      rcases hr with rfl | rfl | ⟨rfl, -⟩
      · exact .inl rfl
      · exact .inr rfl
      · exact .inl rfl
    have hsteady := steady_numbered e (original.map spaces) i (spaces t) hkind (by rw [List.getElem?_map, ht]; rfl)
    rw [h] at hsteady
    rcases hkind with hk | hk
    · rw [hk] at hsteady
      cases hsteady
    · rw [hk] at hsteady
      cases hsteady

/-! ## The levels of a line -/

/-- What the loops see of a line: no number comes before every letter of a left-to-right line,
    and no neutral alone at one end of it has a neighbour of the other direction. -/
structure Plain (original : List BidiType) : Prop where
  number : paragraphLevel original = 0 → original.head? ≠ some NSM → ¬ NumberFirst original
  ends : EndsRight (paragraphLevel original) original (weak (direction (paragraphLevel original)) (original.map spaces))

theorem length_w7 (strong : BidiType) (l : List BidiType) : (w7 strong l).length = l.length := by
  induction l generalizing strong with
  | nil => rfl
  | cons t l ih => rw [w7, List.length_cons, ih, List.length_cons]

theorem neutrals_keep {t : BidiType} (ht : t ≠ ON) (e behind : BidiType) {l : List BidiType} {i : Nat} (hi : l[i]? = some t) :
    (neutrals e behind l)[i]? = some t := by
  induction l generalizing behind i with
  | nil => cases hi
  | cons u l ih =>
    cases i with
    | zero =>
      obtain rfl : u = t := Option.some.inj hi
      rw [neutrals_ne ht]
      rfl
    | succ i =>
      by_cases hu : u = ON
      · subst hu
        rw [neutrals_on, List.getElem?_cons_succ, ih behind hi]
      · rw [neutrals_ne hu, List.getElem?_cons_succ, ih (dir e u) hi]

/-- A number before every letter of a left-to-right line gets a level of its own. -/
theorem number_differs {original m : List BidiType} (hm : m = numbered L (original.map spaces)) (hlen : m.length = original.length)
    (hn : NumberFirst m) :
    reset 0 original ((found L (w7 R m)).map (implicit 0)) ≠ reset 0 original ((neutrals L L (w7 L m)).map (implicit 0)) := by
  intro heq
  obtain ⟨i, hi, hcode, hrule⟩ := w7_differs hn
  obtain ⟨hlt, -⟩ := List.getElem?_eq_some_iff.mp hi
  have hall := (reset_eq_iff 0 (by rw [List.length_map, length_found, length_w7, hlen])
    (by rw [List.length_map, length_neutrals, length_w7, hlen])).mp heq i (hlen ▸ hlt)
  have hget := hall.resolve_left (number_not_reset (e := L) (by rw [← hm]; exact hi))
  rw [List.getElem?_map, List.getElem?_map, found_getElem?, hcode, if_neg (by decide), neutrals_keep (by decide) L L hcode,
    neutrals_keep (by decide) L L hrule] at hget
  exact absurd hget (by decide)

/-- The levels that do_bidi computes are those of the rules, boundary neutrals kept, exactly for such lines. -/
theorem levels_kept_iff {original : List BidiType} (h : NoExplicit original) (hright : original.any (fun t => t = R ∨ t = AL) = true) :
    ∃ levels, bidiLevels original = some levels ∧ (levels.map (·.toNat) = levelsKept original ↔ Plain original) := by
  obtain ⟨levels, hlevels, heq⟩ := bidiLevels_eq h hright
  refine ⟨levels, hlevels, ?_⟩
  rw [heq, levelsKept, resolve]
  rcases paragraphLevelOf_eq original with ⟨hbyte, hlevel⟩ | ⟨hbyte, hlevel⟩
  · -- a left-to-right line
    rw [hbyte, codeWeak_left]
    have hlen : (numbered L (original.map spaces)).length = original.length := by
      rw [← length_w7 R, ← codeWeak_left, length_codeWeak, List.length_map]
    have hfirst := numberFirst_numbered original
    rw [hlevel, show direction 0 = L from rfl]
    by_cases hn : NumberFirst (numbered L (original.map spaces))
    · refine iff_of_false (number_differs rfl hlen hn) fun hp => ?_
      obtain ⟨hhead, hnumber⟩ := hfirst.mp hn
      exact hp.number hlevel hhead hnumber
    · have hends := @ends_iff 0 (.inl rfl) original (w7 L (numbered L (original.map spaces))) (by rw [length_w7, hlen])
      rw [w7_same hn]
      refine hends.trans ⟨fun he => ⟨fun _ hhead hnumber => hn (hfirst.mpr ⟨hhead, hnumber⟩), ?_⟩, fun hp => ?_⟩
      · rw [hlevel]
        exact he
      · have := hp.ends
        rwa [hlevel] at this
  · -- a right-to-left line
    obtain ⟨k, l, hcode, hweak⟩ := codeWeak_right (original.map spaces)
    have hlen : (weak R (original.map spaces)).length = original.length := by
      have hboth : (weak R (original.map spaces)).length = (codeWeak 1 (original.map spaces)).length := by rw [hcode, hweak]; simp
      rw [hboth, length_codeWeak, List.length_map]
    have hends := @ends_iff 1 (.inr rfl) _ _ hlen
    rw [hbyte, hlevel, show direction 1 = R from rfl, hcode, found_front, ← hweak]
    refine hends.trans ⟨fun he => ⟨fun h0 => ?_, ?_⟩, fun hp => ?_⟩
    · rw [hlevel] at h0
      cases h0
    · rw [hlevel]
      exact he
    · have := hp.ends
      rwa [hlevel] at this

/-- The levels of the characters that X9 does not remove. -/
def visible (original : List BidiType) (levels : List Nat) : List Nat :=
  ((original.zip levels).filter fun p => p.1 ≠ BN).map Prod.snd

/-- do_bidi gives the characters of a line the levels of the algorithm. -/
def LevelsRight (original : List BidiType) : Prop :=
  ∀ levels ∈ bidiLevels original, visible original (levels.map (·.toNat)) = Standard.levels original

/-- A line with right-to-left text is plain, and its boundary neutrals make no difference to the rules. -/
def Harmless (original : List BidiType) : Prop :=
  original.any (fun t => t = R ∨ t = AL) = true → Plain original ∧ visible original (levelsKept original) = Standard.levels original

theorem visible_all {original : List BidiType} (h : ∀ t ∈ original, t ≠ BN) {levels : List Nat} (hlen : original.length ≤ levels.length) :
    visible original levels = levels.take original.length := by
  induction original generalizing levels with
  | nil => rfl
  | cons t original ih =>
    cases levels with
    | nil => exact absurd hlen (Nat.not_succ_le_zero _)
    | cons l levels =>
      have hrest := ih (fun t ht => h t (List.mem_cons_of_mem _ ht)) (Nat.le_of_succ_le_succ hlen)
      unfold visible at hrest ⊢
      rw [List.zip_cons_cons, List.filter_cons_of_pos (by simpa using h t List.mem_cons_self), List.map_cons, hrest]
      rfl

theorem length_reset (level : Nat) (classes : List BidiType) (levels : List Nat) (h : levels.length = classes.length) :
    (reset level classes levels).length = classes.length := by
  induction classes generalizing levels with
  | nil => rfl
  | cons t classes ih =>
    cases levels with
    | nil => exact absurd h.symm (Nat.succ_ne_zero _)
    | cons l levels => rw [reset, List.length_cons, ih levels (Nat.succ.inj h), List.length_cons]

theorem levels_plain {original : List BidiType} (h : ∀ t ∈ original, t ≠ BN ∧ t ≠ B) : Standard.levels original = levelsKept original := by
  have hfilter : original.filter (· ≠ BN) = original := List.filter_eq_self.mpr fun t ht => by simpa using (h t ht).1
  have hmap : original.map ni = original.map spaces := by
    refine List.map_congr_left fun t ht => ?_
    have hb := (h t ht).2
    unfold ni spaces
    exact if_congr (by tauto) rfl rfl
  rw [Standard.levels, hfilter, levelsKept, resolve, resolve, hmap]

theorem number_computed : bidiLevels [EN, L, R] = some [2, 0, 1] := by
  have h : ruleN1 [EN, L, R] = [EN, L, R] := by simp [ruleN1, ruleN1First, ruleN1Loop, ruleN1Last]
  show some (resetSeparators 0 [EN, L, R] (resetTrailing 0 [EN, L, R]
    (ruleI2 (ruleN2 [0, 0, 0] (ruleN1 [EN, L, R])) (ruleI1 (ruleN2 [0, 0, 0] (ruleN1 [EN, L, R])) [0, 0, 0])))) = _
  rw [h]
  rfl

theorem first_computed : bidiLevels [ON, AN, L, R] = some [1, 2, 0, 1] := by
  have h : ruleN1 [ON, AN, L, R] = [R, AN, L, R] := by simp [ruleN1, ruleN1First, ruleN1Loop, ruleN1Last, side]
  show some (resetSeparators 0 [ON, AN, L, R] (resetTrailing 0 [ON, AN, L, R]
    (ruleI2 (ruleN2 [0, 0, 0, 0] (ruleN1 [ON, AN, L, R])) (ruleI1 (ruleN2 [0, 0, 0, 0] (ruleN1 [ON, AN, L, R])) [0, 0, 0, 0])))) = _
  rw [h]
  rfl

theorem last_computed : bidiLevels [L, R, ON] = some [0, 1, 1] := by
  have h : ruleN1 [L, R, ON] = [L, R, R] := by simp [ruleN1, ruleN1First, ruleN1Loop, ruleN1Last, side]
  show some (resetSeparators 0 [L, R, ON] (resetTrailing 0 [L, R, ON]
    (ruleI2 (ruleN2 [0, 0, 0] (ruleN1 [L, R, ON])) (ruleI1 (ruleN2 [0, 0, 0] (ruleN1 [L, R, ON])) [0, 0, 0])))) = _
  rw [h]
  rfl

end Putty.Bidi
