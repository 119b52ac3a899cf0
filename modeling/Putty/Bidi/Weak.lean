/-
  Putty.Bidi.Weak — rules W1 to W7 as do_bidi applies them, and as they are.

  Each loop is the rule read from left to right: what it finds looking back over rewritten
  entries is what the rule carries along. Two things differ. Nonspacing marks at the start
  of a right-to-left line become LRE instead of R (`ruleW1_eq`), an entry that the loops
  never look at as a type of its own; the rules after W1 do the same behind such entries.
  And W7 takes the text before the line to be right-to-left whatever the paragraph is
  (`ruleW7_dead`).
-/

import Mathlib.Data.List.TakeWhile
import Putty.Bidi.Standard

namespace Putty.Bidi

open BidiType Standard

/-! ## Looking ahead and back -/

theorem stopAt_eq {t z : BidiType} (hz : z ≠ t) (l : List BidiType) :
    stopAt t l = some z ↔ l.find? (· ≠ t) = some z := by
  induction l with
  | nil => simp [stopAt]
  | cons x l ih =>
    cases l with
    | nil =>
      by_cases hx : x = t
      · subst hx
        simp [stopAt, hz.symm]
      · simp [stopAt, hx]
    | cons y rest =>
      by_cases hx : x = t
      · have hf : (x :: y :: rest).find? (· ≠ t) = (y :: rest).find? (· ≠ t) := List.find?_cons_of_neg (by simpa using hx)
        rw [stopAt, if_pos hx, ih, hf]
      · rw [stopAt, if_neg hx, List.find?_cons_of_pos (by simpa using hx)]

/-- Entries at the start of a line that are no type for any rule. -/
abbrev dead (k : Nat) : List BidiType := List.replicate k LRE

/-- A loop whose body leaves LRE alone passes over them. -/
theorem inPlace_dead {body : List BidiType → BidiType → List BidiType → BidiType}
    (h : ∀ before after, body before LRE after = LRE) (k : Nat) (before l : List BidiType) :
    inPlace body before (dead k ++ l) = dead k ++ inPlace body (dead k ++ before) l := by
  induction k generalizing before with
  | zero => rfl
  | succ k ih =>
    have hcomm : dead k ++ LRE :: before = dead (k + 1) ++ before := by
      rw [dead, dead, List.replicate_succ', List.append_assoc]
      rfl
    rw [dead, List.replicate_succ, List.cons_append, inPlace, h, ih, hcomm]
    rfl

theorem searchBack_cons (t : BidiType) (before : List BidiType) :
    searchBack (t :: before) = if t = L ∨ t = R ∨ t = AL then some t else searchBack before := by
  unfold searchBack
  by_cases h : t = AL ∨ t = R ∨ t = L
  · rw [List.find?_cons_of_pos (by simpa using h), if_pos (by tauto)]
  · rw [List.find?_cons_of_neg (by simpa using h), if_neg (by tauto)]

theorem searchBack_dead (k : Nat) : searchBack (dead k) = none := by
  induction k with
  | zero => rfl
  | succ k ih => rw [dead, List.replicate_succ, searchBack_cons, if_neg (by decide), ih]

/-! ## W1 -/

theorem inPlace_w1 (p : BidiType) (before l : List BidiType) :
    inPlace (fun before t _ => if t = NSM then before.head?.getD p else t) before l = w1 (before.head?.getD p) l := by
  induction l generalizing before with
  | nil => rfl
  | cons t l ih =>
    rw [inPlace, ih, w1]
    rfl

theorem ruleW1_eq (level : UInt8) (l : List BidiType) : ruleW1 level l = w1 (asType level) l := inPlace_w1 _ [] l

/-- Only marks at the start depend on what is before the line. -/
theorem w1_split (l : List BidiType) : ∃ k rest, ∀ p, w1 p l = List.replicate k p ++ rest := by
  induction l with
  | nil => exact ⟨0, [], fun _ => rfl⟩
  | cons t l ih =>
    obtain ⟨k, rest, h⟩ := ih
    by_cases ht : t = NSM
    · refine ⟨k + 1, rest, fun p => ?_⟩
      rw [w1, if_pos ht, h p, List.replicate_succ, List.cons_append]
    · refine ⟨0, t :: w1 t l, fun p => ?_⟩
      rw [w1, if_neg ht, List.replicate_zero, List.nil_append]

/-! ## W2 and W7 -/

/-- A number's fate depends on one of the types that the search backwards may meet. -/
theorem inPlace_strong (wanted result : BidiType) (hr : ¬ (result = L ∨ result = R ∨ result = AL) ∨ result = wanted)
    {before : List BidiType} {strong : BidiType} (h : searchBack before = some wanted ↔ strong = wanted)
    (scan : BidiType → List BidiType → List BidiType) (hnil : ∀ s, scan s [] = [])
    (hcons : ∀ s t ts, scan s (t :: ts) =
      (if t = EN ∧ s = wanted then result else t) :: scan (if t = L ∨ t = R ∨ t = AL then t else s) ts)
    (l : List BidiType) :
    inPlace (fun before t _ => if t = EN ∧ searchBack before = some wanted then result else t) before l = scan strong l := by
  induction l generalizing before strong with
  | nil => exact (hnil strong).symm
  | cons t l ih =>
    have hcond : (t = EN ∧ searchBack before = some wanted) ↔ (t = EN ∧ strong = wanted) := and_congr_right fun _ => h
    rw [inPlace, hcons, if_congr hcond rfl rfl]
    refine congrArg _ (ih ?_)
    rw [searchBack_cons]
    by_cases hc : t = EN ∧ strong = wanted
    · rw [if_pos hc, hc.1, if_neg (by decide : ¬ (EN = L ∨ EN = R ∨ EN = AL))]
      rcases hr with hr | hr
      · rw [if_neg hr, h]
      · split
        · simp [hr, hc.2]
        · rw [h]
    · rw [if_neg hc]
      by_cases hs : t = L ∨ t = R ∨ t = AL
      · rw [if_pos hs, if_pos hs, Option.some.injEq]
      · rw [if_neg hs, if_neg hs, h]

theorem ruleW2_dead {e : BidiType} (he : e ≠ AL) (k : Nat) (l : List BidiType) :
    ruleW2 (dead k ++ l) = dead k ++ w2 e l := by
  unfold ruleW2
  rw [inPlace_dead (fun _ _ => if_neg (by simp)), List.append_nil]
  refine congrArg _ (inPlace_strong AL AN (Or.inl (by decide)) ?_ w2 (fun _ => rfl) (fun _ _ _ => rfl) l)
  rw [searchBack_dead]
  exact iff_of_false nofun he

theorem ruleW7_dead (k : Nat) (l : List BidiType) : ruleW7 (dead k ++ l) = dead k ++ w7 R l := by
  unfold ruleW7
  rw [inPlace_dead (fun _ _ => if_neg (by simp)), List.append_nil]
  refine congrArg _ (inPlace_strong L L (Or.inr rfl) ?_ w7 (fun _ => rfl) (fun _ _ _ => rfl) l)
  rw [searchBack_dead]
  exact iff_of_false nofun (by decide)

/-! ## W4 -/

/-- The two look at the same numbers behind them. -/
def SameNumber (a b : Option BidiType) : Prop := (a = some EN ↔ b = some EN) ∧ (a = some AN ↔ b = some AN)

theorem inPlace_w4 {before : List BidiType} {prev : Option BidiType} {l : List BidiType}
    (h : SameNumber before.head? prev ∨ (l.head? = some EN ∨ l.head? = some AN)) :
    inPlace (fun before t after =>
      if t = ES then if before.head? = some EN ∧ after.head? = some EN then EN else t
      else if t = CS then
        if before.head? = some EN ∧ after.head? = some EN then EN
        else if before.head? = some AN ∧ after.head? = some AN then AN
        else t
      else t) before l = w4 prev l := by
  induction l generalizing before prev with
  | nil => rfl
  | cons t l ih =>
    rw [inPlace, w4]
    by_cases ht : t = ES ∨ t = CS
    · have hsame : SameNumber before.head? prev := by
        refine h.resolve_right ?_
        rcases ht with rfl | rfl <;> simp
      -- a separator is rewritten only if a number comes next, which then hides it
      have key : ∀ u, u = t ∨ (l.head? = some EN ∨ l.head? = some AN) →
          SameNumber (u :: before).head? (some t) ∨ (l.head? = some EN ∨ l.head? = some AN) := by
        intro u hu
        refine hu.imp_left ?_
        rintro rfl
        exact ⟨Iff.rfl, Iff.rfl⟩
      rcases ht with rfl | rfl
      · rw [if_pos rfl]
        by_cases hen : before.head? = some EN ∧ l.head? = some EN
        · rw [if_pos hen, if_pos ⟨Or.inl rfl, hsame.1.mp hen.1, hen.2⟩]
          exact congrArg _ (ih (key EN (Or.inr (Or.inl hen.2))))
        · rw [if_neg hen, if_neg (fun h => hen ⟨hsame.1.mpr h.2.1, h.2.2⟩), if_neg (by simp)]
          exact congrArg _ (ih (key ES (Or.inl rfl)))
      · rw [if_neg (by decide), if_pos rfl]
        by_cases hen : before.head? = some EN ∧ l.head? = some EN
        · rw [if_pos hen, if_pos ⟨Or.inr rfl, hsame.1.mp hen.1, hen.2⟩]
          exact congrArg _ (ih (key EN (Or.inr (Or.inl hen.2))))
        · have hen' : ¬ ((CS = ES ∨ CS = CS) ∧ prev = some EN ∧ l.head? = some EN) :=
            fun h => hen ⟨hsame.1.mpr h.2.1, h.2.2⟩
          rw [if_neg hen, if_neg hen']
          by_cases han : before.head? = some AN ∧ l.head? = some AN
          · rw [if_pos han, if_pos ⟨rfl, hsame.2.mp han.1, han.2⟩]
            exact congrArg _ (ih (key AN (Or.inr (Or.inr han.2))))
          · have han' : ¬ (CS = CS ∧ prev = some AN ∧ l.head? = some AN) := fun h => han ⟨hsame.2.mpr h.2.1, h.2.2⟩
            rw [if_neg han, if_neg han']
            exact congrArg _ (ih (key CS (Or.inl rfl)))
    · rw [not_or] at ht
      rw [if_neg ht.1, if_neg ht.2, if_neg (by tauto), if_neg (by tauto)]
      exact congrArg _ (ih (Or.inl ⟨Iff.rfl, Iff.rfl⟩))

theorem head?_dead (k : Nat) {t : BidiType} (ht : t ≠ LRE) : (dead k).head? ≠ some t := by
  cases k with
  | zero => exact nofun
  | succ k =>
    rw [dead, List.replicate_succ, List.head?_cons]
    exact fun h => ht (Option.some.inj h).symm

theorem ruleW4_dead (k : Nat) (l : List BidiType) : ruleW4 (dead k ++ l) = dead k ++ w4 none l := by
  unfold ruleW4
  rw [inPlace_dead (fun _ _ => rfl), List.append_nil]
  refine congrArg _ (inPlace_w4 (Or.inl ⟨?_, ?_⟩))
  · exact iff_of_false (head?_dead k (by decide)) nofun
  · exact iff_of_false (head?_dead k (by decide)) nofun

/-! ## W5 -/

/-- Where the search forward ends on a European number. -/
theorem number_ahead (l : List BidiType) :
    (l.head? = some EN ∨ (l.head? = some ET ∧ stopAt ET (ET :: l) = some EN)) ↔ l.find? (· ≠ ET) = some EN := by
  cases l with
  | nil => simp
  | cons x rest =>
    by_cases hx : x = ET
    · have hstop : stopAt ET (ET :: x :: rest) = stopAt ET (x :: rest) := if_pos rfl
      rw [hstop, stopAt_eq (by decide), hx]
      simp
    · rw [List.find?_cons_of_pos (by simpa using hx)]
      simp [hx]

theorem inPlace_w5 {before : List BidiType} {afterNumber : Bool} {l : List BidiType}
    (h : (afterNumber = true → before.head? = some EN) ∧
      (before.head? = some EN → afterNumber = true ∨ l.find? (· ≠ ET) = some EN)) :
    inPlace (fun before t after =>
      if t = ET then
        if before.head? = some EN then EN
        else if after.head? = some EN then EN
        else if after.head? = some ET then if stopAt ET (t :: after) = some EN then EN else t
        else t
      else t) before l = w5 afterNumber l := by
  induction l generalizing before afterNumber with
  | nil => rfl
  | cons t l ih =>
    rw [inPlace, w5]
    by_cases ht : t = ET
    · subst ht
      have hfind : (ET :: l).find? (· ≠ ET) = l.find? (· ≠ ET) := List.find?_cons_of_neg (by simp)
      have hahead := number_ahead l
      rw [hfind] at h
      by_cases hen : afterNumber = true ∨ l.find? (· ≠ ET) = some EN
      · have hbody : (if before.head? = some EN then EN else if l.head? = some EN then EN
            else if l.head? = some ET then if stopAt ET (ET :: l) = some EN then EN else ET else ET) = EN := by
          by_cases hb : before.head? = some EN
          · exact if_pos hb
          · rcases hahead.mpr (hen.resolve_left fun ha => hb (h.1 ha)) with h1 | ⟨h1, h2⟩
            · rw [if_neg hb, if_pos h1]
            · rw [if_neg hb, if_neg (by rw [h1]; decide), if_pos h1, if_pos h2]
        rw [if_pos rfl, if_pos rfl, if_pos hen, hbody]
        refine congrArg _ (ih ⟨fun _ => rfl, fun _ => hen⟩)
      · have hb : ¬ before.head? = some EN := fun hb => hen (h.2 hb)
        have hnot := fun h => hen (Or.inr (hahead.mp h))
        have hbody : (if before.head? = some EN then EN else if l.head? = some EN then EN
            else if l.head? = some ET then if stopAt ET (ET :: l) = some EN then EN else ET else ET) = ET := by
          rw [if_neg hb, if_neg (fun h => hnot (Or.inl h))]
          by_cases h1 : l.head? = some ET
          · rw [if_pos h1, if_neg (fun h2 => hnot (Or.inr ⟨h1, h2⟩))]
          · rw [if_neg h1]
        rw [if_pos rfl, if_pos rfl, if_neg hen, hbody]
        refine congrArg _ (ih ⟨fun ha => absurd (Or.inl ha) hen, nofun⟩)
    · rw [if_neg ht, if_neg ht]
      refine congrArg _ (ih ⟨fun hen => ?_, fun hen => Or.inl ?_⟩)
      · rw [List.head?_cons, of_decide_eq_true hen]
      · exact decide_eq_true (Option.some.inj hen)

theorem ruleW5_dead (k : Nat) (l : List BidiType) : ruleW5 (dead k ++ l) = dead k ++ w5 false l := by
  unfold ruleW5
  rw [inPlace_dead (fun _ _ => rfl), List.append_nil]
  exact congrArg _ (inPlace_w5 ⟨nofun, fun h => absurd h (head?_dead k (by decide))⟩)

/-! ## All of them -/

theorem ruleW3_dead (k : Nat) (l : List BidiType) : ruleW3 (dead k ++ l) = dead k ++ w3 l := by
  rw [ruleW3, List.map_append, dead, List.map_replicate, if_neg (by decide)]
  rfl

theorem ruleW6_dead (k : Nat) (l : List BidiType) : ruleW6 (dead k ++ l) = dead k ++ w6 l := by
  rw [ruleW6, List.map_append, dead, List.map_replicate, if_neg (by decide)]
  rfl

/-- The types as the loops leave them. -/
def codeWeak (level : UInt8) (types : List BidiType) : List BidiType :=
  ruleW7 (ruleW6 (ruleW5 (ruleW4 (ruleW3 (ruleW2 (ruleW1 level types))))))

/-- W2 to W6 behind whatever W1 has left. -/
def middle (e : BidiType) (l : List BidiType) : List BidiType := w6 (w5 false (w4 none (w3 (w2 e l))))

theorem codeWeak_dead {e : BidiType} (he : e ≠ AL) {level : UInt8} {types : List BidiType} {k : Nat} {l : List BidiType}
    (h : ruleW1 level types = dead k ++ l) : codeWeak level types = dead k ++ w7 R (middle e l) := by
  rw [codeWeak, h, ruleW2_dead he, ruleW3_dead, ruleW4_dead, ruleW5_dead, ruleW6_dead, ruleW7_dead]
  rfl

end Putty.Bidi
