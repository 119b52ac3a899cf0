/-
  Putty.Wildcard.Language — what a wildcard means, and that the matcher decides it.

  `parse` reads a wildcard into items (a literal, `?`, a bracket expression, `*`) as far
  as it is well formed, and gives the error that comes behind them. A string is in the
  language when the items match it. A malformed part is reached when the items before it
  match a beginning of the string that leaves something over, that is when they match
  with `?*` behind them: `pattern` puts these two in the place of the malformed part, and
  `meaning` is what the matcher is to return.

  Proved: on C strings `wc_match` returns exactly that, reading no byte behind the
  terminator (`wcMatch_meaning`). On counted strings `wc_match_pl` does so without
  leaving the string exactly when the search for each fragment behind a `*` finds it
  before a zero byte and before the end, or a zero byte ends it in a string where nothing
  is to be found (`wcMatchPl_iff`). A zero byte hides what follows it
  (`nul_hides_match`), and a search that finds nothing reads the byte behind the string.
-/

import Putty.Lib.Glob
import Putty.Wildcard.Code

namespace Putty.Wildcard

open Putty.Lib.Glob

/-! ## The language -/

inductive Item where
  | literal (c : UInt8)
  | any
  | bracket (invert : Bool) (ranges : List (UInt8 × UInt8))
  | star
  deriving DecidableEq

/-- The bounds of a range may come in either order. -/
def inOrder (lower upper : UInt8) : UInt8 × UInt8 := if lower ≤ upper then (lower, upper) else (upper, lower)

/-- The members of a bracket expression, a single character being a range of one, and what follows it. -/
def parseClass (w : List UInt8) : Except WcError (List (UInt8 × UInt8) × List UInt8) :=
  if w.head? = some closeBracket then .ok ([], w.tail)
  else
    match _hw : skipBackslash w with
    | [] => .error .unclosedClass
    | lower :: w1 =>
      if w1.head? = some minus then
        if w1.tail.head? = some closeBracket then .error .invalidRange
        else
          match _hw1 : skipBackslash w1.tail with
          | [] => .error .unclosedClass
          | upper :: w2 => (parseClass w2).map fun r => (inOrder lower upper :: r.1, r.2)
      else (parseClass w1).map fun r => ((lower, lower) :: r.1, r.2)
  termination_by w.length
  decreasing_by
    · have h0 := skipBackslash_length w
      have h1 := skipBackslash_length w1.tail
      rw [_hw, List.length_cons] at h0
      rw [_hw1, List.length_cons, List.length_tail] at h1
      omega
    · have h0 := skipBackslash_length w
      rw [_hw, List.length_cons] at h0
      omega

theorem parseClass_length {w w' : List UInt8} {ranges : List (UInt8 × UInt8)} (h : parseClass w = .ok (ranges, w')) :
    w'.length ≤ w.length := by
  fun_induction parseClass w generalizing ranges w' with
  | case1 w hclose =>
    cases h
    rw [List.length_tail]
    exact Nat.sub_le _ _
  | case2 => cases h
  | case3 => cases h
  | case4 => cases h
  | case5 w hclose lower w1 hw hminus hclose' upper w2 hw1 ih =>
    have h0 := skipBackslash_length w
    have h1 := skipBackslash_length w1.tail
    rw [hw, List.length_cons] at h0
    rw [hw1, List.length_cons, List.length_tail] at h1
    rcases hr : parseClass w2 with e | ⟨rs, w3⟩
    · rw [hr] at h
      cases h
    · rw [hr] at h
      cases h
      have := ih hr
      show w3.length ≤ w.length
      omega
  | case6 w hclose lower w1 hw hminus ih =>
    have h0 := skipBackslash_length w
    rw [hw, List.length_cons] at h0
    rcases hr : parseClass w1 with e | ⟨rs, w3⟩
    · rw [hr] at h
      cases h
    · rw [hr] at h
      cases h
      have := ih hr
      show w3.length ≤ w.length
      omega

/-- What stands behind a backslash. -/
def escaped : List UInt8 → Option (Except WcError (Item × List UInt8))
  | [] => some (.error .trailingBackslash)
  | c :: w => some (.ok (.literal c, w))

/-- The first item of a wildcard, if there is one. -/
def first : List UInt8 → Option (Except WcError (Item × List UInt8))
  | [] => none
  | c :: w =>
    if c = star then some (.ok (.star, w))
    else if c = backslash then escaped w
    else if c = question then some (.ok (.any, w))
    else if c = openBracket then
      let invert := w.head? == some caret
      some ((parseClass (if invert then w.tail else w)).map fun r => (.bracket invert r.1, r.2))
    else some (.ok (.literal c, w))

theorem first_length {w w' : List UInt8} {item : Item} (h : first w = some (.ok (item, w'))) : w'.length < w.length := by
  cases w with
  | nil => cases h
  | cons c w =>
    rw [first] at h
    split at h
    · cases h
      exact Nat.lt_succ_self _
    · split at h
      · cases w with
        | nil => cases h
        | cons c1 w =>
          cases h
          exact Nat.lt_succ_of_lt (Nat.lt_succ_self _)
      · split at h
        · cases h
          exact Nat.lt_succ_self _
        · split at h
          · rcases hr : parseClass (if w.head? == some caret then w.tail else w) with e | ⟨rs, w3⟩
            · dsimp only at h
              rw [hr] at h
              cases h
            · dsimp only at h
              rw [hr] at h
              cases h
              have hlen := parseClass_length hr
              have htail : (if w.head? == some caret then w.tail else w).length ≤ w.length := by
                split
                · rw [List.length_tail]
                  exact Nat.sub_le _ _
                · exact Nat.le_refl _
              exact Nat.lt_succ_of_le (Nat.le_trans hlen htail)
          · cases h
            exact Nat.lt_succ_self _

/-- The items of a wildcard up to its malformed part, and what is wrong there. -/
def parse (w : List UInt8) : List Item × Option WcError :=
  match _h : first w with
  | none => ([], none)
  | some (.error e) => ([], some e)
  | some (.ok (item, w')) => (item :: (parse w').1, (parse w').2)
  termination_by w.length
  decreasing_by all_goals exact first_length _h

theorem parse_first (w : List UInt8) :
    parse w = match first w with
      | none => ([], none)
      | some (.error e) => ([], some e)
      | some (.ok (item, w')) => (item :: (parse w').1, (parse w').2) := by
  rw [parse]
  split
  · next h => rw [h]
  · next h => rw [h]
  · next h => rw [h]

def Item.test : Item → UInt8 → Bool
  | literal c, x => x == c
  | any, _ => true
  | bracket invert ranges, x => (ranges.any fun r => r.1 ≤ x && x ≤ r.2) != invert
  | star, _ => false

def Item.piece : Item → Piece UInt8
  | star => .star
  | item => .one item.test

def items (w : List UInt8) : List (Piece UInt8) := (parse w).1.map Item.piece

/-- The string is in the wildcard's language. -/
def InLanguage (w t : List UInt8) : Prop := (parse w).2 = none ∧ Matches (items w) t

/-- What comes before the malformed part matches, and there is more of the string for that part. -/
def ReachesError (w t : List UInt8) (e : WcError) : Prop :=
  (parse w).2 = some e ∧ ∃ s r, t = s ++ r ∧ r ≠ [] ∧ Matches (items w) s

open Classical in
/-- What is to be returned. -/
noncomputable def meaning (w t : List UInt8) : Int :=
  if InLanguage w t then 1
  else match (parse w).2 with
    | some e => if ReachesError w t e then -e.code else 0
    | none => 0

/-! ## One pattern for both -/

/-- The wildcard with `?*` in the place of its malformed part. -/
def pattern (w : List UInt8) : List (Piece UInt8) :=
  items w ++ match (parse w).2 with
    | none => []
    | some _ => [.one fun _ => true, .star]

/-- What a match of the pattern returns. -/
def onMatch (w : List UInt8) : Int :=
  match (parse w).2 with
  | none => 1
  | some e => -e.code

open Classical in
theorem meaning_pattern (w t : List UInt8) : meaning w t = if Matches (pattern w) t then onMatch w else 0 := by
  unfold meaning pattern onMatch InLanguage ReachesError
  cases he : (parse w).2 with
  | none => simp
  | some e => simp [matches_proper]

theorem pattern_first (w : List UInt8) :
    pattern w = match first w with
      | none => []
      | some (.error _) => [.one fun _ => true, .star]
      | some (.ok (item, w')) => item.piece :: pattern w' := by
  rw [pattern, items, parse_first]
  rcases first w with _ | e | ⟨item, w'⟩ <;> rfl

theorem onMatch_first (w : List UInt8) :
    onMatch w = match first w with
      | none => 1
      | some (.error e) => -e.code
      | some (.ok (_, w')) => onMatch w' := by
  rw [onMatch, parse_first]
  rcases first w with _ | e | ⟨item, w'⟩ <;> rfl

/-! ## A fragment -/

theorem inRange_inOrder (lower upper ch : UInt8) :
    inRange lower upper ch = ((inOrder lower upper).1 ≤ ch && ch ≤ (inOrder lower upper).2) := by
  unfold inRange inOrder
  by_cases h : lower ≤ upper
  · rw [if_neg (UInt8.not_lt.mpr h), if_pos h]
  · rw [if_pos (UInt8.not_le.mp h), if_neg h]

/-- The loop over a bracket expression looks for the character in its members. -/
theorem classLoop_eq (f : List UInt8) (ch : UInt8) (matched : Bool) :
    classLoop f ch matched =
      (parseClass f).map fun r => (matched || r.1.any fun r => r.1 ≤ ch && ch ≤ r.2, r.2) := by
  fun_induction parseClass f generalizing matched with
  | case1 f hclose => rw [classLoop, if_pos hclose]; simp [Except.map]
  | case2 f hclose hnil =>
    rw [classLoop, if_neg hclose]
    split
    · rfl
    · next h => rw [hnil] at h; cases h
  | case3 f hclose lower f1 hf hminus hclose' =>
    rw [classLoop, if_neg hclose]
    split
    · next h => rw [hf] at h; cases h
    · next h =>
      rw [hf] at h
      cases h
      rw [if_pos hminus, if_pos hclose']
      rfl
  | case4 f hclose lower f1 hf hminus hclose' hnil =>
    rw [classLoop, if_neg hclose]
    split
    · next h => rw [hf] at h; cases h
    · next h =>
      rw [hf] at h
      cases h
      rw [if_pos hminus, if_neg hclose']
      split
      · rfl
      · next h => rw [hnil] at h; cases h
  | case5 f hclose lower f1 hf hminus hclose' upper f2 hf1 ih =>
    rw [classLoop, if_neg hclose]
    split
    · next h => rw [hf] at h; cases h
    · next h =>
      rw [hf] at h
      cases h
      rw [if_pos hminus, if_neg hclose']
      split
      · next h => rw [hf1] at h; cases h
      · next h =>
        rw [hf1] at h
        cases h
        rw [ih, inRange_inOrder]
        cases parseClass f2 with
        | error e => rfl
        | ok r => simp [Except.map, Bool.or_assoc]
  | case6 f hclose lower f1 hf hminus ih =>
    rw [classLoop, if_neg hclose]
    split
    · next h => rw [hf] at h; cases h
    · next h =>
      rw [hf] at h
      cases h
      rw [if_neg hminus, ih]
      have hone : (ch == lower) = (lower ≤ ch && ch ≤ lower) := by
        rw [Bool.eq_iff_iff, beq_iff_eq, Bool.and_eq_true, decide_eq_true_eq, decide_eq_true_eq]
        exact ⟨fun h => h ▸ ⟨UInt8.le_refl _, UInt8.le_refl _⟩, fun h => UInt8.le_antisymm h.2 h.1⟩
      cases parseClass f1 with
      | error e => rfl
      | ok r => simp [Except.map, hone, Bool.or_assoc]

/-- One round of the loop in `wc_match_fragment`. -/
theorem wcMatchFragment_cons (w : List UInt8) (t : UInt8) (target : List UInt8) :
    wcMatchFragment w (t :: target) = match first w with
      | none => .ok (some (w, t :: target))
      | some (.error e) => .error e
      | some (.ok (item, w')) =>
        if item = .star then .ok (some (w, t :: target))
        else if item.test t then wcMatchFragment w' target
        else .ok none := by
  cases w with
  | nil => rw [wcMatchFragment.eq_def]; rfl
  | cons c w =>
    rw [wcMatchFragment.eq_def, first]
    dsimp only
    by_cases hstar : c = star
    · simp [hstar]
    · by_cases hback : c = backslash
      · cases w with
        | nil => simp [hback, escaped, show backslash ≠ star by decide]
        | cons c1 w =>
          by_cases h : c1 = t
          · simp [hback, escaped, show backslash ≠ star by decide, Item.test, h]
          · simp [hback, escaped, show backslash ≠ star by decide, Item.test, h, Ne.symm h]
      · by_cases hq : c = question
        · simp [hq, show question ≠ star by decide, show question ≠ backslash by decide, Item.test]
        · by_cases hb : c = openBracket
          · simp only [hb, show openBracket ≠ star by decide, show openBracket ≠ backslash by decide,
              show openBracket ≠ question by decide, if_false, if_true, classLoop_eq]
            generalize (w.head? == some caret) = invert
            cases parseClass (if invert then w.tail else w) with
            | error e => rfl
            | ok r =>
              simp only [Except.map, Bool.false_or, Item.test]
              by_cases hm : (r.1.any fun r => r.1 ≤ t && t ≤ r.2) = true
              · cases invert <;> simp [hm]
              · rw [Bool.not_eq_true] at hm
                cases invert <;> simp [hm]
          · by_cases h : c = t
            · subst h
              simp [hstar, hback, hq, hb, Item.test]
            · simp [hstar, hback, hq, hb, Item.test, h, Ne.symm h]

/-- A fragment ends where the wildcard does or a star comes. -/
def AtStop (w : List UInt8) : Prop := w = [] ∨ w.head? = some star

theorem first_star (w : List UInt8) : first (star :: w) = some (.ok (.star, w)) := by
  rw [first, if_pos rfl]

theorem first_none {w : List UInt8} (h : first w = none) : w = [] := by
  cases w with
  | nil => rfl
  | cons c w =>
    rw [first] at h
    split at h
    · cases h
    · split at h
      · cases w <;> cases h
      · split at h
        · cases h
        · split at h <;> cases h

theorem first_not_star {w w' : List UInt8} {item : Item} (h : first w = some (.ok (item, w'))) (hstop : ¬ AtStop w) :
    item ≠ .star := by
  rintro rfl
  cases w with
  | nil => exact hstop (.inl rfl)
  | cons c w =>
    rw [first, if_neg (fun hc => hstop (.inr (by rw [hc]; rfl)))] at h
    split at h
    · cases w <;> cases h
    · split at h
      · cases h
      · split at h
        · rcases hr : parseClass (if w.head? == some caret then w.tail else w) with e | r
          · dsimp only at h
            rw [hr] at h
            cases h
          · dsimp only at h
            rw [hr] at h
            cases h
        · cases h

/-- How a wildcard begins: at a stop, with a malformed part, or with a character's worth of pattern. -/
theorem first_cases (w : List UInt8) :
    (AtStop w ∧ fragment (pattern w) = [] ∧ rest (pattern w) = pattern w) ∨
    (¬ AtStop w ∧ ∃ e, first w = some (.error e) ∧ pattern w = [.one fun _ => true, .star] ∧ onMatch w = -e.code) ∨
    (¬ AtStop w ∧ ∃ item w', first w = some (.ok (item, w')) ∧ item ≠ .star ∧
      pattern w = .one item.test :: pattern w' ∧ onMatch w = onMatch w') := by
  have hp := pattern_first w
  by_cases hstop : AtStop w
  · refine .inl ⟨hstop, ?_⟩
    cases w with
    | nil => exact ⟨by rw [hp]; rfl, by rw [hp]; rfl⟩
    | cons c w =>
      obtain rfl : c = star := by simpa [AtStop] using hstop
      rw [first_star] at hp
      rw [hp]
      exact ⟨rfl, rfl⟩
  · have hm := onMatch_first w
    rcases hf : first w with _ | e | ⟨item, w'⟩
    · exact absurd (.inl (first_none hf)) hstop
    · rw [hf] at hp hm
      exact .inr (.inl ⟨hstop, e, rfl, hp, hm⟩)
    · rw [hf] at hp hm
      have hitem := first_not_star hf hstop
      refine .inr (.inr ⟨hstop, item, w', rfl, hitem, ?_, hm⟩)
      cases item with
      | star => exact absurd rfl hitem
      | literal c => exact hp
      | any => exact hp
      | bracket i rs => exact hp

/-- What a call of `wc_match_fragment` says about the pattern. -/
def FragmentResult (w t : List UInt8) : Except WcError (Option (List UInt8 × List UInt8)) → Prop
  | .error e => ∃ r, fragmentAt (fragment (pattern w)) t = some r ∧ rest (pattern w) = [.star] ∧ onMatch w = -e.code
  | .ok none => fragmentAt (fragment (pattern w)) t = none
  | .ok (some (w', r)) => fragmentAt (fragment (pattern w)) t = some r ∧ rest (pattern w) = pattern w' ∧
      onMatch w = onMatch w' ∧ AtStop w' ∧ w'.length ≤ w.length

theorem fragment_atStop {w : List UInt8} (h : AtStop w) (t : List UInt8) : FragmentResult w t (.ok (some (w, t))) := by
  rcases first_cases w with ⟨-, hf, hr⟩ | ⟨hstop, -⟩ | ⟨hstop, -⟩
  · exact ⟨by rw [hf]; rfl, hr, rfl, h, Nat.le_refl _⟩
  · exact absurd h hstop
  · exact absurd h hstop

theorem fragment_spec (w t : List UInt8) : FragmentResult w t (wcMatchFragment w t) := by
  induction t generalizing w with
  | nil =>
    rw [wcMatchFragment]
    split
    · next h => exact fragment_atStop h []
    · next h =>
      rcases first_cases w with ⟨hstop, -⟩ | ⟨-, e, -, hp, -⟩ | ⟨-, item, w', -, -, hp, -⟩
      · exact absurd hstop h
      · rw [FragmentResult, hp]; rfl
      · rw [FragmentResult, hp]; rfl
  | cons c t ih =>
    rw [wcMatchFragment_cons]
    rcases first_cases w with ⟨hstop, -⟩ | ⟨-, e, hf, hp, hm⟩ | ⟨-, item, w', hf, hitem, hp, hm⟩
    · have hres := fragment_atStop hstop (c :: t)
      cases w with
      | nil => exact hres
      | cons c1 w =>
        obtain rfl : c1 = star := by simpa [AtStop] using hstop
        rw [first_star]
        exact hres
    · rw [hf]
      exact ⟨t, by rw [hp]; rfl, by rw [hp]; rfl, hm⟩
    · rw [hf]
      dsimp only
      rw [if_neg hitem]
      have hlen := first_length hf
      by_cases ht : item.test c = true
      · have hat : fragmentAt (fragment (pattern w)) (c :: t) = fragmentAt (fragment (pattern w')) t := by
          rw [hp, fragment, fragmentAt, if_pos ht]
        have hrest : rest (pattern w) = rest (pattern w') := by rw [hp]; rfl
        have hih := ih w'
        rw [if_pos ht]
        -- the same result, seen from one item earlier
        rcases hres : wcMatchFragment w' t with e | _ | ⟨w'', r⟩
        · rw [hres] at hih
          obtain ⟨r, h1, h2, h3⟩ := hih
          exact ⟨r, by rw [hat, h1], by rw [hrest, h2], by rw [hm, h3]⟩
        · rw [hres] at hih
          exact hat.trans hih
        · rw [hres] at hih
          obtain ⟨h1, h2, h3, h4, h5⟩ := hih
          exact ⟨by rw [hat, h1], by rw [hrest, h2], by rw [hm, h3], h4, by omega⟩
      · rw [if_neg ht]
        show fragmentAt (fragment (pattern w)) (c :: t) = none
        rw [hp, fragment, fragmentAt, if_neg ht]

/-! ## The search -/

/-- The byte at which `while (*target)` stops. -/
def isNul (c : UInt8) : Bool := c == 0

open Classical in
/-- The return value for a string that matches the pattern or does not. -/
noncomputable def verdict (w : List UInt8) (ps : List (Piece UInt8)) (t : List UInt8) : Int :=
  if Matches ps t then onMatch w else 0

theorem verdict_congr {w w' : List UInt8} {ps ps' : List (Piece UInt8)} {t t' : List UInt8}
    (hm : onMatch w = onMatch w') (h : Matches ps t ↔ Matches ps' t') : verdict w ps t = verdict w' ps' t' := by
  unfold verdict
  rw [hm]
  by_cases hp : Matches ps t
  · rw [if_pos hp, if_pos (h.mp hp)]
  · rw [if_neg hp, if_neg (hp ∘ h.mpr)]

/-- A terminal fragment found too early is tried once more, at the end. -/
theorem terminal_spec {w s r : List UInt8} (hr : fragmentAt (fragment (pattern w)) s = some r)
    (hrest : rest (pattern w) = []) (hm : onMatch w = 1) :
    fragmentReturn (wcMatchFragment w (s.drop (s.length - (s.length - r.length)))) =
      verdict w (.star :: pattern w) s := by
  have hlen : s.length - r.length = (fragment (pattern w)).length := by
    obtain ⟨hdrop, hle⟩ := fragmentAt_length hr
    rw [hdrop, List.length_drop]
    omega
  have hones : (fragment (pattern w)).map .one = pattern w := by
    have := fragment_rest (pattern w)
    rwa [hrest, List.append_nil] at this
  have hlast := matches_star_last (f := fragment (pattern w)) (t := s)
  rw [hones] at hlast
  rw [hlen]
  have hspec := fragment_spec w (s.drop (s.length - (fragment (pattern w)).length))
  unfold verdict
  rcases hres : wcMatchFragment w (s.drop (s.length - (fragment (pattern w)).length)) with e | _ | ⟨w', r'⟩
  · rw [hres] at hspec
    obtain ⟨-, -, hstar, -⟩ := hspec
    rw [hrest] at hstar
    cases hstar
  · rw [hres] at hspec
    have hnone : fragmentAt (fragment (pattern w)) _ = none := hspec
    rw [if_neg fun h => by rw [hlast.mp h] at hnone; cases hnone]
    rfl
  · rw [hres] at hspec
    obtain ⟨hdrop, hle⟩ := fragmentAt_length hspec.1
    have hnil : r' = [] := by
      rw [hdrop, List.drop_drop, List.drop_eq_nil_iff]
      have := (fragmentAt_length hr).2
      omega
    rw [if_pos (hlast.mpr (by rw [← hnil]; exact hspec.1)), hm]
    rfl

/-- What the search for the fragment in front of `w` comes to. -/
def SearchResult (w t : List UInt8) : Found UInt8 → Search → Prop
  | .theEnd, res => res = .ranOut
  | .stopped, res => res = .stopped
  | .fragment r, res =>
    (∃ w', res = .found w' r ∧ rest (pattern w) = pattern w' ∧ onMatch w = onMatch w' ∧ AtStop w' ∧
      w'.length ≤ w.length ∧ (w' = [] → r = [])) ∨
    (res = .returned (verdict w (.star :: pattern w) t) ∧ (rest (pattern w) = [] ∨ rest (pattern w) = [.star]))

theorem searchLoop_spec (w t : List UInt8) :
    SearchResult w t (search isNul (fragment (pattern w)) t) (searchLoop w t) := by
  induction t with
  | nil => rfl
  | cons c t ih =>
    rw [search, searchLoop]
    by_cases h0 : c = 0
    · rw [if_pos (by simp [isNul, h0]), if_pos h0]
      rfl
    · rw [if_neg (by simpa [isNul] using h0), if_neg h0]
      have hspec := fragment_spec w (c :: t)
      rcases hres : wcMatchFragment w (c :: t) with e | _ | ⟨w', r⟩
      · rw [hres] at hspec
        obtain ⟨r, hr, hrest, hm⟩ := hspec
        rw [hr]
        refine .inr ⟨?_, .inr hrest⟩
        dsimp only
        have hmatch : Matches (.star :: pattern w) (c :: t) := by
          apply Matches.skip
          rw [← fragment_rest (pattern w), hrest]
          exact matches_fragment.mpr ⟨r, hr, matches_only_star r⟩
        rw [verdict, if_pos hmatch, hm]
      · rw [hres] at hspec
        have hnone : fragmentAt (fragment (pattern w)) (c :: t) = none := hspec
        have hmatch : Matches (.star :: pattern w) (c :: t) ↔ Matches (.star :: pattern w) t := by
          rw [matches_star_cons, ← fragment_rest (pattern w), matches_fragment, hnone]
          simp
        rw [hnone]
        dsimp only
        revert ih
        rcases search isNul (fragment (pattern w)) t with r | _ | _
        · rintro (hfound | ⟨hret, hrest⟩)
          · exact .inl hfound
          · exact .inr ⟨by rw [hret, verdict_congr rfl hmatch], hrest⟩
        · exact id
        · exact id
      · rw [hres] at hspec
        obtain ⟨hr, hrest, hm, hstop, hlen⟩ := hspec
        rw [hr]
        dsimp only
        by_cases hterm : w' = [] ∧ r ≠ []
        · obtain ⟨rfl, hne⟩ := hterm
          rw [if_pos ⟨rfl, hne⟩]
          have hnil : rest (pattern w) = [] := by rw [hrest, pattern_first]; rfl
          refine .inr ⟨?_, .inl hnil⟩
          rw [terminal_spec hr hnil (by rw [hm, onMatch_first]; rfl)]
        · rw [if_neg hterm]
          exact .inl ⟨w', rfl, hrest, hm, hstop, hlen, fun h => by
            by_contra hne
            exact hterm ⟨h, hne⟩⟩

/-! ## The loop over the stars -/

theorem skipStars_spec (w : List UInt8) :
    (skipStars w).length ≤ w.length ∧ onMatch (star :: w) = onMatch (skipStars w) ∧
      (∀ t, Matches (.star :: pattern w) t ↔ Matches (.star :: pattern (skipStars w)) t) ∧
      (∀ t, fateRest isNul (.star :: pattern w) t = fateRest isNul (.star :: pattern (skipStars w)) t) ∧
      (skipStars w).head? ≠ some star := by
  have hm : ∀ w, onMatch (star :: w) = onMatch w := fun w => by rw [onMatch_first, first_star]
  induction w with
  | nil => exact ⟨Nat.le_refl _, hm [], fun _ => Iff.rfl, fun _ => rfl, by simp [skipStars]⟩
  | cons c w ih =>
    rw [skipStars]
    by_cases hc : c = star
    · subst hc
      rw [if_pos rfl]
      obtain ⟨h1, h2, h3, h4, h5⟩ := ih
      have hp : pattern (star :: w) = .star :: pattern w := by rw [pattern_first, first_star]; rfl
      refine ⟨Nat.le_succ_of_le h1, by rw [hm, h2], fun t => ?_, fun t => ?_, h5⟩
      · rw [hp, matches_star_star, h3]
      · rw [hp, fateRest, h4]
    · rw [if_neg hc]
      exact ⟨Nat.le_refl _, hm _, fun _ => Iff.rfl, fun _ => rfl, by simpa using hc⟩

/-- The result by what the searches come to. -/
def LoopResult (beyond : List UInt8) (value : Int) : Fate → Option (Int × Nat) → Prop
  | .settled, res => res = some (value, 0)
  | .hidden, res => res = some (0, 0)
  | .overrun, res => res = ((pastEnd beyond).map fun n => (0, n)) ∧ value = 0

/-- A fragment that was found leaves the rest of the pattern to the rest of the string. -/
theorem found_verdict {w w' : List UInt8} {t r : List UInt8}
    (hs : search isNul (fragment (pattern w)) t = .fragment r) (hrest : rest (pattern w) = pattern w')
    (hm : onMatch w = onMatch w') (hend : w' = [] → r = []) (hstop : AtStop w') :
    verdict w (.star :: pattern w) t = verdict w' (pattern w') r := by
  apply verdict_congr hm
  obtain ⟨s, -, hr, hiff⟩ := search_fragment hs
  have hsplit := fragment_rest (pattern w)
  rw [← hsplit, hiff]
  rw [hrest]
  rcases hstop with rfl | hstar
  · obtain rfl := hend rfl
    have hnil : pattern [] = [] := by rw [pattern_first]; rfl
    rw [hnil]
    exact iff_of_true (.skip (matches_fragment.mpr ⟨[], hr, .nil⟩)) .nil
  · obtain ⟨v, rfl⟩ : ∃ v, w' = star :: v := by
      cases w' with
      | nil => cases hstar
      | cons c v => exact ⟨v, by rw [Option.some.inj hstar]⟩
    have hp : pattern (star :: v) = .star :: pattern v := by rw [pattern_first, first_star]; rfl
    rw [hp]
    exact matches_star_found hr

theorem fateRest_star {v : List UInt8} {p : UInt8 → Bool} {ps : List (Piece UInt8)} (hpv : pattern v = .one p :: ps) (t : List UInt8) :
    fateRest isNul (.star :: pattern v) t =
      match search isNul (fragment (pattern v)) t with
      | .fragment r => fateRest isNul (rest (pattern v)) r
      | .stopped => .hidden
      | .theEnd => .overrun := by
  rw [hpv, fateRest, fragment, rest]
  cases search isNul (p :: fragment ps) t <;> rfl

theorem wcLoop_spec (beyond : List UInt8) {fuel : Nat} {w : List UInt8} (hfuel : w.length ≤ fuel) (hstop : AtStop w)
    (t : List UInt8) :
    LoopResult beyond (verdict w (pattern w) t) (fateRest isNul (pattern w) t) (wcLoop beyond fuel w t) := by
  induction fuel generalizing w t with
  | zero =>
    obtain rfl := List.length_eq_zero_iff.mp (Nat.le_zero.mp hfuel)
    have hp : pattern [] = [] := by rw [pattern_first]; rfl
    have hm : onMatch [] = 1 := by rw [onMatch_first]; rfl
    rw [hp, fateRest, wcLoop, LoopResult, verdict, hm]
    by_cases ht : t = [] <;> simp [matches_nil, ht]
  | succ fuel ih =>
    cases w with
    | nil =>
      have hp : pattern [] = [] := by rw [pattern_first]; rfl
      have hm : onMatch [] = 1 := by rw [onMatch_first]; rfl
      rw [hp, fateRest, wcLoop, LoopResult, verdict, hm]
      by_cases ht : t = [] <;> simp [matches_nil, ht]
    | cons c w =>
      obtain rfl : c = star := by simpa [AtStop] using hstop
      obtain ⟨hlen, hm, hmatch, hfate, hhead⟩ := skipStars_spec w
      have hp : pattern (star :: w) = .star :: pattern w := by rw [pattern_first, first_star]; rfl
      rw [wcLoop, if_neg (by simp), hp, hfate, verdict_congr hm (hmatch t)]
      dsimp only
      revert hlen hhead
      generalize skipStars w = v
      intro hlen hhead
      by_cases hv : v = []
      · subst hv
        have hpv : pattern [] = [] := by rw [pattern_first]; rfl
        rw [if_pos rfl, hpv, fateRest]
        show _ = _
        rw [verdict, if_pos (matches_only_star t), onMatch_first]
        rfl
      · rw [if_neg hv]
        have hnot : ¬ AtStop v := fun h => h.elim hv hhead
        -- behind the stars stands a fragment
        obtain ⟨p, ps, hpv⟩ : ∃ p ps, pattern v = .one p :: ps := by
          rcases first_cases v with ⟨h, -⟩ | ⟨-, e, -, hpv, -⟩ | ⟨-, item, v', -, -, hpv, -⟩
          · exact absurd h hnot
          · exact ⟨_, _, hpv⟩
          · exact ⟨_, _, hpv⟩
        have hsearch := searchLoop_spec v t
        rw [fateRest_star hpv]
        rcases hfound : search isNul (fragment (pattern v)) t with r | _ | _
        · rw [hfound] at hsearch
          dsimp only
          rcases hsearch with ⟨w', hres, hrest, hm', hstop', hlen', hend⟩ | ⟨hres, hrest⟩
          · rw [hres, hrest, found_verdict hfound hrest hm' hend hstop']
            exact ih (by rw [List.length_cons] at hfuel; omega) hstop' r
          · rw [hres]
            rcases hrest with hrest | hrest <;> rw [hrest, fateRest] <;> rfl
        · rw [hfound] at hsearch
          have hres : searchLoop v t = .stopped := hsearch
          rw [hres]
          rfl
        · rw [hfound] at hsearch
          have hres : searchLoop v t = .ranOut := hsearch
          rw [hres]
          refine ⟨rfl, ?_⟩
          have hno := search_theEnd (p := p) (f := fragment ps) (by rw [hpv] at hfound; exact hfound) (rest ps)
          rw [List.cons_append, fragment_rest] at hno
          rw [hpv, verdict, if_neg hno]

theorem wcMatchInner_spec (w t beyond : List UInt8) :
    LoopResult beyond (meaning w t) (fate isNul (pattern w) t) (wcMatchInner w t beyond) := by
  have hmeaning : meaning w t = verdict w (pattern w) t := meaning_pattern w t
  rw [hmeaning]
  unfold wcMatchInner fate
  by_cases hstar : w.head? = some star
  · rw [if_neg (by simpa using hstar)]
    rcases first_cases w with ⟨hstop, hf, hr⟩ | ⟨hstop, -⟩ | ⟨hstop, -⟩
    · rw [hf, hr]
      exact wcLoop_spec beyond (Nat.le_refl _) hstop t
    · exact absurd (.inr hstar) hstop
    · exact absurd (.inr hstar) hstop
  · rw [if_pos hstar]
    have hspec := fragment_spec w t
    rcases hres : wcMatchFragment w t with e | _ | ⟨w', r⟩
    · rw [hres] at hspec
      obtain ⟨r, hr, hrest, hm⟩ := hspec
      rw [hr, hrest]
      dsimp only
      rw [fateRest]
      have hmatch : Matches (pattern w) t := by
        rw [← fragment_rest (pattern w), hrest]
        exact matches_fragment.mpr ⟨r, hr, matches_only_star r⟩
      show _ = _
      rw [verdict, if_pos hmatch, hm]
    · rw [hres] at hspec
      have hnone : fragmentAt (fragment (pattern w)) t = none := hspec
      rw [hnone]
      have hno : ¬ Matches (pattern w) t := by
        rw [← fragment_rest (pattern w), matches_fragment, hnone]
        simp
      show _ = _
      rw [verdict, if_neg hno]
    · rw [hres] at hspec
      obtain ⟨hr, hrest, hm, hstop, hlen⟩ := hspec
      have hiff : Matches (pattern w) t ↔ Matches (pattern w') r := by
        rw [← fragment_rest (pattern w), matches_fragment, hr, hrest]
        simp
      rw [hr, hrest, verdict_congr hm hiff]
      exact wcLoop_spec beyond hlen hstop r

/-! ## C strings and counted strings -/

theorem pastEnd_pos {beyond : List UInt8} {n : Nat} (h : pastEnd beyond = some n) : 0 < n := by
  cases beyond with
  | nil => cases h
  | cons b beyond =>
    rw [pastEnd] at h
    split at h
    · cases h
      exact Nat.one_pos
    · obtain ⟨m, -, rfl⟩ := Option.map_eq_some_iff.mp h
      exact Nat.succ_pos m

/-- On C strings, with the terminator read and no more. -/
theorem wcMatch_meaning (w t : CString) : ∃ n ≤ 1, wcMatch w t = some (meaning w.bytes t.bytes, n) := by
  have hspec := wcMatchInner_spec w.bytes t.bytes [0]
  unfold wcMatch
  rcases hfate : fate isNul (pattern w.bytes) t.bytes
  · rw [hfate] at hspec
    exact ⟨0, Nat.zero_le _, hspec⟩
  · obtain ⟨c, hc, hnul⟩ := fate_hidden hfate
    rw [beq_iff_eq.mp hnul] at hc
    exact absurd hc t.no_nul
  · rw [hfate] at hspec
    exact ⟨1, Nat.le_refl _, by rw [hspec.1, hspec.2]; rfl⟩

/-- Every fragment behind a star is found before a zero byte and before the end, or a zero byte ends the search in a
string that neither is in the language nor reaches an error. -/
def Settles (w : CString) (t : List UInt8) : Prop :=
  fate isNul (pattern w.bytes) t = .settled ∨
    fate isNul (pattern w.bytes) t = .hidden ∧ ¬ InLanguage w.bytes t ∧ ∀ e, ¬ ReachesError w.bytes t e

theorem meaning_eq_zero {w t : List UInt8} : meaning w t = 0 ↔ ¬ InLanguage w t ∧ ∀ e, ¬ ReachesError w t e := by
  unfold meaning
  by_cases hl : InLanguage w t
  · simp [hl]
  · rw [if_neg hl]
    cases hp : (parse w).2 with
    | none => simp [hl, ReachesError, hp]
    | some e =>
      have hcode : e.code ≠ 0 := by cases e <;> decide
      by_cases hr : ReachesError w t e
      · simp only [hr, if_true, Int.neg_eq_zero, hcode, false_iff]
        exact fun h => h.2 e hr
      · simp only [hr, if_false, true_iff]
        refine ⟨hl, fun e' he' => hr ?_⟩
        obtain rfl := Option.some.inj (hp.symm.trans he'.1)
        exact he'

theorem wcMatchPl_iff (w : CString) (t beyond : List UInt8) :
    wcMatchPl w t beyond = some (meaning w.bytes t, 0) ↔ Settles w t := by
  have hspec := wcMatchInner_spec w.bytes t beyond
  unfold wcMatchPl Settles
  rw [← meaning_eq_zero]
  rcases hfate : fate isNul (pattern w.bytes) t
  · rw [hfate] at hspec
    exact iff_of_true hspec (.inl rfl)
  · rw [hfate] at hspec
    have hres : wcMatchInner w.bytes t beyond = some (0, 0) := hspec
    rw [hres]
    simp [eq_comm]
  · rw [hfate] at hspec
    refine iff_of_false ?_ (by simp)
    rw [hspec.1]
    intro h
    obtain ⟨n, hn, hpair⟩ := Option.map_eq_some_iff.mp h
    exact Nat.pos_iff_ne_zero.mp (pastEnd_pos hn) (Prod.mk.inj hpair).2

/-- The glob relation: always on C strings, on counted strings where the searches settle. -/
theorem wildcard_matching_iff (w : CString) :
    (∀ t : CString, ∃ n ≤ 1, wcMatch w t = some (meaning w.bytes t.bytes, n)) ∧
      ∀ t beyond, wcMatchPl w t beyond = some (meaning w.bytes t, 0) ↔ Settles w t :=
  ⟨wcMatch_meaning w, wcMatchPl_iff w⟩

/-- `*b`. -/
def anythingThenB : CString := ⟨[42, 98], by decide⟩

/-- Two counted strings: a zero byte and a b, which is in the language; and an a, with its search leaving it. -/
theorem nul_hides_match :
    meaning anythingThenB.bytes [0, 98] = 1 ∧ wcMatchPl anythingThenB [0, 98] [0] = some (0, 0) ∧
      wcMatchPl anythingThenB [97] [0] = some (0, 1) := by
  refine ⟨?_, by decide, by decide⟩
  show meaning [42, 98] [0, 98] = 1
  have hparse : parse [42, 98] = ([.star, .literal 98], none) := by
    rw [parse_first]
    show (Item.star :: (parse [98]).1, (parse [98]).2) = _
    rw [parse_first]
    show ([Item.star, .literal 98] ++ (parse []).1, (parse []).2) = _
    rw [parse_first]
    rfl
  have hlang : InLanguage [42, 98] [0, 98] := by
    refine ⟨by rw [hparse], ?_⟩
    rw [items, hparse]
    exact .more (.skip (.one (by decide) .nil))
  rw [meaning, if_pos hlang]

end Putty.Wildcard
