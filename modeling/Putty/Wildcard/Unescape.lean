/-
  Putty.Wildcard.Unescape — the file name behind a wildcard without wildcards
  (`wc_unescape`).

  The name is the wildcard with its backslashes taken out; a `*`, `?`, `[` or `]` without
  a backslash makes it fail. Proved: a name found this way is the only string the
  wildcard matches, unless the wildcard ends in a lone backslash, and a wildcard that
  has no such name has one of the four characters unescaped (`wcUnescape_agrees`).
-/

import Putty.Wildcard.Language

namespace Putty.Wildcard

open Putty.Lib.Glob

/-- Plain characters and escape pairs, none of them cut. -/
inductive Units : List UInt8 → Prop
  | nil : Units []
  | plain {c : UInt8} {u : List UInt8} : c ≠ backslash → Units u → Units (c :: u)
  | escaped {c : UInt8} {u : List UInt8} : Units u → Units (backslash :: c :: u)

def isMeta (c : UInt8) : Prop := c = star ∨ c = question ∨ c = openBracket ∨ c = closeBracket

def HasUnescapedMeta (w : List UInt8) : Prop := ∃ u c v, w = u ++ c :: v ∧ Units u ∧ isMeta c

def EndsInLoneBackslash (w : List UInt8) : Prop := ∃ u, w = u ++ [backslash] ∧ Units u

theorem wcUnescape_none {w : List UInt8} (h : wcUnescape w = none) : HasUnescapedMeta w := by
  fun_induction wcUnescape w with
  | case1 => cases h
  | case2 => cases h
  | case3 c1 w ih =>
    obtain ⟨u, c, v, rfl, hu, hc⟩ := ih (Option.map_eq_none_iff.mp h)
    exact ⟨backslash :: c1 :: u, c, v, rfl, .escaped hu, hc⟩
  | case4 c w hback hmeta => exact ⟨[], c, w, rfl, .nil, hmeta⟩
  | case5 c w hback hmeta ih =>
    obtain ⟨u, c', v, rfl, hu, hc⟩ := ih (Option.map_eq_none_iff.mp h)
    exact ⟨c :: u, c', v, rfl, .plain hback hu, hc⟩

/-- What is unescaped is what the items of the wildcard say, letter by letter. -/
theorem parse_unescaped {w s : List UInt8} (h : wcUnescape w = some s) (hend : ¬ EndsInLoneBackslash w) :
    parse w = (s.map Item.literal, none) := by
  fun_induction wcUnescape w generalizing s with
  | case1 =>
    cases h
    rw [parse_first]
    rfl
  | case2 => exact absurd ⟨[], rfl, .nil⟩ hend
  | case3 c1 w ih =>
    obtain ⟨s, hs, rfl⟩ := Option.map_eq_some_iff.mp h
    have hrest := ih hs fun ⟨u, hu, hunits⟩ => hend ⟨backslash :: c1 :: u, by rw [hu]; rfl, .escaped hunits⟩
    have hfirst : first (backslash :: c1 :: w) = some (.ok (.literal c1, w)) := by
      rw [first, if_neg (by decide), if_pos rfl]
      rfl
    rw [parse_first, hfirst]
    dsimp only
    rw [hrest]
    rfl
  | case4 => cases h
  | case5 c w hback hmeta ih =>
    obtain ⟨s, hs, rfl⟩ := Option.map_eq_some_iff.mp h
    have hrest := ih hs fun ⟨u, hu, hunits⟩ => hend ⟨c :: u, by rw [hu]; rfl, .plain hback hunits⟩
    have hfirst : first (c :: w) = some (.ok (.literal c, w)) := by
      simp only [not_or] at hmeta
      rw [first, if_neg hmeta.1, if_neg hback, if_neg hmeta.2.1, if_neg hmeta.2.2.1]
    rw [parse_first, hfirst]
    dsimp only
    rw [hrest]
    rfl

theorem matches_literals {s t : List UInt8} : Matches ((s.map Item.literal).map Item.piece) t ↔ t = s := by
  induction s generalizing t with
  | nil => exact matches_nil
  | cons c s ih =>
    cases t with
    | nil => exact iff_of_false not_matches_one_nil (by simp)
    | cons c' t =>
      rw [List.map_cons, List.map_cons, Item.piece, matches_one_cons, ih]
      · simp [Item.test]
      · simp

theorem meaning_eq_one {w t : List UInt8} : meaning w t = 1 ↔ InLanguage w t := by
  unfold meaning
  by_cases hl : InLanguage w t
  · simp [hl]
  · rw [if_neg hl]
    refine iff_of_false ?_ hl
    cases (parse w).2 with
    | none => exact Int.zero_ne_one
    | some e =>
      dsimp only
      split
      · cases e <;> decide
      · decide

/-- The two scanners agree on backslashes and metacharacters. -/
theorem wcUnescape_agrees (w : CString) :
    (∀ s, wcUnescape w.bytes = some s → ¬ EndsInLoneBackslash w.bytes →
      ∀ t : CString, (wcMatch w t).map Prod.fst = some 1 ↔ t.bytes = s) ∧
    (wcUnescape w.bytes = none → HasUnescapedMeta w.bytes) := by
  refine ⟨?_, wcUnescape_none⟩
  intro s hs hend t
  have hparse := parse_unescaped hs hend
  obtain ⟨n, -, hmatch⟩ := wcMatch_meaning w t
  have hlang : InLanguage w.bytes t.bytes ↔ t.bytes = s := by
    unfold InLanguage items
    rw [hparse, matches_literals]
    exact and_iff_right rfl
  rw [hmatch, Option.map_some, Option.some.injEq, meaning_eq_one, hlang]

end Putty.Wildcard
