/-
  Putty.Lib.Glob — patterns of single-letter tests and stars.

  A star matches any word, a test one letter. Between two stars stands a fragment, a
  rigid run of tests. Matching fragment by fragment from the left needs no way back:
  once a fragment is found, the first place is as good as any later one
  (`matches_star_found`), since the star behind it can skip to the later place. The last
  fragment, with no star behind it, is matched at the end of the word
  (`matches_star_last`).

  `fate` follows such a search through a word in which some letters stop it: each
  fragment is found, or a stopping letter comes first, or the end of the word.
-/

import Mathlib.Data.List.Basic
import Mathlib.Tactic.Linarith

namespace Putty.Lib.Glob

variable {α : Type}

inductive Piece (α : Type) where
  | one (test : α → Bool)
  | star

inductive Matches : List (Piece α) → List α → Prop
  | nil : Matches [] []
  | one {p : α → Bool} {c : α} {ps : List (Piece α)} {t : List α} : p c = true → Matches ps t →
      Matches (.one p :: ps) (c :: t)
  | skip {ps : List (Piece α)} {t : List α} : Matches ps t → Matches (.star :: ps) t
  | more {c : α} {ps : List (Piece α)} {t : List α} : Matches (.star :: ps) t → Matches (.star :: ps) (c :: t)

theorem matches_nil {t : List α} : Matches [] t ↔ t = [] := by
  constructor
  · intro h
    cases h
    rfl
  · rintro rfl
    exact .nil

theorem matches_one_cons {p : α → Bool} {ps : List (Piece α)} {c : α} {t : List α} :
    Matches (.one p :: ps) (c :: t) ↔ p c = true ∧ Matches ps t := by
  constructor
  · intro h
    cases h with
    | one hp ht => exact ⟨hp, ht⟩
  · exact fun h => .one h.1 h.2

theorem not_matches_one_nil {p : α → Bool} {ps : List (Piece α)} : ¬ Matches (.one p :: ps) [] := by
  intro h
  cases h

theorem matches_star_cons {ps : List (Piece α)} {c : α} {t : List α} :
    Matches (.star :: ps) (c :: t) ↔ Matches ps (c :: t) ∨ Matches (.star :: ps) t := by
  constructor
  · intro h
    cases h with
    | skip h => exact .inl h
    | more h => exact .inr h
  · exact fun h => h.elim .skip .more

theorem matches_star_nil {ps : List (Piece α)} : Matches (.star :: ps) [] ↔ Matches ps [] := by
  constructor
  · intro h
    cases h with
    | skip h => exact h
  · exact .skip

theorem matches_star {ps : List (Piece α)} {t : List α} :
    Matches (.star :: ps) t ↔ ∃ s, s <:+ t ∧ Matches ps s := by
  induction t with
  | nil => simp [matches_star_nil]
  | cons c t ih =>
    rw [matches_star_cons, ih]
    constructor
    · rintro (h | ⟨s, hs, h⟩)
      · exact ⟨_, List.suffix_refl _, h⟩
      · exact ⟨s, hs.trans (List.suffix_cons c t), h⟩
    · rintro ⟨s, hs, h⟩
      rcases List.suffix_cons_iff.mp hs with rfl | hs
      · exact .inl h
      · exact .inr ⟨s, hs, h⟩

/-- A star takes more in front. -/
theorem matches_star_mono {ps : List (Piece α)} {s t : List α} (h : Matches (.star :: ps) s) (hs : s <:+ t) :
    Matches (.star :: ps) t := by
  obtain ⟨r, hr, hm⟩ := matches_star.mp h
  exact matches_star.mpr ⟨r, hr.trans hs, hm⟩

theorem matches_only_star (t : List α) : Matches [.star] t :=
  matches_star.mpr ⟨[], List.nil_suffix, .nil⟩

theorem matches_star_star {ps : List (Piece α)} {t : List α} :
    Matches (.star :: .star :: ps) t ↔ Matches (.star :: ps) t := by
  constructor
  · intro h
    obtain ⟨s, hs, hm⟩ := matches_star.mp h
    exact matches_star_mono hm hs
  · exact .skip

theorem matches_append {ps qs : List (Piece α)} {t : List α} :
    Matches (ps ++ qs) t ↔ ∃ s r, t = s ++ r ∧ Matches ps s ∧ Matches qs r := by
  induction ps generalizing t with
  | nil => simp [matches_nil]
  | cons p ps ih =>
    cases p with
    | one p =>
      cases t with
      | nil => simp [not_matches_one_nil]
      | cons c t =>
        rw [List.cons_append, matches_one_cons, ih]
        constructor
        · rintro ⟨hp, s, r, rfl, hs, hr⟩
          exact ⟨c :: s, r, rfl, .one hp hs, hr⟩
        · rintro ⟨s, r, ht, hs, hr⟩
          cases hs with
          | one hp hs =>
            obtain ⟨rfl, rfl⟩ := List.cons.inj ht
            exact ⟨hp, _, r, rfl, hs, hr⟩
    | star =>
      rw [List.cons_append, matches_star]
      constructor
      · rintro ⟨u, ⟨v, rfl⟩, hm⟩
        obtain ⟨s, r, rfl, hs, hr⟩ := ih.mp hm
        exact ⟨v ++ s, r, (List.append_assoc v s r).symm, matches_star.mpr ⟨s, List.suffix_append v s, hs⟩, hr⟩
      · rintro ⟨s, r, rfl, hs, hr⟩
        obtain ⟨u, ⟨v, rfl⟩, hm⟩ := matches_star.mp hs
        exact ⟨u ++ r, ⟨v, (List.append_assoc v u r).symm⟩, ih.mpr ⟨u, r, rfl, hm, hr⟩⟩

/-- A letter more, and anything behind it. -/
theorem matches_proper {ps : List (Piece α)} {t : List α} :
    Matches (ps ++ [.one fun _ => true, .star]) t ↔ ∃ s r, t = s ++ r ∧ r ≠ [] ∧ Matches ps s := by
  rw [matches_append]
  constructor
  · rintro ⟨s, r, ht, hs, hr⟩
    refine ⟨s, r, ht, ?_, hs⟩
    rintro rfl
    exact not_matches_one_nil hr
  · rintro ⟨s, r, ht, hne, hs⟩
    obtain ⟨c, r, rfl⟩ := List.exists_cons_of_ne_nil hne
    exact ⟨s, c :: r, ht, hs, .one rfl (matches_only_star r)⟩

/-! ## Fragments -/

/-- What is left of the word behind the fragment. -/
def fragmentAt : List (α → Bool) → List α → Option (List α)
  | [], t => some t
  | _ :: _, [] => none
  | p :: f, c :: t => if p c then fragmentAt f t else none

theorem fragmentAt_length {f : List (α → Bool)} {t r : List α} (h : fragmentAt f t = some r) :
    r = t.drop f.length ∧ f.length ≤ t.length := by
  induction f generalizing t with
  | nil => exact ⟨(Option.some.inj h).symm, Nat.zero_le _⟩
  | cons p f ih =>
    cases t with
    | nil => cases h
    | cons c t =>
      rw [fragmentAt] at h
      split at h
      · obtain ⟨h1, h2⟩ := ih h
        exact ⟨h1, Nat.succ_le_succ h2⟩
      · cases h

theorem matches_fragment {f : List (α → Bool)} {ps : List (Piece α)} {t : List α} :
    Matches (f.map .one ++ ps) t ↔ ∃ r, fragmentAt f t = some r ∧ Matches ps r := by
  induction f generalizing t with
  | nil => simp [fragmentAt]
  | cons p f ih =>
    rw [List.map_cons, List.cons_append]
    cases t with
    | nil => simp [fragmentAt, not_matches_one_nil]
    | cons c t =>
      rw [matches_one_cons, ih, fragmentAt]
      by_cases hp : p c = true
      · simp [hp]
      · simp [hp]

/-- The first place where a fragment is found will do. -/
theorem matches_star_found {f : List (α → Bool)} {ps : List (Piece α)} {t r : List α} (h : fragmentAt f t = some r) :
    Matches (.star :: (f.map .one ++ .star :: ps)) t ↔ Matches (.star :: ps) r := by
  constructor
  · intro hm
    obtain ⟨s, hs, hms⟩ := matches_star.mp hm
    obtain ⟨r', hr', hm'⟩ := matches_fragment.mp hms
    -- what is left at the later place is a suffix of what is left at the first
    have hsuffix : r' <:+ r := by
      rw [(fragmentAt_length hr').1, (fragmentAt_length h).1]
      obtain ⟨u, rfl⟩ := hs
      have hle := (fragmentAt_length hr').2
      rw [List.suffix_iff_eq_drop]
      simp only [List.drop_drop, List.length_drop, List.length_append]
      rw [show f.length + (u.length + s.length - f.length - (s.length - f.length)) = u.length + f.length by omega,
        ← List.drop_drop, List.drop_left]
    exact matches_star_mono hm' hsuffix
  · intro hm
    exact .skip (matches_fragment.mpr ⟨r, h, hm⟩)

/-- A fragment that nothing follows stands at the end of the word. -/
theorem matches_star_last {f : List (α → Bool)} {t : List α} :
    Matches (.star :: f.map .one) t ↔ fragmentAt f (t.drop (t.length - f.length)) = some [] := by
  have hone : ∀ s : List α, Matches (f.map .one) s ↔ fragmentAt f s = some [] := by
    intro s
    have : Matches (f.map .one ++ []) s ↔ ∃ r, fragmentAt f s = some r ∧ Matches [] r := matches_fragment
    rw [List.append_nil] at this
    rw [this]
    constructor
    · rintro ⟨r, hr, hnil⟩
      rw [hr, matches_nil.mp hnil]
    · exact fun h => ⟨[], h, .nil⟩
  rw [matches_star]
  constructor
  · rintro ⟨s, hs, hm⟩
    have hat := (hone s).mp hm
    obtain ⟨hdrop, hle⟩ := fragmentAt_length hat
    have hlen' : s.length = f.length := by
      have := congrArg List.length hdrop
      rw [List.length_drop, List.length_nil] at this
      omega
    rw [← hlen', ← List.suffix_iff_eq_drop.mp hs]
    exact hat
  · intro h
    exact ⟨_, List.drop_suffix _ _, (hone _).mpr h⟩

/-! ## Fragment by fragment -/

/-- The fragment in front. -/
def fragment : List (Piece α) → List (α → Bool)
  | .one p :: ps => p :: fragment ps
  | _ => []

/-- What comes behind it: nothing, or a star. -/
def rest : List (Piece α) → List (Piece α)
  | .one _ :: ps => rest ps
  | ps => ps

theorem fragment_rest (ps : List (Piece α)) : (fragment ps).map .one ++ rest ps = ps := by
  induction ps with
  | nil => rfl
  | cons p ps ih =>
    cases p with
    | one p => rw [fragment, rest, List.map_cons, List.cons_append, ih]
    | star => rfl

theorem rest_length (ps : List (Piece α)) : (rest ps).length ≤ ps.length := by
  conv_rhs => rw [← fragment_rest ps]
  rw [List.length_append]
  exact Nat.le_add_left _ _

/-- What the search for a fragment meets first. -/
inductive Found (α : Type) where
  | fragment (behind : List α)
  | stopped
  | theEnd

def search (stop : α → Bool) (f : List (α → Bool)) : List α → Found α
  | [] => .theEnd
  | c :: t =>
    if stop c then .stopped
    else match fragmentAt f (c :: t) with
      | some r => .fragment r
      | none => search stop f t

inductive Fate where
  | settled
  | hidden
  | overrun
  deriving DecidableEq

/-- The searches for the fragments behind the stars, one after the other. -/
def fateRest (stop : α → Bool) : List (Piece α) → List α → Fate
  | .star :: .star :: ps, t => fateRest stop (.star :: ps) t
  | .star :: .one p :: ps, t =>
    match search stop (p :: fragment ps) t with
    | .fragment r => fateRest stop (rest ps) r
    | .stopped => .hidden
    | .theEnd => .overrun
  | [.star], _ => .settled
  | .one _ :: _, _ => .settled
  | [], _ => .settled
  termination_by ps => ps.length
  decreasing_by
    · simp
    · have := rest_length ps
      simp only [List.length_cons]
      omega

/-- The first fragment is matched where the word begins. -/
def fate (stop : α → Bool) (ps : List (Piece α)) (t : List α) : Fate :=
  match fragmentAt (fragment ps) t with
  | some r => fateRest stop (rest ps) r
  | none => .settled

/-- Before a fragment is found, the search only drops letters it does not need. -/
theorem search_fragment {stop : α → Bool} {f : List (α → Bool)} {t r : List α} (h : search stop f t = .fragment r) :
    ∃ s, s <:+ t ∧ fragmentAt f s = some r ∧ ∀ ps, Matches (.star :: (f.map .one ++ ps)) t ↔
      Matches (.star :: (f.map .one ++ ps)) s := by
  induction t with
  | nil => cases h
  | cons c t ih =>
    rw [search] at h
    split at h
    · cases h
    · split at h
      · next r' hat =>
        cases h
        exact ⟨_, List.suffix_refl _, hat, fun _ => Iff.rfl⟩
      · next hat =>
        obtain ⟨s, hs, hr, hm⟩ := ih h
        refine ⟨s, hs.trans (List.suffix_cons c t), hr, fun ps => ?_⟩
        rw [matches_star_cons, matches_fragment, hat, ← hm ps]
        simp

theorem search_theEnd {stop : α → Bool} {p : α → Bool} {f : List (α → Bool)} {t : List α}
    (h : search stop (p :: f) t = .theEnd) (ps : List (Piece α)) : ¬ Matches (.star :: (.one p :: f.map .one ++ ps)) t := by
  induction t with
  | nil => rw [List.cons_append, matches_star_nil]; exact not_matches_one_nil
  | cons c t ih =>
    rw [search] at h
    split at h
    · cases h
    · split at h
      · cases h
      · next hat =>
        rw [matches_star_cons]
        rintro (hm | hm)
        · obtain ⟨r, hr, -⟩ := matches_fragment (f := p :: f).mp hm
          rw [hat] at hr
          cases hr
        · exact ih h hm

theorem search_stopped {stop : α → Bool} {f : List (α → Bool)} {t : List α} (h : search stop f t = .stopped) :
    ∃ c ∈ t, stop c = true := by
  induction t with
  | nil => cases h
  | cons c t ih =>
    rw [search] at h
    split at h
    · next hc => exact ⟨c, List.mem_cons_self, hc⟩
    · split at h
      · cases h
      · obtain ⟨c', hc', hs⟩ := ih h
        exact ⟨c', List.mem_cons_of_mem c hc', hs⟩

theorem fateRest_hidden {stop : α → Bool} {ps : List (Piece α)} {t : List α} (h : fateRest stop ps t = .hidden) :
    ∃ c ∈ t, stop c = true := by
  fun_induction fateRest stop ps t with
  | case1 ps t ih => exact ih h
  | case2 p ps t r hsearch ih =>
    obtain ⟨s, hs, hr, -⟩ := search_fragment hsearch
    obtain ⟨c, hc, hstop⟩ := ih h
    rw [(fragmentAt_length hr).1] at hc
    exact ⟨c, hs.subset (List.mem_of_mem_drop hc), hstop⟩
  | case3 p ps t hsearch => exact search_stopped hsearch
  | case4 => cases h
  | case5 => cases h
  | case6 => cases h
  | case7 => cases h

theorem fate_hidden {stop : α → Bool} {ps : List (Piece α)} {t : List α} (h : fate stop ps t = .hidden) :
    ∃ c ∈ t, stop c = true := by
  unfold fate at h
  split at h
  · next r hr =>
    obtain ⟨c, hc, hstop⟩ := fateRest_hidden h
    rw [(fragmentAt_length hr).1] at hc
    exact ⟨c, List.mem_of_mem_drop hc, hstop⟩
  · cases h

end Putty.Lib.Glob
