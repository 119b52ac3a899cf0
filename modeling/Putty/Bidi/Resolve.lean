/-
  Putty.Bidi.Resolve — the levels that do_bidi computes for a line without explicit codes.

  They are the levels that rules I1, I2 and L1 give to the types left by W7, N1 and N2
  (`bidiLevels_eq`); that do_bidi has two loops for L1 makes no difference (`ruleL1_eq`).
  N1 and N2 do what they say except at the ends of the line, where a neutral that stands
  alone takes the direction of its neighbour although the end counts as text of the
  paragraph's direction (`found_getElem?`, `ends_iff`). Nonspacing marks at the start of a
  right-to-left line get a wrong type but the right level (`found_front`).
-/

import Putty.Bidi.Neutrals

namespace Putty.Bidi

open BidiType Standard

/-! ## Lines without explicit codes -/

def NoExplicit (original : List BidiType) : Prop :=
  ∀ t ∈ original, t ≠ LRE ∧ t ≠ LRO ∧ t ≠ RLE ∧ t ≠ RLO ∧ t ≠ PDF

theorem step_plain {t : BidiType} (h : t ≠ LRE ∧ t ≠ LRO ∧ t ≠ RLE ∧ t ≠ RLO ∧ t ≠ PDF) (level : UInt8)
    (levels : List UInt8) (types : List BidiType) :
    Explicit.step level ⟨levels, types, level, ON, false⟩ t = ⟨levels ++ [level], types ++ [spaces t], level, ON, false⟩ := by
  obtain ⟨h1, h2, h3, h4, h5⟩ := h
  cases t <;> first | rfl | contradiction

theorem explicit_plain {original : List BidiType} (h : NoExplicit original) (level : UInt8) (levels : List UInt8)
    (types : List BidiType) :
    original.foldl (Explicit.step level) ⟨levels, types, level, ON, false⟩ =
      ⟨levels ++ List.replicate original.length level, types ++ original.map spaces, level, ON, false⟩ := by
  induction original generalizing levels types with
  | nil => simp
  | cons t original ih =>
    rw [List.foldl_cons, step_plain (h t List.mem_cons_self), ih fun t ht => h t (List.mem_cons_of_mem _ ht)]
    simp [List.replicate_succ]

theorem ruleX9_plain {original : List BidiType} (h : NoExplicit original) :
    ruleX9 (original.map spaces) = original.map spaces := by
  rw [ruleX9, List.map_map]
  refine List.map_congr_left fun t ht => ?_
  obtain ⟨h1, h2, h3, h4, h5⟩ := h t ht
  cases t <;> first | rfl | contradiction

/-! ## Bytes and numbers -/

theorem paragraphLevelOf_eq (original : List BidiType) :
    (paragraphLevelOf original = 0 ∧ paragraphLevel original = 0) ∨
      (paragraphLevelOf original = 1 ∧ paragraphLevel original = 1) := by
  have hfind : (original.find? fun t => t = R ∨ t = AL ∨ t = L) = original.find? fun t => t = L ∨ t = R ∨ t = AL := by
    congr 1
    funext t
    cases t <;> rfl
  unfold paragraphLevelOf paragraphLevel
  rw [hfind]
  rcases hf : original.find? fun t => t = L ∨ t = R ∨ t = AL with _ | t
  · exact Or.inl ⟨rfl, rfl⟩
  · have ht : t = L ∨ t = R ∨ t = AL := by simpa using List.find?_some hf
    rcases ht with rfl | rfl | rfl
    · exact Or.inl ⟨rfl, rfl⟩
    · exact Or.inr ⟨rfl, rfl⟩
    · exact Or.inr ⟨rfl, rfl⟩

/-- The level as a byte is the level. -/
structure SameLevel (byte : UInt8) (level : Nat) : Prop where
  cases : (byte = 0 ∧ level = 0) ∨ (byte = 1 ∧ level = 1)

theorem sameLevel (original : List BidiType) : SameLevel (paragraphLevelOf original) (paragraphLevel original) :=
  ⟨paragraphLevelOf_eq original⟩

theorem ruleN2_eq {byte : UInt8} {level : Nat} (h : SameLevel byte level) {types : List BidiType} {n : Nat}
    (hn : types.length = n) : ruleN2 (List.replicate n byte) types = types.map (orElse (direction level)) := by
  subst hn
  induction types with
  | nil => rfl
  | cons t types ih =>
    rw [List.length_cons, List.replicate_succ, ruleN2, List.zipWith_cons_cons, ← ruleN2, ih, List.map_cons]
    refine congrArg (· :: _) ?_
    rcases h.cases with ⟨rfl, rfl⟩ | ⟨rfl, rfl⟩ <;> rfl

theorem implicit_eq {byte : UInt8} {level : Nat} (h : SameLevel byte level) {types : List BidiType} {n : Nat}
    (hn : types.length = n) :
    (ruleI2 types (ruleI1 types (List.replicate n byte))).map (·.toNat) = types.map (implicit level) := by
  subst hn
  induction types with
  | nil => rfl
  | cons t types ih =>
    rw [List.length_cons, List.replicate_succ, ruleI1, List.zipWith_cons_cons, ← ruleI1, ruleI2,
      List.zipWith_cons_cons, ← ruleI2, List.map_cons, ih, List.map_cons]
    refine congrArg (· :: _) ?_
    rcases h.cases with ⟨rfl, rfl⟩ | ⟨rfl, rfl⟩ <;> cases t <;> rfl

theorem resets_space (ts : List BidiType) :
    Resets (WS :: ts) ↔ ts.find? (· ≠ WS) = none ∨ ts.find? (· ≠ WS) = some S ∨ ts.find? (· ≠ WS) = some B := by
  show (WS = S ∨ WS = B ∨ (WS = WS ∧ _)) ↔ _
  exact ⟨fun h => (h.resolve_left (by decide)).resolve_left (by decide) |>.2, fun h => .inr (.inr ⟨rfl, h⟩)⟩

theorem resets_other {t : BidiType} (h : t ≠ WS) (ts : List BidiType) : Resets (t :: ts) ↔ t = B ∨ t = S := by
  show (t = S ∨ t = B ∨ (t = WS ∧ _)) ↔ _
  exact ⟨fun hr => by tauto, fun hr => by tauto⟩

theorem resetSeparators_eq {byte : UInt8} {level : Nat} (h : SameLevel byte level) (original : List BidiType)
    (levels : List UInt8) :
    (resetSeparators byte original levels).map (·.toNat) = reset level original (levels.map (·.toNat)) := by
  have hbyte : byte.toNat = level := by rcases h.cases with ⟨rfl, rfl⟩ | ⟨rfl, rfl⟩ <;> rfl
  induction original generalizing levels with
  | nil => cases levels <;> rfl
  | cons t original ih =>
    cases levels with
    | nil => rfl
    | cons l levels =>
      rw [resetSeparators, List.map_cons, ih, List.map_cons, reset]
      refine congrArg (· :: _) ?_
      by_cases hw : t = WS
      · subst hw
        rw [if_pos rfl, if_congr (resets_space original) rfl rfl]
        rcases original.find? (· ≠ WS) with _ | z
        · rw [if_pos (.inl rfl)]
          exact hbyte
        · dsimp only
          by_cases hz : z = B ∨ z = S
          · rw [if_pos hz, if_pos (.inr (hz.symm.imp (congrArg some) (congrArg some)))]
            exact hbyte
          · rw [if_neg hz, if_neg]
            rintro (hn | hs | hb)
            · cases hn
            · exact hz (.inr (Option.some.inj hs))
            · exact hz (.inl (Option.some.inj hb))
      · rw [if_neg hw, if_congr (resets_other hw original) rfl rfl]
        split_ifs
        · exact hbyte
        · rfl

theorem reset_getElem? (level : Nat) {classes : List BidiType} {levels : List Nat} (h : levels.length = classes.length) (i : Nat) :
    (reset level classes levels)[i]? = levels[i]?.map fun l => if Resets (classes.drop i) then level else l := by
  induction classes generalizing levels i with
  | nil =>
    obtain rfl := List.eq_nil_of_length_eq_zero h
    rfl
  | cons t classes ih =>
    cases levels with
    | nil => exact absurd h.symm (Nat.succ_ne_zero _)
    | cons l levels =>
      cases i with
      | zero => rfl
      | succ i => exact ih (Nat.succ.inj h) i

/-- Levels that L1 resets need not agree. -/
theorem reset_eq_iff (level : Nat) {classes : List BidiType} {a b : List Nat} (ha : a.length = classes.length)
    (hb : b.length = classes.length) :
    reset level classes a = reset level classes b ↔ ∀ i < classes.length, Resets (classes.drop i) ∨ a[i]? = b[i]? := by
  constructor
  · intro heq i hi
    have hget := congrArg (·[i]?) heq
    rw [reset_getElem? level ha, reset_getElem? level hb] at hget
    by_cases hr : Resets (classes.drop i)
    · exact .inl hr
    · simp only [if_neg hr, Option.map_id'] at hget
      exact .inr hget
  · intro hall
    apply List.ext_getElem?
    intro i
    rw [reset_getElem? level ha, reset_getElem? level hb]
    by_cases hi : i < classes.length
    · rcases hall i hi with hr | hr
      · rw [List.getElem?_eq_getElem (ha ▸ hi), List.getElem?_eq_getElem (hb ▸ hi), Option.map_some, Option.map_some, if_pos hr, if_pos hr]
      · rw [hr]
    · rw [List.getElem?_eq_none (by omega), List.getElem?_eq_none (by omega)]

theorem resets_spaces {classes : List BidiType} (hne : classes ≠ []) (h : ∀ t ∈ classes, t = WS) : Resets classes := by
  cases classes with
  | nil => exact absurd rfl hne
  | cons t ts =>
    obtain rfl := h t List.mem_cons_self
    refine (resets_space ts).mpr (.inl (List.find?_eq_none.mpr fun u hu => ?_))
    simp [h u (List.mem_cons_of_mem _ hu)]

/-- The white space at the end of a line. -/
theorem trailing_spaces {original : List BidiType} {i : Nat}
    (h : original.length - (original.reverse.takeWhile (· = WS)).length ≤ i) : ∀ t ∈ original.drop i, t = WS := by
  intro t ht
  have hmem : t ∈ original.reverse.take (original.length - i) := by
    rw [← List.reverse_drop, List.mem_reverse]
    exact ht
  have hpre := List.prefix_of_prefix_length_le (List.take_prefix (original.length - i) original.reverse)
    (List.takeWhile_prefix (p := (· = WS)) (l := original.reverse)) (by rw [List.length_take]; omega)
  exact of_decide_eq_true (List.mem_takeWhile_imp (p := (· = WS)) (hpre.subset hmem))

/-- The second loop of rule L1 does what the first one does. -/
theorem ruleL1_eq {byte : UInt8} {level : Nat} (h : SameLevel byte level) {original : List BidiType} {levels : List UInt8}
    (hlen : levels.length = original.length) :
    (resetSeparators byte original (resetTrailing byte original levels)).map (·.toNat) =
      reset level original (levels.map (·.toNat)) := by
  rw [resetSeparators_eq h, reset_eq_iff level]
  · intro i hi
    unfold resetTrailing
    dsimp only
    generalize htr : min (original.reverse.takeWhile (· = WS)).length (original.length - 1) = trailing
    by_cases hlow : i < levels.length - trailing
    · right
      rw [List.getElem?_map, List.getElem?_map, List.getElem?_append_left (by rw [List.length_take]; omega), List.getElem?_take_of_lt hlow]
    · left
      refine resets_spaces (List.ne_nil_of_length_pos ?_) (trailing_spaces ?_)
      · rw [List.length_drop]
        omega
      · omega
  · rw [List.length_map, resetTrailing, List.length_append, List.length_take, List.length_replicate]
    omega
  · rw [List.length_map, hlen]

/-! ## What do_bidi computes -/

theorem length_inPlace (body : List BidiType → BidiType → List BidiType → BidiType) (before l : List BidiType) :
    (inPlace body before l).length = l.length := by
  induction l generalizing before with
  | nil => rfl
  | cons t l ih => rw [inPlace, List.length_cons, ih, List.length_cons]

theorem length_codeWeak (byte : UInt8) (types : List BidiType) : (codeWeak byte types).length = types.length := by
  simp only [codeWeak, ruleW1, ruleW2, ruleW3, ruleW4, ruleW5, ruleW6, ruleW7, length_inPlace, List.length_map]

theorem length_neutrals (e behind : BidiType) (l : List BidiType) : (neutrals e behind l).length = l.length := by
  induction l generalizing behind with
  | nil => rfl
  | cons t l ih =>
    rw [neutrals]
    split_ifs <;> rw [List.length_cons, ih, List.length_cons]

theorem fixLast_length (types out : List BidiType) : (fixLast types out).length = out.length := by
  unfold fixLast
  split
  · split
    · exact List.length_set
    · rfl
  · rfl

/-- The types after N1 and N2, when those after W7 are `types`. -/
def found (e : BidiType) (types : List BidiType) : List BidiType := fixLast types (fixFirst types (neutrals e e types))

theorem length_found (e : BidiType) (types : List BidiType) : (found e types).length = types.length := by
  rw [found, fixLast_length, fixFirst_length, length_neutrals]

/-- The levels of a line without explicit codes, the types after W7 given. -/
theorem bidiLevels_eq {original : List BidiType} (h : NoExplicit original) (hright : original.any (fun t => t = R ∨ t = AL) = true) :
    ∃ levels, bidiLevels original = some levels ∧
      levels.map (·.toNat) = reset (paragraphLevel original) original
        ((found (direction (paragraphLevel original)) (codeWeak (paragraphLevelOf original) (original.map spaces))).map
          (implicit (paragraphLevel original))) := by
  have hsame := sameLevel original
  have hne : codeWeak (paragraphLevelOf original) (original.map spaces) ≠ [] := by
    rw [← List.length_pos_iff, length_codeWeak, List.length_map, List.length_pos_iff]
    rintro rfl
    cases hright
  have hfound := ruleN1_eq (e := direction (paragraphLevel original)) hne
  have hlen : (ruleN1 (codeWeak (paragraphLevelOf original) (original.map spaces))).length = original.length := by
    have := congrArg List.length hfound
    rwa [List.length_map, ← found, length_found, length_codeWeak, List.length_map] at this
  have htypes : ruleN2 (List.replicate original.length (paragraphLevelOf original))
      (ruleN1 (codeWeak (paragraphLevelOf original) (original.map spaces))) =
        found (direction (paragraphLevel original)) (codeWeak (paragraphLevelOf original) (original.map spaces)) :=
    (ruleN2_eq hsame hlen).trans hfound
  have hfoundlen : (found (direction (paragraphLevel original)) (codeWeak (paragraphLevelOf original) (original.map spaces))).length =
      original.length := by rw [length_found, length_codeWeak, List.length_map]
  refine ⟨_, if_pos hright, ?_⟩
  rw [explicit_plain h, List.nil_append, List.nil_append]
  dsimp only
  rw [if_neg (by decide), ruleX9_plain h, ← codeWeak, htypes, ruleL1_eq hsame, implicit_eq hsame hfoundlen]
  simp only [ruleI1, ruleI2, List.length_zipWith, List.length_replicate, hfoundlen, Nat.min_self]

/-! ## Marks at the start of a line -/

theorem w2_right (k : Nat) (l : List BidiType) : w2 R (List.replicate k R ++ l) = List.replicate k R ++ w2 R l := by
  induction k with
  | zero => rfl
  | succ k ih =>
    rw [List.replicate_succ, List.cons_append, w2, if_neg (by decide), if_pos (by decide), ih]
    rfl

theorem w7_right (k : Nat) (l : List BidiType) : w7 R (List.replicate k R ++ l) = List.replicate k R ++ w7 R l := by
  induction k with
  | zero => rfl
  | succ k ih =>
    rw [List.replicate_succ, List.cons_append, w7, if_neg (by decide), if_pos (by decide), ih]
    rfl

/-- Only a number in front matters to W4. -/
theorem w4_prev {prev : Option BidiType} (h : prev ≠ some EN) (h' : prev ≠ some AN) (l : List BidiType) : w4 prev l = w4 none l := by
  cases l with
  | nil => rfl
  | cons t l => rw [w4, w4, if_neg (fun hc => h hc.2.1), if_neg (fun hc => h' hc.2.1), if_neg (fun hc => Option.some_ne_none _ hc.2.1.symm),
      if_neg (fun hc => Option.some_ne_none _ hc.2.1.symm)]

theorem w4_right (k : Nat) (l : List BidiType) : w4 none (List.replicate k R ++ l) = List.replicate k R ++ w4 none l := by
  induction k with
  | zero => rfl
  | succ k ih =>
    rw [List.replicate_succ, List.cons_append, w4, if_neg (by simp), if_neg (by simp), w4_prev (by decide) (by decide), ih]
    rfl

theorem w5_right (k : Nat) (l : List BidiType) : w5 false (List.replicate k R ++ l) = List.replicate k R ++ w5 false l := by
  induction k with
  | zero => rfl
  | succ k ih =>
    rw [List.replicate_succ, List.cons_append, w5, if_neg (by decide)]
    exact congrArg _ ih

/-- What W2 to W7 make of entries behind others that are right-to-left text. -/
theorem weak_right (k : Nat) (l : List BidiType) :
    w7 R (middle R (List.replicate k R ++ l)) = List.replicate k R ++ w7 R (middle R l) := by
  have hw3 : ∀ l, w3 (List.replicate k R ++ l) = List.replicate k R ++ w3 l := fun l => by simp [w3]
  have hw6 : ∀ l, w6 (List.replicate k R ++ l) = List.replicate k R ++ w6 l := fun l => by simp [w6]
  rw [middle, w2_right, hw3, w4_right, w5_right, hw6, w7_right]
  rfl

/-- In a right-to-left line the types are those of the rules but for some LRE at the start. -/
theorem codeWeak_right (types : List BidiType) : ∃ k l, codeWeak 1 types = dead k ++ l ∧ weak R types = List.replicate k R ++ l := by
  obtain ⟨k, rest, hsplit⟩ := w1_split types
  refine ⟨k, w7 R (middle R rest), codeWeak_dead (by decide) ((ruleW1_eq 1 types).trans (hsplit LRE)), ?_⟩
  rw [weak, numbered, ← weak_right, ← hsplit R]
  rfl

/-- In a left-to-right line they are those of the rules up to W7. -/
theorem codeWeak_left (types : List BidiType) : codeWeak 0 types = w7 R (numbered L types) :=
  codeWeak_dead (e := L) (k := 0) (by decide) (ruleW1_eq 0 types)

/-! ## The two ends of a line -/

theorem set_same {α : Type} {l : List α} {i : Nat} {x : α} (h : l[i]? = some x) : l.set i x = l := by
  apply List.ext_getElem?
  intro j
  rw [List.getElem?_set]
  split_ifs with hij hi
  · rw [← hij, h]
  · rw [← hij, List.getElem?_eq_none (by omega)]
  · rfl

/-- A neutral at the end has the direction of the paragraph. -/
theorem neutrals_last (e behind : BidiType) (init : List BidiType) :
    (neutrals e behind (init ++ [ON]))[init.length]? = some e := by
  induction init generalizing behind with
  | nil =>
    show (between e behind [] :: [])[0]? = some e
    rw [show between e behind [] = e from between_of_not_endsIn nofun]
    rfl
  | cons t init ih =>
    rw [List.cons_append, List.length_cons]
    by_cases ht : t = ON
    · subst ht
      rw [neutrals_on, List.getElem?_cons_succ, ih]
    · rw [neutrals_ne ht, List.getElem?_cons_succ, ih]

theorem fixFirst_neutral {e y : BidiType} {rest : List BidiType} :
    fixFirst (ON :: y :: rest) (neutrals e e (ON :: y :: rest)) = (neutrals e e (ON :: y :: rest)).set 0 (dir e y) := by
  rw [dir_side, fixFirst]
  rcases hs : side y with _ | d
  · rw [neutrals_on, show between e e (y :: rest) = e from between_self _]
    rfl
  · rfl

theorem fixFirst_other {e : BidiType} {types : List BidiType} (h : ∀ y rest, types ≠ ON :: y :: rest) :
    fixFirst types (neutrals e e types) = neutrals e e types := by
  unfold fixFirst
  split
  · exact absurd rfl (h _ _)
  · rfl

theorem fixLast_neutral {e y : BidiType} {init out : List BidiType} (h : out[init.length + 1]? = some e)
    (hlen : out.length = init.length + 2) : fixLast (init ++ [y, ON]) out = out.set (init.length + 1) (dir e y) := by
  have hrev : (init ++ [y, ON]).reverse = ON :: y :: init.reverse := by simp
  rw [dir_side, fixLast, hrev]
  dsimp only
  rcases hs : side y with _ | d
  · exact (set_same h).symm
  · rw [hlen]
    rfl

theorem fixLast_other {types : List BidiType} (h : ∀ init y, types ≠ init ++ [y, ON]) (out : List BidiType) : fixLast types out = out := by
  unfold fixLast
  split
  · next y r hr =>
    refine absurd ?_ (h r.reverse y)
    rw [← List.reverse_reverse types, hr]
    simp
  · rfl

/-- What is beside the first or the last entry of a line. -/
def beside (types : List BidiType) (i : Nat) : Option BidiType :=
  if i = 0 then types[1]? else if i + 1 = types.length then types[i - 1]? else none

theorem fixFirst_getElem? {e : BidiType} {types : List BidiType} {i : Nat} (h : i = 0 → ∀ y rest, types ≠ ON :: y :: rest) :
    (fixFirst types (neutrals e e types))[i]? = (neutrals e e types)[i]? := by
  by_cases hon : ∃ y rest, types = ON :: y :: rest
  · obtain ⟨y, rest, rfl⟩ := hon
    rw [fixFirst_neutral, List.getElem?_set_ne fun hi => h hi.symm y rest rfl]
  · rw [fixFirst_other fun y rest heq => hon ⟨y, rest, heq⟩]

theorem beside_last (init : List BidiType) (y z : BidiType) : beside (init ++ [y, z]) (init.length + 1) = some y := by
  rw [beside, if_neg (Nat.succ_ne_zero _), if_pos (by rw [List.length_append]; rfl), Nat.add_sub_cancel, List.getElem?_append_right (Nat.le_refl _),
    Nat.sub_self]
  rfl

/-- The two last entries of a line. -/
theorem split_last {types : List BidiType} {i : Nat} (h0 : i ≠ 0) (hi : i + 1 = types.length) :
    ∃ init y z, types = init ++ [y, z] ∧ i = init.length + 1 := by
  rcases hr : types.reverse with _ | ⟨z, _ | ⟨y, r⟩⟩
  · rw [List.reverse_eq_nil_iff.mp hr] at hi
    cases hi
  · rw [← List.length_reverse, hr] at hi
    exact absurd (Nat.succ.inj hi) h0
  · have hsplit : types = r.reverse ++ [y, z] := by
      rw [← List.reverse_reverse types, hr]
      simp
    refine ⟨r.reverse, y, z, hsplit, ?_⟩
    rw [hsplit, List.length_append] at hi
    exact Nat.succ.inj hi

/-- A neutral at one end has the direction of the paragraph by the rules. -/
theorem neutrals_end {e y : BidiType} {types : List BidiType} {i : Nat} (h : types[i]? = some ON) (hy : beside types i = some y) :
    (neutrals e e types)[i]? = some e := by
  unfold beside at hy
  split_ifs at hy with h0 hi
  · subst h0
    cases types with
    | nil => cases h
    | cons t types =>
      obtain rfl : t = ON := Option.some.inj h
      rw [neutrals_on, show between e e types = e from between_self types]
      rfl
  · obtain ⟨init, y', z, rfl, rfl⟩ := split_last h0 hi
    rw [List.getElem?_append_right (Nat.le_add_right _ 1), Nat.add_sub_cancel_left] at h
    obtain rfl : z = ON := Option.some.inj h
    have hend := neutrals_last e e (init ++ [y'])
    rwa [List.append_assoc, List.length_append] at hend

/-- N1 and N2 give a neutral at one end the direction beside it, and do what the rules say to all others. -/
theorem found_getElem? (e : BidiType) (types : List BidiType) (i : Nat) :
    (found e types)[i]? = if types[i]? = some ON then ((beside types i).map (dir e)).or (neutrals e e types)[i]?
      else (neutrals e e types)[i]? := by
  have hlen : (fixFirst types (neutrals e e types)).length = types.length := by rw [fixFirst_length, length_neutrals]
  have hother : ∀ i, (∀ init y, types = init ++ [y, ON] → i ≠ init.length + 1) →
      (found e types)[i]? = (fixFirst types (neutrals e e types))[i]? := by
    intro i hi
    rw [found]
    by_cases hon : ∃ init y, types = init ++ [y, ON]
    · obtain ⟨init, y, rfl⟩ := hon
      -- the last entry is fixed in a list that has the paragraph's direction there
      have hend := neutrals_end (e := e) (i := init.length + 1) (by simp) (beside_last init y ON)
      rw [fixLast_neutral ((fixFirst_getElem? fun h => absurd h (Nat.succ_ne_zero _)).trans hend)
        (by rw [hlen, List.length_append]; rfl), List.getElem?_set_ne (hi init y rfl).symm]
    · rw [fixLast_other fun init y heq => hon ⟨init, y, heq⟩]
  by_cases h0 : i = 0
  · subst h0
    rw [hother 0 fun init y _ => Nat.zero_ne_add_one _]
    match types with
    | [] => rfl
    | [t] =>
      rw [fixFirst_other fun y rest heq => List.cons_ne_nil y rest (List.cons.inj heq).2.symm]
      split_ifs <;> rfl
    | t :: y :: rest =>
      rw [List.getElem?_cons_zero]
      by_cases ht : t = ON
      · subst ht
        rw [if_pos rfl, fixFirst_neutral, List.getElem?_set_self (by rw [length_neutrals]; exact Nat.zero_lt_succ _)]
        rfl
      · rw [if_neg (fun h => ht (Option.some.inj h)), fixFirst_other fun y' rest' heq => ht (List.cons.inj heq).1]
  · by_cases hi : i + 1 = types.length
    · obtain ⟨init, y, z, rfl, rfl⟩ := split_last h0 hi
      rw [beside_last]
      have hz : (init ++ [y, z])[init.length + 1]? = some z := by simp
      rw [hz]
      by_cases hon : z = ON
      · subst hon
        have hend := neutrals_end (e := e) hz (beside_last init y ON)
        rw [if_pos rfl, found, fixLast_neutral ((fixFirst_getElem? fun h => absurd h h0).trans hend)
          (by rw [hlen, List.length_append]; rfl), List.getElem?_set_self]
        · rfl
        · rw [hlen, List.length_append]
          exact Nat.lt_succ_self _
      · rw [if_neg (fun h => hon (Option.some.inj h)), hother, fixFirst_getElem? fun h => absurd h h0]
        intro init' y' heq
        have hlast := congrArg List.getLast? heq
        rw [List.getLast?_append, List.getLast?_append] at hlast
        exact absurd (Option.some.inj hlast) hon
    · have hbeside : beside types i = none := by rw [beside, if_neg h0, if_neg hi]
      rw [hbeside, hother, fixFirst_getElem? fun h => absurd h h0]
      · split_ifs <;> rfl
      · rintro init y rfl rfl
        exact hi (by rw [List.length_append]; rfl)

/-- The two agree on a line when what is at its ends takes the direction of the paragraph or is reset. -/
def EndsRight (level : Nat) (original types : List BidiType) : Prop :=
  ∀ i < types.length, types[i]? = some ON → ∀ y ∈ beside types i, Resets (original.drop i) ∨ dir (direction level) y = direction level

instance (level : Nat) (original types : List BidiType) : Decidable (EndsRight level original types) := by
  unfold EndsRight
  infer_instance

theorem implicit_inj {level : Nat} (h : level = 0 ∨ level = 1) {y : BidiType}
    (heq : implicit level (dir (direction level) y) = implicit level (direction level)) : dir (direction level) y = direction level := by
  rcases h with rfl | rfl
  all_goals cases y <;> first | rfl | exact absurd heq (by decide)

theorem ends_iff {level : Nat} (h : level = 0 ∨ level = 1) {original types : List BidiType} (hlen : types.length = original.length) :
    reset level original ((found (direction level) types).map (implicit level)) =
        reset level original ((neutrals (direction level) (direction level) types).map (implicit level)) ↔
      EndsRight level original types := by
  rw [reset_eq_iff level (by rw [List.length_map, length_found, hlen]) (by rw [List.length_map, length_neutrals, hlen])]
  constructor
  · intro hall i hi hon y hy
    refine (hall i (hlen ▸ hi)).imp_right fun heq => ?_
    rw [List.getElem?_map, List.getElem?_map, found_getElem?, if_pos hon, hy, neutrals_end hon hy] at heq
    exact implicit_inj h (Option.some.inj heq)
  · intro hends i hi
    rw [List.getElem?_map, List.getElem?_map, found_getElem?]
    by_cases hon : types[i]? = some ON
    · rw [if_pos hon]
      rcases hy : beside types i with _ | y
      · exact .inr rfl
      · refine (hends i (hlen ▸ hi) hon y hy).imp_right fun heq => ?_
        rw [neutrals_end hon hy, Option.map_some, heq]
        rfl
    · rw [if_neg hon]
      exact .inr rfl

/-- LRE stands where the rules have right-to-left text. -/
def Stands (a b : Option BidiType) : Prop := a = b ∨ (a = some LRE ∧ b = some R)

theorem Stands.neutral {a b : Option BidiType} (h : Stands a b) : a = some ON ↔ b = some ON := by
  rcases h with rfl | ⟨rfl, rfl⟩
  · exact Iff.rfl
  · exact iff_of_false (by decide) (by decide)

theorem stands_front (k : Nat) (l : List BidiType) (i : Nat) : Stands ((dead k ++ l)[i]?) ((List.replicate k R ++ l)[i]?) := by
  rw [dead]
  by_cases hi : i < k
  · right
    rw [List.getElem?_append_left (by rwa [List.length_replicate]), List.getElem?_append_left (by rwa [List.length_replicate]),
      List.getElem?_replicate_of_lt hi, List.getElem?_replicate_of_lt hi]
    exact ⟨rfl, rfl⟩
  · left
    rw [List.getElem?_append_right (by rw [List.length_replicate]; omega), List.getElem?_append_right (by rw [List.length_replicate]; omega),
      List.length_replicate, List.length_replicate]

theorem neutrals_front {t : BidiType} (ht : t ≠ ON) (ht' : dir R t = R) (k : Nat) (l : List BidiType) :
    neutrals R R (List.replicate k t ++ l) = List.replicate k t ++ neutrals R R l := by
  induction k with
  | zero => rfl
  | succ k ih =>
    rw [List.replicate_succ, List.cons_append, neutrals_ne ht, ht', ih]
    rfl

/-- Marks at the start of a right-to-left line get the right level all the same. -/
theorem found_front (k : Nat) (l : List BidiType) :
    (found R (dead k ++ l)).map (implicit 1) = (found R (List.replicate k R ++ l)).map (implicit 1) := by
  have hneutrals : (neutrals R R (dead k ++ l)).map (implicit 1) = (neutrals R R (List.replicate k R ++ l)).map (implicit 1) := by
    rw [dead, neutrals_front (by decide) rfl, neutrals_front (by decide) rfl, List.map_append, List.map_append, List.map_replicate,
      List.map_replicate]
    rfl
  have hbeside : ∀ i, ((beside (dead k ++ l) i).map (dir R)) = (beside (List.replicate k R ++ l) i).map (dir R) := by
    intro i
    have hlen : (dead k ++ l).length = (List.replicate k R ++ l).length := by simp
    have hmap : ∀ j : Nat, ((dead k ++ l)[j]?).map (dir R) = ((List.replicate k R ++ l)[j]?).map (dir R) := by
      intro j
      rcases stands_front k l j with h | ⟨h1, h2⟩
      · rw [h]
      · rw [h1, h2]
        rfl
    unfold beside
    rw [hlen]
    split_ifs
    · exact hmap 1
    · exact hmap (i - 1)
    · rfl
  apply List.ext_getElem?
  intro i
  have hget := congrArg (·[i]?) hneutrals
  simp only [List.getElem?_map] at hget
  rw [List.getElem?_map, List.getElem?_map, found_getElem?, found_getElem?, hbeside i, if_congr (stands_front k l i).neutral rfl rfl]
  split_ifs
  · cases (beside (List.replicate k R ++ l) i).map (dir R) with
    | none => exact hget
    | some d => rfl
  · exact hget

end Putty.Bidi
