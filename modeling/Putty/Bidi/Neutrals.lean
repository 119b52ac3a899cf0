/-
  Putty.Bidi.Neutrals — rules N1 and N2 as do_bidi applies them, and as they are.

  The loop in the middle does what N1 says (`ruleN1_loop`), and what it leaves neutral
  gets the direction of the paragraph by N2, which is also right for neutrals at either end
  of the line. But a neutral that stands alone at one end is looked at separately and takes
  the direction of its only neighbour, whatever that of the paragraph is (`ruleN1_eq`).
-/

import Putty.Bidi.Weak

namespace Putty.Bidi

open BidiType Standard

variable {e : BidiType}

theorem dir_side (e t : BidiType) : dir e t = (side t).getD e := by
  cases t <;> rfl

theorem side_ne {t d : BidiType} (h : side t = some d) : d ≠ ON := by
  unfold side at h
  split_ifs at h <;> cases h <;> decide

/-- N2 for one entry. -/
def orElse (e t : BidiType) : BidiType := if t = ON then e else t

theorem orElse_ne {t : BidiType} (h : t ≠ ON) : orElse e t = t := if_neg h

/-! ## The loop in the middle -/

/-- What neutrals in front of `l` become when the text behind them has the direction `behind`. -/
def between (e behind : BidiType) (l : List BidiType) : BidiType := if behind = ahead e l then behind else e

/-- The nearest entry passed has the direction `behind`, or is a neutral that the loop has
    given up with its whole run. -/
def Behind (e : BidiType) (before : List BidiType) (behind : BidiType) (l : List BidiType) : Prop :=
  match before.head? with
  | none => False
  | some h => if h = ON then between e behind l = e else dir e h = behind

theorem ahead_neutral (l : List BidiType) : ahead e (ON :: l) = ahead e l := by
  rw [ahead, List.find?_cons_of_neg (by simp)]
  rfl

theorem between_neutral (behind : BidiType) (l : List BidiType) : between e behind (ON :: l) = between e behind l := by
  rw [between, ahead_neutral]
  rfl

theorem between_self (l : List BidiType) : between e e l = e := by
  rw [between]
  split <;> rfl

/-- The run of neutrals in front ends at an entry with this direction. -/
def EndsIn (d : BidiType) (l : List BidiType) : Prop := (l.find? (· ≠ ON)).bind side = some d

theorem stop_side (l : List BidiType) (d : BidiType) : (stopAt ON l).bind side = some d ↔ EndsIn d l := by
  constructor
  · intro h
    obtain ⟨z, hz, hd⟩ := Option.bind_eq_some_iff.mp h
    have hne : z ≠ ON := by
      rintro rfl
      cases hd
    exact Option.bind_eq_some_iff.mpr ⟨z, (stopAt_eq hne l).mp hz, hd⟩
  · intro h
    obtain ⟨z, hz, hd⟩ := Option.bind_eq_some_iff.mp h
    have hne : z ≠ ON := by simpa using List.find?_some hz
    exact Option.bind_eq_some_iff.mpr ⟨z, (stopAt_eq hne l).mpr hz, hd⟩

theorem EndsIn.ahead {d : BidiType} {l : List BidiType} (h : EndsIn d l) : ahead e l = d := by
  obtain ⟨z, hz, hd⟩ := Option.bind_eq_some_iff.mp h
  rw [Standard.ahead, hz]
  show dir e z = d
  rw [dir_side, hd]
  rfl

/-- Neutrals between a direction and anything else are the paragraph's. -/
theorem between_of_not_endsIn {d : BidiType} {l : List BidiType} (h : ¬ EndsIn d l) : between e d l = e := by
  unfold between
  split
  · next ha =>
    rcases hf : l.find? (· ≠ ON) with _ | z
    · rw [Standard.ahead, hf] at ha
      exact ha
    · have hz : dir e z = d := by rw [ha, Standard.ahead, hf]; rfl
      rw [dir_side] at hz
      rcases hs : side z with _ | d'
      · rw [hs] at hz
        exact hz.symm
      · rw [hs] at hz
        obtain rfl : d' = d := hz
        exact absurd (by rw [EndsIn, hf]; exact hs) h
  · rfl

/-- The loop leaves alone what is not neutral, and neutrals with nothing else behind them. -/
structure Keeps (l out : List BidiType) : Prop where
  length : out.length = l.length
  entry : ∀ i, (l[i]? ≠ some ON ∨ ∀ t ∈ l.drop i, t = ON) → out[i]? = l[i]?

theorem Keeps.refl (l : List BidiType) : Keeps l l := ⟨rfl, fun _ _ => rfl⟩

theorem Keeps.cons {t u : BidiType} {l out : List BidiType} (h : Keeps l out)
    (ht : (t ≠ ON ∨ ∀ x ∈ t :: l, x = ON) → u = t) : Keeps (t :: l) (u :: out) := by
  refine ⟨by rw [List.length_cons, List.length_cons, h.length], fun i hi => ?_⟩
  cases i with
  | zero =>
    rw [List.getElem?_cons_zero, List.getElem?_cons_zero, ht (hi.imp_left fun hne heq => hne (by rw [heq]; rfl))]
  | succ i =>
    rw [List.getElem?_cons_succ, List.getElem?_cons_succ]
    exact h.entry i (by simpa using hi)

/-- What the loop does, and what it does to a run that takes the direction `d`. -/
structure LoopOk (e : BidiType) (l : List BidiType) : Prop where
  loop : ∀ before behind, Behind e before behind l →
    (ruleN1Loop before l).map (orElse e) = neutrals e behind l ∧ Keeps l (ruleN1Loop before l)
  fill : ∀ before d, EndsIn d l →
    (ruleN1Fill d before l).map (orElse e) = neutrals e d l ∧ Keeps l (ruleN1Fill d before l)

theorem neutrals_on (behind : BidiType) (l : List BidiType) :
    neutrals e behind (ON :: l) = between e behind l :: neutrals e behind l := if_pos rfl

theorem neutrals_ne {t : BidiType} (h : t ≠ ON) (behind : BidiType) (l : List BidiType) :
    neutrals e behind (t :: l) = t :: neutrals e (dir e t) l := if_neg h

theorem behind_ne {t : BidiType} (h : t ≠ ON) (before l : List BidiType) : Behind e (t :: before) (dir e t) l := by
  show (if t = ON then _ else dir e t = dir e t)
  rw [if_neg h]

theorem behind_on {before l : List BidiType} {behind : BidiType} :
    Behind e (ON :: before) behind l ↔ between e behind l = e := by
  unfold Behind
  exact iff_of_eq (if_pos rfl)

theorem fill_cons {x : BidiType} {l : List BidiType} (h : LoopOk e l) (before : List BidiType) {d : BidiType}
    (hd : EndsIn d (x :: l)) :
    (ruleN1Fill d before (x :: l)).map (orElse e) = neutrals e d (x :: l) ∧ Keeps (x :: l) (ruleN1Fill d before (x :: l)) := by
  rw [ruleN1Fill]
  by_cases hx : x = ON
  · subst hx
    have hd' : EndsIn d l := by
      rw [EndsIn, List.find?_cons_of_neg (by simp)] at hd
      exact hd
    obtain ⟨h1, h2⟩ := h.fill (d :: before) d hd'
    obtain ⟨z, hz, hs⟩ := Option.bind_eq_some_iff.mp hd'
    have hb : between e d l = d := if_pos hd'.ahead.symm
    rw [if_pos rfl, List.map_cons, h1, neutrals_on, hb, orElse_ne (side_ne hs)]
    refine ⟨rfl, h2.cons fun hall => ?_⟩
    have hne : z ≠ ON := by simpa using List.find?_some hz
    have hmem : z ∈ ON :: l := List.mem_cons_of_mem _ (List.mem_of_find?_eq_some hz)
    exact absurd (hall.resolve_left (fun h => h rfl) z hmem) hne
  · obtain ⟨h1, h2⟩ := h.loop (x :: before) (dir e x) (behind_ne hx before l)
    rw [if_neg hx, List.map_cons, h1, neutrals_ne hx, orElse_ne hx]
    exact ⟨rfl, h2.cons fun _ => rfl⟩

/-- An entry that the loop passes. -/
theorem loop_pass {x : BidiType} {l : List BidiType} (h : LoopOk e l) {before : List BidiType} {behind : BidiType}
    (hb : x = ON → between e behind l = e) :
    (x :: ruleN1Loop (x :: before) l).map (orElse e) = neutrals e behind (x :: l) ∧
      Keeps (x :: l) (x :: ruleN1Loop (x :: before) l) := by
  by_cases hx : x = ON
  · subst hx
    obtain ⟨h1, h2⟩ := h.loop (ON :: before) behind (behind_on.mpr (hb rfl))
    rw [List.map_cons, h1, neutrals_on, hb rfl]
    exact ⟨rfl, h2.cons fun _ => rfl⟩
  · obtain ⟨h1, h2⟩ := h.loop (x :: before) (dir e x) (behind_ne hx before l)
    rw [List.map_cons, h1, neutrals_ne hx, orElse_ne hx]
    exact ⟨rfl, h2.cons fun _ => rfl⟩

theorem loop_single (x : BidiType) (before : List BidiType) (behind : BidiType) :
    (ruleN1Loop before [x]).map (orElse e) = neutrals e behind [x] ∧ Keeps [x] (ruleN1Loop before [x]) := by
  rw [ruleN1Loop]
  refine ⟨?_, Keeps.refl _⟩
  by_cases hx : x = ON
  · subst hx
    rw [neutrals_on]
    have : between e behind [] = e := between_of_not_endsIn fun h => by cases h
    rw [this]
    rfl
  · rw [neutrals_ne hx, List.map_cons, orElse_ne hx]
    rfl
  · intro _ _ _ h
    cases h

/-- One turn of the loop. -/
theorem loop_cons {x y : BidiType} {l : List BidiType} (h : LoopOk e (y :: l)) {before : List BidiType} {behind : BidiType}
    (hb : Behind e before behind (x :: y :: l)) :
    (ruleN1Loop before (x :: y :: l)).map (orElse e) = neutrals e behind (x :: y :: l) ∧
      Keeps (x :: y :: l) (ruleN1Loop before (x :: y :: l)) := by
  rcases before with _ | ⟨b, before⟩
  · exact hb.elim
  rw [ruleN1Loop]
  by_cases hx : x = ON
  · subst hx
    rw [if_pos rfl, List.head?_cons, Option.bind_some]
    have hbetween : ∀ d, between e d (ON :: y :: l) = between e d (y :: l) := fun d => between_neutral d (y :: l)
    rcases hs : side b with _ | d
    · -- the paragraph's own direction, or a run that has been given up
      refine loop_pass h fun _ => ?_
      by_cases hon : b = ON
      · rw [hon, behind_on, hbetween] at hb
        exact hb
      · have hdir : dir e b = behind := by
          unfold Behind at hb
          exact (if_neg hon).mp hb
        rw [dir_side, hs] at hdir
        rw [← hdir]
        exact between_self (y :: l)
    · have hon : b ≠ ON := by
        rintro rfl
        cases hs
      have hdir : dir e b = behind := by
        unfold Behind at hb
        exact (if_neg hon).mp hb
      rw [dir_side, hs] at hdir
      obtain rfl : d = behind := hdir
      dsimp only
      by_cases hend : EndsIn d (ON :: y :: l)
      · rw [if_pos ((stop_side _ d).mpr hend)]
        exact fill_cons h (b :: before) hend
      · rw [if_neg fun hst => hend ((stop_side _ d).mp hst)]
        exact loop_pass h fun _ => by rw [← hbetween]; exact between_of_not_endsIn hend
  · rw [if_neg hx]
    exact loop_pass h fun heq => absurd heq hx

theorem loopOk (l : List BidiType) : LoopOk e l := by
  induction l with
  | nil =>
    refine ⟨fun before behind _ => ?_, fun before d hd => ?_⟩
    · rw [ruleN1Loop]
      · exact ⟨rfl, Keeps.refl _⟩
      · intro _ _ _ h
        cases h
    · cases hd
  | cons x l ih =>
    refine ⟨fun before behind hb => ?_, fun before d hd => fill_cons ih before hd⟩
    cases l with
    | nil => exact loop_single x before behind
    | cons y l => exact loop_cons ih hb

/-! ## The two ends -/

/-- The first entry has the direction of the second if it is a neutral and that has one. -/
def fixFirst (types out : List BidiType) : List BidiType :=
  match types with
  | ON :: y :: _ => match side y with
    | some d => out.set 0 d
    | none => out
  | _ => out

/-- And the last one that of the one before. -/
def fixLast (types out : List BidiType) : List BidiType :=
  match types.reverse with
  | ON :: y :: _ => match side y with
    | some d => out.set (out.length - 1) d
    | none => out
  | _ => out

theorem fixFirst_length (types out : List BidiType) : (fixFirst types out).length = out.length := by
  unfold fixFirst
  split
  · split
    · exact List.length_set
    · rfl
  · rfl

/-- N1 up to its last step. -/
def beforeLast (types : List BidiType) : List BidiType :=
  match ruleN1First types with
  | [] => []
  | t :: rest => t :: ruleN1Loop [t] rest

theorem ruleN1_beforeLast {types : List BidiType} (h : types ≠ []) : ruleN1 types = ruleN1Last (beforeLast types) := by
  have hne : ruleN1First types ≠ [] := by
    unfold ruleN1First
    split
    · exact List.cons_ne_nil _ _
    · exact h
  unfold ruleN1 beforeLast
  rcases hf : ruleN1First types with _ | ⟨t, rest⟩
  · exact absurd hf hne
  · rfl

theorem beforeLast_eq (types : List BidiType) :
    (beforeLast types).map (orElse e) = fixFirst types (neutrals e e types) ∧ Keeps types (beforeLast types) := by
  have plain : ∀ t rest, ruleN1First (t :: rest) = t :: rest → fixFirst (t :: rest) (neutrals e e (t :: rest)) =
      neutrals e e (t :: rest) → (beforeLast (t :: rest)).map (orElse e) = fixFirst (t :: rest) (neutrals e e (t :: rest)) ∧
        Keeps (t :: rest) (beforeLast (t :: rest)) := by
    intro t rest hfirst hfix
    rw [beforeLast, hfirst, hfix]
    dsimp only
    by_cases ht : t = ON
    · subst ht
      have hb : between e e rest = e := between_self rest
      obtain ⟨h1, h2⟩ := (loopOk rest).loop [ON] e (behind_on.mpr hb)
      rw [List.map_cons, h1, neutrals_on, hb]
      exact ⟨rfl, h2.cons fun _ => rfl⟩
    · obtain ⟨h1, h2⟩ := (loopOk rest).loop [t] (dir e t) (behind_ne ht [] rest)
      rw [List.map_cons, h1, neutrals_ne ht, orElse_ne ht]
      exact ⟨rfl, h2.cons fun _ => rfl⟩
  match types with
  | [] => exact ⟨rfl, Keeps.refl _⟩
  | [t] =>
    refine plain t [] ?_ ?_
    · cases t <;> rfl
    · cases t <;> rfl
  | t :: y :: rest =>
    by_cases ht : t = ON
    · subst ht
      rcases hs : side y with _ | d
      · refine plain ON (y :: rest) ?_ ?_
        · rw [ruleN1First, hs]; rfl
        · simp only [fixFirst, hs]
      · -- the neighbour is not neutral, and the loop goes on from it
        have hy : y ≠ ON := by
          rintro rfl
          cases hs
        have hd : d ≠ ON := side_ne hs
        have hdir : dir e d = d := by
          have : side d = some d := by
            unfold side at hs ⊢
            split_ifs at hs <;> cases hs <;> rfl
          rw [dir_side, this]; rfl
        obtain ⟨h1, h2⟩ := (loopOk (y :: rest)).loop [d] (dir e d) (behind_ne (e := e) hd [] (y :: rest))
        have hfirst : ruleN1First (ON :: y :: rest) = d :: y :: rest := by rw [ruleN1First, hs]; rfl
        rw [beforeLast, hfirst]
        dsimp only
        rw [List.map_cons, h1, neutrals_on, neutrals_ne hy, orElse_ne hd]
        refine ⟨?_, h2.cons fun hall => ?_⟩
        · simp only [fixFirst, hs, List.set_cons_zero, neutrals_ne hy]
        · exact absurd (hall.resolve_left (fun h => h rfl) y (by simp)) hy
    · refine plain t (y :: rest) ?_ ?_
      · unfold ruleN1First
        split
        · next heq => exact absurd (List.cons.inj heq).1 ht
        · rfl
      · unfold fixFirst
        split
        · next heq => exact absurd (List.cons.inj heq).1 ht
        · rfl

/-- The end of a list of which the last two entries are kept. -/
theorem Keeps.ends {init out : List BidiType} {y : BidiType} (h : Keeps (init ++ [y, ON]) out) :
    ∃ init', init'.length = init.length ∧ out = init' ++ [y, ON] := by
  have hlen : out.length = init.length + 2 := by rw [h.length, List.length_append]; rfl
  have hy : out[init.length]? = some y := by
    rw [h.entry init.length, List.getElem?_append_right (Nat.le_refl _), Nat.sub_self]
    · rfl
    · by_cases hon : y = ON
      · right
        rw [List.drop_left, hon]
        simp
      · left
        rw [List.getElem?_append_right (Nat.le_refl _), Nat.sub_self]
        simpa using hon
  have hlast : out[init.length + 1]? = some ON := by
    rw [h.entry (init.length + 1), List.getElem?_append_right (Nat.le_add_right _ 1), Nat.add_sub_cancel_left]
    · rfl
    · right
      rw [List.drop_append, List.drop_eq_nil_of_le (Nat.le_add_right _ 1), Nat.add_sub_cancel_left]
      simp
  refine ⟨out.take init.length, by rw [List.length_take]; omega, ?_⟩
  conv_lhs => rw [← List.take_append_drop init.length out]
  refine congrArg _ (List.ext_getElem? fun i => ?_)
  rw [List.getElem?_drop]
  match i with
  | 0 => exact hy
  | 1 => exact hlast
  | i + 2 => rw [List.getElem?_eq_none (by omega)]; rfl

/-- N1 and N2 as do_bidi applies them are the rules, but for a single neutral at either end. -/
theorem ruleN1_eq {types : List BidiType} (h : types ≠ []) :
    (ruleN1 types).map (orElse e) = fixLast types (fixFirst types (neutrals e e types)) := by
  obtain ⟨hmap, hkeep⟩ := beforeLast_eq (e := e) types
  have hlen : (beforeLast types).length = (fixFirst types (neutrals e e types)).length := by
    rw [← hmap, List.length_map]
  rw [ruleN1_beforeLast h, ← hmap]
  by_cases hend : ∃ y r, types.reverse = ON :: y :: r
  · obtain ⟨y, r, hr⟩ := hend
    have hsplit : types = r.reverse ++ [y, ON] := by
      rw [← List.reverse_reverse types, hr]
      simp
    rw [hsplit] at hkeep
    obtain ⟨init, hinit, hout⟩ := hkeep.ends
    rw [hsplit, hout, ruleN1Last, fixLast]
    have hrev : (init ++ [y, ON]).reverse = ON :: y :: init.reverse := by simp
    have hrev' : (r.reverse ++ [y, ON]).reverse = ON :: y :: r := by simp
    rw [hrev, hrev']
    dsimp only
    rcases hs : side y with _ | d
    · simp
    · have hset : ∀ x : BidiType, (init ++ [y, x]).set (init.length + 1) d = init ++ [y, d] := by
        intro x
        rw [List.set_append_right _ _ (Nat.le_add_right _ 1), Nat.add_sub_cancel_left]
        rfl
      have hd : orElse e d = d := orElse_ne (side_ne hs)
      have hl : ((init ++ [y, ON]).map (orElse e)).length - 1 = init.length + 1 := by simp
      dsimp only
      rw [hl, ← hd, ← List.map_set, hd, hset]
      simp
  · have hfix : ∀ out, fixLast types out = out := by
      intro out
      unfold fixLast
      split
      · next y r hr => exact absurd ⟨y, r, hr⟩ hend
      · rfl
    rw [hfix]
    refine congrArg _ ?_
    unfold ruleN1Last
    split
    · next y r hr =>
      -- the last entry would be a neutral that was none before
      exfalso
      have hout : beforeLast types = r.reverse ++ [y, ON] := by
        rw [← List.reverse_reverse (beforeLast types), hr]
        simp
      have hn : types.length = r.length + 2 := by
        rw [← hkeep.length, hout]
        simp
      have hlast : types[r.length + 1]? = some ON := by
        by_contra hne
        have hk := hkeep.entry (r.length + 1) (Or.inl hne)
        rw [hout, List.getElem?_append_right (by simp)] at hk
        simp at hk
        exact hne hk.symm
      have hrev : types.reverse[0]? = some ON := by
        rw [List.getElem?_reverse (by omega), hn]
        exact hlast
      rcases hc : types.reverse with _ | ⟨a, _ | ⟨b, c⟩⟩
      · rw [hc] at hrev; cases hrev
      · have := congrArg List.length hc
        simp at this
        omega
      · rw [hc] at hrev
        obtain rfl : a = ON := Option.some.inj hrev
        exact hend ⟨b, c, hc⟩
    · rfl

end Putty.Bidi
