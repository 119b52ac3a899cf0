/-
  Putty.Lib.Run — runs of a deterministic machine whose step may crash.

  An event carries everything the environment decides about it, so a step is a
  partial function: `none` is a crash (a failed assertion, a NULL or freed pointer
  followed, a loop that ran out of its bound). `Always` is what a safety property of
  every state of a run means, `Along` says that every step of a run is taken from a
  state that allows its event, and `always_of_inv` is the induction that gets the
  first from the second.
-/

import Mathlib.Data.List.Induction
import Mathlib.Tactic.Linarith

namespace Putty.Lib

variable {σ ε : Type*} (step : σ → ε → Option σ)

def run (s : σ) (evs : List ε) : Option σ := evs.foldlM step s

/-- Every event is taken in a state where `ok` allows it. -/
def Along (ok : σ → ε → Prop) : σ → List ε → Prop
  | _, [] => True
  | s, e :: es => ok s e ∧ ∀ s', step s e = some s' → Along ok s' es

/-- The run reaches the end of each of its prefixes, in a state where `P` holds. -/
def Always (P : List ε → σ → Prop) (s : σ) (evs : List ε) : Prop :=
  ∀ pre, pre <+: evs → ∃ s', run step s pre = some s' ∧ P pre s'

@[simp] theorem run_nil (s : σ) : run step s [] = some s := rfl

theorem run_cons (s : σ) (e : ε) (es : List ε) : run step s (e :: es) = (step s e).bind fun s' => run step s' es := rfl

theorem run_append (s : σ) (as bs : List ε) : run step s (as ++ bs) = (run step s as).bind fun s' => run step s' bs := by
  simp only [run, List.foldlM_append]; rfl

theorem run_snoc (s : σ) (as : List ε) (e : ε) : run step s (as ++ [e]) = (run step s as).bind fun s' => step s' e := by
  rw [run_append]
  cases run step s as with
  | none => rfl
  | some s' => simp [run]

/-- Events in batches. -/
theorem run_flatten (s : σ) (batches : List (List ε)) : run (run step) s batches = run step s batches.flatten := by
  induction batches generalizing s with
  | nil => rfl
  | cons batch batches ih =>
    rw [run_cons, List.flatten_cons, run_append]
    exact congrArg _ (funext ih)

variable {step} {ok : σ → ε → Prop} {I P Q : List ε → σ → Prop}

theorem along_snoc {s : σ} {as : List ε} {e : ε} :
    Along step ok s (as ++ [e]) ↔ Along step ok s as ∧ ∀ s', run step s as = some s' → ok s' e := by
  induction as generalizing s with
  | nil => simp [Along]
  | cons a as ih =>
    simp only [List.cons_append, Along, run_cons]
    constructor
    · rintro ⟨ha, h⟩
      refine ⟨⟨ha, fun s' hs => (ih.mp (h s' hs)).1⟩, fun s' hs => ?_⟩
      obtain ⟨s1, h1, h2⟩ := Option.bind_eq_some_iff.mp hs
      exact (ih.mp (h s1 h1)).2 s' h2
    · rintro ⟨⟨ha, h⟩, he⟩
      exact ⟨ha, fun s' hs => ih.mpr ⟨h s' hs, fun t ht => he t (by rw [hs]; exact ht)⟩⟩

theorem along_prefix {s : σ} {as bs : List ε} (h : Along step ok s (as ++ bs)) : Along step ok s as := by
  induction as generalizing s with
  | nil => trivial
  | cons a as ih => exact ⟨h.1, fun s' hs => ih (h.2 s' hs)⟩

instance decidableAlong [∀ s e, Decidable (ok s e)] : ∀ s evs, Decidable (Along step ok s evs)
  | _, [] => isTrue trivial
  | s, e :: es =>
    match h : step s e with
    | none => decidable_of_iff (ok s e) ⟨fun h1 => ⟨h1, fun _ h2 => nomatch h.symm.trans h2⟩, And.left⟩
    | some t =>
      have := decidableAlong t es
      decidable_of_iff (ok s e ∧ Along step ok t es)
        ⟨fun h1 => ⟨h1.1, fun _ h2 => Option.some.inj (h.symm.trans h2) ▸ h1.2⟩, fun h1 => ⟨h1.1, h1.2 t h⟩⟩

theorem Always.mono {s : σ} {evs : List ε} (h : Always step P s evs) (hPQ : ∀ pre s, P pre s → Q pre s) :
    Always step Q s evs := fun pre hp => by
  obtain ⟨s', h1, h2⟩ := h pre hp
  exact ⟨s', h1, hPQ pre s' h2⟩

theorem always_nil {s : σ} : Always step P s [] ↔ P [] s := by
  constructor
  · intro h
    obtain ⟨s', h1, h2⟩ := h [] (List.prefix_refl _)
    cases h1; exact h2
  · intro h pre hp
    rw [List.prefix_nil.mp hp]
    exact ⟨s, rfl, h⟩

theorem always_snoc {s : σ} {as : List ε} {e : ε} :
    Always step P s (as ++ [e]) ↔ Always step P s as ∧ ∃ s', run step s (as ++ [e]) = some s' ∧ P (as ++ [e]) s' := by
  constructor
  · intro h
    exact ⟨fun pre hp => h pre (hp.trans (List.prefix_append _ _)), h _ (List.prefix_refl _)⟩
  · rintro ⟨h1, h2⟩ pre hp
    rcases List.prefix_concat_iff.mp (by simpa using hp) with rfl | hp
    · simpa using h2
    · exact h1 pre hp

/-- An invariant of the run so far and of its state that every allowed step keeps
    holds in every state of a run all of whose steps are allowed. -/
theorem always_of_inv {s : σ} (h0 : I [] s)
    (hstep : ∀ pre t e, I pre t → ok t e → ∃ t', step t e = some t' ∧ I (pre ++ [e]) t') :
    ∀ evs, Along step ok s evs → Always step I s evs := by
  intro evs
  induction evs using List.reverseRecOn with
  | nil => intro _; exact always_nil.mpr h0
  | append_singleton as e ih =>
    intro h
    have hal := along_snoc.mp h
    have hI := ih hal.1
    obtain ⟨t, ht, hIt⟩ := hI as (List.prefix_refl _)
    obtain ⟨t', ht', hI'⟩ := hstep as t e hIt (hal.2 t ht)
    exact always_snoc.mpr ⟨hI, t', by rw [run_snoc, ht]; exact ht', hI'⟩

/-- When moreover every step that is not allowed breaks the property, the allowed runs
    are exactly the good ones. -/
theorem always_iff_along {s : σ} (h0 : I [] s) (hIP : ∀ pre t, I pre t → P pre t)
    (hstep : ∀ pre t e, I pre t → ok t e → ∃ t', step t e = some t' ∧ I (pre ++ [e]) t')
    (hbad : ∀ pre t e t', I pre t → ¬ ok t e → step t e = some t' → ¬ P (pre ++ [e]) t') (evs : List ε) :
    Always step P s evs ↔ Along step ok s evs := by
  constructor
  · induction evs using List.reverseRecOn with
    | nil => intro _; trivial
    | append_singleton as e ih =>
      intro h
      obtain ⟨hA, t', ht', hP⟩ := always_snoc.mp h
      have hal := ih hA
      refine along_snoc.mpr ⟨hal, fun t ht => ?_⟩
      obtain ⟨t1, ht1, hI⟩ := always_of_inv h0 hstep as hal as (List.prefix_refl _)
      rw [ht] at ht1; cases ht1
      rw [run_snoc, ht] at ht'
      by_contra hno
      exact hbad as t e t' hI hno ht' hP
  · intro h
    exact (always_of_inv h0 hstep evs h).mono hIP

/-! ## Runs that may end early

  `Reaches` asks for a property of the states that a run does reach, and `Taken` allows
  the steps that it does take; neither says that the run gets to its end. -/

section Partial

variable (step)

def Reaches (P : σ → Prop) (s : σ) (evs : List ε) : Prop := ∀ pre t, pre <+: evs → run step s pre = some t → P t

def Taken (ok : σ → ε → Prop) (s : σ) (evs : List ε) : Prop :=
  ∀ pre e t t', pre ++ [e] <+: evs → run step s pre = some t → step t e = some t' → ok t e

end Partial

variable {J R : σ → Prop}

theorem Reaches.initial {P : σ → Prop} {s : σ} {as bs : List ε} (h : Reaches step P s bs) (hp : as <+: bs) :
    Reaches step P s as := fun pre t hpre => h pre t (hpre.trans hp)

theorem taken_nil {s : σ} : Taken step ok s [] := fun pre e _ _ hp => absurd (List.prefix_nil.mp hp) (by simp)

theorem taken_snoc {s : σ} {as : List ε} {e : ε} :
    Taken step ok s (as ++ [e]) ↔
      Taken step ok s as ∧ ∀ t t', run step s as = some t → step t e = some t' → ok t e := by
  constructor
  · intro h
    exact ⟨fun pre d t t' hp => h pre d t t' (hp.trans (List.prefix_append _ _)), fun t t' => h as e t t' (List.prefix_refl _)⟩
  · rintro ⟨h, he⟩ pre d t t' hp
    rcases List.prefix_concat_iff.mp (by simpa using hp) with heq | hp
    · obtain ⟨rfl, hd⟩ := List.append_inj' heq rfl
      cases hd
      exact he t t'
    · exact h pre d t t' hp

theorem taken_cons {s : σ} {e : ε} {es : List ε} (h : ∀ t, step s e = some t → ok s e ∧ Taken step ok t es) :
    Taken step ok s (e :: es) := by
  intro pre d t t' hp hr hs
  cases pre with
  | nil =>
    obtain ⟨rfl, -⟩ := List.cons_prefix_cons.mp hp
    cases hr
    exact (h t' hs).1
  | cons c pre =>
    obtain ⟨rfl, hp'⟩ := List.cons_prefix_cons.mp hp
    rw [run_cons] at hr
    obtain ⟨s1, h1, hr⟩ := Option.bind_eq_some_iff.mp hr
    exact (h s1 h1).2 pre d t t' hp' hr hs

/-- Events that are allowed in every state. -/
theorem taken_of_forall {s : σ} {evs : List ε} (h : ∀ e ∈ evs, ∀ t, ok t e) : Taken step ok s evs :=
  fun pre e t _ hp _ _ => h e (hp.subset (List.mem_append_right pre (List.mem_singleton_self e))) t

theorem reaches_of_inv {s : σ} (h0 : J s) (hstep : ∀ t e t', J t → ok t e → step t e = some t' → J t') {evs : List ε}
    (h : Taken step ok s evs) : Reaches step J s evs := by
  intro pre
  induction pre using List.reverseRecOn with
  | nil =>
    intro t _ hr
    cases hr
    exact h0
  | append_singleton pre e ih =>
    intro t' hp hr
    rw [run_snoc] at hr
    obtain ⟨t, ht, he⟩ := Option.bind_eq_some_iff.mp hr
    exact hstep t e t' (ih t ((List.prefix_append _ _).trans hp) ht) (h pre e t t' hp ht he) he

/-- When moreover every step that is not allowed breaks the property, the runs of allowed
    steps are exactly those whose states are all good. -/
theorem reaches_iff_taken {s : σ} (h0 : J s) (hJR : ∀ t, J t → R t)
    (hstep : ∀ t e t', J t → ok t e → step t e = some t' → J t')
    (hbad : ∀ t e t', J t → ¬ ok t e → step t e = some t' → ¬ R t') (evs : List ε) :
    Reaches step R s evs ↔ Taken step ok s evs := by
  constructor
  · induction evs using List.reverseRecOn with
    | nil => intro _; exact taken_nil
    | append_singleton as e ih =>
      intro h
      have htaken := ih (h.initial (List.prefix_append _ _))
      refine taken_snoc.mpr ⟨htaken, fun t t' hr he => ?_⟩
      have hJ := reaches_of_inv h0 hstep htaken as t (List.prefix_refl _) hr
      by_contra hno
      exact hbad t e t' hJ hno he (h _ t' (List.prefix_refl _) (by rw [run_snoc, hr]; exact he))
  · intro h pre t hp hr
    exact hJR t (reaches_of_inv h0 hstep h pre t hp hr)

end Putty.Lib
