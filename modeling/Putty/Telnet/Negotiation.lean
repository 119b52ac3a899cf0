/-
  Putty.Telnet.Negotiation — what the option negotiation keeps (`Putty.Telnet.Options`).

  A step moves some options, each at most once (`Step`, with its `Path` of `Move`s); every
  property of a run is read off these. The last message about an option stands against its
  state with one exception: a request that the server refuses leaves the option inactive
  without another word, so that the last word on it is still the request
  (`refused_request_is_the_last_word`).
-/

import Mathlib.Data.List.Induction
import Mathlib.Data.List.Nodup
import Putty.Telnet.Options

namespace Putty.Telnet

/-! ## The options do not overlap -/

theorem opt_eq_of_heard : ∀ o ∈ opts, ∀ p ∈ opts, o.option = p.option →
    (o.ack = p.ack ∨ o.ack = p.nak ∨ o.nak = p.ack ∨ o.nak = p.nak) → o = p := by decide

theorem opt_eq_of_said : ∀ o ∈ opts, ∀ p ∈ opts, o.option = p.option →
    (o.send = p.send ∨ o.send = p.nsend ∨ o.nsend = p.send ∨ o.nsend = p.nsend) → o = p := by decide

theorem opt_eq_of_index : ∀ o ∈ opts, ∀ p ∈ opts, o.index = p.index → o = p := by decide

theorem send_ne_nsend : ∀ o ∈ opts, o.send ≠ o.nsend := by decide

theorem ack_ne_nak : ∀ o ∈ opts, o.ack ≠ o.nak := by decide

theorem nak_negative : ∀ o ∈ opts, o.nak = .WONT ∨ o.nak = .DONT := by decide

/-- The refusal of a request is what stopping the option it asks for would say. -/
theorem refusal_of_ack : ∀ o ∈ opts, (o.ack = .WILL ∧ o.nsend = .DONT) ∨ (o.ack = .DO ∧ o.nsend = .WONT) := by decide

/-! ## The moves of an option -/

/-- What was said so far. -/
def tokens (t : St) : List Token := t.sent.flatMap (·.meaning)

@[simp] theorem tokens_sendOpt (t : St) (cmd : Cmd) (option : UInt8) :
    tokens (sendOpt t cmd option) = tokens t ++ [.opt cmd option] := by simp [tokens, sendOpt, skWrite]

@[simp] theorem tokens_setOptState (t : St) (o : Opt) (st : OptState) : tokens (setOptState t o st) = tokens t := rfl

@[simp] theorem optStates_sendOpt (t : St) (cmd : Cmd) (option : UInt8) : (sendOpt t cmd option).optStates = t.optStates := rfl

@[simp] theorem activated_sendOpt (t : St) (cmd : Cmd) (option : UInt8) : (sendOpt t cmd option).activated = t.activated := rfl

@[simp] theorem activated_setOptState (t : St) (o : Opt) (st : OptState) : (setOptState t o st).activated = t.activated := rfl

@[simp] theorem optStates_setOptState_same (t : St) (o : Opt) (st : OptState) : (setOptState t o st).optStates o.index = st := by
  simp [setOptState]

theorem optStates_setOptState_ne {t : St} {o : Opt} {st : OptState} {i : OptIndex} (h : i ≠ o.index) :
    (setOptState t o st).optStates i = t.optStates i := by simp [setOptState, h]

/-- The message is about the option. -/
def About (o : Opt) (m : Token) : Prop := m = .opt o.send o.option ∨ m = .opt o.nsend o.option

theorem about_unique {o p : Opt} (ho : o ∈ opts) (hp : p ∈ opts) {m : Token} (h1 : About o m) (h2 : About p m) : o = p := by
  have hop : o.option = p.option ∧ (o.send = p.send ∨ o.send = p.nsend ∨ o.nsend = p.send ∨ o.nsend = p.nsend) := by
    rcases h1 with rfl | rfl <;> rcases h2 with h | h <;> injection h with hc hx <;> simp [hc, hx]
  exact opt_eq_of_said o ho p hp hop.1 hop.2

/-- Only flags change. -/
structure Same (t t' : St) : Prop where
  states : t'.optStates = t.optStates
  said : tokens t' = tokens t

theorem Same.refl (t : St) : Same t t := ⟨rfl, rfl⟩

/-- An option is moved by what is said about it, or was off before. -/
inductive Move (o : Opt) (t : St) : St → Prop where
  | offered (st : OptState) (h : t.optStates o.index = .inactive) (hst : st = .requested ∨ st = .active) :
      Move o t (sendOpt (setOptState t o st) o.send o.option)
  | stopped (st : OptState) (h : t.optStates o.index = .requested ∨ t.optStates o.index = .active)
      (hst : st = .inactive ∨ st = .reallyInactive) : Move o t (sendOpt (setOptState t o st) o.nsend o.option)
  | dropped (h : t.optStates o.index = .inactive ∨ t.optStates o.index = .reallyInactive) :
      Move o t (setOptState t o .reallyInactive)

/-- The options of a list are moved one after another. -/
def Path : List Opt → St → St → Prop
  | [], t, t' => Same t t'
  | o :: os, t, t' => ∃ t1 t2, Same t t1 ∧ Move o t1 t2 ∧ Path os t2 t'

theorem Same.path {t t1 t' : St} (h : Same t t1) : ∀ {os : List Opt}, Path os t1 t' → Path os t t'
  | [], h' => ⟨h'.states.trans h.states, h'.said.trans h.said⟩
  | _ :: _, ⟨t2, t3, h2, hm, hp⟩ => ⟨t2, t3, ⟨h2.states.trans h.states, h2.said.trans h.said⟩, hm, hp⟩

theorem Path.append {as bs : List Opt} {t t1 t' : St} (h : Path as t t1) (h' : Path bs t1 t') : Path (as ++ bs) t t' := by
  induction as generalizing t with
  | nil => exact h.path h'
  | cons o as ih =>
    obtain ⟨t2, t3, h2, hm, hp⟩ := h
    exact ⟨t2, t3, h2, hm, ih hp⟩

/-- What a move says is about its option. -/
theorem Move.said {o : Opt} {t t' : St} (h : Move o t t') : ∃ ms, tokens t' = tokens t ++ ms ∧ ∀ m ∈ ms, About o m := by
  cases h with
  | offered st _ _ => exact ⟨[.opt o.send o.option], by simp, by simp [About]⟩
  | stopped st _ _ => exact ⟨[.opt o.nsend o.option], by simp, by simp [About]⟩
  | dropped _ => exact ⟨[], by simp, by simp⟩

theorem Move.state_ne {o : Opt} {t t' : St} (h : Move o t t') {i : OptIndex} (hi : i ≠ o.index) :
    t'.optStates i = t.optStates i := by
  cases h with
  | offered st _ _ => exact optStates_setOptState_ne hi
  | stopped st _ _ => exact optStates_setOptState_ne hi
  | dropped _ => exact optStates_setOptState_ne hi

/-- A move that says something changes its option's state. -/
theorem Move.changes {o : Opt} {t t' : St} (h : Move o t t') {ms : List Token} (hms : tokens t' = tokens t ++ ms) (hne : ms ≠ []) :
    t'.optStates o.index ≠ t.optStates o.index := by
  cases h with
  | offered st h hst => rcases hst with rfl | rfl <;> simp [h]
  | stopped st h hst => rcases hst with rfl | rfl <;> rcases h with h | h <;> simp [h]
  | dropped _ => simp at hms; exact absurd hms hne

/-- An option that is not on a path keeps its state. -/
theorem Path.state_off {os : List Opt} {t t' : St} (h : Path os t t') {i : OptIndex} (hi : ∀ o ∈ os, i ≠ o.index) :
    t'.optStates i = t.optStates i := by
  induction os generalizing t with
  | nil => rw [h.states]
  | cons o os ih =>
    obtain ⟨t1, t2, h1, hm, hp⟩ := h
    rw [ih hp fun p hp => hi p (List.mem_cons_of_mem _ hp), hm.state_ne (hi o List.mem_cons_self), h1.states]

/-- What a path says is about its options, and each of these changed its state. -/
theorem Path.said {os : List Opt} {t t' : St} (h : Path os t t') (hin : ∀ o ∈ os, o ∈ opts) (hnd : os.Nodup) :
    ∃ ms, tokens t' = tokens t ++ ms ∧
      ∀ m ∈ ms, ∃ o ∈ os, About o m ∧ t'.optStates o.index ≠ t.optStates o.index := by
  induction os generalizing t with
  | nil => exact ⟨[], by rw [List.append_nil]; exact Same.said h, by simp⟩
  | cons o os ih =>
    obtain ⟨t1, t2, h1, hm, hp⟩ := h
    obtain ⟨hno, hnd⟩ := List.nodup_cons.mp hnd
    have hoff : ∀ p ∈ os, p.index ≠ o.index := fun p hp he =>
      hno (opt_eq_of_index p (hin p (List.mem_cons_of_mem _ hp)) o (hin o List.mem_cons_self) he ▸ hp)
    obtain ⟨ms, hms, hab⟩ := hm.said
    obtain ⟨ms', hms', hab'⟩ := ih hp (fun p hp => hin p (List.mem_cons_of_mem _ hp)) hnd
    refine ⟨ms ++ ms', by rw [hms', hms, h1.said, List.append_assoc], fun m hmem => ?_⟩
    rcases List.mem_append.mp hmem with hmem | hmem
    · refine ⟨o, List.mem_cons_self, hab m hmem, ?_⟩
      rw [hp.state_off fun p hp => (hoff p hp).symm, ← h1.states]
      exact hm.changes hms (List.ne_nil_of_mem hmem)
    · obtain ⟨p, hpos, hpa, hpc⟩ := hab' m hmem
      refine ⟨p, List.mem_cons_of_mem _ hpos, hpa, ?_⟩
      rwa [hm.state_ne (hoff p hpos), h1.states] at hpc

/-! ## The step -/

/-- Nothing was asked for before the first agreement. -/
def Dormant (t : St) : Prop := t.activated = false → ∀ i, t.optStates i = .inactive

theorem request_states {t : St} {o : Opt} {i : OptIndex} (hi : i ≠ o.index) : (request t o).optStates i = t.optStates i := by
  unfold request
  split
  · exact optStates_setOptState_ne hi
  · rfl

/-- Requesting options one after another moves those that are inactive. -/
theorem requests_path {os : List Opt} (hnd : (os.map Opt.index).Nodup) (t : St) :
    Path (os.filter fun o => t.optStates o.index = .inactive) t (os.foldl request t) := by
  induction os generalizing t with
  | nil => exact Same.refl t
  | cons o os ih =>
    rw [List.map_cons, List.nodup_cons] at hnd
    have hrest : (os.filter fun p => (request t o).optStates p.index = .inactive) =
        os.filter fun p => t.optStates p.index = .inactive := by
      apply List.filter_congr
      intro p hp
      rw [request_states fun he => hnd.1 (he ▸ List.mem_map_of_mem hp)]
    have hpath := ih hnd.2 (request t o)
    rw [hrest] at hpath
    rw [List.filter_cons, List.foldl_cons]
    by_cases h : t.optStates o.index = .inactive
    · rw [if_pos (by simpa using h)]
      refine ⟨t, request t o, Same.refl t, ?_, hpath⟩
      rw [request, if_pos h]
      exact Move.offered .requested h (.inl rfl)
    · rw [if_neg (by simpa using h)]
      rwa [show request t o = t from if_neg h] at hpath ⊢

/-- The options of the one-time activation. -/
def minimum : List Opt := [oEcho, oWeSga, oTheySga]

/-- The flags, as an option's side effects set them. -/
def flagged (t : St) (o : Opt) (enabled : Bool) : St :=
  if o.option = Telopt.ECHO ∧ o.send = .DO then { t with echoing := !enabled }
  else if o.option = Telopt.SGA ∧ o.send = .DO then { t with editing := !enabled }
  else t

theorem flagged_same (t : St) (o : Opt) (enabled : Bool) : Same t (flagged t o enabled) := by
  unfold flagged
  split
  · exact ⟨rfl, rfl⟩
  · split <;> exact ⟨rfl, rfl⟩

theorem flagged_activated (t : St) (o : Opt) (enabled : Bool) : (flagged t o enabled).activated = t.activated := by
  unfold flagged
  split
  · rfl
  · split <;> rfl

theorem optionSideEffects_eq (t : St) (o : Opt) (enabled : Bool) :
    optionSideEffects t o enabled = if t.activated then flagged t o enabled
      else { minimum.foldl request (flagged t o enabled) with activated := true } := by
  rw [← flagged_activated t o enabled]
  rfl

/-- The side effects move options of the minimum that are inactive, the first time only. -/
theorem optionSideEffects_path (t : St) (o : Opt) (enabled : Bool) :
    ∃ os, Path os t (optionSideEffects t o enabled) ∧ os.Nodup ∧
      ∀ p ∈ os, p ∈ minimum ∧ t.optStates p.index = .inactive ∧ t.activated = false := by
  rw [optionSideEffects_eq]
  have hsame := flagged_same t o enabled
  by_cases h : t.activated
  · rw [if_pos h]
    exact ⟨[], hsame, List.nodup_nil, by simp⟩
  · rw [if_neg h]
    have hpath := requests_path (by decide : (minimum.map Opt.index).Nodup) (flagged t o enabled)
    rw [hsame.states] at hpath
    have hlast : Path [] (minimum.foldl request (flagged t o enabled))
        { minimum.foldl request (flagged t o enabled) with activated := true } := ⟨rfl, rfl⟩
    refine ⟨_, (hsame.path hpath).append hlast, ?_, fun p hp => ?_⟩
    · rw [List.append_nil]
      exact List.Nodup.filter _ (by decide)
    · simp only [List.append_nil, List.mem_filter, decide_eq_true_eq] at hp
      exact ⟨hp.1, hp.2, by simpa using h⟩

theorem optionSideEffects_activated (t : St) (o : Opt) (enabled : Bool) :
    (optionSideEffects t o enabled).activated = true := by
  rw [optionSideEffects_eq]
  split
  · next h => rw [flagged_activated]; exact h
  · rfl

theorem deactivateOption_path (t : St) (o : Opt) : Path [o] t (deactivateOption t o) := by
  unfold deactivateOption
  by_cases h : t.optStates o.index = .requested ∨ t.optStates o.index = .active
  · rw [if_pos h]
    exact ⟨t, _, Same.refl t, Move.stopped .reallyInactive h (.inr rfl), Same.refl _⟩
  · rw [if_neg h]
    refine ⟨t, _, Same.refl t, Move.dropped ?_, Same.refl _⟩
    cases hs : t.optStates o.index <;> simp [hs] at h ⊢

/-- The window size is told when NAWS becomes active. -/
def announced (t : St) (o : Opt) : St :=
  if o.send = .WILL ∧ o.option = Telopt.NAWS then telnetSize t t.termWidth t.termHeight else t

/-- The other kind of ENVIRON is given up. -/
def oneEnviron (t : St) (o : Opt) : St :=
  if o.send = .WILL ∧ (o.option = Telopt.NEW_ENVIRON ∨ o.option = Telopt.OLD_ENVIRON) then
    deactivateOption t (if o.option = Telopt.NEW_ENVIRON then oOenv else oNenv)
  else t

theorem activateOption_eq (t : St) (o : Opt) : activateOption t o = optionSideEffects (oneEnviron (announced t o) o) o true := rfl

theorem telnetSize_states (t : St) (w h : Int) : (telnetSize t w h).optStates = t.optStates := by
  simp only [telnetSize]
  split <;> rfl

theorem announced_states (t : St) (o : Opt) : (announced t o).optStates = t.optStates := by
  unfold announced
  split
  · exact telnetSize_states t _ _
  · rfl

theorem minimum_subset : ∀ p ∈ minimum, p ∈ opts := by decide

theorem oneEnviron_path (t : St) {o : Opt} (ho : o ∈ opts) :
    ∃ os, Path os t (oneEnviron t o) ∧ os.Nodup ∧ ∀ p ∈ os, p ∈ opts ∧ p ≠ o ∧ p ∉ minimum := by
  unfold oneEnviron
  by_cases h : o.send = .WILL ∧ (o.option = Telopt.NEW_ENVIRON ∨ o.option = Telopt.OLD_ENVIRON)
  · rw [if_pos h]
    refine ⟨_, deactivateOption_path t _, List.nodup_singleton _, fun p hp => ?_⟩
    rw [List.mem_singleton] at hp
    subst hp
    revert h
    revert o
    decide
  · rw [if_neg h]
    exact ⟨[], Same.refl t, List.nodup_nil, by simp⟩

/-- Two paths over different options, one after the other. -/
theorem path_append_nodup {as bs : List Opt} (ha : as.Nodup) (hb : bs.Nodup) (hab : ∀ p ∈ as, p ∉ bs) : (as ++ bs).Nodup :=
  List.nodup_append.mpr ⟨ha, hb, fun p hp _ hq he => hab p hp (he ▸ hq)⟩

theorem activateOption_path (t : St) {o : Opt} (ho : o ∈ opts) (hact : t.optStates o.index = .active) :
    ∃ os, Path os (announced t o) (activateOption t o) ∧ os.Nodup ∧ ∀ p ∈ os, p ∈ opts ∧ p ≠ o := by
  rw [activateOption_eq]
  obtain ⟨as, hpa, hna, ha⟩ := oneEnviron_path (announced t o) ho
  obtain ⟨bs, hpb, hnb, hb⟩ := optionSideEffects_path (oneEnviron (announced t o) o) o true
  refine ⟨as ++ bs, hpa.append hpb, path_append_nodup hna hnb fun p hp hp' => (ha p hp).2.2 (hb p hp').1, fun p hp => ?_⟩
  rcases List.mem_append.mp hp with hp | hp
  · exact ⟨(ha p hp).1, (ha p hp).2.1⟩
  · refine ⟨minimum_subset p (hb p hp).1, ?_⟩
    rintro rfl
    -- the option itself is active, and so not asked for again
    have hst := (hb p hp).2.1
    have hoff : ∀ q ∈ as, p.index ≠ q.index := fun q hq he =>
      (ha q hq).2.1 (opt_eq_of_index q (ha q hq).1 p ho he.symm)
    rw [hpa.state_off hoff, announced_states, hact] at hst
    cases hst

theorem refusedOption_path (t : St) (o : Opt) (hact : t.activated = true) :
    ∃ os, Path os t (refusedOption t o) ∧ os.Nodup ∧ ∀ p ∈ os, p ∈ opts ∧ p ≠ o := by
  unfold refusedOption
  by_cases h : o.send = .WILL ∧ o.option = Telopt.NEW_ENVIRON ∧ t.optStates oOenv.index = .inactive
  · simp only [if_pos h]
    have hmove : Path [oOenv] t (setOptState (sendOpt t .WILL Telopt.OLD_ENVIRON) oOenv .requested) :=
      ⟨t, _, Same.refl t, Move.offered .requested h.2.2 (.inl rfl), Same.refl _⟩
    obtain ⟨bs, hpb, hnb, hb⟩ := optionSideEffects_path (setOptState (sendOpt t .WILL Telopt.OLD_ENVIRON) oOenv .requested) o false
    have hbs : bs = [] := List.eq_nil_iff_forall_not_mem.mpr fun p hp => by simpa [hact] using (hb p hp).2.2
    subst hbs
    refine ⟨[oOenv] ++ [], hmove.append hpb, by simp, fun p hp => ?_⟩
    rw [List.append_nil, List.mem_singleton] at hp
    subst hp
    exact ⟨by decide, fun he => absurd h.2.1 (by rw [← he]; decide)⟩
  · simp only [if_neg h]
    obtain ⟨bs, hpb, hnb, hb⟩ := optionSideEffects_path t o false
    have hbs : bs = [] := List.eq_nil_iff_forall_not_mem.mpr fun p hp => by simpa [hact] using (hb p hp).2.2
    subst hbs
    exact ⟨[], hpb, hnb, by simp⟩

/-- The request is refused: no option of ours, or one that we gave up. -/
def refusal : Cmd → Cmd
  | .WILL => .DONT
  | _ => .WONT

theorem refusal_about (p : Opt) (hp : p ∈ opts) (cmd : Cmd) (hc : cmd = .WILL ∨ cmd = .DO) :
    refusal cmd = p.send ∨ refusal cmd = p.nsend → refusal cmd = p.nsend ∧ p.ack = cmd := by
  revert p
  rcases hc with rfl | rfl <;> decide

/-- What a command does. -/
inductive Step (t : St) (cmd : Cmd) (option : UInt8) : St → Prop where
  | agreed (o : Opt) (ho : o ∈ opts) (hx : o.option = option) (hc : o.ack = cmd) (hst : t.optStates o.index = .requested)
      (os : List Opt) (t' : St) (hnd : os.Nodup) (hos : ∀ p ∈ os, p ∈ opts ∧ p ≠ o)
      (hp : Path os (announced (setOptState t o .active) o) t') : Step t cmd option t'
  | accepted (o : Opt) (ho : o ∈ opts) (hx : o.option = option) (hc : o.ack = cmd) (hst : t.optStates o.index = .inactive)
      (os : List Opt) (t' : St) (hnd : os.Nodup) (hos : ∀ p ∈ os, p ∈ opts ∧ p ≠ o)
      (hp : Path os (announced (sendOpt (setOptState t o .active) o.send option) o) t') : Step t cmd option t'
  | refused (o : Opt) (ho : o ∈ opts) (hx : o.option = option) (hc : o.nak = cmd) (hst : t.optStates o.index = .requested)
      (os : List Opt) (t' : St) (hnd : os.Nodup) (hos : ∀ p ∈ os, p ∈ opts ∧ p ≠ o)
      (hp : Path os (setOptState t o .inactive) t') : Step t cmd option t'
  | stopped (o : Opt) (ho : o ∈ opts) (hx : o.option = option) (hc : o.nak = cmd) (hst : t.optStates o.index = .active)
      (t' : St) (hp : Path [o] t t') : Step t cmd option t'
  | known (o : Opt) (ho : o ∈ opts) (hx : o.option = option)
      (hst : (o.ack = cmd ∧ t.optStates o.index = .active) ∨
        (o.nak = cmd ∧ (t.optStates o.index = .inactive ∨ t.optStates o.index = .reallyInactive))) : Step t cmd option t
  | refusal (hc : cmd = .WILL ∨ cmd = .DO)
      (hno : ∀ o ∈ opts, o.option = option → o.ack = cmd → t.optStates o.index = .reallyInactive) :
      Step t cmd option (sendOpt t (refusal cmd) option)
  | ignored (hno : ∀ o ∈ opts, o.option = option → o.ack ≠ cmd ∧ o.nak ≠ cmd) : Step t cmd option t

/-- Either an option answers to the command, the first in the table, or none does. -/
theorem procRecOpt_cases (t : St) (cmd : Cmd) (option : UInt8) :
    (∃ o ∈ opts, o.option = option ∧ o.ack = cmd ∧ procRecOpt t cmd option = acked t o option) ∨
      (∃ o ∈ opts, o.option = option ∧ o.nak = cmd ∧ procRecOpt t cmd option = naked t o option) ∨
      ((∀ o ∈ opts, o.option = option → o.ack ≠ cmd ∧ o.nak ≠ cmd) ∧ procRecOpt t cmd option = unknownOption t cmd option) := by
  unfold procRecOpt
  induction opts with
  | nil => exact .inr (.inr ⟨by simp, rfl⟩)
  | cons o os ih =>
    by_cases ha : o.option = option ∧ o.ack = cmd
    · exact .inl ⟨o, List.mem_cons_self, ha.1, ha.2, by rw [procRecOptFrom, if_pos ha]⟩
    · by_cases hn : o.option = option ∧ o.nak = cmd
      · exact .inr (.inl ⟨o, List.mem_cons_self, hn.1, hn.2, by rw [procRecOptFrom, if_neg ha, if_pos hn]⟩)
      · rw [procRecOptFrom, if_neg ha, if_neg hn]
        rcases ih with ⟨p, hp, h⟩ | ⟨p, hp, h⟩ | ⟨hall, h⟩
        · exact .inl ⟨p, List.mem_cons_of_mem _ hp, h⟩
        · exact .inr (.inl ⟨p, List.mem_cons_of_mem _ hp, h⟩)
        · refine .inr (.inr ⟨fun p hp hx => ?_, h⟩)
          rcases List.mem_cons.mp hp with rfl | hp
          · exact ⟨fun hc => ha ⟨hx, hc⟩, fun hc => hn ⟨hx, hc⟩⟩
          · exact hall p hp hx

theorem acked_step {t : St} {o : Opt} (ho : o ∈ opts) : Step t o.ack o.option (acked t o o.option) := by
  unfold acked
  split
  · next h =>
    obtain ⟨os, hp, hnd, hos⟩ := activateOption_path (setOptState t o .active) ho (optStates_setOptState_same t o .active)
    exact .agreed o ho rfl rfl h os _ hnd hos hp
  · next h => exact .known o ho rfl (.inl ⟨rfl, h⟩)
  · next h =>
    obtain ⟨os, hp, hnd, hos⟩ := activateOption_path (sendOpt (setOptState t o .active) o.send o.option) ho
      (optStates_setOptState_same t o .active)
    exact .accepted o ho rfl rfl h os _ hnd hos hp
  · next h =>
    have hns : o.nsend = refusal o.ack ∧ (o.ack = .WILL ∨ o.ack = .DO) := by
      rcases refusal_of_ack o ho with ⟨ha, hn⟩ | ⟨ha, hn⟩ <;> simp [ha, hn, refusal]
    rw [hns.1]
    refine .refusal hns.2 fun p hp hx hc => ?_
    rw [opt_eq_of_heard p hp o ho hx (.inl hc)]
    exact h

theorem naked_step {t : St} {o : Opt} (ho : o ∈ opts) (hd : Dormant t) : Step t o.nak o.option (naked t o o.option) := by
  have hact : t.optStates o.index ≠ .inactive → t.activated = true := fun h => by
    by_contra ha
    exact h (hd (by simpa using ha) _)
  unfold naked
  split
  · next h =>
    obtain ⟨os, hp, hnd, hos⟩ := refusedOption_path (setOptState t o .inactive) o (hact (by simp [h]))
    exact .refused o ho rfl rfl h os _ hnd hos hp
  · next h =>
    refine .stopped o ho rfl rfl h _ ⟨t, _, Same.refl t, Move.stopped .inactive (.inr h) (.inl rfl), ?_⟩
    rw [optionSideEffects_eq, if_pos]
    · exact flagged_same _ o false
    · exact hact (by simp [h])
  · next h => exact .known o ho rfl (.inr ⟨rfl, .inl h⟩)
  · next h => exact .known o ho rfl (.inr ⟨rfl, .inr h⟩)

theorem procRecOpt_step {t : St} (hd : Dormant t) (cmd : Cmd) (option : UInt8) : Step t cmd option (procRecOpt t cmd option) := by
  rcases procRecOpt_cases t cmd option with ⟨o, ho, rfl, rfl, h⟩ | ⟨o, ho, rfl, rfl, h⟩ | ⟨hno, h⟩
  · rw [h]; exact acked_step ho
  · rw [h]; exact naked_step ho hd
  · rw [h]
    unfold unknownOption
    split
    · next hc =>
      have heq : (if cmd = .WILL then Cmd.DONT else .WONT) = refusal cmd := by rcases hc with rfl | rfl <;> rfl
      rw [heq]
      exact .refusal hc fun o ho hx ha => absurd ha (hno o ho hx).1
    · exact .ignored hno

/-! ## What is answered -/

/-- What a command is answered with. -/
def replies (t : St) (cmd : Cmd) (option : UInt8) : List Token := (tokens (procRecOpt t cmd option)).drop (tokens t).length

theorem replies_eq {t t' : St} {cmd : Cmd} {option : UInt8} (h : procRecOpt t cmd option = t') {ms : List Token}
    (hms : tokens t' = tokens t ++ ms) : replies t cmd option = ms := by
  rw [replies, h, hms, List.drop_left]

/-- The command agrees with how the option stands, or settles a request of ours. -/
def Acknowledges (cmd : Cmd) (o : Opt) (st : OptState) : Prop :=
  (o.ack = cmd ∧ (st = .requested ∨ st = .active)) ∨ (o.nak = cmd ∧ st ≠ .active)

/-- One option answers to a command. -/
theorem Acknowledges.eq_of_heard {cmd : Cmd} {q o : Opt} {st : OptState} (h : Acknowledges cmd q st) (hq : q ∈ opts)
    (ho : o ∈ opts) (hx : q.option = o.option) (hc : o.ack = cmd ∨ o.nak = cmd) : q = o := by
  apply opt_eq_of_heard q hq o ho hx
  rcases h with ⟨h, -⟩ | ⟨h, -⟩ <;> rcases hc with hc | hc <;> simp [h, hc]

/-- A reply goes with a change of an option's state, or refuses a request. -/
structure AnswersChanges (t : St) (cmd : Cmd) (option : UInt8) : Prop where
  changed : ∀ m ∈ replies t cmd option,
    (∃ o ∈ opts, About o m ∧ (procRecOpt t cmd option).optStates o.index ≠ t.optStates o.index) ∨
    (m = .subneg Telopt.NAWS (sizeBytes t.termWidth t.termHeight) ∧ t.optStates .naws ≠ .active ∧
      (procRecOpt t cmd option).optStates .naws = .active) ∨
    (m = .opt (refusal cmd) option ∧ (cmd = .WILL ∨ cmd = .DO) ∧
      ∀ o ∈ opts, o.option = option → o.ack = cmd → t.optStates o.index = .reallyInactive)
  settled : ∀ o ∈ opts, o.option = option → Acknowledges cmd o (t.optStates o.index) →
    ∀ m ∈ replies t cmd option, ¬ About o m

theorem announced_tokens (t : St) {o : Opt} (ho : o ∈ opts) : ∃ ms, tokens (announced t o) = tokens t ++ ms ∧
    ∀ m ∈ ms, o = oNaws ∧ m = .subneg Telopt.NAWS (sizeBytes t.termWidth t.termHeight) := by
  unfold announced
  by_cases h : o.send = .WILL ∧ o.option = Telopt.NAWS
  · have hn : o = oNaws := by
      revert h
      revert o
      decide
    rw [if_pos h]
    simp only [telnetSize]
    split
    · exact ⟨[], (List.append_nil _).symm, by simp⟩
    · exact ⟨[.subneg Telopt.NAWS (sizeBytes t.termWidth t.termHeight)], by simp [tokens, skWrite], by simp [hn]⟩
  · rw [if_neg h]
    exact ⟨[], by simp, by simp⟩

theorem not_about_subneg {o : Opt} {x : UInt8} {p : List UInt8} : ¬ About o (.subneg x p) := by simp [About]

/-- A path that leaves the option alone says nothing about it. -/
theorem not_about_of_path {os : List Opt} {o : Opt} (ho : o ∈ opts) (hos : ∀ p ∈ os, p ∈ opts ∧ p ≠ o) {m : Token} {p : Opt}
    (hp : p ∈ os) (hm : About p m) : ¬ About o m := fun h =>
  (hos p hp).2 (about_unique (hos p hp).1 ho hm h)

theorem state_off_path {os : List Opt} {o : Opt} (ho : o ∈ opts) (hos : ∀ p ∈ os, p ∈ opts ∧ p ≠ o) {t t' : St}
    (h : Path os t t') : t'.optStates o.index = t.optStates o.index :=
  h.state_off fun p hp he => (hos p hp).2 (opt_eq_of_index p (hos p hp).1 o ho he.symm)

/-- The option becomes active, and others move. -/
theorem activated_tokens (t t1 : St) {t' : St} {o : Opt} (ho : o ∈ opts) {os : List Opt} (hnd : os.Nodup)
    (hos : ∀ p ∈ os, p ∈ opts ∧ p ≠ o) (h1 : t1.optStates = (setOptState t o .active).optStates) (hst : t.optStates o.index ≠ .active)
    (hw : t1.termWidth = t.termWidth ∧ t1.termHeight = t.termHeight) (hp : Path os (announced t1 o) t') :
    ∃ ms, tokens t' = tokens t1 ++ ms ∧ (∀ m ∈ ms, ¬ About o m) ∧ ∀ m ∈ ms,
      (∃ p ∈ opts, About p m ∧ t'.optStates p.index ≠ t.optStates p.index) ∨
      (m = .subneg Telopt.NAWS (sizeBytes t.termWidth t.termHeight) ∧ t.optStates .naws ≠ .active ∧ t'.optStates .naws = .active) := by
  obtain ⟨ms, hms, hab⟩ := announced_tokens t1 ho
  obtain ⟨ms', hms', hab'⟩ := hp.said (fun p hp => (hos p hp).1) hnd
  refine ⟨ms ++ ms', by rw [hms', hms, List.append_assoc], fun m hm => ?_, fun m hm => ?_⟩
  · rcases List.mem_append.mp hm with hm | hm
    · rw [(hab m hm).2]; exact not_about_subneg
    · obtain ⟨p, hp1, hp2, -⟩ := hab' m hm
      exact not_about_of_path ho hos hp1 hp2
  · rcases List.mem_append.mp hm with hm | hm
    · obtain ⟨rfl, rfl⟩ := hab m hm
      refine .inr ⟨by rw [hw.1, hw.2], hst, ?_⟩
      have h2 := state_off_path ho hos hp
      rw [announced_states, h1] at h2
      exact h2.trans (optStates_setOptState_same t oNaws .active)
    · obtain ⟨p, hp1, hp2, hp3⟩ := hab' m hm
      refine .inl ⟨p, (hos p hp1).1, hp2, ?_⟩
      rwa [announced_states, h1,
        optStates_setOptState_ne fun he => (hos p hp1).2 (opt_eq_of_index p (hos p hp1).1 o ho he)] at hp3

theorem answers_changes {t : St} (hd : Dormant t) (cmd : Cmd) (option : UInt8) : AnswersChanges t cmd option := by
  have hstep := procRecOpt_step hd cmd option
  generalize hr : procRecOpt t cmd option = t' at hstep
  cases hstep with
  | agreed o ho hx hc hst os _ hnd hos hp =>
    obtain ⟨ms, hms, hno, hch⟩ := activated_tokens t (setOptState t o .active) ho hnd hos rfl (by simp [hst])
      ⟨rfl, rfl⟩ hp
    constructor
    · intro m hm
      rw [replies_eq hr hms] at hm
      rw [hr]
      rcases hch m hm with h | h
      · exact .inl h
      · exact .inr (.inl h)
    · intro q hq hqx hack m hm
      rw [replies_eq hr hms] at hm
      have hqo : q = o := hack.eq_of_heard hq ho (hqx.trans hx.symm) (.inl hc)
      rw [hqo]
      exact hno m hm
  | accepted o ho hx hc hst os _ hnd hos hp =>
    obtain ⟨ms, hms, hno, hch⟩ := activated_tokens t (sendOpt (setOptState t o .active) o.send option) ho hnd hos rfl
      (by simp [hst]) ⟨rfl, rfl⟩ hp
    rw [tokens_sendOpt, tokens_setOptState, List.append_assoc] at hms
    constructor
    · intro m hm
      rw [replies_eq hr hms] at hm
      rw [hr]
      rcases List.mem_append.mp hm with hm | hm
      · rw [List.mem_singleton] at hm
        refine .inl ⟨o, ho, .inl (by rw [hm, hx]), ?_⟩
        rw [state_off_path ho hos hp, announced_states, optStates_sendOpt, optStates_setOptState_same, hst]
        simp
      · rcases hch m hm with h | h
        · exact .inl h
        · exact .inr (.inl h)
    · intro q hq hqx hack m hm
      exfalso
      have hqo : q = o := hack.eq_of_heard hq ho (hqx.trans hx.symm) (.inl hc)
      subst hqo
      rcases hack with ⟨-, h⟩ | ⟨h, -⟩
      · simp [hst] at h
      · exact ack_ne_nak q hq (hc.trans h.symm)
  | refused o ho hx hc hst os _ hnd hos hp =>
    obtain ⟨ms, hms, hab⟩ := hp.said (fun p hp => (hos p hp).1) hnd
    rw [tokens_setOptState] at hms
    constructor
    · intro m hm
      rw [replies_eq hr hms] at hm
      obtain ⟨p, hp1, hp2, hp3⟩ := hab m hm
      refine .inl ⟨p, (hos p hp1).1, hp2, ?_⟩
      rw [optStates_setOptState_ne fun he => (hos p hp1).2 (opt_eq_of_index p (hos p hp1).1 o ho he)] at hp3
      rwa [hr]
    · intro q hq hqx hack m hm
      rw [replies_eq hr hms] at hm
      have hqo : q = o := hack.eq_of_heard hq ho (hqx.trans hx.symm) (.inr hc)
      rw [hqo]
      obtain ⟨p, hp1, hp2, -⟩ := hab m hm
      exact not_about_of_path ho hos hp1 hp2
  | stopped o ho hx hc hst _ hp =>
    obtain ⟨ms, hms, hab⟩ := hp.said (by simpa using ho) (List.nodup_singleton o)
    constructor
    · intro m hm
      rw [replies_eq hr hms] at hm
      obtain ⟨p, hp1, hp2, hp3⟩ := hab m hm
      rw [List.mem_singleton] at hp1
      exact .inl ⟨p, hp1 ▸ ho, hp2, by rwa [hr]⟩
    · intro q hq hqx hack m hm
      exfalso
      have hqo : q = o := hack.eq_of_heard hq ho (hqx.trans hx.symm) (.inr hc)
      subst hqo
      rcases hack with ⟨h, -⟩ | ⟨-, h⟩
      · exact ack_ne_nak q hq (h.trans hc.symm)
      · exact h hst
  | known o ho hx hst =>
    have hnil : replies t cmd option = [] := replies_eq hr (by simp)
    exact ⟨by simp [hnil], by simp [hnil]⟩
  | refusal hc hno =>
    have hone : replies t cmd option = [.opt (refusal cmd) option] := replies_eq hr (tokens_sendOpt _ _ _)
    constructor
    · intro m hm
      rw [hone, List.mem_singleton] at hm
      exact .inr (.inr ⟨hm, hc, hno⟩)
    · intro q hq hqx hack m hm
      rw [hone, List.mem_singleton] at hm
      subst hm
      rcases hack with ⟨h, hst⟩ | ⟨h, hst⟩
      · simp [hno q hq hqx h] at hst
      · -- a refusal names the other direction
        intro _
        rcases nak_negative q hq with hn | hn <;> rcases hc with hc | hc <;> simp [hn, hc] at h
  | ignored hno =>
    have hnil : replies t cmd option = [] := replies_eq hr (by simp)
    exact ⟨by simp [hnil], by simp [hnil]⟩

/-! ## The last word on an option -/

/-- What passes over the connection. -/
inductive Event where
  | heard (cmd : Cmd) (option : UInt8)
  | said (m : Token)
  deriving DecidableEq, Repr

/-- The last message sent about an option, and whether the server has refused it since. -/
structure Word where
  last : Option Cmd
  refused : Bool
  deriving DecidableEq, Repr

def word (o : Opt) (w : Word) : Event → Word
  | .said m =>
    if m = .opt o.send o.option then ⟨some o.send, false⟩
    else if m = .opt o.nsend o.option then ⟨some o.nsend, false⟩
    else w
  | .heard cmd option => if o.option = option ∧ o.nak = cmd then { w with refused := true } else w

def lastWord (o : Opt) (es : List Event) : Word := es.foldl (word o) ⟨none, false⟩

/-- The events of a run. -/
def history (t : St) : List (Cmd × UInt8) → List Event
  | [] => []
  | c :: cs => .heard c.1 c.2 :: (replies t c.1 c.2).map .said ++ history (procRecOpt t c.1 c.2) cs

/-- An option that is requested or active was last asked for; one that is not was never
    spoken of, or was stopped, or refused. -/
def Agrees (o : Opt) (st : OptState) (w : Word) : Prop :=
  if st = .requested ∨ st = .active then w.last = some o.send
  else w.last = none ∨ w.last = some o.nsend ∨ w.refused = true

theorem agrees_off {o : Opt} {st : OptState} {w : Word} (hst : st = .inactive ∨ st = .reallyInactive) :
    Agrees o st w ↔ (w.last = none ∨ w.last = some o.nsend ∨ w.refused = true) := by
  unfold Agrees
  rw [if_neg (by rcases hst with rfl | rfl <;> simp)]

theorem agrees_on {o : Opt} {st : OptState} {w : Word} (hst : st = .requested ∨ st = .active) :
    Agrees o st w ↔ w.last = some o.send := by
  unfold Agrees
  rw [if_pos hst]

/-- Hearing a command never makes them disagree. -/
theorem Agrees.heard {o : Opt} {st : OptState} {w : Word} (h : Agrees o st w) (cmd : Cmd) (option : UInt8) :
    Agrees o st (word o w (.heard cmd option)) := by
  unfold Agrees at h ⊢
  by_cases hc : o.option = option ∧ o.nak = cmd
  · rw [word, if_pos hc]
    split at h
    · next hst => rw [if_pos hst]; exact h
    · next hst => rw [if_neg hst]; exact .inr (.inr rfl)
  · rwa [word, if_neg hc]

/-- What is not about the option is no word on it. -/
theorem word_off {o : Opt} {w : Word} {m : Token} (h : ¬ About o m) : word o w (.said m) = w := by
  obtain ⟨h1, h2⟩ := not_or.mp h
  rw [word, if_neg h1, if_neg h2]

theorem words_off {o : Opt} {w : Word} {ms : List Token} (h : ∀ m ∈ ms, ¬ About o m) : (ms.map Event.said).foldl (word o) w = w := by
  induction ms generalizing w with
  | nil => rfl
  | cons m ms ih =>
    rw [List.map_cons, List.foldl_cons, word_off (h m List.mem_cons_self)]
    exact ih fun m hm => h m (List.mem_cons_of_mem _ hm)

theorem word_send (o : Opt) (w : Word) : word o w (.said (.opt o.send o.option)) = ⟨some o.send, false⟩ := by simp [word]

theorem word_nsend {o : Opt} (ho : o ∈ opts) (w : Word) : word o w (.said (.opt o.nsend o.option)) = ⟨some o.nsend, false⟩ := by
  have h := send_ne_nsend o ho
  simp [word, h.symm]

/-- A move keeps its option's state and the last word on it in agreement. -/
theorem Move.agrees {o : Opt} (ho : o ∈ opts) {t t' : St} (h : Move o t t') {w : Word} (ha : Agrees o (t.optStates o.index) w)
    {ms : List Token} (hms : tokens t' = tokens t ++ ms) : Agrees o (t'.optStates o.index) ((ms.map Event.said).foldl (word o) w) := by
  cases h with
  | offered st hs hst =>
    rw [tokens_sendOpt, tokens_setOptState, List.append_cancel_left_eq] at hms
    subst hms
    rw [List.map_singleton, List.foldl_cons, List.foldl_nil, word_send, optStates_sendOpt, optStates_setOptState_same]
    exact (agrees_on hst).mpr rfl
  | stopped st hs hst =>
    rw [tokens_sendOpt, tokens_setOptState, List.append_cancel_left_eq] at hms
    subst hms
    rw [List.map_singleton, List.foldl_cons, List.foldl_nil, word_nsend ho, optStates_sendOpt, optStates_setOptState_same]
    exact (agrees_off hst).mpr (.inr (.inl rfl))
  | dropped hs =>
    rw [tokens_setOptState, List.self_eq_append_right] at hms
    subst hms
    rw [optStates_setOptState_same]
    exact (agrees_off (.inr rfl)).mpr ((agrees_off hs).mp ha)

theorem Path.extends {os : List Opt} {t t' : St} (h : Path os t t') : ∃ ms, tokens t' = tokens t ++ ms := by
  induction os generalizing t with
  | nil => exact ⟨[], by rw [List.append_nil]; exact Same.said h⟩
  | cons o os ih =>
    obtain ⟨t1, t2, h1, hm, hpath⟩ := h
    obtain ⟨as, has, -⟩ := hm.said
    obtain ⟨bs, hbs⟩ := ih hpath
    exact ⟨as ++ bs, by rw [hbs, has, h1.said, List.append_assoc]⟩

/-- A path keeps every option's state and the last word on it in agreement. -/
theorem Path.agrees {os : List Opt} {t t' : St} (h : Path os t t') (hin : ∀ o ∈ os, o ∈ opts) {p : Opt} (hp : p ∈ opts) {w : Word}
    (ha : Agrees p (t.optStates p.index) w) {ms : List Token} (hms : tokens t' = tokens t ++ ms) :
    Agrees p (t'.optStates p.index) ((ms.map Event.said).foldl (word p) w) := by
  induction os generalizing t w ms with
  | nil =>
    rw [Same.said h, List.self_eq_append_right] at hms
    subst hms
    rwa [Same.states h]
  | cons o os ih =>
    obtain ⟨t1, t2, h1, hm, hpath⟩ := h
    have ho := hin o List.mem_cons_self
    obtain ⟨as, has, hab⟩ := hm.said
    obtain ⟨bs, hbs⟩ := hpath.extends
    have hcat : ms = as ++ bs := by
      rw [hbs, has, h1.said, List.append_assoc, List.append_cancel_left_eq] at hms
      exact hms.symm
    rw [hcat, List.map_append, List.foldl_append]
    refine ih hpath (fun q hq => hin q (List.mem_cons_of_mem _ hq)) ?_ hbs
    rw [← h1.states] at ha
    by_cases hpo : p = o
    · subst hpo
      exact hm.agrees ho ha has
    · rw [words_off fun m hm h => hpo (about_unique hp ho h (hab m hm)),
        hm.state_ne fun he => hpo (opt_eq_of_index p hp o ho he)]
      exact ha

/-- The same, when the window size is told first. -/
theorem Path.agrees_announced {os : List Opt} {o : Opt} (ho : o ∈ opts) {t t' : St} (h : Path os (announced t o) t')
    (hin : ∀ o ∈ os, o ∈ opts) {p : Opt} (hp : p ∈ opts) {w : Word} (ha : Agrees p (t.optStates p.index) w) {ms : List Token}
    (hms : tokens t' = tokens t ++ ms) : Agrees p (t'.optStates p.index) ((ms.map Event.said).foldl (word p) w) := by
  obtain ⟨as, has, hab⟩ := announced_tokens t ho
  obtain ⟨bs, hbs⟩ := h.extends
  have hcat : ms = as ++ bs := by
    rw [hbs, has, List.append_assoc, List.append_cancel_left_eq] at hms
    exact hms.symm
  have hoff : (as.map Event.said).foldl (word p) w = w := words_off fun m hm h => not_about_subneg ((hab m hm).2 ▸ h)
  rw [hcat, List.map_append, List.foldl_append, hoff]
  rw [← announced_states t o] at ha
  exact h.agrees hin hp ha hbs

theorem replies_tokens {t t' : St} {cmd : Cmd} {option : UInt8} (h : procRecOpt t cmd option = t')
    (hext : ∃ ms, tokens t' = tokens t ++ ms) : tokens t' = tokens t ++ replies t cmd option := by
  obtain ⟨ms, hms⟩ := hext
  rw [replies_eq h hms, hms]

/-- A command keeps every option's state and the last word on it in agreement. -/
theorem procRecOpt_agrees {t : St} (hd : Dormant t) (cmd : Cmd) (option : UInt8) {p : Opt} (hp : p ∈ opts) {w : Word}
    (ha : Agrees p (t.optStates p.index) w) :
    Agrees p ((procRecOpt t cmd option).optStates p.index)
      (((replies t cmd option).map Event.said).foldl (word p) (word p w (.heard cmd option))) := by
  have hstep := procRecOpt_step hd cmd option
  generalize hr : procRecOpt t cmd option = t' at hstep
  have hw := ha.heard cmd option
  cases hstep with
  | agreed o ho hx hc hst os _ hnd hos hpath =>
    obtain ⟨as, has, -⟩ := announced_tokens (setOptState t o .active) ho
    obtain ⟨bs, hbs⟩ := hpath.extends
    have htok := replies_tokens hr ⟨as ++ bs, by rw [hbs, has, tokens_setOptState, List.append_assoc]⟩
    refine hpath.agrees_announced ho (fun q hq => (hos q hq).1) hp ?_ htok
    by_cases hpo : p = o
    · subst hpo
      rw [optStates_setOptState_same]
      exact (agrees_on (.inr rfl)).mpr ((agrees_on (.inl hst)).mp hw)
    · rwa [optStates_setOptState_ne fun he => hpo (opt_eq_of_index p hp o ho he)]
  | accepted o ho hx hc hst os _ hnd hos hpath =>
    subst hx
    obtain ⟨as, has, -⟩ := announced_tokens (sendOpt (setOptState t o .active) o.send o.option) ho
    obtain ⟨bs, hbs⟩ := hpath.extends
    have htok : tokens t' = tokens (sendOpt (setOptState t o .active) o.send o.option) ++ (as ++ bs) := by
      rw [hbs, has, List.append_assoc]
    have hcat : replies t cmd o.option = [.opt o.send o.option] ++ (as ++ bs) := replies_eq hr (by
      rw [htok, tokens_sendOpt, tokens_setOptState, List.append_assoc])
    rw [hcat, List.map_append, List.foldl_append]
    have hmove : Move o t (sendOpt (setOptState t o .active) o.send o.option) := .offered .active hst (.inr rfl)
    have hfirst : Path [o] t (sendOpt (setOptState t o .active) o.send o.option) := ⟨t, _, Same.refl t, hmove, Same.refl _⟩
    refine hpath.agrees_announced ho (fun q hq => (hos q hq).1) hp ?_ htok
    exact hfirst.agrees (by simpa using ho) hp hw (by simp)
  | refused o ho hx hc hst os _ hnd hos hpath =>
    obtain ⟨bs, hbs⟩ := hpath.extends
    have htok := replies_tokens hr ⟨bs, by rw [hbs, tokens_setOptState]⟩
    refine hpath.agrees (fun q hq => (hos q hq).1) hp ?_ htok
    by_cases hpo : p = o
    · subst hpo
      rw [optStates_setOptState_same, agrees_off (.inl rfl), word, if_pos ⟨hx, hc⟩]
      exact .inr (.inr rfl)
    · rwa [optStates_setOptState_ne fun he => hpo (opt_eq_of_index p hp o ho he)]
  | stopped o ho hx hc hst _ hpath =>
    exact hpath.agrees (by simpa using ho) hp hw (replies_tokens hr hpath.extends)
  | known o ho hx hst =>
    rw [replies_eq hr (List.append_nil _).symm]
    exact hw
  | refusal hc hno =>
    rw [replies_eq hr (tokens_sendOpt _ _ _), List.map_singleton, List.foldl_cons, List.foldl_nil, optStates_sendOpt]
    by_cases hab : About p (.opt (refusal cmd) option)
    · -- refused because it was given up
      have hcx : (refusal cmd = p.send ∨ refusal cmd = p.nsend) ∧ p.option = option := by
        rcases hab with h | h <;> injection h with h1 h2 <;> simp [h1, h2]
      obtain ⟨hns, hack⟩ := refusal_about p hp cmd hc hcx.1
      rw [hns, ← hcx.2, word_nsend hp, agrees_off (.inr (hno p hp hcx.2 hack))]
      exact .inr (.inl rfl)
    · rwa [word_off hab]
  | ignored hno =>
    rw [replies_eq hr (List.append_nil _).symm]
    exact hw

/-! ## Runs -/

def negotiate (t : St) (cmds : List (Cmd × UInt8)) : St := cmds.foldl (fun t c => procRecOpt t c.1 c.2) t

theorem negotiate_snoc (t : St) (cmds : List (Cmd × UInt8)) (c : Cmd × UInt8) :
    negotiate t (cmds ++ [c]) = procRecOpt (negotiate t cmds) c.1 c.2 := by simp [negotiate]

theorem history_snoc (t : St) (cmds : List (Cmd × UInt8)) (c : Cmd × UInt8) :
    history t (cmds ++ [c]) =
      history t cmds ++ .heard c.1 c.2 :: (replies (negotiate t cmds) c.1 c.2).map .said := by
  induction cmds generalizing t with
  | nil => simp [history, negotiate]
  | cons d cmds ih =>
    rw [List.cons_append, history, history, ih]
    simp [negotiate]

/-- Only one kind of ENVIRON is going: the other was given up for good. -/
def OneEnviron (t : St) : Prop :=
  (t.optStates .oenv = .active → t.optStates .nenv = .reallyInactive) ∧
    (t.optStates .nenv = .active → t.optStates .oenv = .reallyInactive)

/-- What the flags of the local terminal say of the server's ECHO and SGA. -/
structure FlagsFollow (t : St) : Prop where
  echoing : t.echoing = true ↔ t.optStates .echo ≠ .active
  editing : t.editing = true ↔ t.optStates .theySga ≠ .active

/-- The same options are active, and the same given up. -/
def Kept (t t' : St) : Prop :=
  ∀ i, (t'.optStates i = .active ↔ t.optStates i = .active) ∧ (t'.optStates i = .reallyInactive ↔ t.optStates i = .reallyInactive)

theorem Kept.trans {t t1 t' : St} (h : Kept t t1) (h' : Kept t1 t') : Kept t t' := fun i =>
  ⟨(h' i).1.trans (h i).1, (h' i).2.trans (h i).2⟩

theorem kept_of_states {t t' : St} (h : t'.optStates = t.optStates) : Kept t t' := fun i => by rw [h]; exact ⟨.rfl, .rfl⟩

theorem kept_setOptState {t : St} {o : Opt} {st : OptState} (h : t.optStates o.index = .inactive ∨ t.optStates o.index = .requested)
    (hst : st = .inactive ∨ st = .requested) : Kept t (setOptState t o st) := fun i => by
  by_cases hi : i = o.index
  · subst hi
    rw [optStates_setOptState_same]
    rcases h with h | h <;> rcases hst with rfl | rfl <;> simp [h]
  · rw [optStates_setOptState_ne hi]
    exact ⟨.rfl, .rfl⟩

theorem request_kept (t : St) (o : Opt) : Kept t (request t o) := by
  unfold request
  split
  · next h => exact kept_setOptState (.inl h) (.inr rfl)
  · exact kept_of_states rfl

theorem requests_kept (t : St) (os : List Opt) : Kept t (os.foldl request t) := by
  induction os generalizing t with
  | nil => exact kept_of_states rfl
  | cons o os ih => exact (request_kept t o).trans (ih _)

theorem optionSideEffects_kept (t : St) (o : Opt) (enabled : Bool) : Kept t (optionSideEffects t o enabled) := by
  rw [optionSideEffects_eq]
  have hflag := kept_of_states (flagged_same t o enabled).states
  split
  · exact hflag
  · exact (hflag.trans (requests_kept _ minimum)).trans (kept_of_states rfl)

theorem Kept.oneEnviron {t t' : St} (h : Kept t t') (ho : OneEnviron t) : OneEnviron t' :=
  ⟨fun ha => (h _).2.mpr (ho.1 ((h _).1.mp ha)), fun ha => (h _).2.mpr (ho.2 ((h _).1.mp ha))⟩

@[simp] theorem deactivateOption_state_same (t : St) (o : Opt) : (deactivateOption t o).optStates o.index = .reallyInactive :=
  optStates_setOptState_same _ o .reallyInactive

theorem deactivateOption_state_ne {t : St} {o : Opt} {i : OptIndex} (hi : i ≠ o.index) :
    (deactivateOption t o).optStates i = t.optStates i := by
  unfold deactivateOption
  rw [optStates_setOptState_ne hi]
  split <;> rfl

/-- An option that is not an ENVIRON. -/
theorem index_ne_environ : ∀ o ∈ opts, o = oOenv ∨ o = oNenv ∨ (OptIndex.oenv ≠ o.index ∧ OptIndex.nenv ≠ o.index ∧
    ¬ (o.send = .WILL ∧ (o.option = Telopt.NEW_ENVIRON ∨ o.option = Telopt.OLD_ENVIRON))) := by decide

theorem activateOption_oneEnviron {t : St} {o : Opt} (ho : o ∈ opts) (h : OneEnviron t) {t1 : St}
    (h1 : t1.optStates = (setOptState t o .active).optStates) : OneEnviron (activateOption t1 o) := by
  rw [activateOption_eq]
  refine (optionSideEffects_kept _ o true).oneEnviron ?_
  rcases index_ne_environ o ho with rfl | rfl | ⟨hoe, hne, hnot⟩
  · -- OLD_ENVIRON is active, and NEW_ENVIRON given up
    have hn : (oneEnviron (announced t1 oOenv) oOenv).optStates .nenv = .reallyInactive := deactivateOption_state_same _ oNenv
    exact ⟨fun _ => hn, fun ha => absurd (hn.symm.trans ha) (by simp)⟩
  · have hn : (oneEnviron (announced t1 oNenv) oNenv).optStates .oenv = .reallyInactive := deactivateOption_state_same _ oOenv
    exact ⟨fun ha => absurd (hn.symm.trans ha) (by simp), fun _ => hn⟩
  · rw [oneEnviron, if_neg hnot]
    unfold OneEnviron
    rw [announced_states, h1, optStates_setOptState_ne hoe, optStates_setOptState_ne hne]
    exact h

theorem refusedOption_oneEnviron {t : St} (o : Opt) (h : OneEnviron t) : OneEnviron (refusedOption t o) := by
  unfold refusedOption
  refine (optionSideEffects_kept _ o false).oneEnviron ?_
  split
  · next hc => exact Kept.oneEnviron (kept_setOptState (.inl hc.2.2) (.inr rfl)) h
  · exact h

theorem setInactive_oneEnviron {t : St} {o : Opt} (ho : o ∈ opts) (hst : t.optStates o.index ≠ .reallyInactive) (h : OneEnviron t) :
    OneEnviron (setOptState t o .inactive) := by
  rcases index_ne_environ o ho with rfl | rfl | ⟨hoe, hne, -⟩
  · have hsame : (setOptState t oOenv .inactive).optStates .oenv = .inactive := optStates_setOptState_same t oOenv .inactive
    have hoff : (setOptState t oOenv .inactive).optStates .nenv = t.optStates .nenv := optStates_setOptState_ne (by decide)
    exact ⟨fun ha => absurd (hsame.symm.trans ha) (by simp), fun ha => absurd (h.2 (hoff.symm.trans ha)) hst⟩
  · have hsame : (setOptState t oNenv .inactive).optStates .nenv = .inactive := optStates_setOptState_same t oNenv .inactive
    have hoff : (setOptState t oNenv .inactive).optStates .oenv = t.optStates .oenv := optStates_setOptState_ne (by decide)
    exact ⟨fun ha => absurd (h.1 (hoff.symm.trans ha)) hst, fun ha => absurd (hsame.symm.trans ha) (by simp)⟩
  · unfold OneEnviron
    rw [optStates_setOptState_ne hoe, optStates_setOptState_ne hne]
    exact h

theorem procRecOpt_oneEnviron {t : St} (h : OneEnviron t) (cmd : Cmd) (option : UInt8) : OneEnviron (procRecOpt t cmd option) := by
  rcases procRecOpt_cases t cmd option with ⟨o, ho, -, -, heq⟩ | ⟨o, ho, -, -, heq⟩ | ⟨-, heq⟩ <;> rw [heq]
  · unfold acked
    split
    · exact activateOption_oneEnviron ho h rfl
    · exact h
    · exact activateOption_oneEnviron ho h rfl
    · exact h
  · unfold naked
    split
    · next hst => exact refusedOption_oneEnviron o (setInactive_oneEnviron ho (by simp [hst]) h)
    · next hst => exact (optionSideEffects_kept _ o false).oneEnviron (setInactive_oneEnviron ho (by simp [hst]) h)
    · exact h
    · exact h
  · unfold unknownOption
    split <;> exact h

theorem procRecOpt_dormant {t : St} (h : Dormant t) (cmd : Cmd) (option : UInt8) : Dormant (procRecOpt t cmd option) := by
  have hside : ∀ t o b, Dormant (optionSideEffects t o b) := fun t o b ha =>
    absurd ha (by simp [optionSideEffects_activated])
  rcases procRecOpt_cases t cmd option with ⟨o, ho, -, -, heq⟩ | ⟨o, ho, -, -, heq⟩ | ⟨-, heq⟩ <;> rw [heq]
  · unfold acked
    split
    · exact hside _ _ _
    · exact h
    · exact hside _ _ _
    · exact h
  · unfold naked
    split
    · exact hside _ _ _
    · exact hside _ _ _
    · exact h
    · exact h
  · unfold unknownOption
    split <;> exact h

theorem request_flags (t : St) (o : Opt) : (request t o).echoing = t.echoing ∧ (request t o).editing = t.editing := by
  unfold request
  split <;> exact ⟨rfl, rfl⟩

theorem optionSideEffects_flags (t : St) (o : Opt) (enabled : Bool) :
    (optionSideEffects t o enabled).echoing = (flagged t o enabled).echoing ∧
      (optionSideEffects t o enabled).editing = (flagged t o enabled).editing := by
  rw [optionSideEffects_eq]
  split
  · exact ⟨rfl, rfl⟩
  · simp [minimum, request_flags]

/-- The options with a flag: ECHO and SGA of the server. -/
theorem index_flag : ∀ o ∈ opts, o = oEcho ∨ o = oTheySga ∨ (OptIndex.echo ≠ o.index ∧ OptIndex.theySga ≠ o.index ∧
    ¬ (o.option = Telopt.ECHO ∧ o.send = .DO) ∧ ¬ (o.option = Telopt.SGA ∧ o.send = .DO)) := by decide

/-- The side effects set the flag by the option's new state. -/
theorem optionSideEffects_follow {t : St} (t1 : St) {o : Opt} (ho : o ∈ opts) (h : FlagsFollow t)
    (hflags : t1.echoing = t.echoing ∧ t1.editing = t.editing)
    (hoff : ∀ i, i ≠ o.index → i = .echo ∨ i = .theySga → (t1.optStates i = .active ↔ t.optStates i = .active)) {enabled : Bool}
    (hst : enabled = true ↔ t1.optStates o.index = .active) : FlagsFollow (optionSideEffects t1 o enabled) := by
  have hk := optionSideEffects_kept t1 o enabled
  obtain ⟨he, hd⟩ := optionSideEffects_flags t1 o enabled
  have hown : (!enabled) = true ↔ t1.optStates o.index ≠ .active := by
    rw [Ne, ← hst]
    cases enabled <;> simp
  have hecho : .echo ≠ o.index → (t1.echoing = true ↔ t1.optStates .echo ≠ .active) := fun hi => by
    rw [hflags.1, h.echoing]
    exact not_congr (hoff .echo hi (.inl rfl)).symm
  have hsga : .theySga ≠ o.index → (t1.editing = true ↔ t1.optStates .theySga ≠ .active) := fun hi => by
    rw [hflags.2, h.editing]
    exact not_congr (hoff .theySga hi (.inr rfl)).symm
  rcases index_flag o ho with rfl | rfl | ⟨hie, his, hne, hns⟩
  · constructor
    · rw [he]
      exact hown.trans (not_congr (hk .echo).1.symm)
    · rw [hd]
      exact (hsga (by decide)).trans (not_congr (hk .theySga).1.symm)
  · constructor
    · rw [he]
      exact (hecho (by decide)).trans (not_congr (hk .echo).1.symm)
    · rw [hd]
      exact hown.trans (not_congr (hk .theySga).1.symm)
  · rw [show flagged t1 o enabled = t1 by rw [flagged, if_neg hne, if_neg hns]] at he hd
    constructor
    · rw [he]
      exact (hecho hie).trans (not_congr (hk .echo).1.symm)
    · rw [hd]
      exact (hsga his).trans (not_congr (hk .theySga).1.symm)

theorem telnetSize_flags (t : St) (w h : Int) : (telnetSize t w h).echoing = t.echoing ∧ (telnetSize t w h).editing = t.editing := by
  simp only [telnetSize]
  split <;> exact ⟨rfl, rfl⟩

theorem announced_flags (t : St) (o : Opt) : (announced t o).echoing = t.echoing ∧ (announced t o).editing = t.editing := by
  unfold announced
  split
  · exact telnetSize_flags t _ _
  · exact ⟨rfl, rfl⟩

theorem deactivateOption_flags (t : St) (o : Opt) :
    (deactivateOption t o).echoing = t.echoing ∧ (deactivateOption t o).editing = t.editing := by
  unfold deactivateOption
  dsimp only
  split <;> exact ⟨rfl, rfl⟩

theorem oneEnviron_flags (t : St) (o : Opt) : (oneEnviron t o).echoing = t.echoing ∧ (oneEnviron t o).editing = t.editing := by
  unfold oneEnviron
  split
  · exact deactivateOption_flags t _
  · exact ⟨rfl, rfl⟩

/-- The other kind of ENVIRON is another option, without a flag. -/
theorem environ_partner : ∀ o ∈ opts, o.send = .WILL ∧ (o.option = Telopt.NEW_ENVIRON ∨ o.option = Telopt.OLD_ENVIRON) →
    ∀ i, i = o.index ∨ i = .echo ∨ i = .theySga → i ≠ (if o.option = Telopt.NEW_ENVIRON then oOenv else oNenv).index := by
  intro o ho hc i hi
  have hown : o.index ≠ (if o.option = Telopt.NEW_ENVIRON then oOenv else oNenv).index ∧
      .echo ≠ (if o.option = Telopt.NEW_ENVIRON then oOenv else oNenv).index ∧
      .theySga ≠ (if o.option = Telopt.NEW_ENVIRON then oOenv else oNenv).index := by
    clear hi
    revert hc
    revert o
    decide
  rcases hi with rfl | rfl | rfl
  · exact hown.1
  · exact hown.2.1
  · exact hown.2.2

theorem oneEnviron_state {t : St} {o : Opt} {i : OptIndex} (ho : o ∈ opts) (hi : i = o.index ∨ i = .echo ∨ i = .theySga) :
    (oneEnviron t o).optStates i = t.optStates i := by
  unfold oneEnviron
  split
  · next h => exact deactivateOption_state_ne (environ_partner o ho h i hi)
  · rfl

theorem activateOption_follow {t : St} {o : Opt} (ho : o ∈ opts) (h : FlagsFollow t) {t1 : St}
    (h1 : t1.optStates = (setOptState t o .active).optStates) (hflags : t1.echoing = t.echoing ∧ t1.editing = t.editing) :
    FlagsFollow (activateOption t1 o) := by
  rw [activateOption_eq]
  refine optionSideEffects_follow _ ho h ?_ (fun i hi hf => ?_) ?_
  · rw [(oneEnviron_flags _ o).1, (oneEnviron_flags _ o).2, (announced_flags t1 o).1, (announced_flags t1 o).2]
    exact hflags
  · rw [oneEnviron_state ho (.inr hf), announced_states, h1, optStates_setOptState_ne hi]
  · rw [oneEnviron_state ho (.inl rfl), announced_states, h1, optStates_setOptState_same]
    simp

theorem setInactive_off {t : St} {o : Opt} {i : OptIndex} (hi : i ≠ o.index) :
    (setOptState t o .inactive).optStates i = .active ↔ t.optStates i = .active := by rw [optStates_setOptState_ne hi]

theorem refusedOption_follow {t : St} {o : Opt} (ho : o ∈ opts) (h : FlagsFollow t) :
    FlagsFollow (refusedOption (setOptState t o .inactive) o) := by
  unfold refusedOption
  have hown : (setOptState t o .inactive).optStates o.index ≠ .active := by rw [optStates_setOptState_same]; simp
  dsimp only
  split
  · next hc =>
    have hk := kept_setOptState (o := oOenv) (.inl hc.2.2) (.inr rfl : OptState.requested = .inactive ∨ OptState.requested = .requested)
    refine optionSideEffects_follow (setOptState (sendOpt (setOptState t o .inactive) .WILL Telopt.OLD_ENVIRON) oOenv .requested) ho h
      ⟨rfl, rfl⟩ (fun i hi _ => ((hk i).1.trans (setInactive_off hi))) ?_
    exact ⟨fun hf => absurd hf (by simp), fun ha => absurd ((hk _).1.mp ha) hown⟩
  · exact optionSideEffects_follow (setOptState t o .inactive) ho h ⟨rfl, rfl⟩ (fun i hi _ => setInactive_off hi)
      ⟨fun hf => absurd hf (by simp), fun ha => absurd ha hown⟩

theorem procRecOpt_follow {t : St} (h : FlagsFollow t) (cmd : Cmd) (option : UInt8) : FlagsFollow (procRecOpt t cmd option) := by
  rcases procRecOpt_cases t cmd option with ⟨o, ho, -, -, heq⟩ | ⟨o, ho, -, -, heq⟩ | ⟨-, heq⟩ <;> rw [heq]
  · unfold acked
    split
    · exact activateOption_follow ho h rfl ⟨rfl, rfl⟩
    · exact h
    · exact activateOption_follow ho h rfl ⟨rfl, rfl⟩
    · exact ⟨h.echoing, h.editing⟩
  · unfold naked
    split
    · exact refusedOption_follow ho h
    · refine optionSideEffects_follow (sendOpt (setOptState t o .inactive) o.nsend option) ho h ⟨rfl, rfl⟩
        (fun i hi _ => setInactive_off hi) ?_
      rw [optStates_sendOpt, optStates_setOptState_same]
      simp
    · exact h
    · exact h
  · unfold unknownOption
    split
    · exact ⟨h.echoing, h.editing⟩
    · exact h

/-! ## From telnet_init on -/

/-- The events of a session: the requests of telnet_init, then the commands with their replies. -/
def sessionHistory (conf : Conf) (width height : Int) (garbage : OptIndex → OptState) (cmds : List (Cmd × UInt8)) : List Event :=
  (tokens (telnetInit conf width height garbage)).map .said ++ history (telnetInit conf width height garbage) cmds

theorem telnetInit_passive {conf : Conf} (h : conf.passiveTelnet = true) (width height : Int) (garbage : OptIndex → OptState) :
    (∀ i, (telnetInit conf width height garbage).optStates i = .inactive) ∧ tokens (telnetInit conf width height garbage) = [] := by
  rw [telnetInit, if_pos h]
  exact ⟨fun i => by cases i <;> rfl, rfl⟩

/-- The options that are asked for at the start. -/
def initialState : OptIndex → OptState
  | .oenv => .inactive
  | .weBin => .inactive
  | .theyBin => .inactive
  | _ => .requested

def initialRequests : List Token :=
  [.opt .WILL Telopt.NAWS, .opt .WILL Telopt.TSPEED, .opt .WILL Telopt.TTYPE, .opt .WILL Telopt.NEW_ENVIRON,
    .opt .DO Telopt.ECHO, .opt .WILL Telopt.SGA, .opt .DO Telopt.SGA]

theorem telnetInit_active {conf : Conf} (h : conf.passiveTelnet = false) (width height : Int) (garbage : OptIndex → OptState) :
    (∀ i, (telnetInit conf width height garbage).optStates i = initialState i) ∧
      tokens (telnetInit conf width height garbage) = initialRequests ∧
      (telnetInit conf width height garbage).activated = true := by
  rw [telnetInit, if_neg (by simp [h])]
  exact ⟨fun i => by cases i <;> rfl, rfl, rfl⟩

theorem telnetInit_flags (conf : Conf) (width height : Int) (garbage : OptIndex → OptState) :
    (telnetInit conf width height garbage).echoing = true ∧ (telnetInit conf width height garbage).editing = true := by
  unfold telnetInit
  dsimp only
  split <;> exact ⟨rfl, rfl⟩

theorem telnetInit_not_active (conf : Conf) (width height : Int) (garbage : OptIndex → OptState) (i : OptIndex) :
    (telnetInit conf width height garbage).optStates i ≠ .active := by
  cases h : conf.passiveTelnet with
  | true => rw [(telnetInit_passive h width height garbage).1]; simp
  | false =>
    rw [(telnetInit_active h width height garbage).1]
    cases i <;> simp [initialState]

/-- The invariant of a session. -/
structure Inv (t : St) : Prop where
  dormant : Dormant t
  environ : OneEnviron t
  flags : FlagsFollow t

theorem inv_telnetInit (conf : Conf) (width height : Int) (garbage : OptIndex → OptState) :
    Inv (telnetInit conf width height garbage) := by
  have hna := telnetInit_not_active conf width height garbage
  obtain ⟨he, hd⟩ := telnetInit_flags conf width height garbage
  refine ⟨fun ha => ?_, ⟨fun h => absurd h (hna _), fun h => absurd h (hna _)⟩, ⟨by simp [he, hna], by simp [hd, hna]⟩⟩
  cases h : conf.passiveTelnet with
  | true => exact (telnetInit_passive h width height garbage).1
  | false => simp [(telnetInit_active h width height garbage).2.2] at ha

theorem inv_procRecOpt {t : St} (h : Inv t) (cmd : Cmd) (option : UInt8) : Inv (procRecOpt t cmd option) :=
  ⟨procRecOpt_dormant h.dormant cmd option, procRecOpt_oneEnviron h.environ cmd option, procRecOpt_follow h.flags cmd option⟩

theorem inv_negotiate {t : St} (h : Inv t) (cmds : List (Cmd × UInt8)) : Inv (negotiate t cmds) := by
  induction cmds generalizing t with
  | nil => exact h
  | cons c cmds ih => exact ih (inv_procRecOpt h c.1 c.2)

theorem agrees_telnetInit (conf : Conf) (width height : Int) (garbage : OptIndex → OptState) : ∀ o ∈ opts,
    Agrees o ((telnetInit conf width height garbage).optStates o.index)
      (lastWord o ((tokens (telnetInit conf width height garbage)).map .said)) := by
  intro o ho
  cases h : conf.passiveTelnet with
  | true =>
    rw [(telnetInit_passive h width height garbage).1, (telnetInit_passive h width height garbage).2]
    exact (agrees_off (.inl rfl)).mpr (.inl rfl)
  | false =>
    rw [(telnetInit_active h width height garbage).1, (telnetInit_active h width height garbage).2.1]
    revert o
    unfold Agrees
    decide

theorem agrees_negotiate (conf : Conf) (width height : Int) (garbage : OptIndex → OptState) (cmds : List (Cmd × UInt8)) :
    ∀ o ∈ opts, Agrees o ((negotiate (telnetInit conf width height garbage) cmds).optStates o.index)
      (lastWord o (sessionHistory conf width height garbage cmds)) := by
  induction cmds using List.reverseRecOn with
  | nil =>
    intro o ho
    rw [sessionHistory, history, List.append_nil]
    exact agrees_telnetInit conf width height garbage o ho
  | append_singleton cmds c ih =>
    intro o ho
    have hinv := inv_negotiate (inv_telnetInit conf width height garbage) cmds
    have hstep := procRecOpt_agrees hinv.dormant c.1 c.2 ho (ih o ho)
    rw [negotiate_snoc]
    rwa [lastWord, sessionHistory, history_snoc, ← List.append_assoc, List.foldl_append, List.foldl_cons]

end Putty.Telnet
