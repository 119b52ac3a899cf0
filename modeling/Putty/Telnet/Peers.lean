/-
  Putty.Telnet.Peers — two Telnet parties that negotiate with each other, and what the
  negotiation is altogether.

  Every message in flight has a weight and every party a potential; receiving a message
  costs more than what is said in reply (`procRecOpt_spends`), so that two parties fall
  silent (`peers_fall_silent`). No option is ever stopped between them: what they
  refuse, they refuse at once.
-/

import Putty.Lib.Run
import Putty.Telnet.Negotiation

namespace Putty.Telnet

/-! ## What two parties say to each other -/

/-- The options of one direction only; the server's side of them is refused. -/
def oneSided : List UInt8 := [Telopt.NAWS, Telopt.TSPEED, Telopt.TTYPE, Telopt.OLD_ENVIRON, Telopt.NEW_ENVIRON]

def Spoken : Cmd → UInt8 → Prop
  | .WILL, x => x ∈ oneSided ∨ x = Telopt.SGA
  | .WONT, x => x ∈ oneSided ∨ x = Telopt.ECHO
  | .DO, x => x = Telopt.ECHO ∨ x = Telopt.SGA
  | .DONT, x => x ∈ oneSided ∨ x = Telopt.ECHO

def weight : Cmd → UInt8 → Nat
  | .WILL, x => if x = Telopt.SGA then 1 else 3
  | .DO, x => if x = Telopt.SGA then 1 else 3
  | .WONT, x => if x = Telopt.ECHO then 2 else 1
  | .DONT, x => if x = Telopt.ECHO then 1 else 2

def cost : Token → Nat
  | .opt cmd option => weight cmd option
  | _ => 0

/-- The messages that an option's state can still lead to. -/
def stateWeight : OptIndex → OptState → Nat
  | .nenv, .requested => 4
  | .weSga, .inactive => 2
  | .theySga, .inactive => 2
  | _, _ => 0

/-- What the activation can still say. -/
def hookWeight : Bool → Nat
  | true => 0
  | false => 4

/-- What a party may still say of itself. -/
def potential (t : St) : Nat :=
  stateWeight .nenv (t.optStates .nenv) + stateWeight .weSga (t.optStates .weSga) +
    stateWeight .theySga (t.optStates .theySga) + hookWeight t.activated

/-- What a party has said, with what it may still say. -/
def total (t : St) : Nat := ((tokens t).map cost).sum + potential t

/-- A party that only spoke so, and gave up neither side of SGA. -/
structure Civil (t : St) : Prop where
  spoken : ∀ cmd option, .opt cmd option ∈ tokens t → Spoken cmd option
  weSga : t.optStates .weSga ≠ .reallyInactive
  theySga : t.optStates .theySga ≠ .reallyInactive

@[simp] theorem total_sendOpt (t : St) (cmd : Cmd) (option : UInt8) : total (sendOpt t cmd option) = total t + weight cmd option := by
  simp only [total, tokens_sendOpt, List.map_append, List.sum_append, List.map_cons, List.map_nil, List.sum_cons, List.sum_nil, cost]
  rw [show potential (sendOpt t cmd option) = potential t from rfl]
  omega

theorem Civil.sendOpt {t : St} (h : Civil t) {cmd : Cmd} {option : UInt8} (hs : Spoken cmd option) : Civil (sendOpt t cmd option) := by
  refine ⟨fun c x hm => ?_, h.weSga, h.theySga⟩
  rw [tokens_sendOpt] at hm
  rcases List.mem_append.mp hm with hm | hm
  · exact h.spoken c x hm
  · cases List.mem_singleton.mp hm
    exact hs

theorem Civil.of_states {t t' : St} (h : Civil t) (ht : tokens t' = tokens t)
    (hwe : t'.optStates .weSga ≠ .reallyInactive) (hthey : t'.optStates .theySga ≠ .reallyInactive) : Civil t' :=
  ⟨fun c x hm => h.spoken c x (ht ▸ hm), hwe, hthey⟩

theorem Civil.setOptState {t : St} (h : Civil t) (o : Opt) {st : OptState} (hst : st ≠ .reallyInactive) : Civil (setOptState t o st) := by
  refine h.of_states rfl ?_ ?_
  · by_cases hi : OptIndex.weSga = o.index
    · rw [hi, optStates_setOptState_same]; exact hst
    · rw [optStates_setOptState_ne hi]; exact h.weSga
  · by_cases hi : OptIndex.theySga = o.index
    · rw [hi, optStates_setOptState_same]; exact hst
    · rw [optStates_setOptState_ne hi]; exact h.theySga

/-- A new state of an option counts by its own weight. -/
theorem total_setOptState (t : St) (o : Opt) (st : OptState) :
    total (setOptState t o st) + stateWeight o.index (t.optStates o.index) = total t + stateWeight o.index st := by
  have hoff : ∀ i, i ≠ o.index → (setOptState t o st).optStates i = t.optStates i := fun i hi => optStates_setOptState_ne hi
  have hown := optStates_setOptState_same t o st
  simp only [total, potential, tokens_setOptState, activated_setOptState]
  by_cases hn : OptIndex.nenv = o.index
  · rw [hoff .weSga (by simp [← hn]), hoff .theySga (by simp [← hn]), hn, hown]
    omega
  by_cases hw : OptIndex.weSga = o.index
  · rw [hoff .nenv hn, hoff .theySga (by simp [← hw]), hw, hown]
    omega
  by_cases ht : OptIndex.theySga = o.index
  · rw [hoff .nenv hn, hoff .weSga hw, ht, hown]
    omega
  rw [hoff .nenv hn, hoff .weSga hw, hoff .theySga ht]
  have hz : ∀ st, stateWeight o.index st = 0 := by
    intro st
    cases hi : o.index <;> simp_all [stateWeight]
  rw [hz, hz]

theorem total_same {t t' : St} (h : Same t t') (ha : t'.activated = t.activated) : total t' = total t := by
  simp only [total, potential, h.said, h.states, ha]

/-! ## The options, one by one -/

theorem request_total {t : St} {o : Opt} (ho : o ∈ minimum) : total (request t o) ≤ total t + if o = oEcho then 3 else 0 := by
  unfold request
  split
  · next h =>
    have hset := total_setOptState t o .requested
    rw [h] at hset
    rw [total_sendOpt]
    have hw : stateWeight o.index .requested + weight o.send o.option ≤
        stateWeight o.index .inactive + if o = oEcho then 3 else 0 := by
      clear h hset
      revert o
      decide
    omega
  · omega

theorem request_civil {t : St} (h : Civil t) {o : Opt} (ho : o ∈ minimum) : Civil (request t o) := by
  unfold request
  split
  · refine (h.setOptState o (by simp)).sendOpt ?_
    simp only [minimum, List.mem_cons, List.not_mem_nil, or_false] at ho
    rcases ho with rfl | rfl | rfl
    · exact .inl rfl
    · exact .inr rfl
    · exact .inr rfl
  · exact h

/-- The side effects cost nothing: what the activation says was counted before. -/
theorem optionSideEffects_spends {t : St} (h : Civil t) (o : Opt) (enabled : Bool) :
    total (optionSideEffects t o enabled) ≤ total t ∧ Civil (optionSideEffects t o enabled) := by
  rw [optionSideEffects_eq]
  have hs := flagged_same t o enabled
  have ha := flagged_activated t o enabled
  have hc : Civil (flagged t o enabled) := h.of_states hs.said (by rw [hs.states]; exact h.weSga) (by rw [hs.states]; exact h.theySga)
  have htot := total_same hs ha
  split
  · exact ⟨Nat.le_of_eq htot, hc⟩
  · next hact =>
    generalize flagged t o enabled = u at hc ha htot
    have h1 := request_total (t := u) (o := oEcho) (by decide)
    have h2 := request_total (t := request u oEcho) (o := oWeSga) (by decide)
    have h3 := request_total (t := request (request u oEcho) oWeSga) (o := oTheySga) (by decide)
    rw [if_pos rfl] at h1
    rw [if_neg (by decide)] at h2 h3
    have hu : (minimum.foldl request u).activated = false := by
      have hr : ∀ (t : St) (o : Opt), (request t o).activated = t.activated := fun t o => by unfold request; split <;> rfl
      simp only [minimum, List.foldl_cons, List.foldl_nil, hr, ha]
      simpa using hact
    refine ⟨?_, ?_⟩
    · have hlast : total { minimum.foldl request u with activated := true } + 4 = total (minimum.foldl request u) := by
        simp only [total, potential, hu, hookWeight]
        rfl
      simp only [minimum, List.foldl_cons, List.foldl_nil] at hlast ⊢
      omega
    · have hciv : Civil (minimum.foldl request u) :=
        request_civil (request_civil (request_civil hc (by decide)) (by decide)) (by decide)
      exact hciv.of_states rfl hciv.weSga hciv.theySga

/-! ## The messages, one by one -/

theorem heard_unknown {t : St} {cmd : Cmd} {option : UInt8} (h : ∀ o ∈ opts, o.option = option → o.ack ≠ cmd ∧ o.nak ≠ cmd) :
    procRecOpt t cmd option = unknownOption t cmd option := by
  rcases procRecOpt_cases t cmd option with ⟨o, ho, hx, hc, -⟩ | ⟨o, ho, hx, hc, -⟩ | ⟨-, h⟩
  · exact absurd hc (h o ho hx).1
  · exact absurd hc (h o ho hx).2
  · exact h

theorem heard_ack {t : St} {o : Opt} (ho : o ∈ opts) : procRecOpt t o.ack o.option = acked t o o.option := by
  rcases procRecOpt_cases t o.ack o.option with ⟨p, hp, hx, hc, h⟩ | ⟨p, hp, hx, hc, -⟩ | ⟨hno, -⟩
  · rwa [opt_eq_of_heard p hp o ho hx (.inl hc)] at h
  · rw [opt_eq_of_heard p hp o ho hx (.inr (.inr (.inl hc)))] at hc
    exact absurd hc.symm (ack_ne_nak o ho)
  · exact absurd rfl (hno o ho rfl).1

theorem heard_nak {t : St} {o : Opt} (ho : o ∈ opts) : procRecOpt t o.nak o.option = naked t o o.option := by
  rcases procRecOpt_cases t o.nak o.option with ⟨p, hp, hx, hc, -⟩ | ⟨p, hp, hx, hc, h⟩ | ⟨hno, -⟩
  · rw [opt_eq_of_heard p hp o ho hx (.inr (.inl hc))] at hc
    exact absurd hc (ack_ne_nak o ho)
  · rwa [opt_eq_of_heard p hp o ho hx (.inr (.inr (.inr hc)))] at h
  · exact absurd rfl (hno o ho rfl).2

/-- The reply costs less than what is received. -/
def Spends (k : Nat) (t t' : St) : Prop := total t' < total t + k ∧ Civil t'

/-- An option of one direction only: its side at the other party is refused. -/
theorem unknown_spends {t : St} (h : Civil t) {cmd : Cmd} {option : UInt8} (hs : Spoken cmd option)
    (hno : ∀ o ∈ opts, o.option = option → o.ack ≠ cmd ∧ o.nak ≠ cmd) : Spends (weight cmd option) t (procRecOpt t cmd option) := by
  rw [heard_unknown hno]
  have hpos : 0 < weight cmd option := by
    cases cmd <;> simp only [weight] <;> split <;> omega
  unfold unknownOption
  cases cmd with
  | WONT => exact ⟨by simpa using hpos, h⟩
  | DONT => exact ⟨by simpa using hpos, h⟩
  | WILL =>
    have hsga : option ≠ Telopt.SGA := by
      rintro rfl
      exact absurd rfl (hno oTheySga (by decide) rfl).1
    have hone : option ∈ oneSided := hs.resolve_right hsga
    have hecho : option ≠ Telopt.ECHO := by
      rintro rfl
      exact absurd hone (by decide)
    refine ⟨?_, h.sendOpt (.inl hone)⟩
    rw [if_pos (.inl rfl), if_pos rfl, total_sendOpt, show weight .DONT option = 2 from if_neg hecho,
      show weight .WILL option = 3 from if_neg hsga]
    omega
  | DO =>
    have hsga : option ≠ Telopt.SGA := by
      rintro rfl
      exact absurd rfl (hno oWeSga (by decide) rfl).1
    have hecho : option = Telopt.ECHO := hs.resolve_right hsga
    refine ⟨?_, h.sendOpt (.inr hecho)⟩
    rw [if_pos (.inr rfl), if_neg (by simp), total_sendOpt, show weight .WONT option = 2 from if_pos hecho,
      show weight .DO option = 3 from if_neg hsga]
    omega

/-- SGA agreed to. -/
theorem sga_spends {t : St} (h : Civil t) {o : Opt} (ho : o = oWeSga ∨ o = oTheySga) : Spends 1 t (acked t o o.option) := by
  have hact : ∀ u, activateOption u o = optionSideEffects u o true := by rcases ho with rfl | rfl <;> exact fun _ => rfl
  have hset := total_setOptState t o .active
  have hset0 : stateWeight o.index .active = 0 := by rcases ho with rfl | rfl <;> rfl
  unfold acked
  split
  · rw [hact]
    have hs := optionSideEffects_spends (h.setOptState o (by simp : OptState.active ≠ .reallyInactive)) o true
    exact ⟨by omega, hs.2⟩
  · exact ⟨by omega, h⟩
  · next hst =>
    rw [hact]
    have hsp : Spoken o.send o.option ∧ weight o.send o.option = 1 ∧ stateWeight o.index .inactive = 2 := by
      rcases ho with rfl | rfl
      · exact ⟨.inr rfl, rfl, rfl⟩
      · exact ⟨.inr rfl, rfl, rfl⟩
    have hs := optionSideEffects_spends ((h.setOptState o (by simp : OptState.active ≠ .reallyInactive)).sendOpt hsp.1) o true
    rw [total_sendOpt, hsp.2.1] at hs
    rw [hst, hsp.2.2] at hset
    exact ⟨by omega, hs.2⟩
  · next hst =>
    rcases ho with rfl | rfl
    · exact absurd hst h.weSga
    · exact absurd hst h.theySga

/-- What the refusal of a one-sided option or of ECHO may lead to. -/
theorem refused_facts : ∀ o ∈ opts, o.option ∈ oneSided ∨ o = oEcho →
    stateWeight o.index .inactive = 0 ∧ 0 < weight o.nak o.option ∧ weight o.nsend o.option < weight o.nak o.option ∧
    (o.nsend = .WONT ∧ o.option ∈ oneSided ∨ o.nsend = .DONT ∧ o.option = Telopt.ECHO) ∧
    (o.option = Telopt.NEW_ENVIRON → o = oNenv) := by decide

/-- A refusal of one of our requests. -/
theorem refused_spends {t : St} (h : Civil t) {o : Opt} (ho : o ∈ opts) (hx : o.option ∈ oneSided ∨ o = oEcho) :
    Spends (weight o.nak o.option) t (naked t o o.option) := by
  obtain ⟨hset0, hpos, hless, hns, hnenv⟩ := refused_facts o ho hx
  have hset := total_setOptState t o .inactive
  have hciv := h.setOptState o (by simp : OptState.inactive ≠ .reallyInactive)
  unfold naked
  split
  · next hst =>
    unfold refusedOption
    dsimp only
    split
    · next hc =>
      -- the other ENVIRON is asked for, which the first one's state had counted
      obtain rfl := hnenv hc.2.1
      have hspoken : Spoken .WILL Telopt.OLD_ENVIRON := .inl (by decide)
      have hset2 := total_setOptState (sendOpt (setOptState t oNenv .inactive) .WILL Telopt.OLD_ENVIRON) oOenv .requested
      rw [total_sendOpt, show weight .WILL Telopt.OLD_ENVIRON = 3 from rfl, show stateWeight oOenv.index .requested = 0 from rfl] at hset2
      rw [hst, show stateWeight oNenv.index .requested = 4 from rfl] at hset
      have hs := optionSideEffects_spends
        ((hciv.sendOpt hspoken).setOptState oOenv (by simp : OptState.requested ≠ .reallyInactive)) oNenv false
      exact ⟨by omega, hs.2⟩
    · have hs := optionSideEffects_spends hciv o false
      exact ⟨by omega, hs.2⟩
  · have hsp : Spoken o.nsend o.option := by
      rcases hns with ⟨hn, hx⟩ | ⟨hn, hx⟩ <;> rw [hn]
      · exact .inl hx
      · exact .inr hx
    have hs := optionSideEffects_spends (hciv.sendOpt hsp) o false
    rw [total_sendOpt] at hs
    exact ⟨by omega, hs.2⟩
  · exact ⟨by omega, h⟩
  · exact ⟨by omega, h⟩

/-- Every message that two parties send costs more than the reply to it. -/
theorem procRecOpt_spends {t : St} (h : Civil t) {cmd : Cmd} {option : UInt8} (hs : Spoken cmd option) :
    Spends (weight cmd option) t (procRecOpt t cmd option) := by
  have hone : ∀ cmd x, x ∈ oneSided → cmd = .WILL ∨ cmd = .WONT → ∀ o ∈ opts, o.option = x → o.ack ≠ cmd ∧ o.nak ≠ cmd := by
    intro cmd x hx hc o ho ho'
    subst ho'
    revert hx
    revert o
    rcases hc with rfl | rfl <;> decide
  cases cmd with
  | WILL =>
    rcases hs with hx | rfl
    · exact unknown_spends h (.inl hx) (hone _ _ hx (.inl rfl))
    · have hheard := heard_ack (t := t) (o := oTheySga) (by decide)
      rw [show procRecOpt t .WILL Telopt.SGA = acked t oTheySga oTheySga.option from hheard]
      exact sga_spends h (.inr rfl)
  | WONT =>
    rcases hs with hx | rfl
    · exact unknown_spends h (.inl hx) (hone _ _ hx (.inr rfl))
    · have hheard := heard_nak (t := t) (o := oEcho) (by decide)
      rw [show procRecOpt t .WONT Telopt.ECHO = naked t oEcho oEcho.option from hheard]
      exact refused_spends h (by decide) (.inr rfl)
  | DO =>
    rcases hs with rfl | rfl
    · exact unknown_spends h (.inl rfl) (by decide)
    · have hheard := heard_ack (t := t) (o := oWeSga) (by decide)
      rw [show procRecOpt t .DO Telopt.SGA = acked t oWeSga oWeSga.option from hheard]
      exact sga_spends h (.inl rfl)
  | DONT =>
    rcases hs with hx | rfl
    · obtain ⟨o, ho, rfl, hn⟩ : ∃ o ∈ opts, o.option = option ∧ o.nak = .DONT := by
        have hall : (oneSided.all fun x => decide (∃ o ∈ opts, o.option = x ∧ o.nak = .DONT)) = true := by decide
        exact of_decide_eq_true (List.all_eq_true.mp hall option hx)
      have hheard := heard_nak (t := t) ho
      rw [hn] at hheard
      rw [hheard, ← hn]
      exact refused_spends h ho (.inl hx)
    · exact unknown_spends h (.inr rfl) (by decide)

/-! ## Two parties -/

def asCommand : Token → Option (Cmd × UInt8)
  | .opt cmd option => some (cmd, option)
  | _ => none

/-- The negotiation in what was said. -/
def commands (ms : List Token) : List (Cmd × UInt8) := ms.filterMap asCommand

/-- A party with what is on its way to it. -/
structure Party where
  telnet : St
  inbox : List (Cmd × UInt8)

structure Pair where
  one : Party
  two : Party

inductive Side where
  | one
  | two
  deriving DecidableEq, Repr

/-- The next command reaches the party, and its reply goes out to the other. -/
def hear (p q : Party) : Option (Party × Party) :=
  match p.inbox with
  | [] => none
  | c :: cs => some (⟨procRecOpt p.telnet c.1 c.2, cs⟩, ⟨q.telnet, q.inbox ++ commands (replies p.telnet c.1 c.2)⟩)

def deliver (p : Pair) : Side → Option Pair
  | .one => (hear p.one p.two).map fun r => ⟨r.1, r.2⟩
  | .two => (hear p.two p.one).map fun r => ⟨r.2, r.1⟩

/-- Two parties that are connected to each other. -/
def peers (a b : St) : Pair := ⟨⟨a, commands (tokens b)⟩, ⟨b, commands (tokens a)⟩⟩

def inboxWeight (cs : List (Cmd × UInt8)) : Nat := (cs.map fun c => weight c.1 c.2).sum

/-- What may still be said in the end. -/
def Party.measure (p : Party) : Nat := inboxWeight p.inbox + potential p.telnet

structure Party.Good (p : Party) : Prop where
  dormant : Dormant p.telnet
  civil : Civil p.telnet
  inbox : ∀ c ∈ p.inbox, Spoken c.1 c.2

theorem inboxWeight_append (as bs : List (Cmd × UInt8)) : inboxWeight (as ++ bs) = inboxWeight as + inboxWeight bs := by
  simp [inboxWeight]

theorem inboxWeight_commands (ms : List Token) : inboxWeight (commands ms) = (ms.map cost).sum := by
  induction ms with
  | nil => rfl
  | cons m ms ih =>
    have hcons : commands (m :: ms) = (asCommand m).toList ++ commands ms := by
      cases h : asCommand m <;> simp [commands, h]
    rw [hcons, inboxWeight_append, ih, List.map_cons, List.sum_cons]
    cases m <;> simp [asCommand, inboxWeight, cost]

theorem mem_commands {ms : List Token} {c : Cmd × UInt8} : c ∈ commands ms ↔ .opt c.1 c.2 ∈ ms := by
  rw [commands, List.mem_filterMap]
  constructor
  · rintro ⟨m, hm, h⟩
    cases m <;> simp [asCommand] at h
    subst h
    exact hm
  · exact fun h => ⟨_, h, rfl⟩

theorem procRecOpt_tokens {t : St} (hd : Dormant t) (cmd : Cmd) (option : UInt8) :
    tokens (procRecOpt t cmd option) = tokens t ++ replies t cmd option := by
  refine replies_tokens rfl ?_
  have hstep := procRecOpt_step hd cmd option
  generalize procRecOpt t cmd option = t' at hstep
  cases hstep with
  | agreed o ho hx hc hst os _ hnd hos hp =>
    obtain ⟨as, has, -⟩ := announced_tokens (setOptState t o .active) ho
    obtain ⟨bs, hbs⟩ := hp.extends
    exact ⟨as ++ bs, by rw [hbs, has, tokens_setOptState, List.append_assoc]⟩
  | accepted o ho hx hc hst os _ hnd hos hp =>
    obtain ⟨as, has, -⟩ := announced_tokens (sendOpt (setOptState t o .active) o.send option) ho
    obtain ⟨bs, hbs⟩ := hp.extends
    exact ⟨[.opt o.send option] ++ (as ++ bs), by
      rw [hbs, has, tokens_sendOpt, tokens_setOptState, List.append_assoc, List.append_assoc]⟩
  | refused o ho hx hc hst os _ hnd hos hp => exact hp.extends
  | stopped o ho hx hc hst _ hp => exact hp.extends
  | known o ho hx hst => exact ⟨[], (List.append_nil _).symm⟩
  | refusal hc hno => exact ⟨_, tokens_sendOpt _ _ _⟩
  | ignored hno => exact ⟨[], (List.append_nil _).symm⟩

theorem hear_spends {p q p' q' : Party} (hp : p.Good) (hq : q.Good) (h : hear p q = some (p', q')) :
    p'.Good ∧ q'.Good ∧ p'.measure + q'.measure < p.measure + q.measure := by
  unfold hear at h
  rcases hin : p.inbox with _ | ⟨c, cs⟩
  · rw [hin] at h
    cases h
  · rw [hin] at h
    cases h
    have hspoken := hp.inbox c (by rw [hin]; exact List.mem_cons_self)
    obtain ⟨htot, hciv⟩ := procRecOpt_spends hp.civil hspoken
    have htok := procRecOpt_tokens hp.dormant c.1 c.2
    refine ⟨⟨procRecOpt_dormant hp.dormant c.1 c.2, hciv, fun d hd => ?_⟩, ⟨hq.dormant, hq.civil, fun d hd => ?_⟩, ?_⟩
    · exact hp.inbox d (by rw [hin]; exact List.mem_cons_of_mem _ hd)
    · rcases List.mem_append.mp hd with hd | hd
      · exact hq.inbox d hd
      · exact hciv.spoken d.1 d.2 (by rw [htok]; exact List.mem_append_right _ (mem_commands.mp hd))
    · simp only [Party.measure, inboxWeight_append, inboxWeight_commands, hin]
      rw [total, total, htok, List.map_append, List.sum_append] at htot
      rw [show inboxWeight (c :: cs) = weight c.1 c.2 + inboxWeight cs from by simp [inboxWeight]]
      omega

def Pair.measure (p : Pair) : Nat := p.one.measure + p.two.measure

structure Pair.Good (p : Pair) : Prop where
  one : p.one.Good
  two : p.two.Good

theorem deliver_spends {p p' : Pair} (hp : p.Good) {s : Side} (h : deliver p s = some p') : p'.Good ∧ p'.measure < p.measure := by
  cases s with
  | one =>
    obtain ⟨⟨q, r⟩, hh, rfl⟩ := Option.map_eq_some_iff.mp h
    obtain ⟨h1, h2, h3⟩ := hear_spends hp.one hp.two hh
    exact ⟨⟨h1, h2⟩, h3⟩
  | two =>
    obtain ⟨⟨q, r⟩, hh, rfl⟩ := Option.map_eq_some_iff.mp h
    obtain ⟨h1, h2, h3⟩ := hear_spends hp.two hp.one hh
    refine ⟨⟨h2, h1⟩, ?_⟩
    simp only [Pair.measure]
    omega

/-- Every delivery costs, so that only so many can follow. -/
theorem deliveries_bounded {p p' : Pair} (hp : p.Good) {sides : List Side} (h : Lib.run deliver p sides = some p') :
    sides.length + p'.measure ≤ p.measure := by
  induction sides generalizing p with
  | nil =>
    cases h
    simp
  | cons s sides ih =>
    rw [Lib.run_cons] at h
    obtain ⟨p1, h1, h2⟩ := Option.bind_eq_some_iff.mp h
    obtain ⟨hg, hlt⟩ := deliver_spends hp h1
    have := ih hg h2
    rw [List.length_cons]
    omega

theorem telnetInit_civil (conf : Conf) (width height : Int) (garbage : OptIndex → OptState) :
    Civil (telnetInit conf width height garbage) ∧ total (telnetInit conf width height garbage) ≤ 21 := by
  cases h : conf.passiveTelnet with
  | true =>
    obtain ⟨hst, htok⟩ := telnetInit_passive h width height garbage
    refine ⟨⟨by simp [htok], by simp [hst], by simp [hst]⟩, ?_⟩
    rw [total, potential, htok, hst, hst, hst]
    cases (telnetInit conf width height garbage).activated <;> decide
  | false =>
    obtain ⟨hst, htok, hact⟩ := telnetInit_active h width height garbage
    refine ⟨⟨fun cmd option hm => ?_, by simp [hst, initialState], by simp [hst, initialState]⟩, ?_⟩
    · rw [htok] at hm
      simp only [initialRequests, List.mem_cons, List.not_mem_nil, or_false, Token.opt.injEq] at hm
      rcases hm with ⟨rfl, rfl⟩ | ⟨rfl, rfl⟩ | ⟨rfl, rfl⟩ | ⟨rfl, rfl⟩ | ⟨rfl, rfl⟩ | ⟨rfl, rfl⟩ | ⟨rfl, rfl⟩ <;>
        simp [Spoken, oneSided]
    · rw [total, potential, htok, hst, hst, hst, hact]
      decide

theorem peers_good {a b : St} (ha : Civil a) (hb : Civil b) (hda : Dormant a) (hdb : Dormant b) :
    (peers a b).Good ∧ (peers a b).measure = total a + total b := by
  refine ⟨⟨⟨hda, ha, fun c hc => hb.spoken c.1 c.2 (mem_commands.mp hc)⟩,
    ⟨hdb, hb, fun c hc => ha.spoken c.1 c.2 (mem_commands.mp hc)⟩⟩, ?_⟩
  simp only [Pair.measure, Party.measure, peers, inboxWeight_commands, total]
  omega

/-- Two parties fall silent: no more than 42 commands are ever delivered between them. -/
theorem peers_fall_silent (conf conf' : Conf) (width height width' height' : Int) (garbage garbage' : OptIndex → OptState)
    {sides : List Side} {p : Pair}
    (h : Lib.run deliver (peers (telnetInit conf width height garbage) (telnetInit conf' width' height' garbage')) sides = some p) :
    sides.length ≤ 42 := by
  have ha := telnetInit_civil conf width height garbage
  have hb := telnetInit_civil conf' width' height' garbage'
  obtain ⟨hgood, hm⟩ := peers_good ha.1 hb.1 (inv_telnetInit conf width height garbage).dormant
    (inv_telnetInit conf' width' height' garbage').dormant
  have := deliveries_bounded hgood h
  have := ha.2
  have := hb.2
  omega

/-! ## The negotiation -/

/-- What every sequence of commands keeps, and two parties that fall silent. -/
theorem negotiation_is_orderly :
    (∀ (conf : Conf) (width height : Int) (garbage : OptIndex → OptState) (cmds : List (Cmd × UInt8)),
      (∀ cmd option, AnswersChanges (negotiate (telnetInit conf width height garbage) cmds) cmd option) ∧
      ¬ ((negotiate (telnetInit conf width height garbage) cmds).optStates .oenv = .active ∧
        (negotiate (telnetInit conf width height garbage) cmds).optStates .nenv = .active) ∧
      (∀ o ∈ opts, Agrees o ((negotiate (telnetInit conf width height garbage) cmds).optStates o.index)
        (lastWord o (sessionHistory conf width height garbage cmds))) ∧
      FlagsFollow (negotiate (telnetInit conf width height garbage) cmds)) ∧
    (∀ (conf conf' : Conf) (width height width' height' : Int) (garbage garbage' : OptIndex → OptState) (sides : List Side),
      Lib.run deliver (peers (telnetInit conf width height garbage) (telnetInit conf' width' height' garbage')) sides = none ∨
        sides.length ≤ 42) := by
  constructor
  · intro conf width height garbage cmds
    have hinv := inv_negotiate (inv_telnetInit conf width height garbage) cmds
    refine ⟨answers_changes hinv.dormant, fun h => ?_, agrees_negotiate conf width height garbage cmds, hinv.flags⟩
    have hgone := hinv.environ.1 h.1
    rw [h.2] at hgone
    cases hgone
  · intro conf conf' width height width' height' garbage garbage' sides
    cases h : Lib.run deliver (peers (telnetInit conf width height garbage) (telnetInit conf' width' height' garbage')) sides with
    | none => exact .inl rfl
    | some p => exact .inr (peers_fall_silent conf conf' width height width' height' garbage garbage' h)

/-- A configuration with nothing in it. -/
def plain : Conf := ⟨false, CStr.empty, CStr.empty, [], false, none⟩

/-- The server refuses the window size: the option is inactive, and WILL NAWS is still the
    last word on it. -/
theorem refused_request_is_the_last_word :
    (negotiate (telnetInit plain 80 24 fun _ => .inactive) [(.DONT, Telopt.NAWS)]).optStates .naws = .inactive ∧
      (lastWord oNaws (sessionHistory plain 80 24 (fun _ => .inactive) [(.DONT, Telopt.NAWS)])).last = some .WILL := by
  decide +kernel

end Putty.Telnet
