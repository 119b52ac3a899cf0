/-
  Putty.Lib.BinaryGcd — Stein's algorithm on a pair, and its Bezout coefficients.

  One step sorts the pair so that the larger of two odd numbers, or else an even one,
  stands first, takes the second from the first when both were odd, and halves the first.
  The odd common divisors stay (`dvd_next`), and what is left to do halves (`work_next`),
  so that after as many steps as the two numbers have bits the first is 0
  (`fst_iterate_eq_zero`) and the second the gcd, less its factors of 2 (`snd_iterate`).

  A step is undone from two bits (`sorted_fst`). `Bezout p ac bc neg` says that `ac` and
  `bc` are, up to a sign, coefficients of the pair within its bounds; undoing a step turns
  coefficients of the next pair into coefficients of the pair (`Bezout.undo`).
-/

import Mathlib.Algebra.Ring.Parity
import Mathlib.Algebra.Order.Group.Nat
import Mathlib.Data.Nat.Factorization.Basic
import Mathlib.Logic.Function.Iterate
import Mathlib.Tactic.Linarith
import Mathlib.Tactic.Ring

namespace Putty.Lib.BinaryGcd

def bothOdd (p : Nat × Nat) : Bool := p.1 % 2 = 1 ∧ p.2 % 2 = 1

def swaps (p : Nat × Nat) : Bool := if bothOdd p then p.1 ≤ p.2 else p.1 % 2 = 1

def sorted (p : Nat × Nat) : Nat × Nat := if swaps p then (p.2, p.1) else p

/-- What is taken from the larger of two odd numbers. -/
def less (p : Nat × Nat) : Nat := if bothOdd p then (sorted p).2 else 0

def next (p : Nat × Nat) : Nat × Nat := (((sorted p).1 - less p) / 2, (sorted p).2)

/-! ## One step -/

theorem sorted_cases (p : Nat × Nat) :
    (sorted p).1 = p.1 ∧ (sorted p).2 = p.2 ∨ (sorted p).1 = p.2 ∧ (sorted p).2 = p.1 ∧ p.1 % 2 = 1 := by
  unfold sorted
  by_cases h : swaps p = true
  · right
    rw [if_pos h]
    refine ⟨rfl, rfl, ?_⟩
    unfold swaps at h
    by_cases hb : bothOdd p = true
    · exact (of_decide_eq_true hb).1
    · rw [if_neg hb] at h
      exact of_decide_eq_true h
  · left
    rw [if_neg h]
    exact ⟨rfl, rfl⟩

theorem less_le (p : Nat × Nat) : less p ≤ (sorted p).1 := by
  unfold less
  by_cases hb : bothOdd p = true
  · rw [if_pos hb]
    unfold sorted swaps
    rw [if_pos hb]
    by_cases hle : p.1 ≤ p.2
    · rw [if_pos (decide_eq_true hle)]
      exact hle
    · rw [if_neg (by simpa using hle)]
      omega
  · rw [if_neg hb]
    exact Nat.zero_le _

theorem difference_even (p : Nat × Nat) : ((sorted p).1 - less p) % 2 = 0 := by
  have hle := less_le p
  unfold less at hle ⊢
  by_cases hb : bothOdd p = true
  · have hodd := of_decide_eq_true hb
    rw [if_pos hb] at hle ⊢
    rcases sorted_cases p with h | h
    · omega
    · omega
  · have hnot : ¬(p.1 % 2 = 1 ∧ p.2 % 2 = 1) := fun h => hb (decide_eq_true h)
    rw [if_neg hb, Nat.sub_zero]
    by_cases h1 : p.1 % 2 = 1
    · unfold sorted swaps
      rw [if_neg hb, if_pos (decide_eq_true h1)]
      show p.2 % 2 = 0
      omega
    · rcases sorted_cases p with h | h
      · omega
      · exact absurd h.2.2 h1

/-- The step undone: doubling, and adding again what was taken. -/
theorem sorted_fst (p : Nat × Nat) : (sorted p).1 = 2 * (next p).1 + less p := by
  have hle := less_le p
  have heven := difference_even p
  show (sorted p).1 = 2 * (((sorted p).1 - less p) / 2) + less p
  omega

theorem next_snd (p : Nat × Nat) : (next p).2 = (sorted p).2 := rfl

theorem sorted_sorted (p : Nat × Nat) : (if swaps p then ((sorted p).2, (sorted p).1) else sorted p) = p := by
  unfold sorted
  by_cases h : swaps p = true
  · rw [if_pos h, if_pos h]
  · rw [if_neg h, if_neg h]

theorem next_fst_le (p : Nat × Nat) : 2 * (next p).1 ≤ (sorted p).1 := by
  have := sorted_fst p
  omega

/-- The odd common divisors of a pair are those of the next. -/
theorem dvd_next {d : Nat} (hd : d % 2 = 1) (p : Nat × Nat) : d ∣ (next p).1 ∧ d ∣ (next p).2 ↔ d ∣ p.1 ∧ d ∣ p.2 := by
  have hsorted : d ∣ (sorted p).1 ∧ d ∣ (sorted p).2 ↔ d ∣ p.1 ∧ d ∣ p.2 := by
    rcases sorted_cases p with h | h
    · rw [h.1, h.2]
    · rw [h.1, h.2.1, and_comm]
  rw [← hsorted, next_snd, sorted_fst]
  have hcop : d.Coprime 2 := Nat.coprime_two_right.mpr (Nat.odd_iff.mpr hd)
  have hless : d ∣ (sorted p).2 → d ∣ less p := by
    intro h
    unfold less
    by_cases hb : bothOdd p = true
    · rwa [if_pos hb]
    · rw [if_neg hb]
      exact Nat.dvd_zero d
  constructor
  · intro h
    exact ⟨Nat.dvd_add (Nat.dvd_mul_left_of_dvd h.1 2) (hless h.2), h.2⟩
  · intro h
    have htwo := (Nat.dvd_add_left (hless h.2)).mp h.1
    exact ⟨hcop.dvd_of_dvd_mul_left htwo, h.2⟩

/-- Unless both are even, the second is odd from the next pair on. -/
theorem next_snd_odd {p : Nat × Nat} (h : p.1 % 2 = 1 ∨ p.2 % 2 = 1) : (next p).2 % 2 = 1 := by
  rw [next_snd]
  rcases sorted_cases p with hs | hs
  · by_cases h1 : p.1 % 2 = 1
    · rcases Nat.mod_two_eq_zero_or_one p.2 with h2 | h2
      · -- an odd first and an even second are swapped
        have hb : ¬bothOdd p = true := fun hb => by
          have := (of_decide_eq_true hb).2
          omega
        unfold sorted swaps
        rw [if_neg hb, if_pos (decide_eq_true h1)]
        exact h1
      · rwa [hs.2]
    · rw [hs.2]
      omega
  · rw [hs.2.1]
    exact hs.2.2

theorem next_snd_pos {p : Nat × Nat} (h : p.2 ≠ 0) : (next p).2 ≠ 0 := by
  rw [next_snd]
  rcases sorted_cases p with hs | hs
  · rwa [hs.2]
  · rw [hs.2.1]
    omega

theorem next_of_zero {p : Nat × Nat} (h : p.1 = 0) : next p = p := by
  have hb : ¬bothOdd p = true := fun hb => by
    have := (of_decide_eq_true hb).1
    omega
  have hs : sorted p = p := by
    unfold sorted swaps
    rw [if_neg hb, if_neg (by rw [h]; decide)]
  unfold next less
  rw [if_neg hb, hs, h]
  exact Prod.ext h.symm rfl

/-- Where the first becomes 0 the second is odd. -/
theorem snd_odd_of_next {p : Nat × Nat} (h0 : p.1 ≠ 0) (h : (next p).1 = 0) : (next p).2 % 2 = 1 := by
  have hfst := sorted_fst p
  rw [h, Nat.mul_zero, Nat.zero_add] at hfst
  rw [next_snd]
  unfold less at hfst
  by_cases hb : bothOdd p = true
  · have hodd := of_decide_eq_true hb
    rcases sorted_cases p with hs | hs
    · rw [hs.2]
      exact hodd.2
    · rw [hs.2.1]
      exact hodd.1
  · rw [if_neg hb] at hfst
    rcases sorted_cases p with hs | hs
    · omega
    · rw [hs.2.1]
      exact hs.2.2

theorem next_lt {p : Nat × Nat} {n : Nat} (h1 : p.1 < n) (h2 : p.2 < n) : (next p).1 < n ∧ (next p).2 < n := by
  have hhalf := next_fst_le p
  rw [next_snd]
  rcases sorted_cases p with hs | hs
  · omega
  · omega

/-! ## Enough steps -/

/-- What is left to do: the product, a second number 0 counting as 1. -/
def work (p : Nat × Nat) : Nat := p.1 * max p.2 1

theorem work_next (p : Nat × Nat) : 2 * work (next p) ≤ work p := by
  have hhalf := next_fst_le p
  unfold work
  rw [next_snd, ← Nat.mul_assoc]
  rcases sorted_cases p with hs | hs
  · rw [hs.2]
    rw [hs.1] at hhalf
    exact Nat.mul_le_mul_right _ hhalf
  · rw [hs.2.1, Nat.max_eq_left (by omega), Nat.mul_comm p.1]
    rw [hs.1] at hhalf
    exact Nat.mul_le_mul_right _ (Nat.le_trans hhalf (Nat.le_max_left _ _))

theorem work_iterate (p : Nat × Nat) (k : Nat) : 2 ^ k * work (next^[k] p) ≤ work p := by
  induction k with
  | zero => simp
  | succ k ih =>
    rw [Function.iterate_succ_apply', Nat.pow_succ, Nat.mul_assoc]
    exact Nat.le_trans (Nat.mul_le_mul_left _ (work_next _)) ih

theorem fst_iterate_eq_zero {p : Nat × Nat} {n : Nat} (h1 : p.1 < 2 ^ n) (h2 : p.2 < 2 ^ n) : (next^[2 * n] p).1 = 0 := by
  have hwork := work_iterate p (2 * n)
  have hpos := Nat.two_pow_pos n
  have hlt : work p < 2 ^ (2 * n) := by
    unfold work
    rw [Nat.two_mul, Nat.pow_add]
    exact Nat.mul_lt_mul_of_lt_of_le h1 (by omega) hpos
  by_contra hne
  have hone : 1 ≤ work (next^[2 * n] p) := Nat.mul_pos (Nat.pos_of_ne_zero hne) (by omega)
  have := Nat.mul_le_mul_left (2 ^ (2 * n)) hone
  omega

theorem iterate_lt {p : Nat × Nat} {n : Nat} (h1 : p.1 < n) (h2 : p.2 < n) (k : Nat) :
    (next^[k] p).1 < n ∧ (next^[k] p).2 < n := by
  induction k with
  | zero => exact ⟨h1, h2⟩
  | succ k ih =>
    rw [Function.iterate_succ_apply']
    exact next_lt ih.1 ih.2

theorem iterate_snd_pos {p : Nat × Nat} (h : p.2 ≠ 0) (k : Nat) : (next^[k] p).2 ≠ 0 := by
  induction k with
  | zero => exact h
  | succ k ih =>
    rw [Function.iterate_succ_apply']
    exact next_snd_pos ih

theorem iterate_odd {p : Nat × Nat} (h : p.1 % 2 = 1 ∨ p.2 % 2 = 1) (k : Nat) :
    (next^[k] p).1 % 2 = 1 ∨ (next^[k] p).2 % 2 = 1 := by
  induction k with
  | zero => exact h
  | succ k ih =>
    rw [Function.iterate_succ_apply']
    exact .inr (next_snd_odd ih)

theorem dvd_iterate {d : Nat} (hd : d % 2 = 1) (p : Nat × Nat) (k : Nat) :
    d ∣ (next^[k] p).1 ∧ d ∣ (next^[k] p).2 ↔ d ∣ p.1 ∧ d ∣ p.2 := by
  induction k with
  | zero => rfl
  | succ k ih => rw [Function.iterate_succ_apply', dvd_next hd, ih]

theorem snd_iterate_odd {p : Nat × Nat} (h : p.1 ≠ 0) (k : Nat) : (next^[k] p).1 ≠ 0 ∨ (next^[k] p).2 % 2 = 1 := by
  induction k with
  | zero => exact .inl h
  | succ k ih =>
    rw [Function.iterate_succ_apply']
    by_cases h0 : (next^[k] p).1 = 0
    · rw [next_of_zero h0]
      exact .inr (ih.resolve_left fun hne => hne h0)
    · by_cases hz : (next (next^[k] p)).1 = 0
      · exact .inr (snd_odd_of_next h0 hz)
      · exact .inl hz

/-- The gcd without its factors of 2. -/
theorem odd_part_reached {p : Nat × Nat} {n : Nat} (h1 : p.1 < 2 ^ n) (h2 : p.2 < 2 ^ n) (h0 : p.1 ≠ 0) :
    ∃ g k, next^[2 * n] p = (0, g) ∧ g % 2 = 1 ∧ Nat.gcd p.1 p.2 = 2 ^ k * g := by
  have hz := fst_iterate_eq_zero h1 h2
  have hodd := (snd_iterate_odd h0 (2 * n)).resolve_left fun hne => hne hz
  have hdvd : (next^[2 * n] p).2 ∣ Nat.gcd p.1 p.2 := by
    have := (dvd_iterate hodd p (2 * n)).mp ⟨by rw [hz]; exact Nat.dvd_zero _, Nat.dvd_refl _⟩
    exact Nat.dvd_gcd this.1 this.2
  obtain ⟨k, m, hm, hg⟩ := Nat.exists_eq_two_pow_mul_odd (Nat.gcd_ne_zero_left h0 : Nat.gcd p.1 p.2 ≠ 0)
  have hmg : m ∣ Nat.gcd p.1 p.2 := by
    rw [hg]
    exact Nat.dvd_mul_left m _
  have hmsnd := ((dvd_iterate (Nat.odd_iff.mp hm) p (2 * n)).mpr
    ⟨hmg.trans (Nat.gcd_dvd_left _ _), hmg.trans (Nat.gcd_dvd_right _ _)⟩).2
  have hcop : ((next^[2 * n] p).2).Coprime (2 ^ k) := (Nat.coprime_two_right.mpr (Nat.odd_iff.mpr hodd)).pow_right k
  have heq : (next^[2 * n] p).2 = m := by
    apply Nat.dvd_antisymm _ hmsnd
    rw [hg] at hdvd
    exact hcop.dvd_of_dvd_mul_left hdvd
  exact ⟨m, k, Prod.ext hz heq, Nat.odd_iff.mp hm, hg⟩

theorem iterate_of_zero {p : Nat × Nat} (h : p.1 = 0) (k : Nat) : next^[k] p = p := by
  induction k with
  | zero => rfl
  | succ k ih => rw [Function.iterate_succ_apply', ih, next_of_zero h]

theorem gcd_reached {p : Nat × Nat} {n : Nat} (h1 : p.1 < 2 ^ n) (h2 : p.2 < 2 ^ n) (h : p.1 = 0 ∨ p.1 % 2 = 1 ∨ p.2 % 2 = 1) :
    next^[2 * n] p = (0, Nat.gcd p.1 p.2) := by
  by_cases h0 : p.1 = 0
  · rw [iterate_of_zero h0, h0, Nat.gcd_zero_left]
    exact Prod.ext h0 rfl
  · obtain ⟨g, k, heq, hodd, hg⟩ := odd_part_reached h1 h2 h0
    have hk : k = 0 := by
      by_contra hk
      obtain ⟨j, rfl⟩ := Nat.exists_eq_succ_of_ne_zero hk
      have htwo : 2 ∣ Nat.gcd p.1 p.2 := by
        rw [hg, Nat.pow_succ', Nat.mul_assoc]
        exact Nat.dvd_mul_right _ _
      have ha := htwo.trans (Nat.gcd_dvd_left _ _)
      have hb := htwo.trans (Nat.gcd_dvd_right _ _)
      omega
    rw [heq, hg, hk, Nat.pow_zero, Nat.one_mul]

/-! ## Coefficients -/

structure Bezout (p : Nat × Nat) (ac bc : Nat) (neg : Bool) : Prop where
  eq : if neg then ac * p.1 + 1 = bc * p.2 else ac * p.1 = bc * p.2 + 1
  ac_le : ac ≤ p.2
  bc_le : bc ≤ max p.1 1
  zero : p.1 = 0 → ac = 0

/-- The first coefficient made even and halved, the second along with it. -/
def halved (q : Nat × Nat) (ac bc : Nat) : Nat × Nat := ((ac + if ac % 2 = 1 then q.2 else 0) / 2, bc + if ac % 2 = 1 then q.1 else 0)

/-- The second coefficient, the subtraction undone. -/
def unsubtracted (p : Nat × Nat) (c : Nat × Nat) : Nat × Nat := (c.1, c.2 + if bothOdd p then c.1 else 0)

def undone (p : Nat × Nat) (ac bc : Nat) : Nat × Nat :=
  let c := unsubtracted p (halved (next p) ac bc)
  if swaps p then (c.2, c.1) else c

variable {p q : Nat × Nat} {ac bc : Nat} {neg : Bool}

/-- Coefficients of a pair whose first number has been doubled. -/
theorem Bezout.halved_eq (h : Bezout q ac bc neg) (hodd : q.2 % 2 = 1) :
    if neg then (halved q ac bc).1 * (2 * q.1) + 1 = (halved q ac bc).2 * q.2
    else (halved q ac bc).1 * (2 * q.1) = (halved q ac bc).2 * q.2 + 1 := by
  have heq := h.eq
  obtain ⟨t, ht⟩ : ∃ t, t = if ac % 2 = 1 then 1 else 0 := ⟨_, rfl⟩
  have hfst : (halved q ac bc).1 * 2 = ac + t * q.2 := by
    unfold halved
    by_cases ha : ac % 2 = 1
    · rw [if_pos ha] at ht ⊢
      subst ht
      show (ac + q.2) / 2 * 2 = ac + 1 * q.2
      omega
    · rw [if_neg ha] at ht ⊢
      subst ht
      show (ac + 0) / 2 * 2 = ac + 0 * q.2
      omega
  have hsnd : (halved q ac bc).2 = bc + t * q.1 := by
    unfold halved
    by_cases ha : ac % 2 = 1
    · rw [if_pos ha] at ht ⊢
      rw [ht, Nat.one_mul]
      simp [ha]
    · rw [if_neg ha] at ht ⊢
      rw [ht, Nat.zero_mul]
      simp [ha]
  have hmul : (halved q ac bc).1 * (2 * q.1) = ac * q.1 + t * q.1 * q.2 := by
    rw [← Nat.mul_assoc, hfst]
    ring
  rw [hmul, hsnd, Nat.add_mul]
  cases neg with
  | false =>
    rw [if_neg Bool.false_ne_true] at heq ⊢
    omega
  | true =>
    rw [if_pos rfl] at heq ⊢
    omega

/-- The first number 0: the second is 1, and so is its coefficient. -/
theorem Bezout.of_zero (h : Bezout q ac bc neg) (h0 : q.1 = 0) : ac = 0 ∧ bc = 1 ∧ q.2 = 1 ∧ neg = true := by
  have heq := h.eq
  rw [h0, Nat.mul_zero] at heq
  cases neg with
  | false =>
    rw [if_neg Bool.false_ne_true] at heq
    omega
  | true =>
    rw [if_pos rfl, Nat.zero_add] at heq
    exact ⟨h.zero h0, Nat.dvd_one.mp (Dvd.intro _ heq.symm), Nat.dvd_one.mp (Dvd.intro_left _ heq.symm), rfl⟩

theorem halved_zero (q : Nat × Nat) (bc : Nat) : (halved q 0 bc).1 = 0 := by simp [halved]

theorem Bezout.halved_le (h : Bezout q ac bc neg) : (halved q ac bc).1 ≤ q.2 ∧ (halved q ac bc).2 ≤ max (2 * q.1) 1 := by
  have hac := h.ac_le
  have hbc := h.bc_le
  unfold halved
  by_cases ha : ac % 2 = 1
  · have hz : q.1 ≠ 0 := by
      intro h0
      have := h.zero h0
      omega
    rw [if_pos ha, if_pos ha]
    dsimp only
    omega
  · rw [if_neg ha, if_neg ha]
    dsimp only
    omega

theorem Bezout.sorted (h : Bezout (next p) ac bc neg) (hodd : (next p).2 % 2 = 1) :
    Bezout (sorted p) (unsubtracted p (halved (next p) ac bc)).1 (unsubtracted p (halved (next p) ac bc)).2 neg := by
  have heq := h.halved_eq hodd
  obtain ⟨hac, hbc⟩ := h.halved_le
  have hfst := sorted_fst p
  have hz := h.zero
  have hzero := fun h0 => h.of_zero h0
  generalize hc : halved (next p) ac bc = c at *
  rw [next_snd] at hac heq hzero hodd
  unfold unsubtracted less at *
  by_cases hb : bothOdd p = true
  · rw [if_pos hb] at hfst ⊢
    have h1 : c.1 * (BinaryGcd.sorted p).1 = c.1 * (2 * (next p).1) + c.1 * (BinaryGcd.sorted p).2 := by rw [hfst, Nat.mul_add]
    have h2 : (c.2 + c.1) * (BinaryGcd.sorted p).2 = c.2 * (BinaryGcd.sorted p).2 + c.1 * (BinaryGcd.sorted p).2 := Nat.add_mul _ _ _
    refine ⟨?_, hac, ?_, ?_⟩
    · dsimp only
      rw [h1, h2]
      cases neg with
      | false =>
        rw [if_neg Bool.false_ne_true] at heq ⊢
        omega
      | true =>
        rw [if_pos rfl] at heq ⊢
        omega
    · dsimp only
      by_cases h0 : (next p).1 = 0
      · have hu := hzero h0
        have hc1 : c.1 = 0 := by
          rw [← hc, hu.1, halved_zero]
        omega
      · omega
    · intro h0
      dsimp only
      omega
  · rw [if_neg hb, Nat.add_zero] at hfst
    rw [if_neg hb, Nat.add_zero]
    refine ⟨?_, hac, ?_, ?_⟩
    · rw [hfst]
      exact heq
    · rw [hfst]
      exact hbc
    · intro h0
      have hq : (next p).1 = 0 := by omega
      rw [← hc, (hzero hq).1]
      exact halved_zero _ _

/-- The numbers exchanged, their coefficients exchange and the sign turns. -/
theorem Bezout.swap (h : Bezout q ac bc neg) (h1 : q.1 ≠ 0) (h2 : q.2 ≠ 0) : Bezout (q.2, q.1) bc ac (!neg) := by
  have heq := h.eq
  have hac := h.ac_le
  have hbc := h.bc_le
  refine ⟨?_, ?_, ?_, ?_⟩
  · cases neg with
    | false =>
      rw [if_neg Bool.false_ne_true] at heq
      exact heq.symm
    | true =>
      rw [if_pos rfl] at heq
      exact heq.symm
  · show bc ≤ q.1
    omega
  · show ac ≤ max q.2 1
    omega
  · intro h0
    exact absurd h0 h2

theorem Bezout.undo (h : Bezout (next p) ac bc neg) (hodd : (next p).2 % 2 = 1) (hp : p.2 ≠ 0) :
    Bezout p (undone p ac bc).1 (undone p ac bc).2 (neg ^^ swaps p) := by
  have hs := h.sorted hodd
  unfold undone
  have hback := sorted_sorted p
  by_cases hsw : swaps p = true
  · rw [if_pos hsw] at hback
    dsimp only
    rw [if_pos hsw, hsw, Bool.xor_true]
    dsimp only
    have h1 : (BinaryGcd.sorted p).1 ≠ 0 := by
      have := congrArg Prod.snd hback
      dsimp only at this
      omega
    have h2 : (BinaryGcd.sorted p).2 ≠ 0 := by
      rw [next_snd] at hodd
      omega
    have hswap := hs.swap h1 h2
    rwa [hback] at hswap
  · rw [if_neg hsw] at hback
    dsimp only
    rw [if_neg hsw, Bool.not_eq_true _ |>.mp hsw, Bool.xor_false]
    rwa [hback] at hs

/-- Numbers within the bounds that coefficients of the pair have. -/
structure Bounded (p : Nat × Nat) (ac bc : Nat) : Prop where
  ac_le : ac ≤ p.2
  bc_le : p.1 ≠ 0 → bc ≤ p.1
  zero : p.1 = 0 → ac = 0 ∧ bc = p.2

theorem Bounded.halved_le (h : Bounded q ac bc) : (halved q ac bc).1 ≤ q.2 ∧ (halved q ac bc).2 ≤ max (2 * q.1) q.2 := by
  have hac := h.ac_le
  by_cases hz : q.1 = 0
  · obtain ⟨rfl, rfl⟩ := h.zero hz
    exact ⟨by rw [halved_zero]; exact Nat.zero_le _, by simp [halved]⟩
  · have hbc := h.bc_le hz
    unfold halved
    by_cases ha : ac % 2 = 1
    · rw [if_pos ha, if_pos ha]
      dsimp only
      omega
    · rw [if_neg ha, if_neg ha]
      dsimp only
      omega

/-- The subtraction undone, where the first number is not 0. -/
theorem Bounded.unsubtracted_le (h : Bounded (next p) ac bc) (hz : (BinaryGcd.sorted p).1 ≠ 0) :
    (unsubtracted p (halved (next p) ac bc)).2 ≤ (BinaryGcd.sorted p).1 := by
  have hfst := sorted_fst p
  have hsnd := next_snd p
  unfold unsubtracted less at *
  dsimp only
  by_cases hq : (next p).1 = 0
  · obtain ⟨rfl, rfl⟩ := h.zero hq
    have hhalf : halved (next p) 0 (next p).2 = (0, (next p).2) := by simp [halved]
    rw [hhalf, ite_self, Nat.add_zero]
    dsimp only
    by_cases hb : bothOdd p = true
    · rw [if_pos hb] at hfst
      omega
    · rw [if_neg hb] at hfst
      omega
  · have hac := h.ac_le
    have hbc := h.bc_le hq
    unfold halved
    by_cases ha : ac % 2 = 1
    · rw [if_pos ha, if_pos ha]
      dsimp only
      split at hfst <;> split <;> first | omega | contradiction
    · rw [if_neg ha, if_neg ha]
      dsimp only
      split at hfst <;> split <;> first | omega | contradiction

theorem Bounded.undo (h : Bounded (next p) ac bc) (hp : p.2 ≠ 0) : Bounded p (undone p ac bc).1 (undone p ac bc).2 := by
  by_cases hz : p.1 = 0
  · rw [next_of_zero hz] at h
    obtain ⟨rfl, rfl⟩ := h.zero hz
    have hb : ¬bothOdd p = true := fun hb => by
      have := (of_decide_eq_true hb).1
      omega
    have hs : ¬swaps p = true := by
      unfold swaps
      rw [if_neg hb, hz]
      decide
    have hsame : undone p 0 p.2 = (0, p.2) := by simp [undone, unsubtracted, halved, hb, hs]
    rw [hsame]
    exact h
  · have hback := sorted_sorted p
    have hfst : (halved (next p) ac bc).1 ≤ (BinaryGcd.sorted p).2 := h.halved_le.1
    unfold undone
    dsimp only
    by_cases hs : swaps p = true
    · rw [if_pos hs] at hback
      have h1 : (BinaryGcd.sorted p).2 = p.1 := congrArg Prod.fst hback
      have h2 : (BinaryGcd.sorted p).1 = p.2 := congrArg Prod.snd hback
      have hsnd := h.unsubtracted_le (by rw [h2]; exact hp)
      rw [if_pos hs]
      exact ⟨h2 ▸ hsnd, fun _ => h1 ▸ hfst, fun h0 => absurd h0 hz⟩
    · rw [if_neg hs] at hback
      have hsnd := h.unsubtracted_le (by rw [hback]; exact hz)
      rw [hback] at hfst hsnd
      rw [if_neg hs]
      exact ⟨hfst, fun _ => hsnd, fun h0 => absurd h0 hz⟩

/-- The coefficients of a pair, and their sign, from those of the pair `k` steps on. -/
def unwound (p : Nat × Nat) : Nat → (Nat × Nat) × Bool → (Nat × Nat) × Bool
  | 0, c => c
  | k + 1, c => unwound p k (undone (next^[k] p) c.1.1 c.1.2, c.2 ^^ swaps (next^[k] p))

theorem Bezout.unwound (hodd : p.1 % 2 = 1 ∨ p.2 % 2 = 1) (hp : p.2 ≠ 0) {k : Nat} {c : (Nat × Nat) × Bool}
    (h : Bezout (next^[k] p) c.1.1 c.1.2 c.2) :
    Bezout p (BinaryGcd.unwound p k c).1.1 (BinaryGcd.unwound p k c).1.2 (BinaryGcd.unwound p k c).2 := by
  induction k generalizing c with
  | zero => exact h
  | succ k ih =>
    rw [Function.iterate_succ_apply'] at h
    exact ih (h.undo (next_snd_odd (iterate_odd hodd k)) (iterate_snd_pos hp k))

/-- Within the bounds all the way. -/
theorem Bounded.unwound (hp : p.2 ≠ 0) {k : Nat} {c : (Nat × Nat) × Bool} (h : Bounded (next^[k] p) c.1.1 c.1.2) :
    Bounded p (BinaryGcd.unwound p k c).1.1 (BinaryGcd.unwound p k c).1.2 := by
  induction k generalizing c with
  | zero => exact h
  | succ k ih =>
    rw [Function.iterate_succ_apply'] at h
    exact ih (h.undo (iterate_snd_pos hp k))

/-- Steps after the first number is 0 change nothing. -/
theorem unwound_of_zero {k j g : Nat} {neg : Bool} (h : next^[k] p = (0, g)) :
    unwound p (k + j) ((0, g), neg) = unwound p k ((0, g), neg) := by
  induction j with
  | zero => rfl
  | succ j ih =>
    have hlater : next^[k + j] p = (0, g) := by rw [Nat.add_comm, Function.iterate_add_apply, h, iterate_of_zero rfl]
    have hb : bothOdd (0, g) = false := by simp [bothOdd]
    have hs : swaps (0, g) = false := by simp [swaps, hb]
    have hsame : undone (0, g) 0 g = (0, g) := by simp [undone, unsubtracted, halved, hb, hs]
    show unwound p (k + j) (undone (next^[k + j] p) 0 g, neg ^^ swaps (next^[k + j] p)) = _
    rw [hlater, hsame, hs, Bool.xor_false, ih]

/-- However many steps, as long as the first number gets to 0. -/
theorem unwound_steps {k k' g g' : Nat} (h : next^[k] p = (0, g)) (h' : next^[k'] p = (0, g')) :
    g = g' ∧ ∀ neg, unwound p k ((0, g), neg) = unwound p k' ((0, g'), neg) := by
  have hmore : ∀ {k j g g'}, next^[k] p = (0, g) → next^[k + j] p = (0, g') → g = g' := by
    intro k j g g' h h'
    rw [Nat.add_comm, Function.iterate_add_apply, h, iterate_of_zero rfl] at h'
    exact congrArg Prod.snd h'
  rcases Nat.le_total k k' with hle | hle
  · obtain ⟨j, rfl⟩ := Nat.exists_eq_add_of_le hle
    obtain rfl := hmore h h'
    exact ⟨rfl, fun neg => (unwound_of_zero h).symm⟩
  · obtain ⟨j, rfl⟩ := Nat.exists_eq_add_of_le hle
    obtain rfl := hmore h' h
    exact ⟨rfl, fun neg => unwound_of_zero h'⟩

/-- The end of the pass: coefficients of (0, 1). -/
theorem bezout_end : Bezout (0, 1) 0 1 true := ⟨rfl, Nat.zero_le _, Nat.le_refl _, fun _ => rfl⟩

/-- Coefficients of the whole pair, the sign made positive. -/
theorem Bezout.positive {a b : Nat} (h : Bezout (a, b) ac bc neg) (ha : 1 ≤ a) (hb : 2 ≤ b) :
    (if neg then b - ac else ac) * a = (if neg then a - bc else bc) * b + 1 ∧
      (if neg then b - ac else ac) < b ∧ (if neg then a - bc else bc) < a := by
  have heq := h.eq
  have hac := h.ac_le
  have hbc := h.bc_le
  dsimp only at heq hac hbc
  have hbc' : bc ≤ a := by omega
  cases neg with
  | false =>
    rw [if_neg Bool.false_ne_true] at heq ⊢
    rw [if_neg Bool.false_ne_true]
    refine ⟨heq, ?_, ?_⟩
    · apply Nat.lt_of_le_of_ne hac
      intro he
      have hdvd : b ∣ 1 := (Nat.dvd_add_right (Nat.dvd_mul_left b bc)).mp (heq ▸ he ▸ Nat.dvd_mul_right ac a)
      have := Nat.le_of_dvd Nat.one_pos hdvd
      omega
    · apply Nat.lt_of_le_of_ne hbc'
      intro he
      rw [he, Nat.mul_comm] at heq
      have := Nat.mul_le_mul_left a hac
      omega
  | true =>
    rw [if_pos rfl] at heq ⊢
    rw [if_pos rfl]
    have hle1 := Nat.mul_le_mul_right a hac
    have hle2 := Nat.mul_le_mul_right b hbc'
    have hac0 : ac ≠ 0 := by
      intro h0
      rw [h0, Nat.zero_mul, Nat.zero_add] at heq
      have := Nat.dvd_one.mp (Dvd.intro_left _ heq.symm)
      omega
    have hbc0 : bc ≠ 0 := by
      intro h0
      rw [h0, Nat.zero_mul] at heq
      omega
    refine ⟨?_, by omega, by omega⟩
    rw [Nat.sub_mul, Nat.sub_mul, Nat.mul_comm b a]
    rw [Nat.mul_comm b a] at hle1
    omega

end Putty.Lib.BinaryGcd
