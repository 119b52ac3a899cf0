/-
  Putty.Lib.Canonical — canonical prefix codes handed out from counts alone.

  `start k m` is the first code of length `m` when `k n` codes of each length `n` are
  handed out in order, the next length starting at twice what is free. Nothing asks the
  counts to fit: there may be too few codes or too many. A code is sent from its highest
  bit, so it is stored with its bits turned round (`mirror`).

  Proved: a code longer than `n` bits shares its first `n` bits with a code, also longer
  than `n`, that has only zeros after them (`padded_code`). A table that is looked up with
  zeros in the place of bits not yet read can therefore tell that bits are missing. Where the
  lengths of a list satisfy Kraft's inequality, the codes of a length fit it (`fits`), and no
  code begins another (`later_codes`, `mirror_injective`).
-/

import Mathlib.Data.Nat.Basic
import Mathlib.Tactic.Ring

namespace Putty.Lib.Canonical

variable {k : Nat → Nat}

def start (k : Nat → Nat) : Nat → Nat
  | 0 => 0
  | 1 => 0
  | n + 2 => 2 * (start k (n + 1) + k (n + 1))

theorem start_succ {n : Nat} (hn : 0 < n) : start k (n + 1) = 2 * (start k n + k n) := by
  cases n with
  | zero => omega
  | succ n => rfl

theorem start_even (n : Nat) : ∃ h, start k (n + 1) = 2 * h := by
  cases n with
  | zero => exact ⟨0, rfl⟩
  | succ n => exact ⟨_, rfl⟩

/-- `q` followed by `l - n` bits lies between the first code of length `l` and the end of
    that length's codes: then `q` and some zeros are a code. -/
theorem padded_code {n l q : Nat} (hn : n < l) (hlo : start k l < (q + 1) * 2 ^ (l - n))
    (hhi : q * 2 ^ (l - n) < start k l + k l) :
    ∃ m, n < m ∧ m ≤ l ∧ start k m ≤ q * 2 ^ (m - n) ∧ q * 2 ^ (m - n) < start k m + k m := by
  induction l with
  | zero => omega
  | succ l ih =>
    by_cases hge : start k (l + 1) ≤ q * 2 ^ (l + 1 - n)
    · exact ⟨l + 1, hn, Nat.le_refl _, hge, hhi⟩
    · rw [Nat.not_le] at hge
      by_cases hl : n = l
      · -- an even number strictly between 2q and 2q + 2
        subst hl
        obtain ⟨h, he⟩ := start_even (k := k) n
        rw [show n + 1 - n = 1 by omega] at hge hlo
        omega
      · have hs : start k (l + 1) = 2 * (start k l + k l) := start_succ (by omega)
        have hp : 2 ^ (l + 1 - n) = 2 * 2 ^ (l - n) := by
          rw [show l + 1 - n = (l - n) + 1 by omega, Nat.pow_succ, Nat.mul_comm]
        have h1 : q * 2 ^ (l + 1 - n) = 2 * (q * 2 ^ (l - n)) := by rw [hp]; ring
        have h2 : (q + 1) * 2 ^ (l + 1 - n) = 2 * ((q + 1) * 2 ^ (l - n)) := by rw [hp]; ring
        obtain ⟨m, h3, h4, h5⟩ := ih (by omega) (by omega) (by omega)
        exact ⟨m, h3, Nat.le_succ_of_le h4, h5⟩

/-! ## Codes turned round -/

/-- The low `n` bits of `c`, the highest of them first. -/
def mirror : Nat → Nat → Nat
  | 0, _ => 0
  | n + 1, c => c % 2 * 2 ^ n + mirror n (c / 2)

theorem mirror_lt (n c : Nat) : mirror n c < 2 ^ n := by
  induction n generalizing c with
  | zero => exact Nat.one_pos
  | succ n ih =>
    have := ih (c / 2)
    have hb : c % 2 * 2 ^ n ≤ 1 * 2 ^ n := Nat.mul_le_mul_right _ (by omega)
    rw [mirror, Nat.pow_succ]
    omega

theorem mirror_mod {n m : Nat} (h : n ≤ m) (c : Nat) : mirror m c % 2 ^ n = mirror n (c / 2 ^ (m - n)) := by
  induction m generalizing c with
  | zero =>
    obtain rfl : n = 0 := by omega
    rfl
  | succ m ih =>
    by_cases hm : n = m + 1
    · subst hm
      rw [Nat.sub_self, Nat.pow_zero, Nat.div_one]
      exact Nat.mod_eq_of_lt (mirror_lt _ _)
    · have hd : 2 ^ m = 2 ^ n * 2 ^ (m - n) := by rw [← Nat.pow_add]; congr 1; omega
      have hz : c % 2 * 2 ^ m = 2 ^ n * (c % 2 * 2 ^ (m - n)) := by rw [hd]; ring
      rw [mirror, hz, Nat.mul_add_mod, ih (by omega), Nat.div_div_eq_div_mul,
        show m + 1 - n = (m - n) + 1 by omega, Nat.pow_succ, Nat.mul_comm 2]

theorem mirror_padded {n m : Nat} (h : n ≤ m) (q : Nat) : mirror m (q * 2 ^ (m - n)) = mirror n q := by
  induction m with
  | zero =>
    obtain rfl : n = 0 := by omega
    rfl
  | succ m ih =>
    by_cases hm : n = m + 1
    · subst hm
      rw [Nat.sub_self, Nat.pow_zero, Nat.mul_one]
    · have hd : q * 2 ^ (m + 1 - n) = 2 * (q * 2 ^ (m - n)) := by
        rw [show m + 1 - n = (m - n) + 1 by omega, Nat.pow_succ]; ring
      rw [mirror, hd, Nat.mul_mod_right, Nat.mul_div_cancel_left _ (by omega), Nat.zero_mul, Nat.zero_add, ih (by omega)]

theorem mirror_injective {n c d : Nat} (hc : c < 2 ^ n) (hd : d < 2 ^ n) (h : mirror n c = mirror n d) : c = d := by
  induction n generalizing c d with
  | zero => omega
  | succ n ih =>
    rw [Nat.pow_succ] at hc hd
    have h1 := mirror_lt n (c / 2)
    have h2 := mirror_lt n (d / 2)
    rw [mirror, mirror] at h
    have hbit : c % 2 = d % 2 := by
      rcases Nat.mod_two_eq_zero_or_one c with hc2 | hc2 <;> rcases Nat.mod_two_eq_zero_or_one d with hd2 | hd2 <;>
        rw [hc2, hd2] at h <;> omega
    rw [hbit] at h
    have := ih (by omega) (by omega) (Nat.add_left_cancel h)
    omega

/-! ## Lengths that fit -/

/-- The codes of a longer length come after all that those of a shorter one begin. -/
theorem later_codes {n m : Nat} (hn : 0 < n) (hm : n < m) : (start k n + k n) * 2 ^ (m - n) ≤ start k m := by
  induction m with
  | zero => omega
  | succ m ih =>
    rw [start_succ (by omega)]
    rcases Nat.lt_succ_iff_lt_or_eq.mp hm with hlt | rfl
    · have := ih hlt
      have hp : 2 ^ (m + 1 - n) = 2 * 2 ^ (m - n) := by
        rw [show m + 1 - n = (m - n) + 1 by omega, Nat.pow_succ, Nat.mul_comm]
      have he : (start k n + k n) * 2 ^ (m + 1 - n) = 2 * ((start k n + k n) * 2 ^ (m - n)) := by rw [hp]; ring
      omega
    · rw [show n + 1 - n = 1 by omega, Nat.pow_one, Nat.mul_comm]

section Kraft

variable {N n : Nat} {lengths : List Nat}

/-- How much of the codes of length `N` the lengths take up; a length 0 is no code. -/
def kraft (N : Nat) (lengths : List Nat) : Nat := (lengths.map fun l => if l = 0 then 0 else 2 ^ (N - l)).sum

/-- The part of the lengths up to `n`. -/
def kraftTo (N n : Nat) (lengths : List Nat) : Nat := (lengths.map fun l => if l = 0 ∨ n < l then 0 else 2 ^ (N - l)).sum

theorem kraftTo_le : kraftTo N n lengths ≤ kraft N lengths := by
  unfold kraftTo kraft
  induction lengths with
  | nil => exact Nat.le_refl _
  | cons l lengths ih =>
    rw [List.map_cons, List.map_cons, List.sum_cons, List.sum_cons]
    refine Nat.add_le_add ?_ ih
    by_cases h0 : l = 0
    · simp [h0]
    · by_cases hn : n < l <;> simp [h0, hn]

theorem kraftTo_zero : kraftTo N 0 lengths = 0 := by
  unfold kraftTo
  induction lengths with
  | nil => rfl
  | cons l lengths ih =>
    rw [List.map_cons, List.sum_cons, ih, if_pos (Nat.eq_zero_or_pos l)]

theorem kraftTo_succ : kraftTo N (n + 1) lengths = kraftTo N n lengths + lengths.count (n + 1) * 2 ^ (N - (n + 1)) := by
  unfold kraftTo
  induction lengths with
  | nil => simp
  | cons l lengths ih =>
    rw [List.map_cons, List.map_cons, List.sum_cons, List.sum_cons, ih, List.count_cons]
    by_cases hl : l = n + 1
    · subst hl
      rw [if_neg (by omega), if_pos (by omega), if_pos (by simp)]
      ring
    · rw [if_neg (show ¬(l == n + 1) = true by simpa using hl), Nat.add_zero, Nat.add_assoc]
      congr 1
      by_cases h0 : l = 0 ∨ n < l
      · rw [if_pos h0, if_pos (by omega)]
      · rw [if_neg h0, if_neg (by omega)]

theorem start_kraftTo (hn : 0 < n) (hN : n ≤ N) :
    (start (lengths.count ·) n + lengths.count n) * 2 ^ (N - n) = kraftTo N n lengths := by
  induction n with
  | zero => omega
  | succ n ih =>
    rw [kraftTo_succ]
    rcases Nat.eq_zero_or_pos n with rfl | hpos
    · rw [kraftTo_zero, Nat.zero_add]
      show (0 + _) * _ = _
      rw [Nat.zero_add, Nat.zero_add]
    · have hp : 2 ^ (N - n) = 2 * 2 ^ (N - (n + 1)) := by
        rw [show N - n = (N - (n + 1)) + 1 by omega, Nat.pow_succ, Nat.mul_comm]
      rw [← ih hpos (by omega), start_succ hpos, hp]
      ring

/-- Kraft's inequality leaves room for the codes of each length. -/
theorem fits (h : kraft N lengths ≤ 2 ^ N) (hn : 0 < n) (hN : n ≤ N) :
    start (lengths.count ·) n + lengths.count n ≤ 2 ^ n := by
  have hle : kraftTo N n lengths ≤ 2 ^ N := kraftTo_le.trans h
  rw [← start_kraftTo hn hN, show 2 ^ N = 2 ^ n * 2 ^ (N - n) by rw [← Nat.pow_add]; congr 1; omega] at hle
  exact Nat.le_of_mul_le_mul_right hle (Nat.two_pow_pos _)

end Kraft

end Putty.Lib.Canonical
