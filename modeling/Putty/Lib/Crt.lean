/-
  Putty.Lib.Crt — powers modulo a product of two primes, put together from powers modulo
  each of them.

  An exponent that is no multiple of p - 1 can be reduced modulo p - 1, also for a base that
  p divides (`pow_reduced`). Two residues are put together with the inverse of one modulus
  (`garner`).
-/

import Mathlib.FieldTheory.Finite.Basic
import Mathlib.Data.Nat.ChineseRemainder

namespace Putty.Lib

/-- Fermat's theorem with the base and the exponent reduced. -/
theorem pow_reduced {p : Nat} (hp : p.Prime) (a : Nat) {d : Nat} (hd : d % (p - 1) ≠ 0) :
    (a % p) ^ (d % (p - 1)) ≡ a ^ d [MOD p] := by
  refine (Nat.ModEq.pow _ (Nat.mod_modEq a p)).trans ?_
  by_cases hdvd : p ∣ a
  · have hzero : ∀ {n : Nat}, n ≠ 0 → a ^ n ≡ 0 [MOD p] := fun hn =>
      (Nat.modEq_zero_iff_dvd).mpr (dvd_pow hdvd hn)
    have hd0 : d ≠ 0 := fun h => hd (by rw [h, Nat.zero_mod])
    exact (hzero hd).trans (hzero hd0).symm
  · have hone : a ^ (p - 1) ≡ 1 [MOD p] := by
      rw [← Nat.totient_prime hp]
      exact Nat.ModEq.pow_totient (Nat.coprime_comm.mp ((Nat.Prime.coprime_iff_not_dvd hp).mpr hdvd))
    calc a ^ (d % (p - 1)) ≡ 1 ^ (d / (p - 1)) * a ^ (d % (p - 1)) [MOD p] := by rw [one_pow, one_mul]
      _ ≡ (a ^ (p - 1)) ^ (d / (p - 1)) * a ^ (d % (p - 1)) [MOD p] := (hone.symm.pow _).mul_right _
      _ ≡ a ^ d [MOD p] := by rw [← pow_mul, ← pow_add, Nat.div_add_mod]

/-- A number that is `x` modulo p and `y` modulo q, from what is missing between the two. -/
theorem garner {p q i x y z diff : Nat} (hpq : Nat.Coprime p q) (hi : i * q ≡ 1 [MOD p]) (hdiff : diff + y ≡ x [MOD p])
    (hx : z ≡ x [MOD p]) (hy : z ≡ y [MOD q]) : i * q * diff + y ≡ z [MOD p * q] := by
  refine (Nat.modEq_and_modEq_iff_modEq_mul hpq).mp ⟨?_, ?_⟩
  · calc i * q * diff + y ≡ 1 * diff + y [MOD p] := (hi.mul_right diff).add_right y
      _ ≡ x [MOD p] := by rw [one_mul]; exact hdiff
      _ ≡ z [MOD p] := hx.symm
  · have hmul : i * q * diff ≡ 0 [MOD q] := (Nat.modEq_zero_iff_dvd).mpr ⟨i * diff, by ring⟩
    calc i * q * diff + y ≡ 0 + y [MOD q] := hmul.add_right y
      _ ≡ z [MOD q] := by rw [zero_add]; exact hy.symm

/-- Raising to e and then to d gives back the number. -/
theorem pow_pow_inverse {p q e d x : Nat} (hp : p.Prime) (hq : q.Prime) (hne : p ≠ q)
    (hedp : e * d % (p - 1) = 1) (hedq : e * d % (q - 1) = 1) : (x ^ e) ^ d ≡ x [MOD p * q] := by
  have hone {r : Nat} (hr : r.Prime) (hed : e * d % (r - 1) = 1) : (x ^ e) ^ d ≡ x [MOD r] := by
    have h := pow_reduced hr x (d := e * d) (by rw [hed]; exact one_ne_zero)
    rw [hed, pow_one, pow_mul] at h
    exact h.symm.trans (Nat.mod_modEq x r)
  exact (Nat.modEq_and_modEq_iff_modEq_mul ((Nat.coprime_primes hp hq).mpr hne)).mp ⟨hone hp hedp, hone hq hedq⟩

end Putty.Lib
