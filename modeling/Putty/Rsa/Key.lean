/-
  Putty.Rsa.Key — RSA keys and their private operation (`sshrsa.c`, rsa_verify and
  crt_modpow), on the words of the numbers.

  Verification checks the relation of the private to the public numbers, puts the primes in
  order and computes the inverse of the smaller one afresh. The private operation raises to
  a power modulo each prime and puts the two results together. `none` is a failed assertion.

  Division and modular powers are those of any `Modular`: what `mpint.h` says of mp_mod and
  mp_modpow. Proved (`crt_modpow_direct`): for a key with two distinct odd primes, in
  either order, the private operation is the power modulo the product, for every number.
-/

import Putty.Lib.Crt
import Putty.Mpint.Integers
import Putty.Mpint.Mul
import Putty.Mpint.Bezout
import Putty.Mpint.Wire

namespace Putty.Rsa

open Putty.Lib
open Putty.Lib.Limbs
open Putty.Mpint

variable {W : Nat}

structure RSAKey (W : Nat) where
  bits : Nat
  bytes : Nat
  modulus : Limbs W
  exponent : Limbs W
  privateExponent : Limbs W
  p : Limbs W
  q : Limbs W
  iqmp : Limbs W
  comment : Option (List UInt8)

/-- mp_mod and mp_modpow; the result has the width of the modulus. -/
structure Modular (W : Nat) where
  mod : Limbs W → Limbs W → Option (Limbs W)
  modpow : Limbs W → Limbs W → Limbs W → Option (Limbs W)
  mod_spec : ∀ x modulus, val modulus ≠ 0 → mod x modulus = some (ofNat W modulus.length (val x % val modulus))
  modpow_spec : ∀ base exponent modulus, val modulus % 2 = 1 →
    modpow base exponent modulus = some (ofNat W modulus.length (val base ^ val exponent % val modulus))

def mpSub (x y : Limbs W) : Limbs W := mpSubInto (max x.length y.length) x y

def mpMin (x y : Limbs W) : Limbs W := mpSelectInto (min x.length y.length) x y (mpCmpHs x y)

def mpMax (x y : Limbs W) : Limbs W := mpSelectInto (max x.length y.length) y x (mpCmpHs x y)

section Operations

variable (m : Modular W)

def mpModmul (x y modulus : Limbs W) : Option (Limbs W) := (mpMul x y).bind fun product => m.mod product modulus

def crtModpow (base exp mod p q iqmp : Limbs W) : Option (Limbs W) := do
  let pm1 := mpSubIntegerInto p.length p 1
  let qm1 := mpSubIntegerInto q.length q 1
  let pexp ← m.mod exp pm1
  let qexp ← m.mod exp qm1
  let baseModP ← m.mod base p
  let presult ← m.modpow baseModP pexp p
  let baseModQ ← m.mod base q
  let qresult ← m.modpow baseModQ qexp q
  let presultTooSmall := mpCmpHs qresult presult
  let presult := mpCondAddInto presult.length presult p presultTooSmall
  let diff := mpSub presult qresult
  let multiplier ← mpMul iqmp q
  let ret0 ← mpMul multiplier diff
  let ret0 := mpAddInto ret0.length ret0 qresult
  m.mod ret0 mod

def rsaPrivkeyOp (input : Limbs W) (key : RSAKey W) : Option (Limbs W) :=
  crtModpow m input key.privateExponent key.modulus key.p key.q key.iqmp

/-- rsa_verify: whether the key is accepted, and what becomes of it. -/
def rsaVerify (key : RSAKey W) : Option (Bool × RSAKey W) :=
  if !(mpHsInteger key.p 2 && mpHsInteger key.q 2) then some (false, key)
  else do
    let n ← mpMul key.p key.q
    let ok := mpCmpEq n key.modulus
    let pm1 := mpSubIntegerInto key.p.length key.p 1
    let ed ← mpModmul m key.exponent key.privateExponent pm1
    let ok := ok && mpEqInteger ed 1
    let qm1 := mpSubIntegerInto key.q.length key.q 1
    let ed ← mpModmul m key.exponent key.privateExponent qm1
    let ok := ok && mpEqInteger ed 1
    let pNew := mpMax key.p key.q
    let qNew := mpMin key.p key.q
    let iqmp ← mpInvert qNew pNew
    some (ok, { key with p := pNew, q := qNew, iqmp })

end Operations

/-! ## The numbers of an accepted key -/

theorem length_pos_of_val {x : Limbs W} (h : val x ≠ 0) : 0 < x.length :=
  List.length_pos_iff.mpr fun hx => h (by rw [hx, val_nil])

theorem val_one (h : Supported W) {x : Limbs W} (hx : val x ≠ 0) : (1 : BitVec 64).toNat % (2 ^ W) ^ x.length = 1 := by
  refine Nat.mod_eq_of_lt (Nat.lt_of_lt_of_le ?_ (Nat.pow_le_pow_right (Nat.two_pow_pos W) (length_pos_of_val hx)))
  rw [Nat.pow_one]
  exact lt_of_lt_of_le (by decide) (le_of_lt (lt_trans (by decide : 9 < 10) h.ten_lt))

/-- A prime less one. -/
theorem val_pred (h : Supported W) {x : Limbs W} (hx : val x ≠ 0) : val (mpSubIntegerInto x.length x 1) = val x - 1 := by
  have hone : (1 : BitVec 64).toNat < 2 ^ W := lt_trans (by decide : 1 < 10) h.ten_lt
  rw [(integer_sums h x (Or.inl hone)).2, val_mpSubInto (by rw [val_mpFromInteger h]; exact Nat.one_le_iff_ne_zero.mpr hx),
    val_mpFromInteger h]
  exact Nat.mod_eq_of_lt (lt_of_le_of_lt (Nat.sub_le _ _) (val_lt x))

theorem val_mpMax (x y : Limbs W) : val (mpMax x y) = max (val x) (val y) := by
  have hx := lt_of_lt_of_le (val_lt x) (Nat.pow_le_pow_right (Nat.two_pow_pos W) (Nat.le_max_left x.length y.length))
  have hy := lt_of_lt_of_le (val_lt y) (Nat.pow_le_pow_right (Nat.two_pow_pos W) (Nat.le_max_right x.length y.length))
  rw [mpMax, val_mpSelectInto, mpCmpHs_eq]
  by_cases hle : val y ≤ val x
  · rw [decide_eq_true hle, if_pos rfl, Nat.mod_eq_of_lt hx, Nat.max_eq_left hle]
  · rw [decide_eq_false hle, if_neg (by simp), Nat.mod_eq_of_lt hy, Nat.max_eq_right (by omega)]

theorem val_mpMin (x y : Limbs W) : val (mpMin x y) = min (val x) (val y) := by
  have hmin : min (val x) (val y) < (2 ^ W) ^ min x.length y.length := by
    rcases Nat.le_total x.length y.length with hle | hle
    · rw [Nat.min_eq_left hle]
      exact lt_of_le_of_lt (Nat.min_le_left _ _) (val_lt x)
    · rw [Nat.min_eq_right hle]
      exact lt_of_le_of_lt (Nat.min_le_right _ _) (val_lt y)
  rw [mpMin, val_mpSelectInto, mpCmpHs_eq]
  by_cases hle : val y ≤ val x
  · rw [Nat.min_eq_right hle] at hmin ⊢
    rw [decide_eq_true hle, if_pos rfl, Nat.mod_eq_of_lt hmin]
  · rw [Nat.min_eq_left (Nat.le_of_not_le hle)] at hmin ⊢
    rw [decide_eq_false hle, if_neg (by simp), Nat.mod_eq_of_lt hmin]

theorem val_ofNat_lt {n v : Nat} (h : v < (2 ^ W) ^ n) : val (ofNat W n v) = v := by rw [val_ofNat, Nat.mod_eq_of_lt h]

theorem val_ofNat_mod {x : Limbs W} (hx : val x ≠ 0) (v : Nat) : val (ofNat W x.length (v % val x)) = v % val x :=
  val_ofNat_lt (lt_trans (Nat.mod_lt _ (Nat.pos_of_ne_zero hx)) (val_lt x))

theorem mpMul_eq (x y : Limbs W) : mpMul x y = some (ofNat W (x.length + y.length) (val x * val y)) := mpMulInto_eq _ x y

theorem val_product (x y : Limbs W) : val (ofNat W (x.length + y.length) (val x * val y)) = val x * val y := by
  refine val_ofNat_lt ?_
  rw [Nat.pow_add]
  exact Nat.mul_lt_mul'' (val_lt x) (val_lt y)

/-- A key whose private operation is that of its public one: the numbers that verification
    leaves. -/
structure KeyPair (key : RSAKey W) : Prop where
  pPrime : (val key.p).Prime
  qPrime : (val key.q).Prime
  pOdd : val key.p % 2 = 1
  qOdd : val key.q % 2 = 1
  lt : val key.q < val key.p
  width : key.q.length ≤ key.p.length
  modulus : val key.modulus = val key.p * val key.q
  invertP : val key.exponent * val key.privateExponent % (val key.p - 1) = 1
  invertQ : val key.exponent * val key.privateExponent % (val key.q - 1) = 1
  iqmp : val key.iqmp * val key.q ≡ 1 [MOD val key.p]

section Accepted

variable {m : Modular W}

theorem mpModmul_eq (x y : Limbs W) {modulus : Limbs W} (h : val modulus ≠ 0) :
    mpModmul m x y modulus = some (ofNat W modulus.length (val x * val y % val modulus)) := by
  rw [mpModmul, mpMul_eq, Option.bind_some, m.mod_spec _ _ h, val_product]

/-- What verification comes to, once the primes are at least 2. -/
theorem rsaVerify_eq (h : Supported W) {key : RSAKey W} (hp : 2 ≤ val key.p) (hq : 2 ≤ val key.q) :
    rsaVerify m key = (mpInvert (mpMin key.p key.q) (mpMax key.p key.q)).map fun iqmp =>
      (decide (val key.p * val key.q = val key.modulus ∧ val key.exponent * val key.privateExponent % (val key.p - 1) = 1 ∧
        val key.exponent * val key.privateExponent % (val key.q - 1) = 1),
        { key with p := mpMax key.p key.q, q := mpMin key.p key.q, iqmp }) := by
  have hW2 : 2 ≤ W := by rcases h with rfl | rfl | rfl <;> decide
  have htwo : ∀ {x : Limbs W}, 2 ≤ val x → mpHsInteger x 2 = true := by
    intro x hx
    rw [mpHsInteger_eq, decide_eq_true_eq]
    exact Nat.le_trans (Nat.mod_le _ _) hx
  have hpm1 := val_pred h (show val key.p ≠ 0 by omega)
  have hqm1 := val_pred h (show val key.q ≠ 0 by omega)
  have hp1 : val (mpSubIntegerInto key.p.length key.p 1) ≠ 0 := by omega
  have hq1 : val (mpSubIntegerInto key.q.length key.q 1) ≠ 0 := by omega
  have hone {x : Limbs W} (hx : val x ≠ 0) (v : Nat) : mpEqInteger (ofNat W x.length (v % val x)) 1 = decide (v % val x = 1) := by
    rw [mpEqInteger_eq hW2, val_ofNat_mod hx, length_ofNat, val_one h hx]
  unfold rsaVerify
  rw [htwo hp, htwo hq, if_neg (by decide), mpMul_eq, Option.bind_eq_bind, Option.bind_some]
  dsimp only
  rw [mpModmul_eq _ _ hp1, mpModmul_eq _ _ hq1, mpCmpEq_eq hW2, val_product]
  simp only [Option.bind_some, Option.map_eq_bind, hone hp1, hone hq1]
  simp only [hpm1, hqm1, Bool.decide_and, Bool.and_assoc]
  rfl

theorem rsaVerify_accepts (h : Supported W) {key key' : RSAKey W} (hp : (val key.p).Prime) (hq : (val key.q).Prime)
    (hpodd : val key.p % 2 = 1) (hqodd : val key.q % 2 = 1) (hne : val key.p ≠ val key.q)
    (haccept : rsaVerify m key = some (true, key')) :
    KeyPair key' ∧ key'.privateExponent = key.privateExponent ∧ key'.modulus = key.modulus ∧ key'.exponent = key.exponent := by
  have hp2 := hp.two_le
  have hq2 := hq.two_le
  have hW2 : 2 ≤ W := by rcases h with rfl | rfl | rfl <;> decide
  have hcop : Nat.Coprime (val (mpMin key.p key.q)) (val (mpMax key.p key.q)) := by
    rw [val_mpMin, val_mpMax]
    rcases Nat.lt_or_gt_of_ne hne with hlt | hlt
    · rw [Nat.min_eq_left hlt.le, Nat.max_eq_right hlt.le]
      exact (Nat.coprime_primes hp hq).mpr hne
    · rw [Nat.min_eq_right hlt.le, Nat.max_eq_left hlt.le]
      exact (Nat.coprime_primes hq hp).mpr hne.symm
  obtain ⟨r, hinvert, -, hr, -⟩ := mpInvert_coprime hW2 hcop (by rw [val_mpMax]; omega)
  rw [rsaVerify_eq h hp2 hq2, hinvert, Option.map_some, Option.some.injEq, Prod.mk.injEq, decide_eq_true_eq] at haccept
  obtain ⟨⟨hn, hedp, hedq⟩, rfl⟩ := haccept
  refine ⟨?_, rfl, rfl, rfl⟩
  have hwidth : (mpMin key.p key.q).length ≤ (mpMax key.p key.q).length := by
    rw [mpMin, mpMax, length_mpSelectInto, length_mpSelectInto]
    omega
  have hmax := val_mpMax key.p key.q
  have hmin := val_mpMin key.p key.q
  rcases Nat.lt_or_gt_of_ne hne with hlt | hlt
  · rw [Nat.max_eq_right hlt.le] at hmax
    rw [Nat.min_eq_left hlt.le] at hmin
    refine ⟨hmax ▸ hq, hmin ▸ hp, hmax ▸ hqodd, hmin ▸ hpodd, ?_, hwidth, ?_, hmax ▸ hedq, hmin ▸ hedp, hr⟩
    · show val (mpMin key.p key.q) < val (mpMax key.p key.q)
      rwa [hmin, hmax]
    · show val key.modulus = val (mpMax key.p key.q) * val (mpMin key.p key.q)
      rw [hmin, hmax, Nat.mul_comm, hn]
  · rw [Nat.max_eq_left hlt.le] at hmax
    rw [Nat.min_eq_right hlt.le] at hmin
    refine ⟨hmax ▸ hp, hmin ▸ hq, hmax ▸ hpodd, hmin ▸ hqodd, ?_, hwidth, ?_, hmax ▸ hedp, hmin ▸ hedq, hr⟩
    · show val (mpMin key.p key.q) < val (mpMax key.p key.q)
      rwa [hmin, hmax]
    · show val key.modulus = val (mpMax key.p key.q) * val (mpMin key.p key.q)
      rw [hmin, hmax, hn]

/-- The numbers that verification looks at, in two keys: the primes in any order. -/
structure SameNumbers (a b : RSAKey W) : Prop where
  modulus : val a.modulus = val b.modulus
  exponent : val a.exponent = val b.exponent
  privateExponent : val a.privateExponent = val b.privateExponent
  larger : max (val a.p) (val a.q) = max (val b.p) (val b.q)
  smaller : min (val a.p) (val a.q) = min (val b.p) (val b.q)

theorem accepted_primes {key key' : RSAKey W} (h : Supported W) (hp : key.p ≠ []) (hq : key.q ≠ [])
    (haccept : rsaVerify m key = some (true, key')) : 2 ≤ val key.p ∧ 2 ≤ val key.q := by
  have htwo : ∀ {x : Limbs W}, x ≠ [] → mpHsInteger x 2 = true → 2 ≤ val x := by
    intro x hx hs
    have hlt : 2 < (2 ^ W) ^ x.length := by
      refine Nat.lt_of_lt_of_le (lt_trans (by decide : 2 < 10) h.ten_lt) ?_
      exact Nat.le_self_pow (Nat.pos_iff_ne_zero.mp (List.length_pos_iff.mpr hx)) _
    rw [mpHsInteger_eq, decide_eq_true_eq] at hs
    rwa [show (2 : BitVec 64).toNat = 2 from rfl, Nat.mod_eq_of_lt hlt] at hs
  unfold rsaVerify at haccept
  split at haccept
  · cases haccept
  · next hboth =>
    simp only [Bool.not_eq_true', Bool.not_eq_false, Bool.and_eq_true] at hboth
    exact ⟨htwo hp hboth.1, htwo hq hboth.2⟩

/-- Verification goes by the numbers: not by how many words they have, nor by the order of
    the primes. -/
theorem rsaVerify_congr (h : Supported W) {key new key' : RSAKey W} (hp : key.p ≠ []) (hq : key.q ≠ [])
    (haccept : rsaVerify m key = some (true, new)) (hsame : SameNumbers key key') :
    ∃ iqmp, val iqmp = val new.iqmp ∧
      rsaVerify m key' = some (true, { key' with p := mpMax key'.p key'.q, q := mpMin key'.p key'.q, iqmp }) := by
  have hW2 : 2 ≤ W := by rcases h with rfl | rfl | rfl <;> decide
  obtain ⟨hp2, hq2⟩ := accepted_primes h hp hq haccept
  have hmax := hsame.larger
  have hmin := hsame.smaller
  have hboth : val key'.p = val key.p ∧ val key'.q = val key.q ∨ val key'.p = val key.q ∧ val key'.q = val key.p := by omega
  obtain ⟨v, hv, hinvert, hinvert'⟩ := @mpInvert_congr W hW2 (mpMin key.p key.q) (mpMin key'.p key'.q) (mpMax key.p key.q)
    (mpMax key'.p key'.q) (by rw [val_mpMin, val_mpMin, hmin]) (by rw [val_mpMax, val_mpMax, hmax]) (by rw [val_mpMax]; omega)
  rw [rsaVerify_eq h hp2 hq2, hinvert, Option.map_some, Option.some.injEq, Prod.mk.injEq, decide_eq_true_eq] at haccept
  obtain ⟨⟨hn, hedp, hedq⟩, rfl⟩ := haccept
  have hfits : ∀ {x : Limbs W}, v ≤ val x → val (ofNat W x.length v) = v := fun {x} hx => val_ofNat_lt (lt_of_le_of_lt hx (val_lt x))
  refine ⟨ofNat W (mpMax key'.p key'.q).length v, ?_, ?_⟩
  · rw [hfits (by rw [val_mpMax, ← hmax, ← val_mpMax]; exact hv), hfits hv]
  · rw [rsaVerify_eq h (by omega) (by omega), hinvert', Option.map_some, ← hsame.modulus, ← hsame.exponent, ← hsame.privateExponent]
    rcases hboth with ⟨h1, h2⟩ | ⟨h1, h2⟩
    · rw [h1, h2, decide_eq_true ⟨hn, hedp, hedq⟩]
    · rw [h1, h2, decide_eq_true ⟨by rw [Nat.mul_comm, hn], hedq, hedp⟩]

/-! ## The two results put together -/

/-- A difference is any number in range that the subtrahend is missing from. -/
theorem val_sub_eq {n e : Nat} {x y : Limbs W} (he : e < (2 ^ W) ^ n) (heq : e + val y ≡ val x [MOD (2 ^ W) ^ n]) :
    val (mpSubInto n x y) = e := by
  have hlt := val_lt (mpSubInto n x y)
  rw [length_mpSubInto] at hlt
  have hcancel : val (mpSubInto n x y) ≡ e [MOD (2 ^ W) ^ n] :=
    Nat.ModEq.add_right_cancel' (val y) ((val_mpSubInto_add n x y).trans heq.symm)
  exact hcancel.eq_of_lt_of_lt hlt he

/-- What is missing between the residues. The sum that makes it positive may have lost its
    highest bit. -/
theorem val_diff {n : Nat} {presult qresult p : Limbs W} (hlen : presult.length = n) (hplen : p.length = n)
    (hqlen : qresult.length ≤ n) (hpr : val presult < val p) (hqr : val qresult < val p) :
    val (mpSub (mpCondAddInto presult.length presult p (mpCmpHs qresult presult)) qresult) =
      if val presult ≤ val qresult then val presult + val p - val qresult else val presult - val qresult := by
  have hpn : val p < (2 ^ W) ^ n := hplen ▸ val_lt p
  have hadd := val_mpCondAddInto presult.length presult p (mpCmpHs qresult presult)
  rw [mpSub, length_mpCondAddInto, hlen, Nat.max_eq_left hqlen]
  rw [hlen, mpCmpHs_eq] at hadd
  rw [mpCmpHs_eq]
  refine val_sub_eq (by split <;> omega) ?_
  rw [hadd]
  refine Nat.ModEq.trans ?_ (Nat.mod_modEq _ _).symm
  by_cases hle : val presult ≤ val qresult
  · rw [if_pos hle, decide_eq_true hle, if_pos rfl, Nat.sub_add_cancel (by omega)]
  · rw [if_neg hle, decide_eq_false hle, if_neg (by simp), Nat.sub_add_cancel (by omega), Nat.add_zero]

/-- The sum with the product fits the product's width. -/
theorem val_recombined {i q d y : Limbs W} (hy : val y ≤ val q) {n : Nat} (hn : n = i.length + q.length + d.length) :
    val (mpAddInto n (ofNat W n (val i * val q * val d)) y) = val i * val q * val d + val y := by
  have hid : val i * val d + 1 ≤ (2 ^ W) ^ i.length * (2 ^ W) ^ d.length := Nat.mul_lt_mul'' (val_lt i) (val_lt d)
  have hfit : val i * val q * val d + val y < (2 ^ W) ^ n := by
    calc val i * val q * val d + val y ≤ val q * (val i * val d + 1) := by linarith
      _ ≤ val q * ((2 ^ W) ^ i.length * (2 ^ W) ^ d.length) := Nat.mul_le_mul_left _ hid
      _ < (2 ^ W) ^ q.length * ((2 ^ W) ^ i.length * (2 ^ W) ^ d.length) :=
        Nat.mul_lt_mul_of_pos_right (val_lt q) (Nat.mul_pos (pow_base_pos _) (pow_base_pos _))
      _ = (2 ^ W) ^ n := by rw [hn, Nat.pow_add, Nat.pow_add]; ring
  rw [val_mpAddInto, val_ofNat_lt (by omega), Nat.mod_eq_of_lt hfit]

/-- The power modulo one prime. -/
structure ResiduePower (m : Modular W) (base exp p r : Limbs W) : Prop where
  computed : ∃ pexp baseModP, m.mod exp (mpSubIntegerInto p.length p 1) = some pexp ∧ m.mod base p = some baseModP ∧
    m.modpow baseModP pexp p = some r
  length : r.length = p.length
  lt : val r < val p
  power : val base ^ val exp ≡ val r [MOD val p]

theorem residuePower (h : Supported W) (base exp : Limbs W) {p : Limbs W} (hp : (val p).Prime) (hodd : val p % 2 = 1)
    (hexp : val exp % (val p - 1) ≠ 0) : ∃ r, ResiduePower m base exp p r := by
  have hp0 : val p ≠ 0 := hp.ne_zero
  have hpm1 := val_pred h hp0
  have hpm0 : val (mpSubIntegerInto p.length p 1) ≠ 0 := by
    have := hp.two_le
    omega
  refine ⟨_, ⟨_, _, m.mod_spec _ _ hpm0, m.mod_spec _ _ hp0, m.modpow_spec _ _ _ hodd⟩, length_ofNat _ _, ?_, ?_⟩
  · rw [val_ofNat_mod hp0]
    exact Nat.mod_lt _ hp.pos
  · rw [val_ofNat_mod hp0, val_ofNat_mod hp0, val_ofNat_mod hpm0, hpm1]
    exact (pow_reduced hp _ hexp).symm.trans (Nat.mod_modEq _ _).symm

theorem crtModpow_spec (h : Supported W) {key : RSAKey W} (hkey : KeyPair key) (base : Limbs W) :
    crtModpow m base key.privateExponent key.modulus key.p key.q key.iqmp =
      some (ofNat W key.modulus.length (val base ^ val key.privateExponent % val key.modulus)) := by
  have hreduced {e d n : Nat} (hed : e * d % n = 1) : d % n ≠ 0 := fun h0 => by
    rw [Nat.mul_mod, h0, Nat.mul_zero, Nat.zero_mod] at hed
    cases hed
  have hn0 : val key.modulus ≠ 0 := by
    rw [hkey.modulus]
    exact Nat.mul_ne_zero hkey.pPrime.ne_zero hkey.qPrime.ne_zero
  obtain ⟨presult, ⟨pexp, baseModP, hpexp, hbp, hpr⟩, hplen, hplt, hpow⟩ :=
    residuePower (m := m) h base key.privateExponent hkey.pPrime hkey.pOdd (hreduced hkey.invertP)
  obtain ⟨qresult, ⟨qexp, baseModQ, hqexp, hbq, hqr⟩, hqlen, hqlt, hqow⟩ :=
    residuePower (m := m) h base key.privateExponent hkey.qPrime hkey.qOdd (hreduced hkey.invertQ)
  have hlt := hkey.lt
  have hdiff := val_diff (n := key.p.length) hplen rfl (hqlen.le.trans hkey.width) hplt (hqlt.trans hlt)
  unfold crtModpow
  simp only [hpexp, hqexp, hbp, hbq, hpr, hqr, mpMul_eq, Option.bind_eq_bind, Option.bind_some, length_ofNat]
  generalize mpSub (mpCondAddInto presult.length presult key.p (mpCmpHs qresult presult)) qresult = diff at hdiff ⊢
  rw [val_product, m.mod_spec _ _ hn0, val_recombined hqlt.le rfl]
  have hsum : val diff + val qresult ≡ val presult [MOD val key.p] := by
    rw [hdiff]
    split
    · rw [Nat.sub_add_cancel (by omega)]
      exact Nat.add_modEq_right
    · rw [Nat.sub_add_cancel (by omega)]
  have hcop : Nat.Coprime (val key.p) (val key.q) := (Nat.coprime_primes hkey.pPrime hkey.qPrime).mpr hlt.ne'
  have hgarner := garner hcop hkey.iqmp hsum hpow hqow
  rw [← hkey.modulus] at hgarner
  rw [hgarner]

/-- The private operation of an accepted key is the power modulo the product. -/
theorem crt_modpow_direct (h : Supported W) {key key' : RSAKey W} (hp : (val key.p).Prime) (hq : (val key.q).Prime)
    (hpodd : val key.p % 2 = 1) (hqodd : val key.q % 2 = 1) (hne : val key.p ≠ val key.q)
    (haccept : rsaVerify m key = some (true, key')) (base : Limbs W) :
    ∃ r, crtModpow m base key'.privateExponent key'.modulus key'.p key'.q key'.iqmp = some r ∧
      val r = val base ^ val key.privateExponent % val key.modulus := by
  obtain ⟨hkey, hd, hn, -⟩ := rsaVerify_accepts h hp hq hpodd hqodd hne haccept
  refine ⟨_, crtModpow_spec h hkey base, ?_⟩
  have hn0 : val key'.modulus ≠ 0 := by
    rw [hkey.modulus]
    exact Nat.mul_ne_zero hkey.pPrime.ne_zero hkey.qPrime.ne_zero
  rw [val_ofNat_mod hn0, hd, hn]

/-- The private operation undoes the public one on a number below the modulus. -/
theorem rsaPrivkeyOp_inverts (h : Supported W) {key : RSAKey W} (hkey : KeyPair key) {x : Limbs W} (hx : val x < val key.modulus) :
    ∃ y, m.modpow x key.exponent key.modulus = some y ∧ val y < val key.modulus ∧
      ∀ input : Limbs W, val input = val y → ∃ r, rsaPrivkeyOp m input key = some r ∧ val r = val x := by
  have hn0 : val key.modulus ≠ 0 := by omega
  have hodd : val key.modulus % 2 = 1 := by rw [hkey.modulus, Nat.mul_mod, hkey.pOdd, hkey.qOdd]
  have hy : val (ofNat W key.modulus.length (val x ^ val key.exponent % val key.modulus)) =
      val x ^ val key.exponent % val key.modulus := val_ofNat_mod hn0 _
  refine ⟨_, m.modpow_spec _ _ _ hodd, ?_, ?_⟩
  · rw [hy]
    exact Nat.mod_lt _ (Nat.pos_of_ne_zero hn0)
  · intro input hinput
    refine ⟨_, crtModpow_spec h hkey input, ?_⟩
    have hinverse := pow_pow_inverse (x := val x) hkey.pPrime hkey.qPrime hkey.lt.ne' hkey.invertP hkey.invertQ
    rw [← hkey.modulus] at hinverse
    rw [val_ofNat_mod hn0, hinput, hy, ← Nat.pow_mod]
    exact Nat.mod_eq_of_modEq hinverse hx

/-- A block that begins with a zero byte and is as long as the modulus is below it. -/
theorem block_lt {n : Nat} {block : List UInt8} (hlen : (0 :: block).length = (Utils.mpGetNbits n + 7) / 8) :
    Utils.mpFromBytesBe (0 :: block) < n := by
  have hzero : Utils.mpFromBytesBe (0 :: block) = Utils.mpFromBytesBe block := rfl
  have hlt := Utils.mpFromBytesBe_lt block
  rw [List.length_cons] at hlen
  have hle : 2 ^ (8 * block.length) ≤ n := Utils.two_pow_le_of_lt_mpGetNbits (by omega)
  rw [hzero]
  rw [pow_mul] at hle
  exact lt_of_lt_of_le hlt hle

/-- Such a block, encrypted and decrypted. -/
theorem block_round_trip (h : Supported W) {key : RSAKey W} (hkey : KeyPair key) {block : List UInt8} {k : Nat}
    (hk : k = (mpGetNbits key.modulus + 7) / 8) (hlen : (0 :: block).length = k) :
    val (mpFromBytesBe W (0 :: block)) < val key.modulus ∧
      ∃ b2, m.modpow (mpFromBytesBe W (0 :: block)) key.exponent key.modulus = some b2 ∧
        ∀ input : Limbs W, val input = Utils.mpFromBytesBe (putBytes b2 k) →
          ∃ r, rsaPrivkeyOp m input key = some r ∧ putBytes r k = 0 :: block := by
  rw [mpGetNbits_eq h] at hk
  have hlt := block_lt (hlen.trans hk)
  rw [← (mpFromBytesBe_spec h _).2] at hlt
  obtain ⟨b2, hb2, hb2lt, hback⟩ := rsaPrivkeyOp_inverts (m := m) h hkey hlt
  refine ⟨hlt, b2, hb2, ?_⟩
  intro input hinput
  have hfits : val b2 < 256 ^ k := lt_trans hb2lt (lt_pow_of_bits (by omega))
  rw [← (mpFromBytesBe_spec h _).2, val_mpFromBytesBe_putBytes h hfits] at hinput
  obtain ⟨r, hr, hrval⟩ := hback input hinput
  refine ⟨r, hr, ?_⟩
  rw [putBytes_eq h, hrval, (mpFromBytesBe_spec h _).2, ← hlen]
  exact Utils.bytes_mpFromBytesBe _

end Accepted

/-- Division and powers as computed with numbers. -/
def numbers (W : Nat) : Modular W where
  mod x modulus := if val modulus = 0 then none else some (ofNat W modulus.length (val x % val modulus))
  modpow base exponent modulus :=
    if val modulus % 2 = 1 then some (ofNat W modulus.length (val base ^ val exponent % val modulus)) else none
  mod_spec _ _ h := if_neg h
  modpow_spec _ _ _ h := if_pos h

/-- The primes 3 and 5, the smaller one first. -/
def key15 : RSAKey 16 := ⟨4, 1, [15], [3], [3], [3], [5], [2], none⟩

theorem crt_modpow_key15 : ∃ key', rsaVerify (numbers 16) key15 = some (true, key') ∧
    ∃ r, crtModpow (numbers 16) [6] key'.privateExponent key'.modulus key'.p key'.q key'.iqmp = some r ∧ val r = 6 ^ 3 % 15 := by
  have haccept : (rsaVerify (numbers 16) key15).map Prod.fst = some true := by decide +kernel
  obtain ⟨⟨ok, key'⟩, hverify, rfl⟩ := Option.map_eq_some_iff.mp haccept
  exact ⟨key', hverify, crt_modpow_direct (Or.inl rfl) (by decide) (by decide) rfl rfl (by decide) hverify [6]⟩

end Putty.Rsa
