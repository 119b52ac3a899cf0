/-
  Putty.Mpint.Mul — multiplication in `mpint.c`: `mp_mul_add_simple`, the Karatsuba
  recursion of `mp_mul_internal`, and the scratch space both of its branches carve from
  one pool.

  A pool is the number of words left in it: nothing that is allocated from it is read
  before it is written, and a recursive call hands its part of the pool back by leaving
  the caller's copy alone. An assertion that fails is `none`. The parts of the result
  that the aliases r0, r1 and r2 address are cut from its words and put back.

  Proved:
  - `mpMulAddSimple_spec`: the schoolbook loops add the product, cut to the width.
  - `mpMulInternal_eq`: with 6 words of scratch for each word of input the recursion
    gives the product cut to the width of the destination, whatever the three widths
    are, and with less it stops at its first assertion.
  - `mpMulInto_exact`: the pool that mp_mul_into makes is enough, and the recursion and
    the schoolbook loops give the same words.
-/

import Putty.Mpint.Words

namespace Putty.Mpint

open Putty.Lib Putty.Lib.Limbs

variable {W : Nat}

/-! ## The schoolbook loops -/

/-- One word of `a`: the words of `r` from its place on, and those of `b`. -/
def mulAddRow (adata : BitVec W) : Limbs W → Limbs W → BitVec W → Limbs W
  | [], _, _ => []
  | q :: r, bdata :: b, carry =>
    (mulc adata bdata q carry).1 :: mulAddRow adata r b (mulc adata bdata q carry).2
  | q :: r, [], carry =>
    (addc carry q 0).1 :: mulAddRow adata r [] (BitVec.ofNat W (addc carry q 0).2)

def mpMulAddSimple : Limbs W → Limbs W → Limbs W → Limbs W
  | r, [], _ => r
  | r, adata :: a, b =>
    match mulAddRow adata r b 0 with
    | [] => []
    | q :: r => q :: mpMulAddSimple r a b

/-! ## Karatsuba -/

def karatsubaThreshold : Nat := 24

def mpMulScratchspaceUnary (n : Nat) : Nat := n * 6

def mpMulScratchspace (rw aw bw : Nat) : Nat := mpMulScratchspaceUnary (min rw (max aw bw))

def mpMakeAlias (x : Limbs W) (offset len : Nat) : Limbs W := (x.drop offset).take len

/-- What is left of the pool. -/
def mpAllocFromScratch (pool len : Nat) : Option Nat := if len ≤ pool then some (pool - len) else none

/-- mp_add_into on the words of `r` from `offset` on. -/
def mpAddIntoAlias (r : Limbs W) (offset : Nat) (x : Limbs W) : Limbs W :=
  r.take offset ++ mpAddInto (r.length - offset) (r.drop offset) x

/-- A call on operands of at most `k` words is a smaller one when `k` is less than the width. -/
theorem call_smaller {rw la lb k n : Nat} (hla : la ≤ k) (hlb : lb ≤ k) (hk : k < n) : min rw (max la lb) < n :=
  Nat.lt_of_le_of_lt (Nat.min_le_right _ _) (Nat.lt_of_le_of_lt (Nat.max_le.mpr ⟨hla, hlb⟩) hk)

theorem half_smaller {n la lb : Nat} (h : ¬(n < karatsubaThreshold ∨ la = 0 ∨ lb = 0)) : n - n / 2 + 1 < n := by
  unfold karatsubaThreshold at h
  omega

def mpMulInternal (rw : Nat) (a b : Limbs W) (scratch : Nat) : Option (Limbs W) :=
  let inlen := min rw (max a.length b.length)
  if scratch < mpMulScratchspaceUnary inlen then none
  else if inlen < karatsubaThreshold ∨ a.length = 0 ∨ b.length = 0 then
    some (mpMulAddSimple (List.replicate rw 0) a b)
  else
    let toplen := inlen / 2
    let botlen := inlen - toplen
    let a0 := mpMakeAlias a 0 botlen
    let b0 := mpMakeAlias b 0 botlen
    let a1 := mpMakeAlias a botlen toplen
    let b1 := mpMakeAlias b botlen toplen
    (mpMulInternal (min rw (botlen * 2)) a0 b0 scratch).bind fun r0 =>
      (mpMulInternal (rw - botlen * 2) a1 b1 scratch).bind fun r2 =>
        let r := r0 ++ r2
        if rw < inlen * 2 then
          let len := min (botlen + toplen) (rw - botlen)
          (mpAllocFromScratch scratch len).bind fun scratch =>
            (mpMulInternal len a0 b1 scratch).bind fun s =>
              let r := mpAddIntoAlias r botlen s
              (mpMulInternal len a1 b0 scratch).bind fun s => some (mpAddIntoAlias r botlen s)
        else
          (mpAllocFromScratch scratch (botlen + 1)).bind fun scratch =>
            (mpAllocFromScratch scratch (botlen + 1)).bind fun scratch =>
              let asum := mpAddInto (botlen + 1) a0 a1
              let bsum := mpAddInto (botlen + 1) b0 b1
              (mpAllocFromScratch scratch (botlen * 2 + 1)).bind fun scratch =>
                (mpMulInternal (botlen * 2 + 1) asum bsum scratch).bind fun product =>
                  let product := mpSubInto (botlen * 2 + 1) product r0
                  let product := mpSubInto (botlen * 2 + 1) product r2
                  some (mpAddIntoAlias r botlen product)
termination_by min rw (max a.length b.length)
decreasing_by
  all_goals
    have hbot := half_smaller ‹¬(inlen < karatsubaThreshold ∨ _)›
    have htop : inlen / 2 ≤ inlen - inlen / 2 + 1 := by clear * -; omega
    refine call_smaller ?_ ?_ hbot <;> first
      | exact Nat.le_of_eq (length_mpAddInto _ _ _)
      | exact Nat.le_trans (List.length_take_le _ _) (Nat.le_succ _)
      | exact Nat.le_trans (List.length_take_le _ _) htop

def mpMulInto (rw : Nat) (a b : Limbs W) : Option (Limbs W) :=
  mpMulInternal rw a b (mpMulScratchspace rw a.length b.length)

def mpMul (x y : Limbs W) : Option (Limbs W) := mpMulInto (x.length + y.length) x y

/-! ## What the schoolbook loops add -/

theorem carry_toNat (q carry : BitVec W) : (BitVec.ofNat W (addc carry q 0).2).toNat = (addc carry q 0).2 := by
  have hq := q.isLt
  have hc := carry.isLt
  rw [BitVec.toNat_ofNat]
  apply Nat.mod_eq_of_lt
  apply Nat.div_lt_of_lt_mul
  by_cases h : 2 ≤ 2 ^ W
  · have := Nat.mul_le_mul_right (2 ^ W) h
    omega
  · have := base_pos (W := W)
    have hone : 2 ^ W = 1 := by omega
    rw [hone] at *
    omega

@[simp] theorem length_mulAddRow (adata : BitVec W) (r b : Limbs W) (carry : BitVec W) :
    (mulAddRow adata r b carry).length = r.length := by
  induction r generalizing b carry with
  | nil => unfold mulAddRow; rfl
  | cons q r ih =>
    cases b with
    | nil => rw [mulAddRow, List.length_cons, ih, List.length_cons]
    | cons bdata b => rw [mulAddRow, List.length_cons, ih, List.length_cons]

/-- One step of a row: its word now, and its other words times the base. -/
theorem row_step {B n w v t q c low hi : Nat} (hword : low + B * hi = q + c) (hrest : w ≡ v + t + hi [MOD B ^ n]) :
    low + B * w ≡ q + B * v + (c + B * t) [MOD B ^ (n + 1)] := by
  have hmul := Nat.ModEq.mul_left' B hrest
  rw [← Nat.pow_succ'] at hmul
  have hsum := Nat.ModEq.add_left low hmul
  have heq : low + B * (v + t + hi) = q + B * v + (c + B * t) := by
    linarith [Nat.mul_add B (v + t) hi, Nat.mul_add B v t]
  rwa [heq] at hsum

theorem mulAddRow_spec (adata : BitVec W) (r b : Limbs W) (carry : BitVec W) :
    val (mulAddRow adata r b carry) ≡ val r + (adata.toNat * val b + carry.toNat) [MOD (2 ^ W) ^ r.length] := by
  induction r generalizing b carry with
  | nil =>
    rw [List.length_nil, Nat.pow_zero]
    exact Nat.modEq_one
  | cons q r ih =>
    cases b with
    | nil =>
      have hword := addc_spec carry q 0
      have hrest := ih [] (BitVec.ofNat W (addc carry q 0).2)
      rw [carry_toNat, val_nil, Nat.mul_zero, Nat.zero_add] at hrest
      rw [mulAddRow, val_cons, val_cons, List.length_cons, val_nil, Nat.mul_zero, Nat.zero_add]
      have hstep := row_step (t := 0) (q := q.toNat) (c := carry.toNat) (by rw [hword]; omega) hrest
      rwa [Nat.mul_zero, Nat.add_zero] at hstep
    | cons bdata b =>
      have hword := mulc_spec adata bdata q carry
      have hrest := ih b (mulc adata bdata q carry).2
      rw [← Nat.add_assoc] at hrest
      rw [mulAddRow, val_cons, val_cons, List.length_cons, val_cons]
      have hstep := row_step (q := q.toNat) (c := adata.toNat * bdata.toNat + carry.toNat) (by rw [hword]; omega) hrest
      have heq : adata.toNat * bdata.toNat + carry.toNat + 2 ^ W * (adata.toNat * val b) =
          adata.toNat * (bdata.toNat + 2 ^ W * val b) + carry.toNat := by ring
      rwa [heq] at hstep

theorem mpMulAddSimple_spec (r a b : Limbs W) :
    (mpMulAddSimple r a b).length = r.length ∧ val (mpMulAddSimple r a b) ≡ val r + val a * val b [MOD (2 ^ W) ^ r.length] := by
  induction a generalizing r with
  | nil =>
    rw [mpMulAddSimple, val_nil, Nat.zero_mul, Nat.add_zero]
    exact ⟨rfl, rfl⟩
  | cons adata a ih =>
    have hrow := mulAddRow_spec adata r b 0
    have hlen := length_mulAddRow adata r b 0
    rw [show (0 : BitVec W).toNat = 0 by simp, Nat.add_zero] at hrow
    rw [mpMulAddSimple, val_cons]
    cases hres : mulAddRow adata r b 0 with
    | nil =>
      rw [hres] at hlen
      rw [← hlen]
      exact ⟨rfl, Nat.modEq_one⟩
    | cons q r' =>
      rw [hres] at hrow hlen
      obtain ⟨hlen', hrest⟩ := ih r'
      rw [← hlen, List.length_cons, List.length_cons, hlen', val_cons]
      refine ⟨rfl, ?_⟩
      rw [← hlen, val_cons, List.length_cons] at hrow
      have hmul := Nat.ModEq.mul_left' (2 ^ W) hrest
      rw [← Nat.pow_succ'] at hmul
      calc q.toNat + 2 ^ W * val (mpMulAddSimple r' a b)
          ≡ q.toNat + 2 ^ W * (val r' + val a * val b) [MOD (2 ^ W) ^ (r'.length + 1)] := Nat.ModEq.add_left _ hmul
        _ = q.toNat + 2 ^ W * val r' + 2 ^ W * (val a * val b) := by ring
        _ ≡ val r + adata.toNat * val b + 2 ^ W * (val a * val b) [MOD (2 ^ W) ^ (r'.length + 1)] :=
          Nat.ModEq.add_right _ hrow
        _ = val r + (adata.toNat + 2 ^ W * val a) * val b := by ring

/-! ## Cutting and putting back -/

theorem val_mpMakeAlias (x : Limbs W) (offset len : Nat) :
    val (mpMakeAlias x offset len) = val x / (2 ^ W) ^ offset % (2 ^ W) ^ len := by
  rw [mpMakeAlias, val_take, val_drop]

/-- Two halves make the low words. -/
theorem val_halves (x : Limbs W) (m n : Nat) :
    val (mpMakeAlias x 0 m) + (2 ^ W) ^ m * val (mpMakeAlias x m n) = val x % (2 ^ W) ^ (m + n) := by
  rw [val_mpMakeAlias, val_mpMakeAlias, Nat.pow_zero, Nat.div_one, Nat.pow_add, Nat.mod_mul]

theorem length_mpAddIntoAlias {r : Limbs W} {offset : Nat} (h : offset ≤ r.length) (x : Limbs W) :
    (mpAddIntoAlias r offset x).length = r.length := by
  rw [mpAddIntoAlias, List.length_append, List.length_take, length_mpAddInto]
  omega

theorem val_mpAddIntoAlias {r : Limbs W} {offset : Nat} (h : offset ≤ r.length) (x : Limbs W) :
    val (mpAddIntoAlias r offset x) = (val r + (2 ^ W) ^ offset * val x) % (2 ^ W) ^ r.length := by
  have hpow : (2 ^ W) ^ r.length = (2 ^ W) ^ offset * (2 ^ W) ^ (r.length - offset) := by
    rw [← Nat.pow_add]
    congr 1
    omega
  rw [mpAddIntoAlias, val_append, List.length_take, Nat.min_eq_left h, val_take, val_mpAddInto, val_drop, hpow, Nat.mod_mul,
    Nat.add_mul_mod_self_left, Nat.add_mul_div_left _ _ (pow_base_pos offset)]

/-- The two outer products side by side. -/
theorem val_outer {rw n x y : Nat} (hx : x < (2 ^ W) ^ n) :
    val (ofNat W (min rw n) x ++ ofNat W (rw - n) y) = (x + (2 ^ W) ^ n * y) % (2 ^ W) ^ rw := by
  rw [val_append, length_ofNat, val_ofNat, val_ofNat]
  by_cases h : n ≤ rw
  · have hpow : (2 ^ W) ^ rw = (2 ^ W) ^ n * (2 ^ W) ^ (rw - n) := by
      rw [← Nat.pow_add]
      congr 1
      omega
    rw [Nat.min_eq_right h, Nat.mod_eq_of_lt hx, hpow, Nat.mod_mul, Nat.add_mul_mod_self_left, Nat.mod_eq_of_lt hx,
      Nat.add_mul_div_left _ _ (pow_base_pos n), Nat.div_eq_of_lt hx, Nat.zero_add]
  · have hpow : (2 ^ W) ^ n = (2 ^ W) ^ rw * (2 ^ W) ^ (n - rw) := by
      rw [← Nat.pow_add]
      congr 1
      omega
    rw [Nat.min_eq_left (by omega), show rw - n = 0 by omega, Nat.pow_zero, Nat.mod_one, Nat.mul_zero, Nat.add_zero, hpow,
      Nat.mul_assoc, Nat.add_mul_mod_self_left]

/-- A sum of two numbers of `n` words has one word more. -/
theorem add_lt_pow_succ {n x y : Nat} (hx : x < (2 ^ W) ^ n) (hy : y < (2 ^ W) ^ n) : x + y < (2 ^ W) ^ (n + 1) := by
  rw [Nat.pow_succ']
  by_cases h : 2 ≤ 2 ^ W
  · have := Nat.mul_le_mul_right ((2 ^ W) ^ n) h
    omega
  · have := base_pos (W := W)
    have hone : 2 ^ W = 1 := by omega
    rw [hone, Nat.one_pow] at hx hy ⊢
    omega

theorem mul_lt_pow {m n x y : Nat} (hx : x < (2 ^ W) ^ m) (hy : y < (2 ^ W) ^ n) : x * y < (2 ^ W) ^ (m + n) := by
  rw [Nat.pow_add]
  exact Nat.mul_lt_mul'' hx hy

/-- What the full branch keeps of the middle product. -/
theorem middle_product {n : Nat} {a0 a1 b0 b1 : Nat} (ha0 : a0 < (2 ^ W) ^ n) (ha1 : a1 < (2 ^ W) ^ n) (hb0 : b0 < (2 ^ W) ^ n)
    (hb1 : b1 < (2 ^ W) ^ n) {asum bsum product r0 r2 : Limbs W} (hasum : val asum = (a0 + a1) % (2 ^ W) ^ (n + 1))
    (hbsum : val bsum = (b0 + b1) % (2 ^ W) ^ (n + 1)) (hproduct : val product = val asum * val bsum % (2 ^ W) ^ (n * 2 + 1))
    (hr0 : val r0 = a0 * b0) (hr2 : val r2 = a1 * b1) :
    val (mpSubInto (n * 2 + 1) (mpSubInto (n * 2 + 1) product r0) r2) = a0 * b1 + a1 * b0 := by
  have hfirst := val_mpSubInto_add (n * 2 + 1) product r0
  have hsecond := val_mpSubInto_add (n * 2 + 1) (mpSubInto (n * 2 + 1) product r0) r2
  have hlt := val_lt (mpSubInto (n * 2 + 1) (mpSubInto (n * 2 + 1) product r0) r2)
  rw [length_mpSubInto] at hlt
  rw [Nat.mod_eq_of_lt (add_lt_pow_succ ha0 ha1)] at hasum
  rw [Nat.mod_eq_of_lt (add_lt_pow_succ hb0 hb1)] at hbsum
  have hfit : a0 * b1 + a1 * b0 < (2 ^ W) ^ (n * 2 + 1) := by
    rw [Nat.mul_two]
    exact add_lt_pow_succ (mul_lt_pow ha0 hb1) (mul_lt_pow ha1 hb0)
  generalize val (mpSubInto (n * 2 + 1) (mpSubInto (n * 2 + 1) product r0) r2) = mid at *
  have hmod : mid + (a1 * b1 + a0 * b0) ≡ (a0 * b1 + a1 * b0) + (a1 * b1 + a0 * b0) [MOD (2 ^ W) ^ (n * 2 + 1)] := by
    calc mid + (a1 * b1 + a0 * b0)
        = mid + val r2 + val r0 := by rw [hr0, hr2, Nat.add_assoc]
      _ ≡ val (mpSubInto (n * 2 + 1) product r0) + val r0 [MOD (2 ^ W) ^ (n * 2 + 1)] := Nat.ModEq.add_right _ hsecond
      _ ≡ val product [MOD (2 ^ W) ^ (n * 2 + 1)] := hfirst
      _ ≡ val asum * val bsum [MOD (2 ^ W) ^ (n * 2 + 1)] := by rw [hproduct]; exact Nat.mod_modEq _ _
      _ = (a0 * b1 + a1 * b0) + (a1 * b1 + a0 * b0) := by
        rw [hasum, hbsum]
        ring
  have hcancel := Nat.ModEq.add_right_cancel' _ hmod
  rw [Nat.ModEq, Nat.mod_eq_of_lt hlt, Nat.mod_eq_of_lt hfit] at hcancel
  exact hcancel

/-- Words of the operands beyond the destination do not count. -/
theorem val_inputs (rw : Nat) (a b : Limbs W) :
    val a % (2 ^ W) ^ min rw (max a.length b.length) * (val b % (2 ^ W) ^ min rw (max a.length b.length)) ≡ val a * val b
      [MOD (2 ^ W) ^ rw] := by
  have hwidth : ∀ x : Limbs W, x.length ≤ max a.length b.length →
      val x % (2 ^ W) ^ min rw (max a.length b.length) ≡ val x [MOD (2 ^ W) ^ rw] := by
    intro x hx
    by_cases h : rw ≤ max a.length b.length
    · rw [Nat.min_eq_left h]
      exact Nat.mod_modEq _ _
    · rw [Nat.min_eq_right (by omega), Nat.mod_eq_of_lt (Nat.lt_of_lt_of_le (val_lt x) (Nat.pow_le_pow_right base_pos hx))]
  exact Nat.ModEq.mul (hwidth a (by omega)) (hwidth b (by omega))

/-! ## The recursion -/

theorem mpMulAddSimple_clear (rw : Nat) (a b : Limbs W) :
    mpMulAddSimple (List.replicate rw 0) a b = ofNat W rw (val a * val b) := by
  obtain ⟨hlen, hmod⟩ := mpMulAddSimple_spec (List.replicate rw (0 : BitVec W)) a b
  have hlt := val_lt (mpMulAddSimple (List.replicate rw 0) a b)
  rw [val_replicate_zero, Nat.zero_add, List.length_replicate] at hmod
  rw [List.length_replicate] at hlen
  rw [hlen] at hlt
  apply eq_ofNat hlen
  rw [← hmod, Nat.mod_eq_of_lt hlt]

theorem alloc_some {pool len : Nat} (h : len ≤ pool) : mpAllocFromScratch pool len = some (pool - len) := if_pos h

@[simp] theorem length_mpMakeAlias (x : Limbs W) (offset len : Nat) :
    (mpMakeAlias x offset len).length = min len (x.length - offset) := by
  rw [mpMakeAlias, List.length_take, List.length_drop]

/-- A middle product cut to the words above the lower half. -/
theorem cut_middle {rw m n x : Nat} (hm : m ≤ rw) (hx : x < (2 ^ W) ^ n) :
    (2 ^ W) ^ m * val (ofNat W (min n (rw - m)) x) ≡ (2 ^ W) ^ m * x [MOD (2 ^ W) ^ rw] := by
  rw [val_ofNat]
  by_cases h : n ≤ rw - m
  · rw [Nat.min_eq_left h, Nat.mod_eq_of_lt hx]
  · have hpow : (2 ^ W) ^ rw = (2 ^ W) ^ m * (2 ^ W) ^ (rw - m) := by
      rw [← Nat.pow_add]
      congr 1
      omega
    rw [Nat.min_eq_right (by omega), hpow]
    exact Nat.ModEq.mul_left' _ (Nat.mod_modEq _ _)

section Halves

/-! The halves of the operands as numbers, `m` words below and `t` words above. -/

variable {m t a0 b0 : Nat} (rw a1 b1 : Nat) (hm : m ≤ rw) (ha0 : a0 < (2 ^ W) ^ m) (hb0 : b0 < (2 ^ W) ^ m) (ha1 : a1 < (2 ^ W) ^ t)
  (hb1 : b1 < (2 ^ W) ^ t)

include ha0 hb0

theorem outer_spec :
    (ofNat W (min rw (m * 2)) (a0 * b0) ++ ofNat W (rw - m * 2) (a1 * b1)).length = rw ∧
      val (ofNat W (min rw (m * 2)) (a0 * b0) ++ ofNat W (rw - m * 2) (a1 * b1)) =
        (a0 * b0 + (2 ^ W) ^ (m * 2) * (a1 * b1)) % (2 ^ W) ^ rw := by
  constructor
  · rw [List.length_append, length_ofNat, length_ofNat]
    omega
  · apply val_outer
    rw [Nat.mul_two]
    exact mul_lt_pow ha0 hb0

include hm ha1 hb1

theorem truncated_branch :
    mpAddIntoAlias (mpAddIntoAlias (ofNat W (min rw (m * 2)) (a0 * b0) ++ ofNat W (rw - m * 2) (a1 * b1)) m
      (ofNat W (min (m + t) (rw - m)) (a0 * b1))) m (ofNat W (min (m + t) (rw - m)) (a1 * b0)) =
      ofNat W rw ((a0 + (2 ^ W) ^ m * a1) * (b0 + (2 ^ W) ^ m * b1)) := by
  obtain ⟨hlen, hval⟩ := outer_spec rw a1 b1 ha0 hb0
  have h01 := cut_middle hm (mul_lt_pow ha0 hb1)
  have h10 := cut_middle hm (mul_lt_pow ha1 hb0)
  rw [Nat.add_comm t m] at h10
  generalize ofNat W (min rw (m * 2)) (a0 * b0) ++ ofNat W (rw - m * 2) (a1 * b1) = r at *
  have hlen1 := length_mpAddIntoAlias (by omega : m ≤ r.length) (ofNat W (min (m + t) (rw - m)) (a0 * b1))
  apply eq_ofNat
  · rw [length_mpAddIntoAlias (by omega), hlen1, hlen]
  · rw [val_mpAddIntoAlias (by omega), hlen1, val_mpAddIntoAlias (by omega), hlen, hval, Nat.mod_add_mod]
    apply Nat.ModEq.trans (Nat.ModEq.add (Nat.ModEq.add (Nat.mod_modEq _ _) h01) h10)
    have heq : a0 * b0 + (2 ^ W) ^ (m * 2) * (a1 * b1) + (2 ^ W) ^ m * (a0 * b1) + (2 ^ W) ^ m * (a1 * b0) =
        (a0 + (2 ^ W) ^ m * a1) * (b0 + (2 ^ W) ^ m * b1) := by ring
    rw [heq]

theorem full_branch (ht : t ≤ m) (hrw : (m + t) * 2 ≤ rw) {asum bsum : Limbs W} (hasum : val asum = (a0 + a1) % (2 ^ W) ^ (m + 1))
    (hbsum : val bsum = (b0 + b1) % (2 ^ W) ^ (m + 1)) :
    mpAddIntoAlias (ofNat W (min rw (m * 2)) (a0 * b0) ++ ofNat W (rw - m * 2) (a1 * b1)) m
      (mpSubInto (m * 2 + 1) (mpSubInto (m * 2 + 1) (ofNat W (m * 2 + 1) (val asum * val bsum)) (ofNat W (min rw (m * 2)) (a0 * b0)))
        (ofNat W (rw - m * 2) (a1 * b1))) =
      ofNat W rw ((a0 + (2 ^ W) ^ m * a1) * (b0 + (2 ^ W) ^ m * b1)) := by
  obtain ⟨hlen, hval⟩ := outer_spec rw a1 b1 ha0 hb0
  have hwide : (2 ^ W) ^ t ≤ (2 ^ W) ^ m := Nat.pow_le_pow_right base_pos ht
  have hr0 : val (ofNat W (min rw (m * 2)) (a0 * b0)) = a0 * b0 := by
    rw [val_ofNat, Nat.min_eq_right (by omega), Nat.mul_two, Nat.mod_eq_of_lt (mul_lt_pow ha0 hb0)]
  have hr2 : val (ofNat W (rw - m * 2) (a1 * b1)) = a1 * b1 := by
    rw [val_ofNat, Nat.mod_eq_of_lt]
    exact Nat.lt_of_lt_of_le (mul_lt_pow ha1 hb1) (Nat.pow_le_pow_right base_pos (by omega))
  have hmid := middle_product ha0 (Nat.lt_of_lt_of_le ha1 hwide) hb0 (Nat.lt_of_lt_of_le hb1 hwide) hasum hbsum
    (val_ofNat (m * 2 + 1) (val asum * val bsum)) hr0 hr2
  generalize ofNat W (min rw (m * 2)) (a0 * b0) ++ ofNat W (rw - m * 2) (a1 * b1) = r at *
  apply eq_ofNat
  · rw [length_mpAddIntoAlias (by omega), hlen]
  · rw [val_mpAddIntoAlias (by omega), hlen, hmid, hval, Nat.mod_add_mod]
    congr 1
    ring

end Halves

/-- The scratch words each branch takes for itself leave 6 for each word of its calls. -/
theorem pool_narrow {n m t scratch : Nat} (rw : Nat) (hbig : 24 ≤ n) (hhalf : m ≤ t + 1) (hsum : m + t = n) (hscratch : n * 6 ≤ scratch) :
    min (m + t) (rw - m) ≤ scratch ∧ m * 6 ≤ scratch - min (m + t) (rw - m) := by
  have hmin : min (m + t) (rw - m) ≤ m + t := Nat.min_le_left _ _
  generalize min (m + t) (rw - m) = len at *
  omega

theorem pool_full {n m t scratch : Nat} (hbig : 24 ≤ n) (hhalf : m ≤ t + 1) (hsum : m + t = n) (hscratch : n * 6 ≤ scratch) :
    m + 1 ≤ scratch ∧ m + 1 ≤ scratch - (m + 1) ∧ m * 2 + 1 ≤ scratch - (m + 1) - (m + 1) ∧
      (m + 1) * 6 ≤ scratch - (m + 1) - (m + 1) - (m * 2 + 1) := by
  omega

theorem mpMulInternal_eq (rw : Nat) (a b : Limbs W) (scratch : Nat) :
    mpMulInternal rw a b scratch =
      if mpMulScratchspace rw a.length b.length ≤ scratch then some (ofNat W rw (val a * val b)) else none := by
  obtain ⟨n, hn⟩ : ∃ n, n = min rw (max a.length b.length) := ⟨_, rfl⟩
  induction n using Nat.strongRecOn generalizing rw a b scratch with
  | _ n ih =>
    by_cases hscratch : mpMulScratchspace rw a.length b.length ≤ scratch
    swap
    · unfold mpMulInternal
      rw [if_pos (by unfold mpMulScratchspace at hscratch; omega), if_neg hscratch]
    rw [if_pos hscratch]
    have hinputs := val_inputs rw a b
    unfold mpMulScratchspace mpMulScratchspaceUnary at hscratch
    rw [← hn] at hscratch hinputs
    unfold mpMulInternal
    dsimp only
    rw [← hn, if_neg (by unfold mpMulScratchspaceUnary; omega)]
    by_cases hsmall : n < karatsubaThreshold ∨ a.length = 0 ∨ b.length = 0
    · rw [if_pos hsmall, mpMulAddSimple_clear]
    rw [if_neg hsmall]
    unfold karatsubaThreshold at hsmall
    have hbot := half_smaller hsmall
    have hrec : ∀ (k rw' : Nat) (a' b' : Limbs W) (scratch' : Nat), k < n → a'.length ≤ k → b'.length ≤ k → k * 6 ≤ scratch' →
        mpMulInternal rw' a' b' scratch' = some (ofNat W rw' (val a' * val b')) := by
      intro k rw' a' b' scratch' hk ha hb hfit
      rw [ih _ (call_smaller ha hb hk) rw' a' b' scratch' rfl]
      refine if_pos (Nat.le_trans (Nat.mul_le_mul_right 6 ?_) hfit)
      exact Nat.le_trans (Nat.min_le_right _ _) (Nat.max_le.mpr ⟨ha, hb⟩)
    obtain ⟨m, hm⟩ : ∃ m, m = n - n / 2 := ⟨_, rfl⟩
    rw [← hm] at hbot
    have hsum : m + n / 2 = n := by clear * - hm; omega
    have htop : n / 2 ≤ m := by clear * - hm; omega
    have hclose : m ≤ n / 2 + 1 := by clear * - hm; omega
    have hbig : 24 ≤ n := Nat.le_of_not_lt fun h => hsmall (.inl h)
    have hmn : m < n := Nat.lt_of_succ_lt hbot
    have hscratch' : n * 6 ≤ scratch := hscratch
    have hpool : m * 6 ≤ scratch := Nat.le_trans (Nat.mul_le_mul_right 6 (Nat.le_of_lt hmn)) hscratch'
    have hrw : m ≤ rw := Nat.le_trans (Nat.le_of_lt hmn) (by rw [hn]; exact Nat.min_le_left _ _)
    have ha := val_halves a m (n / 2)
    have hb := val_halves b m (n / 2)
    rw [hsum] at ha hb
    rw [← ha, ← hb] at hinputs
    have hlen : ∀ (x : Limbs W) (offset len : Nat), (mpMakeAlias x offset len).length ≤ len := by
      intro x offset len
      rw [length_mpMakeAlias]
      exact Nat.min_le_left _ _
    have hlow : ∀ x : Limbs W, (mpMakeAlias x m (n / 2)).length ≤ m := fun x => Nat.le_trans (hlen x m (n / 2)) htop
    have hhalf : ∀ (x : Limbs W) (offset len : Nat), val (mpMakeAlias x offset len) < (2 ^ W) ^ len := by
      intro x offset len
      exact Nat.lt_of_lt_of_le (val_lt _) (Nat.pow_le_pow_right base_pos (hlen x offset len))
    have hcong : ofNat W rw (val a * val b) = ofNat W rw ((val (mpMakeAlias a 0 m) + (2 ^ W) ^ m * val (mpMakeAlias a m (n / 2))) *
        (val (mpMakeAlias b 0 m) + (2 ^ W) ^ m * val (mpMakeAlias b m (n / 2)))) := by
      apply eq_ofNat (length_ofNat _ _)
      rw [val_ofNat]
      exact hinputs.symm
    rw [← hm, hcong, hrec m _ (mpMakeAlias a 0 m) (mpMakeAlias b 0 m) _ hmn (hlen a 0 m) (hlen b 0 m) hpool,
      hrec m _ (mpMakeAlias a m (n / 2)) (mpMakeAlias b m (n / 2)) _ hmn (hlow a) (hlow b) hpool]
    dsimp only [Option.bind_some]
    by_cases hnarrow : rw < n * 2
    · -- only part of the top product is wanted
      obtain ⟨hfirst, hrest⟩ := pool_narrow rw hbig hclose hsum hscratch'
      rw [if_pos hnarrow, alloc_some hfirst]
      dsimp only [Option.bind_some]
      rw [hrec m _ (mpMakeAlias a 0 m) (mpMakeAlias b m (n / 2)) _ hmn (hlen a 0 m) (hlow b) hrest]
      dsimp only [Option.bind_some]
      rw [hrec m _ (mpMakeAlias a m (n / 2)) (mpMakeAlias b 0 m) _ hmn (hlow a) (hlen b 0 m) hrest]
      dsimp only [Option.bind_some]
      rw [truncated_branch rw _ _ hrw (hhalf a 0 m) (hhalf b 0 m) (hhalf a m (n / 2)) (hhalf b m (n / 2))]
    · obtain ⟨hfirst, hsecond, hthird, hrest⟩ := pool_full hbig hclose hsum hscratch'
      have hwide : (m + n / 2) * 2 ≤ rw := by rw [hsum]; exact Nat.le_of_not_lt hnarrow
      rw [if_neg hnarrow, alloc_some hfirst]
      dsimp only [Option.bind_some]
      rw [alloc_some hsecond]
      dsimp only [Option.bind_some]
      rw [alloc_some hthird]
      dsimp only [Option.bind_some]
      rw [hrec (m + 1) _ (mpAddInto (m + 1) _ _) (mpAddInto (m + 1) _ _) _ hbot (Nat.le_of_eq (length_mpAddInto _ _ _))
        (Nat.le_of_eq (length_mpAddInto _ _ _)) hrest]
      dsimp only [Option.bind_some]
      rw [full_branch rw _ _ hrw (hhalf a 0 m) (hhalf b 0 m) (hhalf a m (n / 2)) (hhalf b m (n / 2)) htop hwide
        (val_mpAddInto _ _ _) (val_mpAddInto _ _ _)]

theorem mpMulInto_eq (rw : Nat) (a b : Limbs W) : mpMulInto rw a b = some (ofNat W rw (val a * val b)) := by
  unfold mpMulInto
  rw [mpMulInternal_eq, if_pos (Nat.le_refl _)]

theorem mpMulInto_exact (rw : Nat) (a b : Limbs W) :
    ∃ r, mpMulInto rw a b = some r ∧ r.length = rw ∧ val r = val a * val b % 2 ^ (W * rw) ∧
      mpMulAddSimple (List.replicate rw 0) a b = r ∧
      ∀ scratch, mpMulInternal rw a b scratch = if mpMulScratchspace rw a.length b.length ≤ scratch then some r else none := by
  refine ⟨ofNat W rw (val a * val b), mpMulInto_eq rw a b, length_ofNat _ _, ?_, mpMulAddSimple_clear rw a b, ?_⟩
  · rw [val_ofNat, pow_mul]
  · intro scratch
    exact mpMulInternal_eq rw a b scratch

end Putty.Mpint
