/-
  Putty.Mpint.Integers — the operations of `mpint.c` between an mp_int and a C integer.

  A uintmax_t has 64 bits, of which `mp_from_integer` makes as many words as they fill.
  Each loop here takes the words of the integer out of it by shifts as it goes along.

  Proved: with words of 16, 32 and 64 bits each of these operations agrees with the one
  between two mp_ints. A comparison reads no more words of the integer than the number
  has, and a sum or a difference only its lowest word, so that the integer must fit those;
  a multiplier has 16 bits and a product must fit its destination, or an assertion fails;
  a word index must fit a word.
-/

import Putty.Mpint.Mul

namespace Putty.Mpint

open Putty.Lib Putty.Lib.Limbs

variable {W : Nat}

def mpFromInteger (W : Nat) (n : BitVec 64) : Limbs W :=
  (List.range ((8 + W / 8 - 1) / (W / 8))).map fun i => (n >>> (i * W)).setWidth W

/-- The words of `b` that mp_add_masked_integer_into reads. -/
def addendWord (W : Nat) (b : BitVec 64) (i : Nat) : BitVec W := if i * W < W / 8 then (b >>> (i * W)).setWidth W else 0

/-- The loop from the word `i` on. -/
def mpAddMaskedIntegerInto (b : BitVec 64) (bAnd bXor : BitVec W) : Nat → Nat → Limbs W → Nat → Limbs W × Nat
  | _, 0, _, carry => ([], carry)
  | i, rw + 1, a, carry =>
    let (out, carry) := addc (a.headD 0) ((addendWord W b i ^^^ bXor) &&& bAnd) carry
    let (w, carry) := mpAddMaskedIntegerInto b bAnd bXor (i + 1) rw a.tail carry
    (out :: w, carry)

def mpAddIntegerInto (rw : Nat) (a : Limbs W) (n : BitVec 64) : Limbs W := (mpAddMaskedIntegerInto n (ones W) 0 0 rw a 0).1

def mpSubIntegerInto (rw : Nat) (a : Limbs W) (n : BitVec 64) : Limbs W :=
  (mpAddMaskedIntegerInto n (ones W) (ones W) 0 rw a 1).1

/-- The loop of mp_add_integer_into_shifted_by_words from the word `i` on. -/
def addShiftedFrom (wordIndex : Nat) : Nat → Nat → Limbs W → Bool → BitVec 64 → Nat → Limbs W
  | _, 0, _, _, _, _ => []
  | i, rw + 1, a, indicator, n, carry =>
    let indicator := indicator || !normaliseTo1 (BitVec.ofNat W (i ^^^ wordIndex))
    let bword := n.setWidth W &&& maskOf W indicator
    let newN := if W < 64 then n >>> W else 0
    let n := n ^^^ ((n ^^^ newN) &&& maskOf 64 indicator)
    let (out, carry) := addc (a.headD 0) bword carry
    out :: addShiftedFrom wordIndex (i + 1) rw a.tail indicator n carry

def mpAddIntegerIntoShiftedByWords (rw : Nat) (a : Limbs W) (n : BitVec 64) (wordIndex : Nat) : Limbs W :=
  addShiftedFrom wordIndex 0 rw a false n 0

/-- The words stored by mp_mul_integer_into and the carry off the top. -/
def mulIntegerFrom (mult : BitVec W) : Nat → Limbs W → BitVec W → Limbs W × BitVec W
  | 0, _, carry => ([], carry)
  | rw + 1, a, carry =>
    let (out, carry) := mulc (a.headD 0) mult carry 0
    let (w, carry) := mulIntegerFrom mult rw a.tail carry
    (out :: w, carry)

def mpMulIntegerInto (rw : Nat) (a : Limbs W) (n : BitVec 16) : Option (Limbs W) :=
  let (w, carry) := mulIntegerFrom (n.setWidth W) rw a 0
  if carry = 0 then some w else none

/-- The words of `n` that a comparison reads. -/
def comparedWord (W : Nat) (n : BitVec 64) (i : Nat) : BitVec W := if i * W < 64 then (n >>> (i * W)).setWidth W else 0

/-- The carry of mp_hs_integer's loop from the word `i` on. -/
def hsIntegerFrom (n : BitVec 64) : Nat → Limbs W → Nat → Nat
  | _, [], carry => carry
  | i, w :: x, carry => hsIntegerFrom n (i + 1) x (addc w (~~~comparedWord W n i) carry).2

def mpHsInteger (x : Limbs W) (n : BitVec 64) : Bool := hsIntegerFrom n 0 x 1 % 2 = 1

def mpEqInteger (x : Limbs W) (n : BitVec 64) : Bool :=
  !normaliseTo1 ((List.range x.length).foldl (fun diff i => diff ||| mpWord x i ^^^ comparedWord W n i) 0)

/-! ## The words of an integer -/

theorem shifted_toNat (n : BitVec 64) (i : Nat) : ((n >>> (i * W)).setWidth W).toNat = n.toNat / (2 ^ W) ^ i % 2 ^ W := by
  rw [BitVec.toNat_setWidth, BitVec.toNat_ushiftRight, Nat.shiftRight_eq_div_pow, Nat.mul_comm, pow_mul]

theorem val_mpFromInteger (h : W = 16 ∨ W = 32 ∨ W = 64) (n : BitVec 64) : val (mpFromInteger W n) = n.toNat := by
  have hn := n.isLt
  unfold mpFromInteger
  rw [val_map_range fun i _ => shifted_toNat n i]
  obtain rfl | rfl | rfl := h
  · exact Nat.mod_eq_of_lt hn
  · exact Nat.mod_eq_of_lt hn
  · exact Nat.mod_eq_of_lt hn

theorem comparedWord_toNat (n : BitVec 64) (i : Nat) : (comparedWord W n i).toNat = n.toNat / (2 ^ W) ^ i % 2 ^ W := by
  unfold comparedWord
  by_cases h : i * W < 64
  · rw [if_pos h, shifted_toNat]
  · have hlt : n.toNat < (2 ^ W) ^ i := by
      rw [← pow_mul, Nat.mul_comm]
      exact Nat.lt_of_lt_of_le n.isLt (Nat.pow_le_pow_right (by omega) (by omega))
    rw [if_neg h, Nat.div_eq_of_lt hlt, Nat.zero_mod]
    simp

/-- Only the lowest word of an addend is read. -/
theorem addendWord_eq (hW : 8 ≤ W) (b : BitVec 64) (i : Nat) :
    addendWord W b i = if i = 0 then b.setWidth W else 0 := by
  unfold addendWord
  cases i with
  | zero =>
    rw [if_pos (by omega), if_pos rfl, Nat.zero_mul]
    simp
  | succ i =>
    have hrow : W ≤ (i + 1) * W := Nat.le_mul_of_pos_left W (Nat.succ_pos i)
    rw [if_neg (by omega), if_neg (Nat.succ_ne_zero i)]

/-! ## Sums and differences -/

theorem mpAddMaskedIntegerInto_eq (hW : 8 ≤ W) (b : BitVec 64) (bXor : BitVec W) (i rw : Nat) (a : Limbs W) (carry : Nat) :
    mpAddMaskedIntegerInto b (ones W) bXor i rw a carry =
      mpAddMaskedInto (ones W) bXor rw a (if i = 0 then [b.setWidth W] else []) carry := by
  induction rw generalizing i a carry with
  | zero => rfl
  | succ rw ih =>
    have hhead : (if i = 0 then [b.setWidth W] else ([] : Limbs W)).headD 0 = addendWord W b i := by
      rw [addendWord_eq hW]
      by_cases h : i = 0
      · rw [if_pos h, if_pos h]
        rfl
      · rw [if_neg h, if_neg h]
        rfl
    have htail : (if i = 0 then [b.setWidth W] else ([] : Limbs W)).tail = if i + 1 = 0 then [b.setWidth W] else [] := by
      rw [if_neg (Nat.succ_ne_zero i)]
      by_cases h : i = 0
      · rw [if_pos h]
        rfl
      · rw [if_neg h]
        rfl
    unfold mpAddMaskedIntegerInto mpAddMaskedInto
    rw [hhead, htail, and_ones, and_ones]
    dsimp only
    rw [ih]

theorem mpAddInto_congr {rw : Nat} {a b b' : Limbs W} (h : val b ≡ val b' [MOD (2 ^ W) ^ rw]) : mpAddInto rw a b = mpAddInto rw a b' := by
  apply val_inj
  · rw [length_mpAddInto, length_mpAddInto]
  · rw [val_mpAddInto, val_mpAddInto]
    exact Nat.ModEq.add_left _ h

theorem mpSubInto_congr {rw : Nat} {a b b' : Limbs W} (h : val b ≡ val b' [MOD (2 ^ W) ^ rw]) : mpSubInto rw a b = mpSubInto rw a b' := by
  have hlt := val_lt (mpSubInto rw a b)
  have hlt' := val_lt (mpSubInto rw a b')
  rw [length_mpSubInto] at hlt hlt'
  have hsum : val (mpSubInto rw a b) + val b ≡ val (mpSubInto rw a b') + val b [MOD (2 ^ W) ^ rw] :=
    calc val (mpSubInto rw a b) + val b
        ≡ val a [MOD (2 ^ W) ^ rw] := val_mpSubInto_add rw a b
      _ ≡ val (mpSubInto rw a b') + val b' [MOD (2 ^ W) ^ rw] := (val_mpSubInto_add rw a b').symm
      _ ≡ val (mpSubInto rw a b') + val b [MOD (2 ^ W) ^ rw] := Nat.ModEq.add_left _ h.symm
  have hcancel := Nat.ModEq.add_right_cancel' _ hsum
  rw [Nat.ModEq, Nat.mod_eq_of_lt hlt, Nat.mod_eq_of_lt hlt'] at hcancel
  apply val_inj
  · rw [length_mpSubInto, length_mpSubInto]
  · exact hcancel

/-- The lowest word is the integer as far as the destination goes. -/
theorem lowest_word {rw : Nat} {n : BitVec 64} (hn : n.toNat < 2 ^ W ∨ rw ≤ 1) :
    val [n.setWidth W] ≡ n.toNat [MOD (2 ^ W) ^ rw] := by
  rw [val_cons, val_nil, Nat.mul_zero, Nat.add_zero, BitVec.toNat_setWidth]
  rcases hn with hn | hn
  · rw [Nat.mod_eq_of_lt hn]
  · obtain rfl | rfl : rw = 0 ∨ rw = 1 := by omega
    · rw [Nat.pow_zero]
      exact Nat.modEq_one
    · rw [Nat.pow_one]
      exact Nat.mod_modEq _ _

theorem integer_sums (h : W = 16 ∨ W = 32 ∨ W = 64) {rw : Nat} (x : Limbs W) {n : BitVec 64} (hn : n.toNat < 2 ^ W ∨ rw ≤ 1) :
    mpAddIntegerInto rw x n = mpAddInto rw x (mpFromInteger W n) ∧ mpSubIntegerInto rw x n = mpSubInto rw x (mpFromInteger W n) := by
  have hword : val [n.setWidth W] ≡ val (mpFromInteger W n) [MOD (2 ^ W) ^ rw] := by
    rw [val_mpFromInteger h]
    exact lowest_word hn
  unfold mpAddIntegerInto mpSubIntegerInto
  rw [mpAddMaskedIntegerInto_eq (by omega), mpAddMaskedIntegerInto_eq (by omega), if_pos rfl]
  exact ⟨mpAddInto_congr hword, mpSubInto_congr hword⟩

/-! ## Comparisons -/

theorem hsIntegerFrom_eq (n : BitVec 64) (i : Nat) (x : Limbs W) (carry : Nat) :
    hsIntegerFrom n i x carry = (mpAddMaskedInto (ones W) (ones W) x.length x
      ((List.range x.length).map fun j => comparedWord W n (i + j)) carry).2 := by
  induction x generalizing i carry with
  | nil => rfl
  | cons w x ih =>
    have hnot : comparedWord W n (i + 0) &&& ones W ^^^ ones W = ~~~comparedWord W n i := by simp [ones]
    have hrest : (List.map (fun j => comparedWord W n (i + j)) (List.map Nat.succ (List.range x.length))) =
        (List.range x.length).map fun j => comparedWord W n (i + 1 + j) := by
      rw [List.map_map]
      apply List.map_congr_left
      intro j _
      show comparedWord W n (i + (j + 1)) = _
      congr 1
      omega
    rw [hsIntegerFrom, ih, List.length_cons, List.range_succ_eq_map, List.map_cons, hrest, mpAddMaskedInto]
    dsimp only [List.headD_cons, List.tail_cons]
    rw [hnot]

theorem mpHsInteger_eq (x : Limbs W) (n : BitVec 64) : mpHsInteger x n = decide (n.toNat % (2 ^ W) ^ x.length ≤ val x) := by
  have hwords : val ((List.range x.length).map fun j => comparedWord W n (0 + j)) = n.toNat % (2 ^ W) ^ x.length := by
    apply val_map_range
    intro i _
    rw [Nat.zero_add, comparedWord_toNat]
  have hcmp := mpCmpHs_eq x ((List.range x.length).map fun j => comparedWord W n (0 + j))
  unfold mpCmpHs at hcmp
  rw [List.length_map, List.length_range, Nat.max_self, hwords] at hcmp
  unfold mpHsInteger
  rw [hsIntegerFrom_eq]
  exact hcmp

theorem mpEqInteger_eq (hW : 2 ≤ W) (x : Limbs W) (n : BitVec 64) :
    mpEqInteger x n = decide (val x = n.toNat % (2 ^ W) ^ x.length) := by
  have hwords : val ((List.range x.length).map (comparedWord W n)) = n.toNat % (2 ^ W) ^ x.length :=
    val_map_range fun i _ => comparedWord_toNat n i
  have hself : (List.range x.length).map (mpWord x) = x := by
    apply val_inj
    · rw [List.length_map, List.length_range]
    · rw [val_words, Nat.mod_eq_of_lt (val_lt x)]
  unfold mpEqInteger
  rw [normaliseTo1_eq hW, ← decide_not, decide_eq_decide, not_not, foldl_or_eq_zero, ← hwords]
  constructor
  · intro h
    conv_lhs => rw [← hself]
    congr 1
    apply List.map_congr_left
    intro i hi
    exact BitVec.xor_eq_zero_iff.mp (h.2 i hi)
  · intro h
    refine ⟨rfl, ?_⟩
    intro i hi
    apply BitVec.xor_eq_zero_iff.mpr
    apply BitVec.eq_of_toNat_eq
    have hlt := List.mem_range.mp hi
    have hget := toNat_getD ((List.range x.length).map (comparedWord W n)) i
    rw [List.getD_eq_getElem _ _ (by rw [List.length_map, List.length_range]; exact hlt), List.getElem_map, List.getElem_range] at hget
    rw [mpWord_toNat, h, hget]

theorem integer_comparisons (h : W = 16 ∨ W = 32 ∨ W = 64) (x : Limbs W) {n : BitVec 64} (hn : n.toNat < 2 ^ (W * x.length)) :
    mpHsInteger x n = mpCmpHs x (mpFromInteger W n) ∧ mpEqInteger x n = mpCmpEq x (mpFromInteger W n) := by
  rw [pow_mul] at hn
  rw [mpHsInteger_eq, mpEqInteger_eq (by omega), mpCmpHs_eq, mpCmpEq_eq (by omega), val_mpFromInteger h, Nat.mod_eq_of_lt hn]
  exact ⟨rfl, rfl⟩

/-! ## Sums at a place -/

/-- The low word of what is left of `n`, and the rest of it. -/
theorem low_and_rest (n : BitVec 64) : (n.setWidth W).toNat + 2 ^ W * (if W < 64 then n >>> W else 0).toNat = n.toNat := by
  rw [BitVec.toNat_setWidth]
  by_cases h : W < 64
  · rw [if_pos h, BitVec.toNat_ushiftRight, Nat.shiftRight_eq_div_pow, Nat.mod_add_div]
  · have hlt : n.toNat < 2 ^ W := Nat.lt_of_lt_of_le n.isLt (Nat.pow_le_pow_right (by omega) (by omega))
    rw [if_neg h, Nat.mod_eq_of_lt hlt]
    simp

theorem choose_next (n newN : BitVec 64) (indicator : Bool) : n ^^^ ((n ^^^ newN) &&& maskOf 64 indicator) = if indicator then newN else n := by
  cases indicator with
  | false =>
    rw [mask_false]
    simp
  | true =>
    rw [mask_true, and_ones, ← BitVec.xor_assoc, BitVec.xor_self, BitVec.zero_xor]
    rfl

theorem masked_word (w : BitVec W) (indicator : Bool) : w &&& maskOf W indicator = if indicator then w else 0 := by
  cases indicator with
  | false =>
    rw [mask_false]
    simp
  | true =>
    rw [mask_true, and_ones]
    rfl

/-- One turn of the loop, the flag decided. -/
theorem addShiftedFrom_succ {wordIndex i rw : Nat} {a : Limbs W} {indicator now : Bool} {n : BitVec 64} {carry : Nat}
    (hnow : (indicator || !normaliseTo1 (BitVec.ofNat W (i ^^^ wordIndex))) = now) :
    addShiftedFrom wordIndex i (rw + 1) a indicator n carry =
      (addc (a.headD 0) (if now then n.setWidth W else 0) carry).1 ::
        addShiftedFrom wordIndex (i + 1) rw a.tail now (if now then (if W < 64 then n >>> W else 0) else n)
          (addc (a.headD 0) (if now then n.setWidth W else 0) carry).2 := by
  rw [addShiftedFrom]
  dsimp only
  rw [hnow, choose_next, masked_word]

theorem length_addShiftedFrom (wordIndex i rw : Nat) (a : Limbs W) (indicator : Bool) (n : BitVec 64) (carry : Nat) :
    (addShiftedFrom wordIndex i rw a indicator n carry).length = rw := by
  induction rw generalizing i a indicator n carry with
  | zero => rfl
  | succ rw ih => rw [addShiftedFrom_succ rfl, List.length_cons, ih]

/-- A word and what the rest of the loop adds. -/
theorem shifted_step {rw low hi bword carry : Nat} {a : Limbs W} {rest : Limbs W} {t : Nat}
    (hword : low + 2 ^ W * hi = (a.headD 0).toNat + bword + carry) (hrest : val rest ≡ val a.tail + t + hi [MOD (2 ^ W) ^ rw]) :
    low + 2 ^ W * val rest ≡ val a + (bword + 2 ^ W * t) + carry [MOD (2 ^ W) ^ (rw + 1)] := by
  have hmul := Nat.ModEq.mul_left' (2 ^ W) hrest
  rw [← Nat.pow_succ'] at hmul
  have hsum := Nat.ModEq.add_left low hmul
  have hsplit := Nat.mod_add_div (val a) (2 ^ W)
  rw [← toNat_headD, ← val_tail] at hsplit
  have heq : low + 2 ^ W * (val a.tail + t + hi) = val a + (bword + 2 ^ W * t) + carry := by
    linarith [Nat.mul_add (2 ^ W) (val a.tail + t) hi, Nat.mul_add (2 ^ W) (val a.tail) t]
  rwa [heq] at hsum

/-- After the place has been reached. -/
theorem val_addShiftedFrom_on (wordIndex i rw : Nat) (a : Limbs W) (n : BitVec 64) (carry : Nat) :
    val (addShiftedFrom wordIndex i rw a true n carry) ≡ val a + n.toNat + carry [MOD (2 ^ W) ^ rw] := by
  induction rw generalizing i a n carry with
  | zero =>
    rw [Nat.pow_zero]
    exact Nat.modEq_one
  | succ rw ih =>
    have hstep := shifted_step (addc_spec (a.headD 0) (n.setWidth W) carry)
      (ih (i + 1) a.tail (if W < 64 then n >>> W else 0) (addc (a.headD 0) (n.setWidth W) carry).2)
    rw [addShiftedFrom_succ (Bool.true_or _), val_cons, if_pos rfl, if_pos rfl]
    rwa [low_and_rest] at hstep

/-- Up to the place, which is a word's number. -/
theorem val_addShiftedFrom_off (hW : 2 ≤ W) {wordIndex i : Nat} (hi : i ≤ wordIndex) (hword : wordIndex < 2 ^ W) (rw : Nat) (a : Limbs W)
    (n : BitVec 64) (carry : Nat) :
    val (addShiftedFrom wordIndex i rw a false n carry) ≡ val a + n.toNat * (2 ^ W) ^ (wordIndex - i) + carry [MOD (2 ^ W) ^ rw] := by
  induction rw generalizing i a carry with
  | zero =>
    rw [Nat.pow_zero]
    exact Nat.modEq_one
  | succ rw ih =>
    have hflag : (false || !normaliseTo1 (BitVec.ofNat W (i ^^^ wordIndex))) = decide (i = wordIndex) := by
      have hlt := Nat.xor_lt_two_pow (Nat.lt_of_le_of_lt hi hword) hword
      have hzero : BitVec.ofNat W (i ^^^ wordIndex) = 0 ↔ i = wordIndex := by
        rw [← Nat.xor_eq_zero_iff]
        constructor
        · intro h
          have hnat := congrArg BitVec.toNat h
          rw [BitVec.toNat_ofNat, Nat.mod_eq_of_lt hlt] at hnat
          simpa using hnat
        · intro h
          rw [h]
          rfl
      rw [normaliseTo1_eq hW, Bool.false_or, ← decide_not, decide_eq_decide, not_not, hzero]
    by_cases hhere : i = wordIndex
    · rw [addShiftedFrom_succ (hflag.trans (decide_eq_true hhere)), val_cons, if_pos rfl, if_pos rfl, hhere, Nat.sub_self, Nat.pow_zero, Nat.mul_one]
      have hstep := shifted_step (addc_spec (a.headD 0) (n.setWidth W) carry)
        (val_addShiftedFrom_on wordIndex (wordIndex + 1) rw a.tail (if W < 64 then n >>> W else 0)
          (addc (a.headD 0) (n.setWidth W) carry).2)
      rwa [low_and_rest] at hstep
    · rw [addShiftedFrom_succ (hflag.trans (decide_eq_false hhere)), val_cons, if_neg Bool.false_ne_true, if_neg Bool.false_ne_true]
      have hstep := shifted_step (addc_spec (a.headD 0) 0 carry)
        (ih (i := i + 1) (by omega) a.tail (addc (a.headD 0) 0 carry).2)
      have hpow : (2 ^ W) ^ (wordIndex - i) = 2 ^ W * (2 ^ W) ^ (wordIndex - (i + 1)) := by
        rw [← Nat.pow_succ']
        congr 1
        omega
      have heq : (0 : BitVec W).toNat + 2 ^ W * (n.toNat * (2 ^ W) ^ (wordIndex - (i + 1))) = n.toNat * (2 ^ W) ^ (wordIndex - i) := by
        rw [hpow]
        simp
        ring
      rwa [heq] at hstep

/-- Only as many bits of the word's number are compared as a word has. -/
theorem addShiftedFrom_mod (wordIndex i rw : Nat) (a : Limbs W) (indicator : Bool) (n : BitVec 64) (carry : Nat) :
    addShiftedFrom wordIndex i rw a indicator n carry = addShiftedFrom (wordIndex % 2 ^ W) i rw a indicator n carry := by
  induction rw generalizing i a indicator n carry with
  | zero => rfl
  | succ rw ih =>
    have hword : BitVec.ofNat W (i ^^^ wordIndex) = BitVec.ofNat W (i ^^^ wordIndex % 2 ^ W) := by
      apply BitVec.eq_of_toNat_eq
      rw [BitVec.toNat_ofNat, BitVec.toNat_ofNat, Nat.xor_mod_two_pow, Nat.xor_mod_two_pow, Nat.mod_mod]
    rw [addShiftedFrom_succ rfl, addShiftedFrom_succ rfl, hword, ih]

theorem val_mpAddIntegerIntoShiftedByWords (hW : 2 ≤ W) (rw : Nat) (a : Limbs W) (n : BitVec 64) (wordIndex : Nat) :
    val (mpAddIntegerIntoShiftedByWords rw a n wordIndex) = (val a + n.toNat * (2 ^ W) ^ (wordIndex % 2 ^ W)) % (2 ^ W) ^ rw := by
  have hlt := val_lt (addShiftedFrom wordIndex 0 rw a false n 0)
  have hmod := val_addShiftedFrom_off hW (Nat.zero_le _) (Nat.mod_lt wordIndex base_pos) rw a n 0
  rw [length_addShiftedFrom] at hlt
  rw [← addShiftedFrom_mod, Nat.sub_zero, Nat.add_zero] at hmod
  unfold mpAddIntegerIntoShiftedByWords
  rw [← hmod, Nat.mod_eq_of_lt hlt]

theorem integer_shifted_sum (h : W = 16 ∨ W = 32 ∨ W = 64) (rw : Nat) (x : Limbs W) (n : BitVec 64) {wordIndex : Nat}
    (hword : wordIndex < 2 ^ W) :
    mpAddIntegerIntoShiftedByWords rw x n wordIndex = mpAddInto rw x (mpLshiftFixedInto rw (mpFromInteger W n) (wordIndex * W)) := by
  apply val_inj
  · rw [length_mpAddInto]
    exact length_addShiftedFrom wordIndex 0 rw x false n 0
  · rw [val_mpAddIntegerIntoShiftedByWords (by omega), Nat.mod_eq_of_lt hword, val_mpAddInto, val_mpLshiftFixedInto (by omega),
      val_mpFromInteger h, Nat.add_mod_mod, Nat.mul_comm wordIndex, pow_mul]

/-! ## Products -/

theorem mulIntegerFrom_spec (mult : BitVec W) (rw : Nat) (a : Limbs W) (carry : BitVec W) :
    (mulIntegerFrom mult rw a carry).1.length = rw ∧
      val (mulIntegerFrom mult rw a carry).1 + (2 ^ W) ^ rw * (mulIntegerFrom mult rw a carry).2.toNat =
        val a % (2 ^ W) ^ rw * mult.toNat + carry.toNat := by
  induction rw generalizing a carry with
  | zero => simp [mulIntegerFrom, Nat.mod_one]
  | succ rw ih =>
    have hstep := mulc_spec (a.headD 0) mult carry 0
    obtain ⟨hlen, hval⟩ := ih a.tail (mulc (a.headD 0) mult carry 0).2
    rw [mulIntegerFrom]
    dsimp only
    rw [List.length_cons, hlen, val_cons, val_mod_succ, ← toNat_headD, ← val_tail, Nat.pow_succ']
    refine ⟨rfl, ?_⟩
    have hmul := congrArg (2 ^ W * ·) hval
    have hzero : (0 : BitVec W).toNat = 0 := by simp
    rw [hzero] at hstep
    linarith [Nat.mul_assoc (2 ^ W) ((2 ^ W) ^ rw) (mulIntegerFrom mult rw a.tail (mulc (a.headD 0) mult carry 0).2).2.toNat,
      Nat.add_mul (a.headD 0).toNat (2 ^ W * (val a.tail % (2 ^ W) ^ rw)) mult.toNat,
      Nat.mul_assoc (2 ^ W) (val a.tail % (2 ^ W) ^ rw) mult.toNat]

theorem integer_product (h : W = 16 ∨ W = 32 ∨ W = 64) (rw : Nat) (x : Limbs W) (n : BitVec 16) :
    mpMulIntegerInto rw x n =
      if val x % 2 ^ (W * rw) * n.toNat < 2 ^ (W * rw) then mpMulInto rw x (mpFromInteger W (n.setWidth 64)) else none := by
  have hmult : (n.setWidth W).toNat = n.toNat := by
    rw [BitVec.toNat_setWidth]
    exact Nat.mod_eq_of_lt (Nat.lt_of_lt_of_le n.isLt (Nat.pow_le_pow_right (by omega) (by omega)))
  have hwide : (n.setWidth 64).toNat = n.toNat := by
    rw [BitVec.toNat_setWidth]
    exact Nat.mod_eq_of_lt (Nat.lt_of_lt_of_le n.isLt (by decide))
  obtain ⟨hlen, hval⟩ := mulIntegerFrom_spec (n.setWidth W) rw x 0
  have hlt := val_lt (mulIntegerFrom (n.setWidth W) rw x 0).1
  have hpos := pow_base_pos (W := W) rw
  rw [hlen] at hlt
  rw [hmult, show (0 : BitVec W).toNat = 0 by simp, Nat.add_zero] at hval
  rw [pow_mul, mpMulInto_eq, val_mpFromInteger h, hwide]
  unfold mpMulIntegerInto
  dsimp only
  have hcarry : (mulIntegerFrom (n.setWidth W) rw x 0).2 = 0 ↔ val x % (2 ^ W) ^ rw * n.toNat < (2 ^ W) ^ rw := by
    rw [← hval]
    constructor
    · intro hc
      rw [hc]
      simpa using hlt
    · intro hc
      apply BitVec.eq_of_toNat_eq
      by_contra hne
      have hone : 1 ≤ (mulIntegerFrom (n.setWidth W) rw x 0).2.toNat := by
        apply Nat.one_le_iff_ne_zero.mpr
        intro h0
        apply hne
        rw [h0]
        simp
      have := Nat.mul_le_mul_left ((2 ^ W) ^ rw) hone
      omega
  by_cases hfit : val x % (2 ^ W) ^ rw * n.toNat < (2 ^ W) ^ rw
  · have hc := hcarry.mpr hfit
    rw [if_pos hc, if_pos hfit]
    congr 1
    apply eq_ofNat hlen
    rw [hc, show (0 : BitVec W).toNat = 0 by simp, Nat.mul_zero, Nat.add_zero] at hval
    rw [hval, ← Nat.mod_mul_mod, Nat.mod_eq_of_lt hfit]
  · rw [if_neg fun hc => hfit (hcarry.mp hc), if_neg hfit]

/-- A product that fits. -/
theorem mulInteger_fits (h : W = 16 ∨ W = 32 ∨ W = 64) {rw : Nat} {x : Limbs W} {n : BitVec 16} (hfit : val x * n.toNat < (2 ^ W) ^ rw) :
    mpMulIntegerInto rw x n = some (ofNat W rw (val x * n.toNat)) := by
  have hmod : val x % 2 ^ (W * rw) * n.toNat < 2 ^ (W * rw) := by
    rw [pow_mul]
    exact Nat.lt_of_le_of_lt (Nat.mul_le_mul_right _ (Nat.mod_le _ _)) hfit
  have hwide : (n.setWidth 64).toNat = n.toNat := by
    rw [BitVec.toNat_setWidth]
    exact Nat.mod_eq_of_lt (Nat.lt_of_lt_of_le n.isLt (by decide))
  rw [integer_product h, if_pos hmod, mpMulInto_eq, val_mpFromInteger h, hwide]

/-! ## Agreement -/

theorem integer_ops_agree (h : W = 16 ∨ W = 32 ∨ W = 64) (rw : Nat) (x : Limbs W) (n : BitVec 64) :
    (n.toNat < 2 ^ (W * x.length) →
      mpHsInteger x n = mpCmpHs x (mpFromInteger W n) ∧ mpEqInteger x n = mpCmpEq x (mpFromInteger W n)) ∧
    (n.toNat < 2 ^ W ∨ rw ≤ 1 →
      mpAddIntegerInto rw x n = mpAddInto rw x (mpFromInteger W n) ∧ mpSubIntegerInto rw x n = mpSubInto rw x (mpFromInteger W n)) ∧
    (∀ wordIndex < 2 ^ W, mpAddIntegerIntoShiftedByWords rw x n wordIndex =
      mpAddInto rw x (mpLshiftFixedInto rw (mpFromInteger W n) (wordIndex * W))) ∧
    ∀ k : BitVec 16, mpMulIntegerInto rw x k =
      if val x % 2 ^ (W * rw) * k.toNat < 2 ^ (W * rw) then mpMulInto rw x (mpFromInteger W (k.setWidth 64)) else none := by
  refine ⟨?_, ?_, ?_, ?_⟩
  · intro hn
    exact integer_comparisons h x hn
  · intro hn
    exact integer_sums h x hn
  · intro wordIndex hword
    exact integer_shifted_sum h rw x n hword
  · intro k
    exact integer_product h rw x k

theorem integer_ops_agree_one_word :
    mpAddIntegerInto 1 ([5] : Limbs 32) 7 = mpAddInto 1 [5] (mpFromInteger 32 7) ∧
      mpHsInteger ([5] : Limbs 32) 7 = mpCmpHs [5] (mpFromInteger 32 7) :=
  ⟨((integer_ops_agree (.inr (.inl rfl)) 1 [5] 7).2.1 (.inr (Nat.le_refl 1))).1,
    ((integer_ops_agree (.inr (.inl rfl)) 1 [5] 7).1 (by decide)).1⟩

/-- A product with a carry, integers of two words, and a place beyond a word. -/
theorem wide_integers_differ :
    (mpMulIntegerInto 1 ([0xffff] : Limbs 16) 2 = none ∧ mpMulInto 1 ([0xffff] : Limbs 16) (mpFromInteger 16 2) = some [0xfffe]) ∧
    (mpHsInteger ([5] : Limbs 32) 0x100000000 = true ∧ mpCmpHs ([5] : Limbs 32) (mpFromInteger 32 0x100000000) = false) ∧
    (mpEqInteger ([5] : Limbs 32) 0x100000005 = true ∧ mpCmpEq ([5] : Limbs 32) (mpFromInteger 32 0x100000005) = false) ∧
    (mpAddIntegerInto 2 ([5, 0] : Limbs 32) 0x100000000 = [5, 0] ∧
      mpAddInto 2 ([5, 0] : Limbs 32) (mpFromInteger 32 0x100000000) = [5, 1]) ∧
    (mpSubIntegerInto 2 ([5, 1] : Limbs 32) 0x100000000 = [5, 1] ∧
      mpSubInto 2 ([5, 1] : Limbs 32) (mpFromInteger 32 0x100000000) = [5, 0]) ∧
    mpAddIntegerIntoShiftedByWords 1 ([0] : Limbs 16) 1 0x10000 = [1] ∧
      mpAddInto 1 ([0] : Limbs 16) (mpLshiftFixedInto 1 (mpFromInteger 16 1) (0x10000 * 16)) = [0] := by
  refine ⟨⟨by decide, ?_⟩, by decide, by decide, by decide, by decide, by decide, by decide⟩
  rw [mpMulInto_eq]
  decide

end Putty.Mpint
