/-
  Putty.Mpint.Words — the word loops of `mpint.c`: sums, differences, comparisons,
  conditional choices and shifts.

  An mp_int is its words, `BIGNUM_INT_BITS` being `W`; a destination is given by the
  number of its words, and what the C code stores there is the result. A loop that reads
  each word of its operands once goes down their lists, a number that has run out having
  zero words (`mp_word`). No loop here reads a word of its destination after writing it,
  so that an operand may be the destination. A flag, an `unsigned` of which only bit 0
  counts, is a `Bool`.

  Proved: each function computes, in numbers, what it is named for, cut to the width of
  its destination.
-/

import Mathlib.Data.Nat.Bitwise
import Mathlib.Data.Int.ModEq
import Putty.Lib.Limbs

namespace Putty.Mpint

open Putty.Lib Putty.Lib.Limbs

variable {W : Nat}

/-! ## Words -/

def mpWord (x : Limbs W) (i : Nat) : BitVec W := x.getD i 0

/-- Reads from the words of `src`, the rest of the destination being cleared. -/
def mpCopyInto (nw : Nat) (src : Limbs W) : Limbs W := src.take nw ++ List.replicate (nw - src.length) 0

/-- `-(BignumInt)(1 & which)`. -/
def maskOf (W : Nat) (which : Bool) : BitVec W := -(BitVec.ofNat W which.toNat)

def mpSelectInto (nw : Nat) (src0 src1 : Limbs W) (which : Bool) : Limbs W :=
  (List.range nw).map fun i => mpWord src0 i ^^^ ((mpWord src1 i ^^^ mpWord src0 i) &&& maskOf W which)

/-- Both numbers as they are left; the assertion is that their widths agree. -/
def mpCondSwap (x0 x1 : Limbs W) (swap : Bool) : Option (Limbs W × Limbs W) :=
  if x0.length = x1.length then
    some (List.zipWith (fun a b => a ^^^ ((a ^^^ b) &&& maskOf W swap)) x0 x1,
      List.zipWith (fun a b => b ^^^ ((a ^^^ b) &&& maskOf W swap)) x0 x1)
  else none

def mpGetBit (x : Limbs W) (bit : Nat) : Bool := ((mpWord x (bit / W)) >>> (bit % W)).getLsbD 0

def mpSetBit (x : Limbs W) (bit : Nat) (val : Bool) : Option (Limbs W) :=
  if bit / W < x.length then
    some (x.set (bit / W) (mpWord x (bit / W) &&& ~~~(1#W <<< (bit % W)) ||| BitVec.ofNat W val.toNat <<< (bit % W)))
  else none

/-- 0 stays 0 and every other word becomes 1. -/
def normaliseTo1 (n : BitVec W) : Bool :=
  let n := n >>> 1 ||| n &&& 1
  ((-n) >>> (W - 1)).getLsbD 0

/-! ## Sums and differences -/

/-- mp_add_masked_into: the words stored and the carry off the top. -/
def mpAddMaskedInto (bAnd bXor : BitVec W) : Nat → Limbs W → Limbs W → Nat → Limbs W × Nat
  | 0, _, _, carry => ([], carry)
  | rw + 1, a, b, carry =>
    let (out, carry) := addc (a.headD 0) (b.headD 0 &&& bAnd ^^^ bXor) carry
    let (w, carry) := mpAddMaskedInto bAnd bXor rw a.tail b.tail carry
    (out :: w, carry)

def ones (W : Nat) : BitVec W := ~~~0

def mpAddInto (rw : Nat) (a b : Limbs W) : Limbs W := (mpAddMaskedInto (ones W) 0 rw a b 0).1

def mpSubInto (rw : Nat) (a b : Limbs W) : Limbs W := (mpAddMaskedInto (ones W) (ones W) rw a b 1).1

def mpCondAddInto (rw : Nat) (a b : Limbs W) (yes : Bool) : Limbs W := (mpAddMaskedInto (maskOf W yes) 0 rw a b 0).1

def mpCondSubInto (rw : Nat) (a b : Limbs W) (yes : Bool) : Limbs W :=
  (mpAddMaskedInto (maskOf W yes) (maskOf W yes) rw a b (1#W &&& maskOf W yes).toNat).1

/-- The carry of the subtraction, as a flag. -/
def mpCmpHs (a b : Limbs W) : Bool := (mpAddMaskedInto (ones W) (ones W) (max a.length b.length) a b 1).2 % 2 = 1

def mpCmpEq (a b : Limbs W) : Bool :=
  !normaliseTo1 ((List.range (max a.length b.length)).foldl (fun diff i => diff ||| mpWord a i ^^^ mpWord b i) 0)

/-! ## Shifts -/

def mpLshiftFixedInto (rw : Nat) (a : Limbs W) (bits : Nat) : Limbs W :=
  (List.range rw).map fun i =>
    if i < bits / W then 0
    else if bits % W ≠ 0 then
      let w := mpWord a (i - bits / W) <<< (bits % W)
      if i > bits / W then w ||| mpWord a (i - bits / W - 1) >>> (W - bits % W) else w
    else mpWord a (i - bits / W)

def mpRshiftFixedInto (rw : Nat) (a : Limbs W) (bits : Nat) : Limbs W :=
  (List.range rw).map fun i =>
    if bits % W ≠ 0 then mpWord a (i + bits / W) >>> (bits % W) ||| mpWord a (i + bits / W + 1) <<< (W - bits % W)
    else mpWord a (i + bits / W)

/-! ## What the masks choose -/

theorem mask_true : maskOf W true = ones W := by
  show -(BitVec.ofNat W 1) = ~~~0#W
  rw [BitVec.neg_one_eq_allOnes]
  rw [← BitVec.allOnes_xor]
  simp

theorem mask_false : maskOf W false = 0 := by
  show -(0#W) = 0#W
  simp

theorem and_ones (w : BitVec W) : w &&& ones W = w := by
  unfold ones
  simp

theorem xor_none (w : BitVec W) : w ^^^ 0 = w := by simp

theorem xor_ones (w : BitVec W) : (w ^^^ ones W).toNat + w.toNat + 1 = 2 ^ W := by
  have hlt := w.isLt
  have hnot : w ^^^ ones W = ~~~w := by simp [ones]
  rw [hnot, BitVec.toNat_not]
  omega

theorem mpWord_toNat (x : Limbs W) (i : Nat) : (mpWord x i).toNat = val x / (2 ^ W) ^ i % 2 ^ W := toNat_getD x i

theorem val_words (x : Limbs W) (n : Nat) : val ((List.range n).map (mpWord x)) = val x % (2 ^ W) ^ n :=
  val_map_range fun i _ => mpWord_toNat x i

@[simp] theorem length_mpCopyInto (nw : Nat) (src : Limbs W) : (mpCopyInto nw src).length = nw := by
  unfold mpCopyInto
  rw [List.length_append, List.length_take, List.length_replicate]
  omega

theorem val_mpCopyInto (nw : Nat) (src : Limbs W) : val (mpCopyInto nw src) = val src % (2 ^ W) ^ nw := by
  unfold mpCopyInto
  rw [val_append, val_replicate_zero, Nat.mul_zero, Nat.add_zero, val_take]

theorem mpSelectInto_eq (nw : Nat) (src0 src1 : Limbs W) (which : Bool) :
    mpSelectInto nw src0 src1 which = (List.range nw).map (mpWord (if which then src1 else src0)) := by
  apply List.map_congr_left
  intro i _
  cases which with
  | false =>
    rw [mask_false]
    simp
  | true =>
    rw [mask_true, and_ones, BitVec.xor_comm, BitVec.xor_assoc, BitVec.xor_self, BitVec.xor_zero]
    rfl

@[simp] theorem length_mpSelectInto (nw : Nat) (src0 src1 : Limbs W) (which : Bool) :
    (mpSelectInto nw src0 src1 which).length = nw := by simp [mpSelectInto]

theorem val_mpSelectInto (nw : Nat) (src0 src1 : Limbs W) (which : Bool) :
    val (mpSelectInto nw src0 src1 which) = (if which then val src1 else val src0) % (2 ^ W) ^ nw := by
  rw [mpSelectInto_eq, val_words]
  cases which <;> rfl

theorem zipWith_left {f : BitVec W → BitVec W → BitVec W} (hf : ∀ a b, f a b = a) {x0 x1 : Limbs W} (h : x0.length = x1.length) :
    List.zipWith f x0 x1 = x0 := by
  apply List.ext_getElem
  · rw [List.length_zipWith, h, Nat.min_self]
  · intro i h1 h2
    rw [List.getElem_zipWith, hf]

theorem zipWith_right {f : BitVec W → BitVec W → BitVec W} (hf : ∀ a b, f a b = b) {x0 x1 : Limbs W} (h : x0.length = x1.length) :
    List.zipWith f x0 x1 = x1 := by
  apply List.ext_getElem
  · rw [List.length_zipWith, h, Nat.min_self]
  · intro i h1 h2
    rw [List.getElem_zipWith, hf]

theorem mpCondSwap_eq {x0 x1 : Limbs W} (h : x0.length = x1.length) (swap : Bool) :
    mpCondSwap x0 x1 swap = some (if swap then (x1, x0) else (x0, x1)) := by
  have hself : ∀ a b : BitVec W, a ^^^ (a ^^^ b) = b := by
    intro a b
    rw [← BitVec.xor_assoc, BitVec.xor_self, BitVec.zero_xor]
  unfold mpCondSwap
  rw [if_pos h]
  cases swap with
  | false =>
    rw [mask_false, zipWith_left (by simp) h, zipWith_right (by simp) h]
    rfl
  | true =>
    rw [mask_true, zipWith_right (by intro a b; rw [and_ones, hself]) h,
      zipWith_left (by intro a b; rw [and_ones, BitVec.xor_comm a b, hself]) h]
    rfl

/-! ## Bits -/

theorem mpGetBit_eq (x : Limbs W) (bit : Nat) : mpGetBit x bit = (mpWord x (bit / W)).getLsbD (bit % W) := by
  unfold mpGetBit
  rw [BitVec.getLsbD_ushiftRight, Nat.add_zero]

theorem getLsbD_set (w : BitVec W) (v : Bool) {s t : Nat} (ht : t < W) :
    (w &&& ~~~(1#W <<< s) ||| BitVec.ofNat W v.toNat <<< s).getLsbD t = if t = s then v else w.getLsbD t := by
  have hone : (1#W <<< s).getLsbD t = decide (t = s) := by
    rw [BitVec.getLsbD_shiftLeft, BitVec.getLsbD_one]
    by_cases h : t = s
    · subst h
      simp [ht, show 0 < W by omega]
    · by_cases hlt : t < s
      · simp [hlt, h]
      · simp [h, show t - s ≠ 0 by omega]
  have hval : (BitVec.ofNat W v.toNat <<< s).getLsbD t = (decide (t = s) && v) := by
    cases v with
    | false => simp
    | true => rw [Bool.and_true]; exact hone
  rw [BitVec.getLsbD_or, BitVec.getLsbD_and, BitVec.getLsbD_not, hone, hval]
  by_cases h : t = s
  · simp [h]
  · simp [h, ht]

theorem mpSetBit_spec {x : Limbs W} {bit : Nat} (hW : 0 < W) (h : bit / W < x.length) (v : Bool) :
    ∃ x', mpSetBit x bit v = some x' ∧ x'.length = x.length ∧ ∀ j, mpGetBit x' j = if j = bit then v else mpGetBit x j := by
  unfold mpSetBit
  rw [if_pos h]
  refine ⟨_, rfl, List.length_set, ?_⟩
  intro j
  have hpos : j = bit ↔ j / W = bit / W ∧ j % W = bit % W := by
    constructor
    · intro e
      exact ⟨by rw [e], by rw [e]⟩
    · intro e
      rw [← Nat.div_add_mod j W, ← Nat.div_add_mod bit W, e.1, e.2]
  rw [mpGetBit_eq, mpGetBit_eq]
  unfold mpWord
  by_cases hword : j / W = bit / W
  · have hself : (x.set (bit / W) ((x.getD (bit / W) 0) &&& ~~~(1#W <<< (bit % W)) ||| BitVec.ofNat W v.toNat <<< (bit % W))).getD
        (bit / W) 0 = (x.getD (bit / W) 0) &&& ~~~(1#W <<< (bit % W)) ||| BitVec.ofNat W v.toNat <<< (bit % W) := by
      rw [List.getD_eq_getElem _ _ (by rw [List.length_set]; exact h), List.getElem_set_self]
    rw [hword, hself, getLsbD_set _ v (Nat.mod_lt j hW)]
    by_cases hbit : j % W = bit % W
    · rw [if_pos hbit, if_pos (hpos.mpr ⟨hword, hbit⟩)]
    · rw [if_neg hbit, if_neg fun e => hbit (hpos.mp e).2]
  · have hother : ∀ w : BitVec W, (x.set (bit / W) w).getD (j / W) 0 = x.getD (j / W) 0 := by
      intro w
      rw [List.getD_eq_getElem?_getD, List.getD_eq_getElem?_getD, List.getElem?_set_ne (by omega)]
    rw [hother, if_neg fun e => hword (hpos.mp e).1]

/-! ## Sums, differences, comparisons -/

/-- The number made of the masked words. -/
def masked (bAnd bXor : BitVec W) : Nat → Limbs W → Nat
  | 0, _ => 0
  | rw + 1, b => (b.headD 0 &&& bAnd ^^^ bXor).toNat + 2 ^ W * masked bAnd bXor rw b.tail

theorem mpAddMaskedInto_spec (bAnd bXor : BitVec W) (rw : Nat) (a b : Limbs W) (carry : Nat) :
    (mpAddMaskedInto bAnd bXor rw a b carry).1.length = rw ∧
      val (mpAddMaskedInto bAnd bXor rw a b carry).1 + (2 ^ W) ^ rw * (mpAddMaskedInto bAnd bXor rw a b carry).2 =
        val a % (2 ^ W) ^ rw + masked bAnd bXor rw b + carry := by
  induction rw generalizing a b carry with
  | zero => simp [mpAddMaskedInto, masked, Nat.mod_one]
  | succ rw ih =>
    have hstep := addc_spec (a.headD 0) (b.headD 0 &&& bAnd ^^^ bXor) carry
    obtain ⟨hlen, hval⟩ := ih a.tail b.tail (addc (a.headD 0) (b.headD 0 &&& bAnd ^^^ bXor) carry).2
    unfold mpAddMaskedInto masked
    dsimp only
    rw [List.length_cons, hlen, val_cons, val_mod_succ, ← toNat_headD, ← val_tail, Nat.pow_succ']
    refine ⟨rfl, ?_⟩
    have hmul := congrArg (2 ^ W * ·) hval
    linarith [Nat.mul_assoc (2 ^ W) ((2 ^ W) ^ rw) (mpAddMaskedInto bAnd bXor rw a.tail b.tail
      (addc (a.headD 0) (b.headD 0 &&& bAnd ^^^ bXor) carry).2).2]

theorem carry_le {bAnd bXor : BitVec W} {rw : Nat} {a b : Limbs W} {carry : Nat} (h : carry ≤ 1) :
    (mpAddMaskedInto bAnd bXor rw a b carry).2 ≤ 1 := by
  induction rw generalizing a b carry with
  | zero => exact h
  | succ rw ih => exact ih (addc_carry_le h)

theorem masked_plain (rw : Nat) (b : Limbs W) : masked (ones W) 0 rw b = val b % (2 ^ W) ^ rw := by
  induction rw generalizing b with
  | zero => simp [masked, Nat.mod_one]
  | succ rw ih =>
    rw [masked, ih, and_ones, xor_none, val_mod_succ, toNat_headD, val_tail]

theorem masked_none (rw : Nat) (b : Limbs W) : masked (0 : BitVec W) 0 rw b = 0 := by
  induction rw generalizing b with
  | zero => rfl
  | succ rw ih =>
    rw [masked, ih]
    simp

/-- Flipping the bits takes a number from the largest. -/
theorem masked_flipped (rw : Nat) (b : Limbs W) : masked (ones W) (ones W) rw b + val b % (2 ^ W) ^ rw + 1 = (2 ^ W) ^ rw := by
  induction rw generalizing b with
  | zero => simp [masked, Nat.mod_one]
  | succ rw ih =>
    have hhead := xor_ones (b.headD 0)
    have hrest := congrArg (2 ^ W * ·) (ih b.tail)
    rw [masked, and_ones, val_mod_succ, ← toNat_headD, ← val_tail, Nat.pow_succ']
    linarith [hrest, hhead]

theorem length_mpAddMaskedInto (bAnd bXor : BitVec W) (rw : Nat) (a b : Limbs W) (carry : Nat) :
    (mpAddMaskedInto bAnd bXor rw a b carry).1.length = rw := (mpAddMaskedInto_spec bAnd bXor rw a b carry).1

@[simp] theorem length_mpAddInto (rw : Nat) (a b : Limbs W) : (mpAddInto rw a b).length = rw := length_mpAddMaskedInto ..

@[simp] theorem length_mpSubInto (rw : Nat) (a b : Limbs W) : (mpSubInto rw a b).length = rw := length_mpAddMaskedInto ..

@[simp] theorem length_mpCondAddInto (rw : Nat) (a b : Limbs W) (yes : Bool) : (mpCondAddInto rw a b yes).length = rw :=
  length_mpAddMaskedInto ..

@[simp] theorem length_mpCondSubInto (rw : Nat) (a b : Limbs W) (yes : Bool) : (mpCondSubInto rw a b yes).length = rw :=
  length_mpAddMaskedInto ..

/-- What is stored of a number that a carry may leave is its remainder. -/
theorem stored_mod {x : Limbs W} {rw carry n : Nat} (hlen : x.length = rw) (h : val x + (2 ^ W) ^ rw * carry = n) :
    val x = n % (2 ^ W) ^ rw := by
  have hlt := val_lt x
  rw [hlen] at hlt
  rw [← h, Nat.add_mul_mod_self_left, Nat.mod_eq_of_lt hlt]

theorem val_mpAddInto (rw : Nat) (a b : Limbs W) : val (mpAddInto rw a b) = (val a + val b) % (2 ^ W) ^ rw := by
  obtain ⟨hlen, hval⟩ := mpAddMaskedInto_spec (ones W) 0 rw a b 0
  rw [masked_plain] at hval
  unfold mpAddInto
  rw [stored_mod hlen hval, Nat.add_zero, ← Nat.add_mod]

theorem val_mpCondAddInto (rw : Nat) (a b : Limbs W) (yes : Bool) :
    val (mpCondAddInto rw a b yes) = (val a + if yes then val b else 0) % (2 ^ W) ^ rw := by
  cases yes with
  | false =>
    obtain ⟨hlen, hval⟩ := mpAddMaskedInto_spec (maskOf W false) 0 rw a b 0
    unfold mpCondAddInto
    rw [mask_false, masked_none] at hval
    rw [mask_false] at hlen ⊢
    rw [stored_mod hlen hval, Nat.add_zero, Nat.mod_mod]
    rfl
  | true =>
    unfold mpCondAddInto
    rw [mask_true]
    exact val_mpAddInto rw a b

/-- A difference, with what is taken away added again. -/
theorem val_mpSubInto_add (rw : Nat) (a b : Limbs W) : (val (mpSubInto rw a b) + val b) % (2 ^ W) ^ rw = val a % (2 ^ W) ^ rw := by
  obtain ⟨hlen, hval⟩ := mpAddMaskedInto_spec (ones W) (ones W) rw a b 1
  have hflip := masked_flipped rw b
  unfold mpSubInto
  rw [stored_mod hlen hval, Nat.mod_add_mod]
  have hsum : val a % (2 ^ W) ^ rw + masked (ones W) (ones W) rw b + 1 + val b =
      val a % (2 ^ W) ^ rw + (2 ^ W) ^ rw * (1 + val b / (2 ^ W) ^ rw) := by
    have hdiv := Nat.mod_add_div (val b) ((2 ^ W) ^ rw)
    linarith [Nat.mul_add ((2 ^ W) ^ rw) 1 (val b / (2 ^ W) ^ rw)]
  rw [hsum, Nat.add_mul_mod_self_left, Nat.mod_mod]

theorem val_mpSubInto {rw : Nat} {a b : Limbs W} (h : val b ≤ val a) : val (mpSubInto rw a b) = (val a - val b) % (2 ^ W) ^ rw := by
  have hlt := val_lt (mpSubInto rw a b)
  have hadd := val_mpSubInto_add rw a b
  rw [length_mpSubInto] at hlt
  have hcancel : val (mpSubInto rw a b) ≡ val a - val b [MOD (2 ^ W) ^ rw] := by
    apply Nat.ModEq.add_right_cancel' (val b)
    rw [Nat.sub_add_cancel h]
    exact hadd
  rw [← hcancel, Nat.mod_eq_of_lt hlt]

theorem val_mpCondSubInto {rw : Nat} {a b : Limbs W} {yes : Bool} (h : yes = true → val b ≤ val a) :
    val (mpCondSubInto rw a b yes) = (val a - if yes then val b else 0) % (2 ^ W) ^ rw := by
  cases yes with
  | false =>
    obtain ⟨hlen, hval⟩ := mpAddMaskedInto_spec (0 : BitVec W) 0 rw a b 0
    rw [masked_none] at hval
    unfold mpCondSubInto
    rw [mask_false, show (1#W &&& 0).toNat = 0 by simp, stored_mod hlen hval, Nat.add_zero, Nat.mod_mod]
    rfl
  | true =>
    by_cases hW : W = 0
    · subst hW
      have hlt := val_lt (mpCondSubInto rw a b true)
      rw [Nat.pow_zero, Nat.one_pow] at hlt ⊢
      omega
    · have hone : (1#W).toNat = 1 := by
        rw [BitVec.toNat_ofNat, Nat.mod_eq_of_lt (Nat.one_lt_two_pow hW)]
      unfold mpCondSubInto
      rw [mask_true, and_ones, hone]
      exact val_mpSubInto (h rfl)

/-- The carry of a subtraction says that it did not go below 0. -/
theorem mpCmpHs_eq (a b : Limbs W) : mpCmpHs a b = decide (val b ≤ val a) := by
  have hwidth : ∀ x : Limbs W, x.length ≤ max a.length b.length → val x % (2 ^ W) ^ max a.length b.length = val x := by
    intro x hx
    exact Nat.mod_eq_of_lt (Nat.lt_of_lt_of_le (val_lt x) (Nat.pow_le_pow_right base_pos hx))
  obtain ⟨hlen, hval⟩ := mpAddMaskedInto_spec (ones W) (ones W) (max a.length b.length) a b 1
  have hflip := masked_flipped (max a.length b.length) b
  have hlt := val_lt (mpAddMaskedInto (ones W) (ones W) (max a.length b.length) a b 1).1
  have hle : (mpAddMaskedInto (ones W) (ones W) (max a.length b.length) a b 1).2 ≤ 1 := carry_le (Nat.le_refl 1)
  have ha := val_lt a
  rw [hlen] at hlt
  rw [hwidth a (by omega)] at hval
  rw [hwidth b (by omega)] at hflip
  unfold mpCmpHs
  rw [decide_eq_decide]
  generalize (mpAddMaskedInto (ones W) (ones W) (max a.length b.length) a b 1).2 = carry at *
  generalize (2 ^ W) ^ max a.length b.length = M at *
  obtain rfl | rfl : carry = 0 ∨ carry = 1 := by omega
  · constructor
    · intro h
      omega
    · intro h
      omega
  · constructor
    · intro _
      omega
    · intro _
      rfl

/-- The negative of a word whose top bit is clear has it set, unless it is 0. -/
theorem top_of_neg (hW : 0 < W) {m : BitVec W} (hlow : m.toNat < 2 ^ (W - 1)) :
    ((-m) >>> (W - 1)).getLsbD 0 = decide (m ≠ 0) := by
  have hhalf : 2 ^ W = 2 * 2 ^ (W - 1) := by
    rw [← Nat.pow_succ', Nat.succ_eq_add_one, Nat.sub_add_cancel (by omega)]
  have hneg : (-m).toNat = (2 ^ W - m.toNat) % 2 ^ W := BitVec.toNat_neg m
  rw [BitVec.getLsbD_ushiftRight, Nat.add_zero, ← BitVec.msb_eq_getLsbD_last, BitVec.msb_eq_decide, decide_eq_decide, hneg]
  by_cases h0 : m = 0
  · have hpos := Nat.two_pow_pos (W - 1)
    rw [h0, show (0 : BitVec W).toNat = 0 by simp, Nat.sub_zero, Nat.mod_self]
    constructor
    · intro h
      omega
    · intro h
      exact absurd rfl h
  · have hne : m.toNat ≠ 0 := by
      intro h
      apply h0
      apply BitVec.eq_of_toNat_eq
      rw [h]
      simp
    rw [Nat.mod_eq_of_lt (by omega)]
    constructor
    · intro _
      exact h0
    · intro _
      omega

theorem normaliseTo1_eq (hW : 2 ≤ W) (n : BitVec W) : normaliseTo1 n = decide (n ≠ 0) := by
  have hone : (1 : BitVec W).toNat = 1 := by
    show (1#W).toNat = 1
    rw [BitVec.toNat_ofNat, Nat.mod_eq_of_lt (Nat.one_lt_two_pow (by omega))]
  have hnat : (n >>> 1 ||| n &&& 1).toNat = n.toNat / 2 ||| n.toNat % 2 := by
    rw [BitVec.toNat_or, BitVec.toNat_ushiftRight, BitVec.toNat_and, hone, Nat.shiftRight_eq_div_pow, Nat.and_one_is_mod, Nat.pow_one]
  have hhalf : 2 ^ W = 2 * 2 ^ (W - 1) := by
    rw [← Nat.pow_succ', Nat.succ_eq_add_one, Nat.sub_add_cancel (by omega)]
  have hlow : (n >>> 1 ||| n &&& 1).toNat < 2 ^ (W - 1) := by
    have hn := n.isLt
    rw [hnat]
    apply Nat.or_lt_two_pow
    · omega
    · have := Nat.mod_lt n.toNat (show 2 > 0 by omega)
      have := Nat.one_lt_two_pow (show W - 1 ≠ 0 by omega)
      omega
  have hzero : n >>> 1 ||| n &&& 1 ≠ 0 ↔ n ≠ 0 := by
    rw [not_iff_not]
    constructor
    · intro h
      have hz := congrArg BitVec.toNat h
      rw [hnat, show (0 : BitVec W).toNat = 0 by simp, Nat.or_eq_zero_iff] at hz
      apply BitVec.eq_of_toNat_eq
      rw [show (0 : BitVec W).toNat = 0 by simp]
      omega
    · intro h
      rw [h]
      simp
  show ((-(n >>> 1 ||| n &&& 1)) >>> (W - 1)).getLsbD 0 = _
  rw [top_of_neg (by omega) hlow, decide_eq_decide]
  exact hzero

theorem foldl_or_eq_zero {f : Nat → BitVec W} {l : List Nat} {d : BitVec W} :
    l.foldl (fun diff i => diff ||| f i) d = 0 ↔ d = 0 ∧ ∀ i ∈ l, f i = 0 := by
  induction l generalizing d with
  | nil => simp
  | cons i l ih =>
    rw [List.foldl_cons, ih]
    constructor
    · intro h
      obtain ⟨h1, h2⟩ := h
      obtain ⟨h3, h4⟩ := BitVec.or_eq_zero_iff.mp h1
      refine ⟨h3, ?_⟩
      intro j hj
      rcases List.mem_cons.mp hj with rfl | hj
      · exact h4
      · exact h2 j hj
    · intro h
      obtain ⟨h1, h2⟩ := h
      refine ⟨BitVec.or_eq_zero_iff.mpr ⟨h1, h2 i List.mem_cons_self⟩, ?_⟩
      intro j hj
      exact h2 j (List.mem_cons_of_mem i hj)

theorem mpCmpEq_eq (hW : 2 ≤ W) (a b : Limbs W) : mpCmpEq a b = decide (val a = val b) := by
  have hwidth : ∀ x : Limbs W, x.length ≤ max a.length b.length →
      val ((List.range (max a.length b.length)).map (mpWord x)) = val x := by
    intro x hx
    rw [val_words]
    exact Nat.mod_eq_of_lt (Nat.lt_of_lt_of_le (val_lt x) (Nat.pow_le_pow_right base_pos hx))
  unfold mpCmpEq
  rw [normaliseTo1_eq hW, ← decide_not, decide_eq_decide, not_not, foldl_or_eq_zero]
  constructor
  · intro h
    rw [← hwidth a (by omega), ← hwidth b (by omega)]
    congr 1
    apply List.map_congr_left
    intro i hi
    exact BitVec.xor_eq_zero_iff.mp (h.2 i hi)
  · intro h
    refine ⟨rfl, ?_⟩
    intro i _
    apply BitVec.xor_eq_zero_iff.mpr
    apply BitVec.eq_of_toNat_eq
    rw [mpWord_toNat, mpWord_toNat, h]

/-! ## Shifting -/

/-- Two neighbouring words, shifted right. -/
theorem shiftedRight_toNat {lo hi : BitVec W} {u k : Nat} (hk : k < W) (hlo : lo.toNat = u % 2 ^ W) (hhi : hi.toNat = u / 2 ^ W % 2 ^ W) :
    (lo >>> k ||| hi <<< (W - k)).toNat = u / 2 ^ k % 2 ^ W := by
  apply Nat.eq_of_testBit_eq
  intro j
  rw [BitVec.toNat_or, BitVec.toNat_ushiftRight, BitVec.toNat_shiftLeft, hlo, hhi, Nat.testBit_or, Nat.testBit_shiftRight,
    Nat.testBit_mod_two_pow, Nat.testBit_mod_two_pow, Nat.testBit_shiftLeft, Nat.testBit_mod_two_pow, Nat.testBit_div_two_pow,
    Nat.testBit_mod_two_pow, Nat.testBit_div_two_pow]
  by_cases hj : j < W
  · by_cases hlow : k + j < W
    · simp [hj, hlow, show ¬W - k ≤ j by omega, Nat.add_comm]
    · simp [hj, hlow, show W - k ≤ j by omega, show j - (W - k) < W by omega, show j - (W - k) + W = j + k by omega]
  · simp [hj, show ¬k + j < W by omega]

/-- The word that a shift puts in place `i` is a word of the shifted number. -/
theorem val_mpRshiftFixedInto (hW : 0 < W) (rw : Nat) (a : Limbs W) (bits : Nat) :
    val (mpRshiftFixedInto rw a bits) = val a / 2 ^ bits % (2 ^ W) ^ rw := by
  apply val_map_range
  intro i _
  have hbits : val a / 2 ^ bits / (2 ^ W) ^ i = val a / (2 ^ W) ^ (i + bits / W) / 2 ^ (bits % W) := by
    rw [Nat.div_div_eq_div_mul, Nat.div_div_eq_div_mul, ← pow_mul, ← pow_mul, ← pow_add, ← pow_add]
    congr 2
    have := Nat.div_add_mod bits W
    rw [Nat.mul_add]
    omega
  have hlo : (mpWord a (i + bits / W)).toNat = val a / (2 ^ W) ^ (i + bits / W) % 2 ^ W := mpWord_toNat a _
  have hhi : (mpWord a (i + bits / W + 1)).toNat = val a / (2 ^ W) ^ (i + bits / W) / 2 ^ W % 2 ^ W := by
    rw [mpWord_toNat, Nat.pow_succ, Nat.div_div_eq_div_mul]
  by_cases hbit : bits % W ≠ 0
  · rw [if_pos hbit, shiftedRight_toNat (Nat.mod_lt bits hW) hlo hhi, hbits]
  · rw [if_neg hbit, hlo, hbits, not_not.mp hbit, Nat.pow_zero, Nat.div_one]

@[simp] theorem length_mpRshiftFixedInto (rw : Nat) (a : Limbs W) (bits : Nat) : (mpRshiftFixedInto rw a bits).length = rw := by
  simp [mpRshiftFixedInto]

@[simp] theorem length_mpLshiftFixedInto (rw : Nat) (a : Limbs W) (bits : Nat) : (mpLshiftFixedInto rw a bits).length = rw := by
  simp [mpLshiftFixedInto]

/-- The word of place `i` of a number shifted left has the bits of the number below it. -/
theorem shifted_word_testBit (v bits i j : Nat) (hj : j < W) :
    (v * 2 ^ bits / (2 ^ W) ^ i % 2 ^ W).testBit j = (decide (bits ≤ i * W + j) && v.testBit (i * W + j - bits)) := by
  rw [Nat.testBit_mod_two_pow, ← pow_mul, Nat.testBit_div_two_pow, Nat.mul_comm v, Nat.testBit_two_pow_mul, Nat.mul_comm W i,
    Nat.add_comm j]
  simp [hj]

theorem mpWord_testBit (a : Limbs W) (i j : Nat) (hj : j < W) : (mpWord a i).toNat.testBit j = (val a).testBit (i * W + j) := by
  have h := shifted_word_testBit (val a) 0 i j hj
  rw [mpWord_toNat]
  simpa using h

theorem lshifted_word (hW : 0 < W) (a : Limbs W) (bits i j : Nat) (hj : j < W) :
    (if i < bits / W then (0 : BitVec W)
      else if bits % W ≠ 0 then
        if i > bits / W then
          mpWord a (i - bits / W) <<< (bits % W) ||| mpWord a (i - bits / W - 1) >>> (W - bits % W)
        else mpWord a (i - bits / W) <<< (bits % W)
      else mpWord a (i - bits / W)).toNat.testBit j = (decide (bits ≤ i * W + j) && (val a).testBit (i * W + j - bits)) := by
  have hmod := Nat.mod_lt bits hW
  have hdiv : bits / W * W + bits % W = bits := Nat.div_add_mod' bits W
  generalize hq : bits / W = q at *
  generalize hk : bits % W = k at *
  by_cases hlt : i < q
  · -- below the shifted number
    have hrow := Nat.mul_le_mul_right W (Nat.succ_le_of_lt hlt)
    rw [Nat.succ_mul] at hrow
    rw [if_pos hlt, decide_eq_false (by omega), Bool.false_and]
    exact Nat.zero_testBit j
  · obtain ⟨d, rfl⟩ : ∃ d, i = q + d := ⟨i - q, by omega⟩
    rw [if_neg hlt, Nat.add_sub_cancel_left, Nat.add_mul]
    have hlow : (mpWord a d <<< k).toNat.testBit j = (decide (k ≤ j) && (val a).testBit (d * W + j - k)) := by
      rw [BitVec.toNat_shiftLeft, Nat.testBit_mod_two_pow, Nat.testBit_shiftLeft, decide_eq_true hj, Bool.true_and]
      by_cases hkj : k ≤ j
      · rw [mpWord_testBit a d (j - k) (by omega), Nat.add_sub_assoc hkj]
      · simp [hkj]
    by_cases hbit : k ≠ 0
    · rw [if_pos hbit]
      by_cases hd : q + d > q
      · -- a word and the one below it
        obtain ⟨e, rfl⟩ : ∃ e, d = e + 1 := ⟨d - 1, by omega⟩
        have hhigh : (mpWord a e >>> (W - k)).toNat.testBit j = (decide (j < k) && (val a).testBit (e * W + (W - k + j))) := by
          rw [BitVec.toNat_ushiftRight, Nat.testBit_shiftRight]
          by_cases hjk : j < k
          · rw [mpWord_testBit a e _ (by omega), decide_eq_true hjk, Bool.true_and]
          · rw [Nat.testBit_lt_two_pow (Nat.lt_of_lt_of_le (mpWord a e).isLt (Nat.pow_le_pow_right (by omega) (by omega))),
              decide_eq_false hjk, Bool.false_and]
        rw [if_pos hd, Nat.add_sub_cancel, BitVec.toNat_or, Nat.testBit_or, hlow, hhigh, Nat.succ_mul,
          decide_eq_true (by omega : bits ≤ q * W + (e * W + W) + j), Bool.true_and]
        by_cases hkj : k ≤ j
        · rw [decide_eq_true hkj, decide_eq_false (by omega : ¬j < k), Bool.true_and, Bool.false_and, Bool.or_false]
          congr 1
          omega
        · rw [decide_eq_false hkj, decide_eq_true (by omega : j < k), Bool.true_and, Bool.false_and, Bool.false_or]
          congr 1
          omega
      · -- the lowest word
        obtain rfl : d = 0 := by omega
        rw [if_neg hd, hlow]
        by_cases hkj : k ≤ j
        · rw [decide_eq_true hkj, decide_eq_true (by omega : bits ≤ q * W + 0 * W + j), Bool.true_and, Bool.true_and]
          congr 1
          omega
        · rw [decide_eq_false hkj, decide_eq_false (by omega : ¬bits ≤ q * W + 0 * W + j), Bool.false_and, Bool.false_and]
    · -- whole words
      obtain rfl : k = 0 := not_not.mp hbit
      rw [if_neg hbit, mpWord_testBit a d j hj, decide_eq_true (by omega : bits ≤ q * W + d * W + j), Bool.true_and]
      congr 1
      omega

theorem val_mpLshiftFixedInto (hW : 0 < W) (rw : Nat) (a : Limbs W) (bits : Nat) :
    val (mpLshiftFixedInto rw a bits) = val a * 2 ^ bits % (2 ^ W) ^ rw := by
  apply val_map_range
  intro i _
  apply Nat.eq_of_testBit_eq
  intro j
  by_cases hj : j < W
  · rw [shifted_word_testBit _ _ _ _ hj]
    exact lshifted_word hW a bits i j hj
  · have hle : 2 ^ W ≤ 2 ^ j := Nat.pow_le_pow_right (by omega) (by omega)
    rw [Nat.testBit_lt_two_pow (Nat.lt_of_lt_of_le (BitVec.isLt _) hle),
      Nat.testBit_lt_two_pow (Nat.lt_of_lt_of_le (Nat.mod_lt _ base_pos) hle)]

end Putty.Mpint
