/-
  Putty.Mpint.Residue — the sum of bytes in `mp_get_decimal`: for which widths its uint32_t
  holds what it should.

  `maxval` is meant to bound `low_digit`, so that both are folded before `low_digit` can
  overflow. But folding is not monotone: 0xfffeff01 becomes more than 0xffffff00 does, so
  that after a fold `low_digit` may be the larger of the two, and at a later fold it may
  have overflowed.

  Proved, for words of 16, 32 and 64 bits:
  - `lowDigit_right`: below `decimalLimit` words nothing overflows, and the residue is right.
  - `lowDigit_wrong`: from `decimalLimit` words on there is a number for which it is not.
  - `conversions_exact_iff`: the conversions to and from decimal and hexadecimal are exact
    for all numbers of a width if and only if the width is below `decimalLimit` words.
-/

import Mathlib.Algebra.Order.BigOperators.Group.List
import Putty.Mpint.Decimal
import Putty.Mpint.Hex

namespace Putty.Mpint

open Putty.Lib Putty.Lib.Limbs

variable {W : Nat}

/-! ## One word -/

def wordBytes (w : BitVec W) : List Nat := (List.range (W / 8)).map fun j => 0xFF &&& (w >>> (8 * j)).toNat

def byteSum (w : BitVec W) : Nat := (wordBytes w).sum

/-- What the lowest word adds, its lowest byte being taken once. -/
def lowestSum (w : BitVec W) : Nat := 6 * byteSum w - 5 * (w.toNat % 256)

/-- What a word can add at most. -/
def wordMax (B : Nat) : Nat := 6 * 0xFF * B

/-- The largest `maxval` that is not folded. -/
def foldLimit (B : Nat) : Nat := 2 ^ 32 - 1 - wordMax B

def foldFull (B : Nat) (r : Residue) : Residue :=
  if r.maxval > foldLimit B then { r with lowDigit := fold32 r.lowDigit, maxval := fold32 r.maxval } else r

theorem wrap32_add (a b : Nat) : wrap32 (wrap32 a + b) = wrap32 (a + b) := by
  unfold wrap32
  rw [Nat.mod_add_mod]

theorem wrap32_lt (n : Nat) : wrap32 n < 2 ^ 32 := Nat.mod_lt n (by decide)

theorem wrap32_of_lt {n : Nat} (h : n < 2 ^ 32) : wrap32 n = n := Nat.mod_eq_of_lt h

theorem fold32_eq {n : Nat} (h : n < 2 ^ 32) : fold32 n = n % 65536 + 6 * (n / 65536) := by
  unfold fold32
  rw [show (0xFFFF : Nat) = 2 ^ 16 - 1 from rfl, Nat.and_two_pow_sub_one_eq_mod, Nat.shiftRight_eq_div_pow]
  apply wrap32_of_lt
  omega

theorem readBytes (bs : List Nat) (low maxval : Nat) (hlow : low < 2 ^ 32) (hmax : maxval < 2 ^ 32) :
    bs.foldl readByte ⟨low, maxval, 6⟩ = ⟨wrap32 (low + 6 * bs.sum), wrap32 (maxval + 6 * 0xFF * bs.length), 6⟩ := by
  induction bs generalizing low maxval with
  | nil =>
    rw [List.foldl_nil, List.sum_nil, List.length_nil, Nat.mul_zero, Nat.add_zero, Nat.add_zero, wrap32_of_lt hlow,
      wrap32_of_lt hmax]
  | cons b bs ih =>
    have hstep : readByte ⟨low, maxval, 6⟩ b = ⟨wrap32 (low + 6 * b), wrap32 (maxval + 6 * 0xFF), 6⟩ := rfl
    have hsum : low + 6 * b + 6 * bs.sum = low + 6 * (b + bs.sum) := by ring
    have hcount : maxval + 6 * 0xFF + 6 * 0xFF * bs.length = maxval + 6 * 0xFF * (bs.length + 1) := by ring
    rw [List.foldl_cons, hstep, ih _ _ (wrap32_lt _) (wrap32_lt _), wrap32_add, wrap32_add, List.sum_cons, List.length_cons, hsum, hcount]

theorem readWord_foldl (r : Residue) (w : BitVec W) : readWord r w = foldFull (W / 8) ((wordBytes w).foldl readByte r) := by
  unfold readWord foldFull foldLimit wordMax wordBytes
  rw [List.foldl_map]

theorem length_wordBytes (w : BitVec W) : (wordBytes w).length = W / 8 := by
  unfold wordBytes
  rw [List.length_map, List.length_range]

theorem readWord_eq (low maxval : Nat) (hlow : low < 2 ^ 32) (hmax : maxval < 2 ^ 32) (w : BitVec W) :
    readWord ⟨low, maxval, 6⟩ w = foldFull (W / 8) ⟨wrap32 (low + 6 * byteSum w), wrap32 (maxval + wordMax (W / 8)), 6⟩ := by
  rw [readWord_foldl, readBytes _ _ _ hlow hmax, length_wordBytes]
  rfl

theorem wordBytes_eq (w : BitVec W) : wordBytes w = (List.range (W / 8)).map fun j => w.toNat / 256 ^ j % 256 := by
  apply List.map_congr_left
  intro j _
  rw [Nat.land_comm, show (0xFF : Nat) = 2 ^ 8 - 1 from rfl, Nat.and_two_pow_sub_one_eq_mod, BitVec.toNat_ushiftRight,
    Nat.shiftRight_eq_div_pow, Nat.pow_mul]

theorem byteSum_le (w : BitVec W) : 6 * byteSum w ≤ wordMax (W / 8) := by
  have hsum : byteSum w ≤ (wordBytes w).length * 255 := by
    apply List.sum_le_card_nsmul
    intro b hb
    rw [wordBytes_eq] at hb
    obtain ⟨j, -, rfl⟩ := List.mem_map.mp hb
    exact Nat.le_of_lt_succ (Nat.mod_lt _ (by decide))
  rw [length_wordBytes] at hsum
  unfold wordMax
  omega

theorem six_mul_pow (k : Nat) : 6 * 256 ^ k % 10 = 6 := by
  induction k with
  | zero => rfl
  | succ k ih =>
    rw [Nat.pow_succ]
    omega

/-- Six times the bytes is six times their number, mod 10. -/
theorem bytes_mod (v k : Nat) : 6 * ((List.range k).map fun j => v / 256 ^ j % 256).sum % 10 = 6 * (v % 256 ^ k) % 10 := by
  induction k with
  | zero => simp [Nat.mod_one]
  | succ k ih =>
    have hpow : 6 * (256 ^ k * (v / 256 ^ k % 256)) % 10 = 6 * (v / 256 ^ k % 256) % 10 := by
      rw [← Nat.mul_assoc, Nat.mul_mod, six_mul_pow]
      omega
    rw [List.range_succ, List.map_append, List.sum_append, List.map_singleton, List.sum_singleton, Nat.pow_succ, Nat.mod_mul]
    omega

theorem byteSum_mod (h : Supported W) (w : BitVec W) : 6 * byteSum w % 10 = 6 * w.toNat % 10 := by
  have hlt := w.isLt
  have hbytes := bytes_mod w.toNat (W / 8)
  rw [show (256 : Nat) = 2 ^ 8 from rfl, ← Nat.pow_mul, ← h.bytes.1, Nat.mod_eq_of_lt hlt] at hbytes
  unfold byteSum
  rw [wordBytes_eq]
  exact hbytes

/-- The lowest byte and the others. -/
theorem wordBytes_cons (h : Supported W) (w : BitVec W) :
    wordBytes w = w.toNat % 256 :: (List.range (W / 8 - 1)).map fun j => w.toNat / 256 / 256 ^ j % 256 := by
  obtain ⟨B, hB⟩ : ∃ B, W / 8 = B + 1 := ⟨W / 8 - 1, by have := h.bytes.2; omega⟩
  rw [wordBytes_eq, hB, List.range_succ_eq_map, List.map_cons, List.map_map, Nat.pow_zero, Nat.div_one, Nat.add_sub_cancel]
  congr 1
  apply List.map_congr_left
  intro j _
  show w.toNat / 256 ^ (j + 1) % 256 = _
  rw [Nat.pow_succ', Nat.div_div_eq_div_mul]

theorem lowestSum_mod (h : Supported W) (w : BitVec W) : lowestSum w % 10 = w.toNat % 10 := by
  have hlt := w.isLt
  have hbytes := bytes_mod (w.toNat / 256) (W / 8 - 1)
  have hfits : w.toNat / 256 < 256 ^ (W / 8 - 1) := by
    apply Nat.div_lt_of_lt_mul
    rw [← Nat.pow_succ', Nat.succ_eq_add_one, Nat.sub_add_cancel h.bytes.2, show (256 : Nat) = 2 ^ 8 from rfl, ← Nat.pow_mul,
      ← h.bytes.1]
    exact hlt
  rw [Nat.mod_eq_of_lt hfits] at hbytes
  unfold lowestSum byteSum
  rw [wordBytes_cons h, List.sum_cons]
  generalize ((List.range (W / 8 - 1)).map fun j => w.toNat / 256 / 256 ^ j % 256).sum = rest at hbytes ⊢
  omega

/-- The bytes of a word are few enough for their sum and for the bound to fit. -/
theorem Supported.word_small (h : Supported W) : 1 ≤ W / 8 ∧ W / 8 ≤ 8 := by
  unfold Supported at h
  omega

/-- The state after the lowest word. -/
theorem readWord_lowest (h : Supported W) (w : BitVec W) :
    readWord ⟨0, 0, 1⟩ w = ⟨lowestSum w, wordMax (W / 8) - 5 * 0xFF, 6⟩ ∧ lowestSum w ≤ wordMax (W / 8) - 5 * 0xFF := by
  obtain ⟨hB1, hB8⟩ := h.word_small
  have hsum := byteSum_le w
  have hmax : wordMax (W / 8) = 6 * 0xFF * (W / 8) := rfl
  have hbytes := wordBytes_cons h w
  have hlen := length_wordBytes w
  have hlow : lowestSum w = w.toNat % 256 + 6 * ((List.range (W / 8 - 1)).map fun j => w.toNat / 256 / 256 ^ j % 256).sum := by
    unfold lowestSum byteSum
    rw [hbytes, List.sum_cons]
    omega
  have hrest := List.sum_le_card_nsmul ((List.range (W / 8 - 1)).map fun j => w.toNat / 256 / 256 ^ j % 256) 255 (by
    intro b hb
    obtain ⟨j, -, rfl⟩ := List.mem_map.mp hb
    exact Nat.le_of_lt_succ (Nat.mod_lt _ (by decide)))
  rw [readWord_foldl, hbytes, List.foldl_cons]
  rw [hbytes, List.length_cons] at hlen
  generalize (List.range (W / 8 - 1)).map (fun j => w.toNat / 256 / 256 ^ j % 256) = rest at *
  have hstep : readByte ⟨0, 0, 1⟩ (w.toNat % 256) = ⟨wrap32 (0 + 1 * (w.toNat % 256)), wrap32 (0 + 1 * 0xFF), 6⟩ := rfl
  have hmod := Nat.mod_lt w.toNat (show 0 < 256 by decide)
  rw [nsmul_eq_mul, Nat.cast_id] at hrest
  rw [hstep, readBytes _ _ _ (wrap32_lt _) (wrap32_lt _), wrap32_add, wrap32_add, wrap32_of_lt (by omega), wrap32_of_lt (by omega)]
  unfold foldFull
  rw [if_neg (by unfold foldLimit; dsimp only; omega)]
  rw [Residue.mk.injEq]
  refine ⟨⟨?_, ?_, rfl⟩, ?_⟩
  · rw [hlow, Nat.one_mul, Nat.zero_add]
  · omega
  · omega

/-! ## Words that fit -/

/-- The largest value that folding a number up to `n` gives. -/
def foldBound (n : Nat) : Nat := max (fold32 n) (0xFFFF + 6 * (n / 65536 - 1))

/-- So many more words do not overflow, whatever they are: `low` bounds what `low_digit` is. -/
def Fits (B : Nat) : Nat → Nat → Nat → Prop
  | 0, _, _ => True
  | n + 1, maxval, low =>
    low + wordMax B < 2 ^ 32 ∧
      if maxval + wordMax B > foldLimit B then Fits B n (fold32 (maxval + wordMax B)) (foldBound (low + wordMax B))
      else Fits B n (maxval + wordMax B) (low + wordMax B)

theorem fold32_le {n l : Nat} (h : n ≤ l) (hl : l < 2 ^ 32) : fold32 n ≤ foldBound l := by
  unfold foldBound
  rw [fold32_eq (by omega), fold32_eq hl]
  omega

theorem fold32_mod {n : Nat} (h : n < 2 ^ 32) : fold32 n % 10 = n % 10 := by
  rw [fold32_eq h]
  omega

theorem fold32_small {n : Nat} (h : n < 2 ^ 32) : fold32 n ≤ 458745 := by
  rw [fold32_eq h]
  omega

theorem Supported.maxval_lt (h : Supported W) {maxval : Nat} (hmax : maxval ≤ foldLimit (W / 8)) : maxval + wordMax (W / 8) < 2 ^ 32 := by
  obtain ⟨-, hB⟩ := h.word_small
  unfold foldLimit wordMax at *
  omega

theorem Supported.fold_le (h : Supported W) {n : Nat} (hn : n < 2 ^ 32) : fold32 n ≤ foldLimit (W / 8) := by
  obtain ⟨-, hB⟩ := h.word_small
  have := fold32_small hn
  unfold foldLimit wordMax
  omega

/-- The places of the words count the same, mod 10, when taken six times. -/
theorem val_cons_mod (h : Supported W) (w : BitVec W) (ws : Limbs W) : 6 * val (w :: ws) % 10 = (6 * byteSum w + 6 * val ws) % 10 := by
  have hbytes := byteSum_mod h w
  have hplace : 6 * (2 ^ W * val ws) % 10 = 6 * val ws % 10 := by
    have hsix := six_mul_pow (W / 8)
    rw [show (256 : Nat) = 2 ^ 8 from rfl, ← Nat.pow_mul, ← h.bytes.1] at hsix
    rw [← Nat.mul_assoc, Nat.mul_mod, hsix]
    omega
  rw [val_cons]
  omega

/-- The sum of words that fit. -/
theorem readWords_right (h : Supported W) (ws : Limbs W) {low maxval bound : Nat} (hmax : maxval ≤ foldLimit (W / 8)) (hlow : low ≤ bound)
    (hbound : bound < 2 ^ 32) (hfits : Fits (W / 8) ws.length maxval bound) :
    (ws.foldl readWord ⟨low, maxval, 6⟩).lowDigit < 2 ^ 32 ∧
      (ws.foldl readWord ⟨low, maxval, 6⟩).lowDigit % 10 = (low + 6 * val ws) % 10 := by
  induction ws generalizing low maxval bound with
  | nil => exact ⟨Nat.lt_of_le_of_lt hlow hbound, rfl⟩
  | cons w ws ih =>
    obtain ⟨hword, hfits⟩ := hfits
    have hsum := byteSum_le w
    have hroom := h.maxval_lt hmax
    have hmod := val_cons_mod h w ws
    rw [List.foldl_cons, readWord_eq low maxval (by omega) (by omega), wrap32_of_lt (by omega), wrap32_of_lt hroom]
    unfold foldFull
    dsimp only
    by_cases hfull : maxval + wordMax (W / 8) > foldLimit (W / 8)
    · rw [if_pos hfull] at hfits ⊢
      have hfold := fold32_mod (show low + 6 * byteSum w < 2 ^ 32 by omega)
      have hle := fold32_le (show low + 6 * byteSum w ≤ bound + wordMax (W / 8) by omega) hword
      have hsmall : foldBound (bound + wordMax (W / 8)) < 2 ^ 32 := by
        have := fold32_small hword
        unfold foldBound
        omega
      obtain ⟨h1, h2⟩ := ih (h.fold_le hroom) hle hsmall hfits
      refine ⟨h1, ?_⟩
      rw [h2]
      omega
    · rw [if_neg hfull] at hfits ⊢
      obtain ⟨h1, h2⟩ := ih (Nat.le_of_not_lt hfull) (show low + 6 * byteSum w ≤ bound + wordMax (W / 8) by omega) hword hfits
      refine ⟨h1, ?_⟩
      rw [h2]
      omega

/-- For how many words the sum fits, counted over `p` folds. -/
def safeWords (B : Nat) : Nat → Nat → Nat → Nat
  | 0, _, _ => 0
  | p + 1, maxval, low =>
    let k := (foldLimit B - maxval) / wordMax B + 1
    if low + k * wordMax B < 2 ^ 32 then
      k + safeWords B p (fold32 (maxval + k * wordMax B)) (foldBound (low + k * wordMax B))
    else (2 ^ 32 - 1 - low) / wordMax B

theorem Fits.mono {B n k maxval low : Nat} (h : Fits B n maxval low) (hk : k ≤ n) : Fits B k maxval low := by
  induction n generalizing k maxval low with
  | zero =>
    rw [Nat.le_zero.mp hk]
    trivial
  | succ n ih =>
    cases k with
    | zero => trivial
    | succ k =>
      obtain ⟨hword, hrest⟩ := h
      refine ⟨hword, ?_⟩
      by_cases hfull : maxval + wordMax B > foldLimit B
      · rw [if_pos hfull] at hrest ⊢
        exact ih hrest (Nat.le_of_succ_le_succ hk)
      · rw [if_neg hfull] at hrest ⊢
        exact ih hrest (Nat.le_of_succ_le_succ hk)

/-- Words up to the next fold. -/
theorem Fits.run {B k : Nat} (n : Nat) {maxval low : Nat} (hmax : maxval + n * wordMax B ≤ foldLimit B) (hlow : low + n * wordMax B < 2 ^ 32)
    (hrest : Fits B k (maxval + n * wordMax B) (low + n * wordMax B)) : Fits B (n + k) maxval low := by
  induction n generalizing maxval low with
  | zero =>
    rw [Nat.zero_mul, Nat.add_zero, Nat.add_zero] at hrest
    rwa [Nat.zero_add]
  | succ n ih =>
    rw [Nat.succ_mul] at hmax hlow hrest
    rw [Nat.succ_add]
    refine ⟨by omega, ?_⟩
    rw [if_neg (by omega)]
    apply ih
    · omega
    · omega
    · rwa [show maxval + wordMax B + n * wordMax B = maxval + (n * wordMax B + wordMax B) by omega,
        show low + wordMax B + n * wordMax B = low + (n * wordMax B + wordMax B) by omega]

theorem fits_safeWords (h : Supported W) (p : Nat) {maxval low : Nat} (hmax : maxval ≤ foldLimit (W / 8)) (hlow : low < 2 ^ 32) :
    Fits (W / 8) (safeWords (W / 8) p maxval low) maxval low := by
  have hpos : 0 < wordMax (W / 8) := by
    have := h.word_small.1
    unfold wordMax
    omega
  induction p generalizing maxval low with
  | zero => trivial
  | succ p ih =>
    have hdiv := Nat.div_mul_le_self (foldLimit (W / 8) - maxval) (wordMax (W / 8))
    have hnext := Nat.lt_div_mul_add (a := foldLimit (W / 8) - maxval) hpos
    rw [safeWords]
    generalize (foldLimit (W / 8) - maxval) / wordMax (W / 8) = k at hdiv hnext ⊢
    by_cases hroom : low + (k + 1) * wordMax (W / 8) < 2 ^ 32
    · rw [if_pos hroom, Nat.add_assoc]
      rw [Nat.succ_mul] at hroom ⊢
      have htop := h.maxval_lt (show maxval + k * wordMax (W / 8) ≤ foldLimit (W / 8) by omega)
      apply Fits.run k
      · omega
      · omega
      · rw [Nat.add_comm 1]
        refine ⟨by omega, ?_⟩
        rw [if_pos (by omega), Nat.add_assoc, Nat.add_assoc]
        apply ih
        · exact h.fold_le (by omega)
        · have := fold32_small hroom
          unfold foldBound
          omega
    · rw [if_neg hroom]
      have hlast := Nat.div_mul_le_self (2 ^ 32 - 1 - low) (wordMax (W / 8))
      have hle : (2 ^ 32 - 1 - low) / wordMax (W / 8) ≤ k := by
        apply Nat.le_of_lt_succ
        apply Nat.lt_of_mul_lt_mul_right (a := wordMax (W / 8))
        rw [Nat.succ_eq_add_one]
        omega
      have hmul := Nat.mul_le_mul_right (wordMax (W / 8)) hle
      generalize (2 ^ 32 - 1 - low) / wordMax (W / 8) = n at hlast hle hmul ⊢
      exact @Fits.run (W / 8) 0 n maxval low (by omega) (by omega) True.intro

/-- The first width at which the sum can overflow. -/
def decimalLimit (W : Nat) : Nat := if W = 16 then 5613887 else if W = 32 then 7017246 else 1052613

theorem safeWords_limit (h : Supported W) :
    safeWords (W / 8) 10 (wordMax (W / 8) - 5 * 0xFF) (wordMax (W / 8) - 5 * 0xFF) = decimalLimit W - 2 := by
  obtain rfl | rfl | rfl := h
  · decide
  · decide
  · decide

/-- The lowest word and the others. -/
theorem lowest_mod (h : Supported W) (w : BitVec W) (ws : Limbs W) : val (w :: ws) % 10 = (lowestSum w + 6 * val ws) % 10 := by
  have hlow := lowestSum_mod h w
  have hplace : 2 ^ W * val ws % 10 = 6 * val ws % 10 := by
    have hbase : 2 ^ W % 10 = 6 := by
      have hsix := six_mul_pow (W / 8 - 1)
      have hsplit : 2 ^ W = 256 * 256 ^ (W / 8 - 1) := by
        rw [← Nat.pow_succ', Nat.succ_eq_add_one, Nat.sub_add_cancel h.bytes.2, show (256 : Nat) = 2 ^ 8 from rfl, ← Nat.pow_mul,
          ← h.bytes.1]
      rw [hsplit]
      omega
    rw [Nat.mul_mod, hbase]
    omega
  rw [val_cons]
  omega

theorem lowDigit_right (h : Supported W) {x : Limbs W} (hlen : x.length < decimalLimit W) : lowDigit x = val x % 10 := by
  cases x with
  | nil => exact reduceLow_eq (show 0 < 2 ^ 32 by decide)
  | cons w ws =>
    obtain ⟨hfirst, hle⟩ := readWord_lowest h w
    obtain ⟨-, hB⟩ := h.word_small
    have hmax : wordMax (W / 8) - 5 * 0xFF ≤ foldLimit (W / 8) := by
      unfold foldLimit wordMax
      omega
    have hfits := fits_safeWords h 10 hmax (show wordMax (W / 8) - 5 * 0xFF < 2 ^ 32 by unfold wordMax; omega)
    rw [safeWords_limit h] at hfits
    rw [List.length_cons] at hlen
    obtain ⟨hlt, hmod⟩ := readWords_right h ws hmax hle (by unfold wordMax; omega) (hfits.mono (show ws.length ≤ decimalLimit W - 2 by omega))
    unfold lowDigit
    rw [List.foldl_cons, hfirst, reduceLow_eq hlt, hmod, lowest_mod h]

/-! ## Words that overflow -/

/-- Words given by how many there are of each. -/
def runsWords (runs : List (Nat × BitVec W)) : Limbs W := runs.flatMap fun r => List.replicate r.1 r.2

/-- The sum and the bound after so many words of each byte sum, of which at most the last makes them be folded. -/
def readRuns (B : Nat) : List (Nat × Nat) → Nat → Nat → Option (Nat × Nat)
  | [], low, maxval => some (low, maxval)
  | (n, b) :: runs, low, maxval =>
    if maxval + n * wordMax B ≤ foldLimit B then readRuns B runs (wrap32 (low + n * (6 * b))) (maxval + n * wordMax B)
    else if 1 ≤ n ∧ maxval + (n - 1) * wordMax B ≤ foldLimit B then
      readRuns B runs (fold32 (wrap32 (low + n * (6 * b)))) (fold32 (maxval + n * wordMax B))
    else none

theorem readWords_replicate (h : Supported W) (w : BitVec W) (n : Nat) {low maxval : Nat} (hlow : low < 2 ^ 32)
    (hmax : maxval + n * wordMax (W / 8) ≤ foldLimit (W / 8)) :
    (List.replicate n w).foldl readWord ⟨low, maxval, 6⟩ = ⟨wrap32 (low + n * (6 * byteSum w)), maxval + n * wordMax (W / 8), 6⟩ := by
  induction n generalizing low maxval with
  | zero => rw [List.replicate_zero, List.foldl_nil, Nat.zero_mul, Nat.zero_mul, Nat.add_zero, Nat.add_zero, wrap32_of_lt hlow]
  | succ n ih =>
    have hcount := Nat.succ_mul n (wordMax (W / 8))
    have hsum := Nat.succ_mul n (6 * byteSum w)
    rw [Nat.succ_eq_add_one] at hcount hsum
    have hroom := h.maxval_lt (show maxval ≤ foldLimit (W / 8) by omega)
    rw [List.replicate_succ, List.foldl_cons, readWord_eq low maxval hlow (by omega), wrap32_of_lt hroom]
    unfold foldFull
    rw [if_neg (by dsimp only; omega), ih (wrap32_lt _) (by omega), wrap32_add, Residue.mk.injEq]
    refine ⟨?_, by omega, rfl⟩
    congr 1
    omega

theorem readRuns_spec (h : Supported W) (runs : List (Nat × BitVec W)) {low maxval low' maxval' : Nat} (hlow : low < 2 ^ 32)
    (hmax : maxval ≤ foldLimit (W / 8))
    (hruns : readRuns (W / 8) (runs.map fun r => (r.1, byteSum r.2)) low maxval = some (low', maxval')) :
    (runsWords runs).foldl readWord ⟨low, maxval, 6⟩ = ⟨low', maxval', 6⟩ ∧ low' < 2 ^ 32 ∧ maxval' ≤ foldLimit (W / 8) := by
  induction runs generalizing low maxval with
  | nil =>
    cases hruns
    exact ⟨rfl, hlow, hmax⟩
  | cons r runs ih =>
    obtain ⟨n, w⟩ := r
    have hcons : runsWords ((n, w) :: runs) = List.replicate n w ++ runsWords runs := rfl
    rw [List.map_cons, readRuns] at hruns
    rw [hcons, List.foldl_append]
    by_cases hfit : maxval + n * wordMax (W / 8) ≤ foldLimit (W / 8)
    · rw [if_pos hfit] at hruns
      rw [readWords_replicate h w n hlow hfit]
      exact ih (wrap32_lt _) hfit hruns
    · rw [if_neg hfit] at hruns
      by_cases hlast : 1 ≤ n ∧ maxval + (n - 1) * wordMax (W / 8) ≤ foldLimit (W / 8)
      · obtain ⟨m, rfl⟩ : ∃ m, n = m + 1 := ⟨n - 1, by omega⟩
        rw [if_pos hlast] at hruns
        rw [Nat.add_sub_cancel] at hlast
        have hcount : maxval + m * wordMax (W / 8) + wordMax (W / 8) = maxval + (m + 1) * wordMax (W / 8) := by
          rw [Nat.succ_mul, Nat.add_assoc]
        have hroom := h.maxval_lt hlast.2
        have hsum : low + m * (6 * byteSum w) + 6 * byteSum w = low + (m + 1) * (6 * byteSum w) := by
          rw [Nat.succ_mul m (6 * byteSum w)]
          omega
        rw [List.replicate_succ', List.foldl_append, readWords_replicate h w m hlow hlast.2, List.foldl_cons, List.foldl_nil,
          readWord_eq _ _ (wrap32_lt _) (by omega), wrap32_of_lt hroom, wrap32_add, hsum]
        rw [hcount] at hroom ⊢
        unfold foldFull
        rw [if_pos (Nat.lt_of_not_le hfit)]
        exact ih (wrap32_lt _) (h.fold_le hroom) hruns
      · rw [if_neg hlast] at hruns
        cases hruns

theorem byteSum_zero : byteSum (0 : BitVec W) = 0 := by
  unfold byteSum
  rw [wordBytes_eq]
  simp

/-- Zero words change the sum by folding alone. -/
theorem readWords_zeros (h : Supported W) (n : Nat) {low maxval : Nat} (hlow : low < 2 ^ 32) (hmax : maxval ≤ foldLimit (W / 8)) :
    ((List.replicate n (0 : BitVec W)).foldl readWord ⟨low, maxval, 6⟩).lowDigit < 2 ^ 32 ∧
      ((List.replicate n (0 : BitVec W)).foldl readWord ⟨low, maxval, 6⟩).lowDigit % 10 = low % 10 := by
  induction n generalizing low maxval with
  | zero => exact ⟨hlow, rfl⟩
  | succ n ih =>
    have hroom := h.maxval_lt hmax
    rw [List.replicate_succ, List.foldl_cons, readWord_eq low maxval hlow (by omega), byteSum_zero, Nat.mul_zero, Nat.add_zero,
      wrap32_of_lt hlow, wrap32_of_lt hroom]
    unfold foldFull
    dsimp only
    by_cases hfull : maxval + wordMax (W / 8) > foldLimit (W / 8)
    · rw [if_pos hfull, ← fold32_mod hlow]
      exact ih (wrap32_lt _) (h.fold_le hroom)
    · rw [if_neg hfull]
      exact ih hlow (Nat.le_of_not_lt hfull)

theorem val_replicate_mod (h : Supported W) (n : Nat) (w : BitVec W) (ws : Limbs W) :
    6 * val (List.replicate n w ++ ws) % 10 = (6 * (n * byteSum w) + 6 * val ws) % 10 := by
  induction n with
  | zero => simp
  | succ n ih =>
    have hcount := Nat.succ_mul n (byteSum w)
    rw [Nat.succ_eq_add_one] at hcount
    rw [List.replicate_succ, List.cons_append, val_cons_mod h, hcount]
    omega

theorem val_runsWords_mod (h : Supported W) (runs : List (Nat × BitVec W)) :
    6 * val (runsWords runs) % 10 = 6 * ((runs.map fun r => (r.1, byteSum r.2)).map fun r => r.1 * r.2).sum % 10 := by
  induction runs with
  | nil => rfl
  | cons r runs ih =>
    have hcons : runsWords (r :: runs) = List.replicate r.1 r.2 ++ runsWords runs := rfl
    rw [hcons, val_replicate_mod h, List.map_cons, List.map_cons, List.sum_cons]
    dsimp only
    omega

/-- Words after the lowest, by which the sum comes to overflow at the last. -/
def overflowRuns (W : Nat) : List (Nat × BitVec W) :=
  if W = 16 then [(1403562, ones W), (21, 0), (1403434, ones W), (1403434, ones W), (1403435, ones W)]
  else if W = 32 then
    [(701780, ones W), (10, 0), (1, BitVec.ofNat W 0xFFFF)] ++ List.replicate 8 (701717, ones W) ++ [(701718, ones W)]
  else
    [(350889, ones W), (5, 0), (1, BitVec.ofNat W 0xFFFFFFFFFFFF), (350853, ones W), (4, 0), (1, BitVec.ofNat W 0xFF), (350859, ones W)]

/-- The number, with `n` zero words more than it needs. -/
def overflowNumber (W n : Nat) : Limbs W := ones W :: (runsWords (overflowRuns W) ++ List.replicate n 0)

theorem length_overflowNumber (h : Supported W) (n : Nat) : (overflowNumber W n).length = decimalLimit W + n := by
  have hcount : ∀ runs : List (Nat × BitVec W), (runsWords runs).length = (runs.map fun r => r.1).sum := by
    intro runs
    unfold runsWords
    rw [List.length_flatMap]
    simp
  unfold overflowNumber
  rw [List.length_cons, List.length_append, hcount, List.length_replicate]
  have hsum : ((overflowRuns W).map fun r => r.1).sum + 1 = decimalLimit W := by
    obtain rfl | rfl | rfl := h
    · decide
    · decide
    · decide
  omega

/-- The sum after those words, and the number that they are. -/
theorem readRuns_overflow (h : Supported W) :
    ∃ low maxval, readRuns (W / 8) ((overflowRuns W).map fun r => (r.1, byteSum r.2)) (lowestSum (ones W)) (wordMax (W / 8) - 5 * 0xFF) =
        some (low, maxval) ∧
      (lowestSum (ones W) + 6 * (((overflowRuns W).map fun r => (r.1, byteSum r.2)).map fun r => r.1 * r.2).sum) % 10 ≠ low % 10 := by
  obtain rfl | rfl | rfl := h
  · exact ⟨1269, 458745, by decide, by decide⟩
  · exact ⟨1269, 458745, by decide, by decide⟩
  · exact ⟨4579, 456195, by decide, by decide⟩

theorem lowDigit_wrong (h : Supported W) (n : Nat) : lowDigit (overflowNumber W n) ≠ val (overflowNumber W n) % 10 := by
  obtain ⟨low, maxval, hruns, hne⟩ := readRuns_overflow h
  obtain ⟨hfirst, hle⟩ := readWord_lowest h (ones W)
  obtain ⟨-, hB⟩ := h.word_small
  have hmax : wordMax (W / 8) - 5 * 0xFF ≤ foldLimit (W / 8) := by
    unfold foldLimit wordMax
    omega
  obtain ⟨hread, hlow, hmax'⟩ := readRuns_spec h (overflowRuns W)
    (Nat.lt_of_le_of_lt hle (show wordMax (W / 8) - 5 * 0xFF < 2 ^ 32 by unfold wordMax; omega)) hmax hruns
  obtain ⟨hlt, hmod⟩ := readWords_zeros h n hlow hmax'
  have hval := val_runsWords_mod h (overflowRuns W)
  unfold lowDigit overflowNumber
  rw [lowest_mod h, List.foldl_cons, hfirst, List.foldl_append, hread, reduceLow_eq hlt, hmod, val_append, val_replicate_zero, Nat.mul_zero,
    Nat.add_zero]
  omega

/-! ## Exactness -/

/-- The conversions are exact for every number of so many words. -/
def ConvertsExactly (W nw : Nat) : Prop :=
  ∀ x : Limbs W, x.length = nw →
    mpGetDecimal x = some ((numeral 10 (val x)).map decimalChar) ∧ mpGetHex x = (numeral 16 (val x)).map (hexChar 97) ∧
      (∃ y, (mpGetDecimal x).bind (mpFromDecimalPl W) = some y ∧ val y = val x) ∧ ∃ y, mpFromHexPl W (mpGetHex x) = some y ∧ val y = val x

theorem getLast?_numeral {b : Nat} (hb : 2 ≤ b) (v : Nat) : (numeral b v).getLast? = some (v % b) := by
  by_cases h : v / b = 0
  · have hlt := (Nat.div_eq_zero_iff_lt (by omega)).mp h
    rw [numeral_of_lt hlt, Nat.mod_eq_of_lt hlt]
    rfl
  · rw [numeral_step hb h, List.getLast?_append]
    rfl

theorem decimalLimit_small (h : Supported W) {nw : Nat} (hlen : nw < decimalLimit W) :
    nw < (sizeMax - 1) / (146 * W) ∧ max (nw * (146 * W) / 485) 1 + 1 < sizeMax / 196 ∧ nw * (W / 8) * 2 ≤ sizeMax / 4 := by
  unfold decimalLimit sizeMax at *
  obtain rfl | rfl | rfl := h
  · simp at hlen ⊢
    omega
  · simp at hlen ⊢
    omega
  · simp at hlen ⊢
    omega

/-- The last character that is written is the first residue, right or wrong. -/
theorem lowDigit_of_decimal {x : Limbs W} (h : mpGetDecimal x = some ((numeral 10 (val x)).map decimalChar)) : lowDigit x = val x % 10 := by
  obtain ⟨hdigit, hlast⟩ := mpGetDecimal_last h
  have hinj : ∀ a < 10, ∀ b < 10, decimalChar a = decimalChar b → a = b := by decide
  rw [List.getLast?_map, getLast?_numeral (by decide), Option.map_some, Option.some.injEq] at hlast
  exact (hinj _ (Nat.mod_lt _ (by decide)) _ hdigit hlast).symm

theorem convertsExactly_of_lt (h : Supported W) {nw : Nat} (hpos : 0 < nw) (hlen : nw < decimalLimit W) : ConvertsExactly W nw := by
  intro x hx
  obtain ⟨hguard, hdecimal, hhex⟩ := decimalLimit_small h hlen
  have hne : x ≠ [] := List.length_pos_iff.mp (by rwa [hx])
  have hget := mpGetDecimal_eq h hne (by rwa [hx]) (by
    intro y hy
    exact lowDigit_right h (by rwa [hy, hx]))
  have hdigits := length_numeral_le (by decide) (Nat.le_add_left 1 _) (Nat.lt_of_lt_of_le (val_lt x) (digits_room W x.length))
  rw [hx] at hdigits
  refine ⟨hget, mpGetHex_eq h hne, ?_, ?_⟩
  · obtain ⟨y, hy, hval⟩ := mpFromDecimalPl_eq h (fun d hd => numeral_lt (by decide) hd) (Nat.lt_of_le_of_lt hdigits hdecimal)
    refine ⟨y, ?_, ?_⟩
    · rw [hget, Option.bind_some, hy]
    · rw [hval, numberOf_numeral (by decide)]
  · exact hex_round_trip h hne (by rwa [hx])

theorem mpFromDecimalPl_guard (h : Supported W) {ds : List Nat} (hds : ∀ d ∈ ds, d < 10) :
    (∃ x, mpFromDecimalPl W (ds.map decimalChar) = some x ∧ val x = numberOf 10 ds) ↔ ds.length < sizeMax / 196 := by
  constructor
  · rintro ⟨x, hx, -⟩
    by_contra hlen
    unfold mpFromDecimalPl at hx
    rw [List.length_map, if_neg hlen] at hx
    cases hx
  · exact mpFromDecimalPl_eq h hds

theorem conversions_exact_iff (h : Supported W) :
    (∀ nw, 1 ≤ nw → (ConvertsExactly W nw ↔ nw < decimalLimit W)) ∧
      ∀ ds : List Nat, (∀ d ∈ ds, d < 10) →
        ((∃ x, mpFromDecimalPl W (ds.map decimalChar) = some x ∧ val x = numberOf 10 ds) ↔ ds.length < sizeMax / 196) := by
  refine ⟨?_, ?_⟩
  · intro nw hpos
    constructor
    · intro hexact
      by_contra hlen
      obtain ⟨n, rfl⟩ : ∃ n, nw = decimalLimit W + n := ⟨nw - decimalLimit W, by omega⟩
      exact lowDigit_wrong h n (lowDigit_of_decimal (hexact _ (length_overflowNumber h n)).1)
    · exact convertsExactly_of_lt h hpos
  · intro ds hds
    exact mpFromDecimalPl_guard h hds

theorem conversions_exact_64 : ConvertsExactly 64 1052612 ∧ ¬ ConvertsExactly 64 1052613 :=
  ⟨((conversions_exact_iff (.inr (.inr rfl))).1 _ (by decide)).mpr (by decide),
    fun hexact => absurd (((conversions_exact_iff (.inr (.inr rfl))).1 _ (by decide)).mp hexact) (by decide)⟩

/-- A number of 1,052,613 words of 64 bits, of which the last digit comes out as 9. -/
theorem wide_decimal_overflows :
    (overflowNumber 64 0).length = 1052613 ∧ mpGetDecimal (overflowNumber 64 0) ≠ some ((numeral 10 (val (overflowNumber 64 0))).map decimalChar) :=
  ⟨length_overflowNumber (.inr (.inr rfl)) 0, fun hget => lowDigit_wrong (.inr (.inr rfl)) 0 (lowDigit_of_decimal hget)⟩

end Putty.Mpint
