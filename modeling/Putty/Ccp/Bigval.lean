/-
  Putty.Ccp.Bigval — the numbers of Poly1305 (`sshccp.c`, bigval and its functions): NWORDS
  words, read and written as bytes, added, multiplied and reduced modulo 2^130-5.

  The three arithmetic functions are generated for words of 16, 32 and 64 bits by
  `make1305.py`. Here each is what the generator multiplies, cuts and adds, for any width;
  the generated code for 64 bits is transcribed as well and does the same (`bigvalAdd64_eq`,
  `bigvalMulModP64_eq`, `bigvalFinalReduce64_eq`). A word that is the last of a result is
  computed without its carry or its high word.

  Proved: the inputs that the generator allows, below 2^133, lose no carry. A product is
  congruent to that of the numbers and again below 2^133 (`bigvalMulModP_spec`), and
  bigval_final_reduce leaves the remainder (`bigvalFinalReduce_spec`).
-/

import Putty.Mpint.Bytes
import Putty.Mpint.Mul

namespace Putty.Ccp

open Putty.Lib Putty.Lib.Limbs Putty.Mpint

variable {W : Nat}

/-- NWORDS. -/
def nwords (W : Nat) : Nat := (130 + W - 1) / W

def bigvalClear (W : Nat) : Limbs W := List.replicate (nwords W) 0

def bigvalImportLe (W : Nat) (data : List UInt8) : Limbs W :=
  (List.range data.length).foldl
    (fun r i => r.set (i / (W / 8)) (mpWord r (i / (W / 8)) ||| BitVec.ofNat W (data.getD i 0).toNat <<< (8 * (i % (W / 8)))))
    (bigvalClear W)

def bigvalExportLe (r : Limbs W) (len : Nat) : List UInt8 :=
  (List.range len).map fun i => UInt8.ofNat (mpWord r (i / (W / 8)) >>> (8 * (i % (W / 8)))).toNat

/-! ## The generated functions, for any width -/

/-- A chain of BignumADC. -/
def addWords : Limbs W → Limbs W → Nat → Limbs W
  | a :: as, b :: bs, carry => (addc a b carry).1 :: addWords as bs (addc a b carry).2
  | _, _, _ => []

/-- A number of one word. -/
def oneWord (w : BitVec W) : Limbs W := w :: List.replicate (nwords W - 1) 0

/-- extract_bits(0, 130). -/
def extractLow (n : Limbs W) : Limbs W := n.take (nwords W - 1) ++ [mpWord n (nwords W - 1) &&& 3]

/-- All bits from the second of the first word on. -/
def shiftTwo : Limbs W → Limbs W
  | [] => []
  | [w] => [w >>> 2]
  | w :: w' :: ws => (w >>> 2 ||| w' <<< (W - 2)) :: shiftTwo (w' :: ws)

def bigvalAdd (a b : Limbs W) : Limbs W := addWords a b 0

def bigvalMulModP (a b : Limbs W) : Limbs W :=
  let ab := mpMulAddSimple (List.replicate (2 * nwords W - 1) 0) a b
  let ab0 := extractLow ab
  let ab1 := extractLow (shiftTwo (ab.drop (nwords W - 1)))
  let ab2 := mpWord ab (2 * nwords W - 2) >>> 4
  let ab15 := mulAddRow 5 (List.replicate (nwords W) 0) ab1 0
  addWords (addWords ab0 ab15 0) (oneWord (25 * ab2)) 0

def bigvalFinalReduce (n : Limbs W) : Limbs W :=
  let q := mpWord n (nwords W - 1) >>> 2
  let adjusted := addWords (extractLow n) (oneWord (5 * q)) 0
  let finalSubtract := mpWord (addWords adjusted (oneWord 5) 0) (nwords W - 1) >>> 2
  extractLow (addWords adjusted (oneWord (5 * finalSubtract)) 0)

/-! ## The generated functions for 64 bits -/

def bigvalAdd64 (a b : Limbs 64) : Limbs 64 :=
  let v0 := mpWord a 0
  let v1 := mpWord a 1
  let v2 := mpWord a 2
  let v3 := mpWord b 0
  let v4 := mpWord b 1
  let v5 := mpWord b 2
  let (v6, carry) := addc v0 v3 0
  let (v7, carry) := addc v1 v4 carry
  let v8 := v2 + v5 + BitVec.ofNat 64 carry
  [v6, v7, v8]

def bigvalMulModP64 (a b : Limbs 64) : Limbs 64 :=
  let v0 := mpWord a 0
  let v1 := mpWord a 1
  let v2 := mpWord a 2
  let v3 := mpWord b 0
  let v4 := mpWord b 1
  let v5 := mpWord b 2
  let (v6, v7) := mulc v0 v3 0 0
  let (v8, v9) := mulc v0 v4 0 v7
  let (v10, v11) := mulc v0 v5 0 v9
  let (v12, v13) := mulc v1 v3 v8 0
  let (v14, v15) := mulc v1 v4 v10 v13
  let (v16, v17) := mulc v1 v5 v11 v15
  let (v18, v19) := mulc v2 v3 v14 0
  let (v20, v21) := mulc v2 v4 v16 v19
  let v22 := v2 * v5 + v17 + v21
  let v24 := v18 &&& (1 <<< 2 - 1)
  let v25 := v18 >>> 2 ||| v20 <<< 62
  let v26 := v20 >>> 2 ||| v22 <<< 62
  let v27 := v22 >>> 2
  let v28 := v27 &&& (1 <<< 2 - 1)
  let v29 := v22 >>> 4
  let (v30, v31) := mulc 5 v25 0 0
  let (v32, v33) := mulc 5 v26 0 v31
  let v34 := 5 * v28 + v33
  let v36 := 25 * v29
  let (v38, carry) := addc v6 v30 0
  let (v39, carry) := addc v12 v32 carry
  let v40 := v24 + v34 + BitVec.ofNat 64 carry
  let (v41, carry) := addc v38 v36 0
  let (v42, carry) := addc v39 0 carry
  let v43 := v40 + 0 + BitVec.ofNat 64 carry
  [v41, v42, v43]

def bigvalFinalReduce64 (n : Limbs 64) : Limbs 64 :=
  let v0 := mpWord n 0
  let v1 := mpWord n 1
  let v2 := mpWord n 2
  let v3 := v2 >>> 2
  let v4 := v2 &&& (1 <<< 2 - 1)
  let v5 := 5 * v3
  let (v7, carry) := addc v0 v5 0
  let (v8, carry) := addc v1 0 carry
  let v9 := v4 + 0 + BitVec.ofNat 64 carry
  let (_, carry) := addc v7 5 0
  let (_, carry) := addc v8 0 carry
  let v12 := v9 + 0 + BitVec.ofNat 64 carry
  let v13 := v12 >>> 2
  let v14 := 5 * v13
  let (v16, carry) := addc v7 v14 0
  let (v17, carry) := addc v8 0 carry
  let v18 := v9 + 0 + BitVec.ofNat 64 carry
  let v19 := v18 &&& (1 <<< 2 - 1)
  [v16, v17, v19]

/-! ## What the words are -/

/-- The words below the top one hold 128 bits. -/
theorem words_below (h : Supported W) : nwords W = nwords W - 1 + 1 ∧ (2 ^ W) ^ (nwords W - 1) = 2 ^ 128 ∧ 16 ≤ W := by
  rcases h with rfl | rfl | rfl <;> decide

theorem base_ge (h : Supported W) : 65536 ≤ 2 ^ W := Nat.pow_le_pow_right (show 0 < 2 by decide) (words_below h).2.2

/-- All words. -/
theorem words_pow (h : Supported W) : (2 ^ W) ^ nwords W = 2 ^ 128 * 2 ^ W := by
  obtain ⟨hk, hpow, -⟩ := words_below h
  rw [hk, Nat.pow_succ, hpow]

theorem words_room (h : Supported W) {k : Nat} (hk : k ≤ 16) : k / (W / 8) < nwords W := by
  rcases h with rfl | rfl | rfl
  all_goals
    unfold nwords
    omega

@[simp] theorem length_bigvalClear : (bigvalClear W).length = nwords W := List.length_replicate

theorem length_addWords {a b : Limbs W} (h : a.length = b.length) (carry : Nat) : (addWords a b carry).length = a.length := by
  induction a generalizing b carry with
  | nil => rfl
  | cons x a ih =>
    cases b with
    | nil => exact absurd h (Nat.succ_ne_zero _)
    | cons y b => rw [addWords, List.length_cons, List.length_cons, ih (Nat.succ.inj h)]

/-- The sum, its last carry dropped. -/
theorem val_addWords {a b : Limbs W} (h : a.length = b.length) (carry : Nat) :
    val (addWords a b carry) = (val a + val b + carry) % (2 ^ W) ^ a.length := by
  induction a generalizing b carry with
  | nil =>
    rw [List.length_nil, Nat.pow_zero, Nat.mod_one]
    rfl
  | cons x a ih =>
    cases b with
    | nil => exact absurd h (Nat.succ_ne_zero _)
    | cons y b =>
      have hword := addc_spec x y carry
      have hlow := (addc x y carry).1.isLt
      have hsum : x.toNat + 2 ^ W * val a + (y.toNat + 2 ^ W * val b) + carry =
          (addc x y carry).1.toNat + 2 ^ W * (val a + val b + (addc x y carry).2) := by
        linarith [Nat.mul_add (2 ^ W) (val a + val b) (addc x y carry).2, Nat.mul_add (2 ^ W) (val a) (val b)]
      rw [addWords, val_cons, val_cons, val_cons, ih (Nat.succ.inj h), List.length_cons, hsum, val_mod_succ, Nat.add_mul_mod_self_left,
        Nat.mod_eq_of_lt hlow, Nat.add_mul_div_left _ _ base_pos, Nat.div_eq_of_lt hlow, Nat.zero_add]

theorem length_oneWord (h : Supported W) (w : BitVec W) : (oneWord w).length = nwords W := by
  rw [oneWord, List.length_cons, List.length_replicate, ← (words_below h).1]

theorem val_oneWord (w : BitVec W) : val (oneWord w) = w.toNat := by
  rw [oneWord, val_cons, val_replicate_zero, Nat.mul_zero, Nat.add_zero]

/-- The sum with one word. -/
theorem val_add_oneWord (h : Supported W) {a : Limbs W} (ha : a.length = nwords W) {w : BitVec W} (hlt : val a + w.toNat < 2 ^ 144) :
    val (addWords a (oneWord w) 0) = val a + w.toNat := by
  have hB := base_ge h
  rw [val_addWords (by rw [ha, length_oneWord h]), val_oneWord, Nat.add_zero, ha, words_pow h]
  apply Nat.mod_eq_of_lt
  omega

theorem toNat_and_three (w : BitVec W) (h : 2 ≤ W) : (w &&& 3).toNat = w.toNat % 4 := by
  have hthree : (3 : BitVec W).toNat = 2 ^ 2 - 1 := by
    have hle := Nat.pow_le_pow_right (show 0 < 2 by decide) h
    show 3 % 2 ^ W = 3
    exact Nat.mod_eq_of_lt (by omega)
  rw [BitVec.toNat_and, hthree, Nat.and_two_pow_sub_one_eq_mod]

theorem length_extractLow (h : Supported W) {n : Limbs W} (hlen : nwords W ≤ n.length) : (extractLow n).length = nwords W := by
  have hk := (words_below h).1
  rw [extractLow, List.length_append, List.length_take, List.length_singleton]
  omega

theorem val_extractLow (h : Supported W) {n : Limbs W} (hlen : nwords W ≤ n.length) : val (extractLow n) = val n % 2 ^ 130 := by
  obtain ⟨hk, hpow, hW⟩ := words_below h
  have hfour : ∀ v : Nat, v % 2 ^ W % 4 = v % 4 := fun v => Nat.mod_mod_of_dvd v (Nat.pow_dvd_pow 2 (show 2 ≤ W by omega))
  have htake : (n.take (nwords W - 1)).length = nwords W - 1 := by
    rw [List.length_take]
    omega
  rw [extractLow, val_append, val_take, htake, hpow, val_cons, val_nil, Nat.mul_zero, Nat.add_zero, toNat_and_three _ (by omega),
    mpWord_toNat, hpow, hfour, show (2 : Nat) ^ 130 = 2 ^ 128 * 4 from rfl, Nat.mod_mul]

@[simp] theorem length_shiftTwo (n : Limbs W) : (shiftTwo n).length = n.length := by
  fun_induction shiftTwo n with
  | case1 => rfl
  | case2 w => rfl
  | case3 w w' ws ih => rw [List.length_cons, ih, List.length_cons (a := w)]

theorem val_shiftTwo (hW : 2 < W) (n : Limbs W) : val (shiftTwo n) = val n / 4 := by
  fun_induction shiftTwo n with
  | case1 => rw [val_nil]
  | case2 w =>
    rw [val_cons, val_cons, val_nil, Nat.mul_zero, Nat.add_zero, Nat.add_zero, BitVec.toNat_ushiftRight, Nat.shiftRight_eq_div_pow]
  | case3 w w' ws ih =>
    have hlow : w.toNat = val (w :: w' :: ws) % 2 ^ W := toNat_headD (w :: w' :: ws)
    have hhigh : w'.toNat = val (w :: w' :: ws) / 2 ^ W % 2 ^ W := by
      rw [← val_tail]
      exact toNat_headD (w' :: ws)
    rw [val_cons, ih, shiftedRight_toNat hW hlow hhigh, show val (w' :: ws) = val (w :: w' :: ws) / 2 ^ W from val_tail (w :: w' :: ws),
      Nat.div_div_eq_div_mul, Nat.mul_comm (2 ^ W) 4, ← Nat.div_div_eq_div_mul]
    exact Nat.mod_add_div _ _

/-! ## Arithmetic modulo 2^130-5 -/

/-- The modulus. -/
def p1305 : Nat := 2 ^ 130 - 5

theorem bigvalAdd_spec (h : Supported W) {a b : Limbs W} (ha : a.length = nwords W) (hb : b.length = nwords W)
    (hlt : val a + val b < 2 ^ 144) : (bigvalAdd a b).length = nwords W ∧ val (bigvalAdd a b) = val a + val b := by
  have hB := base_ge h
  have hlen : a.length = b.length := by rw [ha, hb]
  refine ⟨by rw [bigvalAdd, length_addWords hlen, ha], ?_⟩
  rw [bigvalAdd, val_addWords hlen, Nat.add_zero, ha, words_pow h]
  apply Nat.mod_eq_of_lt
  omega

/-- The words of a product, none lost. -/
theorem product_spec (h : Supported W) {a b : Limbs W} (hlt : val a * val b < 2 ^ 256 * 65536) :
    (mpMulAddSimple (List.replicate (2 * nwords W - 1) 0) a b).length = 2 * nwords W - 1 ∧
      val (mpMulAddSimple (List.replicate (2 * nwords W - 1) 0) a b) = val a * val b := by
  obtain ⟨hk, hpow, -⟩ := words_below h
  have hB := base_ge h
  obtain ⟨hlen, hval⟩ := mpMulAddSimple_spec (List.replicate (2 * nwords W - 1) (0 : BitVec W)) a b
  rw [List.length_replicate] at hlen hval
  rw [val_replicate_zero, Nat.zero_add] at hval
  have hroom : (2 ^ W) ^ (2 * nwords W - 1) = 2 ^ 256 * 2 ^ W := by
    rw [show 2 * nwords W - 1 = (nwords W - 1) + (nwords W - 1) + 1 by omega, Nat.pow_succ, Nat.pow_add, hpow]
    rfl
  refine ⟨hlen, Nat.ModEq.eq_of_lt_of_lt hval ?_ ?_⟩
  · have := val_lt (mpMulAddSimple (List.replicate (2 * nwords W - 1) (0 : BitVec W)) a b)
    rwa [hlen] at this
  · rw [hroom]
    omega

/-- A small constant. -/
theorem small_toNat (h : Supported W) {c : Nat} (hc : c < 65536) : (BitVec.ofNat W c).toNat = c := by
  rw [BitVec.toNat_ofNat, Nat.mod_eq_of_lt (Nat.lt_of_lt_of_le hc (base_ge h))]

theorem five_toNat (h : Supported W) : (5 : BitVec W).toNat = 5 := small_toNat h (by decide)

/-- Five times a number of 130 bits. -/
theorem timesFive_spec (h : Supported W) {n : Limbs W} (hlt : val n < 2 ^ 130) :
    (mulAddRow 5 (List.replicate (nwords W) 0) n 0).length = nwords W ∧
      val (mulAddRow 5 (List.replicate (nwords W) 0) n 0) = 5 * val n := by
  have hB := base_ge h
  have hlen := length_mulAddRow 5 (List.replicate (nwords W) (0 : BitVec W)) n 0
  have hval := mulAddRow_spec 5 (List.replicate (nwords W) (0 : BitVec W)) n 0
  rw [List.length_replicate] at hlen hval
  rw [val_replicate_zero, Nat.zero_add, five_toNat h, show (0 : BitVec W).toNat = 0 by simp, Nat.add_zero] at hval
  refine ⟨hlen, Nat.ModEq.eq_of_lt_of_lt hval ?_ ?_⟩
  · have := val_lt (mulAddRow 5 (List.replicate (nwords W) (0 : BitVec W)) n 0)
    rwa [hlen] at this
  · rw [words_pow h]
    omega

/-- A small multiple of a small word. -/
theorem smallMul_toNat (h : Supported W) {x w : BitVec W} {c v : Nat} (hx : x.toNat = c) (hw : w.toNat = v) (hlt : c * v < 65536) :
    (x * w).toNat = c * v := by
  have hB := base_ge h
  rw [BitVec.toNat_mul, hx, hw, Nat.mod_eq_of_lt (by omega)]

/-- What is left of a product when 2^130 counts as 5. -/
def folded (n : Nat) : Nat := n % 2 ^ 130 + 5 * (n / 2 ^ 130 % 2 ^ 130) + 25 * (n / 2 ^ 130 / 2 ^ 130)

theorem folded_modEq (n : Nat) : folded n ≡ n [MOD p1305] := by
  have hlow := Nat.div_add_mod n (2 ^ 130)
  have hmid := Nat.div_add_mod (n / 2 ^ 130) (2 ^ 130)
  have hsplit : n = folded n + p1305 * (n / 2 ^ 130 % 2 ^ 130 + (2 ^ 130 + 5) * (n / 2 ^ 130 / 2 ^ 130)) := by
    unfold folded p1305
    omega
  conv_rhs => rw [hsplit]
  exact (Nat.add_mul_mod_self_left _ _ _).symm

/-- bigval_mul_mod_p of two numbers that the generator allows. -/
theorem bigvalMulModP_spec (h : Supported W) {a b : Limbs W} (ha : val a < 2 ^ 133) (hb : val b < 2 ^ 133) :
    (bigvalMulModP a b).length = nwords W ∧ val (bigvalMulModP a b) = folded (val a * val b) := by
  obtain ⟨hk, hpow, hW⟩ := words_below h
  have hlt : val a * val b < 2 ^ 133 * 2 ^ 133 := Nat.mul_lt_mul'' ha hb
  obtain ⟨hlen, hval⟩ := product_spec h (a := a) (b := b) (by omega)
  unfold bigvalMulModP folded
  generalize mpMulAddSimple (List.replicate (2 * nwords W - 1) 0) a b = ab at hlen hval ⊢
  generalize val a * val b = n at hlt hval ⊢
  have hhigh : nwords W ≤ (shiftTwo (ab.drop (nwords W - 1))).length := by
    rw [length_shiftTwo, List.length_drop, hlen]
    omega
  have h0 := val_extractLow h (n := ab) (by omega)
  have h1 := val_extractLow h hhigh
  rw [val_shiftTwo (by omega), val_drop, hpow, Nat.div_div_eq_div_mul, show (2 : Nat) ^ 128 * 4 = 2 ^ 130 from rfl] at h1
  have h2 : (mpWord ab (2 * nwords W - 2) >>> 4).toNat = n / 2 ^ 130 / 2 ^ 130 := by
    have hB := base_ge h
    rw [BitVec.toNat_ushiftRight, mpWord_toNat, Nat.shiftRight_eq_div_pow,
      show 2 * nwords W - 2 = (nwords W - 1) + (nwords W - 1) by omega, Nat.pow_add, hpow, hval,
      Nat.mod_eq_of_lt (by omega), Nat.div_div_eq_div_mul, Nat.div_div_eq_div_mul]
    rfl
  rw [hval] at h0 h1
  have hmid := Nat.mod_lt (n / 2 ^ 130) (show 0 < 2 ^ 130 by decide)
  have hlow := Nat.mod_lt n (show 0 < 2 ^ 130 by decide)
  have htop : n / 2 ^ 130 / 2 ^ 130 < 64 := by omega
  obtain ⟨h5len, h5⟩ := timesFive_spec h (n := extractLow (shiftTwo (ab.drop (nwords W - 1)))) (by rw [h1]; exact hmid)
  have h25 : ((25 : BitVec W) * (mpWord ab (2 * nwords W - 2) >>> 4)).toNat = 25 * (n / 2 ^ 130 / 2 ^ 130) := by
    exact smallMul_toNat h (small_toNat h (by decide)) h2 (by omega)
  have hlowlen := length_extractLow h (n := ab) (by omega)
  obtain ⟨hslen, hs⟩ := bigvalAdd_spec h hlowlen h5len (by rw [h0, h5, h1]; omega)
  rw [h0, h5, h1] at hs
  refine ⟨?_, ?_⟩
  · rw [length_addWords (by rw [length_oneWord h]; exact hslen)]
    exact hslen
  · have hsum := val_add_oneWord h hslen (w := (25 : BitVec W) * (mpWord ab (2 * nwords W - 2) >>> 4)) (by rw [hs, h25]; omega)
    rw [hs, h25] at hsum
    exact hsum

/-- Adding 5 shows whether the modulus is still to be taken off once more. -/
theorem reduced_once_more {low q : Nat} (hlow : low < 2 ^ 130) (hq : q < 8) :
    (low + 5 * q + 5 * ((low + 5 * q + 5) / 2 ^ 130)) % 2 ^ 130 = (low + 5 * q + p1305 * q) % p1305 := by
  rw [Nat.add_mul_mod_self_left]
  obtain ⟨x, hx⟩ : ∃ x, low + 5 * q = x := ⟨_, rfl⟩
  rw [hx]
  by_cases hover : x + 5 < 2 ^ 130
  · rw [Nat.div_eq_of_lt hover, Nat.mul_zero, Nat.add_zero, Nat.mod_eq_of_lt (by omega), Nat.mod_eq_of_lt (by unfold p1305; omega)]
  · obtain ⟨y, hy⟩ : ∃ y, x = p1305 + y := ⟨x - p1305, by unfold p1305; omega⟩
    have hsum : x + 5 = 2 ^ 130 + y := by
      unfold p1305 at hy
      omega
    have hlt : y < 40 := by omega
    rw [hsum, Nat.add_div_left _ (Nat.two_pow_pos 130), Nat.div_eq_of_lt (by omega), hsum, hy, Nat.add_mod_left, Nat.add_mod_left,
      Nat.mod_eq_of_lt (by omega), Nat.mod_eq_of_lt (by unfold p1305; omega)]

/-- bigval_final_reduce of a number that the generator allows. -/
theorem bigvalFinalReduce_spec (h : Supported W) {n : Limbs W} (hlen : n.length = nwords W) (hlt : val n < 2 ^ 133) :
    (bigvalFinalReduce n).length = nwords W ∧ val (bigvalFinalReduce n) = val n % p1305 := by
  obtain ⟨hk, hpow, hW⟩ := words_below h
  -- the bits of a number from 130 on, in its top word
  have htop : ∀ m : Limbs W, val m < 2 ^ 133 → (mpWord m (nwords W - 1) >>> 2).toNat = val m / 2 ^ 130 := by
    intro m hm
    have hB := base_ge h
    rw [BitVec.toNat_ushiftRight, mpWord_toNat, Nat.shiftRight_eq_div_pow, hpow, Nat.mod_eq_of_lt (by omega), Nat.div_div_eq_div_mul]
    rfl
  have hfive : ∀ m : Limbs W, val m < 2 ^ 133 → ((5 : BitVec W) * (mpWord m (nwords W - 1) >>> 2)).toNat = 5 * (val m / 2 ^ 130) := by
    intro m hm
    exact smallMul_toNat h (five_toNat h) (htop m hm) (by omega)
  unfold bigvalFinalReduce
  dsimp only
  have hlow := val_extractLow h (n := n) (by omega)
  have hlowlen := length_extractLow h (n := n) (by omega)
  have hadj := val_add_oneWord h hlowlen (w := (5 : BitVec W) * (mpWord n (nwords W - 1) >>> 2)) (by rw [hlow, hfive n hlt]; omega)
  have hadjlen : (addWords (extractLow n) (oneWord ((5 : BitVec W) * (mpWord n (nwords W - 1) >>> 2))) 0).length = nwords W := by
    rw [length_addWords (by rw [hlowlen, length_oneWord h]), hlowlen]
  rw [hlow, hfive n hlt] at hadj
  generalize addWords (extractLow n) (oneWord ((5 : BitVec W) * (mpWord n (nwords W - 1) >>> 2))) 0 = adjusted at hadj hadjlen ⊢
  have hover := val_add_oneWord h hadjlen (w := 5) (by rw [hadj, five_toNat h]; omega)
  rw [hadj, five_toNat h] at hover
  generalize addWords adjusted (oneWord 5) 0 = above at hover ⊢
  have hsub := hfive above (by omega)
  rw [hover] at hsub
  have hres := val_add_oneWord h hadjlen (w := (5 : BitVec W) * (mpWord above (nwords W - 1) >>> 2)) (by rw [hadj, hsub]; omega)
  have hreslen : (addWords adjusted (oneWord ((5 : BitVec W) * (mpWord above (nwords W - 1) >>> 2))) 0).length = nwords W := by
    rw [length_addWords (by rw [hadjlen, length_oneWord h]), hadjlen]
  rw [hadj, hsub] at hres
  refine ⟨length_extractLow h (by rw [hreslen]), ?_⟩
  have hn : val n = val n % 2 ^ 130 + 5 * (val n / 2 ^ 130) + p1305 * (val n / 2 ^ 130) := by
    unfold p1305
    omega
  rw [val_extractLow h (by rw [hreslen]), hres, reduced_once_more (Nat.mod_lt _ (by decide)) (by omega), ← hn]

/-! ## Bytes -/

/-- The number that bytes stand for, the least significant first. -/
def leNumber (data : List UInt8) : Nat := val (data.map UInt8.toBitVec)

/-- The low bytes of a number. -/
def leBytes (len n : Nat) : List UInt8 := (List.range len).map (Utils.mpGetByte n)

@[simp] theorem leNumber_nil : leNumber [] = 0 := rfl

@[simp] theorem leNumber_cons (b : UInt8) (data : List UInt8) : leNumber (b :: data) = b.toNat + 256 * leNumber data := rfl

theorem leNumber_lt (data : List UInt8) : leNumber data < 256 ^ data.length := by
  have h := val_lt (data.map UInt8.toBitVec)
  rwa [List.length_map] at h

theorem leNumber_digit {data : List UInt8} {i : Nat} (h : i < data.length) : (data.getD i 0).toNat = leNumber data / 256 ^ i % 256 := by
  have hword := toNat_getD (data.map UInt8.toBitVec) i
  rw [List.getD_eq_getElem _ _ (by rwa [List.length_map]), List.getElem_map] at hword
  rw [List.getD_eq_getElem _ _ h]
  exact hword

theorem bigvalImportLe_spec (h : Supported W) {data : List UInt8} (hlen : data.length ≤ 16) :
    (bigvalImportLe W data).length = nwords W ∧ val (bigvalImportLe W data) = leNumber data := by
  have hroom : ∀ k < data.length, k / (W / 8) < nwords W := fun k hk => words_room h (by omega)
  have hspec := stored_bytes h hroom (fun _ hi => leNumber_digit hi) (show bigvalImportLe W data = _ from rfl)
  rwa [Nat.mod_eq_of_lt (leNumber_lt data)] at hspec

theorem bigvalExportLe_eq (h : Supported W) (r : Limbs W) (len : Nat) : bigvalExportLe r len = leBytes len (val r) := by
  obtain ⟨hY, hpos⟩ := h.bytes
  apply List.map_congr_left
  intro i _
  apply UInt8.toNat.inj
  rw [UInt8.toNat_ofNat', Utils.mpGetByte_toNat]
  exact part_toNat hY hpos r i

/-- Bytes below `len` do not see a power of the base. -/
theorem leBytes_mod (len n : Nat) : leBytes len (n % 256 ^ len) = leBytes len n := by
  apply List.map_congr_left
  intro i hi
  apply UInt8.toNat.inj
  rw [Utils.mpGetByte_toNat, Utils.mpGetByte_toNat]
  obtain ⟨d, hd⟩ : ∃ d, len = i + 1 + d := ⟨len - (i + 1), by have := List.mem_range.mp hi; omega⟩
  rw [hd, Nat.pow_add, Nat.pow_succ, Nat.mul_assoc, Nat.mod_mul_right_div_self, Nat.mod_mul_right_mod]

end Putty.Ccp
