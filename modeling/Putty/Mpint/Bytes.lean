/-
  Putty.Mpint.Bytes — the bytes and the bits of an mp_int's words: `mp_get_byte`,
  `mp_from_bytes_le` and `mp_from_bytes_be`, `mp_get_nbits`.

  A size_t that the code chooses by masks is a number chosen by an `if`, and the index -1
  that stands for "no word" is the integer -1.

  Proved, for words of 16, 32 and 64 bits: on the words of a number these give the bytes
  and the bit count of the number (`mpGetByte_eq`, `mpGetNbits_eq`), and the words made of
  some bytes are those of the number that the bytes stand for (`mpFromBytesBe_spec`).
-/

import Putty.Mpint.Integers
import Putty.Utils.Mpint

namespace Putty.Mpint

open Putty.Lib Putty.Lib.Limbs

variable {W : Nat}

/-- The supported values of BIGNUM_INT_BITS. -/
def Supported (W : Nat) : Prop := W = 16 ∨ W = 32 ∨ W = 64

def mpGetByte (x : Limbs W) (byte : Nat) : UInt8 :=
  UInt8.ofNat ((mpWord x (byte / (W / 8)) >>> (8 * (byte % (W / 8)))).toNat &&& 0xff)

/-- The bytes are read in an arithmetic progression. -/
def mpFromBytesInt (W : Nat) (bytes : List UInt8) (m c : Int) : Limbs W :=
  let nw := max ((bytes.length + W / 8 - 1) / (W / 8)) 1
  (List.range bytes.length).foldl
    (fun n i => n.set (i / (W / 8))
      (mpWord n (i / (W / 8)) ||| BitVec.ofNat W (bytes.getD (m * i + c).toNat 0).toNat <<< (8 * (i % (W / 8)))))
    (List.replicate nw 0)

def mpFromBytesLe (W : Nat) (bytes : List UInt8) : Limbs W := mpFromBytesInt W bytes 1 0

def mpFromBytesBe (W : Nat) (bytes : List UInt8) : Limbs W := mpFromBytesInt W bytes (-1) (bytes.length - 1)

/-- What mp_find_highest_nonzero_word_pair writes. -/
structure WordPair where
  index : Int
  hi : BitVec 64
  lo : BitVec 64

/-- The loop from the word `i` on. -/
def findHighestFrom (shiftWanted : Nat) : Nat → Limbs W → BitVec 64 → BitVec 64 → WordPair → WordPair
  | _, [], _, _, p => p
  | i, currWord :: x, currHi, currLo, p =>
    let indicator := normaliseTo1 currWord
    let currLo := (if W < 64 then currLo >>> W else 0) ||| currHi <<< (64 - W)
    let currHi := (if W < 64 then currHi >>> W else 0) ||| currWord.setWidth 64 <<< shiftWanted
    findHighestFrom shiftWanted (i + 1) x currHi currLo
      { index := if indicator then i else p.index
        hi := p.hi ^^^ ((currHi ^^^ p.hi) &&& maskOf 64 indicator)
        lo := p.lo ^^^ ((currLo ^^^ p.lo) &&& maskOf 64 indicator) }

def mpFindHighestNonzeroWordPair (x : Limbs W) (shiftWanted : Nat) (p : WordPair) : WordPair := findHighestFrom shiftWanted 0 x 0 0 p

/-- The search for the highest bit, the shifts `2 ^ e` still to be tried for `e` below the first argument. -/
def hibitFrom : Nat → BitVec W → Nat → Nat
  | 0, _, hibitIndex => hibitIndex
  | e + 1, hiword, hibitIndex =>
    let shiftedWord := hiword >>> 2 ^ e
    let indicator := ((-shiftedWord) >>> (W - 1)).getLsbD 0
    hibitFrom e (hiword ^^^ ((shiftedWord ^^^ hiword) &&& maskOf W indicator)) (hibitIndex + if indicator then 2 ^ e else 0)

def mpGetNbits (x : Limbs W) : Nat :=
  let p := mpFindHighestNonzeroWordPair x 0 ⟨-1, (~~~(0 : BitVec W)).setWidth 64, 0⟩
  let hiword := p.hi.setWidth W
  (p.index * 2 ^ Nat.log2 W + hibitFrom (Nat.log2 W) hiword 0 + 1).toNat

/-! ## Bytes and other parts of a word -/

/-- The place of a part of `u` bits, by its word and its place in the word. -/
theorem part_place {u Y : Nat} (hW : W = u * Y) (i : Nat) : (2 ^ W) ^ (i / Y) * 2 ^ (u * (i % Y)) = (2 ^ u) ^ i := by
  have hdm := Nat.div_add_mod i Y
  rw [← pow_mul, ← Nat.pow_add, ← pow_mul, hW]
  congr 1
  rw [Nat.mul_assoc, ← Nat.mul_add, hdm]

theorem part_room {u Y : Nat} (hW : W = u * Y) (hY : 0 < Y) (i : Nat) : u * (i % Y) + u ≤ W := by
  have hle := Nat.mul_le_mul_left u (Nat.succ_le_of_lt (Nat.mod_lt i hY))
  rwa [Nat.mul_succ, ← hW] at hle

theorem part_toNat {u Y : Nat} (hW : W = u * Y) (hY : 0 < Y) (x : Limbs W) (i : Nat) :
    (mpWord x (i / Y) >>> (u * (i % Y))).toNat % 2 ^ u = val x / (2 ^ u) ^ i % 2 ^ u := by
  have hroom := part_room hW hY i
  rw [BitVec.toNat_ushiftRight, mpWord_toNat, Nat.shiftRight_eq_div_pow]
  obtain ⟨d, hd⟩ : ∃ d, W = u * (i % Y) + (u + d) := ⟨W - u * (i % Y) - u, by omega⟩
  have hcut : ∀ v : Nat, v % 2 ^ W / 2 ^ (u * (i % Y)) % 2 ^ u = v / 2 ^ (u * (i % Y)) % 2 ^ u := by
    intro v
    conv_lhs => rw [hd, Nat.pow_add]
    rw [Nat.mod_mul_right_div_self, Nat.pow_add, Nat.mod_mul_right_mod]
  rw [hcut, Nat.div_div_eq_div_mul, part_place hW]

/-- A part put above what a word has so far. -/
theorem or_part_toNat {w : BitVec W} {u b k : Nat} (hb : b < 2 ^ u) (hk : u * k + u ≤ W) (hw : w.toNat < 2 ^ (u * k)) :
    (w ||| BitVec.ofNat W b <<< (u * k)).toNat = w.toNat + 2 ^ (u * k) * b := by
  have hpow : 2 ^ (u * k) * b < 2 ^ W := by
    have hle : 2 ^ (u * k + u) ≤ 2 ^ W := Nat.pow_le_pow_right (by decide) hk
    have hlt := Nat.mul_lt_mul_of_pos_left hb (Nat.two_pow_pos (u * k))
    rw [Nat.pow_add] at hle
    omega
  have hsmall : b < 2 ^ W := by
    have := Nat.le_mul_of_pos_left b (Nat.two_pow_pos (u * k))
    omega
  rw [BitVec.toNat_or, BitVec.toNat_shiftLeft, BitVec.toNat_ofNat, Nat.mod_eq_of_lt hsmall, Nat.shiftLeft_eq, Nat.mul_comm b,
    Nat.mod_eq_of_lt hpow, Nat.or_comm, ← Nat.two_pow_add_eq_or_of_lt hw, Nat.add_comm]

/-- Storing one part more. -/
theorem store_part {u Y : Nat} (hW : W = u * Y) (hY : 0 < Y) {n : Limbs W} {v k b : Nat} (hroom : k / Y < n.length)
    (hval : val n = v % (2 ^ u) ^ k) (hb : b = v / (2 ^ u) ^ k % 2 ^ u) :
    val (n.set (k / Y) (mpWord n (k / Y) ||| BitVec.ofNat W b <<< (u * (k % Y)))) = v % (2 ^ u) ^ (k + 1) := by
  have hplace := part_place hW k
  have hlow : (mpWord n (k / Y)).toNat < 2 ^ (u * (k % Y)) := by
    rw [mpWord_toNat]
    apply Nat.lt_of_le_of_lt (Nat.mod_le _ _)
    apply Nat.div_lt_of_lt_mul
    rw [hplace, hval]
    exact Nat.mod_lt _ (Nat.pow_pos (Nat.two_pow_pos u))
  have hset := val_set hroom (mpWord n (k / Y) ||| BitVec.ofNat W b <<< (u * (k % Y)))
  rw [or_part_toNat (by rw [hb]; exact Nat.mod_lt _ (Nat.two_pow_pos u)) (part_room hW hY k) hlow, Nat.mul_add, ← Nat.mul_assoc, hplace,
    hval] at hset
  have hsucc : v % (2 ^ u) ^ (k + 1) = v % (2 ^ u) ^ k + (2 ^ u) ^ k * (v / (2 ^ u) ^ k % 2 ^ u) := by rw [Nat.pow_succ, Nat.mod_mul]
  rw [hsucc, ← hb]
  unfold mpWord at hset ⊢
  linarith [hset]

theorem Supported.pos (h : Supported W) : 0 < W := by
  unfold Supported at h
  omega

theorem Supported.ten_lt (h : Supported W) : 10 < 2 ^ W := by
  unfold Supported at h
  exact Nat.lt_of_lt_of_le (by decide) (Nat.pow_le_pow_right (show 0 < 2 by decide) (show 16 ≤ W by omega))

theorem Supported.bytes (h : Supported W) : W = 8 * (W / 8) ∧ 0 < W / 8 := by
  unfold Supported at h
  omega

theorem mpGetByte_eq (h : Supported W) (x : Limbs W) (byte : Nat) : mpGetByte x byte = Utils.mpGetByte (val x) byte := by
  obtain ⟨hY, hpos⟩ := h.bytes
  apply UInt8.toNat.inj
  unfold mpGetByte
  rw [Utils.mpGetByte_toNat, UInt8.toNat_ofNat', show (0xff : Nat) = 2 ^ 8 - 1 from rfl, Nat.and_two_pow_sub_one_eq_mod, Nat.mod_mod]
  exact part_toNat hY hpos x byte

/-- A loop that stores bytes one by one stores the low bytes of `v`, when `v` is the number whose bytes it reads. -/
theorem stored_bytes (h : Supported W) {d : Nat → Nat} {nw len v : Nat} (hroom : ∀ k < len, k / (W / 8) < nw)
    (hv : ∀ i < len, d i = v / 256 ^ i % 256) {n : Limbs W}
    (hn : n = (List.range len).foldl
      (fun n i => n.set (i / (W / 8)) (mpWord n (i / (W / 8)) ||| BitVec.ofNat W (d i) <<< (8 * (i % (W / 8))))) (List.replicate nw 0)) :
    n.length = nw ∧ val n = v % 256 ^ len := by
  obtain ⟨hY, hpos⟩ := h.bytes
  induction len generalizing n with
  | zero =>
    rw [hn, Nat.pow_zero, Nat.mod_one]
    exact ⟨List.length_replicate, val_replicate_zero _⟩
  | succ k ih =>
    obtain ⟨hlen, hval⟩ := ih (fun i hi => hroom i (by omega)) (fun i hi => hv i (by omega)) rfl
    rw [List.range_succ, List.foldl_append, List.foldl_cons, List.foldl_nil] at hn
    generalize (List.range k).foldl _ _ = n0 at hn hlen hval
    rw [hn, List.length_set]
    exact ⟨hlen, store_part hY hpos (by rw [hlen]; exact hroom k (by omega)) hval (hv k (by omega))⟩

theorem mpFromBytesInt_spec (h : Supported W) {bytes : List UInt8} {m c : Int} {v : Nat}
    (hv : ∀ i < bytes.length, (bytes.getD (m * i + c).toNat 0).toNat = v / 256 ^ i % 256) :
    (mpFromBytesInt W bytes m c).length = max ((bytes.length + W / 8 - 1) / (W / 8)) 1 ∧
      val (mpFromBytesInt W bytes m c) = v % 256 ^ bytes.length := by
  apply stored_bytes h _ hv rfl
  intro k hk
  apply Nat.lt_of_lt_of_le _ (Nat.le_max_left _ _)
  have hle := Nat.div_le_div_right (c := W / 8) (show k + W / 8 ≤ bytes.length + W / 8 - 1 by omega)
  rw [Nat.add_div_right k h.bytes.2] at hle
  omega

theorem mpFromBytesBe_spec (h : Supported W) (bytes : List UInt8) :
    (mpFromBytesBe W bytes).length = max ((bytes.length + W / 8 - 1) / (W / 8)) 1 ∧
      val (mpFromBytesBe W bytes) = Utils.mpFromBytesBe bytes := by
  have hspec := mpFromBytesInt_spec (m := -1) (c := (bytes.length : Int) - 1) (v := Utils.mpFromBytesBe bytes) h (by
    intro i hi
    rw [← Utils.mpFromBytesBe_digit hi]
    congr 2
    omega)
  rw [Nat.mod_eq_of_lt (Utils.mpFromBytesBe_lt bytes)] at hspec
  exact hspec

/-! ## Bits -/

/-- The highest word that is not 0, and what is below it. -/
theorem findHighestFrom_spec (hW : 2 ≤ W) (i : Nat) (x : Limbs W) (currHi currLo : BitVec 64) (p : WordPair)
    (hcurr : W < 64 → currHi.toNat < 2 ^ W) :
    (val x = 0 ∧ (findHighestFrom 0 i x currHi currLo p).index = p.index ∧ (findHighestFrom 0 i x currHi currLo p).hi = p.hi) ∨
      ∃ (j : Nat) (w : BitVec W) (r : Nat), w ≠ 0 ∧ (findHighestFrom 0 i x currHi currLo p).index = ((i + j : Nat) : Int) ∧
        (findHighestFrom 0 i x currHi currLo p).hi = w.setWidth 64 ∧ r < (2 ^ W) ^ j ∧ val x = r + (2 ^ W) ^ j * w.toNat := by
  induction x generalizing i currHi currLo p with
  | nil => exact .inl ⟨rfl, rfl, rfl⟩
  | cons w x ih =>
    have hnext : ((if W < 64 then currHi >>> W else 0) ||| w.setWidth 64 <<< 0 : BitVec 64) = w.setWidth 64 := by
      have hzero : (if W < 64 then currHi >>> W else 0 : BitVec 64) = 0 := by
        by_cases h : W < 64
        · rw [if_pos h]
          apply BitVec.eq_of_toNat_eq
          rw [BitVec.toNat_ushiftRight, Nat.shiftRight_eq_div_pow, Nat.div_eq_of_lt (hcurr h)]
          rfl
        · rw [if_neg h]
      rw [hzero]
      simp
    have hchoose : ∀ q : BitVec 64, q ^^^ ((w.setWidth 64 ^^^ q) &&& maskOf 64 (normaliseTo1 w)) = if normaliseTo1 w then w.setWidth 64 else q := by
      intro q
      rw [BitVec.xor_comm (w.setWidth 64) q]
      exact choose_next q (w.setWidth 64) (normaliseTo1 w)
    have hsmall : W < 64 → (w.setWidth 64).toNat < 2 ^ W := by
      intro _
      rw [BitVec.toNat_setWidth]
      exact Nat.lt_of_le_of_lt (Nat.mod_le _ _) w.isLt
    unfold findHighestFrom
    dsimp only
    rw [hnext, hchoose]
    rcases ih (i + 1) (w.setWidth 64) _ _ hsmall with ⟨hx, hindex, hhi⟩ | ⟨j, w', r, hw', hindex, hhi, hr, hval⟩
    · rw [hindex, hhi, normaliseTo1_eq hW]
      dsimp only
      by_cases hw : w = 0
      · left
        rw [if_neg (by simpa using hw), if_neg (by simpa using hw), val_cons, hx, hw]
        exact ⟨by simp, rfl, rfl⟩
      · right
        refine ⟨0, w, 0, hw, ?_, ?_, by simp, ?_⟩
        · rw [if_pos (by simpa using hw)]
          rfl
        · rw [if_pos (by simpa using hw)]
        · rw [val_cons, hx]
          simp
    · right
      refine ⟨j + 1, w', w.toNat + 2 ^ W * r, hw', ?_, hhi, ?_, ?_⟩
      · rw [hindex]
        congr 1
        omega
      · have := Nat.mul_le_mul_left (2 ^ W) hr
        have hlt := w.isLt
        rw [Nat.mul_succ] at this
        rw [Nat.pow_succ']
        omega
      · rw [val_cons, hval, Nat.pow_succ']
        ring

/-- The highest bit of a number that is cut above its low bits. -/
theorem log2_of_split {n w r : Nat} (hw : w ≠ 0) (hr : r < 2 ^ n) : Nat.log2 (r + 2 ^ n * w) = n + Nat.log2 w := by
  have hpos := Nat.two_pow_pos n
  have hmul := Nat.le_mul_of_pos_right (2 ^ n) (Nat.pos_of_ne_zero hw)
  rw [Nat.log2_eq_iff (by omega), Nat.add_assoc, Nat.pow_add, Nat.pow_add]
  constructor
  · have := Nat.mul_le_mul_left (2 ^ n) (Nat.log2_self_le hw)
    omega
  · have := Nat.mul_le_mul_left (2 ^ n) (Nat.succ_le_of_lt ((Nat.log2_lt hw).mp (Nat.lt_succ_self _)))
    rw [Nat.mul_succ] at this
    exact Nat.lt_of_lt_of_le (by omega) this

/-- The search halves the room for the highest bit until one bit is left. -/
theorem hibitFrom_spec {e : Nat} (hW : W = 2 ^ e) (k : Nat) (hk : k ≤ e) (w : BitVec W) (hw : w ≠ 0) (hlt : w.toNat < 2 ^ 2 ^ k) (hibit : Nat) :
    hibitFrom k w hibit = hibit + Nat.log2 w.toNat := by
  have hpos : ∀ v : BitVec W, v ≠ 0 → v.toNat ≠ 0 := by
    intro v hv h
    apply hv
    apply BitVec.eq_of_toNat_eq
    rw [h]
    simp
  induction k generalizing w hibit with
  | zero =>
    have hone : w.toNat = 1 := by
      have := hpos w hw
      rw [Nat.pow_zero, Nat.pow_one] at hlt
      omega
    rw [hone]
    rfl
  | succ k ih =>
    have hsquare : 2 ^ 2 ^ (k + 1) = 2 ^ 2 ^ k * 2 ^ 2 ^ k := by
      rw [← Nat.pow_add, Nat.pow_succ, Nat.mul_two]
    have hshift : (w >>> 2 ^ k).toNat = w.toNat / 2 ^ 2 ^ k := by rw [BitVec.toNat_ushiftRight, Nat.shiftRight_eq_div_pow]
    have hdiv : w.toNat / 2 ^ 2 ^ k < 2 ^ 2 ^ k := Nat.div_lt_of_lt_mul (by rwa [← hsquare])
    have hroom : 2 ^ k ≤ W - 1 := by
      have := Nat.pow_le_pow_right (show 0 < 2 by decide) hk
      have := Nat.two_pow_pos k
      rw [Nat.pow_succ] at *
      omega
    have htop : ((-(w >>> 2 ^ k)) >>> (W - 1)).getLsbD 0 = decide (w >>> 2 ^ k ≠ 0) := by
      apply top_of_neg
      · have := Nat.two_pow_pos e
        omega
      · rw [hshift]
        exact Nat.lt_of_lt_of_le hdiv (Nat.pow_le_pow_right (by decide) hroom)
    unfold hibitFrom
    dsimp only
    rw [htop, BitVec.xor_comm (w >>> 2 ^ k) w, masked_word]
    by_cases hz : w >>> 2 ^ k = 0
    · -- the bit is in the lower half
      have hlow : w.toNat < 2 ^ 2 ^ k := by
        have h0 : w.toNat / 2 ^ 2 ^ k = 0 := by
          rw [← hshift, hz]
          simp
        exact (Nat.div_eq_zero_iff_lt (Nat.two_pow_pos _)).mp h0
      rw [if_neg (by simpa using hz), if_neg (by simpa using hz), Nat.add_zero, xor_none]
      exact ih (by omega) w hw hlow hibit
    · have hne := hpos _ hz
      rw [if_pos (by simpa using hz), if_pos (by simpa using hz), ← BitVec.xor_assoc, BitVec.xor_self, BitVec.zero_xor,
        ih (by omega) _ hz (by rwa [hshift]), hshift, Nat.add_assoc]
      congr 1
      rw [hshift] at hne
      rw [← log2_of_split hne (Nat.mod_lt w.toNat (Nat.two_pow_pos _)), Nat.mod_add_div]

theorem mpGetNbits_eq (h : Supported W) (x : Limbs W) : mpGetNbits x = Utils.mpGetNbits (val x) := by
  have hlog : W = 2 ^ Nat.log2 W := by
    unfold Supported at h
    obtain rfl | rfl | rfl := h
    · decide
    · decide
    · decide
  have hlogInt : (2 : Int) ^ Nat.log2 W = W := by exact_mod_cast hlog.symm
  have hle : W ≤ 64 := by
    unfold Supported at h
    omega
  have hback : ∀ w : BitVec W, (w.setWidth 64).setWidth W = w := by
    intro w
    apply BitVec.eq_of_toNat_eq
    have hlt := Nat.lt_of_lt_of_le w.isLt (Nat.pow_le_pow_right (show 2 > 0 by decide) hle)
    rw [BitVec.toNat_setWidth, BitVec.toNat_setWidth, Nat.mod_eq_of_lt hlt, Nat.mod_eq_of_lt w.isLt]
  have hhibit : ∀ w : BitVec W, w ≠ 0 → hibitFrom (Nat.log2 W) w 0 = Nat.log2 w.toNat := by
    intro w hw
    have hlt := w.isLt
    rw [hibitFrom_spec hlog _ (Nat.le_refl _) w hw (by rwa [← hlog]), Nat.zero_add]
  have hW2 : 2 ≤ W := by
    unfold Supported at h
    omega
  unfold mpGetNbits mpFindHighestNonzeroWordPair
  dsimp only
  rcases findHighestFrom_spec hW2 0 x 0 0 ⟨-1, (~~~(0 : BitVec W)).setWidth 64, 0⟩ (by
    intro _
    exact base_pos) with ⟨hx, hindex, hhi⟩ | ⟨j, w, r, hw, hindex, hhi, hr, hval⟩
  · -- the word below the units, all ones
    have hones : (~~~(0 : BitVec W)).toNat = 2 ^ W - 1 := by
      rw [BitVec.toNat_not]
      simp
    have hne : ~~~(0 : BitVec W) ≠ 0 := by
      intro h0
      have := congrArg BitVec.toNat h0
      have htwo := Nat.one_lt_two_pow (show W ≠ 0 by omega)
      rw [hones] at this
      simp at this
      omega
    have htop : Nat.log2 (2 ^ W - 1) = W - 1 := by
      have hpos := Nat.one_lt_two_pow (show W ≠ 0 by omega)
      have hhalf : 2 ^ W = 2 ^ (W - 1) * 2 := by rw [← Nat.pow_succ, Nat.succ_eq_add_one, Nat.sub_add_cancel (by omega)]
      rw [Nat.log2_eq_iff (by omega), Nat.sub_add_cancel (by omega)]
      omega
    rw [hindex, hhi, hback, hhibit _ hne, hones, htop, hx, hlogInt, Utils.mpGetNbits_zero]
    dsimp only
    omega
  · have hwne : w.toNat ≠ 0 := by
      intro h0
      apply hw
      apply BitVec.eq_of_toNat_eq
      rw [h0]
      simp
    have hpos := Nat.mul_pos (pow_base_pos (W := W) j) (Nat.pos_of_ne_zero hwne)
    rw [← pow_mul] at hr hval hpos
    rw [hindex, hhi, hback, hhibit _ hw, hval, hlogInt, Nat.zero_add]
    unfold Utils.mpGetNbits
    rw [if_neg (by omega), log2_of_split hwne hr, Nat.mul_comm W j]
    norm_cast

end Putty.Mpint
