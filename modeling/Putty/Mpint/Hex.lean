/-
  Putty.Mpint.Hex — hexadecimal strings in `mpint.c`: `mp_from_hex_pl`, `mp_get_hex` and
  `mp_get_hex_uppercase`.

  A char is a byte, sign-extended where the code widens it. The length guard of
  `mp_from_hex_pl` is for a size_t of 64 bits.

  Proved, for words of 16, 32 and 64 bits: every string of digits within the guard is read
  as its number (`mpFromHexPl_spec`), what is written is the number's numeral
  (`mpGetHexInternal_eq`), and reading it gives the number (`hex_round_trip`).
-/

import Putty.Mpint.Bytes
import Putty.Mpint.Digits

namespace Putty.Mpint

open Putty.Lib Putty.Lib.Limbs

variable {W : Nat}

/-- The value of a digit, chosen by masks. -/
def hexDigitval (W : Nat) (c : UInt8) : BitVec W :=
  let digit := c.toBitVec.signExtend W
  let lmask := ~~~(-((digit - 97 ||| 102 - digit) >>> (W - 1)))
  let umask := ~~~(-((digit - 65 ||| 70 - digit) >>> (W - 1)))
  let digitval := digit - 48
  let digitval := digitval ^^^ ((digitval ^^^ (digit - 97 + 10)) &&& lmask)
  let digitval := digitval ^^^ ((digitval ^^^ (digit - 65 + 10)) &&& umask)
  digitval &&& 0xF

/-- The assertion is the length guard. -/
def mpFromHexPl (W : Nat) (hex : List UInt8) : Option (Limbs W) :=
  if hex.length ≤ sizeMax / 4 then
    let bits := hex.length * 4
    let words := max ((bits + W - 1) / W) 1
    some ((List.range hex.length).foldl
      (fun x nibble => x.set (nibble / (W / 8 * 2))
        (mpWord x (nibble / (W / 8 * 2)) ||| hexDigitval W (hex.getD (hex.length - 1 - nibble) 0) <<< (nibble % (W / 8 * 2) * 4)))
      (List.replicate words 0))
  else none

/-- The character of a digit, a letter being `letterOffset` further on. -/
def hexDigit (letterOffset digitval : UInt8) : UInt8 :=
  let mask := -((digitval + 6) >>> 4)
  digitval + 48 + (letterOffset &&& mask)

def hexNibble (x : Limbs W) (nibble : Nat) : UInt8 :=
  0xF &&& UInt8.ofNat (mpWord x (nibble / (W / 8 * 2)) >>> (nibble % (W / 8 * 2) * 4)).toNat

/-- The string that is returned. -/
def mpGetHexInternal (x : Limbs W) (letterOffset : UInt8) : List UInt8 :=
  let nibbles := x.length * (W / 8) * 2
  let outbuf := (List.range nibbles).reverse.map (fun nibble => hexDigit letterOffset (hexNibble x nibble)) ++ [0]
  cString (trimLeadingZeroes outbuf (nibbles - 1))

def mpGetHex (x : Limbs W) : List UInt8 := mpGetHexInternal x (97 - (48 + 10))

def mpGetHexUppercase (x : Limbs W) : List UInt8 := mpGetHexInternal x (65 - (48 + 10))

/-- The character that stands for a digit. -/
def hexChar (letter : Nat) (d : Nat) : UInt8 := UInt8.ofNat (if d < 10 then 48 + d else letter + (d - 10))

/-! ## Characters -/

/-- The first letter of the two alphabets. -/
def Letter (letter : Nat) : Prop := letter = 97 ∨ letter = 65

theorem Letter.mem {letter : Nat} (h : Letter letter) : letter ∈ [97, 65] := by
  unfold Letter at h
  simpa using h

theorem hexDigitval_hexChar (h : Supported W) {letter : Nat} (hl : Letter letter) {d : Nat} (hd : d < 16) :
    hexDigitval W (hexChar letter d) = BitVec.ofNat W d := by
  unfold Supported at h
  have hall16 : ∀ l ∈ [97, 65], ∀ e < 16, hexDigitval 16 (hexChar l e) = BitVec.ofNat 16 e := by decide
  have hall32 : ∀ l ∈ [97, 65], ∀ e < 16, hexDigitval 32 (hexChar l e) = BitVec.ofNat 32 e := by decide
  have hall64 : ∀ l ∈ [97, 65], ∀ e < 16, hexDigitval 64 (hexChar l e) = BitVec.ofNat 64 e := by decide
  obtain rfl | rfl | rfl := h
  · exact hall16 letter hl.mem d hd
  · exact hall32 letter hl.mem d hd
  · exact hall64 letter hl.mem d hd

theorem hexDigit_eq {letter : Nat} (hl : Letter letter) {d : Nat} (hd : d < 16) :
    hexDigit (UInt8.ofNat letter - (48 + 10)) (UInt8.ofNat d) = hexChar letter d := by
  have hall : ∀ l ∈ [97, 65], ∀ e < 16, hexDigit (UInt8.ofNat l - (48 + 10)) (UInt8.ofNat e) = hexChar l e := by decide
  exact hall letter hl.mem d hd

theorem hexChar_zero {letter : Nat} (hl : Letter letter) {d : Nat} (hd : d < 16) :
    hexChar letter d ≠ 0 ∧ (hexChar letter d = 48 ↔ d = 0) := by
  have hall : ∀ l ∈ [97, 65], ∀ e < 16, hexChar l e ≠ 0 ∧ (hexChar l e = 48 ↔ e = 0) := by decide
  exact hall letter hl.mem d hd

theorem Supported.nibbles (h : Supported W) : W = 4 * (W / 8 * 2) ∧ 0 < W / 8 * 2 := by
  unfold Supported at h
  omega

/-! ## Reading -/

theorem mpFromHexPl_spec (h : Supported W) {letter : Nat} (hl : Letter letter) {ds : List Nat} (hds : ∀ d ∈ ds, d < 16)
    (hlen : ds.length ≤ sizeMax / 4) :
    ∃ x, mpFromHexPl W (ds.map (hexChar letter)) = some x ∧ x.length = max ((ds.length * 4 + W - 1) / W) 1 ∧ val x = numberOf 16 ds := by
  obtain ⟨hY, hpos⟩ := h.nibbles
  have hdigit : ∀ k < ds.length, (ds.map (hexChar letter)).getD (ds.length - 1 - k) 0 = hexChar letter (numberOf 16 ds / 16 ^ k % 16) := by
    intro k hk
    rw [← numberOf_digit hds hk, List.getD_eq_getElem _ _ (by rw [List.length_map]; omega), List.getElem_map,
      List.getD_eq_getElem _ _ (by omega)]
  have hloop : ∀ k ≤ ds.length, ∀ x : Limbs W, x = (List.range k).foldl
      (fun x nibble => x.set (nibble / (W / 8 * 2)) (mpWord x (nibble / (W / 8 * 2)) |||
        hexDigitval W ((ds.map (hexChar letter)).getD (ds.length - 1 - nibble) 0) <<< (nibble % (W / 8 * 2) * 4)))
      (List.replicate (max ((ds.length * 4 + W - 1) / W) 1) 0) →
      x.length = max ((ds.length * 4 + W - 1) / W) 1 ∧ val x = numberOf 16 ds % 16 ^ k := by
    intro k
    induction k with
    | zero =>
      intro _ x hx
      rw [hx, Nat.pow_zero, Nat.mod_one]
      exact ⟨List.length_replicate, val_replicate_zero _⟩
    | succ k ih =>
      intro hk x hx
      obtain ⟨hlen0, hval⟩ := ih (by omega) _ rfl
      rw [List.range_succ, List.foldl_append, List.foldl_cons, List.foldl_nil] at hx
      generalize (List.range k).foldl _ _ = x0 at hx hlen0 hval
      rw [hdigit k (by omega), hexDigitval_hexChar h hl (Nat.mod_lt _ (by decide)), Nat.mul_comm (k % _)] at hx
      have hroom : k / (W / 8 * 2) < x0.length := by
        rw [hlen0]
        apply Nat.lt_of_lt_of_le _ (Nat.le_max_left _ _)
        rw [Nat.div_lt_iff_lt_mul hpos]
        have hdm := Nat.div_add_mod (ds.length * 4 + W - 1) W
        have hmod := Nat.mod_lt (ds.length * 4 + W - 1) (show 0 < W by omega)
        generalize (ds.length * 4 + W - 1) / W = c at hdm ⊢
        have hrows : W * c = 4 * (c * (W / 8 * 2)) := by
          conv_lhs => rw [hY]
          ring
        omega
      rw [hx, List.length_set]
      exact ⟨hlen0, store_part hY hpos hroom hval rfl⟩
  obtain ⟨hlen0, hval⟩ := hloop ds.length (Nat.le_refl _) _ rfl
  unfold mpFromHexPl
  rw [List.length_map, if_pos hlen]
  refine ⟨_, rfl, hlen0, ?_⟩
  rw [hval, Nat.mod_eq_of_lt (numberOf_lt hds)]

/-! ## Writing -/

theorem hexNibble_eq (h : Supported W) (x : Limbs W) (nibble : Nat) : hexNibble x nibble = UInt8.ofNat (val x / 16 ^ nibble % 16) := by
  obtain ⟨hY, hpos⟩ := h.nibbles
  have hpart := part_toNat hY hpos x nibble
  unfold hexNibble
  rw [Nat.mul_comm (nibble % _) 4]
  generalize (mpWord x (nibble / (W / 8 * 2)) >>> (4 * (nibble % (W / 8 * 2)))).toNat = w at hpart ⊢
  apply UInt8.toNat.inj
  rw [UInt8.and_comm, UInt8.toNat_and, UInt8.toNat_ofNat', UInt8.toNat_ofNat', show (0xF : UInt8).toNat = 2 ^ 4 - 1 from rfl,
    Nat.and_two_pow_sub_one_eq_mod]
  change w % 16 = val x / 16 ^ nibble % 16 at hpart
  omega

/-- Digits taken by their places. -/
theorem fixedDigits_eq_map (b n v : Nat) : fixedDigits b n v = (List.range n).reverse.map (fun i => v / b ^ i % b) := by
  induction n generalizing v with
  | zero => rfl
  | succ n ih =>
    rw [fixedDigits, ih, List.range_succ_eq_map, List.reverse_cons, List.map_append, ← List.map_reverse, List.map_map, List.map_singleton,
      Nat.pow_zero, Nat.div_one]
    congr 1
    apply List.map_congr_left
    intro i _
    show v / b / b ^ i % b = v / b ^ (i + 1) % b
    rw [Nat.pow_succ', Nat.div_div_eq_div_mul]

theorem val_lt_hex (h : Supported W) (x : Limbs W) : val x < 16 ^ (x.length * (W / 8) * 2) := by
  have hlt := val_lt x
  have hexp : ∀ n, W * n = 4 * (n * (W / 8) * 2) := by
    intro n
    conv_lhs => rw [h.nibbles.1]
    ring
  rwa [← pow_mul, hexp, pow_mul] at hlt

theorem mpGetHexInternal_eq (h : Supported W) {letter : Nat} (hl : Letter letter) {x : Limbs W} (hx : x ≠ []) :
    mpGetHexInternal x (UInt8.ofNat letter - (48 + 10)) = (numeral 16 (val x)).map (hexChar letter) := by
  have hpos := List.length_pos_iff.mpr hx
  have hbytes : 1 ≤ x.length * (W / 8) * 2 := by
    rw [Nat.mul_assoc]
    exact Nat.mul_pos hpos h.nibbles.2
  have hdigits : (List.range (x.length * (W / 8) * 2)).reverse.map
      (fun nibble => hexDigit (UInt8.ofNat letter - (48 + 10)) (hexNibble x nibble)) =
      (fixedDigits 16 (x.length * (W / 8) * 2) (val x)).map (hexChar letter) := by
    rw [fixedDigits_eq_map, List.map_map]
    apply List.map_congr_left
    intro nibble _
    rw [hexNibble_eq h, hexDigit_eq hl (Nat.mod_lt _ (by decide))]
    rfl
  have hchars : ∀ d ∈ fixedDigits 16 (x.length * (W / 8) * 2) (val x), hexChar letter d ≠ 0 ∧ (hexChar letter d = 48 ↔ d = 0) :=
    fun d hd => hexChar_zero hl (fixedDigits_lt (by decide) hd)
  have htrim := @trimmed_string ((fixedDigits 16 (x.length * (W / 8) * 2) (val x)).map (hexChar letter)) (by
    intro hnil
    have hlen := congrArg List.length hnil
    rw [List.length_map, length_fixedDigits, List.length_nil] at hlen
    omega) (by
    intro c hc
    obtain ⟨d, hd, rfl⟩ := List.mem_map.mp hc
    exact (hchars d hd).1)
  unfold mpGetHexInternal
  dsimp only
  rw [hdigits]
  rw [List.length_map, length_fixedDigits] at htrim
  rw [htrim, stripZeros_map fun d hd => (hchars d hd).2, stripZeros_fixedDigits (by decide) hbytes (val_lt_hex h x)]

theorem mpGetHex_eq (h : Supported W) {x : Limbs W} (hx : x ≠ []) : mpGetHex x = (numeral 16 (val x)).map (hexChar 97) :=
  mpGetHexInternal_eq h (.inl rfl) hx

/-- A number is read back as it was written, when its digits are within the guard. -/
theorem hex_round_trip (h : Supported W) {x : Limbs W} (hx : x ≠ []) (hlen : x.length * (W / 8) * 2 ≤ sizeMax / 4) :
    ∃ y, mpFromHexPl W (mpGetHex x) = some y ∧ val y = val x := by
  have hpos : 1 ≤ x.length * (W / 8) * 2 := by
    rw [Nat.mul_assoc]
    exact Nat.mul_pos (List.length_pos_iff.mpr hx) h.nibbles.2
  have hdigits := length_numeral_le (by decide) hpos (val_lt_hex h x)
  obtain ⟨y, hy, -, hval⟩ := mpFromHexPl_spec h (.inl rfl) (fun d hd => numeral_lt (by decide) hd) (Nat.le_trans hdigits hlen)
  refine ⟨y, ?_, ?_⟩
  · rw [mpGetHex_eq h hx, hy]
  · rw [hval, numberOf_numeral (by decide)]

end Putty.Mpint
