/-
  Putty.Mpint.Decimal — decimal strings in `mpint.c`: `mp_from_decimal_pl` and
  `mp_get_decimal`.

  The digits are written from the last: each is the residue mod 10 of what is left, which
  is then divided by 2 with a shift and by 5 with the inverse of 5. The residue is found
  in a uint32_t that sums the bytes, all but the lowest taken six times, its high half
  being folded into the low half before the sum of so many bytes can overflow. A uint32_t
  is a number below 2 ^ 32, and the assertions about lengths are for a size_t of 64 bits.

  Proved, for words of 16, 32 and 64 bits:
  - `mpFromDecimalPl_eq`: a string of digits within the length guard is read as its number,
    no carry coming off the top.
  - `mpGetDecimal_eq`: if the residue is right for every number of the width, what is
    written is the number's numeral; whatever it is, the last character is the first
    residue (`mpGetDecimal_last`).
-/

import Putty.Mpint.Bytes
import Putty.Mpint.Digits

namespace Putty.Mpint

open Putty.Lib Putty.Lib.Limbs

variable {W : Nat}

/-! ## Reading -/

/-- The loop over the characters. -/
def fromDecimalLoop (words : Nat) : List UInt8 → Limbs W → Option (Limbs W)
  | [], x => some x
  | c :: s, x =>
    let x := mpAddIntegerInto words x (c.toBitVec.signExtend 64 - 48)
    if s = [] then some x else (mpMulIntegerInto words x 10).bind (fromDecimalLoop words s)

/-- The assertion is the length guard. -/
def mpFromDecimalPl (W : Nat) (decimal : List UInt8) : Option (Limbs W) :=
  if decimal.length < sizeMax / 196 then
    let bits := 196 * decimal.length / 59
    let words := bits / W + 1
    fromDecimalLoop words decimal (List.replicate words 0)
  else none

/-! ## The residue -/

/-- The variables of the loop over the bytes. -/
structure Residue where
  lowDigit : Nat
  maxval : Nat
  mult : Nat
  deriving DecidableEq

def wrap32 (n : Nat) : Nat := n % 2 ^ 32

/-- A difference in a uint32_t. -/
def sub32 (a b : Nat) : Nat := wrap32 (a + (2 ^ 32 - wrap32 b))

def readByte (r : Residue) (byte : Nat) : Residue :=
  { lowDigit := wrap32 (r.lowDigit + r.mult * byte), maxval := wrap32 (r.maxval + r.mult * 0xFF), mult := 6 }

/-- The high half is folded into the low half. -/
def fold32 (n : Nat) : Nat := wrap32 ((n &&& 0xFFFF) + 6 * (n >>> 16))

def readWord (r : Residue) (w : BitVec W) : Residue :=
  let r := (List.range (W / 8)).foldl (fun r j => readByte r (0xFF &&& (w >>> (8 * j)).toNat)) r
  if r.maxval > 2 ^ 32 - 1 - 6 * 0xFF * (W / 8) then { r with lowDigit := fold32 r.lowDigit, maxval := fold32 r.maxval } else r

/-- The variable `low_digit` after the loops and after the reduction. -/
def reduceLow (lowDigit : Nat) : Nat :=
  let lowDigit := sub32 lowDigit (10 * ((0x19999999 * lowDigit) >>> 32))
  sub32 lowDigit (10 * (wrap32 (lowDigit + 6) >>> 4))

def lowDigit (x : Limbs W) : Nat := reduceLow (x.foldl readWord ⟨0, 0, 1⟩).lowDigit

/-! ## Writing -/

def inverseOf5 (W nw : Nat) : Limbs W :=
  let inv5 := List.replicate nw (BitVec.ofNat W ((2 ^ W - 1) / 5 * 4))
  inv5.set 0 (mpWord inv5 0 + 1)

/-- The digits below `pos`, put before what `outbuf` has; the assertion is that a residue is below 10. -/
def decimalLoop (inv5 : Limbs W) : Nat → Limbs W → List UInt8 → Option (List UInt8)
  | 0, _, outbuf => some outbuf
  | pos + 1, x, outbuf =>
    let digit := lowDigit x
    if digit < 10 then
      let nw := x.length
      let x := mpSubIntegerInto nw x (BitVec.ofNat 64 digit)
      let y := mpRshiftFixedInto nw x 1
      (mpMulInto nw y inv5).bind fun x => decimalLoop inv5 pos x (UInt8.ofNat (48 + digit) :: outbuf)
    else none

/-- The string that is returned. -/
def mpGetDecimal (x : Limbs W) : Option (List UInt8) :=
  if x.length < (sizeMax - 1) / (146 * W) then
    let bufsize := max (x.length * (146 * W) / 485) 1 + 2
    (decimalLoop (inverseOf5 W x.length) (bufsize - 1) x [0]).map fun outbuf => cString (trimLeadingZeroes outbuf (bufsize - 2))
  else none

def decimalChar (d : Nat) : UInt8 := UInt8.ofNat (48 + d)

theorem decimalChar_zero {d : Nat} (h : d < 10) : decimalChar d ≠ 0 ∧ (decimalChar d = 48 ↔ d = 0) := by
  have hall : ∀ e < 10, decimalChar e ≠ 0 ∧ (decimalChar e = 48 ↔ e = 0) := by decide
  exact hall d h

/-! ## What is read -/

/-- The room that the code makes for so many digits. -/
theorem decimal_room (hW : 0 < W) (len : Nat) : 10 ^ len ≤ (2 ^ W) ^ (196 * len / 59 / W + 1) := by
  have hbits := Nat.lt_mul_div_succ (196 * len / 59) hW
  have hlen := Nat.lt_mul_div_succ (196 * len) (show 0 < 59 by decide)
  apply (Nat.pow_le_pow_iff_left (show 59 ≠ 0 by decide)).mp
  calc (10 ^ len) ^ 59 = (10 ^ 59) ^ len := by rw [← Nat.pow_mul, ← Nat.pow_mul, Nat.mul_comm]
    _ ≤ (2 ^ 196) ^ len := Nat.pow_le_pow_left (by norm_num) len
    _ = 2 ^ (196 * len) := (Nat.pow_mul 2 196 len).symm
    _ ≤ 2 ^ (W * (196 * len / 59 / W + 1) * 59) := Nat.pow_le_pow_right (by decide) (by omega)
    _ = ((2 ^ W) ^ (196 * len / 59 / W + 1)) ^ 59 := by rw [Nat.pow_mul, Nat.pow_mul]

theorem val_addDigit (h : Supported W) {words d : Nat} (hd : d < 10) {x : Limbs W} (hfit : val x + d < (2 ^ W) ^ words) :
    (mpAddIntegerInto words x ((decimalChar d).toBitVec.signExtend 64 - 48)).length = words ∧
      val (mpAddIntegerInto words x ((decimalChar d).toBitVec.signExtend 64 - 48)) = val x + d := by
  have hchar : ∀ e < 10, ((decimalChar e).toBitVec.signExtend 64 - 48).toNat = e := by decide
  have hword : ((decimalChar d).toBitVec.signExtend 64 - 48).toNat < 2 ^ W := by
    rw [hchar d hd]
    exact Nat.lt_trans hd h.ten_lt
  rw [(integer_sums h x (.inl hword)).1, length_mpAddInto, val_mpAddInto, val_mpFromInteger h, hchar d hd, Nat.mod_eq_of_lt hfit]
  exact ⟨rfl, rfl⟩

theorem val_mulTen (h : Supported W) {words : Nat} {x : Limbs W} (hfit : val x * 10 < (2 ^ W) ^ words) :
    ∃ y, mpMulIntegerInto words x 10 = some y ∧ y.length = words ∧ val y = val x * 10 := by
  refine ⟨ofNat W words (val x * 10), mulInteger_fits h hfit, length_ofNat _ _, ?_⟩
  rw [val_ofNat, Nat.mod_eq_of_lt hfit]

theorem fromDecimalLoop_eq (h : Supported W) {words : Nat} (ds done : List Nat) (hdone : ∀ d ∈ done, d < 10) (hds : ∀ d ∈ ds, d < 10)
    (hne : ds ≠ []) (hroom : 10 ^ (done ++ ds).length ≤ (2 ^ W) ^ words) {x : Limbs W} (hx : val x = numberOf 10 done * 10) :
    ∃ y, fromDecimalLoop words (ds.map decimalChar) x = some y ∧ val y = numberOf 10 (done ++ ds) := by
  induction ds generalizing done x with
  | nil => exact absurd rfl hne
  | cons d ds ih =>
    obtain ⟨hd, hds⟩ := List.forall_mem_cons.mp hds
    have hmore : ∀ e ∈ done ++ [d], e < 10 := List.forall_mem_append.mpr ⟨hdone, List.forall_mem_singleton.mpr hd⟩
    have hlt := numberOf_lt hmore
    have hle : 10 ^ (done ++ [d]).length ≤ (2 ^ W) ^ words := by
      apply Nat.le_trans (Nat.pow_le_pow_right (by decide) _) hroom
      rw [List.length_append, List.length_append, List.length_singleton, List.length_cons]
      omega
    rw [numberOf_append] at hlt
    obtain ⟨hlen, hval⟩ := val_addDigit h hd (show val x + d < (2 ^ W) ^ words by rw [hx]; omega)
    rw [hx, ← numberOf_append] at hval
    rw [List.map_cons, fromDecimalLoop]
    by_cases hlast : ds = []
    · rw [hlast, List.map_nil, if_pos rfl]
      exact ⟨_, rfl, hval⟩
    · have hten : numberOf 10 (done ++ [d]) * 10 < (2 ^ W) ^ words := by
        have hpos := List.length_pos_iff.mpr hlast
        have hpow : 10 ^ (done ++ [d]).length * 10 ≤ (2 ^ W) ^ words := by
          rw [← Nat.pow_succ]
          apply Nat.le_trans (Nat.pow_le_pow_right (by decide) _) hroom
          rw [List.length_append, List.length_append, List.length_singleton, List.length_cons]
          omega
        rw [numberOf_append]
        omega
      obtain ⟨y, hy, -, hyval⟩ := val_mulTen h (by rw [hval]; exact hten)
      rw [if_neg fun hnil => hlast (List.map_eq_nil_iff.mp hnil), hy, Option.bind_some]
      rw [hval] at hyval
      have hrest := ih (done ++ [d]) hmore hds hlast (by rwa [List.append_assoc]) hyval
      rwa [List.append_assoc] at hrest

theorem mpFromDecimalPl_eq (h : Supported W) {ds : List Nat} (hds : ∀ d ∈ ds, d < 10) (hlen : ds.length < sizeMax / 196) :
    ∃ x, mpFromDecimalPl W (ds.map decimalChar) = some x ∧ val x = numberOf 10 ds := by
  unfold mpFromDecimalPl
  rw [List.length_map, if_pos hlen]
  dsimp only
  by_cases hne : ds = []
  · rw [hne]
    exact ⟨_, rfl, val_replicate_zero _⟩
  · have hroom := decimal_room h.pos ds.length
    exact fromDecimalLoop_eq h ds [] (List.forall_mem_nil _) hds hne hroom (val_replicate_zero _)

/-! ## What is written -/

/-- The approximate quotient is at most one too small. -/
theorem reduceLow_eq {n : Nat} (h : n < 2 ^ 32) : reduceLow n = n % 10 := by
  have hsub : ∀ a b, b ≤ a → a < 2 ^ 32 → sub32 a b = a - b := by
    intro a b hle hlt
    unfold sub32 wrap32
    omega
  have hq : 10 * (0x19999999 * n / 2 ^ 32) ≤ n ∧ n < 10 * (0x19999999 * n / 2 ^ 32) + 16 := by omega
  unfold reduceLow
  dsimp only
  rw [Nat.shiftRight_eq_div_pow, Nat.shiftRight_eq_div_pow, hsub _ _ hq.1 h]
  generalize 0x19999999 * n / 2 ^ 32 = q at hq ⊢
  rw [show wrap32 (n - 10 * q + 6) = n - 10 * q + 6 by unfold wrap32; omega, hsub _ _ (by omega) (by omega)]
  omega

theorem val_inverseOf5 (h : Supported W) {nw : Nat} (hnw : 0 < nw) : val (inverseOf5 W nw) * 5 = 4 * (2 ^ W) ^ nw + 1 := by
  have hword : (BitVec.ofNat W ((2 ^ W - 1) / 5 * 4)).toNat * 5 + 4 = 4 * 2 ^ W ∧
      (BitVec.ofNat W ((2 ^ W - 1) / 5 * 4) + 1).toNat = (BitVec.ofNat W ((2 ^ W - 1) / 5 * 4)).toNat + 1 := by
    obtain rfl | rfl | rfl := h
    · decide
    · decide
    · decide
  unfold inverseOf5 mpWord
  dsimp only
  generalize BitVec.ofNat W ((2 ^ W - 1) / 5 * 4) = w at hword ⊢
  have hall : ∀ n, val (List.replicate n w) * 5 + 4 = 4 * (2 ^ W) ^ n := by
    intro n
    induction n with
    | zero => rfl
    | succ n ih =>
      rw [List.replicate_succ, val_cons, Nat.pow_succ']
      linarith [congrArg (2 ^ W * ·) ih, hword.1]
  have hset := val_set (show 0 < (List.replicate nw w).length by rwa [List.length_replicate]) (w + 1)
  have hhead : (List.replicate nw w).getD 0 0 = w := by
    rw [List.getD_eq_getElem _ _ (by rwa [List.length_replicate]), List.getElem_replicate]
  rw [hhead, hword.2, Nat.pow_zero, Nat.one_mul, Nat.one_mul] at hset
  rw [hhead]
  have := hall nw
  omega

/-- What is left after a digit that is right. -/
theorem divide_by_ten (h : Supported W) {x : Limbs W} (hx : x ≠ []) :
    ∃ y, mpMulInto x.length (mpRshiftFixedInto x.length (mpSubIntegerInto x.length x (BitVec.ofNat 64 (val x % 10))) 1)
      (inverseOf5 W x.length) = some y ∧ y.length = x.length ∧ val y = val x / 10 := by
  have hlt := val_lt x
  have hdigit : val x % 10 < 10 := Nat.mod_lt _ (by decide)
  have hbase := h.ten_lt
  have hn : (BitVec.ofNat 64 (val x % 10)).toNat = val x % 10 := by
    rw [BitVec.toNat_ofNat]
    omega
  have hsub : val (mpSubIntegerInto x.length x (BitVec.ofNat 64 (val x % 10))) = val x / 10 * 10 := by
    rw [(integer_sums h x (.inl (by rw [hn]; omega))).2, val_mpSubInto (by rw [val_mpFromInteger h, hn]; exact Nat.mod_le _ _),
      val_mpFromInteger h, hn, Nat.mod_eq_of_lt (by omega)]
    omega
  refine ⟨_, mpMulInto_eq _ _ _, length_ofNat _ _, ?_⟩
  rw [val_ofNat, val_mpRshiftFixedInto h.pos, hsub]
  have hhalf : val x / 10 * 10 / 2 ^ 1 % (2 ^ W) ^ x.length = val x / 10 * 5 := by
    rw [Nat.mod_eq_of_lt (by omega)]
    omega
  rw [hhalf]
  calc val x / 10 * 5 * val (inverseOf5 W x.length) % (2 ^ W) ^ x.length
      = (val x / 10 + (2 ^ W) ^ x.length * (val x / 10 * 4)) % (2 ^ W) ^ x.length := by
        congr 1
        rw [Nat.mul_assoc, Nat.mul_comm 5, val_inverseOf5 h (List.length_pos_iff.mpr hx)]
        ring
    _ = val x / 10 := by rw [Nat.add_mul_mod_self_left, Nat.mod_eq_of_lt (by omega)]

theorem decimalLoop_eq (h : Supported W) {nw : Nat} (hnw : 0 < nw) (hres : ∀ y : Limbs W, y.length = nw → lowDigit y = val y % 10) (pos : Nat)
    {x : Limbs W} (hx : x.length = nw) (outbuf : List UInt8) :
    decimalLoop (inverseOf5 W nw) pos x outbuf = some ((fixedDigits 10 pos (val x)).map decimalChar ++ outbuf) := by
  induction pos generalizing x outbuf with
  | zero => rfl
  | succ pos ih =>
    obtain ⟨y, hy, hlen, hval⟩ := divide_by_ten h (x := x) (List.length_pos_iff.mp (by rwa [hx]))
    rw [hx] at hy hlen
    rw [decimalLoop]
    dsimp only
    rw [hres x hx, if_pos (Nat.mod_lt _ (by decide)), hx, hy, Option.bind_some, ih hlen, hval, fixedDigits, List.map_append,
      List.append_assoc]
    rfl

/-- The room that the code makes for the digits of so many words. -/
theorem digits_room (W nw : Nat) : (2 ^ W) ^ nw ≤ 10 ^ (max (nw * (146 * W) / 485) 1 + 1) := by
  have hlen := Nat.lt_mul_div_succ (nw * (146 * W)) (show 0 < 485 by decide)
  have hexp : nw * (146 * W) ≤ (max (nw * (146 * W) / 485) 1 + 1) * 485 := by omega
  apply (Nat.pow_le_pow_iff_left (show 485 ≠ 0 by decide)).mp
  calc ((2 ^ W) ^ nw) ^ 485 = ((2 ^ 97) ^ 5) ^ (W * nw) := by
        rw [← Nat.pow_mul 2 W nw, ← Nat.pow_mul, ← Nat.pow_mul, ← Nat.pow_mul]
        congr 1
        ring
    _ ≤ (10 ^ 146) ^ (W * nw) := Nat.pow_le_pow_left (by norm_num) _
    _ = 10 ^ (nw * (146 * W)) := by
        rw [← Nat.pow_mul]
        congr 1
        ring
    _ ≤ 10 ^ ((max (nw * (146 * W) / 485) 1 + 1) * 485) := Nat.pow_le_pow_right (by decide) hexp
    _ = (10 ^ (max (nw * (146 * W) / 485) 1 + 1)) ^ 485 := Nat.pow_mul 10 _ _

theorem mpGetDecimal_eq (h : Supported W) {x : Limbs W} (hx : x ≠ []) (hlen : x.length < (sizeMax - 1) / (146 * W))
    (hres : ∀ y : Limbs W, y.length = x.length → lowDigit y = val y % 10) :
    mpGetDecimal x = some ((numeral 10 (val x)).map decimalChar) := by
  have hchars := fun d hd => decimalChar_zero (@fixedDigits_lt 10 (by decide) (max (x.length * (146 * W) / 485) 1 + 1) (val x) d hd)
  have hloop := decimalLoop_eq h (List.length_pos_iff.mpr hx) hres (max (x.length * (146 * W) / 485) 1 + 1) rfl [0]
  have htrim := @trimmed_string ((fixedDigits 10 (max (x.length * (146 * W) / 485) 1 + 1) (val x)).map decimalChar) (by
    intro hnil
    have hcount := congrArg List.length hnil
    rw [List.length_map, length_fixedDigits, List.length_nil] at hcount
    omega) (by
    intro c hc
    obtain ⟨d, hd, rfl⟩ := List.mem_map.mp hc
    exact (hchars d hd).1)
  unfold mpGetDecimal
  rw [List.length_map, length_fixedDigits, Nat.add_sub_cancel] at htrim
  rw [if_pos hlen]
  dsimp only
  rw [Nat.add_sub_cancel, show max (x.length * (146 * W) / 485) 1 + 2 - 1 = max (x.length * (146 * W) / 485) 1 + 1 by omega, hloop,
    Option.map_some, htrim, stripZeros_map fun d hd => (hchars d hd).2,
    stripZeros_fixedDigits (by decide) (Nat.le_add_left 1 _) (Nat.lt_of_lt_of_le (val_lt x) (digits_room W x.length))]

theorem decimalLoop_some {inv5 : Limbs W} {pos : Nat} {x : Limbs W} {outbuf out : List UInt8} (h : decimalLoop inv5 pos x outbuf = some out) :
    ∃ ds : List Nat, ds.length = pos ∧ (∀ d ∈ ds, d < 10) ∧ out = ds.map decimalChar ++ outbuf := by
  induction pos generalizing x outbuf with
  | zero =>
    cases h
    exact ⟨[], rfl, List.forall_mem_nil _, rfl⟩
  | succ pos ih =>
    rw [decimalLoop] at h
    dsimp only at h
    by_cases hdigit : lowDigit x < 10
    · rw [if_pos hdigit, mpMulInto_eq, Option.bind_some] at h
      obtain ⟨ds, hlen, hds, hout⟩ := ih h
      refine ⟨ds ++ [lowDigit x], ?_, List.forall_mem_append.mpr ⟨hds, List.forall_mem_singleton.mpr hdigit⟩, ?_⟩
      · rw [List.length_append, hlen, List.length_singleton]
      · rw [hout, List.map_append, List.append_assoc]
        rfl
    · rw [if_neg hdigit] at h
      cases h

theorem mpGetDecimal_last {x : Limbs W} {s : List UInt8} (h : mpGetDecimal x = some s) :
    lowDigit x < 10 ∧ s.getLast? = some (decimalChar (lowDigit x)) := by
  unfold mpGetDecimal at h
  by_cases hlen : x.length < (sizeMax - 1) / (146 * W)
  · rw [if_pos hlen] at h
    dsimp only at h
    obtain ⟨out, hloop, hs⟩ := Option.map_eq_some_iff.mp h
    generalize max (x.length * (146 * W) / 485) 1 = n at hloop hs
    rw [Nat.add_sub_cancel] at hs
    rw [show n + 2 - 1 = n + 1 by omega, decimalLoop] at hloop
    dsimp only at hloop
    by_cases hdigit : lowDigit x < 10
    · rw [if_pos hdigit, mpMulInto_eq, Option.bind_some] at hloop
      obtain ⟨ds, hcount, hds, hout⟩ := decimalLoop_some hloop
      have hout' : out = (ds ++ [lowDigit x]).map decimalChar ++ [0] := by
        rw [hout, List.map_append, List.append_assoc]
        rfl
      have htrim := @trimmed_string ((ds ++ [lowDigit x]).map decimalChar) (by simp) (by
        intro c hc
        obtain ⟨d, hd, rfl⟩ := List.mem_map.mp hc
        apply (decimalChar_zero _).1
        rcases List.mem_append.mp hd with hd | hd
        · exact hds d hd
        · rwa [List.mem_singleton.mp hd])
      rw [List.length_map, List.length_append, hcount, List.length_singleton, Nat.add_sub_cancel, ← hout', hs, List.map_append,
        List.map_singleton] at htrim
      rw [htrim, getLast?_stripZeros]
      exact ⟨hdigit, rfl⟩
    · rw [if_neg hdigit] at hloop
      cases hloop
  · rw [if_neg hlen] at h
    cases h

end Putty.Mpint
