/-
  Putty.Utils.Mpint — the numbers of the SSH-1 messages (`mpint.c`, get_mp_ssh1 and
  put_mp_ssh1), and the arithmetic of `mpint.c` that may fail an assertion.

  An mp_int is a natural number; its width is left out.
-/

import Mathlib.Data.List.GetD
import Mathlib.Data.List.Induction
import Mathlib.Tactic.Linarith
import Putty.Utils.BinarySink

namespace Putty.Utils

/-- mp_get_nbits. -/
def mpGetNbits (x : Nat) : Nat := if x = 0 then 0 else Nat.log2 x + 1

def mpGetByte (x i : Nat) : UInt8 := UInt8.ofNat (x / 256 ^ i)

def mpFromBytesBe (bytes : List UInt8) : Nat := bytes.foldl (fun n b => n * 256 + b.toNat) 0

/-- mp_mod: the divisor is not zero. -/
def mpMod (n d : Nat) : Option Nat := if d = 0 then none else some (n % d)

/-- mp_modmul. -/
def mpModmul (x y modulus : Nat) : Option Nat := mpMod (x * y) modulus

/-- mp_modpow: the modulus is odd. -/
def mpModpow (base exponent modulus : Nat) : Option Nat :=
  if modulus % 2 = 1 then some (base ^ exponent % modulus) else none

/-- PUT_16BIT_MSB_FIRST. -/
def put16BitMsbFirst (n : Nat) : List UInt8 := [UInt8.ofNat (n / 256), UInt8.ofNat n]

def putMpSsh1 (x : Nat) : Option (List UInt8) :=
  let bits := mpGetNbits x
  if bits < 0x10000 then some (put16BitMsbFirst bits ++ (List.range ((bits + 7) / 8)).reverse.map (mpGetByte x)) else none

/-! ## Bytes and bits of a number -/

theorem mpFromBytesBe_append (bytes : List UInt8) (b : UInt8) : mpFromBytesBe (bytes ++ [b]) = mpFromBytesBe bytes * 256 + b.toNat := by
  unfold mpFromBytesBe
  rw [List.foldl_append]
  rfl

theorem mpFromBytesBe_lt (bytes : List UInt8) : mpFromBytesBe bytes < 256 ^ bytes.length := by
  induction bytes using List.reverseRecOn with
  | nil => decide
  | append_singleton bytes b ih =>
    have hb := b.toNat_lt
    rw [mpFromBytesBe_append, List.length_append, List.length_singleton, Nat.pow_succ]
    omega

/-- Byte `i` from the end. -/
theorem mpFromBytesBe_digit {bytes : List UInt8} {i : Nat} (h : i < bytes.length) :
    (bytes.getD (bytes.length - 1 - i) 0).toNat = mpFromBytesBe bytes / 256 ^ i % 256 := by
  induction bytes using List.reverseRecOn generalizing i with
  | nil => exact absurd h (Nat.not_lt_zero i)
  | append_singleton bytes b ih =>
    have hb := b.toNat_lt
    rw [List.length_append, List.length_singleton] at h
    rw [mpFromBytesBe_append, List.length_append, List.length_singleton, Nat.add_sub_cancel]
    cases i with
    | zero =>
      rw [Nat.sub_zero, List.getD_append_right _ _ _ _ (Nat.le_refl _), Nat.sub_self, Nat.pow_zero, Nat.div_one]
      show b.toNat = _
      omega
    | succ i =>
      rw [List.getD_append _ _ _ _ (by omega), show bytes.length - (i + 1) = bytes.length - 1 - i by omega, ih (by omega), Nat.pow_succ',
        ← Nat.div_div_eq_div_mul, Nat.mul_comm, Nat.mul_add_div (by decide), Nat.div_eq_of_lt hb, Nat.add_zero]

theorem mpGetByte_toNat (x i : Nat) : (mpGetByte x i).toNat = x / 256 ^ i % 256 := UInt8.toNat_ofNat'

/-- The bytes of a number that was read are those it was read from. -/
theorem bytes_mpFromBytesBe (bytes : List UInt8) :
    (List.range bytes.length).reverse.map (mpGetByte (mpFromBytesBe bytes)) = bytes := by
  apply List.ext_getElem
  · rw [List.length_map, List.length_reverse, List.length_range]
  · intro i h1 h2
    have hdigit := mpFromBytesBe_digit (show bytes.length - 1 - i < bytes.length by omega)
    rw [List.getElem_map, List.getElem_reverse, List.getElem_range]
    apply UInt8.toNat.inj
    rw [mpGetByte_toNat, List.length_range, ← hdigit, show bytes.length - 1 - (bytes.length - 1 - i) = i by omega,
      List.getD_eq_getElem _ _ h2]

/-- So many bytes hold a number, and reading them gives it. -/
theorem mpFromBytesBe_bytes {x n : Nat} (h : x < 256 ^ n) : mpFromBytesBe ((List.range n).reverse.map (mpGetByte x)) = x := by
  induction n generalizing x with
  | zero =>
    rw [Nat.pow_zero] at h
    rw [Nat.lt_one_iff.mp h]
    rfl
  | succ n ih =>
    have hdiv : x / 256 < 256 ^ n := by
      rw [Nat.pow_succ] at h
      omega
    have hshift : (List.range n).reverse.map (mpGetByte x ∘ Nat.succ) = (List.range n).reverse.map (mpGetByte (x / 256)) := by
      apply List.map_congr_left
      intro i _
      apply UInt8.toNat.inj
      show (mpGetByte x (i + 1)).toNat = _
      rw [mpGetByte_toNat, mpGetByte_toNat, Nat.pow_succ', Nat.div_div_eq_div_mul]
    rw [List.range_succ_eq_map, List.reverse_cons, List.map_append, ← List.map_reverse, List.map_map, hshift, List.map_singleton,
      mpFromBytesBe_append, ih hdiv, mpGetByte_toNat, Nat.pow_zero, Nat.div_one]
    omega

theorem mpGetNbits_zero : mpGetNbits 0 = 0 := rfl

/-- The number of bits is the least exponent. -/
theorem mpGetNbits_le_iff (x n : Nat) : mpGetNbits x ≤ n ↔ x < 2 ^ n := by
  unfold mpGetNbits
  by_cases h : x = 0
  · rw [if_pos h, h]
    have := Nat.two_pow_pos n
    omega
  · rw [if_neg h, ← Nat.log2_lt h]
    omega

theorem lt_two_pow_mpGetNbits (x : Nat) : x < 2 ^ mpGetNbits x := (mpGetNbits_le_iff x _).mp (Nat.le_refl _)

theorem two_pow_le_of_lt_mpGetNbits {x n : Nat} (h : n < mpGetNbits x) : 2 ^ n ≤ x := by
  by_contra hlt
  have := (mpGetNbits_le_iff x n).mpr (by omega)
  omega

namespace BinarySource

def getMpSsh1 (src : BinarySource) : Nat × BinarySource :=
  let (bitc, src) := src.getUint16
  let (bytes, src) := src.getData ((bitc + 7) / 8)
  if src.err then (0, src)
  else if bitc < mpGetNbits (mpFromBytesBe bytes) then (0, { src with err := true })
  else (mpFromBytesBe bytes, src)

theorem getUint16_lt (src : BinarySource) : src.getUint16.1 < 0x10000 := by
  unfold getUint16
  rcases h : src.consume 2 with ⟨_ | b, src'⟩
  · show (0 : Nat) < _
    decide
  · have hlen := @consume_length src 2 b (by rw [h])
    match b, hlen with
    | [x, y], _ =>
      have hx := x.toNat_lt
      have hy := y.toNat_lt
      show (0 * 256 + x.toNat) * 256 + y.toNat < _
      omega

/-- A number that was read has a length that can be written. -/
theorem getMpSsh1_small (src : BinarySource) : mpGetNbits src.getMpSsh1.1 < 0x10000 := by
  have h16 := getUint16_lt src
  unfold getMpSsh1
  dsimp only
  split
  · show mpGetNbits 0 < _
    decide
  · split
    · show mpGetNbits 0 < _
      decide
    · next hle => exact Nat.lt_of_le_of_lt (Nat.le_of_not_lt hle) h16

end BinarySource

end Putty.Utils
