/-
  Putty.Rsa.Ssh1 — RSA encryption as SSH-1 has it (`sshrsa.c`, rsa_ssh1_encrypt and
  rsa_ssh1_decrypt_pkcs1).

  The padding bytes are the digits of one random fraction: it is multiplied by 255 again and
  again, and what comes out above its bits is the next digit. A number below 2^n times 255 has
  at most 254 above the n bits, so the assertion on the digit holds (`padding_spec`), and
  cutting the digit off leaves a number below 2^n again.

  Proved (`ssh1_round_trip`): a message that leaves room for four more bytes is padded with
  bytes that are not zero, the block is below the modulus, and decryption gives the message.
-/

import Mathlib.Tactic.NormNum.Prime
import Putty.Rsa.Key

namespace Putty.Rsa

open Putty.Lib
open Putty.Lib.Limbs
open Putty.Mpint

variable {W : Nat}

/-- mp_reduce_mod_2to. -/
def mpReduceMod2to (x : Limbs W) (p : Nat) : Limbs W :=
  match x.drop (p / W) with
  | [] => x
  | w :: ws => x.take (p / W) ++ (w &&& BitVec.ofNat W (2 ^ (p % W) - 1)) :: ws.map fun w => w &&& 0

/-- Where random bytes come from. -/
structure RandomSource where
  read : Nat → List UInt8
  length_read : ∀ n, (read n).length = n

/-- mp_random_bits. -/
def mpRandomBits (W : Nat) (random : RandomSource) (bits : Nat) : Limbs W :=
  let randbuf := random.read ((bits + 7) / 8)
  mpFromBytesBe W (randbuf.modifyHead fun b => b &&& UInt8.ofNat ((2 <<< ((bits - 1) &&& 7)) - 1))

/-- The loop over the padding bytes. -/
def paddingLoop (randomBits : Nat) : Nat → Limbs W → Option (List UInt8)
  | 0, _ => some []
  | npad + 1, randval => do
    let randval ← mpMulIntegerInto randval.length randval 255
    let byte := mpGetByte randval (randomBits / 8)
    if byte = 255 then none
    else
      let rest ← paddingLoop randomBits npad (mpReduceMod2to randval randomBits)
      some ((byte + 1) :: rest)

def padding (W : Nat) (random : RandomSource) (npad : Nat) : Option (List UInt8) :=
  let randomBits := (npad + 16) * 8
  let tmp := mpRandomBits W random randomBits
  paddingLoop randomBits npad (mpCopyInto ((randomBits + 8 + W - 1) / W) tmp)

section Operations

variable (m : Modular W) (random : RandomSource)

/-- What is encrypted for a message: its block. -/
def ssh1Block (W : Nat) (random : RandomSource) (bytes : Nat) (data : List UInt8) : Option (List UInt8) :=
  (padding W random (bytes - data.length - 3)).map fun pad => 0 :: 2 :: pad ++ 0 :: data

/-- rsa_ssh1_encrypt; `some none` when the key is too short. -/
def rsaSsh1Encrypt (data : List UInt8) (key : RSAKey W) : Option (Option (List UInt8)) :=
  if key.bytes < data.length + 4 then some none
  else do
    let block ← ssh1Block W random key.bytes data
    let b2 ← m.modpow (mpFromBytesBe W block) key.exponent key.modulus
    some (some (putBytes b2 key.bytes))

/-- The check of the block: what follows the first zero byte behind 0 and 2. Reading past
    the end gives zero bytes and an error. -/
def unpad (data : List UInt8) : Option (List UInt8) :=
  match data with
  | 0 :: 2 :: data =>
    match data.dropWhile (· ≠ 0) with
    | [] => none
    | _ :: payload => some payload
  | _ => none

/-- rsa_ssh1_decrypt_pkcs1; `some none` for a block of another form. -/
def rsaSsh1DecryptPkcs1 (input : Limbs W) (key : RSAKey W) : Option (Option (List UInt8)) :=
  (rsaPrivkeyOp m input key).map fun b => unpad (putBytes b ((mpGetNbits key.modulus + 7) / 8))

end Operations

/-! ## Cutting off the high bits -/

theorem val_mpReduceMod2to (hW : 0 < W) (x : Limbs W) (p : Nat) : val (mpReduceMod2to x p) = val x % 2 ^ p := by
  have hp : 2 ^ p = (2 ^ W) ^ (p / W) * 2 ^ (p % W) := by rw [← pow_mul, ← Nat.pow_add, Nat.div_add_mod]
  unfold mpReduceMod2to
  split
  · next hnil =>
    have hlen : x.length ≤ p / W := List.drop_eq_nil_iff.mp hnil
    refine (Nat.mod_eq_of_lt ?_).symm
    calc val x < (2 ^ W) ^ x.length := val_lt x
      _ ≤ (2 ^ W) ^ (p / W) := Nat.pow_le_pow_right (Nat.two_pow_pos W) hlen
      _ ≤ 2 ^ p := by rw [hp]; exact Nat.le_mul_of_pos_right _ (Nat.two_pow_pos _)
  · next w ws hcons =>
    have hlt : p / W < x.length := by
      by_contra hge
      rw [List.drop_eq_nil_iff.mpr (by omega)] at hcons
      cases hcons
    have hlen : (x.take (p / W)).length = p / W := by
      rw [List.length_take]
      omega
    have hzero : val (ws.map fun w => w &&& 0) = 0 := by
      rw [show (fun w : BitVec W => w &&& 0) = fun _ => 0 by funext w; simp, List.map_const', val_replicate_zero]
    have hdrop : val x / (2 ^ W) ^ (p / W) = w.toNat + 2 ^ W * val ws := by rw [← val_drop, hcons, val_cons]
    have hmask : (w &&& BitVec.ofNat W (2 ^ (p % W) - 1)).toNat = w.toNat % 2 ^ (p % W) := by
      have hsmall : 2 ^ (p % W) - 1 < 2 ^ W :=
        lt_of_lt_of_le (Nat.sub_lt (Nat.two_pow_pos _) one_pos) (Nat.pow_le_pow_right (by decide) (Nat.mod_lt p hW).le)
      rw [BitVec.toNat_and, BitVec.toNat_ofNat, Nat.mod_eq_of_lt hsmall, Nat.and_two_pow_sub_one_eq_mod]
    have hword : (w.toNat + 2 ^ W * val ws) % 2 ^ (p % W) = w.toNat % 2 ^ (p % W) := by
      obtain ⟨k, hk⟩ := Nat.pow_dvd_pow 2 (Nat.mod_lt p hW).le
      rw [hk, Nat.mul_assoc, Nat.add_mul_mod_self_left]
    rw [val_append, hlen, val_take, val_cons, hzero, hmask, hp, Nat.mod_mul, hdrop, hword]
    ring

theorem length_mpReduceMod2to (x : Limbs W) (p : Nat) : (mpReduceMod2to x p).length = x.length := by
  unfold mpReduceMod2to
  split
  · rfl
  · next w ws hcons =>
    have hlen := congrArg List.length hcons
    rw [List.length_drop, List.length_cons] at hlen
    rw [List.length_append, List.length_take, List.length_cons, List.length_map]
    omega

/-! ## Padding -/

/-- The digit is at most 254, and what is left is below the bits again. -/
theorem paddingLoop_spec (h : Supported W) {n : Nat} (npad : Nat) : ∀ {randval : Limbs W}, val randval < 256 ^ n →
    256 ^ (n + 1) ≤ (2 ^ W) ^ randval.length →
    ∃ pad, paddingLoop (n * 8) npad randval = some pad ∧ pad.length = npad ∧ ∀ c ∈ pad, c ≠ 0 := by
  induction npad with
  | zero => exact fun _ _ => ⟨[], rfl, rfl, by simp⟩
  | succ npad ih =>
    intro randval hval hwidth
    have hfit : val randval * (255 : BitVec 16).toNat < (2 ^ W) ^ randval.length := by
      rw [Nat.pow_succ] at hwidth
      show val randval * 255 < _
      omega
    have hmul := mulInteger_fits h hfit
    generalize hprod : ofNat W randval.length (val randval * (255 : BitVec 16).toNat) = product at hmul
    have hv : val product = val randval * 255 := by rw [← hprod, val_ofNat_lt hfit]; rfl
    have hplen : product.length = randval.length := by rw [← hprod, length_ofNat]
    have hbits : 2 ^ (n * 8) = 256 ^ n := by rw [Nat.mul_comm, show 256 = 2 ^ 8 from rfl, pow_mul]
    have hbyte : (mpGetByte product (n * 8 / 8)).toNat < 255 := by
      rw [Nat.mul_div_cancel _ (by decide), mpGetByte_eq h, Utils.mpGetByte_toNat, hv]
      refine lt_of_le_of_lt (Nat.mod_le _ _) (Nat.div_lt_of_lt_mul ?_)
      exact Nat.mul_lt_mul_of_pos_right hval (by decide)
    have hrest : val (mpReduceMod2to product (n * 8)) < 256 ^ n := by
      rw [val_mpReduceMod2to h.pos, hbits]
      exact Nat.mod_lt _ (Nat.pow_pos (by decide))
    obtain ⟨pad, hpad, hlen, hne⟩ := ih hrest (by rwa [length_mpReduceMod2to, hplen])
    have hdigit : mpGetByte product (n * 8 / 8) ≠ 255 := fun he => by
      rw [he] at hbyte
      exact absurd hbyte (by decide)
    refine ⟨(mpGetByte product (n * 8 / 8) + 1) :: pad, ?_, by rw [List.length_cons, hlen], ?_⟩
    · rw [paddingLoop, hmul]
      simp only [Option.bind_eq_bind, Option.bind_some, if_neg hdigit, hpad]
    · intro c hc
      rcases List.mem_cons.mp hc with rfl | hc
      · intro he
        have hzero := congrArg UInt8.toNat he
        rw [UInt8.toNat_add] at hzero
        change ((mpGetByte product (n * 8 / 8)).toNat + 1) % 256 = 0 at hzero
        omega
      · exact hne c hc

theorem padding_spec (h : Supported W) (random : RandomSource) (npad : Nat) :
    ∃ pad, padding W random npad = some pad ∧ pad.length = npad ∧ ∀ c ∈ pad, c ≠ 0 := by
  have hlen : (random.read (npad + 16)).length = npad + 16 := random.length_read _
  have hdiv : ((npad + 16) * 8 + 7) / 8 = npad + 16 := by omega
  have hval : val (mpRandomBits W random ((npad + 16) * 8)) < 256 ^ (npad + 16) := by
    unfold mpRandomBits
    rw [(mpFromBytesBe_spec h _).2, hdiv]
    refine lt_of_lt_of_le (Utils.mpFromBytesBe_lt _) ?_
    rw [List.length_modifyHead, hlen]
  have hwidth : 256 ^ (npad + 16 + 1) ≤ (2 ^ W) ^ (((npad + 16) * 8 + 8 + W - 1) / W) := by
    rw [← pow_mul, show 256 = 2 ^ 8 from rfl, ← pow_mul]
    refine Nat.pow_le_pow_right (by decide) ?_
    have hmod := Nat.mod_add_div ((npad + 16) * 8 + 8 + W - 1) W
    have hlt := Nat.mod_lt ((npad + 16) * 8 + 8 + W - 1) h.pos
    omega
  have hcopy : val (mpCopyInto (((npad + 16) * 8 + 8 + W - 1) / W) (mpRandomBits W random ((npad + 16) * 8))) < 256 ^ (npad + 16) := by
    rw [val_mpCopyInto]
    exact lt_of_le_of_lt (Nat.mod_le _ _) hval
  exact paddingLoop_spec h npad hcopy (by rwa [length_mpCopyInto])

/-! ## The round trip -/

theorem unpad_block {pad data : List UInt8} (hpad : ∀ c ∈ pad, c ≠ 0) : unpad (0 :: 2 :: pad ++ 0 :: data) = some data := by
  show (match (pad ++ 0 :: data).dropWhile (· ≠ 0) with
    | [] => none
    | _ :: payload => some payload) = some data
  rw [List.dropWhile_append_of_pos fun c hc => by simpa using hpad c hc, List.dropWhile_cons_of_neg (by simp)]

/-- Every message that fits is padded with bytes that are not zero, the block is below the
    modulus, and decryption gives the message. -/
theorem ssh1_round_trip (m : Modular W) (h : Supported W) {key : RSAKey W} (hkey : KeyPair key)
    (hbytes : key.bytes = (mpGetNbits key.modulus + 7) / 8) (random : RandomSource) {data : List UInt8}
    (hdata : data.length + 4 ≤ key.bytes) :
    ∃ pad out, ssh1Block W random key.bytes data = some (0 :: 2 :: pad ++ 0 :: data) ∧
      pad.length = key.bytes - data.length - 3 ∧ (∀ c ∈ pad, c ≠ 0) ∧
      val (mpFromBytesBe W (0 :: 2 :: pad ++ 0 :: data)) < val key.modulus ∧
      rsaSsh1Encrypt m random data key = some (some out) ∧ out.length = key.bytes ∧
      ∀ input : Limbs W, val input = Utils.mpFromBytesBe out → rsaSsh1DecryptPkcs1 m input key = some (some data) := by
  obtain ⟨pad, hpad, hlen, hne⟩ := padding_spec h random (key.bytes - data.length - 3)
  have hblock : ssh1Block W random key.bytes data = some (0 :: 2 :: pad ++ 0 :: data) := by rw [ssh1Block, hpad]; rfl
  have hblen : (0 :: (2 :: pad ++ 0 :: data)).length = key.bytes := by
    simp only [List.length_cons, List.length_append, hlen]
    omega
  obtain ⟨hlt, b2, hb2, hback⟩ := block_round_trip (m := m) h hkey hbytes hblen
  have hb2' : m.modpow (mpFromBytesBe W (0 :: 2 :: pad ++ 0 :: data)) key.exponent key.modulus = some b2 := hb2
  refine ⟨pad, putBytes b2 key.bytes, hblock, hlen, hne, hlt, ?_, length_putBytes _ _, ?_⟩
  · rw [rsaSsh1Encrypt, if_neg (by omega), hblock]
    simp only [Option.bind_eq_bind, Option.bind_some, hb2']
  · intro input hinput
    obtain ⟨r, hr, hblock'⟩ := hback input hinput
    rw [rsaSsh1DecryptPkcs1, hr, Option.map_some, ← hbytes, hblock']
    exact congrArg some (unpad_block hne)

/-- The primes 1048583 and 65537. -/
def key40 : RSAKey 64 := ⟨37, 5, [68720984071], [3], [11453311659], [1048583], [65537], [116511], none⟩

theorem key40_pair : KeyPair key40 where
  pPrime := by
    rw [show val key40.p = 1048583 by decide]
    norm_num
  qPrime := by
    rw [show val key40.q = 65537 by decide]
    norm_num
  pOdd := by decide
  qOdd := by decide
  lt := by decide
  width := by decide
  modulus := by decide
  invertP := by decide
  invertQ := by decide
  iqmp := by decide

/-- One letter with a random source of zeros. -/
theorem letter_round_trip :
    ∃ pad out, ssh1Block 64 ⟨fun n => List.replicate n 0, by simp⟩ key40.bytes [65] = some (0 :: 2 :: pad ++ 0 :: [65]) ∧
      pad.length = key40.bytes - [(65 : UInt8)].length - 3 ∧ (∀ c ∈ pad, c ≠ 0) ∧
      val (mpFromBytesBe 64 (0 :: 2 :: pad ++ 0 :: [65])) < val key40.modulus ∧
      rsaSsh1Encrypt (numbers 64) ⟨fun n => List.replicate n 0, by simp⟩ [65] key40 = some (some out) ∧ out.length = key40.bytes ∧
      ∀ input : Limbs 64, val input = Utils.mpFromBytesBe out → rsaSsh1DecryptPkcs1 (numbers 64) input key40 = some (some [65]) :=
  ssh1_round_trip (numbers 64) (Or.inr (Or.inr rfl)) key40_pair (by decide +kernel) _ (by decide)

end Putty.Rsa
