/-
  Putty.Rsa.Oaep — OAEP as the RSA key exchange uses it (`sshrsa.c`, oaep_mask,
  ssh_rsakex_encrypt and ssh_rsakex_decrypt).

  A block is a zero byte, a seed, and a data block of the label's hash, zero bytes, a one
  and the message; the data block is masked with the seed, then the seed with the masked
  data block. `none` is a failed assertion, or an access outside the block (where the room
  for a message is negative, the assertion lets it through and the block is overrun).

  The loop that is to skip the zero bytes compares with 1 where it should compare with 0, so
  it takes none: a message comes back only if it is so long that there are none, and if it
  is not 0, which is written in a form that is not read (`oaep_iff`). Whatever is accepted
  is the encoding of the number that is returned. A modulus of at least twice the hash's
  bytes and one more is what keeps the reads inside the block.
-/

import Mathlib.NumberTheory.LucasLehmer
import Putty.Rsa.Key

namespace Putty.Rsa

open Putty.Lib
open Putty.Lib.Limbs
open Putty.Mpint
open Putty.Utils (BinarySource put32BitMsbFirst)

variable {W : Nat}

/-- MAX_HASH_LEN. -/
def maxHashLen : Nat := 64

structure HashAlg where
  hlen : Nat
  hash : List UInt8 → List UInt8
  length_hash : ∀ data, (hash data).length = hlen
  hlen_pos : 0 < hlen
  hlen_le : hlen ≤ maxHashLen

/-- The loop of oaep_mask; each pass takes a byte at least. -/
def oaepMaskLoop (h : HashAlg) (seed : List UInt8) : Nat → UInt32 → List UInt8 → List UInt8
  | 0, _, data => data
  | fuel + 1, count, data =>
    if data.length > 0 then
      let max := if data.length > h.hlen then h.hlen else data.length
      let hash := h.hash (seed ++ put32BitMsbFirst count.toNat)
      List.zipWith (· ^^^ ·) (data.take max) (hash.take max) ++ oaepMaskLoop h seed fuel (count + 1) (data.drop max)
    else []

def oaepMask (h : HashAlg) (seed data : List UInt8) : List UInt8 := oaepMaskLoop h seed data.length 0 data

/-- The data block for a message, in a block of `k` bytes. -/
def dataBlock (h : HashAlg) (k : Nat) (msg : List UInt8) : List UInt8 :=
  h.hash [] ++ List.replicate (k - 2 * h.hlen - 2 - msg.length) 0 ++ 1 :: msg

/-- The block that is encrypted. -/
def oaepEncode (h : HashAlg) (k : Nat) (seed msg : List UInt8) : List UInt8 :=
  let maskedDB := oaepMask h seed (dataBlock h k msg)
  0 :: oaepMask h maskedDB seed ++ maskedDB

/-- The loop over the padding; `none` is its return. -/
def skipPadding : List UInt8 → Option (List UInt8)
  | [] => some []
  | b :: rest => if b = 1 then some rest else if b ≠ 1 then none else skipPadding rest

section Operations

variable (m : Modular W) (h : HashAlg)

/-- ssh_rsakex_encrypt, with the seed that was drawn. -/
def sshRsakexEncrypt (rsa : RSAKey W) (seed msg : List UInt8) : Option (List UInt8) :=
  let k := (7 + mpGetNbits rsa.modulus) / 8
  if 0 < msg.length ∧ msg.length + 2 * h.hlen + 2 ≤ k then do
    let b2 ← m.modpow (mpFromBytesBe W (oaepEncode h k seed msg)) rsa.exponent rsa.modulus
    some (putBytes b2 k)
  else none

/-- What is made of a decrypted block; `some none` is NULL. -/
def readBlock (W : Nat) (h : HashAlg) (out : List UInt8) : Option (Option (Limbs W)) :=
  -- a data block of less than no bytes
  if out.length < h.hlen + 1 then none
  else
    let seed := oaepMask h (out.drop (h.hlen + 1)) ((out.drop 1).take h.hlen)
    let db := oaepMask h seed (out.drop (h.hlen + 1))
    if out.headD 0 ≠ 0 then some none
    -- memcmp on what is behind the block
    else if out.length < 2 * h.hlen + 1 then none
    else if db.take h.hlen ≠ h.hash [] then some none
    else
      match skipPadding (db.drop h.hlen) with
      | none => some none
      | some rest =>
        let (b1, src) := getMpSsh2 W (.ofData rest)
        if src.err ∨ src.remaining ≠ 0 then some none else some (some b1)

/-- ssh_rsakex_decrypt. -/
def sshRsakexDecrypt (rsa : RSAKey W) (ciphertext : List UInt8) : Option (Option (Limbs W)) :=
  let outlen := (7 + mpGetNbits rsa.modulus) / 8
  if ciphertext.length ≠ outlen then some none
  else do
    let b2 ← rsaPrivkeyOp m (mpFromBytesBe W ciphertext) rsa
    readBlock W h (putBytes b2 outlen)

end Operations

/-! ## Masks -/

theorem oaepMaskLoop_length (h : HashAlg) (seed : List UInt8) (fuel : Nat) : ∀ (count : UInt32) (data : List UInt8),
    data.length ≤ fuel → (oaepMaskLoop h seed fuel count data).length = data.length := by
  induction fuel with
  | zero => intro count data _; rfl
  | succ fuel ih =>
    intro count data hlen
    have hpos := h.hlen_pos
    rw [oaepMaskLoop]
    by_cases hdata : data.length > 0
    · rw [if_pos hdata]
      dsimp only
      generalize hmax : (if data.length > h.hlen then h.hlen else data.length) = max
      have hmaxle : max ≤ data.length ∧ max ≤ h.hlen ∧ 0 < max := by
        rw [← hmax]
        split <;> omega
      rw [List.length_append, List.length_zipWith, List.length_take, List.length_take, h.length_hash,
        ih _ _ (by rw [List.length_drop]; omega), List.length_drop]
      omega
    · rw [if_neg hdata, List.length_nil]
      omega

@[simp] theorem length_oaepMask (h : HashAlg) (seed data : List UInt8) : (oaepMask h seed data).length = data.length :=
  oaepMaskLoop_length h seed _ 0 data (Nat.le_refl _)

theorem zipWith_xor_twice : ∀ {xs ys : List UInt8}, xs.length = ys.length →
    List.zipWith (· ^^^ ·) (List.zipWith (· ^^^ ·) xs ys) ys = xs
  | [], [], _ => rfl
  | x :: xs, y :: ys, h => by
    rw [List.zipWith_cons_cons, List.zipWith_cons_cons, zipWith_xor_twice (Nat.succ.inj h), UInt8.xor_assoc, UInt8.xor_self,
      UInt8.xor_zero]

theorem oaepMaskLoop_twice (h : HashAlg) (seed : List UInt8) (fuel : Nat) : ∀ (count : UInt32) (data : List UInt8),
    data.length ≤ fuel → oaepMaskLoop h seed fuel count (oaepMaskLoop h seed fuel count data) = data := by
  induction fuel with
  | zero => intro count data _; rfl
  | succ fuel ih =>
    intro count data hlen
    have hpos := h.hlen_pos
    have hsame := oaepMaskLoop_length h seed (fuel + 1) count data hlen
    rw [oaepMaskLoop, hsame]
    by_cases hdata : data.length > 0
    · rw [if_pos hdata]
      dsimp only
      rw [oaepMaskLoop, if_pos hdata]
      dsimp only
      generalize hmax : (if data.length > h.hlen then h.hlen else data.length) = max
      have hmaxle : max ≤ data.length ∧ max ≤ h.hlen ∧ 0 < max := by
        rw [← hmax]
        split <;> omega
      have hmask : ((h.hash (seed ++ put32BitMsbFirst count.toNat)).take max).length = max := by
        rw [List.length_take, h.length_hash]
        omega
      generalize (h.hash (seed ++ put32BitMsbFirst count.toNat)).take max = mask at hmask ⊢
      have htake : (data.take max).length = mask.length := by
        rw [List.length_take, hmask]
        omega
      have hzip : (List.zipWith (· ^^^ ·) (data.take max) mask).length = max := by
        rw [List.length_zipWith, htake, hmask, Nat.min_self]
      rw [List.take_left' hzip, List.drop_left' hzip, zipWith_xor_twice htake, ih _ _ (by rw [List.length_drop]; omega),
        List.take_append_drop]
    · rw [if_neg hdata]
      exact (List.length_eq_zero_iff.mp (by omega)).symm

theorem oaepMask_twice (h : HashAlg) (seed data : List UInt8) : oaepMask h seed (oaepMask h seed data) = data := by
  unfold oaepMask
  rw [oaepMaskLoop_length h seed _ 0 data (Nat.le_refl _)]
  exact oaepMaskLoop_twice h seed _ 0 data (Nat.le_refl _)

/-! ## A block and its parts -/

theorem length_dataBlock (h : HashAlg) {k : Nat} {msg : List UInt8} (hk : msg.length + 2 * h.hlen + 2 ≤ k) :
    (dataBlock h k msg).length = k - h.hlen - 1 := by
  simp only [dataBlock, List.length_append, h.length_hash, List.length_replicate, List.length_cons]
  omega

theorem length_oaepEncode (h : HashAlg) {k : Nat} {seed msg : List UInt8} (hseed : seed.length = h.hlen)
    (hk : msg.length + 2 * h.hlen + 2 ≤ k) : (oaepEncode h k seed msg).length = k := by
  simp only [oaepEncode, List.length_append, List.length_cons, length_oaepMask, length_dataBlock h hk, hseed]
  omega

/-- The seed and the data block that a block of a zero byte and two masked parts hides. -/
theorem unmask (h : HashAlg) {maskedSeed : List UInt8} (maskedDB : List UInt8) (hlen : maskedSeed.length = h.hlen) :
    (0 :: maskedSeed ++ maskedDB).drop (h.hlen + 1) = maskedDB ∧
      ((0 :: maskedSeed ++ maskedDB).drop 1).take h.hlen = maskedSeed := by
  refine ⟨?_, ?_⟩
  · rw [List.cons_append, List.drop_succ_cons, ← hlen, List.drop_left]
  · rw [List.cons_append, List.drop_succ_cons, List.drop_zero, ← hlen, List.take_left]

/-- With zero bytes in front of the one, the loop gives up. -/
theorem skipPadding_block {n : Nat} {msg : List UInt8} :
    skipPadding (List.replicate n 0 ++ 1 :: msg) = if n = 0 then some msg else none := by
  cases n with
  | zero => rfl
  | succ n => rfl

/-- A block that is an encoding, read again. -/
theorem readBlock_encode (h : HashAlg) {k : Nat} {seed msg : List UInt8} (hseed : seed.length = h.hlen)
    (hk : msg.length + 2 * h.hlen + 2 ≤ k) :
    readBlock W h (oaepEncode h k seed msg) =
      if msg.length + 2 * h.hlen + 2 = k then
        some (if (getMpSsh2 W (.ofData msg)).2.err ∨ (getMpSsh2 W (.ofData msg)).2.remaining ≠ 0 then none
          else some (getMpSsh2 W (.ofData msg)).1)
      else some none := by
  have hlen := length_oaepEncode h hseed hk
  obtain ⟨hdb, hsd⟩ := unmask h (oaepMask h seed (dataBlock h k msg))
    ((length_oaepMask h (oaepMask h seed (dataBlock h k msg)) seed).trans hseed)
  have htake : (dataBlock h k msg).take h.hlen = h.hash [] := by
    rw [dataBlock, List.append_assoc, List.take_left' (h.length_hash [])]
  have hdrop : (dataBlock h k msg).drop h.hlen = List.replicate (k - 2 * h.hlen - 2 - msg.length) 0 ++ 1 :: msg := by
    rw [dataBlock, List.append_assoc, List.drop_left' (h.length_hash [])]
  have hhead : ¬ (oaepEncode h k seed msg).headD 0 ≠ 0 := fun hne => hne rfl
  have hlong : ¬ k < 2 * h.hlen + 1 := by omega
  have hblock : oaepMask h (oaepMask h ((oaepEncode h k seed msg).drop (h.hlen + 1))
      (((oaepEncode h k seed msg).drop 1).take h.hlen)) ((oaepEncode h k seed msg).drop (h.hlen + 1)) = dataBlock h k msg := by
    rw [show (oaepEncode h k seed msg).drop (h.hlen + 1) = _ from hdb,
      show ((oaepEncode h k seed msg).drop 1).take h.hlen = _ from hsd, oaepMask_twice, oaepMask_twice]
  unfold readBlock
  rw [hlen, if_neg (by omega), if_neg hhead, if_neg hlong]
  dsimp only
  rw [hblock, if_neg (fun hne => hne htake), hdrop, skipPadding_block]
  by_cases hfull : msg.length + 2 * h.hlen + 2 = k
  · rw [if_pos (by omega), if_pos hfull]
    dsimp only
    split <;> rfl
  · rw [if_neg (by omega), if_neg hfull]

/-- The loop has met a one, or run to the end. -/
theorem skipPadding_some {l msg : List UInt8} (h : skipPadding l = some msg) (hne : msg ≠ []) : l = 1 :: msg := by
  cases l with
  | nil => exact absurd (Option.some.inj h).symm hne
  | cons b l =>
    rw [skipPadding] at h
    split at h
    · next hb => rw [hb, Option.some.inj h]
    · cases h

/-- What a block that is taken was made of. -/
theorem readBlock_sound (h : HashAlg) {out : List UInt8} {y : Limbs W} (hread : readBlock W h out = some (some y)) :
    ∃ seed msg, seed.length = h.hlen ∧ out = oaepEncode h out.length seed msg ∧ (getMpSsh2 W (.ofData msg)).1 = y ∧
      (getMpSsh2 W (.ofData msg)).2.err = false ∧ (getMpSsh2 W (.ofData msg)).2.remaining = 0 := by
  unfold readBlock at hread
  split at hread
  · cases hread
  · next hshort =>
    dsimp only at hread
    split at hread
    · cases hread
    · next hzero =>
      split at hread
      · cases hread
      · next hlong =>
        split at hread
        · cases hread
        · next hlabel =>
          obtain ⟨rest, rfl⟩ : ∃ rest, out = 0 :: rest := by
            cases out with
            | nil => exact absurd (Nat.succ_pos h.hlen) hshort
            | cons b rest =>
              obtain rfl : b = 0 := by simpa using hzero
              exact ⟨rest, rfl⟩
          split at hread
          · cases hread
          · next msg hskip =>
            split at hread
            · cases hread
            · next hok =>
              rw [List.drop_succ_cons, List.drop_succ_cons, List.drop_zero] at hskip hlabel
              rw [List.length_cons] at hshort hlong
              have hseed : (oaepMask h (rest.drop h.hlen) (rest.take h.hlen)).length = h.hlen := by
                rw [length_oaepMask, List.length_take]
                omega
              have hdb := length_oaepMask h (oaepMask h (rest.drop h.hlen) (rest.take h.hlen)) (rest.drop h.hlen)
              have htwice := oaepMask_twice h (oaepMask h (rest.drop h.hlen) (rest.take h.hlen)) (rest.drop h.hlen)
              have htwice' := oaepMask_twice h (rest.drop h.hlen) (rest.take h.hlen)
              generalize oaepMask h (oaepMask h (rest.drop h.hlen) (rest.take h.hlen)) (rest.drop h.hlen) = db at *
              generalize oaepMask h (rest.drop h.hlen) (rest.take h.hlen) = seed at *
              have htake : db.take h.hlen = h.hash [] := not_not.mp hlabel
              have hdrop := skipPadding_some hskip fun hnil => hok (Or.inl (by rw [hnil]; rfl))
              have hlen := congrArg List.length hdrop
              rw [List.length_drop, List.length_cons, hdb, List.length_drop] at hlen
              have hblock : dataBlock h (rest.length + 1) msg = db := by
                rw [dataBlock, show rest.length + 1 - 2 * h.hlen - 2 - msg.length = 0 by omega, List.replicate_zero,
                  List.append_nil, ← htake, ← hdrop, List.take_append_drop]
              have hvalid := not_or.mp hok
              refine ⟨seed, msg, hseed, ?_, ?_, by simpa using hvalid.1, by simpa using hvalid.2⟩
              · rw [List.length_cons, oaepEncode]
                rw [hblock, htwice, htwice', List.cons_append, List.take_append_drop]
              · exact Option.some.inj (Option.some.inj hread)

/-- Nothing outside a block is read that is long enough. -/
theorem readBlock_some (h : HashAlg) {out : List UInt8} (hlen : 2 * h.hlen + 1 ≤ out.length) :
    ∃ r, readBlock W h out = some r := by
  unfold readBlock
  rw [if_neg (by omega)]
  dsimp only
  split
  · exact ⟨_, rfl⟩
  · rw [if_neg (by omega)]
    split
    · exact ⟨_, rfl⟩
    · split
      · exact ⟨_, rfl⟩
      · split <;> exact ⟨_, rfl⟩

/-- The label's hash is looked for behind a short block. -/
theorem readBlock_short {h : HashAlg} {out : List UInt8} (hhead : out.headD 0 = 0) (hlen : out.length < 2 * h.hlen + 1) :
    readBlock W h out = none := by
  have hzero : ¬ out.headD 0 ≠ 0 := not_not.mpr hhead
  unfold readBlock
  dsimp only
  rw [if_neg hzero, if_pos hlen, ite_self]

/-! ## The two operations -/

theorem mpFromBytesBe_zeros (n : Nat) : Utils.mpFromBytesBe (List.replicate n 0) = 0 := by
  induction n with
  | zero => rfl
  | succ n ih => rw [List.replicate_succ', Utils.mpFromBytesBe_append, ih]; rfl

theorem rsaPrivkeyOp_zero {m : Modular W} (hW : Supported W) {key : RSAKey W} (hkey : KeyPair key) {input : Limbs W}
    (hinput : val input = 0) : ∃ r, rsaPrivkeyOp m input key = some r ∧ val r = 0 := by
  refine ⟨_, crtModpow_spec hW hkey input, ?_⟩
  have hd : val key.privateExponent ≠ 0 := fun h0 => by
    have := hkey.invertP
    rw [h0, Nat.mul_zero, Nat.zero_mod] at this
    cases this
  rw [hinput, Nat.zero_pow (Nat.pos_of_ne_zero hd), Nat.zero_mod, val_ofNat, Nat.zero_mod]

section Operations

variable (m : Modular W) (h : HashAlg)

/-- What is returned, if anything, is what the block of the ciphertext was made of. -/
def Sound (key : RSAKey W) (ciphertext : List UInt8) : Prop :=
  ∃ r, sshRsakexDecrypt m h key ciphertext = some r ∧ ∀ y, r = some y → ∃ b2 seed msg,
    rsaPrivkeyOp m (mpFromBytesBe W ciphertext) key = some b2 ∧ seed.length = h.hlen ∧
    putBytes b2 ((7 + mpGetNbits key.modulus) / 8) = oaepEncode h ((7 + mpGetNbits key.modulus) / 8) seed msg ∧
    (getMpSsh2 W (.ofData msg)).1 = y ∧ (getMpSsh2 W (.ofData msg)).2.err = false ∧ (getMpSsh2 W (.ofData msg)).2.remaining = 0

variable {m h}

theorem decrypt_encrypt (hW : Supported W) {key : RSAKey W} (hkey : KeyPair key) {seed msg : List UInt8} {k : Nat}
    (hk : (7 + mpGetNbits key.modulus) / 8 = k) (hseed : seed.length = h.hlen) (hpos : 0 < msg.length)
    (hmsg : msg.length + 2 * h.hlen + 2 ≤ k) :
    ∃ c, sshRsakexEncrypt m h key seed msg = some c ∧ sshRsakexDecrypt m h key c = readBlock W h (oaepEncode h k seed msg) := by
  have hlen := length_oaepEncode h hseed hmsg
  have hk' : k = (mpGetNbits key.modulus + 7) / 8 := by omega
  obtain ⟨-, b2, hb2, hback⟩ := block_round_trip (m := m) hW hkey hk' hlen
  have hb2' : m.modpow (mpFromBytesBe W (oaepEncode h k seed msg)) key.exponent key.modulus = some b2 := hb2
  obtain ⟨r, hr, hblock⟩ := hback (mpFromBytesBe W (putBytes b2 k)) (mpFromBytesBe_spec hW _).2
  refine ⟨putBytes b2 k, ?_, ?_⟩
  · rw [sshRsakexEncrypt, hk, if_pos ⟨hpos, hmsg⟩, hb2']
    rfl
  · rw [sshRsakexDecrypt, hk, if_neg (by simp), hr]
    exact congrArg (readBlock W h) hblock

theorem sound_iff (hW : Supported W) {key : RSAKey W} (hkey : KeyPair key) :
    (∀ ciphertext, Sound m h key ciphertext) ↔ 2 * h.hlen + 1 ≤ (7 + mpGetNbits key.modulus) / 8 := by
  constructor
  · intro hsound
    by_contra hshort
    generalize hk : (7 + mpGetNbits key.modulus) / 8 = k at hshort
    obtain ⟨r, hr, -⟩ := hsound (List.replicate k 0)
    have hinput : val (mpFromBytesBe W (List.replicate k 0)) = 0 := by rw [(mpFromBytesBe_spec hW _).2, mpFromBytesBe_zeros]
    obtain ⟨b2, hb2, hzero⟩ := rsaPrivkeyOp_zero (m := m) hW hkey hinput
    rw [sshRsakexDecrypt, hk, if_neg (by simp), hb2] at hr
    change readBlock W h (putBytes b2 k) = some r at hr
    have hbytes : putBytes b2 k = List.replicate k 0 := by
      rw [putBytes_eq hW, hzero, show Utils.mpGetByte 0 = fun _ => 0 by funext i; simp [Utils.mpGetByte], List.map_const']
      simp
    have hhead : (List.replicate k (0 : UInt8)).headD 0 = 0 := by cases k <;> rfl
    rw [hbytes, readBlock_short hhead (by rw [List.length_replicate]; omega)] at hr
    cases hr
  · intro hlen ciphertext
    by_cases hc : ciphertext.length = (7 + mpGetNbits key.modulus) / 8
    · obtain ⟨b2, hb2⟩ : ∃ b2, rsaPrivkeyOp m (mpFromBytesBe W ciphertext) key = some b2 := ⟨_, crtModpow_spec hW hkey _⟩
      have hdecrypt : sshRsakexDecrypt m h key ciphertext = readBlock W h (putBytes b2 ((7 + mpGetNbits key.modulus) / 8)) := by
        rw [sshRsakexDecrypt, if_neg (by simpa using hc), hb2]
        rfl
      have hlong : 2 * h.hlen + 1 ≤ (putBytes b2 ((7 + mpGetNbits key.modulus) / 8)).length := by rwa [length_putBytes]
      obtain ⟨r, hr⟩ := readBlock_some (W := W) h hlong
      refine ⟨r, hdecrypt.trans hr, ?_⟩
      rintro y rfl
      obtain ⟨seed, msg, hseed, hblock, hy⟩ := readBlock_sound h hr
      rw [length_putBytes] at hblock
      exact ⟨b2, seed, msg, hb2, hseed, hblock, hy⟩
    · refine ⟨none, ?_, nofun⟩
      rw [sshRsakexDecrypt, if_pos hc]

/-- A number read from the whole of a message. -/
theorem getMpSsh2_zero (hW : Supported W) {x : Limbs W} (hx : val x = 0) : (getMpSsh2 W (.ofData (putMpSsh2 x))).2.err = true := by
  have hput : putMpSsh2 x = Utils.putString [0] := by
    rw [putMpSsh2, mpGetNbits_eq hW, hx, putBytes_eq hW, hx]
    rfl
  rw [hput]
  rfl

/-- A message comes back exactly when its block has no zero bytes to skip and it is not 0,
    and what is accepted was encoded; both for a modulus that is long enough. -/
theorem oaep_iff (hW : Supported W) {key : RSAKey W} (hkey : KeyPair key) {k : Nat}
    (hk : (7 + mpGetNbits key.modulus) / 8 = k) (hint : k < 2 ^ 31) :
    (∀ (seed : List UInt8) (x : Limbs W), seed.length = h.hlen → (putMpSsh2 x).length + 2 * h.hlen + 2 ≤ k →
      ∃ c, sshRsakexEncrypt m h key seed (putMpSsh2 x) = some c ∧
        ((∃ y, sshRsakexDecrypt m h key c = some (some y) ∧ val y = val x) ↔
          (putMpSsh2 x).length + 2 * h.hlen + 2 = k ∧ val x ≠ 0)) ∧
    ((∀ ciphertext, Sound m h key ciphertext) ↔ 2 * h.hlen + 1 ≤ k) := by
  refine ⟨?_, hk ▸ sound_iff hW hkey⟩
  intro seed x hseed hlen
  have hpos : 0 < (putMpSsh2 x).length := by simp [putMpSsh2, Utils.put32BitMsbFirst]
  obtain ⟨c, henc, hdec⟩ := decrypt_encrypt (m := m) hW hkey hk hseed hpos hlen
  refine ⟨c, henc, ?_⟩
  rw [hdec, readBlock_encode h hseed hlen]
  constructor
  · rintro ⟨y, hy, -⟩
    by_cases hfull : (putMpSsh2 x).length + 2 * h.hlen + 2 = k
    · refine ⟨hfull, fun hx => ?_⟩
      rw [if_pos hfull, if_pos (Or.inl (getMpSsh2_zero hW hx))] at hy
      cases hy
    · rw [if_neg hfull] at hy
      cases hy
  · rintro ⟨hfull, hx⟩
    have hput : (putMpSsh2 x).length = 4 + (mpGetNbits x + 8) / 8 := by
      rw [putMpSsh2, List.length_append, length_putBytes]
      rfl
    have hreads : (BinarySource.ofData (putMpSsh2 x)).Reads (putMpSsh2 x ++ []) := by
      rw [List.append_nil]
      exact BinarySource.ofData_reads _
    obtain ⟨hval, herr, hrest⟩ := getMpSsh2_reads hW hx (by omega) hreads
    have hremaining : (getMpSsh2 W (.ofData (putMpSsh2 x))).2.remaining = 0 := by
      rw [BinarySource.remaining, ← List.length_drop, hrest, List.length_nil]
    refine ⟨_, ?_, hval⟩
    rw [if_pos hfull, if_neg (by simp [herr, hremaining])]

end Operations

/-- Two primes of Mersenne, 648 bits in all. -/
def key648 : RSAKey 64 where
  bits := 648
  bytes := 81
  modulus := ofNat 64 11 ((2 ^ 521 - 1) * (2 ^ 127 - 1))
  exponent := [65537]
  privateExponent := [0x55ffaa0055ffaa01, 0x55ffaa0055ffaa00, 0x807f7f80807f7f80, 0x807f7f80807f7f80, 0x807f7f80807f7f80,
    0x807f7f80807f7f80, 0x807f7f80807f7f80, 0x807f7f80807f7f80, 0x7fd5802a7fd57f80, 0x7fd5802a7fd5802a, 0x2a]
  p := ofNat 64 9 (2 ^ 521 - 1)
  q := ofNat 64 2 (2 ^ 127 - 1)
  iqmp := [0x4922491248924491, 0x9244922491248924, 0x2491248924492248, 0x4922491248924492, 0x1248924492249124,
    0x2491248924492249, 0x8924492249124892, 0x1248924492249124, 0x49]
  comment := none

theorem key648_pair : KeyPair key648 where
  pPrime := by
    rw [show val key648.p = mersenne 521 by decide +kernel]
    exact lucas_lehmer_sufficiency 521 (by norm_num) (by norm_num)
  qPrime := by
    rw [show val key648.q = mersenne 127 by decide +kernel]
    exact lucas_lehmer_sufficiency 127 (by norm_num) (by norm_num)
  pOdd := by decide +kernel
  qOdd := by decide +kernel
  lt := by decide +kernel
  width := by decide
  modulus := by decide +kernel
  invertP := by decide +kernel
  invertQ := by decide +kernel
  iqmp := by decide +kernel

/-- A hash of 20 bytes. -/
def hash20 : HashAlg where
  hlen := 20
  hash := fun data => List.replicate 20 (UInt8.ofNat data.length)
  length_hash := by simp
  hlen_pos := by decide
  hlen_le := by decide

theorem oaep_key648 :
    (∀ (seed : List UInt8) (x : Limbs 64), seed.length = hash20.hlen → (putMpSsh2 x).length + 2 * hash20.hlen + 2 ≤ 81 →
      ∃ c, sshRsakexEncrypt (numbers 64) hash20 key648 seed (putMpSsh2 x) = some c ∧
        ((∃ y, sshRsakexDecrypt (numbers 64) hash20 key648 c = some (some y) ∧ val y = val x) ↔
          (putMpSsh2 x).length + 2 * hash20.hlen + 2 = 81 ∧ val x ≠ 0)) ∧
    ((∀ ciphertext, Sound (numbers 64) hash20 key648 ciphertext) ↔ 2 * hash20.hlen + 1 ≤ 81) :=
  oaep_iff (m := numbers 64) (h := hash20) (Or.inr (Or.inr rfl)) key648_pair (by decide +kernel) (by decide)

/-- The number 1, which leaves 34 bytes of padding, does not come back. -/
theorem padded_message_lost :
    ¬ ∀ (m : Modular 64) (h : HashAlg) (key : RSAKey 64) (k : Nat) (seed : List UInt8) (x : Limbs 64), KeyPair key →
      (7 + mpGetNbits key.modulus) / 8 = k → seed.length = h.hlen → (putMpSsh2 x).length + 2 * h.hlen + 2 ≤ k →
      ∃ c y, sshRsakexEncrypt m h key seed (putMpSsh2 x) = some c ∧ sshRsakexDecrypt m h key c = some (some y) ∧
        val y = val x := by
  intro hclaim
  have hk : (7 + mpGetNbits key648.modulus) / 8 = 81 := by decide +kernel
  have hput : putMpSsh2 ([1] : Limbs 64) = [0, 0, 0, 1, 1] := by decide +kernel
  have hlen : (putMpSsh2 ([1] : Limbs 64)).length + 2 * hash20.hlen + 2 ≤ 81 := by rw [hput]; decide
  have hseed : (List.replicate 20 (0 : UInt8)).length = hash20.hlen := by decide
  obtain ⟨c, y, henc, hdec, -⟩ := hclaim (numbers 64) hash20 key648 81 (List.replicate 20 0) [1] key648_pair hk hseed hlen
  obtain ⟨c', henc', hdec'⟩ := decrypt_encrypt (m := numbers 64) (h := hash20) (Or.inr (Or.inr rfl)) key648_pair hk hseed
    (by rw [hput]; decide) hlen
  obtain rfl : c = c' := Option.some.inj (henc.symm.trans henc')
  rw [hdec', readBlock_encode hash20 hseed hlen, if_neg (by rw [hput]; decide)] at hdec
  cases hdec

end Putty.Rsa
