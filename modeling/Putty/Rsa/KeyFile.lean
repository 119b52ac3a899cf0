/-
  Putty.Rsa.KeyFile — SSH-1 RSA keys in files (`sshpubk.c`): rsa_ssh1_savekey, the loaders
  over rsa_ssh1_load_main, and the public key in one line (ssh1_pubkey_str).

  A private key file is a signature, the public key, the comment and a secret part, which
  starts with two bytes given twice, is padded to blocks of the cipher and encrypted if there
  is a passphrase. Loading verifies the key, which may put the primes in the other order.
  MD5 and the cipher are those of any `FileCipher`; the random bytes are an argument. `none`
  is a failed assertion, or what the code leaves undefined.

  Proved (`key_file_round_trip`): a key that is accepted and whose numbers have fewer than
  65536 bits comes back from the file that is saved of it, as verification leaves it, and so
  does its public half, from that file and from the one line. A number of 65536 bits cannot
  be written (`wide_exponent_not_saved`).
-/

import Putty.Keys.Lines
import Putty.Mpint.Residue
import Putty.Rsa.Key

namespace Putty.Rsa

open Putty.Lib
open Putty.Lib.Limbs
open Putty.Mpint
open Putty.Keys (Stream CString Platform cstr fgets nextLine LF SPACE isdigit digitsValue decimal)
open Putty.Utils (BinarySource put32BitMsbFirst putString text)

variable {W : Nat}

/-- MD5 of the passphrase, and des3_encrypt_pubkey under it, which works on whole blocks. -/
structure FileCipher where
  md5 : List UInt8 → List UInt8
  encrypt : List UInt8 → List UInt8 → List UInt8
  decrypt : List UInt8 → List UInt8 → List UInt8
  length_encrypt : ∀ key data, (encrypt key data).length = data.length
  inverts : ∀ key data, data.length % 8 = 0 → decrypt key (encrypt key data) = data

/-- RsaSsh1Order. -/
inductive Order
  | exponentFirst
  | modulusFirst
  deriving DecidableEq

def signature : List UInt8 := text "SSH PRIVATE KEY FILE FORMAT 1.1\n"

/-- SSH1_CIPHER_3DES. -/
def cipher3des : UInt8 := 3

def rsaSsh1PublicBlob (key : RSAKey W) (order : Order) : Option (List UInt8) := do
  let e ← putMpSsh1 key.exponent
  let m ← putMpSsh1 key.modulus
  let bits := put32BitMsbFirst (mpGetNbits key.modulus)
  some (match order with
    | .exponentFirst => bits ++ e ++ m
    | .modulusFirst => bits ++ m ++ e)

/-- The part of the file that may be encrypted. -/
def secretPart (key : RSAKey W) (b₀ b₁ : UInt8) : Option (List UInt8) := do
  let d ← putMpSsh1 key.privateExponent
  let iqmp ← putMpSsh1 key.iqmp
  let q ← putMpSsh1 key.q
  let p ← putMpSsh1 key.p
  let secret := [b₀, b₁, b₀, b₁] ++ d ++ iqmp ++ q ++ p
  some (secret ++ List.replicate ((8 - secret.length % 8) % 8) 0)

/-- rsa_ssh1_savekey: the file, with the two bytes that were drawn. -/
def rsaSsh1Savekey (c : FileCipher) (key : RSAKey W) (passphrase : Option CString) (b₀ b₁ : UInt8) : Option Stream := do
  let pub ← rsaSsh1PublicBlob key .modulusFirst
  let comment := key.comment.getD []
  -- the assertion of put_string
  if 2 ^ 32 ≤ comment.length then none
  else
    let head := signature ++ [0, if passphrase.isSome then cipher3des else 0] ++ put32BitMsbFirst 0 ++ pub ++ putString comment
    let secret ← secretPart key b₀ b₁
    match passphrase with
    | none => some (head ++ secret)
    -- estart is an int
    | some pass => if head.length < 2 ^ 31 then some (head ++ c.encrypt (c.md5 pass.bytes) secret) else none

inductive KeyFileError
  | cannotOpen
  | notSsh1
  | fileFormat
  | wrongPassphrase
  | verifyFailed
  | bitCount
  deriving DecidableEq, Repr

def KeyFileError.text : KeyFileError → String
  | cannotOpen => "can't open file"
  | notSsh1 => "not an SSH-1 RSA file"
  | fileFormat => "file format error"
  | wrongPassphrase => "wrong passphrase"
  | verifyFailed => "rsa_verify failed"
  | bitCount => "key bit count does not match in SSH-1 public key file"

/-! ## Loading -/

/-- get_rsa_ssh1_pub: the bit count, the exponent and the modulus. -/
def getRsaSsh1Pub (W : Nat) (src : BinarySource) : Order → (UInt32 × Limbs W × Limbs W) × BinarySource
  | .exponentFirst =>
    let (bits, src) := src.getUint32
    let (e, src) := getMpSsh1 W src
    let (m, src) := getMpSsh1 W src
    ((bits, e, m), src)
  | .modulusFirst =>
    let (bits, src) := src.getUint32
    let (m, src) := getMpSsh1 W src
    let (e, src) := getMpSsh1 W src
    ((bits, e, m), src)

/-- What is in front of the secret part. -/
structure PublicPart (W : Nat) where
  ciphertype : UInt8
  bits : UInt32
  exponent : Limbs W
  modulus : Limbs W
  comment : List UInt8
  src : BinarySource

/-- rsa_ssh1_load_main up to the comment; `none` is its "file format error". -/
def loadPublicPart (W : Nat) (fp : Stream) : Option (PublicPart W) :=
  let (zero, src) := (BinarySource.ofData fp).getByte
  if zero ≠ 0 then none
  else
    let (ciphertype, src) := src.getByte
    if ciphertype ≠ 0 ∧ ciphertype ≠ cipher3des then none
    else
      let (reserved, src) := src.getUint32
      if reserved ≠ 0 then none
      else
        let ((bits, exponent, modulus), src) := getRsaSsh1Pub W src .modulusFirst
        let (comment, src) := src.getString
        some ⟨ciphertype, bits, exponent, modulus, (cstr comment).bytes, src⟩

/-- The secret part, decrypted in its place. -/
def decryptSecret (c : FileCipher) (part : PublicPart W) (passphrase : Option CString) : Option (Except KeyFileError BinarySource) :=
  if part.ciphertype = 0 then some (.ok part.src)
  else
    let enclen := part.src.remaining
    if enclen % 8 ≠ 0 then some (.error .fileFormat)
    else do
      let pass ← passphrase
      -- des3_decrypt_pubkey takes an int
      if enclen < 2 ^ 31 then
        some (.ok { BinarySource.ofData (c.decrypt (c.md5 pass.bytes) (part.src.data.drop part.src.pos)) with err := part.src.err })
      else none

/-- The numbers of the secret part. -/
def readSecret (m : Modular W) (part : PublicPart W) (src : BinarySource) : Option (Except KeyFileError (RSAKey W)) :=
  let (b0a, src) := src.getByte
  let (b1a, src) := src.getByte
  let (b0b, src) := src.getByte
  let (b1b, src) := src.getByte
  if b0a ≠ b0b ∨ b1a ≠ b1b then some (.error .wrongPassphrase)
  else
    let (privateExponent, src) := getMpSsh1 W src
    let (iqmp, src) := getMpSsh1 W src
    let (q, src) := getMpSsh1 W src
    let (p, _) := getMpSsh1 W src
    let key : RSAKey W := {
      bits := part.bits.toNat
      bytes := (mpGetNbits part.modulus + 7) / 8
      modulus := part.modulus
      exponent := part.exponent
      privateExponent, p, q, iqmp
      comment := some part.comment }
    (rsaVerify m key).map fun r => if r.1 then .ok r.2 else .error .verifyFailed

/-- Whether the first line is the signature, and what follows it. -/
def afterSignature (fp : Stream) : Option Stream :=
  match fgets 64 fp with
  | some (buf, rest) => if (cstr buf).bytes = signature then some rest else none
  | none => none

/-- rsa_ssh1_loadkey; `none` is a file that does not open. -/
def rsaSsh1Loadkey (m : Modular W) (c : FileCipher) (file : Option Stream) (passphrase : Option CString) :
    Option (Except KeyFileError (RSAKey W)) :=
  match file with
  | none => some (.error .cannotOpen)
  | some fp =>
    match afterSignature fp with
    | none => some (.error .notSsh1)
    | some rest =>
      match loadPublicPart W rest with
      | none => some (.error .fileFormat)
      | some part => do
        match ← decryptSecret c part passphrase with
        | .error e => some (.error e)
        | .ok src => readSecret m part src

/-- rsa_ssh1_encrypted, and the comment if it got to it. -/
def rsaSsh1Encrypted (W : Nat) (file : Option Stream) : Bool × Option (List UInt8) :=
  match (file.bind afterSignature).bind (loadPublicPart W) with
  | none => (false, none)
  | some part => (part.ciphertype ≠ 0, some part.comment)

/-- A run of digits, and what is behind the space after it. -/
def digitsThenSpace (p : List UInt8) : Option (List UInt8 × List UInt8) :=
  match p.dropWhile isdigit with
  | c :: rest => if c = SPACE then some (p.takeWhile isdigit, rest) else none
  | [] => none

/-- The one line taken apart: bit count, exponent, modulus and comment. -/
def splitPubkeyLine (line : List UInt8) : Option (List UInt8 × List UInt8 × List UInt8 × Option (List UInt8)) := do
  let (bitsp, p) ← digitsThenSpace line
  let (expp, p) ← digitsThenSpace p
  match p.dropWhile isdigit with
  | [] => some (bitsp, expp, p.takeWhile isdigit, none)
  | c :: commentp => if c = SPACE then some (bitsp, expp, p.takeWhile isdigit, some commentp) else none

/-- rsa_ssh1_loadpub: the public blob, exponent first, and the comment. -/
def rsaSsh1Loadpub (W : Nat) (file : Option Stream) : Option (Except KeyFileError (List UInt8 × Option (List UInt8))) :=
  match file with
  | none => some (.error .cannotOpen)
  | some fp =>
    match afterSignature fp with
    | some rest =>
      match loadPublicPart W rest with
      | none => some (.error .fileFormat)
      | some part => do
        let blob ← rsaSsh1PublicBlob ⟨0, 0, part.modulus, part.exponent, [], [], [], [], none⟩ .exponentFirst
        some (.ok (blob, some part.comment))
    | none => do
      -- strspn of a line that is NULL
      let line ← (← nextLine fp).1
      match splitPubkeyLine line with
      | none => some (.error .notSsh1)
      | some (bitsp, expp, modp, commentp) =>
        let exponent ← mpFromDecimalPl W expp
        let modulus ← mpFromDecimalPl W modp
        -- atoi
        if 2 ^ 31 ≤ digitsValue bitsp then none
        else if digitsValue bitsp ≠ mpGetNbits modulus then some (.error .bitCount)
        else
          let blob ← rsaSsh1PublicBlob ⟨0, 0, modulus, exponent, [], [], [], [], none⟩ .exponentFirst
          some (.ok (blob, commentp))

/-! ## One line -/

def ssh1PubkeyStr (key : RSAKey W) : Option (List UInt8) := do
  let dec1 ← mpGetDecimal key.exponent
  let dec2 ← mpGetDecimal key.modulus
  some (decimal (mpGetNbits key.modulus) ++ SPACE :: dec1 ++ SPACE :: dec2 ++ match key.comment with
    | none => []
    | some comment => SPACE :: comment)

/-- ssh1_write_pubkey: the file it leaves. -/
def ssh1WritePubkey (p : Platform) (key : RSAKey W) : Option Stream := (ssh1PubkeyStr key).map fun s => p.written (s ++ [LF])

/-! ## Fields that are read back -/

/-- A number as it is written, if it can be. -/
def wire (x : Limbs W) : List UInt8 := Utils.put16BitMsbFirst (mpGetNbits x) ++ putBytes x ((mpGetNbits x + 7) / 8)

theorem putMpSsh1_wire {x : Limbs W} (h : mpGetNbits x < 0x10000) : putMpSsh1 x = some (wire x) := if_pos h

theorem length_wire {x : Limbs W} (h : mpGetNbits x < 0x10000) : (wire x).length ≤ 8194 := by
  have hlen : (wire x).length = 2 + (mpGetNbits x + 7) / 8 := by rw [wire, List.length_append, length_putBytes]; rfl
  omega

theorem nbits_congr (h : Supported W) {x y : Limbs W} (hv : val x = val y) : mpGetNbits x = mpGetNbits y := by
  rw [mpGetNbits_eq h, mpGetNbits_eq h, hv]

theorem afterSignature_file (rest : Stream) : afterSignature (signature ++ rest) = some rest := by
  have hline : signature = text "SSH PRIVATE KEY FILE FORMAT 1.1" ++ [LF] := by decide +kernel
  have hloop := Keys.fgetsLoop_short rest (text "SSH PRIVATE KEY FILE FORMAT 1.1") 63 (by decide +kernel) (by decide +kernel)
  have hne : signature ++ rest ≠ [] := by rw [hline]; simp
  have hbytes : (cstr signature).bytes = signature := by decide +kernel
  rw [afterSignature, fgets, if_neg hne, hline, List.append_assoc, List.singleton_append]
  change (match some (Keys.fgetsLoop 63 _) with
    | some (buf, rest) => if (cstr buf).bytes = signature then some rest else none
    | none => none) = some rest
  rw [hloop]
  dsimp only
  rw [← hline, hbytes, if_pos rfl]

/-- The public half of a file, between the signature and the secret part. -/
def publicBytes (ct : UInt8) (key : RSAKey W) (comment : List UInt8) : List UInt8 :=
  0 :: ct :: put32BitMsbFirst 0 ++ (put32BitMsbFirst (mpGetNbits key.modulus) ++ wire key.modulus ++ wire key.exponent) ++ putString comment

/-- What is read of the public half. -/
structure ReadsPublic (part : PublicPart W) (ct : UInt8) (key : RSAKey W) (comment secret : List UInt8) : Prop where
  ciphertype : part.ciphertype = ct
  bits : part.bits.toNat = mpGetNbits key.modulus
  exponent : val part.exponent = val key.exponent
  modulus : val part.modulus = val key.modulus
  comment : part.comment = comment
  src : part.src.Reads secret

theorem loadPublicPart_reads (h : Supported W) {key : RSAKey W} (hm : mpGetNbits key.modulus < 0x10000)
    (he : mpGetNbits key.exponent < 0x10000) {ct : UInt8} (hct : ct = 0 ∨ ct = cipher3des) {comment : List UInt8} (h0 : 0 ∉ comment)
    (hlen : comment.length < 2 ^ 32) (secret : List UInt8) :
    ∃ part, loadPublicPart W (publicBytes ct key comment ++ secret) = some part ∧ ReadsPublic part ct key comment secret := by
  have hfile : (BinarySource.ofData (publicBytes ct key comment ++ secret)).Reads (0 :: (ct :: (put32BitMsbFirst 0 ++
      (put32BitMsbFirst (mpGetNbits key.modulus) ++ (wire key.modulus ++ (wire key.exponent ++ (putString comment ++ secret))))))) :=
    ⟨rfl, by simp [publicBytes, BinarySource.ofData]⟩
  generalize publicBytes ct key comment ++ secret = fp at hfile ⊢
  obtain ⟨hzero, h1⟩ := BinarySource.getByte_reads hfile
  rcases e1 : (BinarySource.ofData fp).getByte with ⟨zero, src1⟩
  rw [e1] at hzero h1
  obtain ⟨htype, h2⟩ := BinarySource.getByte_reads h1
  rcases e2 : src1.getByte with ⟨ciphertype, src2⟩
  rw [e2] at htype h2
  obtain ⟨hreserved, h3⟩ := @BinarySource.getUint32_reads src2 0 _ (by decide) h2
  rcases e3 : src2.getUint32 with ⟨reserved, src3⟩
  rw [e3] at hreserved h3
  obtain ⟨hbits, h4⟩ := BinarySource.getUint32_reads (lt_trans hm (by decide)) h3
  rcases e4 : src3.getUint32 with ⟨bits, src4⟩
  rw [e4] at hbits h4
  obtain ⟨hmod, h5⟩ := getMpSsh1_reads h hm h4
  rcases e5 : getMpSsh1 W src4 with ⟨modulus, src5⟩
  rw [e5] at hmod h5
  obtain ⟨hexp, h6⟩ := getMpSsh1_reads h he h5
  rcases e6 : getMpSsh1 W src5 with ⟨exponent, src6⟩
  rw [e6] at hexp h6
  obtain ⟨hcomment, h7⟩ := BinarySource.getString_reads hlen h6
  rcases e7 : src6.getString with ⟨c, src7⟩
  rw [e7] at hcomment h7
  dsimp only at hzero htype hreserved hcomment
  obtain rfl : reserved = 0 := UInt32.toNat.inj hreserved
  subst hzero htype hcomment
  refine ⟨⟨ciphertype, bits, exponent, modulus, (cstr c).bytes, src7⟩, ?_, rfl, hbits, hexp, hmod, Keys.cstr_bytes h0, h7⟩
  unfold loadPublicPart getRsaSsh1Pub
  rw [e1]
  dsimp only
  rw [if_neg (not_not.mpr rfl), e2]
  dsimp only
  rw [if_neg fun hne => hct.elim hne.1 hne.2, e3]
  dsimp only
  rw [if_neg (not_not.mpr rfl), e4]
  dsimp only
  rw [e5]
  dsimp only
  rw [e6]
  dsimp only
  rw [e7]

/-! ## The secret part -/

/-- The numbers of the secret part as they are written. -/
def secretBytes (key : RSAKey W) (b₀ b₁ : UInt8) : List UInt8 :=
  [b₀, b₁, b₀, b₁] ++ wire key.privateExponent ++ wire key.iqmp ++ wire key.q ++ wire key.p

/-- The numbers that have to fit their 16 bits. -/
structure Writable (key : RSAKey W) : Prop where
  modulus : mpGetNbits key.modulus < 0x10000
  exponent : mpGetNbits key.exponent < 0x10000
  privateExponent : mpGetNbits key.privateExponent < 0x10000
  iqmp : mpGetNbits key.iqmp < 0x10000
  q : mpGetNbits key.q < 0x10000
  p : mpGetNbits key.p < 0x10000

theorem secretPart_eq {key : RSAKey W} (hkey : Writable key) (b₀ b₁ : UInt8) :
    ∃ pad, secretPart key b₀ b₁ = some (secretBytes key b₀ b₁ ++ pad) ∧ (secretBytes key b₀ b₁ ++ pad).length % 8 = 0 ∧ pad.length < 8 := by
  refine ⟨List.replicate ((8 - (secretBytes key b₀ b₁).length % 8) % 8) 0, ?_, ?_, ?_⟩
  · rw [secretPart, putMpSsh1_wire hkey.privateExponent, putMpSsh1_wire hkey.iqmp, putMpSsh1_wire hkey.q, putMpSsh1_wire hkey.p]
    rfl
  · rw [List.length_append, List.length_replicate]
    omega
  · rw [List.length_replicate]
    exact Nat.mod_lt _ (by decide)

theorem length_secretBytes {key : RSAKey W} (hkey : Writable key) (b₀ b₁ : UInt8) : (secretBytes key b₀ b₁).length ≤ 32780 := by
  have h1 := length_wire hkey.privateExponent
  have h2 := length_wire hkey.iqmp
  have h3 := length_wire hkey.q
  have h4 := length_wire hkey.p
  simp only [secretBytes, List.length_append, List.length_cons, List.length_nil]
  omega

/-- What verification is given when the secret part is read. -/
theorem readSecret_reads (h : Supported W) (m : Modular W) {key : RSAKey W} (hkey : Writable key) {b₀ b₁ : UInt8} {pad : List UInt8}
    {part : PublicPart W} {src : BinarySource} (hsrc : src.Reads (secretBytes key b₀ b₁ ++ pad)) :
    ∃ d iqmp q p : Limbs W, val d = val key.privateExponent ∧ val q = val key.q ∧ val p = val key.p ∧
      readSecret m part src = (rsaVerify m ⟨part.bits.toNat, (mpGetNbits part.modulus + 7) / 8, part.modulus, part.exponent, d, p, q, iqmp,
        some part.comment⟩).map fun r => if r.1 then .ok r.2 else .error .verifyFailed := by
  have h0 : src.Reads (b₀ :: (b₁ :: (b₀ :: (b₁ :: (wire key.privateExponent ++ (wire key.iqmp ++ (wire key.q ++ (wire key.p ++ pad)))))))) := by
    simpa [secretBytes] using hsrc
  obtain ⟨hb0, h1⟩ := BinarySource.getByte_reads h0
  rcases e1 : src.getByte with ⟨b0a, src1⟩
  rw [e1] at hb0 h1
  obtain ⟨hb1, h2⟩ := BinarySource.getByte_reads h1
  rcases e2 : src1.getByte with ⟨b1a, src2⟩
  rw [e2] at hb1 h2
  obtain ⟨hb2, h3⟩ := BinarySource.getByte_reads h2
  rcases e3 : src2.getByte with ⟨b0b, src3⟩
  rw [e3] at hb2 h3
  obtain ⟨hb3, h4⟩ := BinarySource.getByte_reads h3
  rcases e4 : src3.getByte with ⟨b1b, src4⟩
  rw [e4] at hb3 h4
  obtain ⟨hd, h5⟩ := getMpSsh1_reads h hkey.privateExponent h4
  rcases e5 : getMpSsh1 W src4 with ⟨d, src5⟩
  rw [e5] at hd h5
  obtain ⟨-, h6⟩ := getMpSsh1_reads h hkey.iqmp h5
  rcases e6 : getMpSsh1 W src5 with ⟨iqmp, src6⟩
  rw [e6] at h6
  obtain ⟨hq, h7⟩ := getMpSsh1_reads h hkey.q h6
  rcases e7 : getMpSsh1 W src6 with ⟨q, src7⟩
  rw [e7] at hq h7
  obtain ⟨hp, -⟩ := getMpSsh1_reads h hkey.p h7
  rcases e8 : getMpSsh1 W src7 with ⟨p, src8⟩
  rw [e8] at hp
  dsimp only at hb0 hb1 hb2 hb3
  subst hb0 hb1 hb2 hb3
  refine ⟨d, iqmp, q, p, hd, hq, hp, ?_⟩
  unfold readSecret
  simp only [e1, e2, e3, e4, e5, e6, e7, e8, ne_eq, not_true_eq_false, or_self, if_false]

/-! ## The file that is saved -/

def cipherByte (passphrase : Option CString) : UInt8 := if passphrase.isSome then cipher3des else 0

theorem cipherByte_known (passphrase : Option CString) : cipherByte passphrase = 0 ∨ cipherByte passphrase = cipher3des := by
  cases passphrase with
  | none => exact Or.inl rfl
  | some pass => exact Or.inr rfl

/-- The secret part as it stands in the file. -/
def stored (c : FileCipher) (passphrase : Option CString) (secret : List UInt8) : List UInt8 :=
  match passphrase with
  | none => secret
  | some pass => c.encrypt (c.md5 pass.bytes) secret

theorem length_stored (c : FileCipher) (passphrase : Option CString) (secret : List UInt8) :
    (stored c passphrase secret).length = secret.length := by
  cases passphrase with
  | none => rfl
  | some pass => exact c.length_encrypt _ _

theorem rsaSsh1PublicBlob_wire {key : RSAKey W} (hm : mpGetNbits key.modulus < 0x10000) (he : mpGetNbits key.exponent < 0x10000) :
    rsaSsh1PublicBlob key .modulusFirst = some (put32BitMsbFirst (mpGetNbits key.modulus) ++ wire key.modulus ++ wire key.exponent) ∧
      rsaSsh1PublicBlob key .exponentFirst = some (put32BitMsbFirst (mpGetNbits key.modulus) ++ wire key.exponent ++ wire key.modulus) := by
  unfold rsaSsh1PublicBlob
  rw [putMpSsh1_wire hm, putMpSsh1_wire he]
  exact ⟨rfl, rfl⟩

theorem length_publicBytes {key : RSAKey W} (hkey : Writable key) (ct : UInt8) (comment : List UInt8) :
    (publicBytes ct key comment).length ≤ comment.length + 16402 := by
  have h1 := length_wire hkey.modulus
  have h2 := length_wire hkey.exponent
  have hfour : ∀ n, (put32BitMsbFirst n).length = 4 := fun _ => rfl
  simp only [publicBytes, putString, List.length_append, List.length_cons, hfour]
  omega

theorem savekey_eq (c : FileCipher) {key : RSAKey W} (hkey : Writable key) (passphrase : Option CString) (b₀ b₁ : UInt8)
    (hlen : (key.comment.getD []).length + 2 ^ 17 < 2 ^ 31) :
    ∃ secret pad, secret = secretBytes key b₀ b₁ ++ pad ∧ secret.length % 8 = 0 ∧ secret.length < 2 ^ 31 ∧
      rsaSsh1Savekey c key passphrase b₀ b₁ =
        some (signature ++ (publicBytes (cipherByte passphrase) key (key.comment.getD []) ++ stored c passphrase secret)) := by
  obtain ⟨pad, hsecret, hblocks, hpad⟩ := secretPart_eq hkey b₀ b₁
  have hshort := length_secretBytes hkey b₀ b₁
  refine ⟨_, pad, rfl, hblocks, by rw [List.length_append]; omega, ?_⟩
  have hpub := (rsaSsh1PublicBlob_wire hkey.modulus hkey.exponent).1
  unfold rsaSsh1Savekey
  rw [hpub, hsecret]
  simp only [Option.bind_eq_bind, Option.bind_some]
  rw [if_neg (by omega)]
  cases passphrase with
  | none => simp [publicBytes, cipherByte, stored]
  | some pass =>
    have hhead := length_publicBytes hkey cipher3des (key.comment.getD [])
    have hsize : (signature ++ publicBytes cipher3des key (key.comment.getD [])).length < 2 ^ 31 := by
      have hsig : signature.length = 32 := by decide +kernel
      rw [List.length_append, hsig]
      omega
    have hsame : signature ++ [0, cipher3des] ++ put32BitMsbFirst 0 ++
        (put32BitMsbFirst (mpGetNbits key.modulus) ++ wire key.modulus ++ wire key.exponent) ++ putString (key.comment.getD []) =
        signature ++ publicBytes cipher3des key (key.comment.getD []) := by simp [publicBytes]
    simp only [Option.isSome_some, if_true, hsame, if_pos hsize]
    simp [cipherByte, stored]

/-- What is decrypted is what was stored. -/
theorem decryptSecret_stored {c : FileCipher} {passphrase : Option CString} {secret : List UInt8} {part : PublicPart W}
    (hct : part.ciphertype = cipherByte passphrase) (hblocks : secret.length % 8 = 0) (hlen : secret.length < 2 ^ 31)
    (hsrc : part.src.Reads (stored c passphrase secret)) :
    ∃ src, decryptSecret c part passphrase = some (.ok src) ∧ src.Reads secret := by
  unfold decryptSecret
  cases passphrase with
  | none =>
    rw [if_pos (show part.ciphertype = 0 from hct)]
    exact ⟨_, rfl, hsrc⟩
  | some pass =>
    have hne : ¬part.ciphertype = 0 := by
      rw [hct]
      exact (by decide : ¬cipher3des = 0)
    have hremaining : part.src.remaining = secret.length := by
      rw [BinarySource.remaining, ← List.length_drop, hsrc.2, length_stored]
    rw [if_neg hne, hremaining]
    simp only [hblocks, ne_eq, not_true_eq_false, if_false, Option.bind_eq_bind, Option.bind_some, if_pos hlen]
    refine ⟨_, rfl, hsrc.1, ?_⟩
    show (c.decrypt (c.md5 pass.bytes) (part.src.data.drop part.src.pos)).drop 0 = secret
    rw [hsrc.2, List.drop_zero]
    exact c.inverts _ _ hblocks

/-! ## Keys compared -/

/-- The same numbers, whatever their words. -/
structure SameKey (a b : RSAKey W) : Prop where
  modulus : val a.modulus = val b.modulus
  exponent : val a.exponent = val b.exponent
  privateExponent : val a.privateExponent = val b.privateExponent
  p : val a.p = val b.p
  q : val a.q = val b.q
  iqmp : val a.iqmp = val b.iqmp

/-- What verification makes of a key. -/
theorem accepted_form {m : Modular W} {key new : RSAKey W} (haccept : rsaVerify m key = some (true, new)) (h : Supported W)
    (hp : key.p ≠ []) (hq : key.q ≠ []) :
    SameNumbers key new ∧ new.comment = key.comment ∧ val new.p = max (val key.p) (val key.q) ∧ val new.q = min (val key.p) (val key.q) := by
  obtain ⟨hp2, hq2⟩ := accepted_primes h hp hq haccept
  rw [rsaVerify_eq h hp2 hq2] at haccept
  obtain ⟨iqmp, -, hnew⟩ := Option.map_eq_some_iff.mp haccept
  obtain ⟨-, rfl⟩ := Prod.mk.inj hnew
  have hmax := val_mpMax key.p key.q
  have hmin := val_mpMin key.p key.q
  refine ⟨⟨rfl, rfl, rfl, ?_, ?_⟩, rfl, hmax, hmin⟩
  · show _ = max (val (mpMax key.p key.q)) (val (mpMin key.p key.q))
    omega
  · show _ = min (val (mpMax key.p key.q)) (val (mpMin key.p key.q))
    omega

/-- A key with the numbers of one that is accepted is loaded as verification leaves it. -/
theorem loadkey_saved (h : Supported W) (m : Modular W) (c : FileCipher) {key new saved : RSAKey W} (hp : key.p ≠ []) (hq : key.q ≠ [])
    (haccept : rsaVerify m key = some (true, new)) (hsame : SameNumbers key saved) (hwrite : Writable saved)
    {passphrase : Option CString} {b₀ b₁ : UInt8} {pad comment : List UInt8} (hnul : 0 ∉ comment) (hlen : comment.length < 2 ^ 32)
    (hblocks : (secretBytes saved b₀ b₁ ++ pad).length % 8 = 0) (hshort : (secretBytes saved b₀ b₁ ++ pad).length < 2 ^ 31) :
    ∃ loaded, rsaSsh1Loadkey m c (some (signature ++ (publicBytes (cipherByte passphrase) saved comment ++
        stored c passphrase (secretBytes saved b₀ b₁ ++ pad)))) passphrase = some (.ok loaded) ∧
      SameKey loaded new ∧ loaded.comment = some comment := by
  have hct := cipherByte_known passphrase
  obtain ⟨part, hpart, hreads⟩ := loadPublicPart_reads h hwrite.modulus hwrite.exponent hct hnul hlen
    (stored c passphrase (secretBytes saved b₀ b₁ ++ pad))
  obtain ⟨src, hdecrypt, hsecret⟩ := decryptSecret_stored hreads.ciphertype hblocks hshort hreads.src
  obtain ⟨d, iqmp, q, p, hd, hqv, hpv, hread⟩ := @readSecret_reads W h m saved hwrite b₀ b₁ pad part src hsecret
  have hnums : SameNumbers key ⟨part.bits.toNat, (mpGetNbits part.modulus + 7) / 8, part.modulus, part.exponent, d, p, q, iqmp,
      some part.comment⟩ := by
    refine ⟨?_, ?_, ?_, ?_, ?_⟩
    · exact hsame.modulus.trans hreads.modulus.symm
    · exact hsame.exponent.trans hreads.exponent.symm
    · exact hsame.privateExponent.trans hd.symm
    · show _ = max (val p) (val q)
      rw [hpv, hqv]
      exact hsame.larger
    · show _ = min (val p) (val q)
      rw [hpv, hqv]
      exact hsame.smaller
  obtain ⟨inverse, hinverse, hverify⟩ := rsaVerify_congr h hp hq haccept hnums
  obtain ⟨hkey, -, hlarger, hsmaller⟩ := accepted_form haccept h hp hq
  refine ⟨⟨part.bits.toNat, (mpGetNbits part.modulus + 7) / 8, part.modulus, part.exponent, d, mpMax p q, mpMin p q, inverse,
    some part.comment⟩, ?_, ?_, congrArg some hreads.comment⟩
  · unfold rsaSsh1Loadkey
    dsimp only
    rw [afterSignature_file]
    dsimp only
    rw [hpart]
    simp only [hdecrypt, Option.bind_eq_bind, Option.bind_some, hread, hverify, Option.map_some, if_true]
  · refine ⟨hnums.modulus.symm.trans hkey.modulus, hnums.exponent.symm.trans hkey.exponent,
      hnums.privateExponent.symm.trans hkey.privateExponent, ?_, ?_, hinverse⟩
    · show val (mpMax p q) = val new.p
      rw [val_mpMax, hlarger, hpv, hqv, hsame.larger]
    · show val (mpMin p q) = val new.q
      rw [val_mpMin, hsmaller, hpv, hqv, hsame.smaller]

/-! ## The public half -/

theorem putMpSsh1_congr (h : Supported W) {x y : Limbs W} (hv : val x = val y) : putMpSsh1 x = putMpSsh1 y := by
  unfold putMpSsh1
  dsimp only
  rw [nbits_congr h hv, putBytes_eq h x, putBytes_eq h y, hv]

theorem publicBlob_congr (h : Supported W) {a b : RSAKey W} (hm : val a.modulus = val b.modulus) (he : val a.exponent = val b.exponent) :
    rsaSsh1PublicBlob a .exponentFirst = rsaSsh1PublicBlob b .exponentFirst := by
  unfold rsaSsh1PublicBlob
  rw [nbits_congr h hm, putMpSsh1_congr h hm, putMpSsh1_congr h he]

/-- What is made of a file's public half, whatever its secret part. -/
theorem public_saved (h : Supported W) {saved : RSAKey W} (hm : mpGetNbits saved.modulus < 0x10000)
    (he : mpGetNbits saved.exponent < 0x10000) (passphrase : Option CString) {comment : List UInt8} (hnul : 0 ∉ comment)
    (hlen : comment.length < 2 ^ 32) (secret : List UInt8) {blob : List UInt8} (hblob : rsaSsh1PublicBlob saved .exponentFirst = some blob) :
    rsaSsh1Encrypted W (some (signature ++ (publicBytes (cipherByte passphrase) saved comment ++ secret))) =
        (passphrase.isSome, some comment) ∧
      rsaSsh1Loadpub W (some (signature ++ (publicBytes (cipherByte passphrase) saved comment ++ secret))) =
        some (.ok (blob, some comment)) := by
  obtain ⟨part, hpart, hreads⟩ := loadPublicPart_reads h hm he (cipherByte_known passphrase) hnul hlen secret
  have hcipher : decide (cipherByte passphrase ≠ 0) = passphrase.isSome := by cases passphrase <;> rfl
  have hsame : rsaSsh1PublicBlob ⟨0, 0, part.modulus, part.exponent, [], [], [], [], none⟩ .exponentFirst = some blob :=
    (publicBlob_congr h hreads.modulus hreads.exponent).trans hblob
  refine ⟨?_, ?_⟩
  · unfold rsaSsh1Encrypted
    rw [Option.bind_some, afterSignature_file, Option.bind_some, hpart]
    dsimp only
    rw [hreads.ciphertype, hreads.comment, hcipher]
  · unfold rsaSsh1Loadpub
    dsimp only
    rw [afterSignature_file]
    dsimp only
    rw [hpart]
    simp only [hsame, hreads.comment, Option.bind_eq_bind, Option.bind_some]

/-! ## The line -/

theorem digitsThenSpace_run {ds : List UInt8} (h : ∀ c ∈ ds, isdigit c = true) (rest : List UInt8) :
    digitsThenSpace (ds ++ SPACE :: rest) = some (ds, rest) := by
  have hspace : ¬isdigit SPACE = true := by decide
  rw [digitsThenSpace, List.dropWhile_append_of_pos h, List.dropWhile_cons_of_neg hspace, List.takeWhile_append_of_pos h,
    List.takeWhile_cons_of_neg hspace, List.append_nil]
  exact if_pos rfl

/-- What is behind the modulus: nothing, or a space and more. -/
def afterNumbers : Option (List UInt8) → List UInt8
  | none => []
  | some comment => SPACE :: comment

theorem splitPubkeyLine_run {bits e m : List UInt8} (hb : ∀ c ∈ bits, isdigit c = true) (he : ∀ c ∈ e, isdigit c = true)
    (hm : ∀ c ∈ m, isdigit c = true) (more : Option (List UInt8)) :
    splitPubkeyLine (bits ++ SPACE :: (e ++ SPACE :: (m ++ afterNumbers more))) = some (bits, e, m, more) := by
  unfold splitPubkeyLine
  simp only [digitsThenSpace_run hb, digitsThenSpace_run he, Option.bind_eq_bind, Option.bind_some]
  cases more with
  | none =>
    rw [afterNumbers, List.append_nil, List.dropWhile_eq_nil_iff.mpr hm, List.takeWhile_eq_self_iff.mpr hm]
  | some comment =>
    have hspace : ¬isdigit SPACE = true := by decide
    rw [afterNumbers, List.dropWhile_append_of_pos hm, List.dropWhile_cons_of_neg hspace, List.takeWhile_append_of_pos hm,
      List.takeWhile_cons_of_neg hspace, List.append_nil]
    exact if_pos rfl

/-- A number in decimal, and what it is read as. -/
structure DecimalOf (x : Limbs W) (dec : List UInt8) : Prop where
  written : mpGetDecimal x = some dec
  digits : ∀ c ∈ dec, isdigit c = true
  short : dec.length ≤ 32768
  read : ∃ y, mpFromDecimalPl W dec = some y ∧ val y = val x

theorem decimalOf (h : Supported W) {x : Limbs W} (hx : x ≠ []) (hlen : x.length < decimalLimit W) (hbits : mpGetNbits x < 0x10000) :
    ∃ dec, DecimalOf x dec := by
  obtain ⟨hget, -, ⟨y, hy, hval⟩, -⟩ := convertsExactly_of_lt h (List.length_pos_iff.mpr hx) hlen x rfl
  have hlt : val x < 10 ^ 32768 := by
    have hbound : ∀ n, mpGetNbits x ≤ 2 * n → val x < 10 ^ n := by
      intro n hn
      rw [mpGetNbits_eq h] at hn
      refine lt_of_lt_of_le ((Utils.mpGetNbits_le_iff _ _).mp hn) ?_
      rw [pow_mul]
      exact Nat.pow_le_pow_left (by decide) n
    exact hbound _ (by omega)
  have hchar : ∀ d < 10, isdigit (decimalChar d) = true := by decide
  refine ⟨_, hget, ?_, ?_, y, ?_, hval⟩
  · intro c hc
    obtain ⟨d, hd, rfl⟩ := List.mem_map.mp hc
    exact hchar d (numeral_lt (by decide) hd)
  · rw [List.length_map]
    exact length_numeral_le (by decide) (by decide) hlt
  · rwa [hget, Option.bind_some] at hy

theorem isdigit_plain {c : UInt8} (h : isdigit c = true) : c ≠ 0 ∧ c ≠ LF ∧ c ≠ Keys.CR :=
  ⟨(Keys.digit_plain h).1, (Keys.digit_plain h).2.1, (Keys.digit_plain h).2.2.1⟩

/-- A file that starts with a digit is no private key file. -/
theorem afterSignature_digit {c : UInt8} {fp : Stream} (h : isdigit c = true) : afterSignature (c :: fp) = none := by
  have hlf := (isdigit_plain h).2.1
  have hloop : Keys.fgetsLoop 63 (c :: fp) = (c :: (Keys.fgetsLoop 62 fp).1, (Keys.fgetsLoop 62 fp).2) := by
    rw [Keys.fgetsLoop, if_neg hlf]
  rw [afterSignature, fgets, if_neg (List.cons_ne_nil c fp), show 64 - 1 = 63 from rfl, hloop]
  dsimp only
  rw [if_neg]
  intro heq
  have hhead := congrArg List.head? heq
  have hc0 : (c != 0) = true := by simpa using (isdigit_plain h).1
  have hbytes : (cstr (c :: (Keys.fgetsLoop 62 fp).1)).bytes = c :: (Keys.fgetsLoop 62 fp).1.takeWhile (· != 0) :=
    List.takeWhile_cons_of_pos (p := fun x : UInt8 => x != 0) hc0
  rw [hbytes] at hhead
  obtain rfl : c = 83 := Option.some.inj hhead
  cases h

theorem length_decimal : ∀ (k n : Nat), n < 10 ^ (k + 1) → (decimal n).length ≤ k + 1
  | 0, n, h => by
    rw [decimal, if_pos (by omega)]
    exact Nat.le_refl 1
  | k + 1, n, h => by
    rw [decimal]
    split
    · exact Nat.le_add_left 1 _
    · have ih := length_decimal k (n / 10) (Nat.div_lt_of_lt_mul (by rw [Nat.mul_comm, ← Nat.pow_succ]; exact h))
      rw [List.length_append, List.length_singleton]
      omega

/-- The three numbers of the line. -/
def threeNumbers (bits e m : List UInt8) : List UInt8 := bits ++ SPACE :: (e ++ SPACE :: m)

/-- The numbers are in the first line, whatever line ends the comment has. -/
theorem numbers_in_line (p : Platform) {bits e m : List UInt8} (hb : ∀ c ∈ bits, isdigit c = true) (he : ∀ c ∈ e, isdigit c = true)
    (hm : ∀ c ∈ m, isdigit c = true) {comment : Option (List UInt8)} (hnul : 0 ∉ comment.getD [])
    (hlen : (threeNumbers bits e m ++ afterNumbers comment).length + 2 < 2 ^ 31) :
    ∃ more rest, nextLine (p.written (threeNumbers bits e m ++ afterNumbers comment ++ [LF])) =
      some (some (threeNumbers bits e m ++ afterNumbers more), rest) := by
  have hplain : ∀ c ∈ threeNumbers bits e m, c ≠ 0 ∧ c ≠ LF ∧ c ≠ Keys.CR := by
    intro c hc
    simp only [threeNumbers, List.mem_append, List.mem_cons] at hc
    rcases hc with hc | rfl | hc | rfl | hc
    · exact isdigit_plain (hb c hc)
    · decide
    · exact isdigit_plain (he c hc)
    · decide
    · exact isdigit_plain (hm c hc)
  have hlf : LF ∉ threeNumbers bits e m := fun h => (hplain LF h).2.1 rfl
  have h0 : 0 ∉ threeNumbers bits e m := fun h => (hplain 0 h).1 rfl
  cases comment with
  | none =>
    rw [afterNumbers, List.append_nil] at hlen ⊢
    have hwritten : p.written (threeNumbers bits e m ++ [LF]) = threeNumbers bits e m ++ p.newline ++ [] := by
      rw [Keys.written_append, Keys.written_unbroken hlf, Keys.written_newline, List.append_nil]
    refine ⟨none, [], ?_⟩
    rw [hwritten, Keys.nextLine_line [] (fun c hc => (hplain c hc).2) h0 hlen, afterNumbers, List.append_nil]
  | some comment =>
    have hclean : 0 ∉ threeNumbers bits e m ++ SPACE :: comment := by
      rw [List.mem_append, List.mem_cons]
      rintro (h | h | h)
      · exact h0 h
      · cases h
      · exact hnul h
    obtain ⟨more, rest, hline⟩ := Keys.nextLine_first (p := p) hlf (show SPACE ≠ Keys.CR ∧ SPACE ≠ LF by decide) hclean hlen
    exact ⟨some more, rest, hline⟩

/-- The line is read as the public key that it was written for. -/
theorem public_line (h : Supported W) (p : Platform) {saved : RSAKey W} (hm : mpGetNbits saved.modulus < 0x10000)
    (he : mpGetNbits saved.exponent < 0x10000) (hmne : saved.modulus ≠ []) (hene : saved.exponent ≠ [])
    (hmlen : saved.modulus.length < decimalLimit W) (helen : saved.exponent.length < decimalLimit W)
    (hnul : 0 ∉ saved.comment.getD []) (hlen : (saved.comment.getD []).length + 2 ^ 17 < 2 ^ 31) {blob : List UInt8}
    (hblob : rsaSsh1PublicBlob saved .exponentFirst = some blob) :
    ∃ file comment, ssh1WritePubkey p saved = some file ∧ rsaSsh1Loadpub W (some file) = some (.ok (blob, comment)) := by
  obtain ⟨dm, hdm⟩ := decimalOf h hmne hmlen hm
  obtain ⟨de, hde⟩ := decimalOf h hene helen he
  have hblen := length_decimal 4 (mpGetNbits saved.modulus) (lt_trans hm (by decide))
  have hbdigits := Keys.decimal_digits (mpGetNbits saved.modulus)
  have hbvalue := Keys.digitsValue_decimal (mpGetNbits saved.modulus)
  have hbne := Keys.decimal_ne_nil (mpGetNbits saved.modulus)
  have hwrite : ssh1WritePubkey p saved =
      some (p.written (threeNumbers (decimal (mpGetNbits saved.modulus)) de dm ++ afterNumbers saved.comment ++ [LF])) := by
    unfold ssh1WritePubkey ssh1PubkeyStr
    rw [hde.written, hdm.written]
    cases saved.comment <;> simp [threeNumbers, afterNumbers]
  generalize decimal (mpGetNbits saved.modulus) = bits at hblen hbdigits hbvalue hbne hwrite
  have htotal : (threeNumbers bits de dm ++ afterNumbers saved.comment).length + 2 < 2 ^ 31 := by
    have hde' := hde.short
    have hdm' := hdm.short
    have hafter : (afterNumbers saved.comment).length ≤ (saved.comment.getD []).length + 1 := by
      cases saved.comment with
      | none => exact Nat.zero_le _
      | some comment => exact Nat.le_refl _
    simp only [threeNumbers, List.length_append, List.length_cons]
    omega
  obtain ⟨more, rest, hline⟩ := numbers_in_line p hbdigits hde.digits hdm.digits hnul htotal
  refine ⟨_, more, hwrite, ?_⟩
  -- the file starts with a digit
  have hpublic : afterSignature (p.written (threeNumbers bits de dm ++ afterNumbers saved.comment ++ [LF])) = none := by
    obtain ⟨c, bits', rfl⟩ := List.exists_cons_of_ne_nil hbne
    have hc := hbdigits c List.mem_cons_self
    have hfirst : p.fputc c = [c] := if_neg (isdigit_plain hc).2.1
    show afterSignature (p.written (c :: _)) = none
    rw [Platform.written, List.flatMap_cons, hfirst]
    exact afterSignature_digit hc
  obtain ⟨m', hm', hmval⟩ := hdm.read
  obtain ⟨e', he', heval⟩ := hde.read
  have hsame : rsaSsh1PublicBlob ⟨0, 0, m', e', [], [], [], [], none⟩ .exponentFirst = some blob :=
    (publicBlob_congr h hmval heval).trans hblob
  have hsplit : splitPubkeyLine (threeNumbers bits de dm ++ afterNumbers more) = some (bits, de, dm, more) := by
    have hrun := splitPubkeyLine_run hbdigits hde.digits hdm.digits more
    simpa [threeNumbers] using hrun
  unfold rsaSsh1Loadpub
  dsimp only
  rw [hpublic]
  simp only [hline, Option.bind_eq_bind, Option.bind_some, hsplit, hm', he', hbvalue, nbits_congr h hmval, hsame, ne_eq,
    not_true_eq_false, if_false]
  rw [if_neg (by omega)]

/-! ## The round trip -/

/-- What the loaders make of the file that is saved of a key, and of its line. -/
structure ComesBack (m : Modular W) (c : FileCipher) (saved new : RSAKey W) (passphrase : Option CString) (b₀ b₁ : UInt8) (file : Stream)
    (blob : List UInt8) : Prop where
  savekey : rsaSsh1Savekey c saved passphrase b₀ b₁ = some file
  publicBlob : rsaSsh1PublicBlob saved .exponentFirst = some blob
  loadkey : ∃ loaded, rsaSsh1Loadkey m c (some file) passphrase = some (.ok loaded) ∧ SameKey loaded new ∧
    loaded.comment = some (saved.comment.getD [])
  encrypted : rsaSsh1Encrypted W (some file) = (passphrase.isSome, some (saved.comment.getD []))
  loadpub : rsaSsh1Loadpub W (some file) = some (.ok (blob, some (saved.comment.getD [])))
  line : saved.modulus.length < decimalLimit W → saved.exponent.length < decimalLimit W → ∀ p : Platform,
    ∃ line comment, ssh1WritePubkey p saved = some line ∧ rsaSsh1Loadpub W (some line) = some (.ok (blob, comment))

/-- A key that verification accepts, saved as it was or as verification left it, comes back
    as verification left it. -/
theorem key_file_round_trip (h : Supported W) (m : Modular W) (c : FileCipher) {key new saved : RSAKey W}
    (hp : key.p ≠ []) (hq : key.q ≠ []) (haccept : rsaVerify m key = some (true, new)) (hsaved : saved = key ∨ saved = new)
    (hwrite : Writable saved) (passphrase : Option CString) (b₀ b₁ : UInt8) (hnul : 0 ∉ saved.comment.getD [])
    (hlen : (saved.comment.getD []).length + 2 ^ 17 < 2 ^ 31) :
    ∃ file blob, ComesBack m c saved new passphrase b₀ b₁ file blob := by
  have hform := (accepted_form haccept h hp hq).1
  have hsame : SameNumbers key saved := by
    rcases hsaved with rfl | rfl
    · exact ⟨rfl, rfl, rfl, rfl, rfl⟩
    · exact hform
  obtain ⟨hp2, hq2⟩ := accepted_primes h hp hq haccept
  rw [rsaVerify_eq h hp2 hq2] at haccept
  obtain ⟨iqmp, -, hnew⟩ := Option.map_eq_some_iff.mp haccept
  obtain ⟨hproduct, hedp, -⟩ := of_decide_eq_true (congrArg Prod.fst hnew)
  rw [← rsaVerify_eq h hp2 hq2] at haccept
  have hmne : saved.modulus ≠ [] := fun hnil => by
    have hzero := hsame.modulus
    rw [hnil, val_nil, ← hproduct] at hzero
    have := Nat.mul_pos (show 0 < val key.p by omega) (show 0 < val key.q by omega)
    omega
  have hene : saved.exponent ≠ [] := fun hnil => by
    rw [hsame.exponent, hnil, val_nil, Nat.zero_mul, Nat.zero_mod] at hedp
    cases hedp
  obtain ⟨secret, pad, rfl, hblocks, hshort, hsave⟩ := savekey_eq c hwrite passphrase b₀ b₁ hlen
  have hblob := (rsaSsh1PublicBlob_wire hwrite.modulus hwrite.exponent).2
  obtain ⟨hencrypted, hpublic⟩ := public_saved h hwrite.modulus hwrite.exponent passphrase hnul (by omega)
    (stored c passphrase (secretBytes saved b₀ b₁ ++ pad)) hblob
  exact ⟨_, _, hsave, hblob, loadkey_saved h m c hp hq haccept hsame hwrite hnul (by omega) hblocks hshort, hencrypted, hpublic,
    fun hm he p => public_line h p hwrite.modulus hwrite.exponent hmne hene hm he hnul hlen hblob⟩

/-- A cipher that turns every bit. -/
def turnBits : FileCipher where
  md5 := fun pass => pass
  encrypt := fun _ data => data.map (· ^^^ 255)
  decrypt := fun _ data => data.map (· ^^^ 255)
  length_encrypt := by simp
  inverts := by
    intro key data _
    rw [List.map_map]
    refine (List.map_congr_left fun b _ => ?_).trans (List.map_id data)
    show b ^^^ 255 ^^^ 255 = b
    rw [UInt8.xor_assoc, UInt8.xor_self, UInt8.xor_zero]

theorem key15_file : ∃ new file blob, rsaVerify (numbers 16) key15 = some (true, new) ∧
    ComesBack (numbers 16) turnBits key15 new (some ⟨text "pass", by decide⟩) 7 8 file blob := by
  have haccept : (rsaVerify (numbers 16) key15).map Prod.fst = some true := by decide +kernel
  obtain ⟨⟨ok, new⟩, hverify, rfl⟩ := Option.map_eq_some_iff.mp haccept
  obtain ⟨file, blob, hback⟩ := key_file_round_trip (Or.inl rfl) (numbers 16) turnBits (by decide) (by decide) hverify (Or.inl rfl)
    ⟨by decide, by decide, by decide, by decide, by decide, by decide⟩ (some ⟨text "pass", by decide⟩) 7 8 (by decide) (by decide)
  exact ⟨new, file, blob, hverify, hback⟩

/-- The primes 5 and 3, with a private exponent of 65537 bits. -/
def keyWide : RSAKey 64 := ⟨4, 1, [15], [3], 3 :: (List.replicate 1023 0 ++ [1]), [5], [3], [2], none⟩

/-- It is accepted, but cannot be saved. -/
theorem wide_exponent_not_saved :
    ¬ ∀ (m : Modular 64) (c : FileCipher) (key new : RSAKey 64) (passphrase : Option CString) (b₀ b₁ : UInt8), key.p ≠ [] → key.q ≠ [] →
      rsaVerify m key = some (true, new) →
      ∃ file, rsaSsh1Savekey c new passphrase b₀ b₁ = some file ∧
        ∃ loaded, rsaSsh1Loadkey m c (some file) passphrase = some (.ok loaded) ∧ SameKey loaded new := by
  intro hclaim
  have hverify := @rsaVerify_eq 64 (numbers 64) (Or.inr (Or.inr rfl)) keyWide (by decide) (by decide)
  obtain ⟨v, -, hinvert, -⟩ := @mpInvert_congr 64 (by decide) (mpMin keyWide.p keyWide.q) (mpMin keyWide.p keyWide.q)
    (mpMax keyWide.p keyWide.q) (mpMax keyWide.p keyWide.q) rfl rfl (by decide +kernel)
  rw [hinvert, Option.map_some, decide_eq_true (by decide +kernel)] at hverify
  obtain ⟨file, hfile, -⟩ := hclaim (numbers 64) turnBits keyWide _ none 0 0 (by decide) (by decide) hverify
  have hwide : putMpSsh1 keyWide.privateExponent = none := by
    refine putMpSsh1_wide fun hlt => ?_
    rw [mpGetNbits_eq (Or.inr (Or.inr rfl))] at hlt
    have hsmall := (Utils.mpGetNbits_le_iff (val keyWide.privateExponent) 65535).mp (by omega)
    exact absurd hsmall (by decide +kernel)
  have hnone : ∀ key : RSAKey 64, key.privateExponent = keyWide.privateExponent → rsaSsh1Savekey turnBits key none 0 0 ≠ some file := by
    intro key hkey hsave
    unfold rsaSsh1Savekey secretPart at hsave
    rw [hkey, hwide] at hsave
    obtain ⟨pub, -, hsave⟩ := Option.bind_eq_some_iff.mp hsave
    dsimp only at hsave
    split at hsave <;> cases hsave
  refine hnone _ ?_ hfile
  rfl

end Putty.Rsa
