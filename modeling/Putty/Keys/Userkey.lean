/-
  Putty.Keys.Userkey — saving a key and loading it again (`sshpubk.c`).

  A saved key comes back, and its public half without the passphrase, if and only if the reader
  counts the lines of both blobs (`userkey_round_trip_iff`). MAX_KEY_BLOB_LINES is rounded down and
  userkey_parse_line_counter wants less than it, so the largest blobs below MAX_KEY_BLOB_SIZE are
  written but not read (`largest_blob_is_not_read`). Whatever file a load accepts, its MAC is that
  of its own fields (`load_checks_mac`).
-/

import Putty.Keys.RoundTrip

namespace Putty.Keys

open Putty.Utils

variable {prim : Primitives} {p : Platform} {K : Type} {kc : KeyClass K}

/-! ## The padding -/

theorem paddedPrivate_length (cipher : Cipher) (blob : Bytes) :
    (paddedPrivate prim cipher blob).length = blob.length + cipher.blk - 1 - (blob.length + cipher.blk - 1) % cipher.blk := by
  have hsha := prim.sha1_length blob
  simp only [paddedPrivate, List.length_append, List.length_take, hsha]
  cases cipher
  · simp only [Cipher.blk]
    omega
  · simp only [Cipher.blk]
    omega

/-- The padded blob is the blob and less than a block more. -/
theorem paddedPrivate_eq (cipher : Cipher) (blob : Bytes) :
    ∃ pad, pad.length < 16 ∧ paddedPrivate prim cipher blob = blob ++ pad := by
  refine ⟨_, ?_, rfl⟩
  have hlen : (paddedPrivate prim cipher blob).length = _ := paddedPrivate_length cipher blob
  rw [paddedPrivate, List.length_append] at hlen
  cases cipher
  · simp only [Cipher.blk] at hlen ⊢
    omega
  · simp only [Cipher.blk] at hlen ⊢
    omega

theorem encrypted_length (passphrase : Option CString) (padded : Bytes) :
    (encryptedPrivate prim passphrase padded).length = padded.length := by
  cases passphrase with
  | none => rfl
  | some pass => exact prim.aes256_length _ _

/-! ## Opening what was saved -/

theorem hexByte_plain (b : UInt8) : OneLine (hexByte b) ∧ 0 ∉ hexByte b := by
  have hn : ∀ n < 256, OneLine (hexByte (UInt8.ofNat n)) ∧ 0 ∉ hexByte (UInt8.ofNat n) := by decide +kernel
  have hb := hn b.toNat b.toNat_lt
  rwa [UInt8.ofNat_toNat] at hb

theorem hex_plain (mac : Bytes) : OneLine (mac.flatMap hexByte) ∧ 0 ∉ mac.flatMap hexByte := by
  constructor
  · intro c hc
    obtain ⟨b, -, hcb⟩ := List.mem_flatMap.mp hc
    exact (hexByte_plain b).1 c hcb
  · intro hc
    obtain ⟨b, -, hcb⟩ := List.mem_flatMap.mp hc
    exact (hexByte_plain b).2 hcb

def savedPrivate (prim : Primitives) (kc : KeyClass K) (key : Userkey K) (passphrase : Option CString) : Bytes :=
  paddedPrivate prim (cipherFor passphrase) (kc.privateBlob key.key)

/-- The MAC of a saved key, as it is printed. -/
def savedMac (prim : Primitives) (kc : KeyClass K) (key : Userkey K) (passphrase : Option CString) : Bytes :=
  (prim.hmacSha1 (macKey prim passphrase) (macData (kc.alg key.key) (cipherFor passphrase) key.comment
    (kc.publicBlob key.key) (savedPrivate prim kc key passphrase))).flatMap hexByte

/-- The fields of the file that a key is saved in. -/
def savedFields (prim : Primitives) (kc : KeyClass K) (key : Userkey K) (passphrase : Option CString) : Fields where
  oldFmt := false
  alg := kc.alg key.key
  cipher := cipherFor passphrase
  comment := key.comment
  publicBlob := kc.publicBlob key.key
  privateBlob := encryptedPrivate prim passphrase (savedPrivate prim kc key passphrase)
  isMac := true
  mac := cstr (savedMac prim kc key passphrase)

theorem saveUserkey_eq (key : Userkey K) (passphrase : Option CString) :
    saveUserkey prim p kc key passphrase = p.written (fieldsText (kc.alg key.key) (cipherFor passphrase) key.comment.bytes
      (kc.publicBlob key.key) (encryptedPrivate prim passphrase (savedPrivate prim kc key passphrase))
      (savedMac prim kc key passphrase)) := by
  simp only [saveUserkey, userkeyText, fieldsText, savedMac, savedPrivate, encrypted_length]

theorem plainPrivate_saved (key : Userkey K) (passphrase : Option CString) :
    plainPrivate prim (savedFields prim kc key passphrase) passphrase = .ok (savedPrivate prim kc key passphrase) := by
  cases passphrase with
  | none => rfl
  | some pass =>
    have hlen : (savedPrivate prim kc key (some pass)).length = _ := paddedPrivate_length .aes256cbc _
    have hblk : (savedPrivate prim kc key (some pass)).length % 16 = 0 := by
      simp only [Cipher.blk] at hlen
      omega
    have henc : ¬ (prim.aes256Encrypt (ppkDerivekey prim pass) (savedPrivate prim kc key (some pass))).length %
        Cipher.aes256cbc.blk ≠ 0 := by
      rw [prim.aes256_length]
      exact not_not.mpr hblk
    have hinv := prim.aes256_inverts (ppkDerivekey prim pass) _ hblk
    exact (if_neg henc).trans (congrArg Except.ok hinv)

theorem savedMac_bytes (key : Userkey K) (passphrase : Option CString) :
    (cstr (savedMac prim kc key passphrase)).bytes = savedMac prim kc key passphrase := cstr_bytes (hex_plain _).2

theorem expectedMac_saved (key : Userkey K) (passphrase : Option CString) :
    expectedMac prim (savedFields prim kc key passphrase) passphrase (savedPrivate prim kc key passphrase) =
      (savedFields prim kc key passphrase).mac.bytes := by
  refine Eq.trans ?_ (savedMac_bytes key passphrase).symm
  cases passphrase <;> rfl

/-- The key that was saved, from the fields that were. -/
theorem open_saved (key : Userkey K) (passphrase : Option CString) :
    ∃ key', openUserkey prim kc (savedFields prim kc key passphrase) passphrase = .ok ⟨key', key.comment⟩ ∧
      kc.publicBlob key' = kc.publicBlob key.key ∧ kc.privateBlob key' = kc.privateBlob key.key := by
  obtain ⟨pad, hpad, hpadded⟩ : ∃ pad, pad.length < 16 ∧ savedPrivate prim kc key passphrase = kc.privateBlob key.key ++ pad :=
    paddedPrivate_eq _ _
  obtain ⟨key', hnew, hpub, hpriv⟩ := kc.rebuilds key.key pad hpad
  rw [← hpadded] at hnew
  have hnew : kc.newPriv (savedFields prim kc key passphrase).alg (savedFields prim kc key passphrase).publicBlob
      (savedPrivate prim kc key passphrase) = some key' := hnew
  refine ⟨key', ?_, hpub, hpriv⟩
  rw [openUserkey, plainPrivate_saved, ok_bind, expectedMac_saved, if_neg (not_not.mpr rfl), hnew]
  rfl

/-- The file that a key is saved in holds its fields, if both blobs fit; else it cannot be read. -/
theorem parse_saved {key : Userkey K} {passphrase : Option CString} (hc : OneLine key.comment.bytes)
    (hpub : Fits p (kc.publicBlob key.key)) (hpriv : Fits p (encryptedPrivate prim passphrase (savedPrivate prim kc key passphrase))) :
    parseUserkey p (saveUserkey prim p kc key passphrase) = .ok (savedFields prim kc key passphrase) := by
  have hmac : OneLine (savedMac prim kc key passphrase) := (hex_plain _).1
  rw [saveUserkey_eq, parse_written hc hmac hpub hpriv, cstr_self]
  rfl

theorem load_saved {key : Userkey K} {passphrase : Option CString} (hc : OneLine key.comment.bytes)
    (hpub : Fits p (kc.publicBlob key.key)) (hpriv : Fits p (encryptedPrivate prim passphrase (savedPrivate prim kc key passphrase))) :
    loadUserkey prim p kc (some (saveUserkey prim p kc key passphrase)) passphrase =
      openUserkey prim kc (savedFields prim kc key passphrase) passphrase := by
  rw [loadUserkey, parse_saved hc hpub hpriv, ok_bind]

theorem load_unfit {key : Userkey K} {passphrase : Option CString} (hc : OneLine key.comment.bytes)
    (h : ¬ (Fits p (kc.publicBlob key.key) ∧ Fits p (encryptedPrivate prim passphrase (savedPrivate prim kc key passphrase)))) :
    loadUserkey prim p kc (some (saveUserkey prim p kc key passphrase)) passphrase = .error .fileFormat := by
  have hmac : OneLine (savedMac prim kc key passphrase) := (hex_plain _).1
  rw [saveUserkey_eq, loadUserkey, parse_unfit hc hmac h, error_bind]

/-! ## What a load has checked -/

/-- The fields that a load got from the file, and the private blob, decrypted. -/
structure Loaded (prim : Primitives) (kc : KeyClass K) (f : Fields) (passphrase : Option CString) (uk : Userkey K) where
  plain : Bytes
  decrypted : plainPrivate prim f passphrase = .ok plain
  mac : f.mac.bytes = expectedMac prim f passphrase plain
  key : kc.newPriv f.alg f.publicBlob plain = some uk.key
  comment : uk.comment = f.comment

theorem open_ok {f : Fields} {passphrase : Option CString} {uk : Userkey K}
    (h : openUserkey prim kc f passphrase = .ok uk) : Nonempty (Loaded prim kc f passphrase uk) := by
  unfold openUserkey at h
  cases hplain : plainPrivate prim f passphrase with
  | error e =>
    rw [hplain, error_bind] at h
    cases h
  | ok plain =>
    rw [hplain, ok_bind] at h
    by_cases hmac : f.mac.bytes = expectedMac prim f passphrase plain
    · rw [if_neg (not_not.mpr hmac)] at h
      cases hnew : kc.newPriv f.alg f.publicBlob plain with
      | none =>
        rw [hnew] at h
        cases h
      | some key =>
        rw [hnew] at h
        cases h
        exact ⟨⟨plain, hplain, hmac, hnew, rfl⟩⟩
    · rw [if_pos hmac] at h
      cases h

theorem readMac_mac {fp : Stream} {mac : CString} {isMac : Bool} (h : readMac false fp = .ok (isMac, mac)) : isMac = true := by
  unfold readMac at h
  split at h
  · cases h
  · split at h
    · cases h
      rfl
    · rw [if_neg (fun hold => Bool.false_ne_true hold.2)] at h
      cases h

theorem bind_ok {ε α β : Type} {x : Except ε α} {f : α → Except ε β} {b : β} (h : (x >>= f) = .ok b) :
    ∃ a, x = .ok a ∧ f a = .ok b := by
  cases x with
  | error e => cases h
  | ok a => exact ⟨a, rfl, h⟩

/-- A file of the present format holds a MAC. -/
theorem parse_mac {fp : Stream} {f : Fields} (h : parseUserkey p fp = .ok f) (hnew : f.oldFmt = false) : f.isMac = true := by
  obtain ⟨⟨oldFmt, fp₁⟩, -, h⟩ := bind_ok h
  obtain ⟨⟨alg, fp₂⟩, -, h⟩ := bind_ok h
  obtain ⟨⟨cipher, fp₃⟩, -, h⟩ := bind_ok h
  obtain ⟨fp₄, -, h⟩ := bind_ok h
  obtain ⟨⟨publicBlob, fp₅⟩, -, h⟩ := bind_ok h
  obtain ⟨⟨privateBlob, fp₆⟩, -, h⟩ := bind_ok h
  obtain ⟨⟨isMac, mac⟩, hread, h⟩ := bind_ok h
  cases h
  cases hnew
  exact readMac_mac hread

/-- The passphrase as the MAC takes it: not at all on a key that is not encrypted. -/
def macPassphrase (f : Fields) (passphrase : Option CString) : Option CString :=
  match f.cipher with
  | .aes256cbc => passphrase
  | .none => none

/-- Whatever the file and the passphrase, a load that succeeds has found the MAC of the file's own
    fields in the file, and the key is the one that these fields hold. -/
theorem load_checks_mac {fp : Stream} {passphrase : Option CString} {uk : Userkey K}
    (h : loadUserkey prim p kc (some fp) passphrase = .ok uk) : ∃ f plain, parseUserkey p fp = .ok f ∧
      plainPrivate prim f passphrase = .ok plain ∧ kc.newPriv f.alg f.publicBlob plain = some uk.key ∧ uk.comment = f.comment ∧
      (f.oldFmt = false → f.mac.bytes = (prim.hmacSha1 (macKey prim (macPassphrase f passphrase))
        (macData f.alg f.cipher f.comment f.publicBlob plain)).flatMap hexByte) := by
  obtain ⟨f, hparse, hopen⟩ := bind_ok h
  obtain ⟨l⟩ := open_ok hopen
  refine ⟨f, l.plain, hparse, l.decrypted, l.key, l.comment, fun hnew => ?_⟩
  have hmac := l.mac
  rw [expectedMac, hnew, parse_mac hparse hnew] at hmac
  exact hmac

/-! ## The round trip -/

/-- What the key file is for: the key and its comment come back, the public half without the passphrase;
    and no file whatever loads unless it holds the MAC of its own fields under the passphrase. -/
structure RoundTrips (prim : Primitives) (p : Platform) (kc : KeyClass K) (key : Userkey K) (passphrase : Option CString) :
    Prop where
  load : ∃ key', loadUserkey prim p kc (some (saveUserkey prim p kc key passphrase)) passphrase = .ok ⟨key', key.comment⟩ ∧
    kc.publicBlob key' = kc.publicBlob key.key ∧ kc.privateBlob key' = kc.privateBlob key.key
  loadpub : ∀ rfc4716Loadpub opensshLoadpub,
    userkeyLoadpub p rfc4716Loadpub opensshLoadpub (some (saveUserkey prim p kc key passphrase)) =
      .ok { algorithm := (kc.alg key.key).sshId, blob := kc.publicBlob key.key, comment := key.comment }
  guarded : ∀ fp passphrase' uk, loadUserkey prim p kc (some fp) passphrase' = .ok uk → ∃ f plain,
    parseUserkey p fp = .ok f ∧ plainPrivate prim f passphrase' = .ok plain ∧
    kc.newPriv f.alg f.publicBlob plain = some uk.key ∧ uk.comment = f.comment ∧
    (f.oldFmt = false → f.mac.bytes = (prim.hmacSha1 (macKey prim (macPassphrase f passphrase'))
      (macData f.alg f.cipher f.comment f.publicBlob plain)).flatMap hexByte)

/-- The most bytes that one line less than MAX_KEY_BLOB_LINES lines hold. -/
def LARGEST_READABLE_BLOB : Nat := 48 * (MAX_KEY_BLOB_LINES - 1)

/-- Both blobs are of a length that is read back. -/
def Readable (p : Platform) (kc : KeyClass K) (key : Userkey K) : Prop :=
  (kc.publicBlob key.key).length ≤ LARGEST_READABLE_BLOB ∧ (kc.privateBlob key.key).length ≤ LARGEST_READABLE_BLOB ∧
    (p = .windows → kc.publicBlob key.key ≠ [] ∧ kc.privateBlob key.key ≠ [])

theorem fits_iff (data : Bytes) : Fits p data ↔ data.length ≤ LARGEST_READABLE_BLOB ∧ (p = .windows → data ≠ []) := by
  have hlines : base64Lines data.length < MAX_KEY_BLOB_LINES ↔ data.length ≤ LARGEST_READABLE_BLOB := by
    simp only [base64Lines, LARGEST_READABLE_BLOB, MAX_KEY_BLOB_LINES, MAX_KEY_BLOB_SIZE]
    omega
  rw [Fits, hlines]

/-- The padding to a whole block does not cross the limit, which is a multiple of the block. -/
theorem fits_encrypted_iff (key : Userkey K) (passphrase : Option CString) :
    Fits p (encryptedPrivate prim passphrase (savedPrivate prim kc key passphrase)) ↔
      (kc.privateBlob key.key).length ≤ LARGEST_READABLE_BLOB ∧ (p = .windows → kc.privateBlob key.key ≠ []) := by
  have hlen : (encryptedPrivate prim passphrase (savedPrivate prim kc key passphrase)).length = _ :=
    (encrypted_length passphrase _).trans (paddedPrivate_length (cipherFor passphrase) _)
  have hround : (encryptedPrivate prim passphrase (savedPrivate prim kc key passphrase)).length ≤ LARGEST_READABLE_BLOB ↔
      (kc.privateBlob key.key).length ≤ LARGEST_READABLE_BLOB := by
    rw [hlen]
    simp only [LARGEST_READABLE_BLOB, MAX_KEY_BLOB_LINES, MAX_KEY_BLOB_SIZE]
    cases cipherFor passphrase
    · simp only [Cipher.blk]
      omega
    · simp only [Cipher.blk]
      omega
  have hempty : encryptedPrivate prim passphrase (savedPrivate prim kc key passphrase) ≠ [] ↔ kc.privateBlob key.key ≠ [] := by
    rw [← List.length_pos_iff, ← List.length_pos_iff, hlen]
    cases cipherFor passphrase
    · simp only [Cipher.blk]
      omega
    · simp only [Cipher.blk]
      omega
  rw [fits_iff, hround, hempty]

theorem readable_iff (key : Userkey K) (passphrase : Option CString) :
    Readable p kc key ↔ Fits p (kc.publicBlob key.key) ∧
      Fits p (encryptedPrivate prim passphrase (savedPrivate prim kc key passphrase)) := by
  rw [fits_iff, fits_encrypted_iff, Readable]
  exact ⟨fun ⟨h₁, h₂, h₃⟩ => ⟨⟨h₁, fun hp => (h₃ hp).1⟩, h₂, fun hp => (h₃ hp).2⟩,
    fun ⟨⟨h₁, h₃⟩, h₂, h₄⟩ => ⟨h₁, h₂, fun hp => ⟨h₃ hp, h₄ hp⟩⟩⟩

theorem RoundTrips.readable {key : Userkey K} {passphrase : Option CString} (hc : OneLine key.comment.bytes)
    (h : RoundTrips prim p kc key passphrase) : Readable p kc key := by
  rw [readable_iff key passphrase]
  by_contra hunfit
  obtain ⟨key', hload, -⟩ := h.load
  rw [load_unfit hc hunfit] at hload
  cases hload

/-- A key is read back as it was saved if and only if both of its blobs are readable. -/
theorem userkey_round_trip_iff (prim : Primitives) (p : Platform) (kc : KeyClass K) (key : Userkey K)
    (passphrase : Option CString) (hc : OneLine key.comment.bytes) :
    RoundTrips prim p kc key passphrase ↔ Readable p kc key := by
  constructor
  · intro h
    exact h.readable hc
  · intro h
    obtain ⟨hfit₁, hfit₂⟩ := (readable_iff key passphrase).mp h
    obtain ⟨key', hopen, hsame⟩ : ∃ key', openUserkey prim kc _ passphrase = .ok ⟨key', key.comment⟩ ∧ _ := open_saved key passphrase
    refine ⟨⟨key', ?_, hsame⟩, fun _ _ => ?_, fun fp passphrase' uk h => load_checks_mac h⟩
    · rw [load_saved hc hfit₁ hfit₂, hopen]
    · have hmac : OneLine (savedMac prim kc key passphrase) := (hex_plain _).1
      rw [saveUserkey_eq, loadpub_written _ hc hmac hfit₁, cstr_self]

/-! ## Keys of strings -/

/-- The integers of a private blob, each a string. -/
def Alg.privateStrings : Alg → Nat
  | sshRsa => 4
  | _ => 1

def getStrings : Nat → BinarySource → List Bytes
  | 0, _ => []
  | n + 1, src => src.getString.1 :: getStrings n src.getString.2

/-- A key by its public blob and the strings of its private blob. -/
structure StringsKey where
  alg : Alg
  publicBlob : Bytes
  secrets : List Bytes
  count : secrets.length = alg.privateStrings
  short : ∀ s ∈ secrets, s.length < 2 ^ 32

theorem getStrings_reads (pad : Bytes) : ∀ (secrets : List Bytes), (∀ s ∈ secrets, s.length < 2 ^ 32) → ∀ src : BinarySource,
    src.Reads (secrets.flatMap putString ++ pad) → getStrings secrets.length src = secrets
  | [], _, _, _ => rfl
  | s :: secrets, hs, src, hr => by
    rw [List.flatMap_cons, List.append_assoc] at hr
    obtain ⟨h₁, h₂⟩ := BinarySource.getString_reads (hs s List.mem_cons_self) hr
    have hrest := getStrings_reads pad secrets (fun t ht => hs t (List.mem_cons_of_mem _ ht)) _ h₂
    rw [List.length_cons, getStrings, h₁, hrest]

def stringsClass : KeyClass StringsKey where
  alg key := key.alg
  publicBlob key := key.publicBlob
  privateBlob key := key.secrets.flatMap putString
  newPriv alg publicBlob privateBlob :=
    let secrets := getStrings alg.privateStrings (.ofData privateBlob)
    if h : secrets.length = alg.privateStrings ∧ ∀ s ∈ secrets, s.length < 2 ^ 32 then
      some ⟨alg, publicBlob, secrets, h.1, h.2⟩
    else none
  rebuilds key pad _ := by
    have hread := getStrings_reads pad key.secrets key.short _ (BinarySource.ofData_reads _)
    rw [key.count] at hread
    refine ⟨key, ?_, rfl, rfl⟩
    simp only [hread]
    exact dif_pos ⟨key.count, key.short⟩

/-- What the primitives give where the key below is saved and loaded. -/
def ed25519Primitives : Primitives where
  sha1 _ := [0x1, 0x25, 0x63, 0x62, 0xc0, 0x1d, 0xdc, 0xcc, 0x2d, 0x94, 0xd0, 0x36, 0x7f, 0xf2, 0x86, 0x26, 0x5c, 0x4d, 0x8e, 0x88]
  hmacSha1 _ _ := [0xc4, 0xe6, 0xfa, 0xbf, 0x6d, 0x25, 0x4a, 0xd2, 0x73, 0xea, 0x42, 0xba, 0xac, 0xb7, 0x6d, 0x80, 0x2b, 0xd8, 0x8a, 0xec]
  aes256Encrypt _ data := data
  aes256Decrypt _ data := data
  sha1_length _ := rfl
  aes256_length _ _ := rfl
  aes256_inverts _ _ _ := rfl

def ed25519Key : Userkey StringsKey where
  key :=
    { alg := .ed25519
      publicBlob := putString (text "ssh-ed25519") ++ putString [0xd7, 0x5a, 0x98, 0x1, 0x82, 0xb1, 0xa, 0xb7, 0xd5, 0x4b, 0xfe, 0xd3, 0xc9, 0x64, 0x7, 0x3a, 0xe, 0xe1, 0x72, 0xf3, 0xda, 0xa6, 0x23, 0x25, 0xaf, 0x2, 0x1a, 0x68, 0xf7, 0x7, 0x51, 0x1a]
      secrets := [[0x9d, 0x61, 0xb1, 0x9d, 0xef, 0xfd, 0x5a, 0x60, 0xba, 0x84, 0x4a, 0xf4, 0x92, 0xec, 0x2c, 0xc4, 0x44, 0x49, 0xc5, 0x69, 0x7b, 0x32, 0x69, 0x19, 0x70, 0x3b, 0xac, 0x3, 0x1c, 0xae, 0x7f, 0x60]]
      count := rfl
      short := by decide }
  comment := ⟨text "ed25519-key", by decide⟩

theorem userkey_round_trip_ed25519 : RoundTrips ed25519Primitives .unix stringsClass ed25519Key none :=
  (userkey_round_trip_iff ed25519Primitives .unix stringsClass ed25519Key none (by decide)).mpr
    ⟨by decide, by decide, by decide⟩

/-- The public blob of an RSA key, of 262081 bytes. -/
def largeBlob : Bytes := putString (text "ssh-rsa") ++ putString [0x25] ++ putString (List.replicate 262061 0x7f)

theorem putString_length (data : Bytes) : (putString data).length = 4 + data.length := by
  rw [putString, List.length_append, put32_length]

theorem largeBlob_length : largeBlob.length = 262081 := by
  have htext : (text "ssh-rsa").length = 7 := by decide
  rw [largeBlob, List.length_append, List.length_append, putString_length, putString_length, putString_length, htext,
    List.length_replicate, List.length_singleton]

def largeKey : Userkey StringsKey where
  key :=
    { alg := .sshRsa
      publicBlob := largeBlob
      secrets := [[0x03], [0x05], [0x07], [0x03]]
      count := rfl
      short := by decide }
  comment := ⟨text "large", by decide⟩

theorem largeKey_length : (stringsClass.publicBlob largeKey.key).length = 262081 := largeBlob_length

theorem largeKey_private : (stringsClass.privateBlob largeKey.key).length < MAX_KEY_BLOB_SIZE := by decide

theorem largeKey_unreadable : ¬ Readable .unix stringsClass largeKey := by
  intro h
  have hle := h.1
  rw [largeKey_length] at hle
  exact absurd hle (by decide)

/-- Its blobs are smaller than MAX_KEY_BLOB_SIZE, and the file it is saved in cannot be read. -/
theorem largest_blob_is_not_read : (stringsClass.publicBlob largeKey.key).length < MAX_KEY_BLOB_SIZE ∧
    (stringsClass.privateBlob largeKey.key).length < MAX_KEY_BLOB_SIZE ∧
    ¬ RoundTrips ed25519Primitives .unix stringsClass largeKey none := by
  refine ⟨?_, largeKey_private, fun h => ?_⟩
  · rw [largeKey_length]
    decide
  · exact largeKey_unreadable (h.readable (by decide))

end Putty.Keys
