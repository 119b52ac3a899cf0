/-
  Putty.Pageant.Keys — the keys that the agent holds (`pageant.c`, rsakeys and ssh2keys;
  `sshrsa.c`, rsa_verify and crt_modpow).

  SSH-1 keys are numbers; the trees of them are ordered by the modulus alone. An SSH-2
  key is what its algorithm says it is: the functions of ssh_keyalg are parameters, as
  are MD5 and mp_invert. `none` is a failed assertion.
-/

import Putty.Lib.Sorted
import Putty.Utils.Mpint

namespace Putty.Pageant

open Putty.Lib Putty.Utils

/-! ## SSH-1 -/

structure RSAKey where
  modulus : Nat
  exponent : Nat
  privateExponent : Nat
  p : Nat
  q : Nat
  iqmp : Nat
  comment : List UInt8
  deriving DecidableEq, Repr

/-- The public key. -/
def RSAKey.pub (key : RSAKey) : Nat × Nat := (key.exponent, key.modulus)

/-- get_rsa_ssh1_pub, RSA_SSH1_EXPONENT_FIRST: the exponent and the modulus. -/
def getRsaSsh1PubExponentFirst (src : BinarySource) : (Nat × Nat) × BinarySource :=
  let (_, src) := src.getUint32
  let (e, src) := src.getMpSsh1
  let (m, src) := src.getMpSsh1
  ((e, m), src)

/-- get_rsa_ssh1_pub, RSA_SSH1_MODULUS_FIRST. -/
def getRsaSsh1PubModulusFirst (src : BinarySource) : (Nat × Nat) × BinarySource :=
  let (_, src) := src.getUint32
  let (m, src) := src.getMpSsh1
  let (e, src) := src.getMpSsh1
  ((e, m), src)

/-- rsa_ssh1_public_blob, RSA_SSH1_EXPONENT_FIRST. -/
def rsaSsh1PublicBlob (key : RSAKey) : Option (List UInt8) :=
  (putMpSsh1 key.exponent).bind fun e =>
  (putMpSsh1 key.modulus).map fun m => put32BitMsbFirst (mpGetNbits key.modulus) ++ e ++ m

/-- cmpkeys_rsa. -/
def cmpkeysRsa (a b : RSAKey) : Int :=
  (if b.modulus ≤ a.modulus then 1 else 0) - (if a.modulus ≤ b.modulus then 1 else 0)

instance : Comparison cmpkeysRsa where
  swap x y := by
    unfold cmpkeysRsa
    split_ifs <;> omega
  trans x y z := by
    unfold cmpkeysRsa
    split_ifs <;> omega

theorem cmpkeysRsa_eq_zero {a b : RSAKey} : cmpkeysRsa a b = 0 ↔ a.modulus = b.modulus := by
  unfold cmpkeysRsa
  split_ifs <;> omega

/-! ## SSH-2 -/

structure Userkey (K : Type) where
  key : K
  comment : List UInt8
  deriving DecidableEq

structure SshKeyalg (K : Type) where
  /-- ssh_key_new_priv_openssh. -/
  newPrivOpenssh : BinarySource → Option (Option K × BinarySource)

structure Crypto (K : Type) where
  findPubkeyAlgLen : List UInt8 → Option (SshKeyalg K)
  publicBlob : K → List UInt8
  supportedFlags : K → UInt32
  /-- ssh_key_invalid. -/
  invalid : K → UInt32 → Bool
  sign : K → List UInt8 → UInt32 → Option { signature : List UInt8 // signature.length < 2 ^ 31 }
  md5 : List UInt8 → { digest : List UInt8 // digest.length = 16 }
  mpInvert : Nat → Nat → Nat

/-- cmpkeys_ssh2_asymm, on the blob of the second key. -/
def cmpBlobs : List UInt8 → List UInt8 → Int
  | [], [] => 0
  | _ :: _, [] => 1
  | [], _ :: _ => -1
  | a :: as, b :: bs => if a < b then -1 else if a > b then 1 else cmpBlobs as bs

theorem cmpBlobs_swap : ∀ a b, cmpBlobs a b < 0 ↔ 0 < cmpBlobs b a
  | [], [] => by simp [cmpBlobs]
  | _ :: _, [] => by simp [cmpBlobs]
  | [], _ :: _ => by simp [cmpBlobs]
  | a :: as, b :: bs => by
    have ih := cmpBlobs_swap as bs
    rw [cmpBlobs, cmpBlobs]
    simp only [UInt8.lt_iff_toNat_lt, gt_iff_lt]
    split_ifs <;> omega

theorem cmpBlobs_trans : ∀ a b c, cmpBlobs a b < 0 → cmpBlobs b c < 0 → cmpBlobs a c < 0
  | [], _, [] => by
    intro h1 h2
    have := (cmpBlobs_swap _ _).mp h1
    omega
  | [], _, _ :: _ => by simp [cmpBlobs]
  | _ :: _, [], _ => by simp [cmpBlobs]
  | _ :: _, _ :: _, [] => by simp [cmpBlobs]
  | a :: as, b :: bs, c :: cs => by
    have ih := cmpBlobs_trans as bs cs
    rw [cmpBlobs, cmpBlobs, cmpBlobs]
    simp only [UInt8.lt_iff_toNat_lt, gt_iff_lt]
    split_ifs <;> omega

theorem cmpBlobs_eq_zero : ∀ {a b}, cmpBlobs a b = 0 ↔ a = b
  | [], [] => by simp [cmpBlobs]
  | _ :: _, [] => by simp [cmpBlobs]
  | [], _ :: _ => by simp [cmpBlobs]
  | a :: as, b :: bs => by
    have ih := @cmpBlobs_eq_zero as bs
    have hab : a = b ↔ a.toNat = b.toNat := UInt8.toNat_inj.symm
    rw [cmpBlobs, List.cons.injEq, ← ih, hab]
    simp only [UInt8.lt_iff_toNat_lt, gt_iff_lt]
    split_ifs with hlt hgt
    · exact ⟨fun h => (by cases h), fun h => absurd h.1 (Nat.ne_of_lt hlt)⟩
    · exact ⟨fun h => (by cases h), fun h => absurd h.1 (Nat.ne_of_gt hgt)⟩
    · exact ⟨fun h => ⟨by omega, h⟩, And.right⟩

variable {K : Type} (c : Crypto K)

def cmpkeysSsh2Asymm (blob : List UInt8) (b : Userkey K) : Int := cmpBlobs blob (c.publicBlob b.key)

def cmpkeysSsh2 (a b : Userkey K) : Int := cmpkeysSsh2Asymm c (c.publicBlob a.key) b

instance : Comparison (cmpkeysSsh2 c) where
  swap _ _ := cmpBlobs_swap _ _
  trans _ _ _ := cmpBlobs_trans _ _ _

theorem cmpkeysSsh2_eq_zero {a b : Userkey K} : cmpkeysSsh2 c a b = 0 ↔ c.publicBlob a.key = c.publicBlob b.key := cmpBlobs_eq_zero

/-! ## Arithmetic on the keys -/

/-- rsa_verify: the result, and the key with p and q in order. -/
def rsaVerify (key : RSAKey) : Option (Bool × RSAKey) :=
  if ¬ (2 ≤ key.p ∧ 2 ≤ key.q) then some (false, key)
  else
    (mpModmul key.exponent key.privateExponent (key.p - 1)).bind fun edp =>
    (mpModmul key.exponent key.privateExponent (key.q - 1)).map fun edq =>
    (key.p * key.q = key.modulus && edp = 1 && edq = 1,
      { key with p := max key.p key.q, q := min key.p key.q, iqmp := c.mpInvert (min key.p key.q) (max key.p key.q) })

def crtModpow (base exp mod p q iqmp : Nat) : Option Nat :=
  (mpMod exp (p - 1)).bind fun pexp =>
  (mpMod exp (q - 1)).bind fun qexp =>
  (mpMod base p).bind fun baseModP =>
  (mpModpow baseModP pexp p).bind fun presult =>
  (mpMod base q).bind fun baseModQ =>
  (mpModpow baseModQ qexp q).bind fun qresult =>
  let presult := if presult ≤ qresult then presult + p else presult
  mpMod (iqmp * q * (presult - qresult) + qresult) mod

def rsaSsh1Decrypt (input : Nat) (key : RSAKey) : Option Nat :=
  crtModpow input key.privateExponent key.modulus key.p key.q key.iqmp

/-- Both factors are odd and more than one, and the modulus is not zero. -/
def RSAKey.Usable (key : RSAKey) : Prop := key.p % 2 = 1 ∧ key.q % 2 = 1 ∧ 1 < key.p ∧ 1 < key.q ∧ key.modulus ≠ 0

instance (key : RSAKey) : Decidable key.Usable := inferInstanceAs (Decidable (_ ∧ _ ∧ _ ∧ _ ∧ _))

theorem rsaVerify_returns (key : RSAKey) : ∃ r, rsaVerify c key = some r := by
  unfold rsaVerify
  by_cases h : 2 ≤ key.p ∧ 2 ≤ key.q
  · rw [if_neg (not_not.mpr h)]
    rw [mpModmul, mpModmul, mpMod, mpMod, if_neg (by omega), if_neg (by omega)]
    exact ⟨_, rfl⟩
  · rw [if_pos h]
    exact ⟨_, rfl⟩

/-- The public key is not changed, and what passes has its modulus from its factors. -/
theorem rsaVerify_pub {key key' : RSAKey} {ok : Bool} (h : rsaVerify c key = some (ok, key')) :
    key'.pub = key.pub ∧ (ok = true → key'.modulus = key'.p * key'.q ∧ 2 ≤ key'.p ∧ 2 ≤ key'.q) := by
  unfold rsaVerify at h
  by_cases h2 : 2 ≤ key.p ∧ 2 ≤ key.q
  · rw [if_neg (not_not.mpr h2)] at h
    rw [mpModmul, mpModmul, mpMod, mpMod, if_neg (by omega), if_neg (by omega)] at h
    cases h
    refine ⟨rfl, fun hok => ?_⟩
    simp only [Bool.and_eq_true, decide_eq_true_eq] at hok
    refine ⟨?_, le_max_of_le_left h2.1, le_min h2.1 h2.2⟩
    show key.modulus = max key.p key.q * min key.p key.q
    rw [← hok.1.1, max_mul_min]
  · rw [if_pos h2] at h
    cases h
    exact ⟨rfl, fun h => by cases h⟩

theorem mpMod_eq_none {n d : Nat} : mpMod n d = none ↔ d = 0 := by
  unfold mpMod
  split
  · next h => simp [h]
  · next h => simp [h]

theorem mpModpow_eq_none {b e m : Nat} : mpModpow b e m = none ↔ m % 2 ≠ 1 := by
  unfold mpModpow
  split
  · next h => simp [h]
  · next h => simp [h]

theorem rsaSsh1Decrypt_eq_none {input : Nat} {key : RSAKey} : rsaSsh1Decrypt input key = none ↔ ¬ key.Usable := by
  unfold rsaSsh1Decrypt crtModpow RSAKey.Usable
  simp only [Option.bind_eq_none_iff, mpMod_eq_none]
  constructor
  · intro h hu
    obtain ⟨hp, hq, hp1, hq1, hm⟩ := hu
    have hmod : ∀ n d, d ≠ 0 → mpMod n d = some (n % d) := fun n d hd => by rw [mpMod, if_neg hd]
    have hpow : ∀ b e m, m % 2 = 1 → mpModpow b e m = some (b ^ e % m) := fun b e m hm => by rw [mpModpow, if_pos hm]
    exact hm (h _ (hmod _ _ (by omega)) _ (hmod _ _ (by omega)) _ (hmod _ _ (by omega)) _ (hpow _ _ _ hp) _
      (hmod _ _ (by omega)) _ (hpow _ _ _ hq))
  · intro hu pexp hpexp qexp hqexp bp hbp pr hpr bq hbq qr hqr
    have hnone : ∀ {n d r}, mpMod n d = some r → d ≠ 0 := by
      intro n d r h h0
      rw [mpMod_eq_none.mpr h0] at h
      cases h
    have hodd : ∀ {b e m r}, mpModpow b e m = some r → m % 2 = 1 := by
      intro b e m r h
      by_contra hno
      rw [mpModpow_eq_none.mpr hno] at h
      cases h
    have h1 := hnone hpexp
    have h2 := hnone hqexp
    have h3 := hodd hpr
    have h4 := hodd hqr
    by_contra hm
    exact hu ⟨h3, h4, by omega, by omega, hm⟩

end Putty.Pageant
