/-
  Putty.Utils.Utf8 — UTF-8 as `encode_utf8` writes it (`utils.c`), and the sequences a
  reader may find.

  `follow` is what a lead byte announces in the old scheme of up to six bytes, `value` what
  the bits of a sequence spell. A sequence is well formed if it is what `encodeUtf8` writes
  for a scalar value (`Encodes`). Proved: what is written is a complete sequence that
  spells the value (`encodeUtf8_shape`, `value_encodeUtf8`), and a complete sequence of up to
  four bytes that is not longer than its value needs is what is written for it
  (`encodeUtf8_value`).
-/

import Mathlib.Tactic.Linarith
import Putty.Lib.Leads

namespace Putty.Utils.Utf8

def encodeUtf8 (ch : Nat) : List UInt8 :=
  if ch < 0x80 then [UInt8.ofNat ch]
  else if ch < 0x800 then [UInt8.ofNat (0xC0 ||| ch >>> 6), UInt8.ofNat (0x80 ||| (ch &&& 0x3F))]
  else if ch < 0x10000 then
    [UInt8.ofNat (0xE0 ||| ch >>> 12), UInt8.ofNat (0x80 ||| (ch >>> 6 &&& 0x3F)), UInt8.ofNat (0x80 ||| (ch &&& 0x3F))]
  else
    [UInt8.ofNat (0xF0 ||| ch >>> 18), UInt8.ofNat (0x80 ||| (ch >>> 12 &&& 0x3F)),
      UInt8.ofNat (0x80 ||| (ch >>> 6 &&& 0x3F)), UInt8.ofNat (0x80 ||| (ch &&& 0x3F))]

/-! ## Sequences -/

/-- A byte that can only continue a sequence. -/
def isCont (b : UInt8) : Bool := 0x80 ≤ b.toNat && b.toNat < 0xC0

/-- The continuation bytes that a byte announces. -/
def follow (b : UInt8) : Nat :=
  if b.toNat < 0xC0 then 0
  else if b.toNat < 0xE0 then 1
  else if b.toNat < 0xF0 then 2
  else if b.toNat < 0xF8 then 3
  else if b.toNat < 0xFC then 4
  else if b.toNat < 0xFE then 5
  else 0

/-- The bits of a lead byte that belong to the value. -/
def payload (b : UInt8) : Nat :=
  match follow b with
  | 0 => b.toNat
  | n + 1 => b.toNat % 2 ^ (5 - n)

/-- The value with the bits of more continuation bytes. -/
def extend (v : Nat) (cs : List UInt8) : Nat := cs.foldl (fun v c => v * 64 + c.toNat % 64) v

/-- What the bits of a sequence spell. -/
def value : List UInt8 → Nat
  | [] => 0
  | b :: cs => extend (payload b) cs

/-- A byte with all the continuation bytes that it announces. -/
def Complete (p : List UInt8) : Prop := ∃ b cs, p = b :: cs ∧ cs.length = follow b ∧ ∀ c ∈ cs, isCont c = true

/-- A code point that is no surrogate. -/
def Scalar (v : Nat) : Prop := v < 0x110000 ∧ ¬ (0xD800 ≤ v ∧ v < 0xE000)

instance (v : Nat) : Decidable (Scalar v) := inferInstanceAs (Decidable (_ ∧ _))

/-- `p` is the well-formed sequence of `v`. -/
def Encodes (p : List UInt8) (v : Nat) : Prop := Scalar v ∧ p = encodeUtf8 v

/-- The scalar value of a well-formed sequence. -/
def scalarOf (p : List UInt8) : Option Nat := if Scalar (value p) ∧ p = encodeUtf8 (value p) then some (value p) else none

/-- The least value that needs `n` continuation bytes. -/
def least : Nat → Nat
  | 0 => 0
  | 1 => 0x80
  | 2 => 0x800
  | 3 => 0x10000
  | 4 => 0x200000
  | _ => 0x4000000

/-! ## Written in arithmetic -/

theorem or_cont {x : Nat} (h : x < 64) : 0x80 ||| x = 0x80 + x := (Nat.two_pow_add_eq_or_of_lt (i := 6) h 2).symm

theorem and_cont (x : Nat) : x &&& 0x3F = x % 64 := Nat.and_two_pow_sub_one_eq_mod x 6

theorem byte_cont (x : Nat) : UInt8.ofNat (0x80 ||| (x &&& 0x3F)) = UInt8.ofNat (0x80 + x % 64) := by
  rw [and_cont, or_cont (Nat.mod_lt x (by decide))]

theorem encodeUtf8_one {v : Nat} (h : v < 0x80) : encodeUtf8 v = [UInt8.ofNat v] := if_pos h

theorem encodeUtf8_two {v : Nat} (h : 0x80 ≤ v) (h' : v < 0x800) :
    encodeUtf8 v = [UInt8.ofNat (0xC0 + v / 64), UInt8.ofNat (0x80 + v % 64)] := by
  have hlead : 0xC0 ||| v >>> 6 = 0xC0 + v / 64 := by
    rw [Nat.shiftRight_eq_div_pow]
    exact (Nat.two_pow_add_eq_or_of_lt (i := 5) (show v / 64 < 32 by omega) 6).symm
  rw [encodeUtf8, if_neg (by omega), if_pos h', hlead, byte_cont]

theorem encodeUtf8_three {v : Nat} (h : 0x800 ≤ v) (h' : v < 0x10000) :
    encodeUtf8 v = [UInt8.ofNat (0xE0 + v / 4096), UInt8.ofNat (0x80 + v / 64 % 64), UInt8.ofNat (0x80 + v % 64)] := by
  have hlead : 0xE0 ||| v >>> 12 = 0xE0 + v / 4096 := by
    rw [Nat.shiftRight_eq_div_pow]
    exact (Nat.two_pow_add_eq_or_of_lt (i := 4) (show v / 4096 < 16 by omega) 14).symm
  rw [encodeUtf8, if_neg (by omega), if_neg (by omega), if_pos h', hlead, byte_cont, byte_cont, Nat.shiftRight_eq_div_pow]

theorem encodeUtf8_four {v : Nat} (h : 0x10000 ≤ v) (h' : v < 0x200000) :
    encodeUtf8 v = [UInt8.ofNat (0xF0 + v / 262144), UInt8.ofNat (0x80 + v / 4096 % 64),
      UInt8.ofNat (0x80 + v / 64 % 64), UInt8.ofNat (0x80 + v % 64)] := by
  have hlead : 0xF0 ||| v >>> 18 = 0xF0 + v / 262144 := by
    rw [Nat.shiftRight_eq_div_pow]
    exact (Nat.two_pow_add_eq_or_of_lt (i := 3) (show v / 262144 < 8 by omega) 30).symm
  rw [encodeUtf8, if_neg (by omega), if_neg (by omega), if_neg (by omega), hlead, byte_cont, byte_cont, byte_cont,
    Nat.shiftRight_eq_div_pow, Nat.shiftRight_eq_div_pow]

/-! ## What is written is read back -/

theorem isCont_iff {b : UInt8} : isCont b = true ↔ 0x80 ≤ b.toNat ∧ b.toNat < 0xC0 := by simp [isCont]

theorem not_isCont_iff {b : UInt8} : isCont b = false ↔ b.toNat < 0x80 ∨ 0xC0 ≤ b.toNat := by
  rw [← Bool.not_eq_true, isCont_iff]
  omega

theorem toNat_ofNat {n : Nat} (h : n < 256) : (UInt8.ofNat n).toNat = n := UInt8.toNat_ofNat_of_lt' h

theorem isCont_ofNat {x : Nat} (h : x < 64) : isCont (UInt8.ofNat (0x80 + x)) = true := by
  rw [isCont_iff, toNat_ofNat (by omega)]
  omega

/-- What a byte announces, and the bits it has itself. -/
structure Leads (b : UInt8) (n start : Nat) : Prop where
  follow : follow b = n
  payload : payload b = b.toNat - start
  start_le : start ≤ b.toNat

theorem leads_one {b : UInt8} (h : 0xC0 ≤ b.toNat) (h' : b.toNat < 0xE0) : Leads b 1 0xC0 := by
  have hf : follow b = 1 := by rw [follow, if_neg (by omega), if_pos h']
  refine ⟨hf, ?_, h⟩
  rw [payload, hf]
  show b.toNat % 32 = _
  omega

theorem leads_two {b : UInt8} (h : 0xE0 ≤ b.toNat) (h' : b.toNat < 0xF0) : Leads b 2 0xE0 := by
  have hf : follow b = 2 := by rw [follow, if_neg (by omega), if_neg (by omega), if_pos h']
  refine ⟨hf, ?_, h⟩
  rw [payload, hf]
  show b.toNat % 16 = _
  omega

theorem leads_three {b : UInt8} (h : 0xF0 ≤ b.toNat) (h' : b.toNat < 0xF8) : Leads b 3 0xF0 := by
  have hf : follow b = 3 := by rw [follow, if_neg (by omega), if_neg (by omega), if_neg (by omega), if_pos h']
  refine ⟨hf, ?_, h⟩
  rw [payload, hf]
  show b.toNat % 8 = _
  omega

theorem follow_range {b : UInt8} : (follow b = 1 → 0xC0 ≤ b.toNat ∧ b.toNat < 0xE0) ∧
    (follow b = 2 → 0xE0 ≤ b.toNat ∧ b.toNat < 0xF0) ∧ (follow b = 3 → 0xF0 ≤ b.toNat ∧ b.toNat < 0xF8) := by
  refine ⟨fun h => ?_, fun h => ?_, fun h => ?_⟩ <;>
    · unfold follow at h
      split_ifs at h <;> omega

/-- What is written for a value: a complete sequence that spells it. -/
theorem encodeUtf8_shape {v : Nat} (h : v < 0x200000) :
    ∃ b cs, encodeUtf8 v = b :: cs ∧ isCont b = false ∧ cs.length = follow b ∧ (∀ c ∈ cs, isCont c = true) ∧
      value (b :: cs) = v ∧ least cs.length ≤ v := by
  by_cases h1 : v < 0x80
  · have hb : (UInt8.ofNat v).toNat = v := toNat_ofNat (by omega)
    have hf : follow (UInt8.ofNat v) = 0 := by rw [follow, hb, if_pos (by omega)]
    refine ⟨_, [], encodeUtf8_one h1, not_isCont_iff.mpr (by omega), hf.symm, nofun, ?_, Nat.zero_le _⟩
    show payload (UInt8.ofNat v) = v
    rw [payload, hf, hb]
  by_cases h2 : v < 0x800
  · have hb : (UInt8.ofNat (0xC0 + v / 64)).toNat = 0xC0 + v / 64 := toNat_ofNat (by omega)
    have hl := leads_one (b := UInt8.ofNat (0xC0 + v / 64)) (by omega) (by omega)
    refine ⟨_, _, encodeUtf8_two (by omega) h2, not_isCont_iff.mpr (by omega), hl.follow.symm, ?_, ?_,
      Nat.not_lt.mp h1⟩
    · simp only [List.mem_singleton, forall_eq]
      exact isCont_ofNat (Nat.mod_lt _ (by decide))
    · simp only [value, extend, List.foldl_cons, List.foldl_nil, hl.payload, hb]
      rw [toNat_ofNat (by omega)]
      omega
  by_cases h3 : v < 0x10000
  · have hb : (UInt8.ofNat (0xE0 + v / 4096)).toNat = 0xE0 + v / 4096 := toNat_ofNat (by omega)
    have hl := leads_two (b := UInt8.ofNat (0xE0 + v / 4096)) (by omega) (by omega)
    refine ⟨_, _, encodeUtf8_three (by omega) h3, not_isCont_iff.mpr (by omega), hl.follow.symm, ?_, ?_,
      Nat.not_lt.mp h2⟩
    · simp only [List.mem_cons, List.not_mem_nil, or_false, forall_eq_or_imp, forall_eq]
      exact ⟨isCont_ofNat (Nat.mod_lt _ (by decide)), isCont_ofNat (Nat.mod_lt _ (by decide))⟩
    · simp only [value, extend, List.foldl_cons, List.foldl_nil, hl.payload, hb]
      rw [toNat_ofNat (by omega), toNat_ofNat (by omega)]
      omega
  · have hb : (UInt8.ofNat (0xF0 + v / 262144)).toNat = 0xF0 + v / 262144 := toNat_ofNat (by omega)
    have hl := leads_three (b := UInt8.ofNat (0xF0 + v / 262144)) (by omega) (by omega)
    refine ⟨_, _, encodeUtf8_four (by omega) h, not_isCont_iff.mpr (by omega), hl.follow.symm, ?_, ?_,
      Nat.not_lt.mp h3⟩
    · simp only [List.mem_cons, List.not_mem_nil, or_false, forall_eq_or_imp, forall_eq]
      exact ⟨isCont_ofNat (Nat.mod_lt _ (by decide)), isCont_ofNat (Nat.mod_lt _ (by decide)),
        isCont_ofNat (Nat.mod_lt _ (by decide))⟩
    · simp only [value, extend, List.foldl_cons, List.foldl_nil, hl.payload, hb]
      rw [toNat_ofNat (by omega), toNat_ofNat (by omega), toNat_ofNat (by omega)]
      omega

theorem value_encodeUtf8 {v : Nat} (h : v < 0x200000) : value (encodeUtf8 v) = v := by
  obtain ⟨b, cs, he, -, -, -, hv, -⟩ := encodeUtf8_shape h
  rw [he, hv]

theorem byte_eq {b : UInt8} {n : Nat} (h : b.toNat = n) : UInt8.ofNat n = b := by rw [← h, UInt8.ofNat_toNat]

/-- A complete sequence of two to four bytes that is not overlong is what is written for
    its value. -/
theorem encodeUtf8_value {b : UInt8} {cs : List UInt8} (hlen : cs.length = follow b)
    (hcs : ∀ c ∈ cs, isCont c = true) (h1 : 1 ≤ cs.length) (h3 : cs.length ≤ 3)
    (hv : least cs.length ≤ value (b :: cs)) : encodeUtf8 (value (b :: cs)) = b :: cs := by
  obtain ⟨r1, r2, r3⟩ := follow_range (b := b)
  match cs, hlen, hcs, h1, h3, hv with
  | [c], hlen, hcs, _, _, hv =>
    obtain ⟨hb, hb'⟩ := r1 hlen.symm
    have hl := leads_one hb hb'
    have hc := isCont_iff.mp (hcs c (by simp))
    simp only [value, extend, List.foldl_cons, List.foldl_nil, hl.payload, List.length_cons, List.length_nil, least] at hv ⊢
    rw [encodeUtf8_two hv (by omega), byte_eq (b := b) (by omega), byte_eq (b := c) (by omega)]
  | [c, d], hlen, hcs, _, _, hv =>
    obtain ⟨hb, hb'⟩ := r2 hlen.symm
    have hl := leads_two hb hb'
    have hc := isCont_iff.mp (hcs c (by simp))
    have hd := isCont_iff.mp (hcs d (by simp))
    simp only [value, extend, List.foldl_cons, List.foldl_nil, hl.payload, List.length_cons, List.length_nil, least] at hv ⊢
    rw [encodeUtf8_three hv (by omega), byte_eq (b := b) (by omega), byte_eq (b := c) (by omega),
      byte_eq (b := d) (by omega)]
  | [c, d, e], hlen, hcs, _, _, hv =>
    obtain ⟨hb, hb'⟩ := r3 hlen.symm
    have hl := leads_three hb hb'
    have hc := isCont_iff.mp (hcs c (by simp))
    have hd := isCont_iff.mp (hcs d (by simp))
    have he := isCont_iff.mp (hcs e (by simp))
    simp only [value, extend, List.foldl_cons, List.foldl_nil, hl.payload, List.length_cons, List.length_nil, least] at hv ⊢
    rw [encodeUtf8_four hv (by omega), byte_eq (b := b) (by omega), byte_eq (b := c) (by omega),
      byte_eq (b := d) (by omega), byte_eq (b := e) (by omega)]
  | _ :: _ :: _ :: _ :: _, _, _, _, h3, _ =>
    simp only [List.length_cons] at h3
    omega

theorem scalarOf_eq {p : List UInt8} {v : Nat} : scalarOf p = some v ↔ Encodes p v := by
  constructor
  · intro h
    unfold scalarOf at h
    split at h
    · next hp => exact Option.some.inj h ▸ hp
    · cases h
  · rintro ⟨hs, rfl⟩
    have hv : value (encodeUtf8 v) = v := value_encodeUtf8 (lt_trans hs.1 (by decide))
    rw [scalarOf, hv, if_pos ⟨hs, rfl⟩]

end Putty.Utils.Utf8
