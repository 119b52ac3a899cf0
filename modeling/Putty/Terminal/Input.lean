/-
  Putty.Terminal.Input — typed and pasted text for a terminal in UTF-8 mode
  (`term_input_data_from_unicode` in `terminal.c`), on a platform whose wide characters are
  UTF-16 units.

  A surrogate is looked at together with the unit behind it. When there is none the
  surrogate becomes a full stop, as it does on other platforms; when there is one and the two
  are no pair, no branch is left for it and the surrogate itself is encoded. So the output
  is that of the UTF-16 decoder with a full stop for each unpaired surrogate exactly when no
  unpaired surrogate has a unit behind it (`translated_iff`).
-/

import Putty.Utils.Utf8

namespace Putty.Terminal.Input

open Putty.Lib
open Putty.Utils.Utf8

def HIGH_SURROGATE_START : Nat := 0xD800
def HIGH_SURROGATE_END : Nat := 0xDBFF
def LOW_SURROGATE_START : Nat := 0xDC00
def LOW_SURROGATE_END : Nat := 0xDFFF

def isHighSurrogate (wch : UInt16) : Bool := HIGH_SURROGATE_START ≤ wch.toNat && wch.toNat ≤ HIGH_SURROGATE_END

def isLowSurrogate (wch : UInt16) : Bool := LOW_SURROGATE_START ≤ wch.toNat && wch.toNat ≤ LOW_SURROGATE_END

def isSurrogatePair (hs ls : UInt16) : Bool := isHighSurrogate hs && isLowSurrogate ls

def isSurrogate (wch : UInt16) : Bool := HIGH_SURROGATE_START ≤ wch.toNat && wch.toNat ≤ LOW_SURROGATE_END

def fromSurrogates (wch1 wch2 : UInt16) : Nat := 0x10000 + ((wch1.toNat &&& 0x3FF) <<< 10) + (wch2.toNat &&& 0x3FF)

/-- The loop for a terminal in UTF-8 mode. -/
def translate : List UInt16 → List UInt8
  | [] => []
  | ch :: widebuf =>
    if isSurrogate ch then
      match widebuf with
      | ch2 :: rest =>
        if isSurrogatePair ch ch2 then Utils.Utf8.encodeUtf8 (fromSurrogates ch ch2) ++ translate rest
        -- ch is still the surrogate
        else Utils.Utf8.encodeUtf8 ch.toNat ++ translate (ch2 :: rest)
      | [] => Utils.Utf8.encodeUtf8 46
    else Utils.Utf8.encodeUtf8 ch.toNat ++ translate widebuf

/-- `term_input_data_from_unicode`, with `wc_to_mb` for a terminal in another character set. -/
def termInputDataFromUnicode (inUtf : Bool) (wcToMb : List UInt16 → Option (List UInt8)) (widebuf : List UInt16) :
    List UInt8 :=
  if inUtf then translate widebuf else (wcToMb widebuf).getD []

/-! ## The text that the units spell -/

/-- The code points, with a full stop for each unpaired surrogate. -/
def codePoints : List UInt16 → List Nat
  | [] => []
  | [x] => [if isSurrogate x then 46 else x.toNat]
  | x :: y :: rest =>
    if isSurrogatePair x y then fromSurrogates x y :: codePoints rest
    else (if isSurrogate x then 46 else x.toNat) :: codePoints (y :: rest)

def WellFormed (bs : List UInt8) : Prop := ∃ vs : List Nat, (∀ v ∈ vs, Scalar v) ∧ bs = vs.flatMap Utils.Utf8.encodeUtf8

/-- A surrogate between `before` and `after` that makes a pair with neither neighbour. -/
def Unpaired (before : List UInt16) (x : UInt16) (after : List UInt16) : Prop :=
  isSurrogate x = true ∧ (∀ y ∈ after.head?, isSurrogatePair x y = false) ∧
    ∀ y ∈ before.getLast?, isSurrogatePair y x = false

/-- No unpaired surrogate has a unit behind it. -/
def UnpairedIsLast (units : List UInt16) : Prop :=
  ∀ before x after, units = before ++ x :: after → Unpaired before x after → after = []

/-! ## What is decoded is encoded well -/

theorem pair_iff {x y : UInt16} : isSurrogatePair x y = true ↔
    (0xD800 ≤ x.toNat ∧ x.toNat ≤ 0xDBFF) ∧ 0xDC00 ≤ y.toNat ∧ y.toNat ≤ 0xDFFF := by
  simp only [isSurrogatePair, isHighSurrogate, isLowSurrogate, Bool.and_eq_true, decide_eq_true_eq]
  exact Iff.rfl

theorem surrogate_iff {x : UInt16} : isSurrogate x = true ↔ 0xD800 ≤ x.toNat ∧ x.toNat ≤ 0xDFFF := by
  simp only [isSurrogate, Bool.and_eq_true, decide_eq_true_eq]
  exact Iff.rfl

theorem surrogate_of_pair {x y : UInt16} (h : isSurrogatePair x y = true) : isSurrogate x = true := by
  rw [pair_iff] at h
  rw [surrogate_iff]
  omega

/-- A low surrogate starts no pair, and a high one ends none. -/
theorem pair_next {x y z : UInt16} (h : isSurrogatePair x y = true) : isSurrogatePair y z = false := by
  rw [pair_iff] at h
  rw [← Bool.not_eq_true, pair_iff]
  omega

theorem fromSurrogates_scalar (x y : UInt16) : Scalar (fromSurrogates x y) := by
  have hlow (n : Nat) : n &&& 0x3FF = n % 1024 := Nat.and_two_pow_sub_one_eq_mod n 10
  rw [fromSurrogates, hlow, hlow, Nat.shiftLeft_eq, Scalar]
  omega

theorem scalar_unit {x : UInt16} (h : isSurrogate x = false) : Scalar x.toNat := by
  rw [← Bool.not_eq_true, surrogate_iff] at h
  have := x.toNat_lt
  rw [Scalar]
  omega

theorem scalar_single (x : UInt16) : Scalar (if isSurrogate x then 46 else x.toNat) := by
  split
  · decide
  · next h => exact scalar_unit (Bool.eq_false_iff.mpr h)

theorem codePoints_scalar (units : List UInt16) : ∀ v ∈ codePoints units, Scalar v := by
  induction units using codePoints.induct with
  | case1 => simp [codePoints]
  | case2 x =>
    intro v hv
    rw [codePoints, List.mem_singleton] at hv
    exact hv ▸ scalar_single x
  | case3 x y rest hp ih =>
    intro v hv
    rw [codePoints, if_pos hp, List.mem_cons] at hv
    rcases hv with rfl | hv
    · exact fromSurrogates_scalar x y
    · exact ih v hv
  | case4 x y rest hp ih =>
    intro v hv
    rw [codePoints, if_neg hp, List.mem_cons] at hv
    rcases hv with rfl | hv
    · exact scalar_single x
    · exact ih v hv

theorem wellFormed_codePoints (units : List UInt16) : WellFormed ((codePoints units).flatMap Utils.Utf8.encodeUtf8) :=
  ⟨codePoints units, codePoints_scalar units, rfl⟩

/-! ## Where the loop agrees with the decoder -/

/-- As the loop goes: each surrogate that has a unit behind it makes a pair with it. -/
def PairsUp : List UInt16 → Prop
  | [] => True
  | [_] => True
  | x :: y :: rest => if isSurrogatePair x y then PairsUp rest else isSurrogate x = false ∧ PairsUp (y :: rest)

/-- A surrogate's encoding begins with ED, which is no full stop. -/
theorem encodeUtf8_surrogate {x : UInt16} (h : isSurrogate x = true) (bs cs : List UInt8) :
    Utils.Utf8.encodeUtf8 x.toNat ++ bs ≠ Utils.Utf8.encodeUtf8 46 ++ cs := by
  rw [surrogate_iff] at h
  rw [encodeUtf8_three (by omega) (by omega), show Utils.Utf8.encodeUtf8 46 = [46] from rfl]
  intro he
  have hhead : UInt8.ofNat (0xE0 + x.toNat / 4096) = 46 := (List.cons.inj he).1
  have hlead : x.toNat / 4096 = 13 := by omega
  rw [hlead] at hhead
  exact absurd hhead (by decide)

theorem translate_iff (units : List UInt16) :
    translate units = (codePoints units).flatMap Utils.Utf8.encodeUtf8 ↔ PairsUp units := by
  induction units using codePoints.induct with
  | case1 => simp [translate, codePoints, PairsUp]
  | case2 x =>
    by_cases hx : isSurrogate x = true <;> simp [translate, codePoints, PairsUp, hx]
  | case3 x y rest hp ih =>
    rw [translate, if_pos (surrogate_of_pair hp)]
    simp only [hp, if_true, codePoints, PairsUp, List.flatMap_cons, List.append_cancel_left_eq]
    exact ih
  | case4 x y rest hp ih =>
    by_cases hx : isSurrogate x = true
    · rw [translate, if_pos hx]
      simp only [hp, if_false, codePoints, PairsUp, List.flatMap_cons, hx, if_true, Bool.false_eq_true]
      exact ⟨fun h => absurd h (encodeUtf8_surrogate hx _ _), fun h => absurd h.1 (by simp)⟩
    · rw [translate, if_neg hx]
      simp only [hp, if_false, codePoints, PairsUp, List.flatMap_cons, hx, List.append_cancel_left_eq,
        Bool.false_eq_true, true_and]
      exact ih

/-- What comes before matters only if its last unit makes a pair with the next one. -/
theorem pairsUp_iff (units : List UInt16) : ∀ before : List UInt16,
    (∀ h ∈ before.getLast?, ∀ x ∈ units.head?, isSurrogatePair h x = false) →
    (PairsUp units ↔ ∀ a x after, units = a ++ x :: after → Unpaired (before ++ a) x after → after = []) := by
  induction units using codePoints.induct with
  | case1 => simp [PairsUp]
  | case2 x =>
    intro before _
    refine iff_of_true trivial fun a z after he _ => ?_
    cases a with
    | nil => exact (List.cons.inj he).2.symm
    | cons w a => simp at he
  | case3 x y rest hp ih =>
    intro before hb
    have hstraddle : ∀ h ∈ (before ++ [x, y]).getLast?, ∀ z ∈ rest.head?, isSurrogatePair h z = false := by
      intro h hh z _
      rw [List.getLast?_append_of_ne_nil _ (by simp)] at hh
      obtain rfl : y = h := by simpa using hh
      exact pair_next hp
    rw [PairsUp, if_pos hp, ih (before ++ [x, y]) hstraddle]
    constructor
    · intro h a z after he hu
      match a, he with
      | [], he =>
        obtain ⟨rfl, rfl⟩ := List.cons.inj he
        exact absurd (hu.2.1 y rfl) (by simp [hp])
      | [w], he =>
        obtain ⟨hx, hrest⟩ := List.cons.inj he
        obtain ⟨rfl, -⟩ := List.cons.inj hrest
        exact absurd (hu.2.2 x (by simp [hx])) (by simp [hp])
      | w :: w' :: a, he =>
        obtain ⟨hx, hrest⟩ := List.cons.inj he
        obtain ⟨hy, hrest⟩ := List.cons.inj hrest
        exact h a z after hrest (by simpa [hx, hy] using hu)
    · intro h a z after he hu
      exact h (x :: y :: a) z after (by rw [he]; rfl) (by simpa using hu)
  | case4 x y rest hp ih =>
    intro before hb
    have hp' : isSurrogatePair x y = false := Bool.eq_false_iff.mpr hp
    have hstraddle : ∀ h ∈ (before ++ [x]).getLast?, ∀ z ∈ (y :: rest).head?, isSurrogatePair h z = false := by
      intro h hh z hz
      rw [List.getLast?_append_of_ne_nil _ (by simp)] at hh
      obtain rfl : x = h := by simpa using hh
      obtain rfl : y = z := by simpa using hz
      exact hp'
    rw [PairsUp, if_neg hp, ih (before ++ [x]) hstraddle]
    constructor
    · rintro ⟨hx, h⟩ a z after he hu
      match a, he with
      | [], he =>
        obtain ⟨rfl, -⟩ := List.cons.inj he
        exact absurd hu.1 (by simp [hx])
      | w :: a, he =>
        obtain ⟨hx, hrest⟩ := List.cons.inj he
        exact h a z after hrest (by simpa [hx] using hu)
    · refine fun h => ⟨?_, fun a z after he hu => h (x :: a) z after (by rw [he]; rfl) (by simpa using hu)⟩
      rw [Bool.eq_false_iff]
      intro hx
      have hu : Unpaired (before ++ []) x (y :: rest) :=
        ⟨hx, by simpa using hp', fun h' hh => hb h' (by simpa using hh) x rfl⟩
      cases h [] x (y :: rest) rfl hu

/-- The output is the text that the units spell, and UTF-8, exactly when no unpaired
    surrogate has a unit behind it. -/
theorem translated_iff (wcToMb : List UInt16 → Option (List UInt8)) (widebuf : List UInt16) :
    (termInputDataFromUnicode true wcToMb widebuf = (codePoints widebuf).flatMap Utils.Utf8.encodeUtf8 ∧
      WellFormed (termInputDataFromUnicode true wcToMb widebuf)) ↔ UnpairedIsLast widebuf := by
  have hcode : termInputDataFromUnicode true wcToMb widebuf = translate widebuf := rfl
  have hlast : UnpairedIsLast widebuf ↔ PairsUp widebuf := (pairsUp_iff widebuf [] (by simp)).symm
  rw [hcode, hlast, ← translate_iff]
  refine ⟨fun h => h.1, fun h => ⟨h, ?_⟩⟩
  rw [h]
  exact wellFormed_codePoints widebuf

/-- A high surrogate and then the letter A. -/
theorem surrogate_before_letter :
    ¬ (termInputDataFromUnicode true (fun _ => none) [0xD800, 0x41] = (codePoints [0xD800, 0x41]).flatMap Utils.Utf8.encodeUtf8 ∧
      WellFormed (termInputDataFromUnicode true (fun _ => none) [0xD800, 0x41])) := by
  rintro ⟨h, -⟩
  exact absurd h (by decide)

end Putty.Terminal.Input
