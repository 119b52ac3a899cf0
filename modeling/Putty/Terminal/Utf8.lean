/-
  Putty.Terminal.Utf8 — characters from the bytes of the session (`term_translate` and the
  loop of `term_out` in `terminal.c`).

  The decoder remembers how many continuation bytes are missing, the bits so far and how
  many there were to be. A byte that breaks a sequence off is reported (UCSTRUNCATED)
  without being looked at further: `term_out` puts out the error character and translates
  the same byte again. Translation happens at the top level of the terminal's own state
  machine only. What that machine and the character sets are at any moment depends on the
  characters put out so far, so the terminal is a function of those.

  Proved, for every stream during which the terminal stays at its top level in UTF-8 mode
  (`utf8_decoded`): cut the stream at its lead bytes, each with the continuation bytes
  behind it up to the number it announces. Each piece that is well formed gives its
  character, and each that is not gives one error character. A piece at the very end that
  lacks bytes is still open and gives its error when a byte breaks it off. The lead byte of
  a well-formed sequence always begins a piece, so what `encode_utf8` wrote comes out
  whatever came before.

  A character is put out as its code point, but ASCII is not: it carries the tag of its
  font (`ascii_is_tagged`). And a piece gives one error character even if several of its
  bytes are ill-formed by themselves, as in E0 80 80.
-/

import Putty.Utils.Utf8

namespace Putty.Terminal.Utf8

open Putty.Lib
open Putty.Utils.Utf8

/-! ## Translating a byte -/

def CSET_ASCII : Nat := 0xD800
def CSET_LINEDRW : Nat := 0xD900
def CSET_SCOACS : Nat := 0xDA00
def CSET_GBCHR : Nat := 0xDB00

/-- The error character. -/
def UCSERR : Nat := CSET_LINEDRW ||| 0x61

structure TermUtf8Decode where
  state : Nat
  chr : Nat
  size : Nat
  deriving DecidableEq

/-- A character, or UCSINCOMPLETE, UCSTRUNCATED or UCSINVALID. -/
inductive Translated where
  | incomplete
  | truncated
  | invalid
  | char (c : Nat)
  deriving DecidableEq

/-- What the loop and the translation look at in the terminal. -/
structure View where
  /-- termstate is TOPLEVEL. -/
  toplevel : Bool
  inUtf : Bool
  unitabCtrl : UInt8 → UInt8
  utf8linedraw : Bool
  /-- The entry of cset_attr for the current character set. -/
  csetAttr : Nat
  scoAcs : Nat

/-- An ASCII byte in UTF-8 mode. -/
def asciiChar (term : View) (c : UInt8) : Nat :=
  if term.unitabCtrl c ≠ 0xFF then (term.unitabCtrl c).toNat
  else if term.utf8linedraw ∧ term.csetAttr = CSET_LINEDRW then c.toNat ||| CSET_LINEDRW
  else c.toNat ||| CSET_ASCII

/-- The size and the first bits of the sequence that a byte starts. -/
def startSequence (c : UInt8) : Option (Nat × Nat) :=
  if c &&& 0xE0 = 0xC0 then some (1, (c &&& 0x1F).toNat)
  else if c &&& 0xF0 = 0xE0 then some (2, (c &&& 0x0F).toNat)
  else if c &&& 0xF8 = 0xF0 then some (3, (c &&& 0x07).toNat)
  else if c &&& 0xFC = 0xF8 then some (4, (c &&& 0x03).toNat)
  else if c &&& 0xFE = 0xFC then some (5, (c &&& 0x01).toNat)
  else none

/-- The checks on a sequence that has all its bytes. -/
def checkSequence (t size : Nat) : Translated :=
  if t < 0x80 ∨ (t < 0x800 ∧ size ≥ 2) ∨ (t < 0x10000 ∧ size ≥ 3) ∨ (t < 0x200000 ∧ size ≥ 4) ∨
      (t < 0x4000000 ∧ size ≥ 5) then .invalid
  else if t = 0x2028 ∨ t = 0x2029 then .char 0x85
  else if t < 0xA0 then .char 0xFFFD
  else if t ≥ 0xD800 ∧ t < 0xE000 then .invalid
  else if t > 0x10FFFF then .invalid
  else if t ≥ 0xE0000 ∧ t ≤ 0xE007F then .incomplete
  else if t = 0xFEFF then .incomplete
  else if t = 0xFFFE ∨ t = 0xFFFF then .invalid
  else .char t

/-- A byte in the character set of the moment. -/
def translateCset (term : View) (c : UInt8) : Nat :=
  if term.csetAttr = CSET_LINEDRW then
    if term.unitabCtrl c ≠ 0xFF then (term.unitabCtrl c).toNat else c.toNat ||| CSET_LINEDRW
  else if term.csetAttr = CSET_GBCHR ∧ c = 0x23 then 0x7D ||| CSET_LINEDRW
  else if term.csetAttr = CSET_GBCHR ∨ term.csetAttr = CSET_ASCII then
    if term.unitabCtrl c ≠ 0xFF then (term.unitabCtrl c).toNat else c.toNat ||| CSET_ASCII
  else if term.csetAttr = CSET_SCOACS ∧ c ≥ 0x20 then c.toNat ||| CSET_SCOACS
  else c.toNat

def termTranslate (term : View) (utf8 : TermUtf8Decode) (c : UInt8) : Translated × TermUtf8Decode :=
  if term.inUtf then
    if utf8.state = 0 then
      if c < 0x80 then (.char (asciiChar term c), utf8)
      else
        match startSequence c with
        | some (size, chr) => (.incomplete, ⟨size, chr, size⟩)
        | none => (.invalid, utf8)
    else if utf8.state ≤ 5 then
      if c &&& 0xC0 ≠ 0x80 then (.truncated, { utf8 with state := 0 })
      else
        let utf8 := { utf8 with chr := utf8.chr <<< 6 ||| (c &&& 0x3F).toNat, state := utf8.state - 1 }
        if utf8.state ≠ 0 then (.incomplete, utf8) else (checkSequence utf8.chr utf8.size, utf8)
    else (.char c.toNat, utf8)
  else if term.scoAcs ≠ 0 ∧ c ≠ 0x1B ∧ c ≠ 0x0A ∧ c ≠ 0x0D ∧ c ≠ 0x08 then
    (.char ((if term.scoAcs = 2 then c ||| 0x80 else c).toNat ||| CSET_SCOACS), utf8)
  else (.char (translateCset term c), utf8)

theorem check_not_truncated (t size : Nat) : checkSequence t size ≠ .truncated := by
  unfold checkSequence
  split_ifs <;> nofun

/-- Only a byte inside a sequence is reported as breaking it off, and then the decoder is
    between sequences. -/
theorem truncated_state {term : View} {utf8 : TermUtf8Decode} {c : UInt8}
    (h : (termTranslate term utf8 c).1 = .truncated) :
    utf8.state ≠ 0 ∧ (termTranslate term utf8 c).2.state = 0 := by
  unfold termTranslate at h ⊢
  by_cases h0 : term.inUtf = true
  · rw [if_pos h0] at h ⊢
    by_cases h1 : utf8.state = 0
    · rw [if_pos h1] at h
      split_ifs at h
      split at h <;> cases h
    · rw [if_neg h1] at h ⊢
      refine ⟨h1, ?_⟩
      by_cases h2 : utf8.state ≤ 5
      · rw [if_pos h2] at h ⊢
        by_cases h3 : c &&& 0xC0 ≠ 0x80
        · rw [if_pos h3]
        · rw [if_neg h3] at h
          dsimp only at h
          split_ifs at h
          exact absurd h (check_not_truncated _ _)
      · rw [if_neg h2] at h
        cases h
  · rw [if_neg h0] at h
    split_ifs at h

/-! ## The loop -/

/-- `unget` is the byte to be translated again; `out` is what was put out. -/
structure TermOut where
  unget : Option UInt8
  inbuf : List UInt8
  utf8 : TermUtf8Decode
  out : List Nat
  deriving DecidableEq

namespace TermOut

/-- The next byte, from `unget` or from the buffer. -/
def take (s : TermOut) : Option (UInt8 × TermOut) :=
  match s.unget, s.inbuf with
  | some c, _ => some (c, { s with unget := none })
  | none, c :: chars => some (c, { s with inbuf := chars })
  | none, [] => none

/-- The character set translation and what follows from it. -/
def translate (term : List Nat → View) (s : TermOut) (c : UInt8) : TermOut :=
  if (term s.out).toplevel then
    match termTranslate (term s.out) s.utf8 c with
    | (.incomplete, utf8) => { s with utf8 }
    | (.truncated, utf8) => { s with utf8, unget := some c, out := s.out ++ [UCSERR] }
    | (.invalid, utf8) => { s with utf8, out := s.out ++ [UCSERR] }
    | (.char t, utf8) => { s with utf8, out := s.out ++ [t] }
  else { s with out := s.out ++ [c.toNat] }

/-- Bytes to be translated, one to be translated again, and a sequence to be broken off. -/
def work (s : TermOut) : Nat :=
  4 * s.inbuf.length + (if s.unget = none then 0 else 2) + (if s.utf8.state = 0 then 0 else 1)

theorem translate_inbuf (term : List Nat → View) (s : TermOut) (c : UInt8) : (s.translate term c).inbuf = s.inbuf := by
  unfold translate
  split
  · split <;> rfl
  · rfl

theorem translate_work (term : List Nat → View) {s : TermOut} (hs : s.unget = none) (c : UInt8) :
    (s.translate term c).work < 4 * s.inbuf.length + 2 + (if s.utf8.state = 0 then 0 else 1) := by
  by_cases ht : (term s.out).toplevel = true ∧ (termTranslate (term s.out) s.utf8 c).1 = .truncated
  · obtain ⟨h1, h2⟩ := truncated_state ht.2
    have he : s.translate term c =
        { s with utf8 := (termTranslate (term s.out) s.utf8 c).2, unget := some c, out := s.out ++ [UCSERR] } := by
      unfold translate
      rw [if_pos ht.1]
      rcases hr : termTranslate (term s.out) s.utf8 c with ⟨r, utf8⟩
      rw [hr] at ht
      obtain rfl : r = .truncated := ht.2
      rfl
    rw [he, work, if_neg h1]
    simp [h2]
  · have hu : (s.translate term c).unget = none := by
      unfold translate
      split
      · next h1 =>
        rcases hr : termTranslate (term s.out) s.utf8 c with ⟨_ | _ | _ | _, utf8⟩
        · exact hs
        · rw [hr] at ht
          exact absurd ⟨h1, rfl⟩ ht
        · exact hs
        · exact hs
      · exact hs
    rw [work, hu, translate_inbuf, if_pos rfl]
    split <;> split <;> omega

theorem take_work {term : List Nat → View} {s s' : TermOut} {c : UInt8} (h : s.take = some (c, s')) :
    (s'.translate term c).work < s.work := by
  rcases s with ⟨_ | d, inbuf, utf8, out⟩
  · cases inbuf with
    | nil => cases h
    | cons d chars =>
      cases h
      have := translate_work term (s := ⟨none, chars, utf8, out⟩) rfl c
      simp only [work, List.length_cons, if_true] at this ⊢
      omega
  · cases h
    have := translate_work term (s := ⟨none, inbuf, utf8, out⟩) rfl c
    simpa [work] using this

end TermOut

/-- The loop, until no byte is left. -/
def termOut (term : List Nat → View) (s : TermOut) : TermOut :=
  match _h : s.take with
  | none => s
  | some (c, s') => termOut term (s'.translate term c)
termination_by s.work
decreasing_by exact TermOut.take_work ‹_›

/-! ## One byte at a time -/

/-- What holds of every byte. -/
theorem forall_byte {P : UInt8 → Prop} (h : ∀ n < 256, P (UInt8.ofNat n)) (c : UInt8) : P c := by
  rw [← UInt8.ofNat_toNat (x := c)]
  exact h c.toNat (UInt8.toNat_lt c)

theorem startSequence_eq (c : UInt8) (hc : ¬ c < 0x80) :
    startSequence c = if follow c = 0 then none else some (follow c, payload c) := by
  refine forall_byte (P := fun c => ¬ c < 0x80 → startSequence c = if follow c = 0 then none else some (follow c, payload c))
    ?_ c hc
  decide +kernel

theorem and_C0 (c : UInt8) : c &&& 0xC0 = 0x80 ↔ isCont c = true :=
  forall_byte (P := fun c => c &&& 0xC0 = 0x80 ↔ isCont c = true) (by decide +kernel) c

theorem and_3F (c : UInt8) : (c &&& 0x3F).toNat = c.toNat % 64 := by
  rw [UInt8.toNat_and]
  exact Nat.and_two_pow_sub_one_eq_mod c.toNat 6

section Bytes

variable {v : View} (hv : v.inUtf = true) {utf8 : TermUtf8Decode} {c : UInt8}

include hv

theorem translate_ascii (h0 : utf8.state = 0) (hc : c < 0x80) :
    termTranslate v utf8 c = (.char (asciiChar v c), utf8) := by
  rw [termTranslate, if_pos hv, if_pos h0, if_pos hc]

theorem translate_start (h0 : utf8.state = 0) (hc : ¬ c < 0x80) (hf : follow c ≠ 0) :
    termTranslate v utf8 c = (.incomplete, ⟨follow c, payload c, follow c⟩) := by
  rw [termTranslate, if_pos hv, if_pos h0, if_neg hc, startSequence_eq c hc, if_neg hf]

theorem translate_stray (h0 : utf8.state = 0) (hc : ¬ c < 0x80) (hf : follow c = 0) :
    termTranslate v utf8 c = (.invalid, utf8) := by
  rw [termTranslate, if_pos hv, if_pos h0, if_neg hc, startSequence_eq c hc, if_pos hf]

theorem translate_break (h0 : utf8.state ≠ 0) (h5 : utf8.state ≤ 5) (hc : isCont c = false) :
    termTranslate v utf8 c = (.truncated, { utf8 with state := 0 }) := by
  have hne : c &&& 0xC0 ≠ 0x80 := by rw [Ne, and_C0, hc]; decide
  rw [termTranslate, if_pos hv, if_neg h0, if_pos h5, if_pos hne]

theorem translate_cont (h0 : utf8.state ≠ 0) (h5 : utf8.state ≤ 5) (hc : isCont c = true) :
    termTranslate v utf8 c =
      (if utf8.state ≠ 1 then .incomplete else checkSequence (extend utf8.chr [c]) utf8.size,
        ⟨utf8.state - 1, extend utf8.chr [c], utf8.size⟩) := by
  have hchr : utf8.chr <<< 6 ||| (c &&& 0x3F).toNat = extend utf8.chr [c] := by
    rw [and_3F, ← Nat.shiftLeft_add_eq_or_of_lt (Nat.mod_lt _ (by decide)), Nat.shiftLeft_eq]
    rfl
  rw [termTranslate, if_pos hv, if_neg h0, if_pos h5, if_neg (not_not.mpr ((and_C0 c).mpr hc))]
  dsimp only
  rw [hchr]
  by_cases h1 : utf8.state = 1
  · rw [if_neg (by omega), if_neg (by omega)]
  · rw [if_pos (by omega), if_pos h1]

end Bytes

/-! ## What a piece of the stream shows -/

/-- What is put out for the scalar value `t`. -/
def display (term : View) (t : Nat) : List Nat :=
  if t < 0x80 then [asciiChar term (UInt8.ofNat t)]
  else if t < 0xA0 then [0xFFFD]
  else if t = 0x2028 ∨ t = 0x2029 then [0x85]
  else if (0xE0000 ≤ t ∧ t ≤ 0xE007F) ∨ t = 0xFEFF then []
  else if t = 0xFFFE ∨ t = 0xFFFF then [UCSERR]
  else [t]

/-- A well-formed piece shows its character, any other one error character. -/
def shown (term : View) (p : List UInt8) : List Nat :=
  match scalarOf p with
  | some t => display term t
  | none => [UCSERR]

/-- What a translated byte puts out. -/
def Translated.output : Translated → List Nat
  | .incomplete => []
  | .truncated | .invalid => [UCSERR]
  | .char t => [t]

theorem scalarOf_none {p : List UInt8} (h : ∀ t, Encodes p t → False) : scalarOf p = none := by
  rcases hs : scalarOf p with _ | t
  · rfl
  · exact absurd (scalarOf_eq.mp hs) (h t)

/-- A sequence that lacks bytes is not well formed. -/
theorem shown_short (term : View) {b : UInt8} {cs : List UInt8} (h : cs.length < follow b) : shown term (b :: cs) = [UCSERR] := by
  have hnone : scalarOf (b :: cs) = none := by
    refine scalarOf_none fun t ⟨ht, he⟩ => ?_
    obtain ⟨b', cs', he', -, hlen, -⟩ := encodeUtf8_shape (lt_trans ht.1 (by decide : 0x110000 < 0x200000))
    obtain ⟨rfl, rfl⟩ := List.cons.inj (he.trans he')
    omega
  rw [shown, hnone]

theorem shown_stray (term : View) {b : UInt8} (hb : ¬ b < 0x80) (hf : follow b = 0) : shown term [b] = [UCSERR] := by
  have hge : 0x80 ≤ b.toNat := by
    rw [UInt8.lt_iff_toNat_lt] at hb
    exact Nat.not_lt.mp hb
  have hnone : scalarOf [b] = none := by
    refine scalarOf_none fun t ⟨ht, he⟩ => ?_
    have hval : t = b.toNat := by
      rw [← value_encodeUtf8 (lt_trans ht.1 (by decide)), ← he]
      show payload b = b.toNat
      rw [payload, hf]
    have := UInt8.toNat_lt b
    rw [encodeUtf8_two (by omega) (by omega)] at he
    cases he
  rw [shown, hnone]

theorem shown_ascii (term : View) {b : UInt8} (hb : b < 0x80) : shown term [b] = [asciiChar term b] := by
  have hlt : b.toNat < 0x80 := UInt8.lt_iff_toNat_lt.mp hb
  have hs : scalarOf [b] = some b.toNat :=
    scalarOf_eq.mpr ⟨⟨by omega, by omega⟩, by rw [encodeUtf8_one hlt, UInt8.ofNat_toNat]⟩
  rw [shown, hs]
  show display term b.toNat = _
  rw [display, if_pos hlt, UInt8.ofNat_toNat]

theorem overlong_iff {t size : Nat} (h1 : 1 ≤ size) (h5 : size ≤ 5) :
    (t < 0x80 ∨ (t < 0x800 ∧ size ≥ 2) ∨ (t < 0x10000 ∧ size ≥ 3) ∨ (t < 0x200000 ∧ size ≥ 4) ∨
      (t < 0x4000000 ∧ size ≥ 5)) ↔ t < least size := by
  match size, h1, h5 with
  | 1, _, _ => simp [least]
  | 2, _, _ => simp [least]; omega
  | 3, _, _ => simp [least]; omega
  | 4, _, _ => simp [least]; omega
  | 5, _, _ => simp [least]; omega

/-- Past the check for overlong sequences only the value counts. -/
theorem check_scalar (term : View) {t size : Nat} (h80 : 0x80 ≤ t)
    (hl : ¬ (t < 0x80 ∨ (t < 0x800 ∧ size ≥ 2) ∨ (t < 0x10000 ∧ size ≥ 3) ∨ (t < 0x200000 ∧ size ≥ 4) ∨
      (t < 0x4000000 ∧ size ≥ 5))) :
    (checkSequence t size).output = if Scalar t then display term t else [UCSERR] := by
  rw [checkSequence, if_neg hl]
  by_cases hs : Scalar t
  · rw [if_pos hs, display, if_neg (show ¬ t < 0x80 by omega)]
    obtain ⟨hlt, hsur⟩ := hs
    split_ifs <;> first | rfl | omega
  · rw [if_neg hs]
    have hbad : 0x110000 ≤ t ∨ (0xD800 ≤ t ∧ t < 0xE000) := by
      unfold Scalar at hs
      omega
    split_ifs <;> first | rfl | omega

theorem least_small : ∀ {n : Nat}, 1 ≤ n → n ≤ 3 → 0x80 ≤ least n
  | 1, _, _ => by decide
  | 2, _, _ => by decide
  | 3, _, _ => by decide

theorem least_large : ∀ {n : Nat}, 3 < n → n ≤ 5 → 0x200000 ≤ least n
  | 4, _, _ => by decide
  | 5, _, _ => by decide

/-- The checks accept exactly the well-formed sequences, and show them. -/
theorem check_output (term : View) {b : UInt8} {cs : List UInt8} (hlen : cs.length = follow b)
    (hcs : ∀ c ∈ cs, isCont c = true) (h1 : 1 ≤ cs.length) (h5 : cs.length ≤ 5) :
    (checkSequence (value (b :: cs)) cs.length).output = shown term (b :: cs) := by
  have hover := overlong_iff (t := value (b :: cs)) h1 h5
  by_cases hl : value (b :: cs) < least cs.length
  · -- overlong: what is written for the value is shorter
    have hnone : scalarOf (b :: cs) = none := by
      refine scalarOf_none fun t h => ?_
      obtain ⟨ht, he⟩ := h
      have hlt : t < 0x200000 := lt_trans ht.1 (by decide)
      obtain ⟨b', cs', he', -, -, -, hval, hmin⟩ := encodeUtf8_shape hlt
      obtain ⟨rfl, rfl⟩ := List.cons.inj (he.trans he')
      omega
    rw [checkSequence, if_pos (hover.mpr hl), shown, hnone]
    rfl
  · have hmin : least cs.length ≤ value (b :: cs) := Nat.not_lt.mp hl
    by_cases h3 : cs.length ≤ 3
    · -- what is left to be checked is that the value is a scalar
      have h80 : 0x80 ≤ value (b :: cs) := by
        have := least_small h1 h3
        omega
      rw [check_scalar term h80 (fun h => hl (hover.mp h)), shown]
      by_cases hsc : Scalar (value (b :: cs))
      · rw [if_pos hsc, scalarOf_eq.mpr ⟨hsc, (encodeUtf8_value hlen hcs h1 h3 hmin).symm⟩]
      · rw [if_neg hsc, scalarOf, if_neg (fun h => hsc h.1)]
    · -- five and six bytes are past the last code point
      have hbig : 0x200000 ≤ value (b :: cs) := by
        have := least_large (Nat.lt_of_not_le h3) h5
        omega
      have hnone : scalarOf (b :: cs) = none := by
        rw [scalarOf, if_neg]
        rintro ⟨⟨hlt, -⟩, -⟩
        omega
      rw [checkSequence, if_neg (fun h => hl (hover.mp h)), shown, hnone, if_neg (by omega), if_neg (by omega),
        if_neg (by omega), if_pos (by omega)]
      rfl

/-! ## Reading the stream piece by piece -/

/-- The terminal is at its top level, in UTF-8 mode. -/
structure Ready (term : View) : Prop where
  toplevel : term.toplevel = true
  inUtf : term.inUtf = true

section Reading

variable {term : List Nat → View} {utf8 : TermUtf8Decode} {out : List Nat}

theorem termOut_take {s t : TermOut} {c : UInt8} (h : s.take = some (c, t)) :
    termOut term s = termOut term (t.translate term c) := by
  rw [termOut]
  split
  · next he => rw [he] at h; cases h
  · next he =>
    rw [he] at h
    cases h
    rfl

theorem termOut_nil : termOut term ⟨none, [], utf8, out⟩ = ⟨none, [], utf8, out⟩ := by
  rw [termOut]
  split
  · rfl
  · next he => cases he

/-- A byte that does not break a sequence off. -/
theorem termOut_byte (hr : Ready (term out)) {c : UInt8} {r : Translated} {utf8' : TermUtf8Decode}
    (h : termTranslate (term out) utf8 c = (r, utf8')) (ht : r ≠ .truncated) (rest : List UInt8) :
    termOut term ⟨none, c :: rest, utf8, out⟩ = termOut term ⟨none, rest, utf8', out ++ r.output⟩ := by
  have hstep : TermOut.translate term ⟨none, rest, utf8, out⟩ c = ⟨none, rest, utf8', out ++ r.output⟩ := by
    unfold TermOut.translate
    rw [if_pos hr.toplevel]
    dsimp only
    rw [h]
    cases r with
    | incomplete => simp [Translated.output]
    | truncated => exact absurd rfl ht
    | invalid => rfl
    | char t => rfl
  rw [termOut_take (t := ⟨none, rest, utf8, out⟩) rfl, hstep]

/-- A byte that does is translated again after the error character. -/
theorem termOut_break (hr : Ready (term out)) {c : UInt8} (h0 : utf8.state ≠ 0) (h5 : utf8.state ≤ 5)
    (hc : isCont c = false) (rest : List UInt8) :
    termOut term ⟨none, c :: rest, utf8, out⟩ =
      termOut term ⟨none, c :: rest, { utf8 with state := 0 }, out ++ [UCSERR]⟩ := by
  have hstep : TermOut.translate term ⟨none, rest, utf8, out⟩ c =
      ⟨some c, rest, { utf8 with state := 0 }, out ++ [UCSERR]⟩ := by
    unfold TermOut.translate
    rw [if_pos hr.toplevel]
    dsimp only
    rw [translate_break hr.inUtf h0 h5 hc]
  rw [termOut_take (t := ⟨none, rest, utf8, out⟩) rfl, hstep, termOut_take (t := ⟨none, rest, _, _⟩) rfl,
    termOut_take (s := ⟨none, c :: rest, _, _⟩) (t := ⟨none, rest, _, _⟩) rfl]

/-- Continuation bytes before the last. -/
theorem termOut_conts (hr : Ready (term out)) {cs : List UInt8} (hcs : ∀ c ∈ cs, isCont c = true)
    (hlen : cs.length < utf8.state) (h5 : utf8.state ≤ 5) (rest : List UInt8) :
    termOut term ⟨none, cs ++ rest, utf8, out⟩ =
      termOut term ⟨none, rest, ⟨utf8.state - cs.length, extend utf8.chr cs, utf8.size⟩, out⟩ := by
  induction cs generalizing utf8 with
  | nil => rfl
  | cons c cs ih =>
    rw [List.length_cons] at hlen
    have hc := translate_cont hr.inUtf (by omega) h5 (hcs c List.mem_cons_self)
    rw [if_pos (by omega)] at hc
    rw [List.cons_append, termOut_byte hr hc nofun, Translated.output, List.append_nil,
      ih (fun c hc => hcs c (List.mem_cons_of_mem _ hc)) (by dsimp only; omega) (by dsimp only; omega)]
    have hst : utf8.state - 1 - cs.length = utf8.state - (cs.length + 1) := by omega
    dsimp only
    rw [List.length_cons, hst]
    rfl

theorem follow_le (b : UInt8) : follow b ≤ 5 := by
  unfold follow
  split_ifs <;> omega

/-- A complete piece shows what it is to show, and leaves the decoder between sequences. -/
theorem termOut_piece (hr : Ready (term out)) (h0 : utf8.state = 0) {b : UInt8} {cs : List UInt8}
    (hlen : cs.length = follow b) (hcs : ∀ c ∈ cs, isCont c = true) (rest : List UInt8) :
    ∃ utf8', utf8'.state = 0 ∧ termOut term ⟨none, b :: cs ++ rest, utf8, out⟩ =
      termOut term ⟨none, rest, utf8', out ++ shown (term out) (b :: cs)⟩ := by
  by_cases hb : b < 0x80
  · have hf : follow b = 0 := by
      have : b.toNat < 0x80 := UInt8.lt_iff_toNat_lt.mp hb
      rw [follow, if_pos (by omega)]
    obtain rfl : cs = [] := List.length_eq_zero_iff.mp (hlen.trans hf)
    refine ⟨utf8, h0, ?_⟩
    rw [shown_ascii (term out) hb]
    exact termOut_byte hr (translate_ascii hr.inUtf h0 hb) (fun h => by cases h) rest
  by_cases hf : follow b = 0
  · obtain rfl : cs = [] := List.length_eq_zero_iff.mp (hlen.trans hf)
    refine ⟨utf8, h0, ?_⟩
    rw [shown_stray (term out) hb hf]
    exact termOut_byte hr (translate_stray hr.inUtf h0 hb hf) (fun h => by cases h) rest
  · have hf5 : follow b ≤ 5 := follow_le b
    obtain ⟨init, last, rfl⟩ : ∃ init last, cs = init ++ [last] :=
      ⟨_, _, (List.dropLast_append_getLast (List.ne_nil_of_length_pos (by omega))).symm⟩
    rw [List.length_append, List.length_singleton] at hlen
    have hinit : ∀ c ∈ init, isCont c = true := fun c hc => hcs c (List.mem_append_left _ hc)
    have hlast : isCont last = true := hcs last (List.mem_append_right _ List.mem_cons_self)
    have hone : follow b - init.length = 1 := by omega
    let before : TermUtf8Decode := ⟨follow b - init.length, extend (payload b) init, follow b⟩
    have hval : extend before.chr [last] = value (b :: (init ++ [last])) := by
      simp only [before, value, extend, List.foldl_append]
    have hc := translate_cont hr.inUtf (show before.state ≠ 0 by show follow b - init.length ≠ 0; omega)
      (show follow b - init.length ≤ 5 by omega) hlast
    rw [if_neg (not_not.mpr hone), hval] at hc
    have hcheck := @check_output (term out) b (init ++ [last]) (by simpa using hlen) hcs (by simp)
      (by simp; omega)
    rw [List.length_append, List.length_singleton, hlen] at hcheck
    refine ⟨⟨follow b - init.length - 1, value (b :: (init ++ [last])), follow b⟩, ?_, ?_⟩
    · show follow b - init.length - 1 = 0
      omega
    · calc termOut term ⟨none, b :: (init ++ [last]) ++ rest, utf8, out⟩
          = termOut term ⟨none, b :: (init ++ (last :: rest)), utf8, out⟩ := by simp
        _ = termOut term ⟨none, init ++ (last :: rest), ⟨follow b, payload b, follow b⟩, out⟩ := by
            rw [termOut_byte hr (translate_start hr.inUtf h0 hb hf) (fun h => by cases h), Translated.output, List.append_nil]
        _ = termOut term ⟨none, last :: rest, before, out⟩ :=
            termOut_conts hr hinit (show init.length < follow b by omega) hf5 _
        _ = _ := by rw [termOut_byte hr hc (check_not_truncated _ _), hcheck]

/-- A piece that lacks bytes is left open at the end of the stream, and breaks off with an
    error character where something else comes. -/
theorem termOut_short (hr : Ready (term out)) (h0 : utf8.state = 0) {b : UInt8} {cs : List UInt8}
    (hlen : cs.length < follow b) (hcs : ∀ c ∈ cs, isCont c = true) (rest : List UInt8) :
    ∃ utf8', (utf8'.state ≠ 0 ∧ utf8'.state ≤ 5) ∧
      termOut term ⟨none, b :: cs ++ rest, utf8, out⟩ = termOut term ⟨none, rest, utf8', out⟩ := by
  have hb : ¬ b < 0x80 := by
    intro hb
    have : b.toNat < 0x80 := UInt8.lt_iff_toNat_lt.mp hb
    rw [follow, if_pos (by omega)] at hlen
    omega
  have hf5 : follow b ≤ 5 := follow_le b
  refine ⟨⟨follow b - cs.length, extend (payload b) cs, follow b⟩, ⟨?_, ?_⟩, ?_⟩
  · show follow b - cs.length ≠ 0
    omega
  · show follow b - cs.length ≤ 5
    omega
  · calc termOut term ⟨none, b :: (cs ++ rest), utf8, out⟩
        = termOut term ⟨none, cs ++ rest, ⟨follow b, payload b, follow b⟩, out⟩ := by
          rw [termOut_byte hr (translate_start hr.inUtf h0 hb (by omega)) (fun h => by cases h), Translated.output, List.append_nil]
      _ = _ := termOut_conts hr hcs hlen hf5 rest

/-- What was put out stays. -/
theorem termOut_grows (s : TermOut) : s.out <+: (termOut term s).out := by
  induction s using termOut.induct term with
  | case1 s h =>
    rw [termOut]
    split
    · exact List.prefix_rfl
    · next he => rw [h] at he; cases he
  | case2 s c s' h ih =>
    rw [termOut_take h]
    refine List.IsPrefix.trans ?_ ih
    have hout : s'.out = s.out := by
      rcases s with ⟨_ | d, _ | ⟨e, chars⟩, utf8, out⟩ <;> cases h <;> rfl
    rw [← hout]
    unfold TermOut.translate
    split
    · split
      · exact List.prefix_rfl
      · exact List.prefix_append _ _
      · exact List.prefix_append _ _
      · exact List.prefix_append _ _
    · exact List.prefix_append _ _

end Reading

/-! ## The whole stream -/

/-- The lead bytes of a stream, each with the continuation bytes that belong to it. -/
def pieces (bytes : List UInt8) : List (List UInt8) := Leads.cut follow isCont bytes

/-- The last piece lacks bytes. -/
def Unfinished (ps : List (List UInt8)) : Prop := ∃ p ∈ ps.getLast?, ¬ Complete p

/-- What the pieces show, one after the other. -/
def outputs (term : List Nat → View) : List Nat → List (List UInt8) → List Nat
  | out, [] => out
  | out, p :: ps => outputs term (out ++ shown (term out) p) ps

/-- During the whole run the terminal is at its top level in UTF-8 mode. -/
def Steady (term : List Nat → View) (s : TermOut) : Prop :=
  ∀ h, s.out <+: h → h <+: (termOut term s).out → Ready (term h)

theorem not_unfinished_nil : ¬ Unfinished [] := by
  rintro ⟨p, hp, -⟩
  cases hp

theorem unfinished_cons {p : List UInt8} {ps : List (List UInt8)} (h : Complete p ∨ ps ≠ []) :
    Unfinished (p :: ps) ↔ Unfinished ps := by
  cases ps with
  | nil =>
    refine iff_of_false ?_ not_unfinished_nil
    rintro ⟨q, hq, hc⟩
    rw [List.getLast?_singleton] at hq
    obtain rfl := Option.mem_some_iff.mp hq
    exact hc (h.resolve_right (not_not.mpr rfl))
  | cons q qs => rw [Unfinished, Unfinished, List.getLast?_cons_cons]

theorem complete_iff {b : UInt8} {cs : List UInt8} (hcs : ∀ c ∈ cs, isCont c = true) :
    Complete (b :: cs) ↔ cs.length = follow b := by
  constructor
  · rintro ⟨b', cs', he, hlen, -⟩
    obtain ⟨rfl, rfl⟩ := List.cons.inj he
    exact hlen
  · exact fun h => ⟨b, cs, rfl, h, hcs⟩

/-- The end of a run over a stream cut into `ps`: everything has been shown, or the last
    piece is still open. -/
structure ReadThrough (term : List Nat → View) (out : List Nat) (ps : List (List UInt8)) (fin : TermOut) : Prop where
  finished : ¬ Unfinished ps → fin.utf8.state = 0 ∧ fin.out = outputs term out ps
  unfinished : Unfinished ps → fin.utf8.state ≠ 0 ∧ fin.out ++ [UCSERR] = outputs term out ps

theorem Steady.ready {term : List Nat → View} {s : TermOut} (h : Steady term s) : Ready (term s.out) :=
  h s.out List.prefix_rfl (termOut_grows s)

/-- A state that the same run comes by. -/
theorem Steady.later {term : List Nat → View} {s s' : TermOut} (h : Steady term s) (he : termOut term s = termOut term s')
    (ho : s.out <+: s'.out) : Steady term s' := by
  intro k hk hk'
  exact h k (ho.trans hk) (he ▸ hk')

theorem ReadThrough.cons {term : List Nat → View} {out : List Nat} {p : List UInt8} {ps : List (List UInt8)}
    {fin : TermOut} (h : ReadThrough term (out ++ shown (term out) p) ps fin) (hp : Complete p ∨ ps ≠ []) :
    ReadThrough term out (p :: ps) fin :=
  ⟨fun hu => h.finished ((unfinished_cons hp).not.mp hu), fun hu => h.unfinished ((unfinished_cons hp).mp hu)⟩

/-- One piece and then the rest of the stream. -/
theorem read_piece {term : List Nat → View} {b : UInt8} {cs rest : List UInt8} {utf8 : TermUtf8Decode} {out : List Nat}
    (hcs : ∀ c ∈ cs, isCont c = true) (hle : cs.length ≤ follow b)
    (hnext : cs.length < follow b → ∀ c ∈ rest.head?, isCont c = false)
    (ih : ∀ {utf8 out}, Steady term ⟨none, rest, utf8, out⟩ → utf8.state = 0 →
      ReadThrough term out (pieces rest) (termOut term ⟨none, rest, utf8, out⟩))
    (h : Steady term ⟨none, b :: cs ++ rest, utf8, out⟩) (h0 : utf8.state = 0) :
    ReadThrough term out ((b :: cs) :: pieces rest) (termOut term ⟨none, b :: cs ++ rest, utf8, out⟩) := by
  have hr : Ready (term out) := h.ready
  rcases hle.eq_or_lt with hlen | hlen
  · obtain ⟨utf8', h0', he⟩ := termOut_piece hr h0 hlen hcs rest
    rw [he]
    exact (ih (h.later he (List.prefix_append _ _)) h0').cons (Or.inl ((complete_iff hcs).mpr hlen))
  · obtain ⟨utf8', ⟨hne, h5⟩, he⟩ := termOut_short hr h0 hlen hcs rest
    have hshown := shown_short (term out) hlen
    cases rest with
    | nil =>
      -- the stream ends inside the sequence
      have hnot : ¬ Complete (b :: cs) := fun hc => by
        have := (complete_iff hcs).mp hc
        omega
      have hu : Unfinished [b :: cs] := ⟨b :: cs, rfl, hnot⟩
      rw [he, termOut_nil, pieces, Leads.cut_nil]
      refine ⟨fun hnu => absurd hu hnu, fun _ => ⟨hne, ?_⟩⟩
      show out ++ [UCSERR] = out ++ shown (term out) (b :: cs)
      rw [hshown]
    | cons c rest =>
      have hb := termOut_break (c := c) hr hne h5 (hnext hlen c rfl) rest
      have hne' : pieces (c :: rest) ≠ [] := by
        rw [pieces, Ne, Leads.cut_eq_nil]
        exact List.cons_ne_nil c rest
      have hrest := ih (h.later (he.trans hb) (List.prefix_append _ _)) rfl
      rw [← hb, ← he, ← hshown] at hrest
      exact hrest.cons (Or.inr hne')

theorem termOut_pieces {term : List Nat → View} {bytes : List UInt8} {utf8 : TermUtf8Decode} {out : List Nat}
    (h : Steady term ⟨none, bytes, utf8, out⟩) (h0 : utf8.state = 0) :
    ReadThrough term out (pieces bytes) (termOut term ⟨none, bytes, utf8, out⟩) := by
  induction bytes using Leads.cut.induct follow isCont generalizing utf8 out with
  | case1 =>
    rw [termOut_nil, pieces, Leads.cut_nil]
    exact ⟨fun _ => ⟨h0, rfl⟩, fun hu => absurd hu not_unfinished_nil⟩
  | case2 b bs ih =>
    have hbs := Leads.run_append_drop isCont (follow b) bs
    have hsplit : b :: bs = b :: Leads.run isCont (follow b) bs ++ bs.drop (Leads.run isCont (follow b) bs).length := by
      rw [List.cons_append, hbs]
    have key := read_piece (Leads.run_all isCont (follow b) bs) (Leads.run_le isCont (follow b) bs)
      (Leads.run_next isCont) ih (hsplit ▸ h) h0
    rw [← hsplit] at key
    rw [pieces, Leads.cut_cons]
    exact key

/-! ## Well-formed characters in the stream -/

/-- A code point that is not dropped, replaced or taken for an error. -/
structure Displayable (t : Nat) : Prop where
  scalar : Scalar t
  not_c1 : ¬ (0x80 ≤ t ∧ t < 0xA0)
  not_separator : t ≠ 0x2028 ∧ t ≠ 0x2029
  not_tag : ¬ (0xE0000 ≤ t ∧ t ≤ 0xE007F)
  not_bom : t ≠ 0xFEFF
  not_nonchar : t ≠ 0xFFFE ∧ t ≠ 0xFFFF

/-- The character put out for a code point. -/
def point (term : View) (t : Nat) : Nat := if t < 0x80 then asciiChar term (UInt8.ofNat t) else t

/-- The characters of some code points, one after the other. -/
def points (term : List Nat → View) : List Nat → List Nat → List Nat
  | out, [] => out
  | out, t :: ts => points term (out ++ [point (term out) t]) ts

theorem display_point (term : View) {t : Nat} (h : Displayable t) : display term t = [point term t] := by
  obtain ⟨hs, hc, hsep, htag, hbom, hnon⟩ := h
  unfold display point
  split_ifs <;> first | rfl | omega

theorem shown_encoded (term : View) {p : List UInt8} {t : Nat} (h : Encodes p t) (hd : Displayable t) :
    shown term p = [point term t] := by
  rw [shown, scalarOf_eq.mpr h]
  exact display_point term hd

theorem shown_ill_formed (term : View) {p : List UInt8} (h : ∀ t, ¬ Encodes p t) : shown term p = [UCSERR] := by
  rw [shown, scalarOf_none h]

/-- Overlong sequences and surrogates are not well formed. -/
theorem not_encodes {b : UInt8} {cs : List UInt8}
    (h : value (b :: cs) < least cs.length ∨ (0xD800 ≤ value (b :: cs) ∧ value (b :: cs) < 0xE000)) (t : Nat) :
    ¬ Encodes (b :: cs) t := by
  rintro ⟨⟨hlt, hsur⟩, he⟩
  obtain ⟨b', cs', he', -, -, -, hval, hmin⟩ := encodeUtf8_shape (lt_trans hlt (by decide : 0x110000 < 0x200000))
  obtain ⟨rfl, rfl⟩ := List.cons.inj (he.trans he')
  omega

/-- A written character is a piece wherever it stands. -/
theorem pieces_encoded {t : Nat} (ht : Scalar t) (pre post : List UInt8) :
    pieces (pre ++ Utils.Utf8.encodeUtf8 t ++ post) = pieces pre ++ Utils.Utf8.encodeUtf8 t :: pieces post := by
  obtain ⟨b, cs, he, hb, hlen, hcs, -, -⟩ := encodeUtf8_shape (lt_trans ht.1 (by decide : 0x110000 < 0x200000))
  have hhead : ∀ c ∈ (b :: cs ++ post).head?, isCont c = false := by
    rintro c ⟨⟩
    exact hb
  rw [he, List.append_assoc]
  exact (Leads.cut_append follow isCont hhead pre).trans
    (congrArg (pieces pre ++ ·) (Leads.cut_complete follow isCont hlen hcs post))

theorem pieces_written (pre : List UInt8) {ts : List Nat} (hts : ∀ t ∈ ts, Scalar t) :
    pieces (pre ++ ts.flatMap Utils.Utf8.encodeUtf8) = pieces pre ++ ts.map Utils.Utf8.encodeUtf8 := by
  induction ts generalizing pre with
  | nil => rw [List.flatMap_nil, List.append_nil, List.map_nil, List.append_nil]
  | cons t ts ih =>
    have ht := hts t List.mem_cons_self
    have hrest : pieces (ts.flatMap Utils.Utf8.encodeUtf8) = ts.map Utils.Utf8.encodeUtf8 := by
      rw [← List.nil_append (ts.flatMap Utils.Utf8.encodeUtf8), ih [] fun t ht => hts t (List.mem_cons_of_mem _ ht)]
      rw [pieces, Leads.cut_nil, List.nil_append]
    rw [List.flatMap_cons, ← List.append_assoc, pieces_encoded ht, hrest, List.map_cons]

theorem outputs_append (term : List Nat → View) (out : List Nat) (ps qs : List (List UInt8)) :
    outputs term out (ps ++ qs) = outputs term (outputs term out ps) qs := by
  induction ps generalizing out with
  | nil => rfl
  | cons p ps ih => exact ih _

theorem outputs_written (term : List Nat → View) {ts : List Nat} (hts : ∀ t ∈ ts, Displayable t) (out : List Nat) :
    outputs term out (ts.map Utils.Utf8.encodeUtf8) = points term out ts := by
  induction ts generalizing out with
  | nil => rfl
  | cons t ts ih =>
    have ht := hts t List.mem_cons_self
    rw [List.map_cons, outputs, points, shown_encoded (term out) ⟨ht.scalar, rfl⟩ ht]
    exact ih (fun t ht => hts t (List.mem_cons_of_mem _ ht)) _

theorem complete_encoded {t : Nat} (ht : Scalar t) : Complete (Utils.Utf8.encodeUtf8 t) := by
  obtain ⟨b, cs, he, -, hlen, hcs, -, -⟩ := encodeUtf8_shape (lt_trans ht.1 (by decide : 0x110000 < 0x200000))
  exact ⟨b, cs, he, hlen, hcs⟩

theorem not_unfinished_written {ps : List (List UInt8)} {ts : List Nat} (hne : ts ≠ []) (hts : ∀ t ∈ ts, Scalar t) :
    ¬ Unfinished (ps ++ ts.map Utils.Utf8.encodeUtf8) := by
  rintro ⟨p, hp, hc⟩
  have hmap : ts.map Utils.Utf8.encodeUtf8 ≠ [] := by simpa using hne
  rw [List.getLast?_append_of_ne_nil _ hmap] at hp
  obtain ⟨t, ht, rfl⟩ := List.mem_map.mp (List.mem_of_getLast? hp)
  exact hc (complete_encoded (hts t ht))

/-! ## Streams that arrive in parts -/

theorem translate_more (term : List Nat → View) (s : TermOut) (c : UInt8) (more : List UInt8) :
    TermOut.translate term { s with inbuf := s.inbuf ++ more } c =
      { s.translate term c with inbuf := (s.translate term c).inbuf ++ more } := by
  unfold TermOut.translate
  dsimp only
  split
  · split <;> rfl
  · rfl

theorem take_more {s s' : TermOut} {c : UInt8} (h : s.take = some (c, s')) (more : List UInt8) :
    TermOut.take { s with inbuf := s.inbuf ++ more } = some (c, { s' with inbuf := s'.inbuf ++ more }) := by
  rcases s with ⟨_ | d, _ | ⟨e, chars⟩, utf8, out⟩ <;> cases h <;> rfl

/-- It makes no difference where a stream is split. -/
theorem termOut_more (term : List Nat → View) (s : TermOut) (more : List UInt8) :
    termOut term { s with inbuf := s.inbuf ++ more } = termOut term { termOut term s with inbuf := more } := by
  induction s using termOut.induct term with
  | case1 s h =>
    rcases s with ⟨_ | d, _ | ⟨e, chars⟩, utf8, out⟩
    · rw [termOut_nil]
      rfl
    all_goals cases h
  | case2 s c s' h ih => rw [termOut_take (take_more h more), termOut_take h, translate_more, ih]

/-! ## The theorem -/

/-- What decoding a stream is to do, from a state between sequences. -/
structure Decoded (term : List Nat → View) (bytes : List UInt8) (utf8 : TermUtf8Decode) (out : List Nat) : Prop where
  /-- The pieces are put out one after the other. -/
  run : ReadThrough term out (pieces bytes) (termOut term ⟨none, bytes, utf8, out⟩)
  /-- They are the stream, and each is a byte with no more continuation bytes than it announces. -/
  whole : (pieces bytes).flatten = bytes
  shape : ∀ p ∈ pieces bytes, ∃ b cs, p = b :: cs ∧ cs.length ≤ follow b ∧ ∀ c ∈ cs, isCont c = true
  /-- One error character for each piece that is not well formed, such as an overlong one or a surrogate. -/
  ill_formed : ∀ p ∈ pieces bytes, (∀ t, ¬ Encodes p t) → ∀ v, shown v p = [UCSERR]
  overlong_or_surrogate : ∀ b cs, b :: cs ∈ pieces bytes →
    value (b :: cs) < least cs.length ∨ (0xD800 ≤ value (b :: cs) ∧ value (b :: cs) < 0xE000) →
    ∀ t, ¬ Encodes (b :: cs) t
  well_formed : ∀ p ∈ pieces bytes, ∀ t, Encodes p t → Displayable t → ∀ v, shown v p = [point v t]
  /-- No well-formed sequence loses its lead byte to what comes before it. -/
  not_swallowed : ∀ pre t post, Scalar t → bytes = pre ++ Utils.Utf8.encodeUtf8 t ++ post →
    pieces bytes = pieces pre ++ Utils.Utf8.encodeUtf8 t :: pieces post
  /-- What was written comes out in order, whatever came before. -/
  in_order : ∀ garbage ts, ts ≠ [] → (∀ t ∈ ts, Displayable t) → bytes = garbage ++ ts.flatMap Utils.Utf8.encodeUtf8 →
    (termOut term ⟨none, bytes, utf8, out⟩).utf8.state = 0 ∧
      (termOut term ⟨none, bytes, utf8, out⟩).out = points term (outputs term out (pieces garbage)) ts
  split : ∀ first more, bytes = first ++ more →
    termOut term ⟨none, bytes, utf8, out⟩ = termOut term { termOut term ⟨none, first, utf8, out⟩ with inbuf := more }

/-- Every stream during which the terminal stays at its top level in UTF-8 mode. -/
theorem utf8_decoded (term : List Nat → View) (bytes : List UInt8) (utf8 : TermUtf8Decode) (out : List Nat)
    (h0 : utf8.state = 0) (h : Steady term ⟨none, bytes, utf8, out⟩) : Decoded term bytes utf8 out := by
  have hrun := termOut_pieces h h0
  refine
    { run := hrun
      whole := Leads.cut_flatten follow isCont bytes
      shape := Leads.cut_shape follow isCont bytes
      ill_formed := fun p _ hp v => shown_ill_formed v hp
      overlong_or_surrogate := fun b cs _ hp => not_encodes hp
      well_formed := fun p _ t hp hd v => shown_encoded v hp hd
      not_swallowed := ?_
      in_order := ?_
      split := ?_ }
  · rintro pre t post ht rfl
    exact pieces_encoded ht pre post
  · rintro garbage ts hne hts rfl
    have hs : ∀ t ∈ ts, Scalar t := fun t ht => (hts t ht).scalar
    rw [pieces_written garbage hs] at hrun
    obtain ⟨hst, hout⟩ := hrun.finished (not_unfinished_written hne hs)
    refine ⟨hst, ?_⟩
    rw [hout, outputs_append, outputs_written term hts]
  · rintro first more rfl
    exact termOut_more term ⟨none, first, utf8, out⟩ more

/-- A terminal with its own fonts, ASCII selected. -/
def plain : View where
  toplevel := true
  inUtf := true
  unitabCtrl c := if c < 0x20 || (0x7F ≤ c && c < 0xA0) then c else 0xFF
  utf8linedraw := false
  csetAttr := CSET_ASCII
  scoAcs := 0

/-- A euro sign cut short, and then a whole one. -/
theorem euro_after_half_a_euro :
    (termOut (fun _ => plain) ⟨none, [0xE2, 0x82] ++ [0x20AC].flatMap Utils.Utf8.encodeUtf8, ⟨0, 0, 0⟩, []⟩).out =
      [UCSERR, 0x20AC] := by
  have hd : Displayable 0x20AC := ⟨by decide, by decide, by decide, by decide, by decide, by decide⟩
  have hp : points (fun _ => plain) (outputs (fun _ => plain) [] (pieces [0xE2, 0x82])) [0x20AC] = [UCSERR, 0x20AC] := by
    decide +kernel
  rw [← hp]
  exact ((utf8_decoded (fun _ => plain) ([0xE2, 0x82] ++ [0x20AC].flatMap Utils.Utf8.encodeUtf8) ⟨0, 0, 0⟩ [] rfl
    (fun _ _ _ => ⟨rfl, rfl⟩)).in_order [0xE2, 0x82] [0x20AC] (List.cons_ne_nil _ _) (by simpa using hd) rfl).2

/-- The letter A is displayable but is put out with the tag of its font, not as its code
    point. And E0 80, which begins no well-formed sequence, gives one error character
    together with the byte behind it. -/
theorem ascii_is_tagged :
    (Displayable 0x41 ∧ (termOut (fun _ => plain) ⟨none, Utils.Utf8.encodeUtf8 0x41, ⟨0, 0, 0⟩, []⟩).out = [0xD841]) ∧
      (∀ t, Scalar t → ¬ [0xE0, 0x80] <+: Utils.Utf8.encodeUtf8 t) ∧
      (termOut (fun _ => plain) ⟨none, [0xE0, 0x80, 0x80], ⟨0, 0, 0⟩, []⟩).out = [UCSERR] := by
  refine ⟨⟨⟨by decide, by decide, by decide, by decide, by decide, by decide⟩, by decide +kernel⟩, ?_, by decide +kernel⟩
  rintro t ht ⟨post, hp⟩
  obtain ⟨b, cs, he, -, hlen, -, hval, hmin⟩ := encodeUtf8_shape (lt_trans ht.1 (by decide : 0x110000 < 0x200000))
  obtain ⟨rfl, rfl⟩ := List.cons.inj (hp.trans he)
  have hpost : post.length = 1 := Nat.succ.inj hlen
  obtain ⟨d, rfl⟩ := List.length_eq_one_iff.mp hpost
  have hsmall : value [0xE0, 0x80, d] = d.toNat % 64 := by
    show (0 * 64 + 0) * 64 + d.toNat % 64 = _
    omega
  have hbig : 0x800 ≤ t := hmin
  have : value [0xE0, 0x80, d] = t := hval
  omega

end Putty.Terminal.Utf8
