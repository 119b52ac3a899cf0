/-
  Putty.Utils.BinarySink — writing a packet field by field (`marshal.c`), and reading
  back what was written.

  `src.Reads l` says that a source has met no error and that `l` is what is left of its
  data. A reader that finds its own field's encoding in front of `l` gives the field
  and leaves `l` (`getData_reads`, `getString_reads`, `getBool_reads`, `getUint32_reads`).
-/

import Mathlib.Tactic.Linarith
import Putty.Utils.BinarySource

namespace Putty.Utils

/-- The bytes of a string literal of the source, without its terminator. -/
def text (s : String) : List UInt8 := s.toList.map fun c => UInt8.ofNat c.toNat

/-- PUT_32BIT_MSB_FIRST. -/
def put32BitMsbFirst (n : Nat) : List UInt8 :=
  [UInt8.ofNat (n / 16777216), UInt8.ofNat (n / 65536), UInt8.ofNat (n / 256), UInt8.ofNat n]

def putString (data : List UInt8) : List UInt8 := put32BitMsbFirst data.length ++ data

def putBool (b : Bool) : List UInt8 := [if b then 1 else 0]

@[simp] theorem put32_length (n : Nat) : (put32BitMsbFirst n).length = 4 := rfl

theorem toNat_ofNat_div {n k : Nat} : (UInt8.ofNat (n / k)).toUInt32.toNat = n / k % 256 := by
  rw [UInt8.toNat_toUInt32, UInt8.toNat_ofNat']

theorem get32_put32 {n : Nat} (h : n < 2 ^ 32) : (BinarySource.get32BitMsbFirst (put32BitMsbFirst n)).toNat = n := by
  have h0 : (UInt8.ofNat n).toUInt32.toNat = n % 256 := by rw [UInt8.toNat_toUInt32, UInt8.toNat_ofNat']
  simp only [BinarySource.get32BitMsbFirst, put32BitMsbFirst, List.foldl_cons, List.foldl_nil, UInt32.toNat_add,
    UInt32.toNat_mul, toNat_ofNat_div, h0, UInt32.toNat_zero, UInt32.reduceToNat]
  omega

/-- The field holds 32 bits of a number. -/
theorem put32_mod (n : Nat) : put32BitMsbFirst (n % 2 ^ 32) = put32BitMsbFirst n := by
  have h : ∀ a b : Nat, a % 256 = b % 256 → UInt8.ofNat a = UInt8.ofNat b := fun a b h =>
    UInt8.toNat.inj (by rw [UInt8.toNat_ofNat', UInt8.toNat_ofNat']; exact h)
  unfold put32BitMsbFirst
  congr 1
  · exact h _ _ (by omega)
  · congr 1
    · exact h _ _ (by omega)
    · congr 1
      · exact h _ _ (by omega)
      · congr 1
        exact h _ _ (by omega)

/-! ## Reading back -/

namespace BinarySource

/-- No error so far, and `l` is still to be read. -/
def Reads (src : BinarySource) (l : List UInt8) : Prop := src.err = false ∧ src.data.drop src.pos = l

theorem ofData_reads (data : List UInt8) : (ofData data).Reads data := ⟨rfl, rfl⟩

theorem consume_reads {src : BinarySource} {b l : List UInt8} (h : src.Reads (b ++ l)) :
    (src.consume b.length).1 = some b ∧ (src.consume b.length).2.Reads l := by
  obtain ⟨he, hd⟩ := h
  have hlen : b.length ≤ src.data.length - src.pos := by
    rw [← List.length_drop, hd, List.length_append]; omega
  unfold consume
  rw [he, if_neg (by decide), dif_pos hlen]
  refine ⟨?_, rfl, ?_⟩
  · show some ((src.data.drop src.pos).take b.length) = some b
    rw [hd, List.take_left]
  · show src.data.drop (src.pos + b.length) = l
    rw [← List.drop_drop, hd, List.drop_left]

theorem consume_congr {src src' : BinarySource} (he : src.err = src'.err)
    (hd : src.data.drop src.pos = src'.data.drop src'.pos) (n : Nat) :
    (src.consume n).1 = (src'.consume n).1 ∧ (src.consume n).2.err = (src'.consume n).2.err ∧
      (src.consume n).2.data.drop (src.consume n).2.pos = (src'.consume n).2.data.drop (src'.consume n).2.pos := by
  have hlen : src.data.length - src.pos = src'.data.length - src'.pos := by
    rw [← List.length_drop, hd, List.length_drop]
  unfold consume
  by_cases h1 : src.err = true
  · rw [if_pos h1, if_pos (he ▸ h1)]
    exact ⟨rfl, he, hd⟩
  · rw [if_neg h1, if_neg (he ▸ h1)]
    by_cases h2 : n ≤ src.data.length - src.pos
    · rw [dif_pos h2, dif_pos (hlen ▸ h2)]
      refine ⟨by rw [hd], he, ?_⟩
      show src.data.drop (src.pos + n) = src'.data.drop (src'.pos + n)
      rw [← List.drop_drop, hd, List.drop_drop]
    · rw [dif_neg h2, dif_neg (hlen ▸ h2)]
      exact ⟨rfl, rfl, hd⟩

/-- What is read depends on what is left only. -/
theorem getString_congr {src src' : BinarySource} (he : src.err = src'.err)
    (hd : src.data.drop src.pos = src'.data.drop src'.pos) : src.getString.1 = src'.getString.1 := by
  obtain ⟨h1, h2, h3⟩ := consume_congr he hd 4
  unfold getString
  rcases hc : src.consume 4 with ⟨o, src1⟩
  rcases hc' : src'.consume 4 with ⟨o', src1'⟩
  rw [hc, hc'] at h1 h2 h3
  obtain rfl : o = o' := h1
  cases o with
  | none => rfl
  | some b =>
    obtain ⟨h4, -, -⟩ := consume_congr h2 h3 (get32BitMsbFirst b).toNat
    dsimp only
    rcases hs : src1.consume (get32BitMsbFirst b).toNat with ⟨_ | t, src2⟩
    · rcases hs' : src1'.consume (get32BitMsbFirst b).toNat with ⟨_ | t', src2'⟩
      · rfl
      · rw [hs, hs'] at h4
        cases h4
    · rcases hs' : src1'.consume (get32BitMsbFirst b).toNat with ⟨_ | t', src2'⟩
      · rw [hs, hs'] at h4
        cases h4
      · rw [hs, hs'] at h4
        exact Option.some.inj h4

theorem getData_reads {src : BinarySource} {b l : List UInt8} (h : src.Reads (b ++ l)) :
    (src.getData b.length).1 = b ∧ (src.getData b.length).2.Reads l := by
  obtain ⟨h1, h2⟩ := consume_reads h
  unfold getData
  rcases hc : src.consume b.length with ⟨o, src'⟩
  rw [hc] at h1 h2
  obtain rfl : o = some b := h1
  exact ⟨rfl, h2⟩

theorem getByte_reads {src : BinarySource} {b : UInt8} {l : List UInt8} (h : src.Reads (b :: l)) :
    src.getByte.1 = b ∧ src.getByte.2.Reads l := by
  obtain ⟨h1, h2⟩ := consume_reads (show src.Reads ([b] ++ l) from h)
  rw [List.length_singleton] at h1 h2
  unfold getByte
  rcases hc : src.consume 1 with ⟨o, src'⟩
  rw [hc] at h1 h2
  obtain rfl : o = some [b] := h1
  exact ⟨rfl, h2⟩

theorem getUint32_bytes {src : BinarySource} {b l : List UInt8} (hb : b.length = 4) (h : src.Reads (b ++ l)) :
    src.getUint32.1 = get32BitMsbFirst b ∧ src.getUint32.2.Reads l := by
  obtain ⟨h1, h2⟩ := consume_reads h
  rw [hb] at h1 h2
  unfold getUint32
  rcases hc : src.consume 4 with ⟨o, src'⟩
  rw [hc] at h1 h2
  obtain rfl : o = some b := h1
  exact ⟨rfl, h2⟩

theorem getUint32_reads {src : BinarySource} {n : Nat} {l : List UInt8} (hn : n < 2 ^ 32)
    (h : src.Reads (put32BitMsbFirst n ++ l)) : src.getUint32.1.toNat = n ∧ src.getUint32.2.Reads l := by
  obtain ⟨h1, h2⟩ := getUint32_bytes (put32_length n) h
  exact ⟨by rw [h1, get32_put32 hn], h2⟩

/-- Fewer bytes than the field has. -/
theorem consume_short {src : BinarySource} {l : List UInt8} {n : Nat} (h : src.Reads l) (hn : l.length < n) :
    (src.consume n).1 = none ∧ (src.consume n).2.err = true := by
  obtain ⟨he, hd⟩ := h
  have hlen : ¬ n ≤ src.data.length - src.pos := by
    rw [← List.length_drop, hd]
    omega
  unfold consume
  rw [he, if_neg (by decide), dif_neg hlen]
  exact ⟨rfl, rfl⟩

theorem getUint32_short {src : BinarySource} {l : List UInt8} (h : src.Reads l) (hl : l.length < 4) :
    src.getUint32.1 = 0 ∧ src.getUint32.2.err = true := by
  obtain ⟨h1, h2⟩ := consume_short h hl
  unfold getUint32
  rcases hc : src.consume 4 with ⟨o, src'⟩
  rw [hc] at h1 h2
  obtain rfl : o = none := h1
  exact ⟨rfl, h2⟩

theorem getString_short {src : BinarySource} {l : List UInt8} (h : src.Reads l) (hl : l.length < 4) : src.getString.1 = [] := by
  obtain ⟨h1, -⟩ := consume_short h hl
  unfold getString
  rcases hc : src.consume 4 with ⟨o, src'⟩
  rw [hc] at h1
  obtain rfl : o = none := h1
  rfl

theorem getString_err {src : BinarySource} (h : src.err = true) : src.getString.1 = [] := by
  unfold getString consume
  rw [if_pos h]

theorem getString_reads {src : BinarySource} {s l : List UInt8} (hs : s.length < 2 ^ 32)
    (h : src.Reads (putString s ++ l)) : src.getString.1 = s ∧ src.getString.2.Reads l := by
  rw [putString, List.append_assoc] at h
  obtain ⟨h1, h2⟩ := consume_reads h
  rw [put32_length] at h1 h2
  unfold getString
  rcases hc : src.consume 4 with ⟨o, src1⟩
  rw [hc] at h1 h2
  obtain rfl : o = some (put32BitMsbFirst s.length) := h1
  obtain ⟨h3, h4⟩ := consume_reads h2
  dsimp only
  rw [get32_put32 hs]
  rcases hc2 : src1.consume s.length with ⟨o, src2⟩
  rw [hc2] at h3 h4
  obtain rfl : o = some s := h3
  exact ⟨rfl, h4⟩

theorem getBool_reads {src : BinarySource} {b : UInt8} {l : List UInt8} (h : src.Reads (b :: l)) :
    src.getBool.1 = (b != 0) ∧ src.getBool.2.Reads l := by
  obtain ⟨h1, h2⟩ := consume_reads (show src.Reads ([b] ++ l) from h)
  rw [List.length_singleton] at h1 h2
  unfold getBool
  rcases hc : src.consume 1 with ⟨o, src'⟩
  rw [hc] at h1 h2
  obtain rfl : o = some [b] := h1
  exact ⟨rfl, h2⟩

end BinarySource

end Putty.Utils
