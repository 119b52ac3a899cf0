/-
  Putty.Keys.Base64 — base64 as key files hold it (`utils.c`, `sshpubk.c`).

  An atom is four characters for one, two or three bytes. base64_encode breaks the line after
  64 characters, that is after 48 bytes, so what it writes is one encoded line for each 48
  bytes (`base64Encode_line`, `base64Encode_last`), and base64_lines counts them. Decoding gives
  the bytes back, atom by atom (`decode_atom_encode`) and line by line (`decodeLine_encode`).
-/

import Mathlib.Tactic.Ring
import Putty.Utils.BinarySink

namespace Putty.Keys

open Putty.Utils

abbrev Bytes := List UInt8

def LF : UInt8 := 10
def CR : UInt8 := 13

/-! ## Atoms -/

def base64Chars : Bytes := text "ABCDEFGHIJKLMNOPQRSTUVWXYZabcdefghijklmnopqrstuvwxyz0123456789+/"

def base64Char (v : Nat) : UInt8 := base64Chars.getD (v % 64) 0

def EQUALS : UInt8 := 61

/-- base64_encode_atom of `n` bytes; the bytes of `word` do not overlap, so `|` adds them. -/
def base64EncodeAtom (data : Bytes) (n : Nat) : Bytes :=
  let word := (data.getD 0 0).toNat * 65536 + (if 1 < n then (data.getD 1 0).toNat * 256 else 0) +
    (if 2 < n then (data.getD 2 0).toNat else 0)
  [base64Char (word / 262144), base64Char (word / 4096),
    if 1 < n then base64Char (word / 64) else EQUALS, if 2 < n then base64Char word else EQUALS]

/-- The value of a character of an atom, −1 for the padding. -/
def base64Value (c : UInt8) : Option Int :=
  if 65 ≤ c ∧ c ≤ 90 then some (c.toNat - 65)
  else if 97 ≤ c ∧ c ≤ 122 then some (c.toNat - 97 + 26)
  else if 48 ≤ c ∧ c ≤ 57 then some (c.toNat - 48 + 52)
  else if c = 43 then some 62
  else if c = 47 then some 63
  else if c = EQUALS then some (-1)
  else none

/-- The bytes of an atom from the values of its characters. -/
def atomBytes (v₀ v₁ v₂ v₃ : Int) : Option Bytes :=
  if v₀ = -1 ∨ v₁ = -1 then none
  else if v₂ = -1 ∧ v₃ ≠ -1 then none
  else
    let len := if v₃ ≠ -1 then 3 else if v₂ ≠ -1 then 2 else 1
    let word := (v₀ * 262144 + v₁ * 4096 + v₂ % 64 * 64 + v₃ % 64).toNat
    some ([UInt8.ofNat (word / 65536), UInt8.ofNat (word / 256), UInt8.ofNat word].take len)

/-- base64_decode_atom; `none` where it returns 0. -/
def base64DecodeAtom (c₀ c₁ c₂ c₃ : UInt8) : Option Bytes := do
  let v₀ ← base64Value c₀
  let v₁ ← base64Value c₁
  let v₂ ← base64Value c₂
  let v₃ ← base64Value c₃
  atomBytes v₀ v₁ v₂ v₃

theorem length_base64Chars : base64Chars.length = 64 := by decide +kernel

theorem base64Values : base64Chars.map base64Value = (List.range 64).map fun i : Nat => some (i : Int) := by decide +kernel

theorem base64Char_mem (v : Nat) : base64Char v ∈ base64Chars ∧ base64Value (base64Char v) = some ((v % 64 : Nat) : Int) := by
  have hlt : v % 64 < base64Chars.length := length_base64Chars.symm ▸ Nat.mod_lt _ (by decide)
  have hget : base64Char v = base64Chars[v % 64] := by
    rw [base64Char, List.getD_eq_getElem?_getD, List.getElem?_eq_getElem hlt, Option.getD_some]
  have hvalue := congrArg (fun values => values[v % 64]?) base64Values
  rw [List.getElem?_map, List.getElem?_map, List.getElem?_eq_getElem hlt, List.getElem?_range (Nat.mod_lt _ (by decide))] at hvalue
  exact ⟨hget ▸ List.getElem_mem hlt, hget ▸ Option.some.inj hvalue⟩

/-- Every character of the alphabet is a letter, a digit, '+' or '/'. -/
theorem base64Chars_ranges {c : UInt8} (h : c ∈ base64Chars) :
    (65 ≤ c ∧ c ≤ 90) ∨ (97 ≤ c ∧ c ≤ 122) ∨ (48 ≤ c ∧ c ≤ 57) ∨ c = 43 ∨ c = 47 := by
  have hall : base64Chars.all (fun c => decide ((65 ≤ c ∧ c ≤ 90) ∨ (97 ≤ c ∧ c ≤ 122) ∨ (48 ≤ c ∧ c ≤ 57) ∨ c = 43 ∨ c = 47)) = true := by
    decide +kernel
  exact of_decide_eq_true (List.all_eq_true.mp hall c h)

/-- So a character of none of these kinds is not in it. -/
theorem base64Chars_ne {c d : UInt8} (h : c ∈ base64Chars)
    (hd : ¬((65 ≤ d ∧ d ≤ 90) ∨ (97 ≤ d ∧ d ≤ 122) ∨ (48 ≤ d ∧ d ≤ 57) ∨ d = 43 ∨ d = 47)) : c ≠ d :=
  fun he => hd (he ▸ base64Chars_ranges h)

theorem base64Value_char (v : Nat) : base64Value (base64Char v) = some ((v % 64 : Nat) : Int) := (base64Char_mem v).2

theorem base64Value_equals : base64Value EQUALS = some (-1) := by decide

theorem ofNat_eq {n : Nat} {b : UInt8} (h : n % 256 = b.toNat) : UInt8.ofNat n = b :=
  UInt8.toNat.inj (by rw [UInt8.toNat_ofNat', h])

/-- The characters of an atom. -/
theorem mem_atom {data : Bytes} {n : Nat} {c : UInt8} (h : c ∈ base64EncodeAtom data n) : c ∈ base64Chars ∨ c = EQUALS := by
  simp only [base64EncodeAtom, List.mem_cons, List.not_mem_nil, or_false] at h
  rcases h with rfl | rfl | h | h
  · exact .inl (base64Char_mem _).1
  · exact .inl (base64Char_mem _).1
  · split at h
    · exact .inl (h ▸ (base64Char_mem _).1)
    · exact .inr h
  · split at h
    · exact .inl (h ▸ (base64Char_mem _).1)
    · exact .inr h

theorem atomBytes_three {a b c : UInt8} {w : Nat} (hw : w = a.toNat * 65536 + b.toNat * 256 + c.toNat) :
    atomBytes (w / 262144 % 64 : Nat) (w / 4096 % 64 : Nat) (w / 64 % 64 : Nat) (w % 64 : Nat) = some [a, b, c] := by
  have ha := a.toNat_lt
  have hb := b.toNat_lt
  have hc := c.toNat_lt
  have hword : ((w / 262144 % 64 : Nat) * 262144 + (w / 4096 % 64 : Nat) * 4096 + (w / 64 % 64 : Nat) % 64 * 64 +
      (w % 64 : Nat) % 64 : Int).toNat = w := by omega
  rw [atomBytes, if_neg (by omega), if_neg (by omega), if_pos (by omega), hword]
  simp only [List.take_succ_cons, List.take_zero, Option.some.injEq, List.cons.injEq, and_true]
  exact ⟨ofNat_eq (by omega), ofNat_eq (by omega), ofNat_eq (by omega)⟩

theorem atomBytes_two {a b : UInt8} {w : Nat} (hw : w = a.toNat * 65536 + b.toNat * 256) :
    atomBytes (w / 262144 % 64 : Nat) (w / 4096 % 64 : Nat) (w / 64 % 64 : Nat) (-1) = some [a, b] := by
  have ha := a.toNat_lt
  have hb := b.toNat_lt
  have hword : ((w / 262144 % 64 : Nat) * 262144 + (w / 4096 % 64 : Nat) * 4096 + (w / 64 % 64 : Nat) % 64 * 64 +
      (-1) % 64 : Int).toNat = w + 63 := by omega
  rw [atomBytes, if_neg (by omega), if_neg (by omega), if_neg (by omega), if_pos (by omega), hword]
  simp only [List.take_succ_cons, List.take_zero, Option.some.injEq, List.cons.injEq, and_true]
  exact ⟨ofNat_eq (by omega), ofNat_eq (by omega)⟩

theorem atomBytes_one {a : UInt8} {w : Nat} (hw : w = a.toNat * 65536) :
    atomBytes (w / 262144 % 64 : Nat) (w / 4096 % 64 : Nat) (-1) (-1) = some [a] := by
  have ha := a.toNat_lt
  have hword : ((w / 262144 % 64 : Nat) * 262144 + (w / 4096 % 64 : Nat) * 4096 + (-1) % 64 * 64 + (-1) % 64 : Int).toNat =
      w + 4095 := by omega
  rw [atomBytes, if_neg (by omega), if_neg (by omega), if_neg (by omega), if_neg (by omega), hword]
  simp only [List.take_succ_cons, List.take_zero, Option.some.injEq, List.cons.injEq, and_true]
  exact ofNat_eq (by omega)

/-! ## Lines -/

/-- The atoms of a line, one after the other. -/
def decodeLine : Bytes → Option Bytes
  | c₀ :: c₁ :: c₂ :: c₃ :: line => do
    let decoded ← base64DecodeAtom c₀ c₁ c₂ c₃
    let more ← decodeLine line
    some (decoded ++ more)
  | _ => some []

/-- base64_lines: 64 characters to a line, which are 48 bytes. -/
def base64Lines (datalen : Nat) : Nat := (datalen + 47) / 48

/-- What base64_encode has written, and `linelen`. -/
structure Column where
  written : Bytes
  linelen : Nat

def Column.put (cpl : Nat) (col : Column) (c : UInt8) : Column :=
  if col.linelen ≥ cpl then ⟨col.written ++ [LF, c], 1⟩ else ⟨col.written ++ [c], col.linelen + 1⟩

def base64Loop (cpl : Nat) : Bytes → Column → Column
  | [], col => col
  | [a], col => (base64EncodeAtom [a] 1).foldl (Column.put cpl) col
  | [a, b], col => (base64EncodeAtom [a, b] 2).foldl (Column.put cpl) col
  | a :: b :: c :: data, col => base64Loop cpl data ((base64EncodeAtom [a, b, c] 3).foldl (Column.put cpl) col)

/-- base64_encode. -/
def base64Encode (data : Bytes) (cpl : Nat) : Bytes := (base64Loop cpl data ⟨[], 0⟩).written ++ [LF]

/-- The atoms of a piece of data, with no line breaks. -/
def atoms : Bytes → Bytes
  | [] => []
  | [a] => base64EncodeAtom [a] 1
  | [a, b] => base64EncodeAtom [a, b] 2
  | a :: b :: c :: data => base64EncodeAtom [a, b, c] 3 ++ atoms data

theorem length_atoms : ∀ data : Bytes, (atoms data).length = (data.length + 2) / 3 * 4
  | [] => rfl
  | [a] => by simp [atoms, base64EncodeAtom]
  | [a, b] => by simp [atoms, base64EncodeAtom]
  | a :: b :: c :: data => by
    have ih := length_atoms data
    simp only [atoms, List.length_append, ih, List.length_cons]
    simp only [base64EncodeAtom, List.length_cons, List.length_nil]
    omega

theorem mem_atoms : ∀ {data : Bytes} {c : UInt8}, c ∈ atoms data → c ∈ base64Chars ∨ c = EQUALS
  | [a], c, h => mem_atom h
  | [a, b], c, h => mem_atom h
  | x :: y :: z :: data, c, h => by
    rcases List.mem_append.mp h with h | h
    · exact mem_atom h
    · exact mem_atoms h

/-- The characters of encoded data end neither a line nor a string. -/
theorem atoms_clean {data : Bytes} {c : UInt8} (h : c ∈ atoms data) : c ≠ 0 ∧ c ≠ LF ∧ c ≠ CR := by
  rcases mem_atoms h with h | rfl
  · exact ⟨base64Chars_ne h (by decide), base64Chars_ne h (by decide), base64Chars_ne h (by decide)⟩
  · decide

theorem decodeLine_atoms : ∀ data : Bytes, decodeLine (atoms data) = some data
  | [] => rfl
  | [a] => by
    have hw := atomBytes_one (a := a) rfl
    push_cast at hw
    simp [atoms, base64EncodeAtom, decodeLine, base64DecodeAtom, base64Value_char, base64Value_equals, hw]
  | [a, b] => by
    have hw := atomBytes_two (a := a) (b := b) rfl
    push_cast at hw
    simp [atoms, base64EncodeAtom, decodeLine, base64DecodeAtom, base64Value_char, base64Value_equals, hw]
  | a :: b :: c :: data => by
    have hw := atomBytes_three (a := a) (b := b) (c := c) rfl
    push_cast at hw
    have ih := decodeLine_atoms data
    simp [atoms, base64EncodeAtom, decodeLine, base64DecodeAtom, base64Value_char, hw, ih]

/-! ## Where the lines break -/

theorem put_four {cpl : Nat} {col : Column} {atom : Bytes} (h : atom.length = 4) (hroom : col.linelen + 4 ≤ cpl) :
    atom.foldl (Column.put cpl) col = ⟨col.written ++ atom, col.linelen + 4⟩ := by
  have hput : ∀ (w : Bytes) (l : Nat) (c : UInt8), l < cpl → Column.put cpl ⟨w, l⟩ c = ⟨w ++ [c], l + 1⟩ := fun w l c hl =>
    if_neg (Nat.not_le_of_lt hl)
  obtain ⟨w, l⟩ := col
  have hroom : l + 4 ≤ cpl := hroom
  match atom, h with
  | [c₀, c₁, c₂, c₃], _ =>
    simp only [List.foldl_cons, List.foldl_nil]
    rw [hput w l c₀ (by omega), hput _ (l + 1) c₁ (by omega), hput _ (l + 2) c₂ (by omega), hput _ (l + 3) c₃ (by omega)]
    simp

/-- Data that fits on the line goes there. -/
theorem loop_fits {cpl : Nat} : ∀ (data : Bytes) (col : Column), col.linelen + (atoms data).length ≤ cpl →
    base64Loop cpl data col = ⟨col.written ++ atoms data, col.linelen + (atoms data).length⟩
  | [], col, h => by simp [base64Loop, atoms]
  | [a], col, h => put_four rfl h
  | [a, b], col, h => put_four rfl h
  | a :: b :: c :: data, col, h => by
    have hlen : (base64EncodeAtom [a, b, c] 3).length = 4 := rfl
    rw [atoms, List.length_append, hlen] at h
    have hput : (base64EncodeAtom [a, b, c] 3).foldl (Column.put cpl) col = ⟨col.written ++ _, col.linelen + 4⟩ :=
      put_four hlen (by omega)
    rw [base64Loop, hput, loop_fits data _ (by dsimp only; omega), atoms, List.length_append, hlen]
    simp only [List.append_assoc, Nat.add_assoc]

/-- A full line is broken before the next character. -/
theorem loop_full {cpl : Nat} (hc : 0 < cpl) {data : Bytes} (hd : data ≠ []) (w : Bytes) :
    base64Loop cpl data ⟨w, cpl⟩ = base64Loop cpl data ⟨w ++ [LF], 0⟩ := by
  have hput : ∀ c, Column.put cpl ⟨w, cpl⟩ c = Column.put cpl ⟨w ++ [LF], 0⟩ c := fun c => by
    simp only [Column.put]
    rw [if_pos (Nat.le_refl _), if_neg (by omega)]
    simp
  have hchars : ∀ chars : Bytes, chars ≠ [] →
      chars.foldl (Column.put cpl) ⟨w, cpl⟩ = chars.foldl (Column.put cpl) ⟨w ++ [LF], 0⟩ := by
    intro chars hne
    cases chars with
    | nil => exact absurd rfl hne
    | cons c chars => rw [List.foldl_cons, List.foldl_cons, hput]
  match data, hd with
  | [a], _ => exact hchars _ (List.cons_ne_nil _ _)
  | [a, b], _ => exact hchars _ (List.cons_ne_nil _ _)
  | a :: b :: c :: data, _ => exact congrArg (base64Loop cpl data) (hchars _ (List.cons_ne_nil _ _))

theorem loop_append {cpl : Nat} (rest : Bytes) : ∀ (data : Bytes) (col : Column), data.length % 3 = 0 →
    base64Loop cpl (data ++ rest) col = base64Loop cpl rest (base64Loop cpl data col)
  | [], col, _ => by simp [base64Loop]
  | [_], col, h => by simp at h
  | [_, _], col, h => by simp at h
  | a :: b :: c :: data, col, h => by
    have hrest : data.length % 3 = 0 := by simp only [List.length_cons] at h; omega
    simp only [List.cons_append, base64Loop]
    exact loop_append rest data _ hrest

theorem loop_written {cpl : Nat} (w data : Bytes) (col : Column) :
    base64Loop cpl data ⟨w ++ col.written, col.linelen⟩ =
      ⟨w ++ (base64Loop cpl data col).written, (base64Loop cpl data col).linelen⟩ := by
  have hput : ∀ (chars : Bytes) (col : Column), chars.foldl (Column.put cpl) ⟨w ++ col.written, col.linelen⟩ =
      ⟨w ++ (chars.foldl (Column.put cpl) col).written, (chars.foldl (Column.put cpl) col).linelen⟩ := by
    intro chars
    induction chars with
    | nil => intro col; rfl
    | cons c chars ih =>
      intro col
      have hone : Column.put cpl ⟨w ++ col.written, col.linelen⟩ c =
          ⟨w ++ (Column.put cpl col c).written, (Column.put cpl col c).linelen⟩ := by
        unfold Column.put
        split <;> simp
      rw [List.foldl_cons, List.foldl_cons, hone]
      exact ih _
  fun_induction base64Loop cpl data col with
  | case1 col => rfl
  | case2 a col => exact hput _ _
  | case3 a b col => exact hput _ _
  | case4 a b c data col ih =>
    rw [base64Loop, hput]
    exact ih

/-- Data of at most 48 bytes is one line. -/
theorem base64Encode_last {data : Bytes} (h : data.length ≤ 48) : base64Encode data 64 = atoms data ++ [LF] := by
  have hlen := length_atoms data
  have hfits : base64Loop 64 data ⟨[], 0⟩ = ⟨[] ++ atoms data, 0 + (atoms data).length⟩ :=
    loop_fits data _ (by dsimp only; omega)
  rw [base64Encode, hfits, List.nil_append]

/-- The first 48 bytes are a line, and the others follow as if they were written alone. -/
theorem base64Encode_line {line data : Bytes} (h : line.length = 48) (hd : data ≠ []) :
    base64Encode (line ++ data) 64 = atoms line ++ LF :: base64Encode data 64 := by
  have hlen := length_atoms line
  have hfits : base64Loop 64 line ⟨[], 0⟩ = ⟨[] ++ atoms line, 0 + (atoms line).length⟩ :=
    loop_fits line _ (by dsimp only; omega)
  have hfull : 0 + (atoms line).length = 64 := by omega
  have halone : base64Loop 64 data ⟨atoms line ++ [LF] ++ [], 0⟩ = _ := loop_written (atoms line ++ [LF]) data ⟨[], 0⟩
  rw [List.append_nil] at halone
  rw [base64Encode, loop_append data line _ (by omega), hfits, List.nil_append, hfull, loop_full (by decide) hd, halone,
    base64Encode]
  simp

end Putty.Keys
