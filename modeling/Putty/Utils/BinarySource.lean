/-
  Putty.Utils.BinarySource — reading a packet field by field (`marshal.c`).

  A source keeps its position and its first error: a read past the end takes nothing,
  gives an empty or zero result, and makes every later read do the same. Proved: no read
  goes back, and a string that is not empty has moved the position past its length and
  its bytes (`getString_progress`).
-/

import Mathlib.Data.List.Basic

namespace Putty.Utils

structure BinarySource where
  data : List UInt8
  pos : Nat
  /-- BSE_OUT_OF_DATA was set. -/
  err : Bool
  pos_le : pos ≤ data.length
  deriving DecidableEq

namespace BinarySource

def ofData (data : List UInt8) : BinarySource := ⟨data, 0, false, Nat.zero_le _⟩

/-- The bytes not yet read. -/
def remaining (src : BinarySource) : Nat := src.data.length - src.pos

/-- The `avail` check and, when it passes, the `consume` of the same bytes. -/
def consume (src : BinarySource) (wanted : Nat) : Option (List UInt8) × BinarySource :=
  if src.err then (none, src)
  else if h : wanted ≤ src.data.length - src.pos then
    (some ((src.data.drop src.pos).take wanted), { src with
      pos := src.pos + wanted
      pos_le := by have := src.pos_le; omega })
  else (none, { src with err := true })

/-- GET_32BIT_MSB_FIRST. -/
def get32BitMsbFirst (b : List UInt8) : UInt32 := b.foldl (fun n x => n * 256 + x.toUInt32) 0

def getUint32 (src : BinarySource) : UInt32 × BinarySource :=
  match src.consume 4 with
  | (some b, src) => (get32BitMsbFirst b, src)
  | (none, src) => (0, src)

def getString (src : BinarySource) : List UInt8 × BinarySource :=
  match src.consume 4 with
  | (none, src) => ([], src)
  | (some b, src) =>
    match src.consume (get32BitMsbFirst b).toNat with
    | (none, src) => ([], src)
    | (some s, src) => (s, src)

def getData (src : BinarySource) (wanted : Nat) : List UInt8 × BinarySource :=
  match src.consume wanted with
  | (some b, src) => (b, src)
  | (none, src) => ([], src)

def getBool (src : BinarySource) : Bool × BinarySource :=
  match src.consume 1 with
  | (some b, src) => (b.headD 0 != 0, src)
  | (none, src) => (false, src)

def getByte (src : BinarySource) : UInt8 × BinarySource :=
  match src.consume 1 with
  | (some b, src) => (b.headD 0, src)
  | (none, src) => (0, src)

/-- GET_16BIT_MSB_FIRST. -/
def getUint16 (src : BinarySource) : Nat × BinarySource :=
  match src.consume 2 with
  | (some b, src) => (b.foldl (fun n x => n * 256 + x.toNat) 0, src)
  | (none, src) => (0, src)

/-- The bytes up to a zero byte, which is read too. -/
def getAsciz (src : BinarySource) : List UInt8 × BinarySource :=
  let here := src.data.drop src.pos
  if src.err then ([], src)
  else if 0 ∈ here then
    match src.consume ((here.takeWhile (· ≠ 0)).length + 1) with
    | (some _, src) => (here.takeWhile (· ≠ 0), src)
    | (none, src) => ([], src)
  else ([], { src with err := true })

def getPstring (src : BinarySource) : List UInt8 × BinarySource :=
  match src.consume 1 with
  | (none, src) => ([], src)
  | (some b, src) =>
    match src.consume (b.headD 0).toNat with
    | (none, src) => ([], src)
    | (some s, src) => (s, src)

@[simp] theorem consume_data (src : BinarySource) (n : Nat) : (src.consume n).2.data = src.data := by
  unfold consume; split
  · rfl
  · split <;> rfl

theorem consume_pos (src : BinarySource) (n : Nat) :
    (src.consume n).2.pos = src.pos + ((src.consume n).1.map fun _ => n).getD 0 := by
  unfold consume; split
  · rfl
  · split <;> rfl

theorem consume_length {src : BinarySource} {n : Nat} {b : List UInt8} (h : (src.consume n).1 = some b) : b.length = n := by
  unfold consume at h
  split at h
  · cases h
  · split at h
    · cases h
      rw [List.length_take, List.length_drop]; omega
    · cases h

@[simp] theorem getUint32_data (src : BinarySource) : src.getUint32.2.data = src.data := by
  have h := consume_data src 4
  unfold getUint32
  split <;> next e => rw [e] at h; exact h

theorem getUint32_pos (src : BinarySource) : src.pos ≤ src.getUint32.2.pos := by
  have h := consume_pos src 4
  unfold getUint32
  split <;> next e => rw [e] at h; rw [h]; exact Nat.le_add_right _ _

@[simp] theorem getString_data (src : BinarySource) : src.getString.2.data = src.data := by
  unfold getString
  rcases h1 : src.consume 4 with ⟨o, src1⟩
  have hd := consume_data src 4
  rw [h1] at hd
  cases o with
  | none => exact hd
  | some b =>
    have hd2 := consume_data src1 (get32BitMsbFirst b).toNat
    dsimp only
    rcases h2 : src1.consume (get32BitMsbFirst b).toNat with ⟨_ | s, src2⟩ <;> rw [h2] at hd2 <;> exact hd2.trans hd

/-- The position moves past a string that was read, and its length field. -/
theorem getString_progress (src : BinarySource) :
    src.pos ≤ src.getString.2.pos ∧ (src.getString.1 ≠ [] → src.pos < src.getString.2.pos) := by
  unfold getString
  rcases h1 : src.consume 4 with ⟨o, src1⟩
  have hp := consume_pos src 4
  rw [h1] at hp
  cases o with
  | none =>
    simp only [Option.map_none, Option.getD_none] at hp
    exact ⟨by dsimp only; omega, fun h => absurd rfl h⟩
  | some b =>
    have hp2 := consume_pos src1 (get32BitMsbFirst b).toNat
    simp only [Option.map_some, Option.getD_some] at hp
    dsimp only
    rcases h2 : src1.consume (get32BitMsbFirst b).toNat with ⟨_ | s, src2⟩ <;> rw [h2] at hp2 <;>
      simp only [Option.map_none, Option.getD_none, Option.map_some, Option.getD_some] at hp2 <;>
      exact ⟨by dsimp only; omega, fun _ => by dsimp only; omega⟩

theorem consume_length_le {src : BinarySource} {n : Nat} {b : List UInt8} (h : (src.consume n).1 = some b) :
    b.length ≤ src.data.length := by
  unfold consume at h
  split at h
  · cases h
  · split at h
    · cases h
      rw [List.length_take, List.length_drop]
      omega
    · cases h

theorem getString_length (src : BinarySource) : src.getString.1.length ≤ src.data.length := by
  unfold getString
  rcases h1 : src.consume 4 with ⟨o, src1⟩
  have hd := consume_data src 4
  rw [h1] at hd
  cases o with
  | none => exact Nat.zero_le _
  | some b =>
    dsimp only
    rcases h2 : src1.consume (get32BitMsbFirst b).toNat with ⟨_ | s, src2⟩
    · exact Nat.zero_le _
    · have hlen : s.length ≤ src1.data.length := consume_length_le (n := (get32BitMsbFirst b).toNat) (by rw [h2])
      rw [hd] at hlen
      exact hlen

/-- Later in the same data, less is left. -/
theorem remaining_lt {src src' : BinarySource} (hd : src'.data = src.data) (hp : src.pos < src'.pos) :
    src'.remaining < src.remaining := by
  have := src'.pos_le
  rw [hd] at this
  simp only [remaining, hd]; omega

end BinarySource

end Putty.Utils
