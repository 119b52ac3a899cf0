/-
  Putty.Utils.Bufchain — the byte queue of `utils.c` (bufchain_*).

  A chain of granules; bytes are added to the tail's spare room and then to a new
  granule, and are looked at and consumed from the head. Between two calls no granule
  is empty. Proved: whatever the granules, the chain is a queue of bytes
  (`bytes_bufchainAdd`, `bytes_bufchainPrefix`, `bufchainConsume_spec`). Lengths are
  those below 2^31; `Utils.BufchainRuns` has the code's int and what it does above.
-/

import Mathlib.Data.List.Basic

namespace Putty.Utils

/-- sizeof(struct bufchain_granule). -/
def granuleHeader : Nat := 32

def bufferMinGranule : Nat := 512

structure Granule where
  /-- The bytes from bufpos to bufend. -/
  data : List UInt8
  /-- bufmax - bufend. -/
  room : Nat
  data_ne : data ≠ []
  deriving DecidableEq

abbrev Bufchain := List Granule

def bytes (ch : Bufchain) : List UInt8 := ch.flatMap Granule.data

def bufchainSize (ch : Bufchain) : Nat := (bytes ch).length

/-- A granule made for `data`. -/
def newGranule (data : List UInt8) (h : data ≠ []) : Granule :=
  ⟨data, max (granuleHeader + data.length) bufferMinGranule - granuleHeader - data.length, h⟩

def bufchainAdd : Bufchain → List UInt8 → Bufchain
  | [], data => if h : data = [] then [] else [newGranule data h]
  | [tail], data =>
    let copylen := min data.length tail.room
    let tail := ⟨tail.data ++ data.take copylen, tail.room - copylen, by simp [tail.data_ne]⟩
    if h : data.drop copylen = [] then [tail] else [tail, newGranule (data.drop copylen) h]
  | g :: g' :: gs, data => g :: bufchainAdd (g' :: gs) data

/-- The bytes at the head that lie together; a crash on an empty chain. -/
def bufchainPrefix : Bufchain → Option (List UInt8)
  | [] => none
  | g :: _ => some g.data

def bufchainConsume : Bufchain → Nat → Option Bufchain
  | ch, 0 => some ch
  | [], _ + 1 => none
  | g :: gs, len + 1 =>
    if h : g.data.length ≤ len + 1 then bufchainConsume gs (len + 1 - g.data.length)
    else some (⟨g.data.drop (len + 1), g.room, by simp; omega⟩ :: gs)

/-- A copy of the bytes at the head. -/
def bufchainFetch : Bufchain → Nat → Option (List UInt8)
  | _, 0 => some []
  | [], _ + 1 => none
  | g :: gs, len + 1 => (bufchainFetch gs (len + 1 - g.data.length)).map (g.data.take (len + 1) ++ ·)

@[simp] theorem bytes_nil : bytes [] = [] := rfl

@[simp] theorem bytes_cons (g : Granule) (gs : Bufchain) : bytes (g :: gs) = g.data ++ bytes gs := rfl

theorem bufchainSize_eq (ch : Bufchain) : bufchainSize ch = (bytes ch).length := rfl

@[simp] theorem bufchainSize_nil : bufchainSize [] = 0 := rfl

theorem bufchainSize_eq_zero {ch : Bufchain} : bufchainSize ch = 0 ↔ ch = [] := by
  cases ch with
  | nil => simp
  | cons g gs =>
    have := g.data_ne
    simp [bufchainSize, this]

theorem bytes_bufchainAdd (ch : Bufchain) (data : List UInt8) : bytes (bufchainAdd ch data) = bytes ch ++ data := by
  match ch with
  | [] => by_cases h : data = [] <;> simp [bufchainAdd, h, newGranule]
  | [tail] =>
    have hcopy := List.take_append_drop (min data.length tail.room) data
    simp only [bufchainAdd]
    split
    · next h =>
      rw [h, List.append_nil] at hcopy
      simp [hcopy]
    · simp only [newGranule, bytes_cons, bytes_nil, List.append_nil, List.append_assoc, hcopy]
  | g :: g' :: gs => rw [bufchainAdd, bytes_cons, bytes_bufchainAdd (g' :: gs)]; simp

theorem bufchainSize_bufchainAdd (ch : Bufchain) (data : List UInt8) :
    bufchainSize (bufchainAdd ch data) = bufchainSize ch + data.length := by
  simp [bufchainSize, bytes_bufchainAdd]

/-- The prefix of a chain that holds bytes is a non-empty beginning of them. -/
theorem bytes_bufchainPrefix {ch : Bufchain} (h : 0 < bufchainSize ch) :
    ∃ p, bufchainPrefix ch = some p ∧ p ≠ [] ∧ p <+: bytes ch := by
  cases ch with
  | nil => simp at h
  | cons g gs => exact ⟨g.data, rfl, g.data_ne, by simp⟩

theorem bufchainConsume_spec (ch : Bufchain) (len : Nat) (h : len ≤ bufchainSize ch) :
    ∃ ch', bufchainConsume ch len = some ch' ∧ bytes ch' = (bytes ch).drop len := by
  induction ch, len using bufchainConsume.induct with
  | case1 ch => exact ⟨ch, by simp [bufchainConsume], rfl⟩
  | case2 len => simp at h
  | case3 g gs len hle ih =>
    rw [bufchainSize_eq, bytes_cons, List.length_append] at h
    obtain ⟨ch', h1, h2⟩ := ih (by rw [bufchainSize_eq]; omega)
    refine ⟨ch', by rw [bufchainConsume, dif_pos hle, h1], ?_⟩
    rw [h2, bytes_cons, List.drop_append, List.drop_of_length_le hle, List.nil_append]
  | case4 g gs len hle =>
    refine ⟨_, by rw [bufchainConsume, dif_neg hle], ?_⟩
    rw [bytes_cons, bytes_cons, List.drop_append, Nat.sub_eq_zero_of_le (by omega), List.drop_zero]

theorem bufchainFetch_spec (ch : Bufchain) (len : Nat) (h : len ≤ bufchainSize ch) :
    bufchainFetch ch len = some ((bytes ch).take len) := by
  induction ch, len using bufchainFetch.induct with
  | case1 ch => simp [bufchainFetch]
  | case2 len => simp at h
  | case3 g gs len ih =>
    rw [bufchainSize_eq, bytes_cons, List.length_append] at h
    rw [bufchainFetch, ih (by rw [bufchainSize_eq]; omega), bytes_cons, List.take_append]
    rfl

end Putty.Utils
