/-
  Putty.Wildcard.Code — the wildcard matcher (`wildcard.c`).

  A pointer into a C string is what is left of it, the end of the list being the
  terminator. `wc_match_fragment` matches up to the next `*` where the target stands and
  parses as it goes, so an error is met only where it is reached. `wc_match_inner` matches
  the first fragment in place and searches for each later one.

  The search runs `while (*target)`: at a zero byte of a counted string it gives up, and
  at the end it reads the byte behind. `beyond` is the memory there, and the second part
  of a result is how many of its bytes were read.
-/

import Mathlib.Data.List.Basic

namespace Putty.Wildcard

/-- A string without its terminator. -/
structure CString where
  bytes : List UInt8
  no_nul : 0 ∉ bytes
  deriving DecidableEq

inductive WcError where
  | trailingBackslash
  | unclosedClass
  | invalidRange
  deriving DecidableEq

/-- The enumeration's number. -/
def WcError.code : WcError → Int
  | trailingBackslash => 1
  | unclosedClass => 2
  | invalidRange => 3

def backslash : UInt8 := 92

def star : UInt8 := 42

def question : UInt8 := 63

def openBracket : UInt8 := 91

def closeBracket : UInt8 := 93

def caret : UInt8 := 94

def minus : UInt8 := 45

/-- `if (*f == '\\') f++;` -/
def skipBackslash : List UInt8 → List UInt8
  | [] => []
  | c :: f => if c = backslash then f else c :: f

theorem skipBackslash_length (f : List UInt8) : (skipBackslash f).length ≤ f.length := by
  cases f with
  | nil => exact Nat.le_refl _
  | cons c f =>
    rw [skipBackslash]
    split
    · exact Nat.le_succ _
    · exact Nat.le_refl _

/-- The bounds may come in either order. -/
def inRange (lower upper ourchr : UInt8) : Bool :=
  if lower > upper then ourchr ≥ upper && ourchr ≤ lower else ourchr ≥ lower && ourchr ≤ upper

/-- The loop over a bracket expression: whether `ch` is in it, and what follows its `]`. -/
def classLoop (f : List UInt8) (ch : UInt8) (matched : Bool) : Except WcError (Bool × List UInt8) :=
  if f.head? = some closeBracket then .ok (matched, f.tail)
  else
    match _hf : skipBackslash f with
    | [] => .error .unclosedClass
    | lower :: f1 =>
      if f1.head? = some minus then
        if f1.tail.head? = some closeBracket then .error .invalidRange
        else
          match _hf1 : skipBackslash f1.tail with
          | [] => .error .unclosedClass
          | upper :: f2 => classLoop f2 ch (matched || inRange lower upper ch)
      else classLoop f1 ch (matched || ch == lower)
  termination_by f.length
  decreasing_by
    · have h0 := skipBackslash_length f
      have h1 := skipBackslash_length f1.tail
      rw [_hf, List.length_cons] at h0
      rw [_hf1, List.length_cons, List.length_tail] at h1
      omega
    · have h0 := skipBackslash_length f
      rw [_hf, List.length_cons] at h0
      omega

/-- The matched fragment's and the target's next positions; `none` is the return value 0. -/
def wcMatchFragment (fragment : List UInt8) : List UInt8 → Except WcError (Option (List UInt8 × List UInt8))
  | [] => if fragment = [] ∨ fragment.head? = some star then .ok (some (fragment, [])) else .ok none
  | t :: target =>
    match fragment with
    | [] => .ok (some ([], t :: target))
    | c :: f =>
      if c = star then .ok (some (c :: f, t :: target))
      else if c = backslash then
        match f with
        | [] => .error .trailingBackslash
        | c1 :: f => if c1 ≠ t then .ok none else wcMatchFragment f target
      else if c = question then wcMatchFragment f target
      else if c = openBracket then
        let invert := f.head? == some caret
        match classLoop (if invert then f.tail else f) t false with
        | .error e => .error e
        | .ok (matched, f) => if invert = matched then .ok none else wcMatchFragment f target
      else if c ≠ t then .ok none
      else wcMatchFragment f target

/-- How the search for one fragment ends. -/
inductive Search where
  | returned (ret : Int)
  | found (wildcard target : List UInt8)
  | stopped
  | ranOut
  deriving DecidableEq

/-- The return value of a single call. -/
def fragmentReturn : Except WcError (Option (List UInt8 × List UInt8)) → Int
  | .error e => -e.code
  | .ok none => 0
  | .ok (some _) => 1

def searchLoop (wildcard : List UInt8) : List UInt8 → Search
  | [] => .ranOut
  | c :: target =>
    if c = 0 then .stopped
    else match wcMatchFragment wildcard (c :: target) with
      | .error e => .returned (-e.code)
      | .ok none => searchLoop wildcard target
      | .ok (some (wildcard', target')) =>
        if wildcard' = [] ∧ target' ≠ [] then
          -- as far from the end as the terminal fragment is long
          let len := (c :: target).length - target'.length
          .returned (fragmentReturn (wcMatchFragment wildcard ((c :: target).drop ((c :: target).length - len))))
        else .found wildcard' target'

/-- Nothing matches behind the end, so the search goes on to the next zero byte there. -/
def pastEnd : List UInt8 → Option Nat
  | [] => none
  | b :: beyond => if b = 0 then some 1 else (pastEnd beyond).map (· + 1)

def skipStars : List UInt8 → List UInt8
  | [] => []
  | c :: w => if c = star then skipStars w else c :: w

/-- The loop over the stars, `fuel` of them at most. -/
def wcLoop (beyond : List UInt8) : Nat → List UInt8 → List UInt8 → Option (Int × Nat)
  | _, [], target => some (if target = [] then 1 else 0, 0)
  | 0, _ :: _, _ => none
  | fuel + 1, c :: wildcard, target =>
    -- assert(*wildcard == '*')
    if c ≠ star then none
    else
      let wildcard := skipStars wildcard
      if wildcard = [] then some (1, 0)
      else match searchLoop wildcard target with
        | .returned ret => some (ret, 0)
        | .found wildcard target => wcLoop beyond fuel wildcard target
        | .stopped => some (0, 0)
        | .ranOut => (pastEnd beyond).map fun n => (0, n)

def wcMatchInner (wildcard target beyond : List UInt8) : Option (Int × Nat) :=
  if wildcard.head? ≠ some star then
    match wcMatchFragment wildcard target with
    | .error e => some (-e.code, 0)
    | .ok none => some (0, 0)
    | .ok (some (wildcard', target')) => wcLoop beyond wildcard.length wildcard' target'
  else wcLoop beyond wildcard.length wildcard target

/-- What lies behind the target is its terminator. -/
def wcMatch (wildcard target : CString) : Option (Int × Nat) := wcMatchInner wildcard.bytes target.bytes [0]

def wcMatchPl (wildcard : CString) (target beyond : List UInt8) : Option (Int × Nat) :=
  wcMatchInner wildcard.bytes target beyond

/-- The output string; `none` is false. -/
def wcUnescape : List UInt8 → Option (List UInt8)
  | [] => some []
  | c :: wildcard =>
    if c = backslash then
      match wildcard with
      -- lenient about trailing backslashes
      | [] => some []
      | c1 :: wildcard => (wcUnescape wildcard).map (c1 :: ·)
    else if c = star ∨ c = question ∨ c = openBracket ∨ c = closeBracket then none
    else (wcUnescape wildcard).map (c :: ·)

end Putty.Wildcard
