/-
  Putty.Bidi.Levels — the levels of a line (`minibidi.c`, do_bidi up to rule L1).

  Every loop over `types` rewrites it in place and looks at entries that it has rewritten
  already and at entries that it has not. `inPlace` is such a loop: its body sees the
  entries passed, the nearest first, the entry itself and the entries still to come.

  Types and levels are both bytes, and are mixed up in two places: rule W1 stores the
  paragraph level as the type of the first character, where 1 is the number of LRE and not
  of R, and a PDF makes an override of the upper bits of a level.
-/

import Mathlib.Data.List.Basic

namespace Putty.Bidi

inductive BidiType where
  | L | LRE | LRO | R | AL | RLE | RLO | PDF | EN | ES | ET | AN | CS | NSM | BN | B | S | WS | ON
  /-- A byte that is no type's number. -/
  | other (n : UInt8)
  deriving DecidableEq

open BidiType

/-- The type with this number. -/
def asType (n : UInt8) : BidiType :=
  [L, LRE, LRO, R, AL, RLE, RLO, PDF, EN, ES, ET, AN, CS, NSM, BN, B, S, WS, ON].getD n.toNat (other n)

/-! ## Rules P2, P3 and X1 to X9 -/

def LMASK : UInt8 := 0x3F
def OMASK : UInt8 := 0xC0
def OISL : UInt8 := 0x80
def OISR : UInt8 := 0x40

def leastGreaterOdd (x : UInt8) : UInt8 := (x + 1) ||| 1
def leastGreaterEven (x : UInt8) : UInt8 := (x + 2) &&& ~~~1

def setOverrideBits (level : UInt8) (override : BidiType) : UInt8 :=
  if override = ON then level
  else if override = R then level ||| OISR
  else if override = L then level ||| OISL
  else level

/-- The value before the last run of one value; `none` where the source gives −1. -/
def getPreviousLevel (levels : List UInt8) : Option UInt8 :=
  match levels.reverse with
  | [] => none
  | current :: before => (before.dropWhile (· == current)).head?

def paragraphLevelOf (original : List BidiType) : UInt8 :=
  match original.find? fun t => t = R ∨ t = AL ∨ t = L with
  | some t => if t = L then 0 else 1
  | none => 0

/-- The loop of rules X2 to X8 so far. -/
structure Explicit where
  levels : List UInt8
  types : List BidiType
  currentEmbedding : UInt8
  currentOverride : BidiType
  bover : Bool

namespace Explicit

def emit (s : Explicit) (level : UInt8) (type : BidiType) : Explicit :=
  { s with levels := s.levels ++ [level], types := s.types ++ [type] }

/-- What a PDF restores. -/
def restore (paragraphLevel : UInt8) (s : Explicit) : Explicit :=
  match getPreviousLevel s.levels with
  | none => { s with currentEmbedding := paragraphLevel, currentOverride := ON }
  | some _ =>
    { s with currentOverride := asType (s.currentEmbedding &&& OMASK), currentEmbedding := s.currentEmbedding &&& ~~~OMASK }

def overridden (s : Explicit) (type : BidiType) : BidiType := if s.currentOverride ≠ ON then s.currentOverride else type

def step (paragraphLevel : UInt8) (s : Explicit) (type : BidiType) : Explicit :=
  let odd := leastGreaterOdd s.currentEmbedding
  let even := leastGreaterEven s.currentEmbedding
  match type with
  | RLE => { s.emit (setOverrideBits odd s.currentOverride) RLE with currentEmbedding := odd, currentOverride := ON }
  | LRE => { s.emit (setOverrideBits even s.currentOverride) LRE with currentEmbedding := even, currentOverride := ON }
  | RLO => { s.emit odd R with currentEmbedding := odd, currentOverride := R, bover := true }
  | LRO => { s.emit even L with currentEmbedding := even, currentOverride := L, bover := true }
  | PDF => (s.restore paragraphLevel).emit (s.restore paragraphLevel).currentEmbedding PDF
  | WS | S => s.emit s.currentEmbedding (s.overridden ON)
  | t => s.emit s.currentEmbedding (s.overridden t)

end Explicit

def ruleX9 (types : List BidiType) : List BidiType :=
  types.map fun t => if t = RLE ∨ t = LRE ∨ t = RLO ∨ t = LRO ∨ t = PDF then BN else t

/-! ## Rules W1 to W7 -/

/-- A loop that rewrites the entries one after the other: those behind `before`. -/
def inPlace (body : List BidiType → BidiType → List BidiType → BidiType) : List BidiType → List BidiType → List BidiType
  | _, [] => []
  | before, t :: after => body before t after :: inPlace body (body before t after :: before) after

/-- The entry at which a search forward through entries of type `t` stops, the last one at the latest. -/
def stopAt (t : BidiType) : List BidiType → Option BidiType
  | [] => none
  | [x] => some x
  | x :: y :: rest => if x = t then stopAt t (y :: rest) else some x

def ruleW1 (paragraphLevel : UInt8) (types : List BidiType) : List BidiType :=
  inPlace (fun before t _ => if t = NSM then before.head?.getD (asType paragraphLevel) else t) [] types

/-- The first of three types that a search backwards meets. -/
def searchBack (before : List BidiType) : Option BidiType := before.find? fun t => t = AL ∨ t = R ∨ t = L

def ruleW2 (types : List BidiType) : List BidiType :=
  inPlace (fun before t _ => if t = EN ∧ searchBack before = some AL then AN else t) [] types

def ruleW3 (types : List BidiType) : List BidiType := types.map fun t => if t = AL then R else t

/-- The entries at either end have only one neighbour and stay. -/
def ruleW4 (types : List BidiType) : List BidiType :=
  inPlace (fun before t after =>
    if t = ES then if before.head? = some EN ∧ after.head? = some EN then EN else t
    else if t = CS then
      if before.head? = some EN ∧ after.head? = some EN then EN
      else if before.head? = some AN ∧ after.head? = some AN then AN
      else t
    else t) [] types

def ruleW5 (types : List BidiType) : List BidiType :=
  inPlace (fun before t after =>
    if t = ET then
      if before.head? = some EN then EN
      else if after.head? = some EN then EN
      else if after.head? = some ET then if stopAt ET (t :: after) = some EN then EN else t
      else t
    else t) [] types

def ruleW6 (types : List BidiType) : List BidiType := types.map fun t => if t = ES ∨ t = ET ∨ t = CS then ON else t

def ruleW7 (types : List BidiType) : List BidiType :=
  inPlace (fun before t _ => if t = EN ∧ searchBack before = some L then L else t) [] types

/-! ## Rules N1 and N2 -/

/-- The direction that a neutral takes from an entry beside it. -/
def side (t : BidiType) : Option BidiType :=
  if t = R ∨ t = EN ∨ t = AN then some R else if t = L then some L else none

/-- The first entry, if it is neutral and not alone. -/
def ruleN1First : List BidiType → List BidiType
  | ON :: y :: rest => (side y).getD ON :: y :: rest
  | types => types

mutual

/-- The loop in the middle, which leaves the last entry out. -/
def ruleN1Loop (before : List BidiType) : List BidiType → List BidiType
  | x :: y :: rest =>
    if x = ON then
      match before.head?.bind side with
      | some d => if (stopAt ON (x :: y :: rest)).bind side = some d then ruleN1Fill d before (x :: y :: rest)
        else x :: ruleN1Loop (x :: before) (y :: rest)
      | none => x :: ruleN1Loop (x :: before) (y :: rest)
    else x :: ruleN1Loop (x :: before) (y :: rest)
  | types => types
termination_by types => (types.length, 1)

/-- A run of neutrals takes its direction; the entry that ends it is passed over. -/
def ruleN1Fill (d : BidiType) (before : List BidiType) : List BidiType → List BidiType
  | [] => []
  | x :: rest => if x = ON then d :: ruleN1Fill d (d :: before) rest else x :: ruleN1Loop (x :: before) rest
termination_by types => (types.length, 0)

end

/-- The last entry, if it is neutral and not alone. -/
def ruleN1Last (types : List BidiType) : List BidiType :=
  match types.reverse with
  | ON :: y :: rest => ((side y).getD ON :: y :: rest).reverse
  | _ => types

def ruleN1 (types : List BidiType) : List BidiType :=
  match ruleN1First types with
  | [] => []
  | t :: rest => ruleN1Last (t :: ruleN1Loop [t] rest)

def ruleN2 (levels : List UInt8) (types : List BidiType) : List BidiType :=
  List.zipWith (fun level t => if t = ON then if level % 2 = 0 then L else R else t) levels types

/-! ## Rules I1, I2 and L1 -/

def ruleI1 (types : List BidiType) (levels : List UInt8) : List UInt8 :=
  List.zipWith (fun t level =>
    if level % 2 = 0 then if t = R then level + 1 else if t = AN ∨ t = EN then level + 2 else level else level) types levels

def ruleI2 (types : List BidiType) (levels : List UInt8) : List UInt8 :=
  List.zipWith (fun t level => if level % 2 = 1 then if t = L ∨ t = EN ∨ t = AN then level + 1 else level else level)
    types levels

/-- The first loop of rule L1, which stops at the first character. -/
def resetTrailing (paragraphLevel : UInt8) (original : List BidiType) (levels : List UInt8) : List UInt8 :=
  let trailing := min (original.reverse.takeWhile (· = WS)).length (original.length - 1)
  levels.take (levels.length - trailing) ++ List.replicate trailing paragraphLevel

/-- The second one. Every white space character of a run finds the same end of it, so each
    is reset when it is reached itself. -/
def resetSeparators (paragraphLevel : UInt8) : List BidiType → List UInt8 → List UInt8
  | t :: original, level :: levels =>
    (if t = WS then
      match original.find? (· ≠ WS) with
      | none => paragraphLevel
      | some stop => if stop = B ∨ stop = S then paragraphLevel else level
    else if t = B ∨ t = S then paragraphLevel
    else level) :: resetSeparators paragraphLevel original levels
  | _, _ => []

/-! ## The whole computation -/

/-- The levels that do_bidi computes for characters of these types; it returns before
    that if none of them is R or AL. -/
def bidiLevels (original : List BidiType) : Option (List UInt8) :=
  if original.any (fun t => t = R ∨ t = AL) then
    let paragraphLevel := paragraphLevelOf original
    let s := original.foldl (Explicit.step paragraphLevel) ⟨[], [], paragraphLevel, ON, false⟩
    let levels := if s.bover then s.levels.map (· &&& LMASK) else s.levels
    let types := ruleW7 (ruleW6 (ruleW5 (ruleW4 (ruleW3 (ruleW2 (ruleW1 paragraphLevel (ruleX9 s.types)))))))
    let types := ruleN2 levels (ruleN1 types)
    let levels := ruleI2 types (ruleI1 types levels)
    some (resetSeparators paragraphLevel original (resetTrailing paragraphLevel original levels))
  else none

end Putty.Bidi
