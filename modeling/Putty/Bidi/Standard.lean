/-
  Putty.Bidi.Standard — the levels that the bidirectional algorithm gives to a paragraph
  without explicit codes.

  Without embeddings the paragraph is one level run, and the text on both sides of it
  counts as its own direction `e`. Each rule is applied to the run as the rule before left
  it: a rule that looks back carries along what it would find, one that looks ahead looks
  at entries it has not changed.

  Rule X9 takes boundary neutrals out of the text (`levels`). The same rules can be applied
  to the text with them in it (`levelsKept`): then they are characters that are neither
  strong nor neutral, with the direction of the paragraph.
-/

import Putty.Bidi.Levels

namespace Putty.Bidi.Standard

open Putty.Bidi BidiType

/-- P2 and P3. -/
def paragraphLevel (classes : List BidiType) : Nat :=
  match classes.find? fun t => t = L ∨ t = R ∨ t = AL with
  | some R | some AL => 1
  | _ => 0

/-- The direction of a level. -/
def direction (level : Nat) : BidiType := if level % 2 = 0 then L else R

/-! ## Weak types -/

/-- A nonspacing mark has the type of what it stands on. -/
def w1 (prev : BidiType) : List BidiType → List BidiType
  | [] => []
  | t :: ts => (if t = NSM then prev else t) :: w1 (if t = NSM then prev else t) ts

/-- A European number after an Arabic letter is an Arabic number. -/
def w2 (strong : BidiType) : List BidiType → List BidiType
  | [] => []
  | t :: ts => (if t = EN ∧ strong = AL then AN else t) :: w2 (if t = L ∨ t = R ∨ t = AL then t else strong) ts

def w3 (ts : List BidiType) : List BidiType := ts.map fun t => if t = AL then R else t

/-- A single separator between two numbers of one type is of that type. -/
def w4 (prev : Option BidiType) : List BidiType → List BidiType
  | [] => []
  | t :: ts =>
    (if (t = ES ∨ t = CS) ∧ prev = some EN ∧ ts.head? = some EN then EN
    else if t = CS ∧ prev = some AN ∧ ts.head? = some AN then AN
    else t) :: w4 (some t) ts

/-- European terminators next to European numbers belong to them. -/
def w5 (afterNumber : Bool) : List BidiType → List BidiType
  | [] => []
  | t :: ts =>
    if t = ET then (if afterNumber ∨ ts.find? (· ≠ ET) = some EN then EN else ET) :: w5 afterNumber ts
    else t :: w5 (t = EN) ts

/-- Other separators and terminators are neutral. -/
def w6 (ts : List BidiType) : List BidiType := ts.map fun t => if t = ES ∨ t = ET ∨ t = CS then ON else t

/-- A European number after left-to-right text is such text. -/
def w7 (strong : BidiType) : List BidiType → List BidiType
  | [] => []
  | t :: ts => (if t = EN ∧ strong = L then L else t) :: w7 (if t = L ∨ t = R ∨ t = AL then t else strong) ts

/-- The types before W7 and after it. -/
def numbered (e : BidiType) (classes : List BidiType) : List BidiType := w6 (w5 false (w4 none (w3 (w2 e (w1 e classes)))))

def weak (e : BidiType) (classes : List BidiType) : List BidiType := w7 e (numbered e classes)

/-! ## Neutral types and levels -/

/-- The direction beside an entry; numbers count as right-to-left text. -/
def dir (e t : BidiType) : BidiType := if t = L then L else if t = R ∨ t = EN ∨ t = AN then R else e

/-- The direction of the text ahead. -/
def ahead (e : BidiType) (ts : List BidiType) : BidiType := ((ts.find? (· ≠ ON)).map (dir e)).getD e

/-- N1 and N2: neutrals between text of one direction have that direction, others that of
    the paragraph. -/
def neutrals (e behind : BidiType) : List BidiType → List BidiType
  | [] => []
  | t :: ts => if t = ON then (if behind = ahead e ts then behind else e) :: neutrals e behind ts
    else t :: neutrals e (dir e t) ts

/-- I1 and I2. -/
def implicit (level : Nat) (t : BidiType) : Nat :=
  if level % 2 = 0 then if t = R then level + 1 else if t = AN ∨ t = EN then level + 2 else level
  else if t = L ∨ t = AN ∨ t = EN then level + 1 else level

/-- L1 resets the first of these characters: a separator, or white space in front of one
    or at the end. -/
def Resets : List BidiType → Prop
  | [] => False
  | t :: ts => t = S ∨ t = B ∨
      (t = WS ∧ (ts.find? (· ≠ WS) = none ∨ ts.find? (· ≠ WS) = some S ∨ ts.find? (· ≠ WS) = some B))

instance : (classes : List BidiType) → Decidable (Resets classes)
  | [] => inferInstanceAs (Decidable False)
  | _ :: _ => inferInstanceAs (Decidable (_ ∨ _ ∨ _))

/-- L1. -/
def reset (level : Nat) : List BidiType → List Nat → List Nat
  | t :: classes, l :: levels => (if Resets (t :: classes) then level else l) :: reset level classes levels
  | _, _ => []

/-- White space and segment separators are neutral. -/
def spaces (t : BidiType) : BidiType := if t = WS ∨ t = S then ON else t

/-- So are paragraph separators. -/
def ni (t : BidiType) : BidiType := if t = WS ∨ t = S ∨ t = B then ON else t

/-- The rules from W1 on, for types in which the neutrals have been made alike. -/
def resolve (alike : BidiType → BidiType) (classes : List BidiType) : List Nat :=
  let level := paragraphLevel classes
  let e := direction level
  reset level classes ((neutrals e e (weak e (classes.map alike))).map (implicit level))

/-- The levels of a paragraph of these types, without its boundary neutrals. -/
def levels (classes : List BidiType) : List Nat := resolve ni (classes.filter (· ≠ BN))

/-- The levels with boundary neutrals and paragraph separators kept as what they are. -/
def levelsKept (classes : List BidiType) : List Nat := resolve spaces classes

end Putty.Bidi.Standard
