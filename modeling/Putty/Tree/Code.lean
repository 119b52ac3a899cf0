/-
  Putty.Tree.Code — the counted 2-3-4 trees of `tree234.c`.

  Nodes are cells of a heap, pointers are addresses or NULL, and an operation that
  would follow NULL or a freed node, fail an assertion or call a NULL comparison
  function is a crash (`none`). A `void *` element is an `Option`, NULL being `none`.
  Loops that follow pointers are bounded by the number of cells ever handed out.

  A kid and its count are always assigned together, so `setSub` assigns both.
-/

import Mathlib
import Putty.Lib.Heap

namespace Putty.Tree

open Putty.Lib

structure Node (E : Type) where
  parent : Ptr
  kids : List Ptr
  counts : List Int
  elems : List (Option E)

structure Tree234 (E : Type) where
  heap : Heap (Node E)
  root : Ptr
  cmp : Option (E → E → Int)

variable {E : Type}

namespace Node

def kid (n : Node E) (i : Nat) : Ptr := n.kids.getD i none

def count (n : Node E) (i : Nat) : Int := n.counts.getD i 0

def elem (n : Node E) (i : Nat) : Option E := n.elems.getD i none

def setSub (n : Node E) (i : Nat) (kid : Ptr) (count : Int) : Node E :=
  { n with kids := n.kids.set i kid, counts := n.counts.set i count }

def setCount (n : Node E) (i : Nat) (count : Int) : Node E := { n with counts := n.counts.set i count }

def setElem (n : Node E) (i : Nat) (e : Option E) : Node E := { n with elems := n.elems.set i e }

/-- `snew(node234)`: every field is assigned before it is read. -/
def new (parent : Ptr) : Node E := ⟨parent, [none, none, none, none], [0, 0, 0, 0], [none, none, none]⟩

/-- `countnode234` of a node that is not NULL. -/
def total (n : Node E) : Int :=
  n.count 0 + n.count 1 + n.count 2 + n.count 3 +
    ((if (n.elem 0).isSome then 1 else 0) + (if (n.elem 1).isSome then 1 else 0) + if (n.elem 2).isSome then 1 else 0)

def elements234 (n : Node E) : Nat :=
  if (n.elem 0).isNone then 0
  else if (n.elem 1).isNone then 1
  else if (n.elem 2).isNone then 2
  else 3

/-- Which slot of its parent a node hangs from. -/
def slotOf (parent : Node E) (n : Nat) : Nat :=
  if parent.kid 0 = some n then 0
  else if parent.kid 1 = some n then 1
  else if parent.kid 2 = some n then 2
  else 3

end Node

namespace Tree234

def newtree234 (cmp : Option (E → E → Int)) : Tree234 E := ⟨Heap.empty, none, cmp⟩

def node (t : Tree234 E) (p : Nat) : Option (Node E) := t.heap.cell p

def modify (t : Tree234 E) (p : Nat) (f : Node E → Node E) : Option (Tree234 E) :=
  (t.heap.modify p f).map fun heap => { t with heap }

def free (t : Tree234 E) (p : Nat) : Option (Tree234 E) := (t.heap.free p).map fun heap => { t with heap }

def countnode234 (t : Tree234 E) : Ptr → Option Int
  | none => some 0
  | some p => (t.node p).map Node.total

def count234 (t : Tree234 E) : Option Int :=
  match t.root with
  | some r => t.countnode234 (some r)
  | none => some 0

/-- `if (n->kids[i]) n->kids[i]->parent = n`. -/
def setParentOf (t : Tree234 E) (p i : Nat) : Option (Tree234 E) := do
  let n ← t.node p
  match n.kid i with
  | none => some t
  | some k => t.modify k fun k => { k with parent := some p }

def setParents (t : Tree234 E) (p : Nat) (slots : List Nat) : Option (Tree234 E) :=
  slots.foldlM (fun t i => t.setParentOf p i) t

end Tree234

/-! ## Adding -/

/-- The element to insert at a slot, and the subtrees to put on its two sides. -/
structure Pending (E : Type) where
  left : Ptr
  lcount : Int
  e : Option E
  right : Ptr
  rcount : Int

namespace Node

def insert2 (n : Node E) (i : Nat) (x : Pending E) : Node E :=
  if i = 0 then
    let n := n.setSub 2 (n.kid 1) (n.count 1)
    let n := n.setElem 1 (n.elem 0)
    let n := n.setSub 1 x.right x.rcount
    let n := n.setElem 0 x.e
    n.setSub 0 x.left x.lcount
  else
    let n := n.setSub 2 x.right x.rcount
    let n := n.setElem 1 x.e
    n.setSub 1 x.left x.lcount

def insert3 (n : Node E) (i : Nat) (x : Pending E) : Node E :=
  if i = 0 then
    let n := n.setSub 3 (n.kid 2) (n.count 2)
    let n := n.setElem 2 (n.elem 1)
    let n := n.setSub 2 (n.kid 1) (n.count 1)
    let n := n.setElem 1 (n.elem 0)
    let n := n.setSub 1 x.right x.rcount
    let n := n.setElem 0 x.e
    n.setSub 0 x.left x.lcount
  else if i = 1 then
    let n := n.setSub 3 (n.kid 2) (n.count 2)
    let n := n.setElem 2 (n.elem 1)
    let n := n.setSub 2 x.right x.rcount
    let n := n.setElem 1 x.e
    n.setSub 1 x.left x.lcount
  else
    let n := n.setSub 3 x.right x.rcount
    let n := n.setElem 2 x.e
    n.setSub 2 x.left x.lcount

/-- The split of a 4-node `n` with the new node `m`: `m`, the element that goes up, and `n`. -/
def split4 (n m : Node E) (i : Nat) (x : Pending E) : Node E × Option E × Node E :=
  let (m, e, n) :=
    if i = 0 then
      let m := (m.setSub 0 x.left x.lcount).setElem 0 x.e
      let m := (m.setSub 1 x.right x.rcount).setElem 1 (n.elem 0)
      let m := m.setSub 2 (n.kid 1) (n.count 1)
      let e := n.elem 1
      let n := (n.setSub 0 (n.kid 2) (n.count 2)).setElem 0 (n.elem 2)
      (m, e, n.setSub 1 (n.kid 3) (n.count 3))
    else if i = 1 then
      let m := (m.setSub 0 (n.kid 0) (n.count 0)).setElem 0 (n.elem 0)
      let m := (m.setSub 1 x.left x.lcount).setElem 1 x.e
      let m := m.setSub 2 x.right x.rcount
      let e := n.elem 1
      let n := (n.setSub 0 (n.kid 2) (n.count 2)).setElem 0 (n.elem 2)
      (m, e, n.setSub 1 (n.kid 3) (n.count 3))
    else if i = 2 then
      let m := (m.setSub 0 (n.kid 0) (n.count 0)).setElem 0 (n.elem 0)
      let m := (m.setSub 1 (n.kid 1) (n.count 1)).setElem 1 (n.elem 1)
      let m := m.setSub 2 x.left x.lcount
      let n := (n.setSub 0 x.right x.rcount).setElem 0 (n.elem 2)
      (m, x.e, n.setSub 1 (n.kid 3) (n.count 3))
    else
      let m := (m.setSub 0 (n.kid 0) (n.count 0)).setElem 0 (n.elem 0)
      let m := (m.setSub 1 (n.kid 1) (n.count 1)).setElem 1 (n.elem 1)
      let m := m.setSub 2 (n.kid 2) (n.count 2)
      let n := (n.setSub 0 x.left x.lcount).setElem 0 x.e
      let n := n.setSub 1 x.right x.rcount
      (m, n.elem 2, n)
  ((m.setSub 3 none 0).setElem 2 none, e, (((n.setSub 3 none 0).setSub 2 none 0).setElem 2 none).setElem 1 none)

end Node

namespace Tree234

/-- The loops that go from `n` to the root and set the count of each node they come from. -/
def climb (count : Node E → Int → Int) : Nat → Tree234 E → Nat → Option (Tree234 E)
  | 0, _, _ => none
  | fuel + 1, t, n => do
    let nd ← t.node n
    match nd.parent with
    | none => some t
    | some p =>
      let pd ← t.node p
      let t ← t.modify p fun pd' => pd'.setCount (pd.slotOf n) (count nd (pd.count (pd.slotOf n)))
      climb count fuel t p

def fixCounts (t : Tree234 E) (n : Nat) : Option (Tree234 E) := climb (fun nd _ => nd.total) (t.heap.brk + 1) t n

def newRoot (t : Tree234 E) (x : Pending E) : Option (Tree234 E) :=
  let r := t.heap.brk
  let nd := ((Node.new none).setSub 0 x.left x.lcount).setElem 0 x.e
  let nd := (nd.setSub 1 x.right x.rcount).setElem 1 none
  let nd := (nd.setSub 2 none 0).setElem 2 none
  let nd := nd.setSub 3 none 0
  ({ t with heap := t.heap.alloc nd, root := some r } : Tree234 E).setParents r [0, 1]

/-- `x` goes in at slot `i` of `n`; a NULL `n` is above the root. -/
def insertUp : Nat → Tree234 E → Ptr → Nat → Pending E → Option (Tree234 E)
  | 0, _, _, _, _ => none
  | _ + 1, t, none, _, x => newRoot t x
  | fuel + 1, t, some p, i, x => do
    let n ← t.node p
    if (n.elem 1).isNone then
      let t ← t.modify p fun n => n.insert2 i x
      let t ← t.setParents p [0, 1, 2]
      t.fixCounts p
    else if (n.elem 2).isNone then
      let t ← t.modify p fun n => n.insert3 i x
      let t ← t.setParents p [0, 1, 2, 3]
      t.fixCounts p
    else
      let (mNode, e, nNode) := n.split4 (Node.new n.parent) i x
      let m := t.heap.brk
      let t := { t with heap := t.heap.alloc mNode }
      let t ← t.modify p fun _ => nNode
      let t ← t.setParents m [0, 1, 2]
      let t ← t.setParents p [0, 1]
      let lcount ← t.countnode234 (some m)
      let rcount ← t.countnode234 (some p)
      let i ← (match n.parent with
        | none => some 0
        | some q => (t.node q).map fun pd => pd.slotOf p)
      insertUp fuel t n.parent i ⟨some m, lcount, e, some p, rcount⟩

/-- Where the search for a place ends. -/
inductive Place (E : Type) where
  | found (x : E)
  | outOfRange
  | slot (n i : Nat)

end Tree234

namespace Node

/-- The slot of an internal node that an index falls in, and the index there. -/
def slotAt (n : Node E) (index : Int) : Option (Nat × Int) :=
  if index ≤ n.count 0 then some (0, index)
  else
    let index := index - (n.count 0 + 1)
    if index ≤ n.count 1 then some (1, index)
    else
      let index := index - (n.count 1 + 1)
      if index ≤ n.count 2 then some (2, index)
      else
        let index := index - (n.count 2 + 1)
        if index ≤ n.count 3 then some (3, index) else none

/-- The slot for `e` by comparing, or the element that compares equal. -/
def slotFor (n : Node E) (cmp : E → E → Int) (e : E) : Option (E ⊕ Nat) := do
  let e0 ← n.elem 0
  if cmp e e0 < 0 then some (.inr 0)
  else if cmp e e0 = 0 then some (.inl e0)
  else match n.elem 1 with
    | none => some (.inr 1)
    | some e1 =>
      if cmp e e1 < 0 then some (.inr 1)
      else if cmp e e1 = 0 then some (.inl e1)
      else match n.elem 2 with
        | none => some (.inr 2)
        | some e2 =>
          if cmp e e2 < 0 then some (.inr 2)
          else if cmp e e2 = 0 then some (.inl e2)
          else some (.inr 3)

end Node

namespace Tree234

/-- What the first loop of `add234_internal` does at a node: an equal element, an index out of range
    (`none`), or the slot to go on with. -/
def turnFor (t : Tree234 E) (e : E) (n : Node E) (index : Int) : Option (Option (E ⊕ Nat × Int)) :=
  if index ≥ 0 then
    if (n.kid 0).isNone then some (some (.inr (index.toNat, index)))
    else some ((n.slotAt index).map .inr)
  else do
    let cmp ← t.cmp
    let turn ← n.slotFor cmp e
    some (some (turn.map id fun i => (i, index)))

def descend (t : Tree234 E) (e : E) : Nat → Nat → Int → Option (Place E)
  | 0, _, _ => none
  | fuel + 1, p, index => do
    let n ← t.node p
    match ← t.turnFor e n index with
    | none => some .outOfRange
    | some (.inl x) => some (.found x)
    | some (.inr (i, index)) =>
      -- past the four kids there is no slot to look at
      if i > 3 then none
      else match n.kid i with
        | none => some (.slot p i)
        | some q => descend t e fuel q index

def add234Internal (t : Tree234 E) (e : E) (index : Int) : Option (Tree234 E × Option E) :=
  match t.root with
  | none => some ({ t with heap := t.heap.alloc ((Node.new none).setElem 0 (some e)), root := some t.heap.brk }, some e)
  | some r => do
    match ← t.descend e (t.heap.brk + 1) r index with
    | .found x => some (t, some x)
    | .outOfRange => some (t, none)
    | .slot n i =>
      let t ← insertUp (t.heap.brk + 1) t (some n) i ⟨none, 0, some e, none, 0⟩
      some (t, some e)

def add234 (t : Tree234 E) (e : E) : Option (Tree234 E × Option E) :=
  if t.cmp.isNone then some (t, none) else t.add234Internal e (-1)

def addpos234 (t : Tree234 E) (e : E) (index : Int) : Option (Tree234 E × Option E) :=
  if index < 0 ∨ t.cmp.isSome then some (t, none) else t.add234Internal e index

end Tree234

/-! ## Looking up -/

/-- Where an index falls in a node: in a subtree, and at which index there, or on an element. -/
inductive Turn where
  | kid (ki : Nat) (index : Int)
  | elem (ei : Nat)

def Node.turnAt (n : Node E) (index : Int) : Turn :=
  if index < n.count 0 then .kid 0 index
  else
    let index := index - (n.count 0 + 1)
    if index < 0 then .elem 0
    else if index < n.count 1 then .kid 1 index
    else
      let index := index - (n.count 1 + 1)
      if index < 0 then .elem 1
      else if index < n.count 2 then .kid 2 index
      else
        let index := index - (n.count 2 + 1)
        if index < 0 then .elem 2 else .kid 3 index

namespace Tree234

def indexLoop (t : Tree234 E) : Nat → Ptr → Int → Option (Option E)
  | 0, _, _ => none
  | _ + 1, none, _ => some none
  | fuel + 1, some p, index => do
    let n ← t.node p
    match n.turnAt index with
    | .elem ei => some (n.elem ei)
    | .kid ki index => indexLoop t fuel (n.kid ki) index

def index234 (t : Tree234 E) (index : Int) : Option (Option E) :=
  match t.root with
  | none => some none
  | some r => do
    let count ← t.countnode234 (some r)
    if index < 0 ∨ index ≥ count then some none
    else indexLoop t (t.heap.brk + 1) (some r) index

end Tree234

structure SearchState (E : Type) where
  node : Ptr
  lo : Int
  hi : Int
  last : Int
  base : Int
  element : Option E
  index : Int

/-- A step of the search, from the element it is at: the range of the node's elements narrows, and
    when it is empty the search goes down between them. -/
def SearchState.narrow (s : SearchState E) (n : Node E) (direction : Int) : Option (SearchState E) :=
  if s.last = -1 then some s
  else if direction = 0 then none
  else
    let s := if direction > 0 then { s with lo := s.last + 1 } else { s with hi := s.last - 1 }
    if s.lo > s.hi then
      some { s with
        base := s.base + ((List.range s.lo.toNat).map fun i => 1 + n.count i).sum
        node := n.kid s.lo.toNat
        last := -1 }
    else some s

/-- The middle of the range. -/
def SearchState.pick (s : SearchState E) (n : Node E) : SearchState E :=
  let s := if s.last = -1 then { s with lo := 0, hi := n.elements234 - 1 } else s
  let last := (s.lo + s.hi) / 2
  { s with
    last
    element := n.elem last.toNat
    index := s.base + last + ((List.range (last.toNat + 1)).map fun i => n.count i).sum }

inductive Relation where
  | eq | lt | le | gt | ge
  deriving DecidableEq, Repr

/-- Which way to search past an equal element. -/
def Relation.dir : Relation → Int
  | .lt | .le => -1
  | .gt | .ge => 1
  | .eq => 0

/-- `cmpret`: a NULL query compares as one beyond all elements. -/
def Relation.compare (r : Relation) (cmp : Option (E → E → Int)) (e : Option E) (x : E) : Option Int :=
  match e with
  | some e => cmp.map fun cmp => cmp e x
  | none => some (-r.dir)

def Relation.equalPermitted (r : Relation) : Bool := r ≠ .lt ∧ r ≠ .gt

namespace Tree234

/-- Something to return: an element of the node, or below the leaves none. -/
def arrive (t : Tree234 E) (s : SearchState E) : Option (SearchState E) :=
  match s.node with
  | none => some { s with lo := 0, hi := 0, element := none, index := s.base }
  | some p => (t.node p).map s.pick

def search234Step (t : Tree234 E) (s : SearchState E) (direction : Int) : Option (SearchState E) :=
  match s.node with
  | none => some { s with element := none, index := 0 }
  | some p => do
    let n ← t.node p
    let s ← s.narrow n direction
    t.arrive s

def search234Start (t : Tree234 E) : Option (SearchState E) := t.search234Step ⟨t.root, 0, 0, -1, 0, none, 0⟩ 0

/-- The loop of `findrelpos234`: the element that compares equal and its index, or the index where
    the search ends. -/
def findLoop (t : Tree234 E) (e : Option E) (cmp : Option (E → E → Int)) (relation : Relation) :
    Nat → SearchState E → Option (E × Int ⊕ Int)
  | 0, _ => none
  | fuel + 1, s =>
    match s.element with
    | none => some (.inr s.index)
    | some x => do
      let cmpret ← relation.compare cmp e x
      if cmpret = 0 ∧ relation.equalPermitted then some (.inl (x, s.index))
      else
        let s ← t.search234Step s (if cmpret = 0 then relation.dir else cmpret)
        findLoop t e cmp relation fuel s

/-- The result is the element and what `*index` is set to. -/
def findrelpos234 (t : Tree234 E) (e : Option E) (cmp : Option (E → E → Int)) (relation : Relation) :
    Option (Option (E × Int)) :=
  if relation.equalPermitted ∧ e.isNone then none
  else do
    let s ← t.search234Start
    match ← t.findLoop e (cmp <|> t.cmp) relation (4 * t.heap.brk + 4) s with
    | .inl found => some (some found)
    | .inr index =>
      if relation = .eq then some none
      else
        let index := if relation = .lt ∨ relation = .le then index - 1 else index
        let toret ← t.index234 index
        some (toret.map fun x => (x, index))

end Tree234

/-! ## Deleting -/

namespace Node

/-- The element `j` and the kid on its right leave a node, the later ones moving down; `rounds` is
    `2 - j`. -/
def dropElem : Nat → Node E → Node E
  | 0, n => (n.setElem 2 none).setSub 3 none 0
  | rounds + 1, n =>
    let j := 2 - (rounds + 1)
    if (n.elem (j + 1)).isSome then
      dropElem rounds ((n.setElem j (n.elem (j + 1))).setSub (j + 1) (n.kid (j + 2)) (n.count (j + 2)))
    else (n.setElem j none).setSub (j + 1) none 0

/-- The kid `j` and the element on its right leave a node; `rounds` is `3 - j`. -/
def dropKid : Nat → Node E → Node E
  | 0, n => n.setSub 3 none 0
  | rounds + 1, n =>
    let j := 3 - (rounds + 1)
    if (n.kid (j + 1)).isSome then
      dropKid rounds ((n.setSub j (n.kid (j + 1)) (n.count (j + 1))).setElem j (if j < 2 then n.elem (j + 1) else none))
    else (n.setSub j none 0).setElem j none

/-- The element `i` leaves a leaf; `rounds` is `2 - i`. -/
def dropLeafElem : Nat → Node E → Node E
  | 0, n => n.setElem 2 none
  | rounds + 1, n =>
    let i := 2 - (rounds + 1)
    if (n.elem (i + 1)).isSome then dropLeafElem rounds (n.setElem i (n.elem (i + 1)))
    else n.setElem i none

def lastElem (n : Node E) : Nat := if (n.elem 2).isSome then 2 else if (n.elem 1).isSome then 1 else 0

def lastKid (n : Node E) : Ptr := n.kid 3 <|> n.kid 2 <|> n.kid 1 <|> n.kid 0

end Node

namespace Tree234

/-- Case 3a, left-handed: the last element and kid of `sib` go over to `sub`. -/
def borrowLeft (t : Tree234 E) (p sub sib ki : Nat) (index : Int) : Option (Tree234 E × Int) := do
  let n ← t.node p
  let sb ← t.node sib
  let lastelem := sb.lastElem
  let t ← t.modify sub fun s =>
    let s := (s.setSub 2 (s.kid 1) (s.count 1)).setElem 1 (s.elem 0)
    let s := (s.setSub 1 (s.kid 0) (s.count 0)).setElem 0 (n.elem (ki - 1))
    s.setSub 0 (sb.kid (lastelem + 1)) (sb.count (lastelem + 1))
  let t ← t.setParentOf sub 0
  let t ← t.modify p fun n => n.setElem (ki - 1) (sb.elem lastelem)
  let t ← t.modify sib fun s => (s.setSub (lastelem + 1) none 0).setElem lastelem none
  let count ← t.countnode234 (some sub)
  let t ← t.modify p fun n => n.setCount ki count
  let n ← t.node p
  let index := index + n.count (ki - 1)
  let count ← t.countnode234 (some sib)
  let t ← t.modify p fun n => n.setCount (ki - 1) count
  some (t, index - count)

/-- Case 3a, right-handed: the first element and kid of `sib` go over to `sub`. -/
def borrowRight (t : Tree234 E) (p sub sib ki : Nat) : Option (Tree234 E) := do
  let n ← t.node p
  let sb ← t.node sib
  let t ← t.modify sub fun s => (s.setElem 1 (n.elem ki)).setSub 2 (sb.kid 0) (sb.count 0)
  let t ← t.setParentOf sub 2
  let t ← t.modify p fun n => n.setElem ki (sb.elem 0)
  let t ← t.modify sib fun s => (s.setSub 0 (s.kid 1) (s.count 1)).dropElem 2
  let count ← t.countnode234 (some sub)
  let t ← t.modify p fun n => n.setCount ki count
  let count ← t.countnode234 (some sib)
  t.modify p fun n => n.setCount (ki + 1) count

/-- Case 3b: the subtrees `ki` and `ki + 1` and the element between them become one node. -/
def merge (t : Tree234 E) (p ki : Nat) : Option (Tree234 E × Nat) := do
  let n ← t.node p
  let sib ← n.kid ki
  let sub ← n.kid (ki + 1)
  let sb ← t.node sib
  let t ← t.modify sub fun s =>
    let s := (s.setSub 3 (s.kid 1) (s.count 1)).setElem 2 (s.elem 0)
    let s := (s.setSub 2 (s.kid 0) (s.count 0)).setElem 1 (n.elem ki)
    s.setSub 1 (sb.kid 1) (sb.count 1)
  let t ← t.setParentOf sub 1
  let t ← t.modify sub fun s => (s.setElem 0 (sb.elem 0)).setSub 0 (sb.kid 0) (sb.count 0)
  let t ← t.setParentOf sub 0
  let count ← t.countnode234 (some sub)
  let t ← t.modify p fun n => n.setCount (ki + 1) count
  let t ← t.free sib
  let t ← t.modify p fun n => n.dropKid (3 - ki)
  let n ← t.node p
  if (n.elem 0).isNone then
    -- shifting the root
    let t := { t with root := some sub }
    let t ← t.modify sub fun s => { s with parent := none }
    let t ← t.free p
    some (t, sub)
  else some (t, sub)

/-- Before the deletion goes down to the subtree `ki`, that gets a second element. -/
def widen (t : Tree234 E) (p ki : Nat) (index : Int) : Option (Tree234 E × Nat × Int) := do
  let n ← t.node p
  let sub ← n.kid ki
  let s ← t.node sub
  if (s.elem 1).isSome then some (t, sub, index)
  else
    let left ← (if ki > 0 then do
      let sib ← n.kid (ki - 1)
      let sb ← t.node sib
      some (if (sb.elem 1).isSome then some sib else none)
    else some none)
    match left with
    | some sib =>
      let (t, index) ← t.borrowLeft p sub sib ki index
      some (t, sub, index)
    | none =>
      let right ← (if ki < 3 then
        match n.kid (ki + 1) with
        | none => some none
        | some sib => (t.node sib).map fun sb => if (sb.elem 1).isSome then some sib else none
      else some none)
      match right with
      | some sib =>
        let t ← t.borrowRight p sub sib ki
        some (t, sub, index)
      | none =>
        let (ki, index) := if ki > 0 then (ki - 1, index + (n.count (ki - 1) + 1)) else (ki, index)
        let (t, sub) ← t.merge p ki
        some (t, sub, index)

/-- Case 2c: the subtrees on both sides of the element `ei` and the element become one node. -/
def mergeAround (t : Tree234 E) (p ei : Nat) : Option (Tree234 E × Nat × Int) := do
  let n ← t.node p
  let a ← n.kid ei
  let b ← n.kid (ei + 1)
  let bn ← t.node b
  let t ← t.modify a fun s => (s.setElem 1 (n.elem ei)).setSub 2 (bn.kid 0) (bn.count 0)
  let t ← t.setParentOf a 2
  let t ← t.modify a fun s => (s.setElem 2 (bn.elem 0)).setSub 3 (bn.kid 1) (bn.count 1)
  let t ← t.setParentOf a 3
  let t ← t.free b
  let count ← t.countnode234 (some a)
  let t ← t.modify p fun n => n.setCount ei count
  let t ← t.modify p fun n => n.dropElem (2 - ei)
  let n ← t.node p
  let t ← (if (n.elem 0).isNone then do
    -- shifting the root
    let t := { t with root := some a }
    let t ← t.modify a fun s => { s with parent := none }
    t.free p
  else some t)
  let an ← t.node a
  some (t, a, an.count 0 + an.count 1 + 1)

def lastLeaf (t : Tree234 E) : Nat → Nat → Option (Node E)
  | 0, _ => none
  | fuel + 1, m => do
    let n ← t.node m
    if (n.kid 0).isNone then some n
    else
      let k ← n.lastKid
      lastLeaf t fuel k

def firstLeaf (t : Tree234 E) : Nat → Nat → Option (Node E)
  | 0, _ => none
  | fuel + 1, m => do
    let n ← t.node m
    match n.kid 0 with
    | none => some n
    | some k => firstLeaf t fuel k

def decrementCounts (t : Tree234 E) (n : Nat) : Option (Tree234 E) :=
  climb (fun _ count => count - 1) (t.heap.brk + 1) t n

/-- The two nested loops of `delpos234_internal`, a round for each node `p` that they come to. -/
def delLoop : Nat → Tree234 E → Nat → Int → Option E → Option (Tree234 E × Option E)
  | 0, _, _, _, _ => none
  | fuel + 1, t, p, index, retval => do
    let n ← t.node p
    match n.turnAt index with
    | .kid ki index =>
      let (t, sub, index) ← t.widen p ki index
      delLoop fuel t sub index retval
    | .elem ei =>
      let retval := retval <|> n.elem ei
      if n.parent.isNone ∧ (n.elem 1).isNone ∧ (n.kid 0).isNone then
        let t ← t.free p
        some ({ t with root := none }, retval)
      else if (n.kid 0).isNone ∧ (n.elem 1).isSome then
        let t ← t.modify p fun n => n.dropLeafElem (2 - ei)
        let t ← t.decrementCounts p
        some (t, retval)
      else
        let a ← n.kid ei
        let an ← t.node a
        if (an.elem 1).isSome then
          let m ← t.lastLeaf (t.heap.brk + 1) a
          let t ← t.modify p fun n => n.setElem ei (m.elem m.lastElem)
          delLoop fuel t a (n.count ei - 1) retval
        else
          let b ← n.kid (ei + 1)
          let bn ← t.node b
          if (bn.elem 1).isSome then
            let m ← t.firstLeaf (t.heap.brk + 1) b
            let t ← t.modify p fun n => n.setElem ei (m.elem 0)
            delLoop fuel t b 0 retval
          else
            let (t, a, index) ← t.mergeAround p ei
            delLoop fuel t a index retval

def delpos234Internal (t : Tree234 E) (index : Int) : Option (Tree234 E × Option E) := do
  let r ← t.root
  delLoop (t.heap.brk + 1) t r index none

def delpos234 (t : Tree234 E) (index : Int) : Option (Tree234 E × Option E) := do
  let count ← t.countnode234 t.root
  if index < 0 ∨ index ≥ count then some (t, none) else t.delpos234Internal index

def del234 (t : Tree234 E) (e : E) : Option (Tree234 E × Option E) := do
  match ← t.findrelpos234 (some e) none .eq with
  | none => some (t, none)
  | some (_, index) => t.delpos234Internal index

end Tree234

end Putty.Tree
