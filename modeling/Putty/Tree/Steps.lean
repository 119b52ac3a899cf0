/-
  Putty.Tree.Steps — the small steps of the tree code on the cells of a tree: writing
  to a node, hanging kids on a new parent, and the loop that goes up to the root and
  sets the counts.
-/

import Putty.Tree.Shape

namespace Putty.Tree

open Putty.Lib

variable {E : Type}

structure Kept (t t' : Tree234 E) : Prop where
  root : t'.root = t.root
  cmp : t'.cmp = t.cmp

variable {t : Tree234 E} {a : Nat} {n : Node E} {C : Multiset (Nat × Node E)}

theorem node_eq (h : Owns t.heap ({(a, n)} + C)) : t.node a = some n := h.cell

theorem countnode234_eq (h : Owns t.heap ({(a, n)} + C)) : t.countnode234 (some a) = some n.total := by
  show (t.node a).map Node.total = some n.total
  rw [node_eq h]; rfl

/-! ## Frames -/

theorem Frame.rest_length {d : Nat} (f : Frame E (Sub E d)) (k : Sub E d) : (f.fill k).rest.length = f.ls.length + f.rs.length :=
  joinAt_length f.ls k f.rs

theorem Frame.kid {d : Nat} (f : Frame E (Sub E d)) (par kid : Ptr) (count : Int) : (f.record par kid count).kid f.ls.length = kid := by
  induction f using Frame.cases <;> rfl

theorem Frame.elem {d : Nat} (f : Frame E (Sub E d)) (par kid : Ptr) (count : Int) :
    (f.record par kid count).elem f.ls.length = f.rs.head?.map Prod.fst := by
  induction f using Frame.cases <;> rfl

theorem Frame.owns_fill {d : Nat} (f : Frame E (Sub E d)) {h : Heap (Node E)} {par : Ptr} {k : Sub E d} {C : Multiset (Nat × Node E)}
    (hO : Owns h ((f.fill k).cells par + C)) :
    Owns h ({(f.addr, f.record par k.addr? k.size)} + (k.cells (some f.addr) + (f.cells + C))) :=
  hO.of_eq (by rw [f.cells_fill]; abel)

/-! ## Parents -/

/-! ## Counts -/

/-! ## Whole trees -/

/-- The tree is made of the cells of some `Sub` that has these contents. -/
def Rep (t : Tree234 E) (l : List E) : Prop :=
  ∃ (d : Nat) (T : Sub E d), t.root = T.addr? ∧ Owns t.heap (T.cells none) ∧ T.contents = l

theorem newtree234_rep (cmp : Option (E → E → Int)) : Rep (Tree234.newtree234 cmp) [] :=
  ⟨0, (), rfl, ⟨Multiset.nodup_zero, fun _ hx => absurd hx (Multiset.notMem_zero _)⟩, rfl⟩

/-- A leaf for a root. -/
def leafRoot (es : List E) (h : es ≠ []) (h' : es.length ≤ 3) : Sub E 1 :=
  ({ addr := 0, first := (), rest := es.map fun e => (e, ())
     nonempty := by simpa using h
     small := by simpa using h' } : Branch E (Sub E 0))

def leafTree (cmp : Option (E → E → Int)) (es : List E) (h : es ≠ []) (h' : es.length ≤ 3) : Tree234 E :=
  ⟨Heap.empty.alloc ((leafRoot es h h').record none), some 0, cmp⟩

theorem leafTree_rep (cmp : Option (E → E → Int)) (es : List E) (h : es ≠ []) (h' : es.length ≤ 3) :
    Rep (leafTree cmp es h h') es := by
  have hempty : Owns (Heap.empty : Heap (Node E)) 0 := ⟨Multiset.nodup_zero, fun _ hx => absurd hx (Multiset.notMem_zero _)⟩
  have hcells : (leafRoot es h h').cells none = {(0, (leafRoot es h h').record none)} + 0 := by
    have hnone : ∀ l : List E, ((l.map fun e => (e, ())).map fun _ => (0 : Multiset (Nat × Node E))).sum = 0 := by
      intro l
      induction l with
      | nil => rfl
      | cons e l ih => simpa using ih
    exact congrArg (fun C => {(0, (leafRoot es h h').record none)} + (0 + C)) (hnone es)
  refine ⟨1, leafRoot es h h', rfl, ?_, ?_⟩
  · rw [hcells]
    exact hempty.alloc _
  · show [] ++ (es.map fun e => (e, ())).flatMap (fun x => x.1 :: []) = es
    simp [List.flatMap_map]

end Putty.Tree
