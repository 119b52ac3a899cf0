/-
  Putty.Tree.Shape — what a 2-3-4 tree in the heap is.

  `Sub E d` is a subtree of height `d`, with the addresses of its nodes; height 0 is
  NULL. A node has one to three elements and a kid more, all of one height, by its
  type. `cells` are the heap cells it is made of, with the parent pointers, the counts
  and the NULLs that belong there, and `contents` its elements in order.

  `Frame` is a node with a hole for one kid and `Ctx` the nodes from a hole up to the
  root. `Ctx.cells` takes an offset: while an element comes or goes the counts on the
  way up are one off.
-/

import Mathlib.Algebra.BigOperators.Group.Multiset.Basic
import Putty.Lib.Owns
import Putty.Tree.Code

namespace Putty.Tree

open Putty.Lib

@[ext] structure Branch (E K : Type) where
  addr : Nat
  first : K
  rest : List (E × K)
  nonempty : rest ≠ []
  small : rest.length ≤ 3

def Sub (E : Type) : Nat → Type
  | 0 => Unit
  | d + 1 => Branch E (Sub E d)

variable {E : Type}

namespace Sub

def addr? : {d : Nat} → Sub E d → Ptr
  | 0, _ => none
  | _ + 1, b => some b.addr

def contents : {d : Nat} → Sub E d → List E
  | 0, _ => []
  | _ + 1, b => contents b.first ++ b.rest.flatMap fun x => x.1 :: contents x.2

/-- What `counts` says of it. -/
def size {d : Nat} (k : Sub E d) : Int := (contents k).length

end Sub

/-- A node's record: its kids and its elements, filled up with NULLs. -/
def nodeOf {d : Nat} (par : Ptr) (kids : List (Sub E d)) (elems : List E) : Node E :=
  ⟨par, (kids.map Sub.addr?).takeD 4 none, (kids.map Sub.size).takeD 4 0, (elems.map some).takeD 3 none⟩

namespace Sub

def record {d : Nat} (par : Ptr) (b : Sub E (d + 1)) : Node E :=
  nodeOf par (b.first :: b.rest.map Prod.snd) (b.rest.map Prod.fst)

def cells : {d : Nat} → Ptr → Sub E d → Multiset (Nat × Node E)
  | 0, _, _ => 0
  | _ + 1, par, b =>
    {(b.addr, record par b)} + (cells (some b.addr) b.first + (b.rest.map fun x => cells (some b.addr) x.2).sum)

end Sub

/-- A node is a 2-node, a 3-node or a 4-node. -/
theorem Branch.cases {K : Type} {P : Branch E K → Prop} (b : Branch E K)
    (two : ∀ a k0 e0 k1 h h', P ⟨a, k0, [(e0, k1)], h, h'⟩)
    (three : ∀ a k0 e0 k1 e1 k2 h h', P ⟨a, k0, [(e0, k1), (e1, k2)], h, h'⟩)
    (four : ∀ a k0 e0 k1 e1 k2 e2 k3 h h', P ⟨a, k0, [(e0, k1), (e1, k2), (e2, k3)], h, h'⟩) : P b := by
  obtain ⟨a, k0, rest, h, h'⟩ := b
  match rest, h, h' with
  | [(e0, k1)], h, h' => exact two ..
  | [(e0, k1), (e1, k2)], h, h' => exact three ..
  | [(e0, k1), (e1, k2), (e2, k3)], h, h' => exact four ..
  | _ :: _ :: _ :: _ :: rest, _, h' => simp only [List.length_cons] at h'; omega

namespace Sub

theorem record_total {d : Nat} (par : Ptr) (b : Sub E (d + 1)) : (b.record par).total = b.size := by
  refine Branch.cases (P := fun b : Branch E (Sub E d) => (record par b).total = size (d := d + 1) b) b ?_ ?_ ?_
  · intro a k0 e0 k1 h h'
    simp [record, nodeOf, Node.total, Node.count, Node.elem, size, contents]
    omega
  · intro a k0 e0 k1 e1 k2 h h'
    simp [record, nodeOf, Node.total, Node.count, Node.elem, size, contents]
    omega
  · intro a k0 e0 k1 e1 k2 e2 k3 h h'
    simp [record, nodeOf, Node.total, Node.count, Node.elem, size, contents]
    omega

theorem size_nonneg {d : Nat} (k : Sub E d) : 0 ≤ k.size := Int.natCast_nonneg _

/-- A node of its own for each level. -/
theorem height_le_card : ∀ {d : Nat} (par : Ptr) (k : Sub E d), d ≤ (k.cells par).card
  | 0, _, _ => Nat.zero_le _
  | d + 1, par, b => by
    have ih := height_le_card (some b.addr) b.first
    show d + 1 ≤ ({(b.addr, record par b)} + (b.first.cells (some b.addr) + _) : Multiset (Nat × Node E)).card
    rw [Multiset.card_add, Multiset.card_add, Multiset.card_singleton]
    omega

end Sub

/-! ## Nodes with a hole -/

structure Frame (E K : Type) where
  addr : Nat
  ls : List (K × E)
  rs : List (E × K)
  nonempty : 1 ≤ ls.length + rs.length
  small : ls.length + rs.length ≤ 3

/-- The kids and elements of a node in order, from those on the two sides of the kid `k`. -/
def joinAt {K : Type} : List (K × E) → K → List (E × K) → K × List (E × K)
  | [], k, rs => (k, rs)
  | (k0, e) :: ls, k, rs => (k0, (e, (joinAt ls k rs).1) :: (joinAt ls k rs).2)

theorem joinAt_length {K : Type} (ls : List (K × E)) (k : K) (rs : List (E × K)) :
    (joinAt ls k rs).2.length = ls.length + rs.length := by
  induction ls with
  | nil => simp [joinAt]
  | cons x ls ih => simp [joinAt, ih]; omega

theorem joinAt_kids {K : Type} (ls : List (K × E)) (k : K) (rs : List (E × K)) :
    (joinAt ls k rs).1 :: (joinAt ls k rs).2.map Prod.snd = ls.map Prod.fst ++ k :: rs.map Prod.snd := by
  induction ls with
  | nil => rfl
  | cons x ls ih => simp [joinAt, ih]

theorem joinAt_elems {K : Type} (ls : List (K × E)) (k : K) (rs : List (E × K)) :
    (joinAt ls k rs).2.map Prod.fst = ls.map Prod.snd ++ rs.map Prod.fst := by
  induction ls with
  | nil => rfl
  | cons x ls ih => simp [joinAt, ih]

/-- A frame by the kids on the two sides of its hole. -/
theorem Frame.cases {K : Type} {P : Frame E K → Prop} (f : Frame E K)
    (c01 : ∀ a r h h', P ⟨a, [], [r], h, h'⟩) (c10 : ∀ a l h h', P ⟨a, [l], [], h, h'⟩)
    (c02 : ∀ a r s h h', P ⟨a, [], [r, s], h, h'⟩) (c11 : ∀ a l r h h', P ⟨a, [l], [r], h, h'⟩)
    (c20 : ∀ a l m h h', P ⟨a, [l, m], [], h, h'⟩) (c03 : ∀ a r s t h h', P ⟨a, [], [r, s, t], h, h'⟩)
    (c12 : ∀ a l r s h h', P ⟨a, [l], [r, s], h, h'⟩) (c21 : ∀ a l m r h h', P ⟨a, [l, m], [r], h, h'⟩)
    (c30 : ∀ a l m n h h', P ⟨a, [l, m, n], [], h, h'⟩) : P f := by
  obtain ⟨a, ls, rs, h, h'⟩ := f
  match ls, rs, h, h' with
  | [], [], h, _ => simp at h
  | [], [r], h, h' => exact c01 ..
  | [l], [], h, h' => exact c10 ..
  | [], [r, s], h, h' => exact c02 ..
  | [l], [r], h, h' => exact c11 ..
  | [l, m], [], h, h' => exact c20 ..
  | [], [r, s, t], h, h' => exact c03 ..
  | [l], [r, s], h, h' => exact c12 ..
  | [l, m], [r], h, h' => exact c21 ..
  | [l, m, n], [], h, h' => exact c30 ..
  | [], _ :: _ :: _ :: _ :: _, _, h' => simp only [List.length_cons] at h'; omega
  | [_], _ :: _ :: _ :: _, _, h' => simp only [List.length_cons] at h'; omega
  | [_, _], _ :: _ :: _, _, h' => simp only [List.length_cons] at h'; omega
  | [_, _, _], _ :: _, _, h' => simp only [List.length_cons] at h'; omega
  | _ :: _ :: _ :: _ :: _, _, _, h' => simp only [List.length_cons] at h'; omega

namespace Frame

def fill {d : Nat} (f : Frame E (Sub E d)) (k : Sub E d) : Sub E (d + 1) :=
  { addr := f.addr
    first := (joinAt f.ls k f.rs).1
    rest := (joinAt f.ls k f.rs).2
    nonempty := by
      intro e
      have hlen := joinAt_length f.ls k f.rs
      have hne := f.nonempty
      rw [e, List.length_nil] at hlen
      omega
    small := by
      rw [joinAt_length]
      exact f.small : Branch E (Sub E d) }

variable {d : Nat} (f : Frame E (Sub E d))

def before : List E := f.ls.flatMap fun x => x.1.contents ++ [x.2]

def after : List E := f.rs.flatMap fun x => x.1 :: x.2.contents

/-- The record of the node while `kid` hangs in its hole, counted as `count`. -/
def record (par kid : Ptr) (count : Int) : Node E :=
  ⟨par, (f.ls.map (fun x => x.1.addr?) ++ kid :: f.rs.map (fun x => x.2.addr?)).takeD 4 none,
    (f.ls.map (fun x => x.1.size) ++ count :: f.rs.map (fun x => x.2.size)).takeD 4 0,
    (f.ls.map (fun x => some x.2) ++ f.rs.map (fun x => some x.1)).takeD 3 none⟩

/-- The cells of the other kids. -/
def cells : Multiset (Nat × Node E) :=
  (f.ls.map fun x => x.1.cells (some f.addr)).sum + (f.rs.map fun x => x.2.cells (some f.addr)).sum

theorem contents_fill (k : Sub E d) : (f.fill k).contents = f.before ++ k.contents ++ f.after := by
  have h : ∀ ls : List (Sub E d × E), (joinAt ls k f.rs).1.contents ++
      ((joinAt ls k f.rs).2.flatMap fun x => x.1 :: x.2.contents) =
        (ls.flatMap fun x => x.1.contents ++ [x.2]) ++ k.contents ++ f.rs.flatMap fun x => x.1 :: x.2.contents := by
    intro ls
    induction ls with
    | nil => simp [joinAt]
    | cons x ls ih => simp [joinAt, ih]
  exact h f.ls

theorem record_fill (par : Ptr) (k : Sub E d) : (f.fill k).record par = f.record par k.addr? k.size := by
  show nodeOf par _ _ = _
  rw [show (f.fill k).first :: (f.fill k).rest.map Prod.snd = _ from joinAt_kids f.ls k f.rs,
    show (f.fill k).rest.map Prod.fst = _ from joinAt_elems f.ls k f.rs]
  simp [nodeOf, record, Function.comp_def]

theorem cells_fill (par : Ptr) (k : Sub E d) :
    (f.fill k).cells par = {(f.addr, f.record par k.addr? k.size)} + (k.cells (some f.addr) + f.cells) := by
  have h : ∀ ls : List (Sub E d × E), (joinAt ls k f.rs).1.cells (some f.addr) +
      ((joinAt ls k f.rs).2.map fun x => x.2.cells (some f.addr)).sum =
        k.cells (some f.addr) + ((ls.map fun x => x.1.cells (some f.addr)).sum +
          (f.rs.map fun x => x.2.cells (some f.addr)).sum) := by
    intro ls
    induction ls with
    | nil => simp [joinAt]
    | cons x ls ih =>
      simp only [joinAt, List.map_cons, List.sum_cons, ih]
      abel
  rw [← f.record_fill]
  exact congrArg _ (h f.ls)

end Frame

theorem split_at {K : Type} (k : K) (rest : List (E × K)) (i : Nat) (hi : i ≤ rest.length) :
    ∃ ls k' rs, joinAt ls k' rs = (k, rest) ∧ ls.length = i ∧ ls.length + rs.length = rest.length := by
  induction i generalizing k rest with
  | zero => exact ⟨[], k, rest, rfl, rfl, by simp⟩
  | succ i ih =>
    cases rest with
    | nil => simp at hi
    | cons x rest =>
      obtain ⟨ls, k', rs, h1, h2, h3⟩ := ih x.2 rest (by simpa using hi)
      refine ⟨(k, x.1) :: ls, k', rs, ?_, by simpa using h2, ?_⟩
      · simp [joinAt, h1]
      · simp only [List.length_cons]; omega

/-- A node as a frame around its kid `i`. -/
theorem Sub.focus {d : Nat} (b : Sub E (d + 1)) (i : Nat) (hi : i ≤ b.rest.length) :
    ∃ (f : Frame E (Sub E d)) (k : Sub E d), b = f.fill k ∧ f.ls.length = i := by
  obtain ⟨ls, k, rs, h1, h2, h3⟩ := split_at b.first b.rest i hi
  have h4 : 1 ≤ b.rest.length := List.length_pos_iff.mpr b.nonempty
  have h5 := b.small
  refine ⟨⟨b.addr, ls, rs, by omega, by omega⟩, k, ?_, h2⟩
  exact Branch.ext rfl (congrArg Prod.fst h1).symm (congrArg Prod.snd h1).symm

/-! ## The way up -/

inductive Ctx (E : Type) : Nat → Type
  | root {d : Nat} : Ctx E d
  | up {d : Nat} (f : Frame E (Sub E d)) (c : Ctx E (d + 1)) : Ctx E d

namespace Ctx

def par : {d : Nat} → Ctx E d → Ptr
  | _, root => none
  | _, up f _ => some f.addr

def before : {d : Nat} → Ctx E d → List E
  | _, root => []
  | _, up f c => before c ++ f.before

def after : {d : Nat} → Ctx E d → List E
  | _, root => []
  | _, up f c => f.after ++ after c

/-- The root when `kid` hangs in the hole. -/
def rootOf : {d : Nat} → Ctx E d → Ptr → Ptr
  | _, root, kid => kid
  | _, up f c, _ => rootOf c (some f.addr)

/-- The cells outside the hole, in which `kid` hangs with `size` elements; they count `off` more. -/
def cells (off : Int) : {d : Nat} → Ctx E d → Ptr → Int → Multiset (Nat × Node E)
  | _, root, _, _ => 0
  | _, up f c, kid, size =>
    {(f.addr, f.record c.par kid (size + off))} + (f.cells + cells off c (some f.addr) (f.before.length + size + f.after.length))

def height : {d : Nat} → Ctx E d → Nat
  | _, root => 0
  | _, up _ c => c.height + 1

end Ctx

end Putty.Tree
