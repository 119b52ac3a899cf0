/-
  Putty.Tree.Find — the lookups of a tree: by index, and by comparing.

  `turnAt_spec` says where an index falls in a node, which deletion uses too. The
  search narrows a range of a node's elements and then goes down between them;
  `At` is what holds while it is at an element: everything to the left of the range
  compares greater than nothing it is looking for, everything to its right less.
-/

import Putty.Tree.Steps

namespace Putty.Tree

open Putty.Lib

variable {E : Type} {d : Nat}

/-! ## Frames and their nodes -/

theorem joinAt_inj {K : Type} {k k' : K} {rs rs' : List (E × K)} :
    ∀ {ls ls' : List (K × E)}, joinAt ls k rs = joinAt ls' k' rs' → ls.length = ls'.length → ls = ls' ∧ k = k' ∧ rs = rs'
  | [], [], h, _ => ⟨rfl, congrArg Prod.fst h, congrArg Prod.snd h⟩
  | [], _ :: _, _, hl => by simp at hl
  | _ :: _, [], _, hl => by simp at hl
  | x :: ls, y :: ls', h, hl => by
    obtain ⟨h1, h2⟩ := Prod.mk.inj h
    obtain ⟨h3, h4⟩ := List.cons.inj h2
    obtain ⟨h5, h6⟩ := Prod.mk.inj h3
    obtain ⟨rfl, rfl, rfl⟩ := joinAt_inj (Prod.ext h6 h4) (Nat.succ.inj hl)
    exact ⟨by rw [Prod.ext h1 h5], rfl, rfl⟩

/-- A node has one frame around each of its kids. -/
theorem Frame.unique {f f' : Frame E (Sub E d)} {k k' : Sub E d} (h : f.fill k = f'.fill k') (hl : f.ls.length = f'.ls.length) :
    f = f' ∧ k = k' := by
  obtain ⟨a, ls, rs, h1, h2⟩ := f
  obtain ⟨a', ls', rs', h1', h2'⟩ := f'
  have ha : a = a' := congrArg Branch.addr h
  obtain ⟨rfl, rfl, rfl⟩ := joinAt_inj (Prod.ext (congrArg Branch.first h) (congrArg Branch.rest h)) hl
  subst ha
  exact ⟨rfl, rfl⟩

/-! ## Where an index falls -/

/-- `turnAt`, kid by kid. -/
def turnIn (i : Nat) (k : Sub E d) : List (E × Sub E d) → Int → Turn
  | [], index => .kid i index
  | x :: rest, index =>
    if index < k.size then .kid i index
    else if index - (k.size + 1) < 0 then .elem i
    else turnIn (i + 1) x.2 rest (index - (k.size + 1))

theorem turnAt_eq (par : Ptr) (b : Sub E (d + 1)) {index : Int} (hi : index < b.size) :
    (b.record par).turnAt index = turnIn 0 b.first b.rest index := by
  revert hi
  refine Branch.cases (P := fun b : Branch E (Sub E d) => index < Sub.size (d := d + 1) b →
    (Sub.record par b).turnAt index = turnIn 0 b.first b.rest index) b ?_ ?_ ?_
  · intro a k0 e0 k1 h h' hi
    have hi : index < k0.size + (k1.size + 1) := by simpa [Sub.size, Sub.contents] using hi
    have := k1.size_nonneg
    simp only [Node.turnAt, Sub.record, nodeOf, Node.count, turnIn, List.map_cons, List.map_nil, List.takeD_succ,
      List.takeD_zero, List.tail_cons, List.tail_nil, List.getD_cons_zero, List.getD_cons_succ]
    grind
  · intro a k0 e0 k1 e1 k2 h h' hi
    have hi : index < k0.size + (k1.size + (k2.size + 1) + 1) := by simpa [Sub.size, Sub.contents] using hi
    have := k2.size_nonneg
    simp only [Node.turnAt, Sub.record, nodeOf, Node.count, turnIn, List.map_cons, List.map_nil, List.takeD_succ,
      List.takeD_zero, List.tail_cons, List.tail_nil, List.getD_cons_zero, List.getD_cons_succ]
    grind
  · intro a k0 e0 k1 e1 k2 e2 k3 h h' hi
    rfl

/-- The elements of a node to the left of a kid. -/
def leftOf (ls : List (Sub E d × E)) : List E := ls.flatMap fun x => x.1.contents ++ [x.2]

theorem turnIn_spec (i : Nat) (k : Sub E d) (rest : List (E × Sub E d)) (index : Int) (h0 : 0 ≤ index)
    (h1 : index < k.size + (rest.map fun x => x.2.size + 1).sum) :
    (∃ ls k' rs index', joinAt ls k' rs = (k, rest) ∧ turnIn i k rest index = .kid (i + ls.length) index' ∧
      0 ≤ index' ∧ index' < k'.size ∧ index = (leftOf ls).length + index') ∨
    ∃ ls k' x k'' rs, joinAt ls k' ((x, k'') :: rs) = (k, rest) ∧ turnIn i k rest index = .elem (i + ls.length) ∧
      index = (leftOf ls).length + k'.size := by
  induction rest generalizing i k index with
  | nil =>
    refine .inl ⟨[], k, [], index, rfl, rfl, h0, ?_, by simp [leftOf]⟩
    simpa using h1
  | cons x rest ih =>
    by_cases hk : index < k.size
    · exact .inl ⟨[], k, x :: rest, index, rfl, if_pos hk, h0, hk, by simp [leftOf]⟩
    by_cases he : index - (k.size + 1) < 0
    · refine .inr ⟨[], k, x.1, x.2, rest, rfl, ?_, ?_⟩
      · unfold turnIn
        rw [if_neg hk, if_pos he]; rfl
      · simp only [leftOf, List.flatMap_nil, List.length_nil]; omega
    · have hturn : turnIn i k (x :: rest) index = turnIn (i + 1) x.2 rest (index - (k.size + 1)) := by
        rw [turnIn, if_neg hk, if_neg he]
      have hleft : ∀ ls : List (Sub E d × E), ((leftOf ((k, x.1) :: ls)).length : Int) = k.size + 1 + (leftOf ls).length := by
        intro ls
        simp only [leftOf, List.flatMap_cons, List.length_append, List.length_singleton, Sub.size]
        omega
      rw [List.map_cons, List.sum_cons] at h1
      rw [hturn]
      rcases ih (i + 1) x.2 (index - (k.size + 1)) (by omega) (by omega) with ⟨ls, k', rs, index', h2, h3, h4, h5, h6⟩ | ⟨ls, k', y, k'', rs, h2, h3, h4⟩
      · refine .inl ⟨(k, x.1) :: ls, k', rs, index', by simp [joinAt, h2], ?_, h4, h5, ?_⟩
        · rw [h3, List.length_cons, Nat.add_right_comm, Nat.add_assoc]
        · rw [hleft]; omega
      · refine .inr ⟨(k, x.1) :: ls, k', y, k'', rs, by simp [joinAt, h2], ?_, ?_⟩
        · rw [h3, List.length_cons, Nat.add_right_comm, Nat.add_assoc]
        · rw [hleft]; omega

theorem Sub.size_eq (b : Sub E (d + 1)) : b.size = b.first.size + (b.rest.map fun x => x.2.size + 1).sum := by
  have h : ∀ rest : List (E × Sub E d), ((rest.flatMap fun x => x.1 :: x.2.contents).length : Int) =
      (rest.map fun x => x.2.size + 1).sum := by
    intro rest
    induction rest with
    | nil => rfl
    | cons x rest ih =>
      rw [List.flatMap_cons, List.length_append, List.map_cons, List.sum_cons, ← ih, Nat.cast_add, List.length_cons]
      rfl
  rw [← h]
  show ((b.first.contents ++ b.rest.flatMap fun x => x.1 :: x.2.contents).length : Int) = _
  rw [List.length_append, Nat.cast_add]
  rfl

theorem joinAt_append {K : Type} (ls : List (K × E)) (k : K) (x : E) (k' : K) (rs : List (E × K)) :
    joinAt (ls ++ [(k, x)]) k' rs = joinAt ls k ((x, k') :: rs) := by
  induction ls with
  | nil => rfl
  | cons y ls ih => simp [joinAt, ih]

theorem fill_of_joinAt {b : Sub E (d + 1)} {ls : List (Sub E d × E)} {k : Sub E d} {rs : List (E × Sub E d)}
    (h : joinAt ls k rs = (b.first, b.rest)) : ∃ f : Frame E (Sub E d), b = f.fill k ∧ f.ls = ls ∧ f.rs = rs := by
  have hlen : ls.length + rs.length = b.rest.length := by
    rw [← joinAt_length ls k rs, h]
  have h4 : 1 ≤ b.rest.length := List.length_pos_iff.mpr b.nonempty
  have h5 := b.small
  exact ⟨⟨b.addr, ls, rs, by omega, by omega⟩, Branch.ext rfl (congrArg Prod.fst h).symm (congrArg Prod.snd h).symm, rfl, rfl⟩

/-- An index of a node falls in a kid, or on the element after one. -/
theorem turnAt_spec (par : Ptr) (b : Sub E (d + 1)) (index : Int) (h0 : 0 ≤ index) (h1 : index < b.size) :
    ∃ (f : Frame E (Sub E d)) (k : Sub E d), b = f.fill k ∧
      ((∃ index', (b.record par).turnAt index = .kid f.ls.length index' ∧ 0 ≤ index' ∧ index' < k.size ∧
          index = f.before.length + index') ∨
        ∃ x k' rs, f.rs = (x, k') :: rs ∧ (b.record par).turnAt index = .elem f.ls.length ∧
          index = f.before.length + k.size) := by
  rw [turnAt_eq par b h1]
  rcases turnIn_spec 0 b.first b.rest index h0 (by rw [← b.size_eq]; exact h1) with
    ⟨ls, k, rs, index', h2, h3, h4, h5, h6⟩ | ⟨ls, k, x, k', rs, h2, h3, h4⟩
  · obtain ⟨f, hf, rfl, -⟩ := fill_of_joinAt h2
    exact ⟨f, k, hf, .inl ⟨index', by rw [h3, Nat.zero_add], h4, h5, h6⟩⟩
  · obtain ⟨f, hf, rfl, hrs⟩ := fill_of_joinAt h2
    exact ⟨f, k, hf, .inr ⟨x, k', rs, hrs, by rw [h3, Nat.zero_add], h4⟩⟩

/-! ## Looking up an index -/

variable {t : Tree234 E} {C : Multiset (Nat × Node E)}

theorem indexLoop_spec : ∀ {d : Nat} {par : Ptr} {k : Sub E d} {C : Multiset (Nat × Node E)} {i : Nat} {fuel : Nat},
    Owns t.heap (k.cells par + C) → i < k.contents.length → d < fuel → t.indexLoop fuel k.addr? i = some k.contents[i]?
  | 0, _, _, _, i, _, _, hi, _ => absurd hi (Nat.not_lt_zero i)
  | d + 1, par, b, C, i, fuel, h, hi, hf => by
    obtain ⟨fuel, rfl⟩ : ∃ m, fuel = m + 1 := ⟨fuel - 1, by omega⟩
    obtain ⟨f, k, hb, hturn⟩ := turnAt_spec par b i (by omega) (by unfold Sub.size; omega)
    have h1 := f.owns_fill (hb ▸ h)
    have haddr : b.addr? = some f.addr := by rw [hb]; rfl
    have hrec : b.record par = f.record par k.addr? k.size := by rw [hb, f.record_fill]
    have hcont : b.contents = f.before ++ k.contents ++ f.after := by rw [hb, f.contents_fill]
    rw [hrec] at hturn
    rw [haddr]
    unfold Tree234.indexLoop
    simp only [node_eq h1, Option.bind_eq_bind, Option.bind_some]
    rcases hturn with ⟨index', h2, h3, h4, h5⟩ | ⟨x, k', rs, h2, h3, h4⟩
    · obtain ⟨j, rfl⟩ : ∃ j : Nat, index' = j := ⟨index'.toNat, by omega⟩
      have hj : j < k.contents.length := by unfold Sub.size at h4; omega
      have h6 : Owns t.heap (k.cells (some f.addr) + ({(f.addr, f.record par k.addr? k.size)} + (f.cells + C))) :=
        h1.of_eq (by abel)
      have ih := indexLoop_spec h6 hj (Nat.lt_of_succ_lt_succ hf)
      rw [h2]
      show t.indexLoop fuel ((f.record par k.addr? k.size).kid f.ls.length) j = _
      rw [f.kid, ih, hcont, List.append_assoc, List.getElem?_append_right (by omega), List.getElem?_append_left (by omega)]
      congr 2
      omega
    · rw [h3]
      show some ((f.record par k.addr? k.size).elem f.ls.length) = _
      have hlen : (f.before ++ k.contents).length = i := by rw [List.length_append]; unfold Sub.size at h4; omega
      rw [f.elem, h2, hcont, List.getElem?_append_right (by omega), hlen, Nat.sub_self]
      unfold Frame.after
      rw [h2]
      rfl

theorem count234_spec {l : List E} (h : Rep t l) : t.count234 = some (l.length : Int) := by
  obtain ⟨d, T, hroot, hO, rfl⟩ := h
  unfold Tree234.count234
  cases d with
  | zero => rw [hroot]; rfl
  | succ d =>
    have h1 : Owns t.heap ({(T.addr, T.record none)} + _) := hO
    rw [hroot]
    show t.countnode234 (some T.addr) = _
    rw [countnode234_eq h1, T.record_total]
    rfl

theorem index234_spec {l : List E} (h : Rep t l) (index : Int) :
    t.index234 index = some (if index < 0 then none else l[index.toNat]?) := by
  have hcount := count234_spec h
  obtain ⟨d, T, hroot, hO, rfl⟩ := h
  unfold Tree234.count234 at hcount
  unfold Tree234.index234
  cases d with
  | zero =>
    rw [hroot]
    show some none = some (if index < 0 then none else ([] : List E)[index.toNat]?)
    simp
  | succ d =>
    rw [hroot] at hcount ⊢
    have hcount : t.countnode234 (some T.addr) = some (T.contents.length : Int) := hcount
    show (t.countnode234 (some T.addr) >>= fun count =>
      if index < 0 ∨ index ≥ count then some none else t.indexLoop (t.heap.brk + 1) (some T.addr) index) = _
    rw [hcount, Option.bind_eq_bind, Option.bind_some]
    by_cases h0 : index < 0
    · rw [if_pos (.inl h0), if_pos h0]
    obtain ⟨i, rfl⟩ : ∃ i : Nat, index = i := ⟨index.toNat, by omega⟩
    rw [if_neg h0, Int.toNat_natCast]
    by_cases h1 : T.contents.length ≤ i
    · rw [if_pos (.inr (by omega)), List.getElem?_eq_none h1]
    · rw [if_neg (by omega)]
      have hd := (T.height_le_card none).trans hO.card_le_brk
      exact indexLoop_spec (C := 0) (hO.of_eq (add_zero _).symm) (by omega) (by omega)

/-! ## Searching -/

theorem Frame.sum_before (f : Frame E (Sub E d)) (par kid : Ptr) (count : Int) :
    ((List.range f.ls.length).map fun i => 1 + (f.record par kid count).count i).sum = f.before.length := by
  induction f using Frame.cases <;>
    simp [Frame.record, Frame.before, Node.count, Sub.size, List.range_succ] <;> omega

theorem Frame.sum_upto (f : Frame E (Sub E d)) (par kid : Ptr) (count : Int) :
    f.ls.length + ((List.range (f.ls.length + 1)).map fun i => (f.record par kid count).count i).sum =
      f.before.length + count := by
  induction f using Frame.cases <;>
    simp [Frame.record, Frame.before, Node.count, Sub.size, List.range_succ] <;> omega

theorem Sub.elements234 (par : Ptr) (b : Sub E (d + 1)) : (b.record par).elements234 = b.rest.length := by
  refine Branch.cases (P := fun b : Branch E (Sub E d) => (Sub.record par b).elements234 = b.rest.length) b ?_ ?_ ?_ <;>
    intros <;> rfl

section Search

variable {g : E → Int}

/-- Once the elements stop comparing greater they all compare less. -/
def Splits (g : E → Int) (l : List E) : Prop := l.Pairwise fun x y => g x ≤ 0 → g y < 0

theorem Splits.around {A B : List E} {x : E} (h : Splits g (A ++ x :: B)) :
    (0 < g x → ∀ y ∈ A, 0 < g y) ∧ (g x < 0 → ∀ y ∈ B, g y < 0) := by
  obtain ⟨-, hB, hAB⟩ := List.pairwise_append.mp h
  constructor
  · intro hx y hy
    by_contra hn
    have := hAB y hy x List.mem_cons_self (by omega)
    omega
  · intro hx y hy
    exact (List.pairwise_cons.mp hB).1 y hy (by omega)

/-- The search is at the element `last` of the node `b`. -/
structure At (g : E → Int) (c : Ctx E (d + 1)) (b : Sub E (d + 1)) (s : SearchState E) : Prop where
  node : s.node = some b.addr
  base : s.base = c.before.length
  range : 0 ≤ s.lo ∧ s.lo ≤ s.last ∧ s.last ≤ s.hi
  left : ∃ (f : Frame E (Sub E d)) (k : Sub E d), b = f.fill k ∧ f.ls.length = s.lo ∧ ∀ x ∈ c.before ++ f.before, 0 < g x
  right : ∃ (f : Frame E (Sub E d)) (k : Sub E d), b = f.fill k ∧ f.ls.length = s.hi + 1 ∧ ∀ x ∈ f.after ++ c.after, g x < 0
  cur : ∃ (f : Frame E (Sub E d)) (k : Sub E d) (x : E) (k' : Sub E d) (rs : List (E × Sub E d)), b = f.fill k ∧
    f.ls.length = s.last ∧ f.rs = (x, k') :: rs ∧ s.element = some x ∧ s.index = c.before.length + f.before.length + k.size

/-- In the range of a node's elements the middle one is picked. -/
theorem pick_at {c : Ctx E (d + 1)} {b : Sub E (d + 1)} {s : SearchState E} (par : Ptr) (hlast : s.last ≠ -1)
    (hnode : s.node = some b.addr) (hbase : s.base = c.before.length) (hlo : 0 ≤ s.lo) (hhi : s.lo ≤ s.hi)
    (left : ∃ (f : Frame E (Sub E d)) (k : Sub E d), b = f.fill k ∧ f.ls.length = s.lo ∧ ∀ x ∈ c.before ++ f.before, 0 < g x)
    (right : ∃ (f : Frame E (Sub E d)) (k : Sub E d), b = f.fill k ∧ f.ls.length = s.hi + 1 ∧ ∀ x ∈ f.after ++ c.after, g x < 0) :
    At g c b (s.pick (b.record par)) := by
  obtain ⟨f, k, hb, hl, -⟩ := id right
  have hrest : b.rest.length = f.ls.length + f.rs.length := by rw [hb, f.rest_length]
  obtain ⟨j, hj⟩ : ∃ j : Nat, (s.lo + s.hi) / 2 = j := ⟨((s.lo + s.hi) / 2).toNat, by omega⟩
  obtain ⟨f', k', hb', hl'⟩ := b.focus j (by omega)
  have hrest' : b.rest.length = f'.ls.length + f'.rs.length := by rw [hb', f'.rest_length]
  obtain ⟨⟨x, k''⟩, rs, hrs⟩ : ∃ x rs, f'.rs = x :: rs := List.exists_cons_of_length_pos (by omega)
  have hrec : b.record par = f'.record par k'.addr? k'.size := by rw [hb', f'.record_fill]
  unfold SearchState.pick
  rw [if_neg hlast]
  refine ⟨hnode, hbase, ⟨hlo, ?_, ?_⟩, left, right, f', k', x, k'', rs, hb', ?_, hrs, ?_, ?_⟩
  · show s.lo ≤ (s.lo + s.hi) / 2; omega
  · show (s.lo + s.hi) / 2 ≤ s.hi; omega
  · show (f'.ls.length : Int) = (s.lo + s.hi) / 2; omega
  · show (b.record par).elem ((s.lo + s.hi) / 2).toNat = some x
    rw [hj, Int.toNat_natCast, hrec, ← hl', f'.elem, hrs]; rfl
  · show s.base + (s.lo + s.hi) / 2 + ((List.range (((s.lo + s.hi) / 2).toNat + 1)).map fun i => (b.record par).count i).sum = _
    rw [hj, Int.toNat_natCast, hrec, ← hl', hbase]
    have := f'.sum_upto par k'.addr? k'.size
    omega

/-- On coming into a node, all of its elements are in the range. -/
theorem enter_at {c : Ctx E (d + 1)} {b : Sub E (d + 1)} {s : SearchState E} (par : Ptr) (hlast : s.last = -1)
    (hnode : s.node = some b.addr) (hbase : s.base = c.before.length) (hbefore : ∀ x ∈ c.before, 0 < g x)
    (hafter : ∀ x ∈ c.after, g x < 0) : At g c b (s.pick (b.record par)) := by
  have hrest : 1 ≤ b.rest.length := List.length_pos_iff.mpr b.nonempty
  have hpick : s.pick (b.record par) =
      { s with lo := 0, hi := (b.record par).elements234 - 1, last := 0 : SearchState E }.pick (b.record par) := by
    unfold SearchState.pick
    rw [if_pos hlast, if_neg (show ¬ (0 : Int) = -1 by decide)]
  rw [hpick, b.elements234]
  apply pick_at (s := { s with lo := 0, hi := (b.rest.length : Int) - 1, last := 0 }) par (show ¬ (0 : Int) = -1 by decide) hnode hbase (Int.le_refl 0) (show (0 : Int) ≤ b.rest.length - 1 by omega)
  · obtain ⟨f, k, hb, hl⟩ := b.focus 0 (Nat.zero_le _)
    refine ⟨f, k, hb, by rw [hl]; rfl, ?_⟩
    unfold Frame.before
    rw [List.length_eq_zero_iff.mp hl]
    simpa using hbefore
  · obtain ⟨f, k, hb, hl⟩ := b.focus b.rest.length (Nat.le_refl _)
    refine ⟨f, k, hb, by rw [hl]; show (b.rest.length : Int) = b.rest.length - 1 + 1; omega, ?_⟩
    have hrs : f.rs = [] := by
      have h := f.rest_length k
      rw [← hb] at h
      exact List.length_eq_zero_iff.mp (by omega)
    unfold Frame.after
    rw [hrs]
    simpa using hafter

/-- The search has come down to `k`. -/
def Entered (g : E → Int) : {d : Nat} → Ctx E d → Sub E d → SearchState E → Prop
  | 0, c, _, s => s.element = none ∧ s.index = c.before.length ∧ (∀ x ∈ c.before, 0 < g x) ∧ ∀ x ∈ c.after, g x < 0
  | _ + 1, c, b, s => At g c b s ∧ s.hi - s.lo ≤ 2

theorem arrive_spec {c : Ctx E d} {k : Sub E d} {s : SearchState E} {par : Ptr} (h : Owns t.heap (k.cells par + C))
    (hlast : s.last = -1) (hnode : s.node = k.addr?) (hbase : s.base = c.before.length) (hbefore : ∀ x ∈ c.before, 0 < g x)
    (hafter : ∀ x ∈ c.after, g x < 0) : ∃ s', t.arrive s = some s' ∧ Entered g c k s' := by
  unfold Tree234.arrive
  rw [hnode]
  cases d with
  | zero => exact ⟨_, rfl, rfl, hbase, hbefore, hafter⟩
  | succ d =>
    have h1 : Owns t.heap ({(k.addr, k.record par)} + ((k.first.cells (some k.addr) +
        (k.rest.map fun x => x.2.cells (some k.addr)).sum) + C)) := h.of_eq (add_assoc _ _ _)
    refine ⟨s.pick (k.record par), ?_, enter_at par hlast hnode hbase hbefore hafter, ?_⟩
    · show (t.node k.addr).map s.pick = _
      rw [node_eq h1]; rfl
    · have := k.small
      unfold SearchState.pick
      rw [if_pos hlast, k.elements234]
      show ((k.rest.length : Int) - 1) - 0 ≤ 2
      omega

theorem search234Start_spec {T : Sub E d} (h : Owns t.heap (T.cells none + C)) (hroot : t.root = T.addr?) :
    ∃ s', t.search234Start = some s' ∧ (d ≠ 0 → Entered g Ctx.root T s') ∧ (d = 0 → s'.element = none ∧ s'.index = 0) := by
  unfold Tree234.search234Start Tree234.search234Step
  cases d with
  | zero =>
    rw [hroot]
    exact ⟨_, rfl, fun h => absurd rfl h, fun _ => ⟨rfl, rfl⟩⟩
  | succ d =>
    have h1 : Owns t.heap ({(T.addr, T.record none)} + ((T.first.cells (some T.addr) +
        (T.rest.map fun x => x.2.cells (some T.addr)).sum) + C)) := h.of_eq (add_assoc _ _ _)
    obtain ⟨s', e, hs⟩ := arrive_spec (g := g) (c := Ctx.root) (s := ⟨t.root, 0, 0, -1, 0, none, 0⟩) h rfl hroot rfl
      (fun _ hx => absurd hx List.not_mem_nil) (fun _ hx => absurd hx List.not_mem_nil)
    refine ⟨s', ?_, fun _ => hs, fun h => absurd h (Nat.succ_ne_zero d)⟩
    rw [hroot] at e ⊢
    show ((t.node T.addr).bind fun n => (SearchState.narrow ⟨some T.addr, 0, 0, -1, 0, none, 0⟩ n 0).bind t.arrive) = some s'
    rw [node_eq h1, Option.bind_some]
    exact e

/-- Among what is left of the node's range another element is picked, or the search goes down to the kid there. -/
theorem narrowed_spec {c : Ctx E (d + 1)} {b : Sub E (d + 1)} {s : SearchState E} {room : Int}
    (h : Owns t.heap (b.cells c.par + C)) (hlast : s.last ≠ -1) (hnode : s.node = some b.addr) (hbase : s.base = c.before.length)
    (hlo : 0 ≤ s.lo) (hhi : s.lo ≤ s.hi + 1) (hroom : s.hi - s.lo < room)
    (left : ∃ (f : Frame E (Sub E d)) (k : Sub E d), b = f.fill k ∧ f.ls.length = s.lo ∧ ∀ x ∈ c.before ++ f.before, 0 < g x)
    (right : ∃ (f : Frame E (Sub E d)) (k : Sub E d), b = f.fill k ∧ f.ls.length = s.hi + 1 ∧ ∀ x ∈ f.after ++ c.after, g x < 0) :
    ∃ s', (if s.lo > s.hi then
        some { s with
          base := s.base + ((List.range s.lo.toNat).map fun i => 1 + (b.record c.par).count i).sum
          node := (b.record c.par).kid s.lo.toNat
          last := -1 }
      else some s).bind t.arrive = some s' ∧ ((At g c b s' ∧ s'.hi - s'.lo < room) ∨
        ∃ (f : Frame E (Sub E d)) (k : Sub E d), b = f.fill k ∧ Entered g (Ctx.up f c) k s') := by
  by_cases hout : s.lo > s.hi
  · -- the two ends of the range have met at one kid
    obtain ⟨f, k, hb, hl, hleft⟩ := left
    obtain ⟨f', k', hb', hl', hright⟩ := right
    obtain ⟨rfl, rfl⟩ := Frame.unique (hb.symm.trans hb') (by omega)
    have h1 := f.owns_fill (hb ▸ h)
    have h2 : Owns t.heap (k.cells (some f.addr) + ({(f.addr, f.record c.par k.addr? k.size)} + (f.cells + C))) :=
      h1.of_eq (by abel)
    have hto : s.lo.toNat = f.ls.length := by omega
    have hrec : b.record c.par = f.record c.par k.addr? k.size := by rw [hb, f.record_fill]
    rw [if_pos hout, hto, hrec, f.sum_before, f.kid, Option.bind_some]
    obtain ⟨s', e, hs⟩ := arrive_spec (c := Ctx.up f c) (s := { s with base := s.base + f.before.length, node := k.addr?, last := -1 })
      h2 rfl rfl (by
        show s.base + f.before.length = ((c.before ++ f.before).length : Int)
        rw [hbase, List.length_append, Nat.cast_add]) hleft hright
    exact ⟨s', e, .inr ⟨f, k, hb, hs⟩⟩
  · have h1 : Owns t.heap ({(b.addr, b.record c.par)} + ((b.first.cells (some b.addr) +
        (b.rest.map fun x => x.2.cells (some b.addr)).sum) + C)) := h.of_eq (add_assoc _ _ _)
    rw [if_neg hout, Option.bind_some]
    refine ⟨s.pick (b.record c.par), ?_, .inl ⟨pick_at c.par hlast hnode hbase hlo (by omega) left right, ?_⟩⟩
    · unfold Tree234.arrive
      rw [hnode]
      show (t.node b.addr).map s.pick = _
      rw [node_eq h1]; rfl
    · unfold SearchState.pick
      rw [if_neg hlast]
      exact hroom

/-- A step away from an element stays in the node with a smaller range, or goes down to a kid. -/
theorem step_spec {c : Ctx E (d + 1)} {b : Sub E (d + 1)} {s : SearchState E} {x : E}
    (h : Owns t.heap (b.cells c.par + C)) (hat : At g c b s) (hsplit : Splits g (c.before ++ b.contents ++ c.after))
    (hx : s.element = some x) (hne : g x ≠ 0) :
    ∃ s', t.search234Step s (g x) = some s' ∧ ((At g c b s' ∧ s'.hi - s'.lo < s.hi - s.lo) ∨
      ∃ (f : Frame E (Sub E d)) (k : Sub E d), b = f.fill k ∧ Entered g (Ctx.up f c) k s') := by
  obtain ⟨f, k, y, k', rs, hb, hl, hrs, hy, -⟩ := hat.cur
  cases hy.symm.trans hx
  have hwhole : c.before ++ b.contents ++ c.after =
      (c.before ++ f.before ++ k.contents) ++ x :: (k'.contents ++ (rs.flatMap fun x => x.1 :: x.2.contents) ++ c.after) := by
    rw [hb, f.contents_fill]
    unfold Frame.after
    rw [hrs]
    simp
  rw [hwhole] at hsplit
  obtain ⟨hgt, hlt⟩ := hsplit.around
  have hlast : s.last ≠ -1 := by have := hat.range; omega
  have h1 : Owns t.heap ({(b.addr, b.record c.par)} + ((b.first.cells (some b.addr) +
      (b.rest.map fun x => x.2.cells (some b.addr)).sum) + C)) := h.of_eq (add_assoc _ _ _)
  have hrange := hat.range
  have hstep : t.search234Step s (g x) = (s.narrow (b.record c.par) (g x)).bind t.arrive := by
    unfold Tree234.search234Step
    rw [hat.node]
    show ((t.node b.addr).bind fun n => (s.narrow n (g x)).bind t.arrive) = _
    rw [node_eq h1, Option.bind_some]
  rw [hstep]
  unfold SearchState.narrow
  rw [if_neg hlast, if_neg hne]
  by_cases hdir : g x > 0
  · rw [if_pos hdir]
    refine narrowed_spec h hlast hat.node hat.base (show 0 ≤ s.last + 1 by omega) (show s.last + 1 ≤ s.hi + 1 by omega)
      (show s.hi - (s.last + 1) < s.hi - s.lo by omega) ?_ hat.right
    -- the frame around the next kid
    have hjoin : joinAt (f.ls ++ [(k, x)]) k' rs = (b.first, b.rest) := by
      rw [hb]
      show _ = joinAt f.ls k f.rs
      rw [hrs]
      exact joinAt_append f.ls k x k' rs
    obtain ⟨f', hb', hls, hrs'⟩ := fill_of_joinAt hjoin
    refine ⟨f', k', hb', by rw [hls, List.length_append, List.length_singleton, Nat.cast_add, hl]; rfl, ?_⟩
    have hbefore : f'.before = f.before ++ k.contents ++ [x] := by simp [Frame.before, hls]
    intro z hz
    rw [hbefore, List.mem_append, List.mem_append] at hz
    rcases hz with hz | hz | hz
    · exact hgt hdir z (by simp [hz])
    · exact hgt hdir z (by rw [List.append_assoc]; exact List.mem_append_right _ hz)
    · rw [List.mem_singleton.mp hz]; exact hdir
  · have hneg : g x < 0 := by omega
    rw [if_neg hdir]
    refine narrowed_spec h hlast hat.node hat.base hrange.1 (show s.lo ≤ s.last - 1 + 1 by omega)
      (show s.last - 1 - s.lo < s.hi - s.lo by omega) hat.left ⟨f, k, hb, by rw [hl]; show s.last = s.last - 1 + 1; omega, ?_⟩
    intro z hz
    unfold Frame.after at hz
    rw [hrs] at hz
    rcases List.mem_cons.mp hz with rfl | hz
    · exact hneg
    · exact hlt hneg z hz

/-- An equal element and its index, or the index between the greater ones and the less. -/
def Outcome (g : E → Int) (l : List E) : E × Int ⊕ Int → Prop
  | .inl (x, index) => ∃ A B, l = A ++ x :: B ∧ index = A.length ∧ g x = 0
  | .inr index => ∃ A B, l = A ++ B ∧ index = A.length ∧ (∀ y ∈ A, 0 < g y) ∧ ∀ y ∈ B, g y < 0

/-- How an element compares with what is sought, when an equal one that is not permitted is passed by. -/
def passing (relation : Relation) (c : E → Int) (x : E) : Int :=
  if c x = 0 then (if relation.equalPermitted then 0 else relation.dir) else c x

theorem passing_eq_zero (relation : Relation) (c : E → Int) (x : E) :
    passing relation c x = 0 ↔ c x = 0 ∧ relation.equalPermitted = true := by
  unfold passing
  cases relation <;> by_cases h : c x = 0 <;> simp [h, Relation.equalPermitted, Relation.dir]

/-- The search is at `k` or in it, with steps enough to end. -/
def Searching (g : E → Int) (fuel : Nat) : {d : Nat} → Ctx E d → Sub E d → SearchState E → Prop
  | 0, c, k, s => Entered g c k s
  | d + 1, c, b, s => At g c b s ∧ 4 * (d : Int) + (s.hi - s.lo) + 2 ≤ fuel

theorem Entered.searching {c : Ctx E d} {k : Sub E d} {s : SearchState E} (h : Entered g c k s) {fuel : Nat} (hf : 4 * d ≤ fuel) :
    Searching g fuel c k s := by
  cases d with
  | zero => exact h
  | succ d =>
    obtain ⟨h1, h2⟩ := h
    exact ⟨h1, by omega⟩

theorem findLoop_spec {e : Option E} {cmp : Option (E → E → Int)} {relation : Relation} {q : E → Int}
    (hq : ∀ x, relation.compare cmp e x = some (q x)) (fuel : Nat) :
    ∀ {d : Nat} {c : Ctx E d} {k : Sub E d} {s : SearchState E} {C : Multiset (Nat × Node E)},
      Owns t.heap (k.cells c.par + C) → Splits (passing relation q) (c.before ++ k.contents ++ c.after) →
      Searching (passing relation q) fuel c k s → 0 < fuel →
      ∃ r, t.findLoop e cmp relation fuel s = some r ∧ Outcome (passing relation q) (c.before ++ k.contents ++ c.after) r := by
  induction fuel with
  | zero => intro d c k s C _ _ _ h0; exact absurd h0 (Nat.lt_irrefl 0)
  | succ fuel ih =>
    intro d c k s C h hsplit hs _
    cases d with
    | zero =>
      obtain ⟨h1, h2, h3, h4⟩ := hs
      refine ⟨.inr s.index, ?_, c.before, c.after, by simp [Sub.contents], h2, h3, h4⟩
      unfold Tree234.findLoop
      rw [h1]
    | succ d =>
      obtain ⟨hat, hroom⟩ := hs
      obtain ⟨f, k', x, k'', rs, hb, hl, hrs, hx, hindex⟩ := hat.cur
      have hloop : t.findLoop e cmp relation (fuel + 1) s =
          if q x = 0 ∧ relation.equalPermitted then some (.inl (x, s.index))
          else (t.search234Step s (if q x = 0 then relation.dir else q x)).bind (t.findLoop e cmp relation fuel) := by
        rw [Tree234.findLoop, hx]
        dsimp only
        rw [hq x]
        rfl
      rw [hloop]
      by_cases hfound : q x = 0 ∧ relation.equalPermitted = true
      · rw [if_pos hfound]
        refine ⟨_, rfl, c.before ++ f.before ++ k'.contents, k''.contents ++ (rs.flatMap fun x => x.1 :: x.2.contents) ++ c.after,
          ?_, ?_, (passing_eq_zero relation q x).mpr hfound⟩
        · rw [hb, f.contents_fill]
          unfold Frame.after
          rw [hrs]
          simp
        · rw [hindex]
          simp only [List.length_append, Nat.cast_add]
          rfl
      · have hne : passing relation q x ≠ 0 := fun h0 => hfound ((passing_eq_zero relation q x).mp h0)
        have hdir : (if q x = 0 then relation.dir else q x) = passing relation q x := by
          unfold passing
          by_cases h0 : q x = 0
          · rw [if_pos h0, if_pos h0, if_neg fun h1 => hfound ⟨h0, h1⟩]
          · rw [if_neg h0, if_neg h0]
        rw [if_neg hfound, hdir]
        obtain ⟨s', e1, hcase⟩ := step_spec h hat hsplit hx hne
        rw [e1, Option.bind_some]
        have hrange := hat.range
        rcases hcase with ⟨hat', hless⟩ | ⟨f', k1, hb', hent⟩
        · have hrange' := hat'.range
          exact ih h hsplit ⟨hat', by push_cast at hroom; omega⟩ (by omega)
        · have h1 := f'.owns_fill (hb' ▸ h)
          have h2 : Owns t.heap (k1.cells (Ctx.up f' c).par + ({(f'.addr, f'.record c.par k1.addr? k1.size)} + (f'.cells + C))) :=
            h1.of_eq (by
              show _ = k1.cells (some f'.addr) + _
              abel)
          have hwhole : c.before ++ Sub.contents k ++ c.after =
              (Ctx.up f' c).before ++ k1.contents ++ (Ctx.up f' c).after := by
            rw [hb', f'.contents_fill]
            simp [Ctx.before, Ctx.after]
          rw [hwhole] at hsplit ⊢
          exact ih h2 hsplit (hent.searching (by omega)) (by omega)

/-- What is answered when nothing equal that is permitted was found: the element beside the index. -/
def beside (relation : Relation) (l : List E) (index : Int) : Option (E × Int) :=
  if relation = .eq then none
  else
    let index := if relation = .lt ∨ relation = .le then index - 1 else index
    (if index < 0 then none else l[index.toNat]?).map fun x => (x, index)

/-- A lookup by comparing ends, at an equal element or beside the place where it would be. -/
theorem findrelpos234_spec {e : Option E} {cmp : Option (E → E → Int)} {relation : Relation} {q : E → Int} {l : List E}
    (h : Rep t l) (hq : ∀ x, relation.compare (cmp <|> t.cmp) e x = some (q x)) (hsplit : Splits (passing relation q) l)
    (he : relation.equalPermitted = true → e.isSome = true) :
    ∃ r, Outcome (passing relation q) l r ∧
      t.findrelpos234 e cmp relation = some (r.elim some (beside relation l)) := by
  have hindex := index234_spec h
  obtain ⟨d, T, hroot, hO, hT⟩ := h
  have hO' : Owns t.heap (T.cells none + 0) := hO.of_eq (add_zero _).symm
  obtain ⟨s, hstart, hin, hempty⟩ := search234Start_spec (g := passing relation q) hO' hroot
  have hloop : ∃ r, t.findLoop e (cmp <|> t.cmp) relation (4 * t.heap.brk + 4) s = some r ∧ Outcome (passing relation q) l r := by
    cases d with
    | zero =>
      obtain ⟨helem, h0⟩ := hempty rfl
      cases hT
      refine ⟨.inr 0, ?_, [], [], rfl, rfl, by simp, by simp⟩
      rw [Tree234.findLoop, helem, h0]
    | succ d =>
      have hd := (T.height_le_card none).trans hO.card_le_brk
      have hO'' : Owns t.heap (T.cells (Ctx.root (E := E) (d := d + 1)).par + 0) := hO'
      have hwhole : (Ctx.root (E := E) (d := d + 1)).before ++ T.contents ++ (Ctx.root (E := E) (d := d + 1)).after = l := by
        show [] ++ T.contents ++ [] = l
        rw [List.nil_append, List.append_nil, hT]
      obtain ⟨r, hr, hout⟩ := findLoop_spec hq (4 * t.heap.brk + 4) hO'' (by rw [hwhole]; exact hsplit)
        ((hin (Nat.succ_ne_zero d)).searching (by omega)) (by omega)
      exact ⟨r, hr, by rwa [hwhole] at hout⟩
  obtain ⟨r, hr, hout⟩ := hloop
  refine ⟨r, hout, ?_⟩
  have hne : ¬ (relation.equalPermitted = true ∧ e.isNone = true) := by
    intro hno
    have hsome := he hno.1
    rw [← Option.not_isNone, hno.2] at hsome
    cases hsome
  unfold Tree234.findrelpos234
  rw [if_neg hne, hstart]
  simp only [Option.bind_eq_bind, Option.bind_some, hr]
  cases r with
  | inl found => rfl
  | inr index =>
    simp only [Sum.elim_inr, beside]
    by_cases heq : relation = .eq
    · rw [if_pos heq, if_pos heq]
    · rw [if_neg heq, if_neg heq, hindex]
      rfl

end Search

end Putty.Tree
