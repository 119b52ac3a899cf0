/-
  Putty.Windows.MapChain — the window map of the multi-window build
  (`windows/VS2012/putty/util.c`): a singly linked chain of (window handle, data)
  nodes, and the way `WndProc` keeps its head (`windows/window.c`, WM_CREATE and
  WM_CLOSE).

  `addToMapchain` walks from the head to the key or to the last node and returns that
  node (the new one only for an empty chain); `WndProc` stores the result only when its
  head is NULL. `removeFromMapchain` returns the node before the removed one, the node
  after it when it was the first, and the last node when the key is absent; `WndProc`
  stores whatever comes back. So a removal at the third place or later, and a removal
  of an absent key from two nodes or more, cut the nodes before the returned one off
  the chain, and `updateToMapchain` on an empty chain makes a node that nothing points
  to.

  Proved: every state of a run gives what a finite map gives exactly when every step
  of the run is a safe one (`mapchain_refines_iff`).

  A node and the `map` it owns are one cell here. `calloc` does not fail.
-/

import Mathlib.Data.Finmap
import Putty.Lib.Heap
import Putty.Lib.Run

namespace Putty.Windows.MapChain

open Putty.Lib

set_option linter.unusedSectionVars false

structure Map (K V : Type) where
  key : K
  /-- The `void *` stored under the key; `none` is NULL. -/
  value : Option V
  deriving DecidableEq, Repr

structure MapNode (K V : Type) where
  current : Map K V
  next : Ptr
  deriving DecidableEq, Repr

variable {K V : Type} [DecidableEq K]

/-! ## The functions of util.c

`n` bounds the rounds of a loop; running out of it is a crash. -/

def getLoop (h : Heap (MapNode K V)) (key : K) : Nat → Ptr → Option (Option V)
  | 0, _ => none
  | _ + 1, none => some none
  | n + 1, some a => do
    let node ← h.cell a
    if node.current.key = key then some node.current.value else getLoop h key n node.next

def getMapchainValue (h : Heap (MapNode K V)) (chain : Ptr) (key : K) : Option (Option V) :=
  getLoop h key (h.brk + 1) chain

def existLoop (h : Heap (MapNode K V)) (key : K) : Nat → Ptr → Option Bool
  | 0, _ => none
  | _ + 1, none => some false
  | n + 1, some a => do
    let node ← h.cell a
    if node.current.key = key then some true else existLoop h key n node.next

def existInMapchian (h : Heap (MapNode K V)) (chain : Ptr) (key : K) : Option Bool :=
  existLoop h key (h.brk + 1) chain

def countLoop (h : Heap (MapNode K V)) : Nat → Ptr → Nat → Option Nat
  | 0, _, _ => none
  | _ + 1, none, count => some count
  | n + 1, some a, count => do
    let node ← h.cell a
    countLoop h n node.next (count + 1)

def getCountMapchain (h : Heap (MapNode K V)) (chain : Ptr) : Option Nat := countLoop h (h.brk + 1) chain 0

/-- The `do .. while (1)` of `add_to_mapchain` from the node `a`, and the linking of the
    new node behind the one it breaks at. -/
def addLoop (h : Heap (MapNode K V)) (key : K) (value : Option V) : Nat → Nat → Option (Heap (MapNode K V) × Ptr)
  | 0, _ => none
  | n + 1, a => do
    let node ← h.cell a
    if node.current.key = key then
      let h ← h.modify a fun nd => { nd with current := { nd.current with value := value } }
      some (h, some a)
    else
      match node.next with
      | some b => addLoop h key value n b
      | none => do
        let newnode := h.brk
        let h := h.alloc ⟨⟨key, value⟩, none⟩
        let h ← h.modify a fun nd => { nd with next := some newnode }
        some (h, some a)

def addToMapchain (h : Heap (MapNode K V)) (chain : Ptr) (key : K) (value : Option V) :
    Option (Heap (MapNode K V) × Ptr) :=
  match chain with
  | some a => addLoop h key value (h.brk + 1) a
  | none => some (h.alloc ⟨⟨key, value⟩, none⟩, some h.brk)

def updateToMapchain (h : Heap (MapNode K V)) (chain : Ptr) (key : K) (value : Option V) :
    Option (Heap (MapNode K V) × Ptr) := addToMapchain h chain key value

def removeLoop (h : Heap (MapNode K V)) (key : K) : Nat → Ptr → Ptr → Option (Heap (MapNode K V) × Ptr)
  | 0, _, _ => none
  | _ + 1, pre, none => some (h, pre)
  | n + 1, pre, some a => do
    let node ← h.cell a
    if node.current.key = key then
      if some a ≠ pre then
        let p ← pre
        let h ← h.modify p fun nd => { nd with next := node.next }
        let h ← h.free a
        some (h, pre)
      else
        let h ← h.free a
        some (h, node.next)
    else removeLoop h key n (some a) node.next

def removeFromMapchain (h : Heap (MapNode K V)) (chain : Ptr) (key : K) : Option (Heap (MapNode K V) × Ptr) :=
  removeLoop h key (h.brk + 1) chain chain

/-! ## The window map as WndProc keeps it -/

structure St (K V : Type) where
  heap : Heap (MapNode K V)
  windowNodes : Ptr

def init : St K V := ⟨Heap.empty, none⟩

inductive Op (K V : Type) where
  | add (key : K) (value : Option V)
  | update (key : K) (value : Option V)
  | remove (key : K)
  deriving DecidableEq, Repr

def step (s : St K V) : Op K V → Option (St K V)
  | .add key value => do
    let (h, nd) ← addToMapchain s.heap s.windowNodes key value
    some ⟨h, if s.windowNodes = none then nd else s.windowNodes⟩
  | .update key value => do
    let (h, _) ← updateToMapchain s.heap s.windowNodes key value
    some ⟨h, s.windowNodes⟩
  | .remove key => do
    let (h, nd) ← removeFromMapchain s.heap s.windowNodes key
    some ⟨h, nd⟩

/-! ## The finite map it stands for -/

/-- A finite map from window handles to data. -/
abbrev WindowMap (K V : Type) := Finmap fun _ : K => Option V

def specStep (m : WindowMap K V) : Op K V → WindowMap K V
  | .add key value => m.insert key value
  | .update key value => m.insert key value
  | .remove key => m.erase key

def spec (ops : List (Op K V)) : WindowMap K V := ops.foldl specStep ∅

/-- What the three readers of the chain return is what the map gives. -/
def Agrees (m : WindowMap K V) (s : St K V) : Prop :=
  (∀ key, getMapchainValue s.heap s.windowNodes key = some (m.lookup key).join) ∧
    (∀ key, existInMapchian s.heap s.windowNodes key = some (decide (key ∈ m))) ∧
    getCountMapchain s.heap s.windowNodes = some m.keys.card

/-- The keys from the head on, in the order of the chain. -/
def chainKeys (h : Heap (MapNode K V)) : Nat → Ptr → List K
  | 0, _ => []
  | _ + 1, none => []
  | n + 1, some a =>
    match h.cell a with
    | none => []
    | some node => node.current.key :: chainKeys h n node.next

/-- The steps that keep every window: an update of a chain that has a node, a removal
    whose search stops (at the key, or past the last node) before the third place. -/
def SafeOp (s : St K V) : Op K V → Prop
  | .add _ _ => True
  | .update _ _ => s.windowNodes ≠ none
  | .remove key => (chainKeys s.heap (s.heap.brk + 1) s.windowNodes).idxOf key < 2

/-! ## The chain behind a head -/

/-- The nodes of a chain, with their addresses. -/
abbrev Nodes (K V : Type) := List (Nat × MapNode K V)

def keysOf (xs : Nodes K V) : List K := xs.map (·.2.current.key)

/-- The chain's (key, data) pairs, in Mathlib's form for finite maps. -/
def entries (xs : Nodes K V) : List (Sigma fun _ : K => Option V) :=
  xs.map fun x => ⟨x.2.current.key, x.2.current.value⟩

/-- From `p` hangs the NULL-terminated chain `xs`, its nodes distinct. -/
structure Chain (h : Heap (MapNode K V)) (p : Ptr) (xs : Nodes K V) : Prop where
  seg : Seg MapNode.next h p xs none
  nodup : (xs.map (·.1)).Nodup

@[simp] theorem keys_entries (xs : Nodes K V) : (entries xs).keys = keysOf xs := by
  simp [entries, keysOf, List.keys]

@[simp] theorem entries_append (xs ys : Nodes K V) : entries (xs ++ ys) = entries xs ++ entries ys := by simp [entries]

@[simp] theorem keysOf_append (xs ys : Nodes K V) : keysOf (xs ++ ys) = keysOf xs ++ keysOf ys := by simp [keysOf]

theorem not_mem_keysOf_cons {key : K} {x : Nat × MapNode K V} {xs : Nodes K V} :
    key ∉ keysOf (x :: xs) ↔ x.2.current.key ≠ key ∧ key ∉ keysOf xs := by
  simp [keysOf, eq_comm]

/-- A key of the chain has a first place in it. -/
theorem split_at_key {key : K} {xs : Nodes K V} (hk : key ∈ keysOf xs) :
    ∃ l x r, xs = l ++ x :: r ∧ key ∉ keysOf l ∧ x.2.current.key = key := by
  induction xs with
  | nil => cases hk
  | cons y ys ih =>
    by_cases e : y.2.current.key = key
    · exact ⟨[], y, ys, rfl, by simp [keysOf], e⟩
    · have hy : key ∈ keysOf ys := by
        by_contra hn
        exact not_mem_keysOf_cons.mpr ⟨e, hn⟩ hk
      obtain ⟨l, x, r, rfl, h1, h2⟩ := ih hy
      exact ⟨y :: l, x, r, rfl, not_mem_keysOf_cons.mpr ⟨e, h1⟩, h2⟩

theorem Chain.length_lt {h : Heap (MapNode K V)} {p : Ptr} {xs : Nodes K V} (hc : Chain h p xs) :
    xs.length < h.brk + 1 := Nat.lt_succ_of_le (hc.seg.length_le_brk hc.nodup)

/-! ## The readers -/

theorem dlookup_entries_cons (key : K) (x : Nat × MapNode K V) (xs : Nodes K V) :
    (entries (x :: xs)).dlookup key =
      if x.2.current.key = key then some x.2.current.value else (entries xs).dlookup key := by
  split
  · next e => subst e; exact List.dlookup_cons_eq _ _ _
  · next e => exact List.dlookup_cons_ne _ _ (Ne.symm e)

theorem getLoop_spec {h : Heap (MapNode K V)} (key : K) : ∀ {xs : Nodes K V} {p : Ptr} {n : Nat},
    Seg MapNode.next h p xs none → xs.length < n → getLoop h key n p = some ((entries xs).dlookup key).join
  | [], p, n + 1, hs, _ => by cases hs; rfl
  | x :: xs, p, n + 1, ⟨hp, hx, hs⟩, hn => by
    subst hp
    simp only [getLoop, hx, Option.bind_eq_bind, Option.bind_some]
    rw [dlookup_entries_cons, getLoop_spec key hs (by simpa using hn)]
    split <;> rfl

theorem existLoop_spec {h : Heap (MapNode K V)} (key : K) : ∀ {xs : Nodes K V} {p : Ptr} {n : Nat},
    Seg MapNode.next h p xs none → xs.length < n → existLoop h key n p = some (decide (key ∈ keysOf xs))
  | [], p, n + 1, hs, _ => by cases hs; simp [existLoop, keysOf]
  | x :: xs, p, n + 1, ⟨hp, hx, hs⟩, hn => by
    subst hp
    simp only [existLoop, hx, Option.bind_eq_bind, Option.bind_some]
    rw [existLoop_spec key hs (by simpa using hn)]
    split
    · next e => simp [keysOf, e]
    · next e =>
      rw [decide_eq_decide.mpr]
      simp [keysOf, Ne.symm e]

theorem countLoop_spec {h : Heap (MapNode K V)} : ∀ {xs : Nodes K V} {p : Ptr} {n count : Nat},
    Seg MapNode.next h p xs none → xs.length < n → countLoop h n p count = some (count + xs.length)
  | [], p, n + 1, count, hs, _ => by cases hs; rfl
  | x :: xs, p, n + 1, count, ⟨hp, hx, hs⟩, hn => by
    subst hp
    simp only [countLoop, hx, Option.bind_eq_bind, Option.bind_some]
    rw [countLoop_spec hs (by simpa using hn), List.length_cons]
    congr 1; omega

theorem chainKeys_spec {h : Heap (MapNode K V)} : ∀ {xs : Nodes K V} {p : Ptr} {n : Nat},
    Seg MapNode.next h p xs none → xs.length < n → chainKeys h n p = keysOf xs
  | [], p, n + 1, hs, _ => by cases hs; rfl
  | x :: xs, p, n + 1, ⟨hp, hx, hs⟩, hn => by
    subst hp
    simp only [chainKeys, hx]
    rw [chainKeys_spec hs (by simpa using hn)]; rfl

theorem count_of_chain {h : Heap (MapNode K V)} {p : Ptr} {xs : Nodes K V} (hc : Chain h p xs) :
    getCountMapchain h p = some xs.length := by
  rw [getCountMapchain, countLoop_spec hc.seg hc.length_lt, Nat.zero_add]

/-! ## The writers -/

/-- Both writers pass over the nodes before the key. -/
theorem addLoop_skip {h : Heap (MapNode K V)} {key : K} {value : Option V} {n b : Nat} : ∀ {l : Nodes K V} {a : Nat},
    Seg MapNode.next h (some a) l (some b) → key ∉ keysOf l →
      addLoop h key value (l.length + n) a = addLoop h key value n b
  | [], a, hs, _ => by cases hs; rw [List.length_nil, Nat.zero_add]
  | x :: l, a, ⟨hp, hx, hs⟩, hk => by
    cases hp
    rw [not_mem_keysOf_cons] at hk
    rw [List.length_cons, Nat.add_right_comm, addLoop]
    simp only [hx, Option.bind_eq_bind, Option.bind_some, if_neg hk.1]
    cases hnext : x.2.next with
    | none =>
      rw [hnext] at hs
      cases l with
      | nil => cases hs
      | cons y ys => cases hs.1
    | some c =>
      rw [hnext] at hs
      exact addLoop_skip hs hk.2

/-- The last of `l`, or `pre` when there is none. -/
def lastOf (pre : Ptr) (l : Nodes K V) : Ptr := l.foldl (fun _ x => some x.1) pre

theorem lastOf_concat (pre : Ptr) (l : Nodes K V) (x : Nat × MapNode K V) : lastOf pre (l ++ [x]) = some x.1 := by
  simp [lastOf]

theorem removeLoop_skip {h : Heap (MapNode K V)} {key : K} {n : Nat} {q : Ptr} : ∀ {l : Nodes K V} {pre p : Ptr},
    Seg MapNode.next h p l q → key ∉ keysOf l →
      removeLoop h key (l.length + n) pre p = removeLoop h key n (lastOf pre l) q
  | [], pre, p, hs, _ => by cases hs; rw [List.length_nil, Nat.zero_add]; rfl
  | x :: l, pre, p, ⟨hp, hx, hs⟩, hk => by
    subst hp
    rw [not_mem_keysOf_cons] at hk
    rw [List.length_cons, Nat.add_right_comm, removeLoop]
    simp only [hx, Option.bind_eq_bind, Option.bind_some, if_neg hk.1]
    exact removeLoop_skip hs hk.2

/-- Enough rounds for a chain are enough for a part of it, and one more. -/
theorem Chain.rounds {h : Heap (MapNode K V)} {p : Ptr} {l r : Nodes K V} (hc : Chain h p (l ++ r)) :
    ∃ n, h.brk + 1 = l.length + (n + 1) := by
  have := hc.length_lt
  rw [List.length_append] at this
  exact ⟨h.brk - l.length, by omega⟩

/-- A chain splits at a node, whose address is in neither part. -/
theorem Chain.split {h : Heap (MapNode K V)} {p : Ptr} {l r : Nodes K V} {x : Nat × MapNode K V}
    (hc : Chain h p (l ++ x :: r)) :
    Seg MapNode.next h p l (some x.1) ∧ h.cell x.1 = some x.2 ∧ Seg MapNode.next h x.2.next r none ∧
      (∀ y ∈ l, y.1 ≠ x.1) ∧ (∀ y ∈ r, y.1 ≠ x.1) := by
  obtain ⟨m, h1, h2, h3, h4⟩ := seg_append.mp hc.seg
  subst h2
  have hn := hc.nodup
  simp only [List.map_append, List.map_cons, List.nodup_append, List.nodup_cons, List.mem_map, List.mem_cons] at hn
  refine ⟨h1, h3, h4, fun y hy e => ?_, fun y hy e => ?_⟩
  · exact hn.2.2 y.1 ⟨y, hy, rfl⟩ x.1 (.inl rfl) e
  · exact hn.2.1.1 ⟨y, hy, e⟩

theorem add_hit {h : Heap (MapNode K V)} {p : Ptr} {l r : Nodes K V} {x : Nat × MapNode K V} {key : K}
    (value : Option V) (hc : Chain h p (l ++ x :: r)) (ha : key ∉ keysOf l) (hx : x.2.current.key = key) :
    ∃ h', addToMapchain h p key value = some (h', some x.1) ∧ Chain h' p (l ++ (x.1, ⟨⟨key, value⟩, x.2.next⟩) :: r) := by
  obtain ⟨hs1, hcell, hs2, hne1, hne2⟩ := hc.split
  obtain ⟨n, hn⟩ := hc.rounds
  have hlive := Heap.lt_brk hcell
  refine ⟨h.put x.1 (some ⟨⟨key, value⟩, x.2.next⟩), ?_, ?_⟩
  · obtain ⟨a, rfl⟩ : ∃ a, p = some a := by
      cases l with
      | nil => exact ⟨x.1, hs1⟩
      | cons y ys => exact ⟨y.1, hs1.1⟩
    rw [addToMapchain, hn, addLoop_skip hs1 ha, addLoop]
    simp [hcell, hx, Heap.modify_live _ hcell]
  · exact ⟨hc.seg.relink (fun y hy => Heap.put_ne _ _ (hne1 y hy)) (Heap.put_same hlive _)
      (hs2.frame fun y hy => Heap.put_ne _ _ (hne2 y hy)), by simpa using hc.nodup⟩

theorem add_miss {h : Heap (MapNode K V)} {p : Ptr} {xs : Nodes K V} {key : K} (value : Option V) (hc : Chain h p xs)
    (hk : key ∉ keysOf xs) :
    ∃ h' q ys, addToMapchain h p key value = some (h', q) ∧ Chain h' (if p = none then q else p) ys ∧
      entries ys = entries xs ++ [⟨key, value⟩] := by
  cases xs using List.reverseRecOn with
  | nil =>
    cases hc.seg
    exact ⟨h.alloc ⟨⟨key, value⟩, none⟩, some h.brk, [(h.brk, ⟨⟨key, value⟩, none⟩)], rfl,
      ⟨⟨rfl, Heap.alloc_same _ _, rfl⟩, by simp⟩, rfl⟩
  | append_singleton l x =>
    obtain ⟨hs1, hcell, hs2, hne1, -⟩ := hc.split
    obtain ⟨n, hn⟩ := hc.rounds
    obtain ⟨a, rfl⟩ : ∃ a, p = some a := by
      cases l with
      | nil => exact ⟨x.1, hs1⟩
      | cons y ys => exact ⟨y.1, hs1.1⟩
    have hlast : x.2.next = none := hs2
    have hlive := Heap.lt_brk hcell
    have hold : ∀ y ∈ l ++ [x], y.1 ≠ h.brk := fun y hy => Nat.ne_of_lt (Heap.lt_brk (hc.seg.live y hy))
    rw [keysOf_append, List.mem_append, not_or] at hk
    have hxk : x.2.current.key ≠ key := fun e => hk.2 (by simp [keysOf, e])
    refine ⟨(h.alloc ⟨⟨key, value⟩, none⟩).put x.1 (some { x.2 with next := some h.brk }), some x.1,
      l ++ (x.1, { x.2 with next := some h.brk }) :: [(h.brk, ⟨⟨key, value⟩, none⟩)], ?_, ?_, ?_⟩
    · rw [addToMapchain, hn, addLoop_skip hs1 hk.1, addLoop]
      simp [hcell, hxk, hlast, Heap.modify_live _ (Heap.alloc_live _ hcell)]
    · rw [if_neg (by simp)]
      refine ⟨hc.seg.relink (fun y hy => ?_) (Heap.put_same (by simp; omega) _) ⟨rfl, ?_, rfl⟩, ?_⟩
      · rw [Heap.put_ne _ _ (hne1 y hy), Heap.alloc_ne _ _ (hold y (by simp [hy]))]
      · rw [Heap.put_ne _ _ (Nat.ne_of_gt hlive), Heap.alloc_same]
      · have hnew : ((l ++ [x]).map (·.1) ++ [h.brk]).Nodup := by
          refine List.nodup_append.mpr ⟨hc.nodup, by simp, fun a ha b hb => ?_⟩
          obtain ⟨y, hy, rfl⟩ := List.mem_map.mp ha
          rw [List.mem_singleton.mp hb]
          exact hold y hy
        simpa using hnew
    · simp [entries]

theorem remove_first {h : Heap (MapNode K V)} {p : Ptr} {r : Nodes K V} {x : Nat × MapNode K V} {key : K}
    (hc : Chain h p (x :: r)) (hx : x.2.current.key = key) :
    ∃ h', removeFromMapchain h p key = some (h', x.2.next) ∧ Chain h' x.2.next r := by
  obtain ⟨hs1, hcell, hs2, -, hne2⟩ := Chain.split (l := []) hc
  cases hs1
  have hn := hc.nodup
  rw [List.map_cons, List.nodup_cons] at hn
  refine ⟨h.put x.1 none, ?_, hs2.frame fun y hy => Heap.put_ne _ _ (hne2 y hy), hn.2⟩
  rw [removeFromMapchain, removeLoop]
  simp [hcell, hx, Heap.free_live hcell]

/-- A removal behind the head gives back the node before the key. -/
theorem remove_behind {h : Heap (MapNode K V)} {p : Ptr} {l r : Nodes K V} {x y : Nat × MapNode K V} {key : K}
    (hc : Chain h p (l ++ y :: x :: r)) (ha : key ∉ keysOf (l ++ [y])) (hx : x.2.current.key = key) :
    ∃ h', removeFromMapchain h p key = some (h', some y.1) ∧
      Chain h' (some y.1) ((y.1, { y.2 with next := x.2.next }) :: r) := by
  have hc' : Chain h p ((l ++ [y]) ++ x :: r) := by simpa using hc
  obtain ⟨hs1, hxcell, hs2, hne1, hne2⟩ := hc'.split
  obtain ⟨-, hycell, -, -, hney⟩ := hc.split
  obtain ⟨n, hn⟩ := hc'.rounds
  have hxy : x.1 ≠ y.1 := hney x (by simp)
  have hylive := Heap.lt_brk hycell
  refine ⟨(h.put y.1 (some { y.2 with next := x.2.next })).put x.1 none, ?_, ⟨rfl, ?_, ?_⟩, ?_⟩
  · rw [removeFromMapchain, hn, removeLoop_skip hs1 ha, removeLoop, lastOf_concat]
    have hxlive : (h.put y.1 (some { y.2 with next := x.2.next })).cell x.1 = some x.2 := by
      rw [Heap.put_ne _ _ hxy, hxcell]
    simp [hxcell, hx, hxy, Heap.modify_live _ hycell, Heap.free_live hxlive]
  · rw [Heap.put_ne _ _ (Ne.symm hxy), Heap.put_same hylive]
  · refine hs2.frame fun z hz => ?_
    rw [Heap.put_ne _ _ (hne2 z hz), Heap.put_ne _ _ (hney z (by simp [hz]))]
  · have hn := hc.nodup
    simp only [List.map_append, List.map_cons, List.nodup_append, List.nodup_cons, List.mem_cons, not_or] at hn ⊢
    exact ⟨hn.2.1.1.2, hn.2.1.2.2⟩

theorem remove_absent {h : Heap (MapNode K V)} {p : Ptr} {xs : Nodes K V} {key : K} (hc : Chain h p xs)
    (hk : key ∉ keysOf xs) : removeFromMapchain h p key = some (h, lastOf p xs) := by
  obtain ⟨n, hn⟩ := Chain.rounds (r := []) (by simpa using hc)
  rw [removeFromMapchain, hn, removeLoop_skip hc.seg hk, removeLoop]

/-! ## What a state stands for -/

/-- The chain of a state holds each key once, with the map's data. -/
structure Rep (m : WindowMap K V) (s : St K V) (xs : Nodes K V) : Prop where
  chain : Chain s.heap s.windowNodes xs
  keys : (keysOf xs).Nodup
  lookup : ∀ key, m.lookup key = (entries xs).dlookup key

theorem Rep.mem {m : WindowMap K V} {s : St K V} {xs : Nodes K V} (hr : Rep m s xs) (key : K) :
    key ∈ m ↔ key ∈ keysOf xs := by
  rw [← Finmap.lookup_isSome, hr.lookup, List.dlookup_isSome, keys_entries]

theorem Rep.card {m : WindowMap K V} {s : St K V} {xs : Nodes K V} (hr : Rep m s xs) : m.keys.card = xs.length := by
  have : m.keys = (keysOf xs).toFinset := by
    ext key
    rw [Finmap.mem_keys, hr.mem, List.mem_toFinset]
  rw [this, List.toFinset_card_of_nodup hr.keys]; simp [keysOf]

theorem Rep.agrees {m : WindowMap K V} {s : St K V} {xs : Nodes K V} (hr : Rep m s xs) : Agrees m s := by
  refine ⟨fun key => ?_, fun key => ?_, ?_⟩
  · rw [getMapchainValue, getLoop_spec key hr.chain.seg hr.chain.length_lt, hr.lookup]
  · rw [existInMapchian, existLoop_spec key hr.chain.seg hr.chain.length_lt]
    simp [hr.mem]
  · rw [count_of_chain hr.chain, hr.card]

theorem not_agrees_of_count {m : WindowMap K V} {s : St K V} {l : Nodes K V} (hc : Chain s.heap s.windowNodes l)
    (hn : m.keys.card ≠ l.length) : ¬ Agrees m s := fun ha => by
  have h := ha.2.2
  rw [count_of_chain hc] at h
  exact hn (Option.some.inj h).symm

theorem Rep.safe_remove {m : WindowMap K V} {s : St K V} {xs : Nodes K V} (hr : Rep m s xs) {key : K} :
    SafeOp s (.remove key : Op K V) ↔ (keysOf xs).idxOf key < 2 := by
  rw [SafeOp, chainKeys_spec hr.chain.seg hr.chain.length_lt]

/-! ## One step -/

theorem Rep.insert {m : WindowMap K V} {s s' : St K V} {xs ys : Nodes K V} {key : K} {value : Option V}
    (hr : Rep m s xs) (hc : Chain s'.heap s'.windowNodes ys) (hk : (keysOf ys).Nodup)
    (hl : ∀ k, (entries ys).dlookup k = if k = key then some value else (entries xs).dlookup k) :
    Rep (m.insert key value) s' ys := by
  refine ⟨hc, hk, fun k => ?_⟩
  rw [hl]
  split
  · next e => subst e; exact Finmap.lookup_insert _
  · next e => rw [Finmap.lookup_insert_of_ne _ e]; exact hr.lookup k

theorem step_add {m : WindowMap K V} {s : St K V} {xs : Nodes K V} (hr : Rep m s xs) (key : K) (value : Option V) :
    ∃ s' ys, step s (.add key value) = some s' ∧ Rep (m.insert key value) s' ys := by
  by_cases hk : key ∈ keysOf xs
  · obtain ⟨as, x, bs, rfl, ha, hx⟩ := split_at_key hk
    obtain ⟨h', hadd, hc⟩ := add_hit value hr.chain ha hx
    have hne : s.windowNodes ≠ none := fun e => by
      have h1 := hr.chain.split.1
      rw [e] at h1
      cases as with
      | nil => cases h1
      | cons y ys => cases h1.1
    have hkeys := hr.keys
    refine ⟨⟨h', s.windowNodes⟩, _, by simp [step, hadd, hne], hr.insert hc ?_ fun k => ?_⟩
    · simpa [keysOf, hx] using hkeys
    · simp only [entries_append, List.dlookup_append, dlookup_entries_cons, hx]
      by_cases e : k = key
      · subst e
        have : (entries as).dlookup k = none := List.dlookup_eq_none.mpr (by simpa using ha)
        simp [this]
      · simp [e, Ne.symm e]
  · obtain ⟨h', q, ys, hadd, hc, he⟩ := add_miss value hr.chain hk
    have hkeys : keysOf ys = keysOf xs ++ [key] := by
      rw [← keys_entries, he]; simp [List.keys, keysOf, entries]
    refine ⟨⟨h', if s.windowNodes = none then q else s.windowNodes⟩, ys, by simp [step, hadd], hr.insert hc ?_ fun k => ?_⟩
    · rw [hkeys]
      refine List.nodup_append.mpr ⟨hr.keys, by simp, fun a ha b hb e => hk ?_⟩
      rw [← List.mem_singleton.mp hb, ← e]; exact ha
    · rw [he, List.dlookup_append]
      by_cases e : k = key
      · subst e
        have : (entries xs).dlookup k = none := List.dlookup_eq_none.mpr (by simpa using hk)
        simp [this]
      · rw [List.dlookup_cons_ne _ _ e]; simp [e]

theorem step_update {s : St K V} (key : K) (value : Option V) (hs : s.windowNodes ≠ none) :
    step s (.update key value) = step s (.add key value) := by
  simp [step, updateToMapchain, hs]

theorem Rep.erase {m : WindowMap K V} {s s' : St K V} {xs ys : Nodes K V} {key : K}
    (hr : Rep m s xs) (hc : Chain s'.heap s'.windowNodes ys) (hk : keysOf ys = (keysOf xs).erase key)
    (hl : ∀ k, k ≠ key → (entries ys).dlookup k = (entries xs).dlookup k) : Rep (m.erase key) s' ys := by
  refine ⟨hc, hk ▸ hr.keys.erase key, fun k => ?_⟩
  by_cases e : k = key
  · subst e
    rw [Finmap.lookup_erase, eq_comm, List.dlookup_eq_none, keys_entries, hk]
    exact hr.keys.not_mem_erase
  · rw [Finmap.lookup_erase_ne e, hl k e, hr.lookup]

theorem step_remove {m : WindowMap K V} {s : St K V} {xs : Nodes K V} (hr : Rep m s xs) {key : K}
    (hok : (keysOf xs).idxOf key < 2) :
    ∃ s' ys, step s (.remove key) = some s' ∧ Rep (m.erase key) s' ys := by
  by_cases hk : key ∈ keysOf xs
  · obtain ⟨as, x, bs, rfl, ha, hx⟩ := split_at_key hk
    rcases as with _ | ⟨y, as⟩
    · obtain ⟨h', hrem, hc⟩ := remove_first hr.chain hx
      refine ⟨⟨h', x.2.next⟩, bs, by simp [step, hrem], hr.erase hc ?_ fun k e => ?_⟩
      · simp [keysOf, hx]
      · rw [List.nil_append, dlookup_entries_cons, hx, if_neg (Ne.symm e)]
    · rw [not_mem_keysOf_cons] at ha
      obtain rfl : as = [] := by
        cases as with
        | nil => rfl
        | cons z zs =>
          rw [keysOf_append, List.idxOf_append_of_notMem (not_mem_keysOf_cons.mpr ha)] at hok
          simp only [keysOf, List.length_map, List.length_cons] at hok
          omega
      obtain ⟨h', hrem, hc⟩ := remove_behind (l := []) hr.chain (by simp [keysOf, Ne.symm ha.1]) hx
      refine ⟨⟨h', some y.1⟩, _, by simp [step, hrem], hr.erase hc ?_ fun k e => ?_⟩
      · simp [keysOf, hx, ha.1]
      · simp only [List.cons_append, List.nil_append, dlookup_entries_cons, hx, if_neg (Ne.symm e)]
  · have hlen : xs.length < 2 := by
      rw [List.idxOf_of_notMem hk] at hok; simpa [keysOf] using hok
    have hlast : lastOf s.windowNodes xs = s.windowNodes := by
      rcases xs with _ | ⟨x, _ | _⟩
      · rfl
      · exact hr.chain.seg.1.symm
      · simp only [List.length_cons] at hlen; omega
    refine ⟨s, xs, by simp [step, remove_absent hr.chain hk, hlast], hr.erase hr.chain ?_ fun k _ => rfl⟩
    rw [List.erase_of_not_mem hk]

/-- A step that is not safe leaves another number of windows in the chain than in the map. -/
theorem step_unsafe {m : WindowMap K V} {s s' : St K V} {xs : Nodes K V} (hr : Rep m s xs) {op : Op K V}
    (hno : ¬ SafeOp s op) (hs : step s op = some s') : ¬ Agrees (specStep m op) s' := by
  cases op with
  | add key value => exact absurd trivial hno
  | update key value =>
    have h0 : s.windowNodes = none := not_not.mp hno
    obtain rfl : xs = [] := by
      have := hr.chain.seg
      rw [h0] at this
      cases xs with
      | nil => rfl
      | cons x xs => cases this.1
    simp only [step, updateToMapchain, addToMapchain, h0, Option.bind_eq_bind, Option.bind_some, Option.some.injEq] at hs
    subst hs
    refine not_agrees_of_count (l := []) ⟨rfl, by simp⟩ ?_
    have : key ∈ (m.insert key value).keys := Finmap.mem_keys.mpr (Finmap.mem_insert.mpr (.inl rfl))
    exact (Finset.card_pos.mpr ⟨key, this⟩).ne'
  | remove key =>
    rw [hr.safe_remove] at hno
    have hcard : (m.erase key).keys.card = ((keysOf xs).erase key).length := by
      have : (m.erase key).keys = ((keysOf xs).erase key).toFinset := by
        ext k
        rw [Finmap.mem_keys, Finmap.mem_erase, hr.mem, List.mem_toFinset, hr.keys.mem_erase_iff]
      rw [this, List.toFinset_card_of_nodup (hr.keys.erase key)]
    by_cases hk : key ∈ keysOf xs
    · obtain ⟨as, x, bs, rfl, ha, hx⟩ := split_at_key hk
      have hidx : (keysOf (as ++ x :: bs)).idxOf key = as.length := by
        rw [keysOf_append, List.idxOf_append_of_notMem ha]; simp [keysOf, hx]
      rw [hidx] at hno
      obtain ⟨as, y, rfl⟩ : ∃ as' y, as = as' ++ [y] := by
        cases as using List.reverseRecOn with
        | nil => simp at hno
        | append_singleton as y => exact ⟨as, y, rfl⟩
      obtain ⟨h', hrem, hc⟩ := remove_behind (l := as) (by simpa using hr.chain) ha hx
      simp only [step, hrem, Option.bind_eq_bind, Option.bind_some, Option.some.injEq] at hs
      subst hs
      refine not_agrees_of_count hc ?_
      rw [specStep, hcard, List.length_erase_of_mem hk]
      simp only [keysOf, List.map_append, List.map_cons, List.length_append, List.length_map, List.length_cons] at hno ⊢
      omega
    · rw [List.idxOf_of_notMem hk] at hno
      cases xs using List.reverseRecOn with
      | nil => simp [keysOf] at hno
      | append_singleton as x =>
        obtain ⟨-, hcell, hs2, -, -⟩ := hr.chain.split
        simp only [step, remove_absent hr.chain hk, lastOf_concat, Option.bind_eq_bind, Option.bind_some,
          Option.some.injEq] at hs
        subst hs
        refine not_agrees_of_count (l := [x]) ⟨⟨rfl, hcell, hs2⟩, by simp⟩ ?_
        rw [specStep, hcard, List.erase_of_not_mem hk]
        simp only [keysOf, List.length_map, List.length_append, List.length_cons, List.length_nil] at hno ⊢
        omega

/-! ## Runs -/

/-- Every state of a run from no windows reads like the finite map exactly when every
    update finds a window and every removal stops before the third place. -/
theorem mapchain_refines_iff (ops : List (Op K V)) :
    Always step (fun pre s => Agrees (spec pre) s) init ops ↔ Along step SafeOp init ops := by
  refine always_iff_along (I := fun pre s => ∃ xs, Rep (spec pre) s xs) ?_ ?_ ?_ ?_ ops
  · exact ⟨[], ⟨rfl, by simp⟩, by simp [keysOf], fun k => rfl⟩
  · rintro pre s ⟨xs, hr⟩
    exact hr.agrees
  · rintro pre s op ⟨xs, hr⟩ hok
    rw [spec, List.foldl_append]
    cases op with
    | add key value =>
      obtain ⟨s', ys, hs, hr'⟩ := step_add hr key value
      exact ⟨s', hs, ys, hr'⟩
    | update key value =>
      obtain ⟨s', ys, hs, hr'⟩ := step_add hr key value
      exact ⟨s', (step_update key value hok).trans hs, ys, hr'⟩
    | remove key =>
      obtain ⟨s', ys, hs, hr'⟩ := step_remove hr (hr.safe_remove.mp hok)
      exact ⟨s', hs, ys, hr'⟩
  · rintro pre s op s' ⟨xs, hr⟩ hno hs
    rw [spec, List.foldl_append]
    exact step_unsafe hr hno hs

/-- Two windows, and a third handle removed that was never added: the chain forgets the first window. -/
theorem absent_removal_forgets_a_window :
    ¬ ∀ ops : List (Op Nat Nat), Always step (fun pre s => Agrees (spec pre) s) init ops := by
  intro h
  obtain ⟨s, hs, ha⟩ := h [.add 1 (some 10), .add 2 (some 20), .remove 3] _ (List.prefix_refl _)
  have hget := ha.1 1
  have : (run step (init : St Nat Nat) [.add 1 (some 10), .add 2 (some 20), .remove 3]).bind
      (fun s => getMapchainValue s.heap s.windowNodes 1) = some none := by decide
  rw [hs, Option.bind_some, hget] at this
  revert this
  decide

end Putty.Windows.MapChain
