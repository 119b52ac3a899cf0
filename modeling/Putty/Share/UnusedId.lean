/-
  Putty.Share.UnusedId — share_find_unused_id (`sshshare.c`).

  The connstates are a tree sorted by id. The function looks up the first id from `first`
  on, takes it for `first` itself, and by bisection over the indices finds how far the ids
  go on from there without a gap; the answer is one more than the last of them, which must
  not be in the tree. Only the id of a connstate is read here.

  When the lookup gives an id above `first`, no index is in the sequence, and the answer
  is `first + 1` whether or not that is in use. When every id from `first` on is in use,
  the answer wraps to 0, which must not be in use either.

  Proved: the answer is the lowest unused id exactly when neither happens
  (`shareFindUnusedId_iff`).
-/

import Putty.Lib.Sorted
import Putty.Tree.Find

namespace Putty.Share.UnusedId

open Putty.Lib Putty.Tree

structure Connstate where
  id : UInt32
  deriving DecidableEq, Repr

def shareConnstateCmp (a b : Connstate) : Int := if a.id < b.id then -1 else if a.id > b.id then 1 else 0

/-- The loop: `low` stays in the sequence, `high` past its end. -/
def bisect (connections : Tree234 Connstate) (first : UInt32) (lowOrig low high : Int) : Option Int :=
  if _h : high - low > 1 then do
    let cs ← (← connections.index234 ((high + low) / 2))
    if cs.id = first + UInt32.ofInt ((high + low) / 2 - lowOrig) then bisect connections first lowOrig ((high + low) / 2) high
    else bisect connections first lowOrig low ((high + low) / 2)
  else some low
termination_by (high - low).toNat
decreasing_by all_goals omega

/-- `none` when an assertion fails. -/
def shareFindUnusedId (connections : Tree234 Connstate) (first : UInt32) : Option UInt32 := do
  match ← connections.findrelpos234 (some ⟨first⟩) none .ge with
  | none => some first
  | some (_, lowOrig) =>
    let high ← connections.count234
    let low ← bisect connections first lowOrig lowOrig high
    let ret := first + UInt32.ofInt (low - lowOrig) + 1
    match ← connections.findrelpos234 (some ⟨ret⟩) none .eq with
    | none => some ret
    | some _ => none

/-! ## Lookups -/

/-- The live connstates, in the tree's order. -/
structure Live (t : Tree234 Connstate) (l : List Connstate) : Prop where
  rep : Rep t l
  cmp : t.cmp = some shareConnstateCmp
  sorted : l.Pairwise fun x y => x.id.toNat < y.id.toNat

variable {t : Tree234 Connstate} {l : List Connstate}

theorem cmp_pos (n : UInt32) (x : Connstate) : 0 < shareConnstateCmp ⟨n⟩ x ↔ x.id.toNat < n.toNat := by
  unfold shareConnstateCmp
  simp only [UInt32.lt_iff_toNat_lt, gt_iff_lt]
  split
  · omega
  · split <;> omega

theorem cmp_neg (n : UInt32) (x : Connstate) : shareConnstateCmp ⟨n⟩ x < 0 ↔ n.toNat < x.id.toNat := by
  unfold shareConnstateCmp
  simp only [UInt32.lt_iff_toNat_lt, gt_iff_lt]
  split
  · omega
  · split <;> omega

theorem cmp_zero (n : UInt32) (x : Connstate) : shareConnstateCmp ⟨n⟩ x = 0 ↔ x.id = n := by
  have hpos := cmp_pos n x
  have hneg := cmp_neg n x
  rw [← UInt32.toNat_inj]
  omega

theorem Live.splits (h : Live t l) (n : UInt32) : Splits (shareConnstateCmp ⟨n⟩) l := by
  apply h.sorted.imp
  intro x y hxy hx
  have hpos := cmp_pos n x
  rw [cmp_neg]
  omega

/-- A lookup that permits an equal id ends at it, or between the smaller ids and the greater. -/
theorem Live.lookup (h : Live t l) (n : UInt32) (relation : Relation) (hr : relation.equalPermitted = true) :
    ∃ r, Outcome (shareConnstateCmp ⟨n⟩) l r ∧
      t.findrelpos234 (some ⟨n⟩) none relation = some (r.elim some (beside relation l)) := by
  have hpassing : passing relation (shareConnstateCmp ⟨n⟩) = shareConnstateCmp ⟨n⟩ := by
    funext x
    unfold passing
    by_cases h0 : shareConnstateCmp ⟨n⟩ x = 0
    · rw [if_pos h0, if_pos hr, h0]
    · rw [if_neg h0]
  have hcompare : ∀ x, relation.compare (none <|> t.cmp) (some ⟨n⟩) x = some (shareConnstateCmp ⟨n⟩ x) := by
    intro x
    rw [h.cmp]
    rfl
  have hspec := findrelpos234_spec h.rep hcompare (by rw [hpassing]; exact h.splits n) (fun _ => rfl)
  rwa [hpassing] at hspec

/-- REL234_GE: the smaller ids and the others, of which the first is found. -/
theorem Live.find_ge (h : Live t l) (first : UInt32) : ∃ A B, l = A ++ B ∧ (∀ x ∈ A, x.id.toNat < first.toNat) ∧
    (∀ x ∈ B, first.toNat ≤ x.id.toNat) ∧
    t.findrelpos234 (some ⟨first⟩) none .ge = some (B.head?.map fun x => (x, (A.length : Int))) := by
  obtain ⟨r, hout, hfind⟩ := h.lookup first .ge rfl
  rw [hfind]
  cases r with
  | inl found =>
    obtain ⟨x, index⟩ := found
    obtain ⟨A, B, hl, rfl, hx⟩ := hout
    have hid := (cmp_zero first x).mp hx
    have hsorted := h.sorted
    rw [hl] at hsorted
    obtain ⟨-, hB, hAB⟩ := List.pairwise_append.mp hsorted
    refine ⟨A, x :: B, hl, ?_, ?_, rfl⟩
    · intro y hy
      have := hAB y hy x List.mem_cons_self
      rwa [hid] at this
    · intro y hy
      rcases List.mem_cons.mp hy with rfl | hy
      · rw [hid]
      · have := (List.pairwise_cons.mp hB).1 y hy
        rw [hid] at this
        omega
  | inr index =>
    obtain ⟨A, B, rfl, rfl, hA, hB⟩ := hout
    refine ⟨A, B, rfl, fun x hx => (cmp_pos first x).mp (hA x hx), fun x hx => Nat.le_of_lt ((cmp_neg first x).mp (hB x hx)), ?_⟩
    have hhead : (A ++ B)[A.length]? = B.head? := by
      rw [List.getElem?_append_right (Nat.le_refl _), Nat.sub_self, List.head?_eq_getElem?]
    show some (beside .ge (A ++ B) A.length) = _
    unfold beside
    rw [if_neg (by decide), if_neg (by decide)]
    dsimp only
    rw [if_neg (by omega), Int.toNat_natCast, hhead]

/-- REL234_EQ: nothing is found when no connstate has the id. -/
theorem Live.find_eq (h : Live t l) (n : UInt32) :
    ∃ o, t.findrelpos234 (some ⟨n⟩) none .eq = some o ∧ (o = none ↔ ∀ x ∈ l, x.id ≠ n) := by
  obtain ⟨r, hout, hfind⟩ := h.lookup n .eq rfl
  refine ⟨_, hfind, ?_⟩
  cases r with
  | inl found =>
    obtain ⟨x, index⟩ := found
    obtain ⟨A, B, rfl, -, hx⟩ := hout
    constructor
    · intro hno
      cases hno
    · intro hno
      exact absurd ((cmp_zero n x).mp hx) (hno x (by simp))
  | inr index =>
    obtain ⟨A, B, rfl, -, hA, hB⟩ := hout
    constructor
    · intro _ x hx he
      have h0 := (cmp_zero n x).mpr he
      rcases List.mem_append.mp hx with hx | hx
      · have := hA x hx
        omega
      · have := hB x hx
        omega
    · intro _
      rfl

/-! ## The sequence from `first` on -/

/-- The id at this place is as small as it can be, if the ids `B` are distinct and from `first` on. -/
def InSequence (first : UInt32) (B : List Connstate) (i : Nat) : Prop := ∃ x, B[i]? = some x ∧ x.id.toNat = first.toNat + i

section Sequence

variable {first : UInt32} {B : List Connstate} (hsorted : B.Pairwise fun x y => x.id.toNat < y.id.toNat)
  (hB : ∀ x ∈ B, first.toNat ≤ x.id.toNat)

include hsorted hB in
theorem id_ge {i : Nat} (hi : i < B.length) : first.toNat + i ≤ B[i].id.toNat := by
  have hspread := ascending_spread hsorted (Nat.zero_le i) hi
  have hfirst := hB B[0] (List.getElem_mem _)
  omega

include hsorted hB in
theorem InSequence.down {i j : Nat} (hij : i ≤ j) (h : InSequence first B j) : InSequence first B i := by
  obtain ⟨x, hx, he⟩ := h
  obtain ⟨hj, rfl⟩ := List.getElem?_eq_some_iff.mp hx
  have hi : i < B.length := by omega
  have hspread := ascending_spread hsorted hij hj
  have hge := id_ge hsorted hB hi
  exact ⟨B[i], List.getElem?_eq_getElem hi, by omega⟩

include hsorted hB in
/-- The test of the loop. -/
theorem inSequence_iff {i : Nat} (hi : i < B.length) : B[i].id = first + UInt32.ofInt i ↔ InSequence first B i := by
  have hge := id_ge hsorted hB hi
  have hlt := B[i].id.toNat_lt
  have hofInt : (UInt32.ofInt i).toNat = i := by
    unfold UInt32.ofInt
    rw [UInt32.toNat_ofNat']
    omega
  rw [← UInt32.toNat_inj, UInt32.toNat_add, hofInt, Nat.mod_eq_of_lt (by omega)]
  constructor
  · intro he
    exact ⟨B[i], List.getElem?_eq_getElem hi, he⟩
  · intro h
    obtain ⟨x, hx, he⟩ := h
    rw [List.getElem?_eq_getElem hi] at hx
    cases hx
    exact he

end Sequence

/-- The loop finds the last index of the sequence; if there is none it stays where it began. -/
theorem bisect_spec {first : UInt32} {A B : List Connstate} (h : Live t (A ++ B)) (hB : ∀ x ∈ B, first.toNat ≤ x.id.toNat)
    (n : Nat) : ∀ {i j : Nat}, j - i ≤ n → i < j → j ≤ B.length → (i = 0 ∨ InSequence first B i) →
      (∀ k, j ≤ k → ¬ InSequence first B k) →
      ∃ r, bisect t first A.length (A.length + i) (A.length + j) = some ((A.length + r : Nat) : Int) ∧ r < B.length ∧
        (r = 0 ∨ InSequence first B r) ∧ ∀ k, r < k → ¬ InSequence first B k := by
  have hsorted := (List.pairwise_append.mp h.sorted).2.1
  induction n with
  | zero =>
    intro i j hn hij
    omega
  | succ n ih =>
    intro i j hn hij hj hi hend
    unfold bisect
    by_cases hgo : (A.length + j : Int) - (A.length + i) > 1
    · obtain ⟨m, hm⟩ : ∃ m, m = (i + j) / 2 := ⟨_, rfl⟩
      have hmid : ((A.length + j : Int) + (A.length + i)) / 2 = A.length + m := by omega
      have hmB : m < B.length := by omega
      have hget : t.index234 (A.length + m) = some (some B[m]) := by
        rw [index234_spec h.rep, if_neg (by omega), show ((A.length : Int) + m).toNat = A.length + m by omega,
          List.getElem?_append_right (by omega), Nat.add_sub_cancel_left, List.getElem?_eq_getElem hmB]
      rw [dif_pos hgo, hmid, hget]
      simp only [Option.bind_eq_bind, Option.bind_some]
      rw [show (A.length + m : Int) - A.length = m by omega]
      by_cases hin : InSequence first B m
      · rw [if_pos ((inSequence_iff hsorted hB hmB).mpr hin)]
        exact ih (by omega) (by omega) hj (.inr hin) hend
      · rw [if_neg (mt (inSequence_iff hsorted hB hmB).mp hin)]
        apply ih (by omega) (by omega) (by omega) hi
        intro k hk hk'
        exact hin (hk'.down hsorted hB hk)
    · rw [dif_neg hgo]
      refine ⟨i, rfl, by omega, hi, ?_⟩
      intro k hk
      exact hend k (by omega)

/-! ## The answer -/

def ids (l : List Connstate) : List UInt32 := l.map Connstate.id

/-- Not in use, and every id from `first` up to it is; 0 if all of them are. -/
def LowestUnused (l : List Connstate) (first ret : UInt32) : Prop :=
  ret ∉ ids l ∧ (first ≤ ret ∧ (∀ n, first ≤ n → n < ret → n ∈ ids l) ∨ ret = 0 ∧ ∀ n, first ≤ n → n ∈ ids l)

/-- Without an id from `first` on the answer is `first`; with one it is the id behind the
    sequence, if that is not in use. -/
theorem shareFindUnusedId_spec (h : Live t l) (first : UInt32) :
    ∃ A B, l = A ++ B ∧ (∀ x ∈ A, x.id.toNat < first.toNat) ∧ (∀ x ∈ B, first.toNat ≤ x.id.toNat) ∧
      (B = [] ∧ shareFindUnusedId t first = some first ∨
        ∃ r, r < B.length ∧ (r = 0 ∨ InSequence first B r) ∧ (∀ k, r < k → ¬ InSequence first B k) ∧
          shareFindUnusedId t first =
            if first + UInt32.ofInt r + 1 ∈ ids l then none else some (first + UInt32.ofInt r + 1)) := by
  obtain ⟨A, B, rfl, hA, hB, hfind⟩ := h.find_ge first
  refine ⟨A, B, rfl, hA, hB, ?_⟩
  cases B with
  | nil =>
    left
    refine ⟨rfl, ?_⟩
    unfold shareFindUnusedId
    rw [hfind]
    rfl
  | cons x B =>
    right
    have hend : ∀ k, (x :: B).length ≤ k → ¬ InSequence first (x :: B) k := by
      intro k hk hin
      obtain ⟨y, hy, -⟩ := hin
      rw [List.getElem?_eq_none hk] at hy
      cases hy
    obtain ⟨r, hloop, hr, hin, hlast⟩ := bisect_spec h hB _ (Nat.le_refl _) (show 0 < (x :: B).length by simp) (Nat.le_refl _)
      (.inl rfl) hend
    refine ⟨r, hr, hin, hlast, ?_⟩
    obtain ⟨o, ho, hnone⟩ := h.find_eq (first + UInt32.ofInt r + 1)
    have hcount : t.count234 = some (A.length + (x :: B).length : Int) := by
      rw [count234_spec h.rep, List.length_append, Nat.cast_add]
    rw [Nat.cast_zero, Int.add_zero] at hloop
    unfold shareFindUnusedId
    simp only [hfind, List.head?_cons, Option.map_some, hcount, hloop, Option.bind_eq_bind, Option.bind_some]
    rw [show ((A.length + r : Nat) : Int) - A.length = r by omega, ho, Option.bind_some]
    have hused : o = none ↔ first + UInt32.ofInt r + 1 ∉ ids (A ++ x :: B) := by
      rw [hnone, ids]
      simp only [List.mem_map, not_exists, not_and]
    cases o with
    | none => rw [if_neg (hused.mp rfl)]
    | some found => rw [if_pos (by_contra fun hno => by cases hused.mpr hno)]

/-- The id behind a sequence of `r + 1`, as a number. -/
theorem behind_toNat (first : UInt32) (r : Nat) : (first + UInt32.ofInt r + 1).toNat = (first.toNat + r + 1) % 2 ^ 32 := by
  have hofInt : (UInt32.ofInt r).toNat = r % 2 ^ 32 := by
    unfold UInt32.ofInt
    rw [UInt32.toNat_ofNat']
    omega
  rw [UInt32.toNat_add, UInt32.toNat_add, hofInt]
  show ((first.toNat + r % 2 ^ 32) % 2 ^ 32 + 1) % 2 ^ 32 = _
  omega

/-- In a list of ids from `first` on that are distinct, the sequence is the ids without a gap before them. -/
theorem mem_ids_append {A B : List Connstate} {first n : UInt32} (hA : ∀ x ∈ A, x.id.toNat < first.toNat) (hn : first ≤ n) :
    n ∈ ids (A ++ B) ↔ ∃ x ∈ B, x.id = n := by
  rw [UInt32.le_iff_toNat_le] at hn
  unfold ids
  rw [List.mem_map]
  constructor
  · intro hm
    obtain ⟨x, hx, rfl⟩ := hm
    rcases List.mem_append.mp hx with hx | hx
    · have := hA x hx
      omega
    · exact ⟨x, hx, rfl⟩
  · intro hm
    obtain ⟨x, hx, he⟩ := hm
    exact ⟨x, List.mem_append_right A hx, he⟩

/-- The answer is the lowest unused id exactly when `first` is in use or no id above it is, and 0 and
    all ids from `first` on are not all in use. -/
theorem shareFindUnusedId_iff (h : Live t l) (first : UInt32) :
    (∃ ret, shareFindUnusedId t first = some ret ∧ LowestUnused l first ret) ↔
      (first ∈ ids l ∨ ∀ x ∈ l, x.id < first) ∧ ¬ (0 ∈ ids l ∧ ∀ n, first ≤ n → n ∈ ids l) := by
  obtain ⟨A, B, rfl, hA, hB, ⟨rfl, hret⟩ | ⟨r, hr, hin, hlast, hret⟩⟩ := shareFindUnusedId_spec h first
  · -- every id is smaller
    have hsmall : ∀ x ∈ A ++ [], x.id < first := by
      intro x hx
      rw [List.append_nil] at hx
      exact UInt32.lt_iff_toNat_lt.mpr (hA x hx)
    have hfree : first ∉ ids (A ++ []) := by
      intro hm
      obtain ⟨x, hx, he⟩ := List.mem_map.mp hm
      have hlt := hsmall x hx
      rw [he] at hlt
      exact UInt32.lt_irrefl _ hlt
    constructor
    · intro _
      exact ⟨.inr hsmall, fun hall => hfree (hall.2 first (UInt32.le_refl _))⟩
    · intro _
      refine ⟨first, hret, hfree, .inl ⟨UInt32.le_refl _, ?_⟩⟩
      intro n h1 h2
      exact absurd (UInt32.lt_of_le_of_lt h1 h2) (UInt32.lt_irrefl _)
  have hsorted := (List.pairwise_append.mp h.sorted).2.1
  have hge := fun {i : Nat} (hi : i < B.length) => id_ge hsorted hB hi
  rw [hret]
  by_cases hfirst : first ∈ ids (A ++ B)
  · -- the sequence begins at `first`
    have hzero : InSequence first B 0 := by
      obtain ⟨x, hx, he⟩ := (mem_ids_append hA (UInt32.le_refl _)).mp hfirst
      obtain ⟨p, hp, rfl⟩ := List.getElem_of_mem hx
      have hle := hge hp
      rw [he] at hle
      have h0 : p = 0 := by omega
      subst h0
      exact ⟨B[0], List.getElem?_eq_getElem hp, by rw [he]; rfl⟩
    have hinr : InSequence first B r := by
      rcases hin with rfl | hin
      · exact hzero
      · exact hin
    have hused : ∀ n : UInt32, first ≤ n → n.toNat < first.toNat + r + 1 → n ∈ ids (A ++ B) := by
      intro n hn hlt
      rw [mem_ids_append hA hn]
      rw [UInt32.le_iff_toNat_le] at hn
      obtain ⟨x, hx, he⟩ := hinr.down hsorted hB (show n.toNat - first.toNat ≤ r by omega)
      exact ⟨x, List.mem_of_getElem? hx, UInt32.toNat_inj.mp (by omega)⟩
    have hbehind := behind_toNat first r
    obtain ⟨y, hy, hyid⟩ := hinr
    have hylt := y.id.toNat_lt
    by_cases hwrap : first.toNat + r + 1 < 2 ^ 32
    · have hn : first ≤ first + UInt32.ofInt r + 1 := UInt32.le_iff_toNat_le.mpr (by omega)
      have hfree : first + UInt32.ofInt r + 1 ∉ ids (A ++ B) := by
        rw [mem_ids_append hA hn]
        intro hm
        obtain ⟨x, hx, he⟩ := hm
        obtain ⟨p, hp, rfl⟩ := List.getElem_of_mem hx
        have hle := hge hp
        have he := congrArg UInt32.toNat he
        have hp' : p ≤ r := by
          by_contra hno
          have hp1 : p = r + 1 := by omega
          exact hlast p (by omega) ⟨B[p], List.getElem?_eq_getElem hp, by omega⟩
        obtain ⟨z, hz, hzid⟩ := InSequence.down hsorted hB hp' ⟨y, hy, hyid⟩
        rw [List.getElem?_eq_getElem hp] at hz
        cases hz
        omega
      rw [if_neg hfree]
      constructor
      · intro _
        exact ⟨.inl hfirst, fun hall => hfree (hall.2 _ hn)⟩
      · intro _
        refine ⟨_, rfl, hfree, .inl ⟨hn, ?_⟩⟩
        intro n h1 h2
        rw [UInt32.lt_iff_toNat_lt] at h2
        exact hused n h1 (by omega)
    · -- every id from `first` on is in use
      have hret0 : first + UInt32.ofInt r + 1 = 0 := UInt32.toNat_inj.mp (by rw [hbehind]; show _ = 0; omega)
      have hall : ∀ n : UInt32, first ≤ n → n ∈ ids (A ++ B) := by
        intro n hn
        have := n.toNat_lt
        exact hused n hn (by omega)
      rw [hret0]
      by_cases h0 : (0 : UInt32) ∈ ids (A ++ B)
      · rw [if_pos h0]
        constructor
        · intro hno
          obtain ⟨ret, hno, -⟩ := hno
          cases hno
        · intro hno
          exact absurd ⟨h0, hall⟩ hno.2
      · rw [if_neg h0]
        constructor
        · intro _
          exact ⟨.inl hfirst, fun hno => h0 hno.1⟩
        · intro _
          exact ⟨0, rfl, h0, .inr ⟨rfl, hall⟩⟩
  · -- `first` is free, and is not the answer
    constructor
    · intro hgood
      exfalso
      obtain ⟨ret, hsome, -, ⟨hle, hall⟩ | ⟨-, hall⟩⟩ := hgood
      · have hr0 : r = 0 := by
          rcases hin with hr0 | hin
          · exact hr0
          · exfalso
            obtain ⟨x, hx, he⟩ := hin.down hsorted hB (Nat.zero_le r)
            exact hfirst ((mem_ids_append hA (UInt32.le_refl _)).mpr ⟨x, List.mem_of_getElem? hx, UInt32.toNat_inj.mp he⟩)
        subst hr0
        have hbehind := behind_toNat first 0
        have hid : ret = first + UInt32.ofInt (0 : Nat) + 1 := by
          split at hsome
          · cases hsome
          · exact (Option.some.inj hsome).symm
        apply hfirst
        apply hall first (UInt32.le_refl _)
        have hlt := first.toNat_lt
        rw [hid, UInt32.le_iff_toNat_le] at hle
        rw [hid, UInt32.lt_iff_toNat_lt]
        omega
      · exact hfirst (hall first (UInt32.le_refl _))
    · intro hok
      exfalso
      rcases hok.1 with hno | hall
      · exact hfirst hno
      · have hlt := UInt32.lt_iff_toNat_lt.mp (hall B[r] (List.mem_append_right A (List.getElem_mem hr)))
        have := hge hr
        omega

def oneLive : Tree234 Connstate := leafTree (some shareConnstateCmp) [⟨4⟩] (by simp) (by simp)

theorem oneLive_live : Live oneLive [⟨4⟩] := ⟨leafTree_rep _ _ _ _, rfl, by simp⟩

theorem shareFindUnusedId_iff_one :
    (∃ ret, shareFindUnusedId oneLive 4 = some ret ∧ LowestUnused [⟨4⟩] 4 ret) ↔
      ((4 : UInt32) ∈ ids [⟨4⟩] ∨ ∀ x ∈ [Connstate.mk 4], x.id < 4) ∧
        ¬ ((0 : UInt32) ∈ ids [⟨4⟩] ∧ ∀ n, (4 : UInt32) ≤ n → n ∈ ids [⟨4⟩]) :=
  shareFindUnusedId_iff oneLive_live 4

/-- With only the id 4 in use and 3 preferred, the assertion fails. -/
theorem free_first_asserts :
    shareFindUnusedId oneLive 3 = none ∧
      ¬ ∀ (t : Tree234 Connstate) (l : List Connstate), Live t l → ∀ first,
        ∃ ret, shareFindUnusedId t first = some ret ∧ LowestUnused l first ret := by
  have hnone : shareFindUnusedId oneLive 3 = none := by
    have hfind : oneLive.findrelpos234 (some ⟨3⟩) none .ge = some (some (⟨4⟩, 0)) := rfl
    have hcount : oneLive.count234 = some 1 := rfl
    have hret : oneLive.findrelpos234 (some ⟨3 + UInt32.ofInt (0 - 0) + 1⟩) none .eq = some (some (⟨4⟩, 0)) := rfl
    have hloop : bisect oneLive 3 0 0 1 = some 0 := by
      unfold bisect
      rfl
    unfold shareFindUnusedId
    simp only [hfind, hcount, hloop, hret, Option.bind_eq_bind, Option.bind_some]
  refine ⟨hnone, ?_⟩
  intro h
  obtain ⟨ret, hret, -⟩ := h oneLive [⟨4⟩] oneLive_live 3
  rw [hnone] at hret
  cases hret

end Putty.Share.UnusedId
