/-
  Putty.Ssh2.ChannelIds — alloc_channel_id_general (`sshcommon.c`).

  The channels of a connection are a tree sorted by local id. The allocator goes down
  the tree by search234_step, to the right of every channel whose id is the offset plus
  its index and to the left of any other. `inSequence` is that direction as a function of
  the channel alone: in a sorted tree with distinct ids the index of a channel is the
  number of smaller ids. Since the channels of the initial sequence come first
  (`inSequence_splits`), the search ends behind the last of them (`allocLoop_spec`).

  Proved: the id handed out is in no channel, and every id from the offset up to it is
  in one (`allocChannelIdGeneral_lowest`).
-/

import Putty.Lib.Sorted
import Putty.Tree.Find

namespace Putty.Ssh2.ChannelIds

open Putty.Lib Putty.Tree

variable {E : Type}

def channelNumberOffset : UInt32 := 256

/-- `ss.index + CHANNEL_NUMBER_OFFSET`: an int added to an unsigned. -/
def idAt (index : Int) : UInt32 := UInt32.ofInt index + channelNumberOffset

/-- The loop; `localid` reads the field at `localid_offset`. -/
def allocLoop (t : Tree234 E) (localid : E → UInt32) : Nat → SearchState E → Option UInt32
  | 0, _ => none
  | fuel + 1, ss =>
    match ss.element with
    | none => some (idAt ss.index)
    | some x => do
      let ss ← t.search234Step ss (if localid x = idAt ss.index then 1 else -1)
      allocLoop t localid fuel ss

def allocChannelIdGeneral (channels : Tree234 E) (localid : E → UInt32) : Option UInt32 := do
  let ss ← channels.search234Start
  allocLoop channels localid (4 * channels.heap.brk + 4) ss

/-! ## The initial sequence -/

/-- The channels in order of their ids, all from the offset on. -/
structure Numbered (localid : E → UInt32) (l : List E) : Prop where
  sorted : l.Pairwise fun x y => localid x < localid y
  above : ∀ x ∈ l, channelNumberOffset ≤ localid x

section Sequence

variable (localid : E → UInt32) (l : List E)

def rank (x : E) : Nat := l.countP fun y => localid y < localid x

/-- Which way the search goes from a channel. -/
def inSequence (x : E) : Int := if localid x = idAt (rank localid l x) then 1 else -1

variable {localid l}

theorem rank_append {A B : List E} {x : E} (h : Numbered localid (A ++ x :: B)) : rank localid (A ++ x :: B) x = A.length := by
  obtain ⟨-, hB, hAB⟩ := List.pairwise_append.mp h.sorted
  have hA : A.countP (fun y => localid y < localid x) = A.length := by
    apply List.countP_eq_length.mpr
    intro y hy
    exact decide_eq_true (hAB y hy x List.mem_cons_self)
  have hB0 : (x :: B).countP (fun y => localid y < localid x) = 0 := by
    apply List.countP_eq_zero.mpr
    intro y hy
    rw [decide_eq_true_eq, UInt32.lt_iff_toNat_lt]
    rcases List.mem_cons.mp hy with rfl | hy
    · exact Nat.lt_irrefl _
    · have := UInt32.lt_iff_toNat_lt.mp ((List.pairwise_cons.mp hB).1 y hy)
      omega
  unfold rank
  rw [List.countP_append, hA, hB0, Nat.add_zero]

theorem rank_getElem (h : Numbered localid l) {i : Nat} (hi : i < l.length) : rank localid l l[i] = i := by
  have hsplit : l.take i ++ l[i] :: l.drop (i + 1) = l := by
    rw [List.getElem_cons_drop, List.take_append_drop]
  have hrank := rank_append (A := l.take i) (x := l[i]) (B := l.drop (i + 1)) (by rw [hsplit]; exact h)
  rw [hsplit, List.length_take] at hrank
  omega

/-- Between two channels there is an id for each index. -/
theorem Numbered.spread (h : Numbered localid l) {i j : Nat} (hij : i ≤ j) (hj : j < l.length) :
    (localid l[i]).toNat + (j - i) ≤ (localid l[j]).toNat :=
  ascending_spread (f := fun x => (localid x).toNat) (h.sorted.imp UInt32.lt_iff_toNat_lt.mp) hij hj

theorem Numbered.at_least (h : Numbered localid l) {i : Nat} (hi : i < l.length) : 256 + i ≤ (localid l[i]).toNat := by
  have hfirst := UInt32.le_iff_toNat_le.mp (h.above l[0] (List.getElem_mem _))
  have hspread := h.spread (Nat.zero_le i) hi
  have hoffset : channelNumberOffset.toNat = 256 := rfl
  omega

theorem idAt_toNat (n : Nat) : (idAt n).toNat = (256 + n) % 2 ^ 32 := by
  have hofInt : (UInt32.ofInt n).toNat = n % 2 ^ 32 := by
    unfold UInt32.ofInt
    rw [UInt32.toNat_ofNat']
    omega
  unfold idAt channelNumberOffset
  rw [UInt32.toNat_add, hofInt]
  show (n % 2 ^ 32 + 256) % 2 ^ 32 = _
  omega

/-- A channel is in the initial sequence when its id is as small as its index allows. -/
theorem inSequence_pos (h : Numbered localid l) {i : Nat} (hi : i < l.length) :
    0 < inSequence localid l l[i] ↔ (localid l[i]).toNat = 256 + i := by
  have hle := h.at_least hi
  have hlt := (localid l[i]).toNat_lt
  have hid : localid l[i] = idAt i ↔ (localid l[i]).toNat = 256 + i := by
    rw [← UInt32.toNat_inj, idAt_toNat, Nat.mod_eq_of_lt (by omega)]
  unfold inSequence
  rw [rank_getElem h hi]
  constructor
  · intro h0
    by_contra hne
    rw [if_neg (mt hid.mp hne)] at h0
    omega
  · intro he
    rw [if_pos (hid.mpr he)]
    decide

theorem inSequence_neg {x : E} : inSequence localid l x < 0 ↔ ¬ 0 < inSequence localid l x := by
  unfold inSequence
  by_cases h : localid x = idAt (rank localid l x)
  · rw [if_pos h]; decide
  · rw [if_neg h]; decide

/-- Behind a channel that is not in the initial sequence there is none that is. -/
theorem inSequence_splits (h : Numbered localid l) : Splits (inSequence localid l) l := by
  apply List.pairwise_iff_getElem.mpr
  intro i j hi hj hij hx
  rw [inSequence_neg, inSequence_pos h hj]
  intro hy
  have hle := h.at_least hi
  have hspread := h.spread (Nat.le_of_lt hij) hj
  have hpos := (inSequence_pos h hi).mpr (by omega)
  omega

end Sequence

/-! ## The search -/

variable {localid : E → UInt32} {t : Tree234 E}

/-- The loop ends between the channels of the initial sequence and the others. -/
theorem allocLoop_spec {l : List E} (hl : Numbered localid l) (fuel : Nat) :
    ∀ {d : Nat} {c : Ctx E d} {k : Sub E d} {ss : SearchState E} {C : Multiset (Nat × Node E)},
      Owns t.heap (k.cells c.par + C) → c.before ++ k.contents ++ c.after = l →
      Searching (inSequence localid l) fuel c k ss → 0 < fuel →
      ∃ A B, l = A ++ B ∧ allocLoop t localid fuel ss = some (idAt A.length) ∧
        (∀ x ∈ A, 0 < inSequence localid l x) ∧ ∀ x ∈ B, inSequence localid l x < 0 := by
  induction fuel with
  | zero =>
    intro d c k ss C _ _ _ h0
    exact absurd h0 (Nat.lt_irrefl 0)
  | succ fuel ih =>
    intro d c k ss C h hwhole hs _
    cases d with
    | zero =>
      obtain ⟨helem, hindex, hbefore, hafter⟩ := hs
      refine ⟨c.before, c.after, by simpa [Sub.contents] using hwhole.symm, ?_, hbefore, hafter⟩
      rw [allocLoop, helem, hindex]
    | succ d =>
      obtain ⟨hat, hroom⟩ := hs
      obtain ⟨f, k', x, k'', rs, hb, -, hrs, hx, hindex⟩ := hat.cur
      have hsplit := inSequence_splits hl
      rw [← hwhole] at hsplit
      -- the index of the channel in the tree is its rank
      have hplace : l = (c.before ++ f.before ++ k'.contents) ++ x :: (k''.contents ++ (rs.flatMap fun x => x.1 :: x.2.contents) ++ c.after) := by
        rw [← hwhole, hb, f.contents_fill]
        unfold Frame.after
        rw [hrs]
        simp
      have hrank : ss.index = rank localid l x := by
        rw [hindex, hplace, rank_append (by rw [← hplace]; exact hl)]
        simp only [List.length_append, Nat.cast_add]
        rfl
      have hne : inSequence localid l x ≠ 0 := by
        unfold inSequence
        split <;> decide
      have hloop : allocLoop t localid (fuel + 1) ss =
          (t.search234Step ss (inSequence localid l x)).bind (allocLoop t localid fuel) := by
        rw [allocLoop, hx]
        dsimp only
        rw [hrank]
        rfl
      obtain ⟨ss', hstep, hcase⟩ := step_spec h hat (by rw [hwhole] at hsplit ⊢; exact hsplit) hx hne
      rw [hloop, hstep, Option.bind_some]
      have hrange := hat.range
      rcases hcase with ⟨hat', hless⟩ | ⟨f', k1, hb', hent⟩
      · have hrange' := hat'.range
        exact ih h hwhole ⟨hat', by push_cast at hroom; omega⟩ (by omega)
      · have h1 := f'.owns_fill (hb' ▸ h)
        have h2 : Owns t.heap (k1.cells (Ctx.up f' c).par + ({(f'.addr, f'.record c.par k1.addr? k1.size)} + (f'.cells + C))) :=
          h1.of_eq (by
            show _ = k1.cells (some f'.addr) + _
            abel)
        have hwhole' : (Ctx.up f' c).before ++ k1.contents ++ (Ctx.up f' c).after = l := by
          rw [← hwhole, hb', f'.contents_fill]
          simp [Ctx.before, Ctx.after]
        exact ih h2 hwhole' (hent.searching (by omega)) (by omega)

theorem allocChannelIdGeneral_spec {l : List E} (h : Rep t l) (hl : Numbered localid l) :
    ∃ A B, l = A ++ B ∧ allocChannelIdGeneral t localid = some (idAt A.length) ∧
      (∀ x ∈ A, 0 < inSequence localid l x) ∧ ∀ x ∈ B, inSequence localid l x < 0 := by
  obtain ⟨d, T, hroot, hO, hT⟩ := h
  have hO' : Owns t.heap (T.cells none + 0) := hO.of_eq (add_zero _).symm
  obtain ⟨ss, hstart, hin, hempty⟩ := search234Start_spec (g := inSequence localid l) hO' hroot
  have hgo : allocChannelIdGeneral t localid = allocLoop t localid (4 * t.heap.brk + 4) ss := by
    unfold allocChannelIdGeneral
    rw [hstart]
    rfl
  rw [hgo]
  cases d with
  | zero =>
    obtain ⟨helem, hindex⟩ := hempty rfl
    cases hT
    refine ⟨[], [], rfl, ?_, by simp, by simp⟩
    rw [allocLoop, helem, hindex]
    rfl
  | succ d =>
    have hd := (T.height_le_card none).trans hO.card_le_brk
    have hO' : Owns t.heap (T.cells (Ctx.root (E := E) (d := d + 1)).par + 0) := hO'
    apply allocLoop_spec hl _ hO'
    · show [] ++ T.contents ++ [] = l
      rw [List.nil_append, List.append_nil, hT]
    · exact (hin (Nat.succ_ne_zero d)).searching (by omega)
    · omega

/-! ## The id handed out -/

/-- The id handed out is the lowest from the offset on that no channel has; when every one is taken
    it is 0. -/
theorem allocChannelIdGeneral_lowest {l : List E} (h : Rep t l) (hl : Numbered localid l) :
    ∃ id, allocChannelIdGeneral t localid = some id ∧ id ∉ l.map localid ∧
      (∀ n : UInt32, channelNumberOffset ≤ n → n < id → n ∈ l.map localid) ∧
      (channelNumberOffset ≤ id ∨ ∀ n : UInt32, channelNumberOffset ≤ n → n ∈ l.map localid) := by
  obtain ⟨A, B, rfl, halloc, hA, hB⟩ := allocChannelIdGeneral_spec h hl
  have hoffset : channelNumberOffset.toNat = 256 := rfl
  -- the ids of the initial sequence, by index
  have hfront : ∀ i, i < A.length → (256 + i) ∈ (A ++ B).map fun x => (localid x).toNat := by
    intro i hi
    have hi' : i < (A ++ B).length := by rw [List.length_append]; omega
    have hmem : (A ++ B)[i] ∈ A := by
      rw [List.getElem_append_left hi]
      exact List.getElem_mem hi
    rw [← (inSequence_pos hl hi').mp (hA _ hmem)]
    exact List.mem_map_of_mem (List.getElem_mem hi')
  have hin : ∀ n : UInt32, channelNumberOffset ≤ n → n.toNat < 256 + A.length → n ∈ (A ++ B).map localid := by
    intro n hn hlt
    rw [UInt32.le_iff_toNat_le, hoffset] at hn
    obtain ⟨x, hx, he⟩ := List.mem_map.mp (hfront (n.toNat - 256) (by omega))
    apply List.mem_map.mpr
    refine ⟨x, hx, UInt32.toNat_inj.mp ?_⟩
    have he : (localid x).toNat = 256 + (n.toNat - 256) := he
    omega
  have hroom : 256 + A.length ≤ 2 ^ 32 := by
    by_contra hno
    have hi : A.length - 1 < (A ++ B).length := by rw [List.length_append]; omega
    have hle := hl.at_least hi
    have hlt := (localid (A ++ B)[A.length - 1]).toNat_lt
    omega
  refine ⟨_, halloc, ?_, ?_, ?_⟩
  · intro hmem
    obtain ⟨x, hx, he⟩ := List.mem_map.mp hmem
    obtain ⟨i, hi, rfl⟩ := List.getElem_of_mem hx
    have he := congrArg UInt32.toNat he
    have hle := hl.at_least hi
    have hlt := (localid (A ++ B)[i]).toNat_lt
    rw [idAt_toNat] at he
    by_cases hiA : i < A.length
    · have hseq := (inSequence_pos hl hi).mp (hA _ (by rw [List.getElem_append_left hiA]; exact List.getElem_mem hiA))
      omega
    · have hneg : inSequence localid (A ++ B) (A ++ B)[i] < 0 := by
        apply hB
        rw [List.getElem_append_right (by omega)]
        exact List.getElem_mem _
      have hseq := mt (inSequence_pos hl hi).mpr (inSequence_neg.mp hneg)
      omega
  · intro n hn hlt
    rw [UInt32.lt_iff_toNat_lt, idAt_toNat] at hlt
    exact hin n hn (by omega)
  · by_cases hfull : 256 + A.length < 2 ^ 32
    · left
      rw [UInt32.le_iff_toNat_le, idAt_toNat, hoffset]
      omega
    · right
      intro n hn
      have := n.toNat_lt
      exact hin n hn (by omega)

/-- Channels 256 and 258: the id between them is handed out. -/
theorem allocChannelIdGeneral_lowest_gap :
    ∃ n : UInt32, allocChannelIdGeneral (leafTree none [256, 258] (by simp) (by simp)) id = some n ∧ n ∉ [256, 258].map id ∧
      (∀ m : UInt32, channelNumberOffset ≤ m → m < n → m ∈ [256, 258].map id) ∧
      (channelNumberOffset ≤ n ∨ ∀ m : UInt32, channelNumberOffset ≤ m → m ∈ [256, 258].map id) :=
  allocChannelIdGeneral_lowest (leafTree_rep none [256, 258] (by simp) (by simp)) ⟨by simp, by simp [channelNumberOffset]⟩

end Putty.Ssh2.ChannelIds
