/-
  Putty.Terminal.Termline — a line of the terminal and its combining characters
  (`terminal.c`, newtermline, add_cc, clear_cc, copy_termchar, move_termchar, resizeline and
  the diagnostic cc_check).

  A line is one array. The first `cols` slots are the columns; the slots after them hold
  combining characters, in lists that start at a column and are linked by relative offsets.
  Slots not in use are linked in the same way, from `cc_free`. A resize moves the second
  part of the array as a block.

  Proved, for every sequence of the five operations (`cc_structure`): no access is outside
  the array and no walk is endless; every slot after the columns stays in exactly one list,
  a column's or the free one; no list is longer than CC_LIMIT; and what the columns show
  changes as it does in the same sequence on a plain list of cells, where an operation
  changes the cells it names and nothing else. Such a line passes cc_check
  (`cc_check_passes`). The one assertion that can fail is that an array has at most
  INT_MAX slots.
-/

import Mathlib.Tactic.Ring
import Putty.Lib.Chain

namespace Putty.Terminal

open Putty.Lib

/-! ## Cells and lines -/

structure Rgb where
  r : UInt8
  g : UInt8
  b : UInt8
  deriving DecidableEq, Repr, Inhabited

/-- optionalrgb: `none` is a colour that is not enabled. -/
abbrev OptionalRgb := Option Rgb

structure Truecolour where
  fg : OptionalRgb
  bg : OptionalRgb
  deriving DecidableEq, Repr, Inhabited

structure Termchar where
  chr : UInt32
  attr : UInt32
  truecolour : Truecolour
  ccNext : Int
  deriving DecidableEq, Repr, Inhabited

structure Termline where
  lattr : UInt16
  cols : Nat
  temporary : Bool
  ccFree : Nat
  chars : List Termchar
  trusted : Bool
  deriving DecidableEq, Repr

def CC_LIMIT : Nat := 32

def INT_MAX : Nat := 2147483647

/-- sizeof(termchar), with 64-bit longs. -/
def TSIZE : Nat := 32

def replacementChar : UInt32 := 0xFFFD

/-- An assertion fails, an access is outside the array, a walk does not end, or the assertion
    fails that the array has at most INT_MAX slots. -/
inductive Fault where
  | assertion
  | outside
  | endless
  | tooLarge
  deriving DecidableEq, Repr

/-- A cell without a cc list, such as the erase character. -/
structure Blank where
  char : Termchar
  no_cc : char.ccNext = 0

def newtermline (erase : Blank) (cols : Nat) : Termline where
  lattr := 0
  cols := cols
  temporary := false
  ccFree := 0
  chars := List.replicate cols erase.char
  trusted := false

namespace Termline

def size (l : Termline) : Nat := l.chars.length

def slot (l : Termline) (i : Nat) : Except Fault Termchar :=
  match l.chars[i]? with
  | some c => .ok c
  | none => .error .outside

/-- `col += cc_next`. -/
def hop (i : Nat) (d : Int) : Except Fault Nat :=
  if 0 ≤ (i : Int) + d then .ok ((i : Int) + d).toNat else .error .outside

def modify (l : Termline) (i : Nat) (f : Termchar → Termchar) : Termline := { l with chars := l.chars.modify i f }

def setNext (l : Termline) (i : Nat) (d : Int) : Termline := l.modify i fun c => { c with ccNext := d }

/-! ## The operations -/

/-- The last slot of the list that starts at `col`. -/
def lastCc (l : Termline) : Nat → Nat → Except Fault Nat
  | 0, _ => .error .endless
  | fuel + 1, col => do
    let c ← l.slot col
    if c.ccNext = 0 then .ok col else (hop col c.ccNext).bind (l.lastCc fuel)

def clearCc (l : Termline) (col : Nat) : Except Fault Termline :=
  if l.cols ≤ col then .error .assertion
  else do
    let c ← l.slot col
    if c.ccNext = 0 then .ok l
    else do
      let oldfree := l.ccFree
      let first ← hop col c.ccNext
      let last ← l.lastCc (l.size + 1) col
      let l := { l with ccFree := first }.setNext last (if oldfree = 0 then 0 else (oldfree : Int) - last)
      .ok (l.setNext col 0)

/-- The walk of add_cc, `ncc` steps before the limit: the last slot, or `none` at the limit. -/
def walkCc (l : Termline) : Nat → Nat → Except Fault (Option Nat)
  | 0, _ => .ok none
  | ncc + 1, col => do
    let c ← l.slot col
    if c.ccNext = 0 then .ok (some col) else (hop col c.ccNext).bind (l.walkCc ncc)

/-- The new size that safegrowarray finds for one element more than `size`. -/
def sgrowarray (size : Nat) : Nat :=
  let maxsize := (2 ^ 64 - 1) / TSIZE
  let increment := max (max 1 (256 / TSIZE)) (size / 16)
  size + min increment (maxsize - size)

/-- A slot of newly allocated memory; only its link is written. -/
def freshSlot (next : Int) : Termchar := { chr := 0, attr := 0, truecolour := { fg := none, bg := none }, ccNext := next }

/-- If there is no free slot, extend the array and link the new slots as the free list. -/
def extendCc (l : Termline) : Except Fault Termline :=
  if l.ccFree ≠ 0 then .ok l
  else
    let n := l.size
    let size := sgrowarray n
    if INT_MAX < size then .error .tooLarge
    else
      let fresh := (List.range (size - n)).map fun k => freshSlot (if k + 1 < size - n then 1 else 0)
      .ok { l with ccFree := n, chars := l.chars ++ fresh }

/-- What cc_free becomes when slot `newcc`, the first of the free list, is taken. -/
def nextFree (newcc : Nat) (c : Termchar) : Except Fault Nat := if c.ccNext = 0 then .ok 0 else hop newcc c.ccNext

/-- Take the first free slot for `chr` and put it after slot `col`. -/
def appendCc (l : Termline) (col : Nat) (chr : UInt32) : Except Fault Termline := do
  let newcc := l.ccFree
  let c ← l.slot newcc
  let free ← nextFree newcc c
  let l := { l with ccFree := free }.modify newcc fun c => { c with ccNext := 0, chr := chr }
  .ok (l.setNext col ((newcc : Int) - col))

def addCc (l : Termline) (col : Nat) (chr : UInt32) : Except Fault Termline :=
  if l.cols ≤ col then .error .assertion
  else do
    let c ← l.slot col
    if c.chr = replacementChar then .ok l
    else do
      match ← l.walkCc CC_LIMIT col with
      | none => (l.clearCc col).map fun l => l.modify col fun c => { c with chr := replacementChar }
      | some last => l.extendCc.bind fun l => l.appendCc last chr

/-- The loop of copy_termchar: add what the list of the source cell holds, from slot `i` on. -/
def copyCcs (src : Termline) (x : Nat) : Nat → Nat → Termline → Except Fault Termline
  | 0, _, _ => .error .endless
  | fuel + 1, i, l => do
    let c ← src.slot i
    if c.ccNext = 0 then .ok l
    else do
      let j ← hop i c.ccNext
      let d ← src.slot j
      let l ← l.addCc x d.chr
      src.copyCcs x fuel j l

/-- Copy cell `i` of another line to column `x`. -/
def copyTermchar (l : Termline) (x : Nat) (src : Termline) (i : Nat) : Except Fault Termline := do
  let l ← l.clearCc x
  let c ← src.slot i
  src.copyCcs x (src.size + 1) i (l.modify x fun _ => { c with ccNext := 0 })

def moveTermchar (l : Termline) (dest src : Nat) : Except Fault Termline := do
  let l ← l.clearCc dest
  let c ← l.slot src
  let next := if c.ccNext = 0 then 0 else c.ccNext - ((dest : Int) - src)
  .ok ((l.modify dest fun _ => { c with ccNext := next }).setNext src 0)

/-- Adjust a link from a column when the cc section moves. -/
def rebase (delta : Int) (c : Termchar) : Termchar := if c.ccNext = 0 then c else { c with ccNext := c.ccNext + delta }

/-- The columns that stay, the new columns, and the cc section moved behind them. -/
def resized (l : Termline) (erase : Blank) (cols : Nat) : Termline :=
  let delta : Int := (cols : Int) - l.cols
  { l with
    cols := cols
    ccFree := if l.ccFree = 0 then 0 else ((l.ccFree : Int) + delta).toNat
    chars := (l.chars.take (min l.cols cols)).map (rebase delta) ++ List.replicate (cols - l.cols) erase.char ++
      l.chars.drop l.cols }

def resizeline (l : Termline) (erase : Blank) (cols : Nat) : Except Fault Termline :=
  if l.cols = cols then .ok l
  else do
    let l ← (List.range' cols (l.cols - cols)).foldlM clearCc l
    .ok (l.resized erase cols)

/-! ## What a line shows -/

end Termline

structure Cell where
  chr : UInt32
  attr : UInt32
  truecolour : Truecolour
  cc : List UInt32
  deriving DecidableEq, Repr, Inhabited

namespace Termline

/-- A slot without its link. -/
def bare (l : Termline) (i : Nat) : Termchar := { l.chars.getD i default with ccNext := 0 }

def next (l : Termline) (i : Nat) : Option Int := (l.chars[i]?).map (·.ccNext)

/-- The slots of the list that starts at slot `i`. -/
def ccSlots (l : Termline) : Nat → Nat → List Nat
  | 0, _ => []
  | fuel + 1, i =>
    match l.next i with
    | some d => if d = 0 then [] else ((i : Int) + d).toNat :: l.ccSlots fuel ((i : Int) + d).toNat
    | none => []

def cellOf (l : Termline) (i : Nat) (js : List Nat) : Cell where
  chr := (l.bare i).chr
  attr := (l.bare i).attr
  truecolour := (l.bare i).truecolour
  cc := js.map fun j => (l.bare j).chr

def cells (l : Termline) : List Cell := (List.range l.cols).map fun i => l.cellOf i (l.ccSlots l.size i)

/-! ## The invariant -/

def FreeChain (l : Termline) : List Nat → Prop
  | [] => l.ccFree = 0
  | j :: js => l.ccFree = j ∧ Chain l.next j js

structure LaidOut (l : Termline) (lists : Nat → List Nat) (free : List Nat) : Prop where
  cols_pos : 0 < l.cols
  fits : l.cols ≤ l.size
  chain : ∀ i < l.cols, Chain l.next i (lists i)
  free_chain : l.FreeChain free
  slots : sharedOut l.cols (l.size - l.cols) lists free
  beyond : ∀ i, l.cols ≤ i → lists i = []
  limit : ∀ i, (lists i).length ≤ CC_LIMIT

/-- Every slot after the columns is in one list, a column's or the free one, and no column's
    list is longer than CC_LIMIT. -/
def Structured (l : Termline) : Prop := ∃ lists free, l.LaidOut lists free

/-! ## Slots and links -/

section Slots

variable {l : Termline} {i j k : Nat} {d : Int}

@[simp] theorem cols_modify (f : Termchar → Termchar) : (l.modify i f).cols = l.cols := rfl
@[simp] theorem cols_setNext : (l.setNext i d).cols = l.cols := rfl
@[simp] theorem ccFree_modify (f : Termchar → Termchar) : (l.modify i f).ccFree = l.ccFree := rfl
@[simp] theorem ccFree_setNext : (l.setNext i d).ccFree = l.ccFree := rfl
@[simp] theorem size_modify (f : Termchar → Termchar) : (l.modify i f).size = l.size := by simp [modify, size]
@[simp] theorem size_setNext : (l.setNext i d).size = l.size := size_modify _
@[simp] theorem next_withFree {n : Nat} : next { l with ccFree := n } = l.next := rfl
@[simp] theorem bare_withFree {n : Nat} : bare { l with ccFree := n } = l.bare := rfl
@[simp] theorem size_withFree {n : Nat} : size { l with ccFree := n } = l.size := rfl

theorem slot_of_next (h : l.next i = some d) : ∃ c, l.slot i = .ok c ∧ c.ccNext = d ∧ l.chars[i]? = some c := by
  unfold next at h
  cases hc : l.chars[i]? with
  | none => rw [hc] at h; cases h
  | some c =>
    rw [hc] at h
    exact ⟨c, by simp [slot, hc], Option.some.inj h, rfl⟩

theorem next_isSome_iff : (l.next i).isSome ↔ i < l.size := by simp [next, size]

theorem hop_of_eq (h : (i : Int) + d = j) : hop i d = .ok j := by
  unfold hop
  rw [if_pos (by omega)]
  congr 1
  omega

theorem next_modify_of_ne (f : Termchar → Termchar) (h : k ≠ i) : (l.modify i f).next k = l.next k := by
  simp [next, modify, h.symm]

theorem next_modify_self (f : Termchar → Termchar) {c : Termchar} (h : l.chars[i]? = some c) :
    (l.modify i f).next i = some (f c).ccNext := by
  simp [next, modify, h]

theorem next_setNext_self (h : i < l.size) : (l.setNext i d).next i = some d := by
  have : l.chars[i]? = some l.chars[i] := List.getElem?_eq_getElem h
  exact next_modify_self _ this

theorem next_setNext_of_ne (h : k ≠ i) : (l.setNext i d).next k = l.next k := next_modify_of_ne _ h

theorem bare_modify_of_ne (f : Termchar → Termchar) (h : k ≠ i) : (l.modify i f).bare k = l.bare k := by
  simp [bare, modify, List.getD_eq_getElem?_getD, h.symm]

theorem bare_modify_self (f : Termchar → Termchar) {c : Termchar} (h : l.chars[i]? = some c) :
    (l.modify i f).bare i = { f c with ccNext := 0 } := by
  simp [bare, modify, List.getD_eq_getElem?_getD, h]

@[simp] theorem bare_setNext : (l.setNext i d).bare = l.bare := by
  funext k
  unfold setNext
  by_cases hk : k = i
  · subst hk
    cases hc : l.chars[k]? with
    | none => simp [bare, modify, List.getD_eq_getElem?_getD, hc]
    | some c => rw [bare_modify_self _ hc]; simp [bare, List.getD_eq_getElem?_getD, hc]
  · exact bare_modify_of_ne _ hk

theorem bare_of_slot {c : Termchar} (h : l.chars[i]? = some c) : l.bare i = { c with ccNext := 0 } := by
  simp [bare, List.getD_eq_getElem?_getD, h]

end Slots

/-! ## Walks -/

section Walks

variable {l : Termline} {i : Nat} {js : List Nat}

theorem lastCc_chain (h : Chain l.next i js) : ∀ fuel, js.length < fuel → l.lastCc fuel i = .ok (js.getLastD i) := by
  induction h with
  | last h0 =>
    intro fuel hf
    obtain ⟨c, hs, hc, -⟩ := slot_of_next h0
    obtain ⟨n, rfl⟩ : ∃ n, fuel = n + 1 := ⟨fuel - 1, by simp at hf; omega⟩
    simp [lastCc, hs, hc, bind, Except.bind]
  | link hd hne hj _ ih =>
    intro fuel hf
    obtain ⟨c, hs, hc, -⟩ := slot_of_next hd
    obtain ⟨n, rfl⟩ : ∃ n, fuel = n + 1 := ⟨fuel - 1, by simp at hf; omega⟩
    rw [List.getLastD_cons, ← ih n (by simpa using hf)]
    simp [lastCc, hs, hc, hne, hop_of_eq hj, bind, Except.bind]

theorem walkCc_chain (h : Chain l.next i js) :
    ∀ ncc, l.walkCc ncc i = .ok (if js.length < ncc then some (js.getLastD i) else none) := by
  induction h with
  | last h0 =>
    intro ncc
    obtain ⟨c, hs, hc, -⟩ := slot_of_next h0
    cases ncc with
    | zero => simp [walkCc]
    | succ n => simp [walkCc, hs, hc, bind, Except.bind]
  | link hd hne hj _ ih =>
    intro ncc
    obtain ⟨c, hs, hc, -⟩ := slot_of_next hd
    cases ncc with
    | zero => simp [walkCc]
    | succ n =>
      have := ih n
      rw [List.getLastD_cons, List.length_cons]
      simp only [Nat.add_lt_add_iff_right, ← this]
      simp [walkCc, hs, hc, hne, hop_of_eq hj, bind, Except.bind]

theorem ccSlots_chain (h : Chain l.next i js) : ∀ fuel, js.length < fuel → l.ccSlots fuel i = js := by
  induction h with
  | last h0 =>
    intro fuel hf
    obtain ⟨n, rfl⟩ : ∃ n, fuel = n + 1 := ⟨fuel - 1, by simp at hf; omega⟩
    simp [ccSlots, h0]
  | @link i j d js hd hne hj _ ih =>
    intro fuel hf
    obtain ⟨n, rfl⟩ : ∃ n, fuel = n + 1 := ⟨fuel - 1, by simp at hf; omega⟩
    have hn : ((i : Int) + d).toNat = j := by omega
    simp [ccSlots, hd, hne, hn, ih n (by simpa using hf)]

end Walks

/-! ## What the invariant says of a slot -/

namespace LaidOut

variable {l : Termline} {lists : Nat → List Nat} {free : List Nat} {i j m : Nat}

theorem mem_list (h : l.LaidOut lists free) (hi : i < l.cols) (hm : m ∈ lists i) : l.cols ≤ m ∧ m < l.size := by
  have := h.slots.mem_list hi hm
  have := h.fits
  omega

theorem mem_free (h : l.LaidOut lists free) (hm : m ∈ free) : l.cols ≤ m ∧ m < l.size := by
  have := h.slots.mem_free hm
  have := h.fits
  omega

theorem nodup (h : l.LaidOut lists free) (hi : i < l.cols) : (i :: lists i).Nodup := by
  refine List.nodup_cons.mpr ⟨fun hm => ?_, h.slots.list_nodup hi⟩
  have := (h.mem_list hi hm).1
  omega

theorem length_lt (h : l.LaidOut lists free) (hi : i < l.cols) : (lists i).length < l.size := by
  have hs : (i :: lists i) ⊆ List.range l.size := by
    intro m hm
    rcases List.mem_cons.mp hm with rfl | hm
    · exact List.mem_range.mpr (Nat.lt_of_lt_of_le hi h.fits)
    · exact List.mem_range.mpr (h.mem_list hi hm).2
  have := (List.subperm_of_subset (h.nodup hi) hs).length_le
  rw [List.length_cons, List.length_range] at this
  exact this

theorem cells_eq (h : l.LaidOut lists free) : l.cells = (List.range l.cols).map fun i => l.cellOf i (lists i) := by
  refine List.map_congr_left fun i hi => ?_
  have hi := List.mem_range.mp hi
  rw [ccSlots_chain (h.chain i hi) _ (h.length_lt hi)]

end LaidOut

/-! ## clear_cc -/

section Ops

variable {l : Termline} {lists : Nat → List Nat} {free : List Nat} {col : Nat}

theorem LaidOut.relinked (h : l.LaidOut lists free) (hc : col < l.cols) {j : Nat} {js : List Nat} (hl : lists col = j :: js) :
    let last := js.getLastD j
    let l' := ({ l with ccFree := j }.setNext last (if l.ccFree = 0 then 0 else (l.ccFree : Int) - last)).setNext col 0
    l'.LaidOut (Function.update lists col []) (lists col ++ free) := by
  intro last l'
  have hlast : last ∈ lists col := hl ▸ Chain.getLastD_mem j js
  have hls := h.mem_list hc hlast
  have hne : last ≠ col := by omega
  have hcol : col < l.size := Nat.lt_of_lt_of_le hc h.fits
  have hnext : ∀ m, m ≠ col → m ≠ last → l'.next m = l.next m := fun m h1 h2 =>
    (next_setNext_of_ne h1).trans (next_setNext_of_ne h2)
  have hnc : l'.next col = some 0 := next_setNext_self (by simpa using hcol)
  have hnl : l'.next last = some (if l.ccFree = 0 then 0 else (l.ccFree : Int) - last) :=
    (next_setNext_of_ne hne).trans (next_setNext_self (by simpa using hls.2))
  have hfree : ∀ {k ks}, Chain l.next k ks → (∀ m ∈ k :: ks, m ∈ free) → Chain l'.next k ks := by
    intro k ks hk hm
    refine hk.congr fun m hmk => hnext m ?_ ?_
    · have := (h.mem_free (hm m hmk)).1
      omega
    · exact fun e => h.slots.not_free hc hlast (e ▸ hm m hmk)
  constructor
  · exact h.cols_pos
  · simpa [l'] using h.fits
  · intro i hi
    by_cases hic : i = col
    · subst hic
      rw [Function.update_self]
      exact .last hnc
    · rw [Function.update_of_ne hic]
      refine (h.chain i hi).congr fun m hm => hnext m ?_ ?_
      · rintro rfl
        rcases List.mem_cons.mp hm with e | hm
        · exact hic e.symm
        · exact absurd (h.mem_list hi hm).1 (Nat.not_le.mpr hc)
      · rintro rfl
        rcases List.mem_cons.mp hm with e | hm
        · exact absurd hls.1 (Nat.not_le.mpr (e ▸ hi))
        · exact h.slots.not_other hc hi (Ne.symm hic) hlast hm
  · have hch := h.chain col hc
    rw [hl] at hch
    have hnd : (j :: js).Nodup := hl ▸ h.slots.list_nodup hc
    have hj : ∀ m ∈ j :: js, m ≠ last → l'.next m = l.next m := by
      intro m hm hml
      refine hnext m ?_ hml
      have := (h.mem_list hc (hl ▸ hm)).1
      omega
    rw [hl, List.cons_append]
    refine ⟨rfl, ?_⟩
    cases hch with
    | link _ _ _ hcj =>
      cases free with
      | nil =>
        have hf : l.ccFree = 0 := h.free_chain
        rw [List.append_nil]
        refine hcj.congr fun m hm => ?_
        by_cases hml : m = last
        · rw [hml, hnl, if_pos hf, hcj.next_last]
        · exact hj m hm hml
      | cons k ks =>
        obtain ⟨hf, hk⟩ := h.free_chain
        have hkf := h.mem_free (m := k) (by simp)
        have hc0 := h.cols_pos
        rw [if_neg (by omega), hf] at hnl
        refine hcj.splice hnd hj hnl (fun e => ?_) (hfree hk fun m hm => hm)
        have hkl : k = last := e
        exact h.slots.not_free hc hlast (hkl ▸ List.mem_cons_self)
  · have hp : (lists col ++ free).Perm ([] ++ (lists col ++ free)) := by rw [List.nil_append]
    simpa [l'] using h.slots.deal hc hp
  · intro i hi
    have hi : l.cols ≤ i := hi
    rw [Function.update_of_ne (by omega), h.beyond i hi]
  · intro i
    by_cases hic : i = col
    · subst hic; simp
    · rw [Function.update_of_ne hic]; exact h.limit i

theorem clearCc_spec (h : l.LaidOut lists free) (hc : col < l.cols) : ∃ l', l.clearCc col = .ok l' ∧
    l'.LaidOut (Function.update lists col []) (lists col ++ free) ∧ l'.cols = l.cols ∧ l'.size = l.size ∧ l'.bare = l.bare := by
  have hch := h.chain col hc
  unfold clearCc
  rw [if_neg (by omega)]
  cases hl : lists col with
  | nil =>
    rw [hl] at hch
    obtain ⟨c, hs, hc0, -⟩ := slot_of_next (hch.nil_iff.mp rfl)
    refine ⟨l, by simp [hs, hc0, bind, Except.bind], ?_, rfl, rfl, rfl⟩
    rw [← hl, Function.update_eq_self, hl]
    exact h
  | cons j js =>
    rw [hl] at hch
    have hlen := h.length_lt hc
    have hlast := lastCc_chain hch (l.size + 1) (by rw [← hl]; omega)
    have hlaid := h.relinked hc hl
    rw [List.getLastD_cons] at hlast
    rw [hl] at hlaid
    cases hch with
    | link hd hne hj hcj =>
      obtain ⟨c, hs, hcn, -⟩ := slot_of_next hd
      refine ⟨_, ?_, hlaid, by simp, by simp, by simp⟩
      simp [hs, hcn, hne, hop_of_eq hj, hlast, bind, Except.bind]

/-! ## add_cc -/

theorem freshChain (n : Nat) : ∀ k (next : Nat → Option Int),
    (∀ m, m < k → next (n + m) = some (if m + 1 < k then 1 else 0)) → ∀ j, j < k →
    Chain next (n + j) (List.range' (n + j + 1) (k - 1 - j)) := by
  intro k next hnext j hj
  induction hd : k - 1 - j generalizing j with
  | zero => exact .last (by rw [hnext j hj, if_neg (by omega)])
  | succ d ih =>
    have hstep := ih (j + 1) (by omega) (by omega)
    refine .link (j := n + j + 1) (by rw [hnext j hj, if_pos (by omega)]) (by decide) (by omega) ?_
    exact hstep

theorem extendCc_spec (h : l.LaidOut lists free) : l.extendCc = .error .tooLarge ∨ ∃ l' k ks, l.extendCc = .ok l' ∧
    l'.LaidOut lists (k :: ks) ∧ l'.cols = l.cols ∧ l.size ≤ l'.size ∧ ∀ i < l.size, l'.bare i = l.bare i := by
  have hc0 := h.cols_pos
  have hfit := h.fits
  unfold extendCc
  cases free with
  | cons k ks =>
    have hf := h.free_chain.1
    have hk := (h.mem_free (m := k) (by simp)).1
    exact .inr ⟨l, k, ks, by rw [if_pos (by omega)], h, rfl, Nat.le_refl _, fun _ _ => rfl⟩
  | nil =>
    have hf : l.ccFree = 0 := h.free_chain
    rw [if_neg (by omega)]
    by_cases hbig : INT_MAX < sgrowarray l.size
    · exact .inl (by simp [hbig])
    · right
      have hgrow : l.size < sgrowarray l.size := by
        unfold sgrowarray TSIZE at hbig ⊢
        unfold INT_MAX at hbig
        simp only [] at hbig ⊢
        omega
      obtain ⟨k, hk⟩ : ∃ k, sgrowarray l.size = l.size + (k + 1) := ⟨sgrowarray l.size - l.size - 1, by omega⟩
      rw [if_neg hbig, hk, Nat.add_sub_cancel_left]
      refine ⟨_, l.size, List.range' (l.size + 1) k, rfl, ?_, rfl, by simp [size], ?_⟩
      · generalize hl' : ({ l with ccFree := l.size, chars := _ } : Termline) = l'
        have hcols : l'.cols = l.cols := by rw [← hl']
        have hsize : l'.size = l.size + (k + 1) := by rw [← hl']; simp [size]
        have hold : ∀ m, m < l.size → l'.next m = l.next m := by
          intro m hm
          rw [← hl']
          simp only [next]
          rw [List.getElem?_append_left hm]
        have hnew : ∀ m, m < k + 1 → l'.next (l.size + m) = some (if m + 1 < k + 1 then 1 else 0) := by
          intro m hm
          rw [← hl']
          simp only [next]
          rw [List.getElem?_append_right (by simp [size])]
          simp [size, freshSlot, hm]
        constructor
        · rw [hcols]; exact hc0
        · omega
        · intro i hi
          rw [hcols] at hi
          refine (h.chain i hi).congr fun m hm => hold m ?_
          rcases List.mem_cons.mp hm with rfl | hm
          · omega
          · exact (h.mem_list hi hm).2
        · exact ⟨by rw [← hl'], freshChain l.size (k + 1) l'.next hnew 0 (by omega)⟩
        · have := h.slots.grow (k + 1)
          rw [List.nil_append, List.range'_succ, show l.cols + (l.size - l.cols) = l.size by omega] at this
          rw [hcols, hsize, show l.size + (k + 1) - l.cols = l.size - l.cols + (k + 1) by omega]
          exact this
        · intro i hi; exact h.beyond i (by omega)
        · exact h.limit
      · intro i hi
        simp only [bare, List.getD_eq_getElem?_getD]
        rw [List.getElem?_append_left hi]

theorem appendCc_spec {k : Nat} {ks : List Nat} (h : l.LaidOut lists (k :: ks)) (hc : col < l.cols)
    (hlim : (lists col).length < CC_LIMIT) (chr : UInt32) :
    ∃ l', l.appendCc ((lists col).getLastD col) chr = .ok l' ∧
      l'.LaidOut (Function.update lists col (lists col ++ [k])) ks ∧ l'.cols = l.cols ∧
      (∀ i, i ≠ k → l'.bare i = l.bare i) ∧ (l'.bare k).chr = chr := by
  obtain ⟨hf, hk⟩ := h.free_chain
  have hkf := h.mem_free (m := k) (by simp)
  have hc0 := h.cols_pos
  have hcs : col < l.size := Nat.lt_of_lt_of_le hc h.fits
  have hks : ∀ m ∈ ks, m ≠ k := fun m hm e => (List.nodup_cons.mp h.slots.free_nodup).1 (e ▸ hm)
  let last := (lists col).getLastD col
  have hmem : last ∈ col :: lists col := Chain.getLastD_mem col (lists col)
  have hlk : last ≠ k := by
    intro e
    rcases List.mem_cons.mp hmem with hm | hm
    · omega
    · exact h.slots.not_free hc hm (e ▸ List.mem_cons_self)
  have hls : last < l.size := by
    rcases List.mem_cons.mp hmem with hm | hm
    · omega
    · exact (h.mem_list hc hm).2
  have hnk : l.next k ≠ none := by
    have := next_isSome_iff.mpr hkf.2
    intro e
    rw [e] at this
    cases this
  obtain ⟨d, hd⟩ := Option.ne_none_iff_exists'.mp hnk
  obtain ⟨c, hs, hcn, hck⟩ := slot_of_next hd
  -- the head of the free list after the slot is taken
  have hfree : ∃ free, nextFree k c = .ok free ∧ FreeChain { l with ccFree := free } ks := by
    rw [nextFree, hcn]
    cases hk with
    | last h0 =>
      rw [hd] at h0
      exact ⟨0, by rw [if_pos (Option.some.inj h0)], rfl⟩
    | @link _ j d' js hd' hne hj hcj =>
      rw [hd] at hd'
      cases hd'
      exact ⟨j, by rw [if_neg hne, hop_of_eq hj], rfl, hcj⟩
  obtain ⟨free, hfr, hfc⟩ := hfree
  generalize hl' : (({ l with ccFree := free } : Termline).modify k fun c => { c with ccNext := 0, chr := chr }).setNext last
    ((k : Int) - last) = l'
  have hcols : l'.cols = l.cols := by rw [← hl']; rfl
  have hsize : l'.size = l.size := by rw [← hl']; simp
  have hother : ∀ m, m ≠ k → m ≠ last → l'.next m = l.next m := by
    intro m h1 h2
    rw [← hl', next_setNext_of_ne h2, next_modify_of_ne _ h1, next_withFree]
  have hnextk : l'.next k = some 0 := by
    rw [← hl', next_setNext_of_ne hlk.symm, next_modify_self (l := { l with ccFree := free }) _ hck]
  have hnextl : l'.next last = some ((k : Int) - last) := by
    rw [← hl', next_setNext_self (by simpa using hls)]
  refine ⟨l', ?_, ?_, hcols, ?_, ?_⟩
  · unfold appendCc
    simp only [hf, bind, Except.bind, hs, hfr]
    rw [← hl']
  · constructor
    · rw [hcols]; exact h.cols_pos
    · rw [hcols, hsize]; exact h.fits
    · intro i hi
      rw [hcols] at hi
      by_cases hic : i = col
      · subst hic
        rw [Function.update_self]
        refine (h.chain i hi).splice (h.nodup hi) (fun m hm hml => hother m ?_ hml) hnextl hlk.symm (.last hnextk)
        rintro rfl
        rcases List.mem_cons.mp hm with e | hm
        · omega
        · exact h.slots.not_free hi hm List.mem_cons_self
      · rw [Function.update_of_ne hic]
        refine (h.chain i hi).congr fun m hm => hother m ?_ ?_
        · rintro rfl
          rcases List.mem_cons.mp hm with e | hm
          · omega
          · exact h.slots.not_free hi hm List.mem_cons_self
        · rintro rfl
          rcases List.mem_cons.mp hmem with e | hml
          · rcases List.mem_cons.mp hm with e' | hm
            · omega
            · have := (h.mem_list hi hm).1
              omega
          · rcases List.mem_cons.mp hm with e' | hm
            · have := (h.mem_list hc hml).1
              omega
            · exact h.slots.not_other hc hi (Ne.symm hic) hml hm
    · have hframe : ∀ m ∈ ks, l'.next m = l.next m := by
        intro m hm
        refine hother m (hks m hm) ?_
        rintro rfl
        have := (h.mem_free (List.mem_cons_of_mem k hm)).1
        rcases List.mem_cons.mp hmem with e | hml
        · omega
        · exact h.slots.not_free hc hml (List.mem_cons_of_mem k hm)
      have hcf : l'.ccFree = free := by rw [← hl']; rfl
      cases ks with
      | nil => exact hcf.trans hfc
      | cons j js => exact ⟨hcf.trans hfc.1, hfc.2.congr hframe⟩
    · rw [hcols, hsize]
      refine h.slots.deal hc ?_
      rw [List.append_assoc]
      rfl
    · intro i hi
      rw [hcols] at hi
      rw [Function.update_of_ne (by omega), h.beyond i hi]
    · intro i
      by_cases hic : i = col
      · subst hic
        rw [Function.update_self, List.length_append]
        exact hlim
      · rw [Function.update_of_ne hic]; exact h.limit i
  · intro i hik
    rw [← hl', bare_setNext, bare_modify_of_ne _ hik, bare_withFree]
  · rw [← hl', bare_setNext, bare_modify_self (l := { l with ccFree := free }) _ hck]

/-! ## The operations on the cells shown -/

end Ops

end Termline

/-- What a blank shows. -/
def Blank.cell (erase : Blank) : Cell where
  chr := erase.char.chr
  attr := erase.char.attr
  truecolour := erase.char.truecolour
  cc := []

namespace Cell

def cleared (c : Cell) : Cell := { c with cc := [] }

/-- A combining character more, or U+FFFD for the cell and its list if there are too many. -/
def add (c : Cell) (chr : UInt32) : Cell :=
  if c.chr = replacementChar then c
  else if CC_LIMIT ≤ c.cc.length then { c with chr := replacementChar, cc := [] }
  else { c with cc := c.cc ++ [chr] }

/-- The cell that a copy makes: its list is built anew. -/
def copied (c : Cell) : Cell := c.cc.foldl add c.cleared

end Cell

namespace Termline

/-- The result keeps the invariant and shows `cells`; or an array would be too large. -/
def Meets (r : Except Fault Termline) (cells : List Cell) : Prop :=
  match r with
  | .error e => e = .tooLarge
  | .ok l => l.Structured ∧ l.cells = cells

theorem Meets.bind {r : Except Fault Termline} {f : Termline → Except Fault Termline} {cells cells' : List Cell}
    (h : Meets r cells) (hf : ∀ l, l.Structured → l.cells = cells → Meets (f l) cells') : Meets (r.bind f) cells' := by
  cases r with
  | error e => exact h
  | ok l => exact hf l h.1 h.2

section Ops

variable {l l' : Termline} {lists lists' : Nat → List Nat} {free free' : List Nat} {col : Nat}

@[simp] theorem length_cells : l.cells.length = l.cols := by simp [cells]

theorem cellOf_congr {i : Nat} {js : List Nat} (h : ∀ m ∈ i :: js, l'.bare m = l.bare m) : l'.cellOf i js = l.cellOf i js := by
  have hi := h i (by simp)
  have hjs : js.map (fun j => (l'.bare j).chr) = js.map (fun j => (l.bare j).chr) :=
    List.map_congr_left fun j hj => by rw [h j (List.mem_cons_of_mem _ hj)]
  rw [cellOf, cellOf, hi, hjs]

theorem LaidOut.cells_modify (h : l.LaidOut lists free) (h' : l'.LaidOut lists' free') (hcols : l'.cols = l.cols)
    (f : Cell → Cell) (hcol : l'.cellOf col (lists' col) = f (l.cellOf col (lists col)))
    (hother : ∀ i < l.cols, i ≠ col → l'.cellOf i (lists' i) = l.cellOf i (lists i)) :
    l'.cells = l.cells.modify col f := by
  rw [h.cells_eq, h'.cells_eq, hcols]
  refine List.ext_getElem? fun i => ?_
  rw [List.getElem?_modify, List.getElem?_map, List.getElem?_map]
  by_cases hi : i < l.cols
  · rw [List.getElem?_range hi]
    by_cases hic : i = col
    · subst hic; simp [hcol]
    · simp [Ne.symm hic, hother i hi hic]
  · simp [Nat.le_of_not_lt hi]

/-- A change of a column's own slot that leaves its link. -/
theorem LaidOut.modify_col (h : l.LaidOut lists free) (hc : col < l.cols) (f : Termchar → Termchar)
    (hf : ∀ c, l.chars[col]? = some c → (f c).ccNext = c.ccNext) :
    (l.modify col f).LaidOut lists free := by
  have hnext : (l.modify col f).next = l.next := by
    funext m
    by_cases hm : m = col
    · subst hm
      obtain ⟨c, hck⟩ : ∃ c, l.chars[m]? = some c := ⟨_, List.getElem?_eq_getElem (Nat.lt_of_lt_of_le hc h.fits)⟩
      rw [next_modify_self _ hck, hf c hck, next, hck]
      rfl
    · exact next_modify_of_ne _ hm
  constructor
  · exact h.cols_pos
  · rw [size_modify]; exact h.fits
  · rw [hnext]; exact h.chain
  · have := h.free_chain
    cases free with
    | nil => exact this
    | cons j js => exact ⟨this.1, hnext ▸ this.2⟩
  · rw [size_modify]; exact h.slots
  · exact h.beyond
  · exact h.limit

theorem LaidOut.slot_col (h : l.LaidOut lists free) (hc : col < l.cols) :
    ∃ c, l.slot col = .ok c ∧ l.chars[col]? = some c ∧ l.bare col = { c with ccNext := 0 } := by
  have hcs : col < l.size := Nat.lt_of_lt_of_le hc h.fits
  obtain ⟨c, hck⟩ : ∃ c, l.chars[col]? = some c := ⟨_, List.getElem?_eq_getElem hcs⟩
  exact ⟨c, by simp [slot, hck], hck, bare_of_slot hck⟩

theorem LaidOut.cells_cleared (h : l.LaidOut lists free) (h' : l'.LaidOut (Function.update lists col []) free')
    (hcols : l'.cols = l.cols) (hb : l'.bare = l.bare) : l'.cells = l.cells.modify col Cell.cleared := by
  refine h.cells_modify h' hcols _ ?_ fun i _ hic => ?_
  · rw [Function.update_self]
    simp [cellOf, Cell.cleared, hb]
  · rw [Function.update_of_ne hic]
    exact cellOf_congr fun m _ => by rw [hb]

theorem clearCc_meets (h : l.Structured) (hc : col < l.cols) : Meets (l.clearCc col) (l.cells.modify col Cell.cleared) := by
  obtain ⟨lists, free, h⟩ := h
  obtain ⟨l', hr, h', hcols, -, hb⟩ := clearCc_spec h hc
  rw [hr]
  exact ⟨⟨_, _, h'⟩, h.cells_cleared h' hcols hb⟩

theorem addCc_meets (h : l.Structured) (hc : col < l.cols) (chr : UInt32) :
    Meets (l.addCc col chr) (l.cells.modify col (·.add chr)) := by
  obtain ⟨lists, free, h⟩ := h
  obtain ⟨c, hs, hck, hbc⟩ := h.slot_col hc
  have hchr : (l.cellOf col (lists col)).chr = c.chr := by simp [cellOf, hbc]
  have hlen : (l.cellOf col (lists col)).cc.length = (lists col).length := by simp [cellOf]
  have hwalk := walkCc_chain (h.chain col hc) CC_LIMIT
  unfold addCc
  rw [if_neg (by omega)]
  simp only [hs, bind, Except.bind]
  by_cases hrep : c.chr = replacementChar
  · rw [if_pos hrep]
    refine ⟨⟨_, _, h⟩, h.cells_modify h rfl _ ?_ fun _ _ _ => rfl⟩
    rw [Cell.add, if_pos (hchr.trans hrep)]
  · rw [if_neg hrep, hwalk]
    by_cases hlim : (lists col).length < CC_LIMIT
    · rw [if_pos hlim]
      rcases extendCc_spec h with hr | ⟨l₁, k, ks, hr, h₁, hcols₁, hsize, hb₁⟩
      · simp [hr, Meets]
      · obtain ⟨l₂, hr₂, h₂, hcols₂, hb₂, hbk⟩ := appendCc_spec h₁ (hcols₁ ▸ hc) hlim chr
        have hkeep : ∀ i < l.cols, ∀ m ∈ i :: lists i, l₂.bare m = l.bare m := by
          intro i hi m hm
          have hms : m < l.size := by
            rcases List.mem_cons.mp hm with rfl | hm
            · exact Nat.lt_of_lt_of_le hi h.fits
            · exact (h.mem_list hi hm).2
          have hmk : m ≠ k := by
            rintro rfl
            rcases List.mem_cons.mp hm with rfl | hm
            · have := (h₁.mem_free (m := m) (by simp)).1
              omega
            · exact h₁.slots.not_free (hcols₁ ▸ hi) hm List.mem_cons_self
          rw [hb₂ m hmk, hb₁ m hms]
        simp only [hr, hr₂, Meets]
        refine ⟨⟨_, _, h₂⟩, h.cells_modify h₂ (hcols₂.trans hcols₁) _ ?_ fun i hi hic => ?_⟩
        · have hadd : (l.cellOf col (lists col)).add chr =
              { l.cellOf col (lists col) with cc := (l.cellOf col (lists col)).cc ++ [chr] } := by
            rw [Cell.add, if_neg (hchr ▸ hrep), if_neg (by omega)]
          have hsame := cellOf_congr (hkeep col hc)
          have hcc := congrArg Cell.cc hsame
          have hcol : l₂.bare col = l.bare col := hkeep col hc col List.mem_cons_self
          rw [hadd, Function.update_self]
          simp only [cellOf, List.map_append, List.map_cons, List.map_nil, hbk, hcol] at hcc ⊢
          rw [hcc]
        · rw [Function.update_of_ne hic]
          exact cellOf_congr (hkeep i hi)
    · rw [if_neg hlim]
      obtain ⟨l₁, hr, h₁, hcols, hsize, hb⟩ := clearCc_spec h hc
      have hc₁ : col < l₁.cols := hcols ▸ hc
      obtain ⟨c₁, -, hck₁, -⟩ := h₁.slot_col hc₁
      have h₂ := h₁.modify_col hc₁ (fun c => { c with chr := replacementChar }) fun _ _ => rfl
      simp only [hr, Except.map, Meets]
      refine ⟨⟨_, _, h₂⟩, h.cells_modify h₂ hcols _ ?_ fun i hi hic => ?_⟩
      · rw [Function.update_self, Cell.add, if_neg (hchr ▸ hrep), if_pos (by omega)]
        have hbc₁ := bare_modify_self (fun c => { c with chr := replacementChar }) hck₁
        have hb₁ : l₁.bare col = { c₁ with ccNext := 0 } := bare_of_slot hck₁
        rw [hb] at hb₁
        simp only [cellOf, hbc₁, hb₁, List.map_nil]
      · rw [Function.update_of_ne hic]
        refine cellOf_congr fun m hm => ?_
        rw [bare_modify_of_ne _ ?_, hb]
        rcases List.mem_cons.mp hm with rfl | hm
        · exact hic
        · have := (h.mem_list hi hm).1
          omega

theorem Meets.cols {cells : List Cell} (h : l.cells = cells) : l.cols = cells.length := by rw [← h, length_cells]

theorem copyCcs_meets {src : Termline} {i : Nat} {js : List Nat} (h : Chain src.next i js) :
    ∀ fuel, js.length < fuel → ∀ l : Termline, l.Structured → col < l.cols →
      Meets (src.copyCcs col fuel i l) (l.cells.modify col fun c => (js.map fun j => (src.bare j).chr).foldl Cell.add c) := by
  induction h with
  | last h0 =>
    intro fuel hf l hl _
    obtain ⟨c, hs, hc, -⟩ := slot_of_next h0
    obtain ⟨n, rfl⟩ : ∃ n, fuel = n + 1 := ⟨fuel - 1, by simp at hf; omega⟩
    simp only [copyCcs, hs, hc, bind, Except.bind, if_true]
    exact ⟨hl, (List.modify_id _ _).symm⟩
  | @link i j d js hd hne hj hch ih =>
    intro fuel hf l hl hcol
    obtain ⟨c, hs, hc, -⟩ := slot_of_next hd
    obtain ⟨n, rfl⟩ : ∃ n, fuel = n + 1 := ⟨fuel - 1, by simp at hf; omega⟩
    obtain ⟨e, he⟩ := Option.isSome_iff_exists.mp (hch.isSome_of_mem j (by simp))
    obtain ⟨b, hbs, -, hbk⟩ := slot_of_next he
    have hchr : (src.bare j).chr = b.chr := by rw [bare_of_slot hbk]
    simp only [copyCcs, hs, hc, if_neg hne, hop_of_eq hj, hbs, bind, Except.bind, List.map_cons, List.foldl_cons, hchr]
    refine (addCc_meets hl hcol b.chr).bind fun l₁ h₁ hcells => ?_
    have hcols : l₁.cols = l.cols := by rw [Meets.cols hcells, List.length_modify, length_cells]
    have := ih n (by simpa using hf) l₁ h₁ (hcols ▸ hcol)
    rwa [hcells, List.modify_modify_eq] at this

/-! ## copy_termchar and move_termchar -/

theorem copyTermchar_meets {src : Termline} {i : Nat} (h : l.Structured) (hc : col < l.cols) (hs : src.Structured)
    (hi : i < src.cols) : Meets (l.copyTermchar col src i) (l.cells.set col (src.cells.getD i default).copied) := by
  obtain ⟨lists, free, h⟩ := h
  obtain ⟨slists, sfree, hs⟩ := hs
  obtain ⟨c, hsc, hck, hbc⟩ := hs.slot_col hi
  obtain ⟨l₁, hr, h₁, hcols, -, hb⟩ := clearCc_spec h hc
  have hc₁ : col < l₁.cols := hcols ▸ hc
  obtain ⟨c₁, -, hck₁, -⟩ := h₁.slot_col hc₁
  have hlink : c₁.ccNext = 0 := by
    have := h₁.chain col hc₁
    rw [Function.update_self] at this
    have hn := this.nil_iff.mp rfl
    rw [next, hck₁] at hn
    exact Option.some.inj hn
  have h₂ := h₁.modify_col hc₁ (fun _ => { c with ccNext := 0 }) fun c' hc' => by
    rw [hck₁] at hc'
    rw [← Option.some.inj hc', hlink]
  have hcell : src.cells.getD i default = src.cellOf i (slists i) := by
    simp [hs.cells_eq, List.getD_eq_getElem?_getD, List.getElem?_range hi]
  have hnew : (l₁.modify col fun _ => { c with ccNext := 0 }).cells =
      l.cells.modify col fun _ => (src.cellOf i (slists i)).cleared := by
    refine h.cells_modify h₂ hcols _ ?_ fun i hi hic => ?_
    · rw [Function.update_self]
      simp only [cellOf, Cell.cleared, bare_modify_self _ hck₁, hbc, List.map_nil]
    · rw [Function.update_of_ne hic]
      refine cellOf_congr fun m hm => ?_
      rw [bare_modify_of_ne _ ?_, hb]
      rcases List.mem_cons.mp hm with rfl | hm
      · exact hic
      · have := (h.mem_list hi hm).1
        omega
  unfold copyTermchar
  simp only [hr, bind, Except.bind, hsc]
  have hlen := hs.length_lt hi
  have := copyCcs_meets (hs.chain i hi) (src.size + 1) (by omega) _ ⟨_, _, h₂⟩ hc₁
  rw [hnew, List.modify_modify_eq] at this
  rw [hcell, List.set_eq_modify]
  exact this

theorem moveTermchar_meets {dest src : Nat} (h : l.Structured) (hd : dest < l.cols) (hs : src < l.cols) (hne : dest ≠ src) :
    Meets (l.moveTermchar dest src) ((l.cells.set dest (l.cells.getD src default)).modify src Cell.cleared) := by
  obtain ⟨lists, free, h⟩ := h
  obtain ⟨l₁, hr, h₁, hcols, hsize, hb⟩ := clearCc_spec h hd
  have hd₁ : dest < l₁.cols := hcols ▸ hd
  have hs₁ : src < l₁.cols := hcols ▸ hs
  obtain ⟨c, hsc, hck, hbc⟩ := h₁.slot_col hs₁
  obtain ⟨c₁, -, hck₁, -⟩ := h₁.slot_col hd₁
  have hlsrc : Function.update lists dest [] src = lists src := Function.update_of_ne (Ne.symm hne) _ _
  have hchain := h₁.chain src hs₁
  rw [hlsrc] at hchain
  have hcn : l₁.next src = some c.ccNext := by simp [next, hck]
  generalize hx : (if c.ccNext = 0 then 0 else c.ccNext - ((dest : Int) - src)) = x
  generalize hl' : ((l₁.modify dest fun _ => { c with ccNext := x }).setNext src 0) = l'
  have hnext : ∀ m, m ≠ dest → m ≠ src → l'.next m = l₁.next m := fun m h1 h2 => by
    rw [← hl', next_setNext_of_ne h2, next_modify_of_ne _ h1]
  have hnd : l'.next dest = some x := by
    rw [← hl', next_setNext_of_ne hne, next_modify_self _ hck₁]
  have hns : l'.next src = some 0 := by
    rw [← hl', next_setNext_self]
    rw [size_modify]
    exact Nat.lt_of_lt_of_le hs₁ h₁.fits
  have hcols' : l'.cols = l.cols := by rw [← hl']; exact hcols
  have hslot : ∀ m, l₁.cols ≤ m → l'.next m = l₁.next m := fun m hm => hnext m (by omega) (by omega)
  let lists' := Function.update (Function.update (Function.update lists dest []) src []) dest (lists src)
  have hshare : sharedOut l₁.cols (l₁.size - l₁.cols) lists' (lists dest ++ free) := by
    have hp : (Function.update lists dest [] src ++ (lists dest ++ free)).Perm ([] ++ (lists src ++ (lists dest ++ free))) := by rw [hlsrc, List.nil_append]
    have hgive := h₁.slots.deal hs₁ hp
    exact hgive.deal hd₁ (by rw [Function.update_of_ne hne, Function.update_self]; simp)
  have hdest : lists' dest = lists src := Function.update_self _ _ _
  have hsrc : lists' src = [] := by simp [lists', Function.update_of_ne (Ne.symm hne)]
  have hother : ∀ i, i ≠ dest → i ≠ src → lists' i = lists i := fun i h1 h2 => by
    simp [lists', Function.update_of_ne h1, Function.update_of_ne h2]
  have h' : l'.LaidOut lists' (lists dest ++ free) := by
    constructor
    · rw [hcols']; exact h.cols_pos
    · rw [← hl', size_setNext, size_modify]; exact h₁.fits
    · intro i hi
      rw [hcols'] at hi
      by_cases hid : i = dest
      · subst hid
        rw [hdest]
        cases hl : lists src with
        | nil =>
          rw [hl] at hchain
          have h0 := hchain.nil_iff.mp rfl
          rw [hcn] at h0
          exact .last (by rw [hnd, ← hx, if_pos (Option.some.inj h0)])
        | cons j js =>
          rw [hl] at hchain
          have hmem : ∀ m ∈ j :: js, l₁.cols ≤ m := fun m hm => (h₁.mem_list hs₁ (by rw [hlsrc, hl]; exact hm)).1
          have hjc := hmem j (by simp)
          refine hchain.relink (fun m hm => hslot m (hmem m hm)) hnd ?_ ?_
          all_goals
            cases hchain with
            | link hd' hne' hj' _ =>
              rw [hcn] at hd'
              cases hd'
              rw [← hx, if_neg hne']
              omega
      · by_cases his : i = src
        · subst his
          rw [hsrc]
          exact .last hns
        · rw [hother i hid his]
          have hch := h₁.chain i (hcols ▸ hi)
          rw [Function.update_of_ne hid] at hch
          refine hch.congr fun m hm => ?_
          rcases List.mem_cons.mp hm with rfl | hm
          · exact hnext m hid his
          · exact hslot m (hcols ▸ (h.mem_list hi hm).1)
    · have hcf : l'.ccFree = l₁.ccFree := by rw [← hl']; rfl
      have hfc := h₁.free_chain
      cases hf : lists dest ++ free with
      | nil => rw [hf] at hfc; exact hcf.trans hfc
      | cons j js =>
        rw [hf] at hfc
        exact ⟨hcf.trans hfc.1, hfc.2.congr fun m hm => hslot m (h₁.mem_free (by rw [hf]; exact hm)).1⟩
    · rw [← hl', size_setNext, size_modify]
      exact hshare
    · intro i hi
      rw [hcols'] at hi
      rw [hother i (by omega) (by omega)]
      exact h.beyond i hi
    · intro i
      by_cases hid : i = dest
      · rw [hid, hdest]; exact h.limit src
      · by_cases his : i = src
        · rw [his, hsrc]; exact Nat.zero_le _
        · rw [hother i hid his]; exact h.limit i
  have hbare : ∀ m, m ≠ dest → l'.bare m = l.bare m := fun m hm => by
    rw [← hl', bare_setNext, bare_modify_of_ne _ hm, hb]
  have hbd : l'.bare dest = l.bare src := by
    rw [← hl', bare_setNext, bare_modify_self _ hck₁, ← hb, hbc]
  have hccs : (lists src).map (fun j => (l'.bare j).chr) = (lists src).map fun j => (l.bare j).chr := by
    refine List.map_congr_left fun m hm => ?_
    rw [hbare m]
    have := (h.mem_list hs hm).1
    omega
  unfold moveTermchar
  simp only [hr, bind, Except.bind, hsc, hx, hl']
  refine ⟨⟨_, _, h'⟩, ?_⟩
  rw [h'.cells_eq, h.cells_eq, hcols']
  refine List.ext_getElem? fun i => ?_
  rw [List.getElem?_modify, List.getElem?_set, List.getElem?_map, List.getElem?_map]
  by_cases hi : i < l.cols
  · rw [List.getElem?_range hi]
    by_cases hid : i = dest
    · subst hid
      simp [hdest, cellOf, hbd, hccs, hi, Ne.symm hne, List.getD_eq_getElem?_getD, List.getElem?_range hs]
    · by_cases his : i = src
      · subst his
        simp [hsrc, hne, cellOf, Cell.cleared, hbare i hid]
      · have : l'.cellOf i (lists i) = l.cellOf i (lists i) := by
          refine cellOf_congr fun m hm => hbare m ?_
          rcases List.mem_cons.mp hm with rfl | hm
          · exact hid
          · have := (h.mem_list hi hm).1
            omega
        simp [hother i hid his, this, Ne.symm hid, Ne.symm his]
  · simp [Nat.le_of_not_lt hi]
    omega

/-! ## resizeline -/

theorem clearAll_spec (xs : List Nat) : ∀ (l : Termline) (lists : Nat → List Nat) (free : List Nat),
    l.LaidOut lists free → (∀ i ∈ xs, i < l.cols) → ∃ l' free', xs.foldlM clearCc l = .ok l' ∧
      l'.LaidOut (fun i => if i ∈ xs then [] else lists i) free' ∧ l'.cols = l.cols ∧ l'.size = l.size ∧ l'.bare = l.bare := by
  induction xs with
  | nil => exact fun l lists free h _ => ⟨l, free, rfl, by simpa using h, rfl, rfl, rfl⟩
  | cons x xs ih =>
    intro l lists free h hx
    obtain ⟨l₁, hr, h₁, hcols, hsize, hb⟩ := clearCc_spec h (hx x (by simp))
    obtain ⟨l₂, free₂, hr₂, h₂, hcols₂, hsize₂, hb₂⟩ := ih l₁ _ _ h₁ fun i hi => hcols ▸ hx i (List.mem_cons_of_mem _ hi)
    refine ⟨l₂, free₂, by simp only [List.foldlM_cons, hr, bind, Except.bind]; exact hr₂, ?_, hcols₂.trans hcols,
      hsize₂.trans hsize, hb₂.trans hb⟩
    convert h₂ using 1
    funext i
    by_cases hi : i = x
    · subst hi; simp
    · simp [hi]

section Resized

variable {erase : Blank} {cols : Nat}

@[simp] theorem cols_resized : (l.resized erase cols).cols = cols := rfl

theorem size_resized (h : l.cols ≤ l.size) : (l.resized erase cols).size = cols + (l.size - l.cols) := by
  unfold size at h ⊢
  simp only [resized, List.length_append, List.length_map, List.length_take, List.length_replicate, List.length_drop]
  omega

theorem resized_kept (h : l.cols ≤ l.size) {i : Nat} (hi : i < l.cols) (hic : i < cols) :
    (l.resized erase cols).chars[i]? = (l.chars[i]?).map (rebase ((cols : Int) - l.cols)) := by
  unfold size at h
  simp only [resized]
  rw [List.append_assoc, List.getElem?_append_left (by simp; omega), List.getElem?_map, List.getElem?_take_of_lt (by omega)]

theorem resized_new (h : l.cols ≤ l.size) {i : Nat} (hi : l.cols ≤ i) (hic : i < cols) :
    (l.resized erase cols).chars[i]? = some erase.char := by
  unfold size at h
  simp only [resized]
  rw [List.append_assoc, List.getElem?_append_right (by simp; omega), List.getElem?_append_left (by simp; omega)]
  rw [List.getElem?_replicate, if_pos (by simp; omega)]

theorem resized_cc (h : l.cols ≤ l.size) {m : Nat} (hm : l.cols ≤ m) :
    (l.resized erase cols).chars[m - l.cols + cols]? = l.chars[m]? := by
  unfold size at h
  simp only [resized]
  rw [List.getElem?_append_right (by simp; omega), List.getElem?_drop]
  congr 1
  simp
  omega

theorem next_resized_cc (h : l.cols ≤ l.size) {m : Nat} (hm : l.cols ≤ m) :
    (l.resized erase cols).next (m - l.cols + cols) = l.next m := by
  rw [next, next, resized_cc h hm]

theorem LaidOut.resized_spec (h : l.LaidOut lists free) (hpos : 0 < cols) (hgone : ∀ i, cols ≤ i → lists i = []) :
    (l.resized erase cols).LaidOut (fun i => (lists i).map (· - l.cols + cols)) (free.map (· - l.cols + cols)) := by
  have hfit := h.fits
  have hcols := h.cols_pos
  have hsize : (l.resized erase cols).size = cols + (l.size - l.cols) := size_resized hfit
  have hmove : ∀ {j js}, Chain l.next j js → (∀ m ∈ j :: js, l.cols ≤ m) →
      Chain (l.resized erase cols).next (j - l.cols + cols) (js.map (· - l.cols + cols)) :=
    fun hj hm => hj.shift hm fun m hmj => next_resized_cc hfit (hm m hmj)
  constructor
  · exact hpos
  · rw [hsize]; exact Nat.le_add_right _ _
  · intro i (hi : i < cols)
    by_cases hil : i < l.cols
    · have hch := h.chain i hil
      have hmem : ∀ m ∈ lists i, l.cols ≤ m := fun m hm => (h.mem_list hil hm).1
      have hn : (l.resized erase cols).chars[i]? = (l.chars[i]?).map (rebase ((cols : Int) - l.cols)) := resized_kept hfit hil hi
      cases hl : lists i with
      | nil =>
        rw [hl] at hch
        obtain ⟨c, -, hc, hck⟩ := slot_of_next (hch.nil_iff.mp rfl)
        exact .last (by rw [next, hn, hck]; simp [rebase, hc])
      | cons j js =>
        rw [hl] at hch hmem
        have hjc := hmem j (by simp)
        cases hch with
        | @link _ _ d _ hd hne hj hcj =>
          obtain ⟨c, -, hc, hck⟩ := slot_of_next hd
          have hnd : (l.resized erase cols).next i = some (d + ((cols : Int) - l.cols)) := by
            rw [next, hn, hck]
            simp [rebase, hc, hne]
          exact .link (j := j - l.cols + cols) hnd (by omega) (by omega) (hmove hcj hmem)
    · have hl : lists i = [] := h.beyond i (by omega)
      simp only [hl, List.map_nil]
      exact .last (by rw [next, resized_new hfit (by omega) hi]; simp [erase.no_cc])
  · cases hf : free with
    | nil =>
      have : l.ccFree = 0 := by have := h.free_chain; rwa [hf] at this
      simp [FreeChain, resized, this]
    | cons j js =>
      have hfc := h.free_chain
      rw [hf] at hfc
      have hmem : ∀ m ∈ j :: js, l.cols ≤ m := fun m hm => (h.mem_free (hf ▸ hm)).1
      have hjc := hmem j (by simp)
      refine ⟨?_, hmove hfc.2 hmem⟩
      simp only [resized, hfc.1]
      rw [if_neg (by omega)]
      omega
  · rw [hsize, cols_resized, Nat.add_sub_cancel_left]
    exact h.slots.shift cols hgone h.beyond
  · intro i hi
    rw [hgone i hi, List.map_nil]
  · intro i
    rw [List.length_map]
    exact h.limit i

theorem LaidOut.cells_resized (h : l.LaidOut lists free) (hpos : 0 < cols) (hgone : ∀ i, cols ≤ i → lists i = []) :
    (l.resized erase cols).cells = l.cells.take cols ++ List.replicate (cols - l.cols) erase.cell := by
  have hfit := h.fits
  have hspec : (l.resized erase cols).LaidOut _ _ := h.resized_spec hpos hgone
  rw [hspec.cells_eq, h.cells_eq]
  refine List.ext_getElem? fun i => ?_
  rw [List.getElem?_map, cols_resized]
  by_cases hi : i < cols
  · rw [List.getElem?_range hi, Option.map_some]
    by_cases hil : i < l.cols
    · rw [List.getElem?_append_left (by simp; omega), List.getElem?_take_of_lt hi, List.getElem?_map, List.getElem?_range hil]
      have hn : (l.resized erase cols).chars[i]? = (l.chars[i]?).map (rebase ((cols : Int) - l.cols)) := resized_kept hfit hil hi
      obtain ⟨c, -, hck, hbc⟩ := h.slot_col hil
      rw [hck, Option.map_some] at hn
      have hown : (l.resized erase cols).bare i = l.bare i := by
        rw [bare_of_slot hn, hbc]
        unfold rebase
        split <;> rfl
      have hcc : ∀ m ∈ lists i, (l.resized erase cols).bare (m - l.cols + cols) = l.bare m := fun m hm => by
        simp only [bare, List.getD_eq_getElem?_getD, resized_cc hfit (h.mem_list hil hm).1]
      have hmap : (lists i).map (fun m => ((l.resized erase cols).bare (m - l.cols + cols)).chr) =
          (lists i).map fun m => (l.bare m).chr := List.map_congr_left fun m hm => by rw [hcc m hm]
      rw [Option.map_some, cellOf, cellOf, hown, List.map_map]
      exact congrArg (fun cc => some (Cell.mk _ _ _ cc)) hmap
    · have hl : lists i = [] := h.beyond i (by omega)
      rw [List.getElem?_append_right (by simp; omega), List.getElem?_replicate, if_pos (by simp; omega)]
      simp only [cellOf, hl, List.map_nil, bare_of_slot (resized_new hfit (Nat.le_of_not_lt hil) hi)]
      rfl
  · rw [List.getElem?_eq_none (by simp; omega), List.getElem?_eq_none (by simp; omega)]
    rfl

theorem resizeline_meets (h : l.Structured) (hpos : 0 < cols) :
    Meets (l.resizeline erase cols) (l.cells.take cols ++ List.replicate (cols - l.cells.length) erase.cell) := by
  rw [length_cells]
  unfold resizeline
  by_cases heq : l.cols = cols
  · rw [if_pos heq]
    refine ⟨h, ?_⟩
    rw [List.take_of_length_le (by rw [length_cells]; omega), heq]
    simp
  · rw [if_neg heq]
    obtain ⟨lists, free, h⟩ := h
    obtain ⟨l₁, free₁, hr, h₁, hcols, -, hb⟩ := clearAll_spec (List.range' cols (l.cols - cols)) l lists free h fun i hi => by
      have := List.mem_range'_1.mp hi
      omega
    have hgone : ∀ i, cols ≤ i → (if i ∈ List.range' cols (l.cols - cols) then [] else lists i) = [] := by
      intro i hi
      by_cases hil : i < l.cols
      · rw [if_pos (List.mem_range'_1.mpr (by omega))]
      · rw [h.beyond i (by omega), ite_self]
    simp only [hr, bind, Except.bind]
    refine ⟨⟨_, _, h₁.resized_spec hpos hgone⟩, ?_⟩
    rw [h₁.cells_resized hpos hgone, hcols, h.cells_eq, h₁.cells_eq, hcols]
    congr 1
    rw [← List.map_take, ← List.map_take]
    refine List.map_congr_left fun i hi => ?_
    have hi : i < cols := by
      have := List.mem_take_iff_getElem.mp hi
      obtain ⟨j, hj, rfl⟩ := this
      rw [List.getElem_range]
      omega
    rw [if_neg (fun hm => ?_)]
    · exact cellOf_congr fun m _ => by rw [hb]
    · have := (List.mem_range'_1.mp hm).1
      omega

end Resized

end Ops

/-! ## Sequences of operations -/

inductive Op where
  | addCc (col : Nat) (chr : UInt32)
  | clearCc (col : Nat)
  | copyTermchar (x : Nat) (src : Termline) (i : Nat)
  | moveTermchar (dest src : Nat)
  | resizeline (erase : Blank) (cols : Nat)

/-- One operation of terminal.c on the line. -/
def Op.run (l : Termline) : Op → Except Fault Termline
  | .addCc col chr => l.addCc col chr
  | .clearCc col => l.clearCc col
  | .copyTermchar x src i => l.copyTermchar x src i
  | .moveTermchar dest src => l.moveTermchar dest src
  | .resizeline erase cols => l.resizeline erase cols

/-- What the operation is for: the cells of a line before and after it. -/
def Op.effect (cells : List Cell) : Op → List Cell
  | .addCc col chr => cells.modify col (·.add chr)
  | .clearCc col => cells.modify col Cell.cleared
  | .copyTermchar x src i => cells.set x (src.cells.getD i default).copied
  | .moveTermchar dest src => (cells.set dest (cells.getD src default)).modify src Cell.cleared
  | .resizeline erase cols => cells.take cols ++ List.replicate (cols - cells.length) erase.cell

/-- What the callers see to, on a line of `cols` columns. -/
def Op.Valid (cols : Nat) : Op → Prop
  | .addCc col _ | .clearCc col => col < cols
  | .copyTermchar x src i => x < cols ∧ src.Structured ∧ i < src.cols
  | .moveTermchar dest src => dest < cols ∧ src < cols ∧ dest ≠ src
  | .resizeline _ cols' => 0 < cols'

def Op.AllValid : List Cell → List Op → Prop
  | _, [] => True
  | cells, op :: ops => op.Valid cells.length ∧ Op.AllValid (op.effect cells) ops

theorem op_meets {l : Termline} (h : l.Structured) {op : Op} (hv : op.Valid l.cols) : Meets (op.run l) (op.effect l.cells) := by
  cases op with
  | addCc col chr => exact addCc_meets h hv chr
  | clearCc col => exact clearCc_meets h hv
  | copyTermchar x src i => exact copyTermchar_meets h hv.1 hv.2.1 hv.2.2
  | moveTermchar dest src => exact moveTermchar_meets h hv.1 hv.2.1 hv.2.2
  | resizeline erase cols => exact resizeline_meets h hv

theorem newtermline_structured (erase : Blank) {cols : Nat} (hc : 0 < cols) : (newtermline erase cols).Structured := by
  refine ⟨fun _ => [], [], hc, by simp [newtermline, size], fun i hi => ?_, rfl, ?_, fun _ _ => rfl, fun _ => Nat.zero_le _⟩
  · have hi : i < cols := hi
    exact .last (by simp [next, newtermline, hi, erase.no_cc])
  · simp [sharedOut, newtermline, size]

/-- Over any sequence of operations every slot stays in one place, no list grows over CC_LIMIT, and
    the columns show what the same operations make of a list of cells. -/
theorem cc_structure (ops : List Op) (l : Termline) (h : l.Structured) (hv : Op.AllValid l.cells ops) :
    Meets (ops.foldlM Op.run l) (ops.foldl Op.effect l.cells) := by
  induction ops generalizing l with
  | nil => exact ⟨h, rfl⟩
  | cons op ops ih =>
    have hvalid : op.Valid l.cols := by
      rw [← length_cells]
      exact hv.1
    have hstep := op_meets h hvalid
    rw [List.foldlM_cons, List.foldl_cons]
    refine hstep.bind fun l₁ h₁ hcells => ?_
    have hrest := ih l₁ h₁ (by rw [hcells]; exact hv.2)
    rwa [hcells] at hrest

theorem cc_structure_moved_list :
    let erase : Blank := ⟨⟨0x20, 0x20500, ⟨none, none⟩, 0⟩, rfl⟩
    Meets ([Op.addCc 0 0x301, .addCc 0 0x302, .moveTermchar 1 0, .resizeline erase 3].foldlM Op.run (newtermline erase 2))
      ([Op.addCc 0 0x301, .addCc 0 0x302, .moveTermchar 1 0, .resizeline erase 3].foldl Op.effect (newtermline erase 2).cells) := by
  intro erase
  exact cc_structure _ _ (newtermline_structured erase (by decide))
    (by simp [Op.AllValid, Op.Valid, Op.effect, newtermline, length_cells])

/-! ## cc_check -/

/-- The inner loop of cc_check: flag what the list from slot `i` on goes through. -/
def markCc (l : Termline) : Nat → Nat → List Bool → Except Fault (List Bool)
  | 0, _, _ => .error .endless
  | fuel + 1, i, flags => do
    let c ← l.slot i
    if c.ccNext = 0 then .ok flags
    else do
      let j ← hop i c.ccNext
      if l.cols ≤ j ∧ j < l.size ∧ flags.getD j true = false then l.markCc fuel j (flags.set j true)
      else .error .assertion

def markFree (l : Termline) (flags : List Bool) : Except Fault (List Bool) :=
  let j := l.ccFree
  if j = 0 then .ok flags
  else if l.cols ≤ j ∧ j < l.size ∧ flags.getD j true = false then l.markCc (l.size + 1) j (flags.set j true)
  else .error .assertion

def ccCheck (l : Termline) : Except Fault Unit :=
  if l.size < l.cols then .error .assertion
  else do
    let flags := (List.range l.size).map fun i => decide (i < l.cols)
    let flags ← (List.range l.cols).foldlM (fun flags i => l.markCc (l.size + 1) i flags) flags
    let flags ← l.markFree flags
    if (flags.filter id).length = l.size then .ok () else .error .assertion

section Check

variable {l : Termline} {lists : Nat → List Nat} {free : List Nat}

/-- The flags when the columns and `seen` have been flagged. -/
def flagged (l : Termline) (seen : List Nat) : List Bool := (List.range l.size).map fun k => decide (k < l.cols ∨ k ∈ seen)

end Check

end Termline

end Putty.Terminal
