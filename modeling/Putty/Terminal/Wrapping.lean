/-
  Putty.Terminal.Wrapping — what printed text looks like on the screen, with autowrap on
  (`Putty.Terminal.Display`).

  A glyph is a character with its combining characters, and takes one cell or two. While text
  is printed from column 0 on, the lines that are full are marked as wrapped, and their cells,
  less the space of a line that is marked with LATTR_WRAPPED2, together with the cells of the
  current line are the cells of the glyphs (`Laid`). What is right of the cursor does not
  matter, and what was left of it before is not touched: only a wide character that
  check_boundary splits could change it.
-/

import Putty.Terminal.Display
import Putty.Terminal.Erase

namespace Putty.Terminal

/-! ## Flags -/

section Flags

variable (a f g : UInt16)

theorem or_and_self : (a ||| f) &&& f = f := by
  apply UInt16.eq_of_toBitVec_eq
  simp only [UInt16.toBitVec_and, UInt16.toBitVec_or]
  ext i
  simp only [BitVec.getElem_and, BitVec.getElem_or]
  cases f.toBitVec[i] <;> simp

theorem or_and_of_disjoint (h : f &&& g = 0) : (a ||| f) &&& g = a &&& g := by
  apply UInt16.eq_of_toBitVec_eq
  have hbits : f.toBitVec &&& g.toBitVec = 0#16 := congrArg UInt16.toBitVec h
  simp only [UInt16.toBitVec_and, UInt16.toBitVec_or]
  ext i hi
  have hbit := congrArg (·[i]) hbits
  simp only [BitVec.getElem_and, BitVec.getElem_or, BitVec.getElem_zero] at hbit ⊢
  cases hg : g.toBitVec[i] <;> simp [hg] at hbit ⊢
  simp [hbit]

end Flags

namespace Line

/-- The line is marked as one that wraps before a wide character. -/
def padded (l : Line) : Bool := l.lattr &&& LATTR_WRAPPED2 != 0

def unpadded (l : Line) : Line := { l with lattr := l.lattr &&& ~~~LATTR_WRAPPED2 }

theorem padded_unpadded (l : Line) : l.unpadded.padded = false := by
  simp only [padded, unpadded]
  rw [UInt16.and_assoc]
  simp [LATTR_WRAPPED2]

end Line

namespace TermState

/-! ## The state at a line -/

/-- The number of columns that text can use. -/
def usable (t : TermState) : Nat := if t.trusted then t.cols - TRUST_SIGIL_WIDTH else t.cols

/-- The terminal with these lines, and the cursor on the one between. -/
def on (t : TermState) (pre : List Line) (l : Line) (post : List Line) (x : Int) (wrapnext : Bool) : TermState :=
  withScreen { t with curs := ⟨pre.length, x⟩, wrapnext := wrapnext } (pre ++ l :: post)

section On

variable {t : TermState} {pre post : List Line} {l l' : Line} {x : Int} {wn : Bool}

@[simp] theorem on_curs : (t.on pre l post x wn).curs = ⟨pre.length, x⟩ := rfl
@[simp] theorem on_wrapnext : (t.on pre l post x wn).wrapnext = wn := rfl
@[simp] theorem on_cols : (t.on pre l post x wn).cols = t.cols := rfl
@[simp] theorem on_rows : (t.on pre l post x wn).rows = t.rows := rfl
@[simp] theorem on_margB : (t.on pre l post x wn).margB = t.margB := rfl
@[simp] theorem on_eraseChar : (t.on pre l post x wn).eraseChar = t.eraseChar := rfl

theorem on_modLine (f : Line → Line) : (t.on pre l post x wn).modLine pre.length f = some (t.on pre (f l) post x wn) :=
  modLine_at pre post l f rfl

theorem on_scrlineptr : (t.on pre l post x wn).scrlineptr pre.length = some (t.on pre (t.widen l) post x wn) := on_modLine _

theorem on_cline : (t.on pre l post x wn).cline = some l := by
  simp [cline, on, withScreen]

/-- What check_boundary does to the line. -/
def boundary (t : TermState) (x : Int) (l : Line) : Line :=
  if x ≤ 0 ∨ x > t.cols then l
  else
    let l := t.checkLineSize (t.checkTrustStatus (t.widen l))
    if x = t.cols then l.unpadded else splitWide x.toNat l

theorem on_checkBoundary (x' : Int) :
    (t.on pre l post x wn).checkBoundary x' pre.length = some (t.on pre (t.boundary x' l) post x wn) := by
  unfold checkBoundary boundary
  by_cases hx : x' ≤ 0 ∨ x' > t.cols
  · rw [if_pos hx, if_pos (by simpa using hx)]
  · rw [if_neg hx, if_neg (by simpa using hx), on_scrlineptr, Option.bind_some, on_modLine]
    rfl

theorem on_checkBoundaries (w : Int) : (t.on pre l post x wn).checkBoundaries w =
    some (t.on pre (t.boundary (x + w) (t.boundary x l)) post x wn) := by
  unfold checkBoundaries
  simp only [on_curs]
  rw [on_checkBoundary, Option.bind_some]
  exact on_checkBoundary _

theorem on_nextRow (hm : (pre.length : Int) ≠ t.margB) (hr : pre.length + 1 < t.rows) :
    (t.on pre l (l' :: post) x wn).nextRow = some (t.on (pre ++ [l]) l' post x wn) := by
  unfold nextRow
  rw [if_neg (by simpa using hm), if_pos (by simp only [on_curs, on_rows]; omega)]
  simp [on, withScreen]

theorem on_wrapRow (flags : UInt16) (hm : (pre.length : Int) ≠ t.margB) (hr : pre.length + 1 < t.rows) :
    (t.on pre l (l' :: post) x wn).wrapRow flags = some (t.on (pre ++ [{ l with lattr := l.lattr ||| flags }]) l' post 0 wn) := by
  unfold wrapRow
  simp only [on_curs]
  rw [on_modLine, Option.bind_some, on_nextRow hm hr]
  rfl

theorem on_putCell (m : DisplayMode) (c : UInt32) :
    (t.on pre l post x wn).putCell m c = some (t.on pre { l with cells := l.cells.set x.toNat (m.cell c) } post x wn) := by
  unfold putCell
  simp only [on_curs]
  exact on_modLine _

theorem on_right : (t.on pre l post x wn).right = t.on pre l post (x + 1) wn := rfl

/-- What insch does to the line, for `n` characters to insert. -/
def inserted (t : TermState) (x n : Nat) (l : Line) : Line :=
  let k := min n (t.cols - x)
  (t.checkTrustStatus (t.widen (t.boundary x l))).insertChars t.eraseChar x k (t.cols - x - k)

theorem on_insch {x : Nat} (n : Nat) :
    (t.on pre l post x wn).insch n = some (t.on pre (t.inserted x n l) post x wn) := by
  have hn : ¬ (n : Int) < 0 := by omega
  have hleft : ((t.cols : Int) - x).toNat = t.cols - x := by omega
  unfold insch
  simp only [on_curs, on_cols, if_neg hn, hleft, Int.natAbs_natCast]
  rw [on_checkBoundary, Option.bind_some, Option.bind_some]
  simp only [on_curs]
  rw [on_scrlineptr, Option.bind_some]
  exact on_modLine _

end On

/-! ## A line in progress -/

/-- On a trusted line the flag is not there; check_boundary would not clear it. -/
def NoStale (t : TermState) (l : Line) : Prop := t.trusted = true → l.trusted = true → l.padded = false

/-- The line shows these cells, and the next cell is not the right half of a character. -/
structure Holds (t : TermState) (cur : List Cell) (l : Line) : Prop where
  trusted : l.trusted = t.trusted
  length : l.cells.length = t.cols
  cells : l.cells.take cur.length = cur
  boundary : ∀ c, l.cells[cur.length]? = some c → c.chr ≠ UCSWIDE

/-- A line that text has been printed to; one that it has not is as it was. -/
structure Ready (t : TermState) (cur : List Cell) (l : Line) : Prop where
  holds : cur ≠ [] → t.Holds cur l
  fresh : t.NoStale l
  full : cur.length = t.usable → l.padded = false

/-- The line after check_boundary has been called for column `k`, behind a new character. -/
structure Prepared (t : TermState) (cur : List Cell) (k : Nat) (l : Line) : Prop where
  trusted : l.trusted = t.trusted
  length : l.cells.length = t.cols
  cells : l.cells.take cur.length = cur
  boundary : ∀ c, l.cells[k]? = some c → c.chr ≠ UCSWIDE
  fresh : t.NoStale l
  edge : k = t.cols → l.padded = false

section Lines

variable {t : TermState} {cur : List Cell} {l : Line} {k n : Nat}

theorem usable_le : t.usable ≤ t.cols := by
  unfold usable
  split <;> omega

theorem ready_nil (hu : 0 < t.usable) : t.Ready [] l ↔ t.NoStale l :=
  ⟨fun h => h.fresh, fun h => ⟨fun hne => absurd rfl hne, h, fun he => by simp at he; omega⟩⟩

/-- What leaves a line as it is once there is text on it. -/
theorem Ready.of_fixed (h : t.Ready cur l) (hu : 0 < t.usable) {f : Line → Line} (hs : t.NoStale (f l))
    (hf : t.Holds cur l → cur ≠ [] → f l = l) : t.Ready cur (f l) := by
  by_cases hc : cur = []
  · subst hc
    exact (ready_nil hu).mpr hs
  · rw [hf (h.holds hc) hc]
    exact h

theorem Holds.widen_eq (h : t.Holds cur l) : t.widen l = l := by
  rw [widen, Line.cols, if_neg (by rw [h.length]; omega)]

theorem Holds.checkTrustStatus_eq (h : t.Holds cur l) : t.checkTrustStatus l = l := by
  rw [checkTrustStatus, if_neg (by simp [h.trusted])]

theorem widen_lattr (l : Line) : (t.widen l).lattr = l.lattr ∧ (t.widen l).trusted = l.trusted := by
  unfold widen
  split <;> exact ⟨rfl, rfl⟩

theorem checkLineSize_lattr (l : Line) : (t.checkLineSize l).lattr = l.lattr := by
  unfold checkLineSize
  split <;> rfl

theorem NoStale.widen (h : t.NoStale l) : t.NoStale (t.widen l) := by
  unfold NoStale Line.padded
  rw [(widen_lattr l).1, (widen_lattr l).2]
  exact h

theorem NoStale.checkTrustStatus (h : t.NoStale l) : t.NoStale (t.checkTrustStatus l) := by
  unfold TermState.checkTrustStatus
  split
  · intro _ _
    simp [Line.padded, clearLine, LATTR_NORM]
  · exact h

theorem Ready.widen (h : t.Ready cur l) (hu : 0 < t.usable) : t.Ready cur (t.widen l) :=
  h.of_fixed hu h.fresh.widen fun hh _ => hh.widen_eq

theorem Ready.checkTrustStatus (h : t.Ready cur l) (hu : 0 < t.usable) : t.Ready cur (t.checkTrustStatus l) :=
  h.of_fixed hu h.fresh.checkTrustStatus fun hh _ => hh.checkTrustStatus_eq

/-! ### splitWide -/

theorem splitWide_attrs (k : Nat) (l : Line) : (splitWide k l).lattr = l.lattr ∧ (splitWide k l).trusted = l.trusted ∧
    (splitWide k l).cells.length = l.cells.length := by
  unfold splitWide
  split
  · split
    · exact ⟨rfl, rfl, by simp⟩
    · exact ⟨rfl, rfl, rfl⟩
  · exact ⟨rfl, rfl, rfl⟩

theorem splitWide_take (hk : 0 < k) (hn : n < k) : (splitWide k l).cells.take n = l.cells.take n := by
  unfold splitWide
  split
  · split
    · rw [List.take_set_of_le (by omega), List.take_set_of_le (by omega)]
    · rfl
  · rfl

theorem splitWide_boundary : ∀ c, (splitWide k l).cells[k]? = some c → c.chr ≠ UCSWIDE := by
  intro c hc
  unfold splitWide at hc
  cases hl : l.cells[k]? with
  | none => simp [hl] at hc
  | some d =>
    have hlt : k < l.cells.length := (List.getElem?_eq_some_iff.mp hl).1
    simp only [hl] at hc
    split at hc
    · rw [List.getElem?_set_self (by simpa using hlt)] at hc
      obtain rfl := Option.some.inj hc
      show CSET_ASCII ||| 0x20 ≠ UCSWIDE
      decide
    · rw [hl] at hc
      obtain rfl := Option.some.inj hc
      assumption

/-! ### check_boundary -/

theorem boundary_at (hk : 0 < k) (hkc : k ≤ t.cols) (l : Line) : t.boundary k l =
    if k = t.cols then (t.checkLineSize (t.checkTrustStatus (t.widen l))).unpadded
    else splitWide k (t.checkLineSize (t.checkTrustStatus (t.widen l))) := by
  unfold TermState.boundary
  rw [if_neg (by omega)]
  simp only [Int.toNat_natCast, Nat.cast_inj]

theorem Holds.sized_eq (h : t.Holds cur l) : t.checkLineSize (t.checkTrustStatus (t.widen l)) = l := by
  rw [h.widen_eq, h.checkTrustStatus_eq, checkLineSize_of_length h.length]

theorem Holds.boundary_eq (h : t.Holds cur l) (hc : cur ≠ []) (hx : cur.length < t.cols) : t.boundary cur.length l = l := by
  rw [boundary_at (List.length_pos_iff.mpr hc) hx.le, if_neg (by omega), h.sized_eq]
  unfold splitWide
  split
  · next c hcell => rw [if_neg (h.boundary c hcell)]
  · rfl

/-- The boundary before the cursor. -/
theorem Ready.boundary (h : t.Ready cur l) (hx : cur.length < t.cols) : t.Ready cur (t.boundary cur.length l) := by
  by_cases hc : cur = []
  · subst hc
    simpa [TermState.boundary] using h
  · rw [(h.holds hc).boundary_eq hc hx]
    exact h

/-- The boundary behind a new character. -/
theorem Ready.prepared (h : t.Ready cur l) (hk : cur.length < k) (hkc : k ≤ t.cols) : t.Prepared cur k (t.boundary k l) := by
  rw [boundary_at (by omega) hkc]
  have htrust : (t.checkLineSize (t.checkTrustStatus (t.widen l))).trusted = t.trusted := by
    rw [checkLineSize_trusted, checkTrustStatus_trusted]
  have hlen : (t.checkLineSize (t.checkTrustStatus (t.widen l))).cells.length = t.cols := checkLineSize_cols _
  have hcells : (t.checkLineSize (t.checkTrustStatus (t.widen l))).cells.take cur.length = cur := by
    by_cases hc : cur = []
    · simp [hc]
    · rw [(h.holds hc).sized_eq, (h.holds hc).cells]
  have hfresh : t.NoStale (t.checkLineSize (t.checkTrustStatus (t.widen l))) := by
    have hs := h.fresh.widen.checkTrustStatus
    unfold NoStale Line.padded at hs ⊢
    rw [checkLineSize_trusted, checkLineSize_lattr]
    exact hs
  by_cases hke : k = t.cols
  · rw [if_pos hke]
    have hpad := Line.padded_unpadded (t.checkLineSize (t.checkTrustStatus (t.widen l)))
    refine ⟨htrust, hlen, hcells, fun c hc => ?_, fun _ _ => hpad, fun _ => hpad⟩
    rw [List.getElem?_eq_none (by simp only [Line.unpadded, hlen]; omega)] at hc
    cases hc
  · rw [if_neg hke]
    have hattrs := splitWide_attrs k (t.checkLineSize (t.checkTrustStatus (t.widen l)))
    refine ⟨hattrs.2.1.trans htrust, hattrs.2.2.trans hlen, ?_, splitWide_boundary, ?_, fun he => absurd he hke⟩
    · rw [splitWide_take (by omega) hk, hcells]
    · unfold NoStale Line.padded at hfresh ⊢
      rw [hattrs.1, hattrs.2.1]
      exact hfresh

/-- The same cells up to the next one, and the same flags. -/
theorem Ready.congr {l' : Line} (h : t.Ready cur l) (ht : l'.trusted = l.trusted) (hl : l'.cells.length = l.cells.length)
    (hc : l'.cells.take (cur.length + 1) = l.cells.take (cur.length + 1)) (hp : l'.padded = true → l.padded = true) :
    t.Ready cur l' := by
  have hpad : l.padded = false → l'.padded = false := fun hn => by
    cases hb : l'.padded with
    | false => rfl
    | true => rw [hp hb] at hn; exact hn
  refine ⟨fun hne => ?_, fun htt hlt => hpad (h.fresh htt (ht ▸ hlt)), fun he => hpad (h.full he)⟩
  have hh := h.holds hne
  have hget : l'.cells[cur.length]? = l.cells[cur.length]? := by
    rw [← List.getElem?_take_of_lt (Nat.lt_succ_self _), hc, List.getElem?_take_of_lt (Nat.lt_succ_self _)]
  refine ⟨ht.trans hh.trusted, hl.trans hh.length, ?_, fun c hcell => hh.boundary c (hget ▸ hcell)⟩
  have htake := congrArg (List.take cur.length) hc
  rw [List.take_take, List.take_take, Nat.min_eq_left (Nat.le_succ _)] at htake
  exact htake.trans hh.cells

/-- A boundary further right leaves the text and the next cell. -/
theorem Ready.boundary_beyond (h : t.Ready cur l) (hc : cur ≠ []) (hk : cur.length + 1 < k) : t.Ready cur (t.boundary k l) := by
  have hh := h.holds hc
  by_cases hkc : k ≤ t.cols
  · rw [boundary_at (by omega) hkc, hh.sized_eq]
    split
    · exact h.congr rfl rfl rfl fun hp => by rw [Line.padded_unpadded] at hp; cases hp
    · have hattrs := splitWide_attrs k l
      exact h.congr hattrs.2.1 hattrs.2.2 (splitWide_take (by omega) hk) fun hp => by
        rw [Line.padded, hattrs.1] at hp
        exact hp
  · unfold TermState.boundary
    rw [if_pos (.inr (by omega))]
    exact h

/-! ### Inserting -/

/-- The flags and the cells before column `x` are the same. -/
structure Before (x : Nat) (l l' : Line) : Prop where
  lattr : l'.lattr = l.lattr
  trusted : l'.trusted = l.trusted
  length : l'.cells.length = l.cells.length
  cells : l'.cells.take x = l.cells.take x

theorem Before.refl (x : Nat) (l : Line) : Before x l l := ⟨rfl, rfl, rfl, rfl⟩

theorem Before.trans {x : Nat} {l l' l'' : Line} (h : Before x l l') (h' : Before x l' l'') : Before x l l'' :=
  ⟨h'.lattr.trans h.lattr, h'.trusted.trans h.trusted, h'.length.trans h.length, h'.cells.trans h.cells⟩

theorem before_move {x dest src : Nat} (hd : x ≤ dest) (hs : x ≤ src) (l : Line) : Before x l (l.move dest src) := by
  refine ⟨rfl, rfl, by simp [Line.move], ?_⟩
  simp only [Line.move]
  rw [List.take_modify, List.take_set_of_le hd, List.modify_eq_self (by simp; omega)]

theorem before_erase {x i : Nat} (hi : x ≤ i) (l : Line) (b : Blank) : Before x l (l.erase i b) :=
  ⟨rfl, rfl, by simp [Line.erase], by simp only [Line.erase]; rw [List.take_set_of_le hi]⟩

theorem before_foldl {x : Nat} (f : Line → Nat → Line) (hf : ∀ l j, Before x l (f l j)) (js : List Nat) :
    ∀ l, Before x l (js.foldl f l) := by
  induction js with
  | nil => exact Before.refl x
  | cons j js ih => exact fun l => (hf l j).trans (ih _)

theorem before_insertChars (b : Blank) (x n m : Nat) (l : Line) : Before x l (l.insertChars b x n m) := by
  unfold Line.insertChars
  exact (before_foldl _ (fun l j => before_move (by omega) (by omega) l) _ l).trans
    (before_foldl _ (fun l j => before_erase (by omega) l b) _ _)

/-- The first new character is a space. -/
theorem insertChars_first (b : Blank) {x n : Nat} (m : Nat) (hn : 0 < n) {l : Line} (hx : x < l.cells.length) :
    (l.insertChars b x n m).cells[x]? = some b.cell := by
  obtain ⟨n, rfl⟩ : ∃ k, n = k + 1 := ⟨n - 1, by omega⟩
  unfold Line.insertChars
  have hmoved := before_foldl (fun l j => Line.move l (x + j + (n + 1)) (x + j))
    (fun l j => before_move (x := x) (by omega) (by omega) l) (List.range m).reverse l
  have herased := before_foldl (fun l j => Line.erase l (x + j) b) (fun l j => before_erase (x := x) (by omega) l b)
    ((List.range n).map Nat.succ).reverse ((List.range m).reverse.foldl (fun l j => Line.move l (x + j + (n + 1)) (x + j)) l)
  rw [List.range_succ_eq_map, List.reverse_cons, List.foldl_append]
  simp only [List.foldl_cons, List.foldl_nil, Line.erase, Nat.add_zero] at herased ⊢
  rw [List.getElem?_set_self (by rw [herased.length, hmoved.length]; exact hx)]

/-- Inserted characters are right of the text. -/
theorem Ready.inserted (h : t.Ready cur l) (hu : 0 < t.usable) (hx : cur.length < t.cols) (hn : 0 < n)
    (he : t.eraseChar.char.chr ≠ UCSWIDE) : t.Ready cur (t.inserted cur.length n l) := by
  have h₁ := ((h.boundary hx).widen hu).checkTrustStatus hu
  unfold TermState.inserted
  have hb := before_insertChars t.eraseChar cur.length (min n (t.cols - cur.length))
    (t.cols - cur.length - min n (t.cols - cur.length)) (t.checkTrustStatus (t.widen (t.boundary cur.length l)))
  have hpad : (Line.insertChars t.eraseChar cur.length (min n (t.cols - cur.length))
      (t.cols - cur.length - min n (t.cols - cur.length)) (t.checkTrustStatus (t.widen (t.boundary cur.length l)))).padded =
      (t.checkTrustStatus (t.widen (t.boundary cur.length l))).padded := by
    rw [Line.padded, hb.lattr, Line.padded]
  refine ⟨fun hne => ?_, fun htt hlt => ?_, fun he => hpad.trans (h₁.full he)⟩
  · have hh := h₁.holds hne
    refine ⟨hb.trusted.trans hh.trusted, hb.length.trans hh.length, hb.cells.trans hh.cells, fun c hc => ?_⟩
    rw [insertChars_first t.eraseChar _ (by omega) (by rw [hh.length]; exact hx)] at hc
    obtain rfl := Option.some.inj hc
    exact he
  · exact hpad.trans (h₁.fresh htt (hb.trusted ▸ hlt))

/-! ### New characters -/

theorem take_set_last {cells : List Cell} {x : Nat} (hx : x < cells.length) (c : Cell) :
    (cells.set x c).take (x + 1) = cells.take x ++ [c] := by
  rw [List.take_add_one, List.take_set_of_le (Nat.le_refl x), List.getElem?_set_self hx]
  rfl

/-- The cells of a new character, once they are there. -/
theorem Prepared.put (h : t.Prepared cur k l) {new cells : List Cell} (hk : cur.length + new.length = k)
    (hlen : cells.length = l.cells.length) (hnew : cells.take k = cur ++ new) (hnext : cells[k]? = l.cells[k]?) :
    t.Ready (cur ++ new) { l with cells := cells } := by
  have hcount : (cur ++ new).length = k := by rw [List.length_append, hk]
  refine ⟨fun _ => ⟨h.trusted, hlen.trans h.length, by rw [hcount, hnew], fun c hc => ?_⟩, h.fresh, fun he => ?_⟩
  · rw [hcount] at hc
    exact h.boundary c (hnext ▸ hc)
  · cases htt : t.trusted with
    | true => exact h.fresh htt (h.trusted.trans htt)
    | false =>
      refine h.edge ?_
      rw [← hcount, he, usable, htt]
      rfl

theorem Prepared.putNarrow (h : t.Prepared cur (cur.length + 1) l) (hx : cur.length < t.cols) (c : Cell) :
    t.Ready (cur ++ [c]) { l with cells := l.cells.set cur.length c } := by
  refine h.put rfl (by simp) ?_ ?_
  · rw [take_set_last (by rw [h.length]; exact hx), h.cells]
  · rw [List.getElem?_set_ne (by omega)]

theorem Prepared.putWide (h : t.Prepared cur (cur.length + 2) l) (hx : cur.length + 1 < t.cols) (c d : Cell) :
    t.Ready (cur ++ [c, d]) { l with cells := (l.cells.set cur.length c).set (cur.length + 1) d } := by
  refine h.put rfl (by simp) ?_ ?_
  · rw [take_set_last (by rw [List.length_set, h.length]; exact hx), take_set_last (by rw [h.length]; omega), h.cells,
      List.append_assoc]
    rfl
  · rw [List.getElem?_set_ne (by omega), List.getElem?_set_ne (by omega)]

/-- A change to a cell of the text. -/
theorem Ready.modify {a b : List Cell} {c : Cell} (h : t.Ready (a ++ c :: b) l) (f : Cell → Cell) :
    t.Ready (a ++ f c :: b) { l with cells := l.cells.modify a.length f } := by
  have hne : a ++ c :: b ≠ [] := by simp
  have hh := h.holds hne
  have hcount : (a ++ f c :: b).length = (a ++ c :: b).length := by simp
  refine ⟨fun _ => ⟨hh.trusted, by simpa using hh.length, ?_, fun d hd => ?_⟩, h.fresh, fun he => h.full (hcount ▸ he)⟩
  · have hmod : (a ++ c :: b).modify a.length f = a ++ f c :: b := by
      rw [List.modify_eq_take_cons_drop (by simp)]
      simp
    rw [hcount, ← hmod, List.take_modify, hh.cells]
  · have hlt : a.length ≠ (a ++ c :: b).length := by simp
    have hd : (l.cells.modify a.length f)[(a ++ c :: b).length]? = some d := hcount ▸ hd
    rw [List.getElem?_modify, Option.map_eq_map, Option.map_eq_some_iff] at hd
    obtain ⟨e, hcell, rfl⟩ := hd
    rw [if_neg hlt]
    exact hh.boundary e hcell

end Lines

/-! ## Full lines -/

/-- The cells of a wrapped line that are text. -/
def textOf (t : TermState) (l : Line) : List Cell := l.cells.take (t.usable - if l.padded then 1 else 0)

structure Wrapped (t : TermState) (l : Line) : Prop where
  trusted : l.trusted = t.trusted
  length : l.cells.length = t.cols
  wrapped : l.lattr &&& LATTR_WRAPPED ≠ 0

section Rows

variable {t : TermState} {cur : List Cell} {l l₂ : Line} {pre post : List Line} {m : DisplayMode} {c : UInt32} {width : Nat}

theorem wrapped_full (h : t.Ready cur l) (hu : 0 < t.usable) (hc : cur.length = t.usable) :
    t.Wrapped { l with lattr := l.lattr ||| LATTR_WRAPPED } ∧
      t.textOf { l with lattr := l.lattr ||| LATTR_WRAPPED } = cur := by
  have hh := h.holds (List.ne_nil_of_length_pos (by omega))
  have hpad : ({ l with lattr := l.lattr ||| LATTR_WRAPPED } : Line).padded = false := by
    rw [Line.padded, or_and_of_disjoint _ _ _ (by decide)]
    exact h.full hc
  refine ⟨⟨hh.trusted, hh.length, ?_⟩, ?_⟩
  · simp only [or_and_self]
    decide
  · rw [textOf, hpad, ← hc]
    exact hh.cells

/-- A line whose last column is left to a space. -/
theorem wrapped_padded (h : t.Ready cur l) (hne : cur ≠ []) (hc : cur.length + 1 = t.usable) (b : Blank) :
    t.Wrapped { l.erase cur.length b with lattr := l.lattr ||| (LATTR_WRAPPED ||| LATTR_WRAPPED2) } ∧
      t.textOf { l.erase cur.length b with lattr := l.lattr ||| (LATTR_WRAPPED ||| LATTR_WRAPPED2) } = cur := by
  have hh := h.holds hne
  have hpad : ({ l.erase cur.length b with lattr := l.lattr ||| (LATTR_WRAPPED ||| LATTR_WRAPPED2) } : Line).padded = true := by
    rw [Line.padded, ← UInt16.or_assoc, or_and_self]
    decide
  refine ⟨⟨hh.trusted, (by simpa [Line.erase] using hh.length), ?_⟩, ?_⟩
  · simp only [LATTR_WRAPPED2, ← UInt16.or_assoc]
    rw [or_and_of_disjoint _ _ _ (by decide), or_and_self]
    decide
  · rw [textOf, hpad, ← hc]
    simp only [if_true, Nat.add_sub_cancel, Line.erase]
    rw [List.take_set_of_le (Nat.le_refl _), hh.cells]

/-! ## One character -/

/-- The cells of a character and its combining characters. -/
def glyphCells (m : DisplayMode) (width : Nat) (c : UInt32) (marks : List UInt32) : List Cell :=
  { m.cell c with cc := marks } :: if width = 2 then [m.cell UCSWIDE] else []

theorem on_linecols (hl : l.trusted = t.trusted) (hu : 0 < t.usable) {x : Int} {wn : Bool} :
    (t.on pre l₂ post x wn).linecols l = t.usable := by
  unfold linecols usable at *
  rw [on_cols, hl]
  split at hu <;> simp_all
  omega

/-- What the line has gone through before the character is written. -/
def arrived (t : TermState) (m : DisplayMode) (x n : Nat) (l : Line) : Line :=
  t.checkTrustStatus (if m.insert then t.inserted x n l else l)

theorem Ready.arrived (h : t.Ready cur l) (hu : 0 < t.usable) (hx : cur.length < t.cols) {n : Nat} (hn : 0 < n)
    (he : t.eraseChar.char.chr ≠ UCSWIDE) : t.Ready cur (t.arrived m cur.length n l) := by
  unfold TermState.arrived
  split
  · exact (h.inserted hu hx hn he).checkTrustStatus hu
  · exact h.checkTrustStatus hu

/-- The character is written to the line as it then is. -/
theorem displayHere_on (hw : width = 1 ∨ width = 2) (hu : 2 ≤ t.usable) {x : Nat} :
    (t.on pre l post x false).displayHere m width c =
      (if width = 2 then (t.on pre (t.arrived m x width l) post x false).displayWide m t.usable c
        else (t.on pre (t.arrived m x width l) post x false).displayNarrow m c).bind (advance m t.usable) := by
  have hpos : (0 : Int) < width := by omega
  have hins : (if m.insert && decide ((0 : Int) < width) then (t.on pre l post x false).insch width
      else some (t.on pre l post x false)) = some (t.on pre (if m.insert then t.inserted x width l else l) post x false) := by
    cases m.insert with
    | false => rfl
    | true =>
      simp only [hpos, decide_true, Bool.and_self, if_true]
      exact on_insch width
  have htrust : (t.on pre (if m.insert then t.inserted x width l else l) post x false).modLine pre.length
      (t.on pre (if m.insert then t.inserted x width l else l) post x false).checkTrustStatus =
      some (t.on pre (t.arrived m x width l) post x false) := on_modLine _
  have harr : (t.arrived m x width l).trusted = t.trusted := checkTrustStatus_trusted _
  unfold displayHere
  rw [hins, Option.bind_some]
  simp only [on_curs]
  rw [htrust, Option.bind_some, on_cline, Option.bind_some, on_linecols harr (by omega)]
  have hlarge : ¬ ((width : Int) = 2 ∧ (t.usable : Int) < 2) := by omega
  simp only [if_neg hlarge]
  rcases hw with rfl | rfl <;> rfl

theorem displayHere_fits (pre post : List Line) (m : DisplayMode) (c : UInt32) (h : t.Ready cur l) (hw : width = 1 ∨ width = 2) (hu : 2 ≤ t.usable)
    (he : t.eraseChar.char.chr ≠ UCSWIDE) (hfit : cur.length + width ≤ t.usable) :
    ∃ l', t.Ready (cur ++ glyphCells m width c []) l' ∧ (t.on pre l post cur.length false).displayHere m width c =
      (t.on pre l' post (cur.length + width - 1 : Nat) false).advance m t.usable := by
  have hcols := usable_le (t := t)
  have harr := h.arrived (m := m) (n := width) (by omega) (by omega) (by omega) he
  have hb := harr.boundary (by omega)
  rw [displayHere_on hw hu]
  rcases hw with rfl | rfl
  · have hp := hb.prepared (k := cur.length + 1) (by omega) (by omega)
    refine ⟨_, hp.putNarrow (by omega) (m.cell c), ?_⟩
    rw [if_neg (by decide), displayNarrow, on_checkBoundaries, Option.bind_some, on_putCell, Option.bind_some]
    rfl
  · have hp := hb.prepared (k := cur.length + 2) (by omega) (by omega)
    refine ⟨_, hp.putWide (by omega) (m.cell c) (m.cell UCSWIDE), ?_⟩
    rw [if_pos rfl, displayWide, on_checkBoundaries, Option.bind_some, if_neg (by simp only [on_curs]; omega), Option.bind_some,
      on_putCell, Option.bind_some, on_right, on_putCell, Option.bind_some]
    rfl

theorem on_padRow {x : Nat} (hm : (pre.length : Int) ≠ t.margB) (hr : pre.length + 1 < t.rows) :
    (t.on pre l (l₂ :: post) x false).padRow =
      some (t.on (pre ++ [{ l.erase x t.eraseChar with lattr := l.lattr ||| (LATTR_WRAPPED ||| LATTR_WRAPPED2) }])
        (t.boundary (0 + 2) (t.boundary 0 (t.widen l₂))) post 0 false) := by
  unfold padRow
  show ((t.on pre l (l₂ :: post) x false).modLine pre.length fun l => l.erase x t.eraseChar).bind _ = _
  rw [on_modLine, Option.bind_some, on_wrapRow _ hm hr, Option.bind_some]
  simp only [on_curs]
  rw [on_scrlineptr, Option.bind_some, on_checkBoundaries]
  rfl

/-- A wide character in the last column. -/
theorem displayHere_pads (post : List Line) (m : DisplayMode) (c : UInt32) (h : t.Ready cur l) (hne : cur ≠ []) (hu : 2 ≤ t.usable) (hc : cur.length + 1 = t.usable)
    (hs : t.NoStale l₂) (he : t.eraseChar.char.chr ≠ UCSWIDE) (hm : (pre.length : Int) ≠ t.margB)
    (hr : pre.length + 1 < t.rows) : ∃ l₁ l', t.Wrapped l₁ ∧ t.textOf l₁ = cur ∧ t.Ready (glyphCells m 2 c []) l' ∧
      (t.on pre l (l₂ :: post) cur.length false).displayHere m (2 : Nat) c =
        (t.on (pre ++ [l₁]) l' post 1 false).advance m t.usable := by
  have hcols := usable_le (t := t)
  have hcount := List.length_pos_iff.mpr hne
  have harr := h.arrived (m := m) (n := 2) (by omega) (by omega) (by omega) he
  have hb := (harr.boundary (by omega)).boundary_beyond (k := cur.length + 2) hne (by omega)
  have hw := wrapped_padded hb hne hc t.eraseChar
  have hstart : t.Ready [] (t.widen l₂) := (ready_nil (by omega)).mpr hs.widen
  have hnext : t.Ready [] (t.boundary 0 (t.widen l₂)) := hstart.boundary (by simp; omega)
  have hp := hnext.prepared (k := 2) (by simp) (by omega)
  refine ⟨_, _, hw.1, hw.2, hp.putWide (by simp; omega) (m.cell c) (m.cell UCSWIDE), ?_⟩
  rw [displayHere_on (.inr rfl) hu, if_pos rfl, displayWide, on_checkBoundaries, Option.bind_some,
    if_pos (by simp only [on_curs]; omega), on_padRow hm hr, Option.bind_some, on_putCell, Option.bind_some, on_right,
    on_putCell, Option.bind_some]
  rfl

/-- The terminal when the current line has `col` columns of text. -/
def showing (t : TermState) (pre : List Line) (l : Line) (post : List Line) (col : Nat) : TermState :=
  t.on pre l post (min col (t.usable - 1) : Nat) (col == t.usable)

theorem showing_full (hfull : cur.length = t.usable) :
    t.showing pre l post cur.length = t.on pre l post (t.usable - 1 : Nat) true := by
  rw [showing, hfull, Nat.min_eq_right (Nat.sub_le _ _), beq_self_eq_true]

theorem showing_partial (hcur : cur.length ≠ t.usable) (hle : cur.length ≤ t.usable) :
    t.showing pre l post cur.length = t.on pre l post cur.length false := by
  rw [showing, Nat.min_eq_left (by omega), beq_eq_false_iff_ne.mpr hcur]

theorem on_pendingWrap_none {x : Int} {w : Int} : (t.on pre l post x false).pendingWrap m w = some (t.on pre l post x false) := rfl

theorem on_pendingWrap {x w : Int} (hwrap : m.wrap = true) (hw : 0 < w) (hm : (pre.length : Int) ≠ t.margB)
    (hr : pre.length + 1 < t.rows) : (t.on pre l (l₂ :: post) x true).pendingWrap m w =
      some (t.on (pre ++ [{ l with lattr := l.lattr ||| LATTR_WRAPPED }]) (t.widen l₂) post 0 false) := by
  unfold pendingWrap
  rw [on_wrapnext, hwrap, decide_eq_true hw, Bool.and_self, Bool.and_self, if_pos rfl, on_wrapRow _ hm hr, Option.map_some,
    Option.bind_some]
  exact on_scrlineptr

theorem advance_showing (hv : m.vt52Mode = false ∨ cur.length ≠ t.usable) (hne : cur ≠ [])
    (hcur : cur.length ≤ t.usable) :
    (t.on pre l post (cur.length - 1 : Nat) false).advance m t.usable = some (t.showing pre l post cur.length) := by
  have hcount := List.length_pos_iff.mpr hne
  have hx : ((cur.length - 1 : Nat) : Int) + 1 = cur.length := by omega
  unfold advance showing
  simp only [on_right, hx, on_curs]
  by_cases hfull : cur.length = t.usable
  · have hv : m.vt52Mode = false := hv.resolve_right (not_not_intro hfull)
    have hmin : ((min cur.length (t.usable - 1) : Nat) : Int) = (t.usable : Int) - 1 := by omega
    rw [if_pos (by omega), hv, Bool.and_false, if_neg Bool.false_ne_true, hmin, beq_iff_eq.mpr hfull]
    rfl
  · have hmin : min cur.length (t.usable - 1) = cur.length := by omega
    rw [if_neg (by omega), hmin, beq_eq_false_iff_ne.mpr hfull]

/-- In VT52 mode a full line is left at once. -/
theorem advance_vt52 (l₂ : Line) (post : List Line) (h : t.Ready cur l) (hwrap : m.wrap = true) (hv : m.vt52Mode = true) (hu : 2 ≤ t.usable)
    (hfull : cur.length = t.usable) (hm : (pre.length : Int) ≠ t.margB) (hr : pre.length + 1 < t.rows) :
    ∃ l₁, t.Wrapped l₁ ∧ t.textOf l₁ = cur ∧
      (t.on pre l (l₂ :: post) (cur.length - 1 : Nat) false).advance m t.usable = some (t.showing (pre ++ [l₁]) l₂ post 0) := by
  have hw := wrapped_full h (by omega) hfull
  have hx : ((cur.length - 1 : Nat) : Int) + 1 = cur.length := by omega
  have hwrapped : ({ t.on pre l (l₂ :: post) cur.length false with curs := ⟨pre.length, (t.usable : Int) - 1⟩, wrapnext := true } : TermState)
      = t.on pre l (l₂ :: post) ((t.usable : Int) - 1) true := rfl
  have hzero : (0 == t.usable) = false := beq_eq_false_iff_ne.mpr (by omega)
  refine ⟨_, hw.1, hw.2, ?_⟩
  unfold advance showing
  simp only [on_right, hx, on_curs]
  rw [if_pos (by omega), hwrap, hv, Bool.and_self, if_pos rfl, hwrapped, on_wrapRow _ hm hr, Nat.zero_min, hzero]
  rfl

end Rows

/-! ## Where the text goes -/

/-- In VT52 mode the cursor leaves a full line at once. -/
def leave (vt52 : Bool) (usable : Nat) (pos : Nat × Nat) : Nat × Nat :=
  if vt52 = true ∧ pos.2 = usable then (pos.1 + 1, 0) else pos

/-- The line and the column behind a character, from those before it. -/
def place (vt52 : Bool) (usable : Nat) (pos : Nat × Nat) (width : Nat) : Nat × Nat :=
  leave vt52 usable (if pos.2 + width ≤ usable then (pos.1, pos.2 + width) else (pos.1 + 1, width))

theorem leave_row (vt52 : Bool) (usable : Nat) (pos : Nat × Nat) : pos.1 ≤ (leave vt52 usable pos).1 := by
  unfold leave
  split <;> simp

/-- From line `y` the cursor can go down to line `y'` without scrolling. -/
def Room (t : TermState) (y y' : Nat) : Prop := ∀ i, y ≤ i → i < y' → (i : Int) ≠ t.margB ∧ i + 1 < t.rows

/-- The text so far: the full lines, and the cells `cur` of the current one. -/
structure Laid (t : TermState) (above done : List Line) (l : Line) (post : List Line) (cells cur : List Cell) : Prop where
  wrapped : ∀ l ∈ done, t.Wrapped l
  cells : done.flatMap t.textOf ++ cur = cells
  ready : t.Ready cur l
  fresh : ∀ l ∈ post, t.NoStale l
  count : above.length + done.length + 1 + post.length = t.rows
  room : cur.length ≤ t.usable

section Layout

variable {t : TermState} {m : DisplayMode} {above done post : List Line} {l : Line} {cells cur : List Cell} {c : UInt32}
  {width : Nat}

theorem Laid.write (h : t.Laid above done l post cells cur) (new : List Cell) {l' : Line} (hr : t.Ready (cur ++ new) l')
    (hroom : cur.length + new.length ≤ t.usable) : t.Laid above done l' post (cells ++ new) (cur ++ new) :=
  ⟨h.wrapped, by rw [← List.append_assoc, h.cells], hr, h.fresh, h.count, by rw [List.length_append]; exact hroom⟩

theorem Laid.wrap {l₁ l₂ : Line} (h : t.Laid above done l (l₂ :: post) cells cur) (hu : 0 < t.usable) (hw : t.Wrapped l₁)
    (ht : t.textOf l₁ = cur) : t.Laid above (done ++ [l₁]) l₂ post cells [] := by
  refine ⟨fun l' hl' => ?_, ?_, (ready_nil hu).mpr (h.fresh l₂ (by simp)), fun l' hl' => h.fresh l' (by simp [hl']), ?_, by simp⟩
  · rcases List.mem_append.mp hl' with hl' | hl'
    · exact h.wrapped l' hl'
    · rw [List.mem_singleton.mp hl']
      exact hw
  · rw [List.flatMap_append, List.flatMap_singleton, ht, List.append_nil, h.cells]
  · have hcount := h.count
    simp only [List.length_cons, List.length_append, List.length_nil] at hcount ⊢
    omega

/-- There is a next line to go to. -/
theorem Laid.next (h : t.Laid above done l post cells cur) {y' : Nat} (hr : t.Room (above.length + done.length) y')
    (hy : above.length + done.length < y') : ∃ l₂ rest, post = l₂ :: rest ∧ ((above ++ done).length : Int) ≠ t.margB ∧
      (above ++ done).length + 1 < t.rows := by
  have hrow := hr _ (Nat.le_refl _) hy
  have hcount := h.count
  cases post with
  | nil => simp only [List.length_nil] at hcount; omega
  | cons l₂ rest => exact ⟨l₂, rest, rfl, by simpa using hrow.1, by simpa using hrow.2⟩

/-- The cursor moves on behind a character. -/
theorem Laid.advance (h : t.Laid above done l post cells cur) (hwrap : m.wrap = true) (hu : 2 ≤ t.usable) (hne : cur ≠ [])
    (hr : t.Room (above.length + done.length) (above.length + (leave m.vt52Mode t.usable (done.length, cur.length)).1)) :
    ∃ done' l' post' cur', (t.on (above ++ done) l post (cur.length - 1 : Nat) false).advance m t.usable =
        some (t.showing (above ++ done') l' post' cur'.length) ∧
      t.Laid above done' l' post' cells cur' ∧ (done'.length, cur'.length) = leave m.vt52Mode t.usable (done.length, cur.length) ∧
      (cur' = [] ∨ cur' = cur) := by
  by_cases hv : m.vt52Mode = true ∧ cur.length = t.usable
  · have hleave : leave m.vt52Mode t.usable (done.length, cur.length) = (done.length + 1, 0) := if_pos hv
    rw [hleave] at hr ⊢
    obtain ⟨l₂, rest, rfl, hm, hrows⟩ := h.next hr (by simp only []; omega)
    obtain ⟨l₁, hw, ht, ha⟩ := advance_vt52 l₂ rest h.ready hwrap hv.1 hu hv.2 hm hrows
    exact ⟨done ++ [l₁], l₂, rest, [], by rw [ha, List.append_assoc]; rfl, h.wrap (by omega) hw ht, by simp, .inl rfl⟩
  · have hleave : leave m.vt52Mode t.usable (done.length, cur.length) = (done.length, cur.length) := if_neg hv
    rw [hleave]
    have hv : m.vt52Mode = false ∨ cur.length ≠ t.usable := by
      rcases not_and_or.mp hv with hv | hv
      · exact .inl (Bool.eq_false_iff.mpr hv)
      · exact .inr hv
    exact ⟨done, l, post, cur, advance_showing hv hne h.room, h, rfl, .inr rfl⟩

theorem length_glyphCells (hw : width = 1 ∨ width = 2) (marks : List UInt32) : (glyphCells m width c marks).length = width := by
  rcases hw with rfl | rfl <;> rfl

/-- Where a character leaves the terminal: the text with its cells, and the cursor at `pos`. If the
    current line is not new, it ends with these cells. -/
def Shown (t : TermState) (above : List Line) (cells new : List Cell) (pos : Nat × Nat)
    (r : Option TermState) : Prop :=
  ∃ done l post cur, r = some (t.showing (above ++ done) l post cur.length) ∧ t.Laid above done l post (cells ++ new) cur ∧
    (done.length, cur.length) = pos ∧ (cur = [] ∨ ∃ before, cur = before ++ new)

theorem Laid.shown {new : List Cell} (h : t.Laid above done l post (cells ++ new) (cur ++ new)) (hwrap : m.wrap = true)
    (hu : 2 ≤ t.usable) (hne : new ≠ [])
    (hr : t.Room (above.length + done.length)
      (above.length + (leave m.vt52Mode t.usable (done.length, cur.length + new.length)).1)) :
    t.Shown above cells new (leave m.vt52Mode t.usable (done.length, cur.length + new.length))
      ((t.on (above ++ done) l post (cur.length + new.length - 1 : Nat) false).advance m t.usable) := by
  have hlen : (cur ++ new).length = cur.length + new.length := List.length_append
  obtain ⟨done', l', post', cur', ha, hl, hpos, hcur⟩ := h.advance hwrap hu (by simp [hne]) (hlen ▸ hr)
  rw [hlen] at ha hpos
  refine ⟨done', l', post', cur', ha, hl, hpos, hcur.imp id fun he => ⟨cur, he⟩⟩

/-- A character that fits on the line. -/
theorem Laid.fits (h : t.Laid above done l post cells cur) (hwrap : m.wrap = true) (hu : 2 ≤ t.usable)
    (he : t.eraseChar.char.chr ≠ UCSWIDE) (hw : width = 1 ∨ width = 2) (hfit : cur.length + width ≤ t.usable)
    (hr : t.Room (above.length + done.length)
      (above.length + (leave m.vt52Mode t.usable (done.length, cur.length + width)).1)) :
    t.Shown above cells (glyphCells m width c []) (leave m.vt52Mode t.usable (done.length, cur.length + width))
      ((t.on (above ++ done) l post cur.length false).displayHere m width c) := by
  have hlen := length_glyphCells (m := m) (c := c) hw []
  obtain ⟨l', hl', hd⟩ := displayHere_fits (above ++ done) post m c h.ready hw hu he hfit
  have hwritten := h.write (glyphCells m width c []) hl' (by rw [hlen]; exact hfit)
  have hshown := hwritten.shown hwrap hu (by simp [glyphCells]) (by rw [hlen]; exact hr)
  rw [hlen] at hshown
  rw [hd]
  exact hshown

/-- A wide character that does not fit in the last column. -/
theorem Laid.pads (h : t.Laid above done l post cells cur) (hwrap : m.wrap = true) (hu : 2 ≤ t.usable)
    (he : t.eraseChar.char.chr ≠ UCSWIDE) (hc : cur.length + 1 = t.usable)
    (hr : t.Room (above.length + done.length) (above.length + (leave m.vt52Mode t.usable (done.length + 1, 2)).1)) :
    t.Shown above cells (glyphCells m 2 c []) (leave m.vt52Mode t.usable (done.length + 1, 2))
      ((t.on (above ++ done) l post cur.length false).displayHere m (2 : Nat) c) := by
  have hrow := leave_row m.vt52Mode t.usable (done.length + 1, 2)
  obtain ⟨l₂, rest, rfl, hm, hrows⟩ := h.next hr (by omega)
  obtain ⟨l₁, l', hw₁, ht₁, hl', hd⟩ := displayHere_pads rest m c h.ready
    (List.ne_nil_of_length_pos (by omega)) hu hc (h.fresh l₂ (by simp)) he hm hrows
  have hwrapped := h.wrap (by omega) hw₁ ht₁
  have hwritten := hwrapped.write (glyphCells m 2 c []) hl' (by simpa [glyphCells] using hu)
  have hcount : (done ++ [l₁]).length = done.length + 1 := by simp
  have hshown := hwritten.shown hwrap hu (by simp [glyphCells]) fun i hi hi' => hr i (by rw [hcount] at hi; omega) (by
    rw [hcount] at hi'
    exact hi')
  rw [hd, List.append_assoc]
  rw [hcount] at hshown
  exact hshown

/-- One character of the text. -/
theorem Laid.base {termCharWidth : UInt32 → Int} (h : t.Laid above done l post cells cur) (hwrap : m.wrap = true)
    (hu : 2 ≤ t.usable) (he : t.eraseChar.char.chr ≠ UCSWIDE) (hd : directChar c = false) (hc : termCharWidth c = width)
    (hw : width = 1 ∨ width = 2)
    (hr : t.Room (above.length + done.length)
      (above.length + (place m.vt52Mode t.usable (done.length, cur.length) width).1)) :
    t.Shown above cells (glyphCells m width c []) (place m.vt52Mode t.usable (done.length, cur.length) width)
      ((t.showing (above ++ done) l post cur.length).displayGraphicChar m termCharWidth c) := by
  have hwide : t.Laid above done (t.widen l) post cells cur := { h with ready := h.ready.widen (by omega) }
  have hroom := h.room
  have hscr : (t.showing (above ++ done) l post cur.length).scrlineptr (above ++ done).length =
      some (t.showing (above ++ done) (t.widen l) post cur.length) := on_scrlineptr
  unfold displayGraphicChar
  rw [show (t.showing (above ++ done) l post cur.length).curs.y = (above ++ done).length from rfl, hscr, Option.bind_some]
  simp only [hd, hc, Bool.false_eq_true, if_false]
  by_cases hfull : cur.length = t.usable
  · have hplace : place m.vt52Mode t.usable (done.length, cur.length) width = leave m.vt52Mode t.usable (done.length + 1, width) := by
      rw [place, if_neg (by omega)]
    have hrow := leave_row m.vt52Mode t.usable (done.length + 1, width)
    rw [hplace] at hr ⊢
    obtain ⟨l₂, rest, rfl, hm, hrows⟩ := hwide.next hr (by omega)
    have hw₁ := wrapped_full hwide.ready (by omega) hfull
    have hwrapped := hwide.wrap (by omega) hw₁.1 hw₁.2
    have hwrapped := { hwrapped with ready := hwrapped.ready.widen (by omega) }
    have hshown := hwrapped.fits (m := m) (c := c) hwrap hu he hw (by simp; omega)
    simp only [List.length_append, List.length_singleton, List.length_nil, Nat.zero_add] at hshown
    rw [showing_full hfull, on_pendingWrap hwrap (by omega) hm hrows, Option.bind_some, List.append_assoc]
    exact hshown fun i hi hi' => hr i (by omega) hi'
  · rw [ showing_partial hfull hroom, on_pendingWrap_none, Option.bind_some]
    by_cases hfit : cur.length + width ≤ t.usable
    · rw [place, if_pos hfit] at hr ⊢
      exact hwide.fits hwrap hu he hw hfit hr
    · obtain rfl : width = 2 := by omega
      rw [place, if_neg hfit] at hr ⊢
      exact hwide.pads hwrap hu he (by omega) hr

/-! ## Combining characters -/

theorem glyphCells_add {marks : List UInt32} (hb : c ≠ replacementChar) (hl : marks.length < CC_LIMIT) (mark : UInt32) :
    ({ m.cell c with cc := marks } : Cell).add mark = { m.cell c with cc := marks ++ [mark] } := by
  have hb : ({ m.cell c with cc := marks } : Cell).chr ≠ replacementChar := hb
  rw [Cell.add, if_neg hb, if_neg (by simpa using hl)]

/-- The cell that a combining character goes to. -/
theorem displayCombining_at {s : TermState} {x : Nat} (hx : (if s.wrapnext then s.curs.x else s.curs.x - 1) = x)
    (hpos : 0 < s.curs.x) (mark : UInt32) : s.displayCombining mark = (s.cline.bind fun l => l.cells[x]?).bind fun cell =>
      if cell.chr = UCSWIDE then
        if 0 < x then s.modLine s.curs.y fun l => { l with cells := l.cells.modify (x - 1) (·.add mark) } else none
      else s.modLine s.curs.y fun l => { l with cells := l.cells.modify x (·.add mark) } := by
  have hback : ((x : Int) - 1).toNat = x - 1 := by omega
  unfold displayCombining
  simp only [if_pos hpos, hx, Int.toNat_natCast, hback, Int.natCast_pos]

/-- It is the first cell of the last character. -/
theorem displayCombining_on {before : List Cell} {marks : List UInt32} (h : t.Ready (before ++ glyphCells m width c marks) l)
    (hu : 2 ≤ t.usable) (hw : width = 1 ∨ width = 2) (hc : c ≠ UCSWIDE)
    (hroom : (before ++ glyphCells m width c marks).length ≤ t.usable) (mark : UInt32) :
    (t.showing above l post (before ++ glyphCells m width c marks).length).displayCombining mark =
      some (t.showing above { l with cells := l.cells.modify before.length (·.add mark) } post
        (before ++ glyphCells m width c marks).length) := by
  have hlen : (before ++ glyphCells m width c marks).length = before.length + width := by
    rw [List.length_append, length_glyphCells hw]
  have hh := h.holds (by simp [glyphCells])
  have hcell : l.cells[before.length + width - 1]? = (before ++ glyphCells m width c marks)[before.length + width - 1]? := by
    have hget := congrArg (·[before.length + width - 1]?) hh.cells
    rw [hlen] at hget
    simp only [List.getElem?_take_of_lt (show before.length + width - 1 < before.length + width by omega)] at hget
    exact hget
  rw [hlen] at hroom ⊢
  have hx : (if (before.length + width == t.usable) = true then ((min (before.length + width) (t.usable - 1) : Nat) : Int)
      else ((min (before.length + width) (t.usable - 1) : Nat) : Int) - 1) = (before.length + width - 1 : Nat) := by
    split
    · have := beq_iff_eq.mp (by assumption)
      omega
    · have : ¬ before.length + width = t.usable := fun he => by simp_all
      omega
  have hpos : (0 : Int) < (min (before.length + width) (t.usable - 1) : Nat) := by omega
  have hline : (t.showing above l post (before.length + width)).cline = some l := on_cline
  rw [displayCombining_at (s := t.showing above l post (before.length + width)) hx hpos, hline, Option.bind_some, hcell]
  rcases hw with rfl | rfl
  · have hlast : (before ++ glyphCells m 1 c marks)[before.length + 1 - 1]? = some { m.cell c with cc := marks } := by
      simp [glyphCells]
    have hchr : ¬ ({ m.cell c with cc := marks } : Cell).chr = UCSWIDE := hc
    rw [hlast, Option.bind_some, if_neg hchr]
    exact on_modLine _
  · have hlast : (before ++ glyphCells m 2 c marks)[before.length + 2 - 1]? = some (m.cell UCSWIDE) := by
      simp [glyphCells]
    have hchr : (m.cell UCSWIDE).chr = UCSWIDE := rfl
    rw [hlast, Option.bind_some, if_pos hchr, if_pos (by omega)]
    exact on_modLine _

/-- One combining character. -/
theorem Laid.mark {termCharWidth : UInt32 → Int} {before : List Cell} {marks : List UInt32}
    (h : t.Laid above done l post (cells ++ glyphCells m width c marks) (before ++ glyphCells m width c marks))
    (hu : 2 ≤ t.usable) (hw : width = 1 ∨ width = 2) (hc : c ≠ UCSWIDE) (hb : c ≠ replacementChar)
    (hl : marks.length < CC_LIMIT) {mark : UInt32} (hd : directChar mark = false) (hm : termCharWidth mark = 0) :
    ∃ l', (t.showing (above ++ done) l post (before ++ glyphCells m width c marks).length).displayGraphicChar m termCharWidth mark =
        some (t.showing (above ++ done) l' post (before ++ glyphCells m width c (marks ++ [mark])).length) ∧
      t.Laid above done l' post (cells ++ glyphCells m width c (marks ++ [mark])) (before ++ glyphCells m width c (marks ++ [mark])) := by
  have hh := h.ready.holds (by simp [glyphCells])
  have hlen : (before ++ glyphCells m width c (marks ++ [mark])).length = (before ++ glyphCells m width c marks).length := by
    simp only [List.length_append, length_glyphCells hw]
  have hready : t.Ready (before ++ glyphCells m width c (marks ++ [mark])) { l with cells := l.cells.modify before.length (·.add mark) } := by
    have hmod := Ready.modify (a := before) h.ready (·.add mark)
    simp only [glyphCells_add hb hl] at hmod
    exact hmod
  have hcells : done.flatMap t.textOf ++ before = cells := by
    have := h.cells
    rw [← List.append_assoc] at this
    exact List.append_cancel_right this
  refine ⟨{ l with cells := l.cells.modify before.length (·.add mark) }, ?_,
    ⟨h.wrapped, by rw [← List.append_assoc, hcells], hready, h.fresh, h.count, by rw [hlen]; exact h.room⟩⟩
  unfold displayGraphicChar
  have hscr : (t.showing (above ++ done) l post (before ++ glyphCells m width c marks).length).scrlineptr (above ++ done).length =
      some (t.showing (above ++ done) l post (before ++ glyphCells m width c marks).length) := by
    have hscr : (t.showing (above ++ done) l post (before ++ glyphCells m width c marks).length).scrlineptr (above ++ done).length =
        some (t.showing (above ++ done) (t.widen l) post (before ++ glyphCells m width c marks).length) := on_scrlineptr
    rw [hscr, hh.widen_eq]
  have htrust : (t.showing (above ++ done) l post (before ++ glyphCells m width c marks).length).modLine (above ++ done).length
      (t.showing (above ++ done) l post (before ++ glyphCells m width c marks).length).checkTrustStatus =
      some (t.showing (above ++ done) l post (before ++ glyphCells m width c marks).length) := by
    have hmod : (t.showing (above ++ done) l post (before ++ glyphCells m width c marks).length).modLine (above ++ done).length
        (t.showing (above ++ done) l post (before ++ glyphCells m width c marks).length).checkTrustStatus =
        some (t.showing (above ++ done) (t.checkTrustStatus l) post (before ++ glyphCells m width c marks).length) := on_modLine _
    rw [hmod, hh.checkTrustStatus_eq]
  have hline : ∀ col, (t.showing (above ++ done) l post col).curs.y = (above ++ done).length := fun _ => rfl
  rw [hline, hscr, Option.bind_some]
  simp only [hd, hm, Bool.false_eq_true, if_false]
  have hpending : ∀ s : TermState, s.pendingWrap m 0 = some s := fun s => by simp [pendingWrap]
  rw [hpending, Option.bind_some]
  unfold displayHere
  rw [show (m.insert && decide ((0 : Int) < 0)) = false by simp, if_neg Bool.false_ne_true, Option.bind_some, hline, htrust, Option.bind_some]
  rw [show (t.showing (above ++ done) l post (before ++ glyphCells m width c marks).length).cline = some l from on_cline,
    Option.bind_some, hlen]
  simp only [show ¬ ((0 : Int) = 2) by decide, show ¬ ((0 : Int) = 1) by decide, false_and, if_false, if_true]
  exact displayCombining_on h.ready hu hw hc h.room mark

end Layout

/-! ## A text -/

end TermState

/-- A character and its combining characters. -/
structure Glyph where
  base : UInt32
  marks : List UInt32
  deriving DecidableEq, Repr

namespace Glyph

def codes (g : Glyph) : List UInt32 := g.base :: g.marks

def width (termCharWidth : UInt32 → Int) (g : Glyph) : Nat := (termCharWidth g.base).toNat

def cells (m : DisplayMode) (termCharWidth : UInt32 → Int) (g : Glyph) : List Cell :=
  TermState.glyphCells m (g.width termCharWidth) g.base g.marks

/-- The character takes one cell or two; its cell has room for the combining characters and takes them. -/
structure Displays (termCharWidth : UInt32 → Int) (g : Glyph) : Prop where
  width : termCharWidth g.base = 1 ∨ termCharWidth g.base = 2
  base : directChar g.base = false ∧ g.base ≠ UCSWIDE
  marks : ∀ c ∈ g.marks, termCharWidth c = 0 ∧ directChar c = false
  limit : g.marks.length ≤ CC_LIMIT
  replacement : g.base = replacementChar → g.marks = []

end Glyph

namespace TermState

/-- Where a text ends that begins at `pos`. -/
def layout (vt52 : Bool) (usable : Nat) (termCharWidth : UInt32 → Int) (pos : Nat × Nat) (gs : List Glyph) : Nat × Nat :=
  gs.foldl (fun pos g => place vt52 usable pos (g.width termCharWidth)) pos

/-- No combining character follows a character that the cursor has left the line after. -/
def MarksFit (vt52 : Bool) (usable : Nat) (termCharWidth : UInt32 → Int) : Nat × Nat → List Glyph → Prop
  | _, [] => True
  | pos, g :: gs =>
    (g.marks ≠ [] → (place vt52 usable pos (g.width termCharWidth)).2 ≠ 0) ∧
      MarksFit vt52 usable termCharWidth (place vt52 usable pos (g.width termCharWidth)) gs

section Text

variable {t : TermState} {m : DisplayMode} {termCharWidth : UInt32 → Int} {above done post : List Line} {l : Line}
  {cells cur : List Cell} {c : UInt32} {width : Nat}

theorem place_row (vt52 : Bool) (usable : Nat) (pos : Nat × Nat) (width : Nat) : pos.1 ≤ (place vt52 usable pos width).1 := by
  unfold place
  refine Nat.le_trans ?_ (leave_row _ _ _)
  split <;> simp

theorem layout_row (vt52 : Bool) (usable : Nat) (termCharWidth : UInt32 → Int) (gs : List Glyph) : ∀ pos : Nat × Nat,
    pos.1 ≤ (layout vt52 usable termCharWidth pos gs).1 := by
  induction gs with
  | nil => exact fun pos => Nat.le_refl _
  | cons g gs ih => exact fun pos => Nat.le_trans (place_row _ _ _ _) (ih _)

/-- The combining characters of one character. -/
theorem Laid.marks {before : List Cell} (hu : 2 ≤ t.usable) (hw : width = 1 ∨ width = 2) (hc : c ≠ UCSWIDE) : ∀ (rest marks : List UInt32)
    (l : Line), t.Laid above done l post (cells ++ glyphCells m width c marks) (before ++ glyphCells m width c marks) →
    marks.length + rest.length ≤ CC_LIMIT → (c = replacementChar → rest = []) →
    (∀ mark ∈ rest, termCharWidth mark = 0 ∧ directChar mark = false) →
    ∃ l', rest.foldlM (fun t c => t.displayGraphicChar m termCharWidth c)
        (t.showing (above ++ done) l post (before ++ glyphCells m width c marks).length) =
          some (t.showing (above ++ done) l' post (before ++ glyphCells m width c (marks ++ rest)).length) ∧
      t.Laid above done l' post (cells ++ glyphCells m width c (marks ++ rest)) (before ++ glyphCells m width c (marks ++ rest)) := by
  intro rest
  induction rest with
  | nil =>
    intro marks l h _ _ _
    rw [List.append_nil]
    exact ⟨l, rfl, h⟩
  | cons mark rest ih =>
    intro marks l h hlim hrep hmarks
    have hb : c ≠ replacementChar := fun he => by simpa using hrep he
    rw [List.length_cons] at hlim
    obtain ⟨hzero, hd⟩ := hmarks mark (by simp)
    obtain ⟨l₁, hr₁, h₁⟩ := h.mark hu hw hc hb (by omega) hd hzero
    obtain ⟨l₂, hr₂, h₂⟩ := ih (marks ++ [mark]) l₁ h₁ (by simp; omega) (fun he => absurd he hb) fun mk hmk =>
      hmarks mk (List.mem_cons_of_mem _ hmk)
    rw [List.append_assoc] at hr₂ h₂
    refine ⟨l₂, ?_, h₂⟩
    rw [List.foldlM_cons, hr₁]
    exact hr₂

/-- A character with its combining characters. -/
theorem Laid.glyph (h : t.Laid above done l post cells cur) (hwrap : m.wrap = true) (hu : 2 ≤ t.usable)
    (he : t.eraseChar.char.chr ≠ UCSWIDE) {g : Glyph} (hg : g.Displays termCharWidth)
    (hr : t.Room (above.length + done.length)
      (above.length + (place m.vt52Mode t.usable (done.length, cur.length) (g.width termCharWidth)).1))
    (hm : g.marks ≠ [] → (place m.vt52Mode t.usable (done.length, cur.length) (g.width termCharWidth)).2 ≠ 0) :
    t.Shown above cells (g.cells m termCharWidth) (place m.vt52Mode t.usable (done.length, cur.length) (g.width termCharWidth))
      (g.codes.foldlM (fun t c => t.displayGraphicChar m termCharWidth c) (t.showing (above ++ done) l post cur.length)) := by
  have hw : g.width termCharWidth = 1 ∨ g.width termCharWidth = 2 := by
    unfold Glyph.width
    rcases hg.width with h | h <;> simp [h]
  have hcast : termCharWidth g.base = (g.width termCharWidth : Nat) := by
    unfold Glyph.width
    rcases hg.width with h | h <;> simp [h]
  obtain ⟨done', l', post', cur', hrun, hlaid, hpos, hcur⟩ := h.base hwrap hu he hg.base.1 hcast hw hr
  have hcodes : g.codes.foldlM (fun t c => t.displayGraphicChar m termCharWidth c) (t.showing (above ++ done) l post cur.length) =
      g.marks.foldlM (fun t c => t.displayGraphicChar m termCharWidth c) (t.showing (above ++ done') l' post' cur'.length) := by
    rw [Glyph.codes, List.foldlM_cons, hrun]
    rfl
  rw [hcodes]
  by_cases hmarks : g.marks = []
  · refine ⟨done', l', post', cur', by rw [hmarks]; rfl, ?_, hpos, ?_⟩
    · simpa only [Glyph.cells, hmarks] using hlaid
    · simpa only [Glyph.cells, hmarks] using hcur
  · have hne : cur' ≠ [] := fun hnil => hm hmarks (by rw [← hpos, hnil]; rfl)
    obtain ⟨before, rfl⟩ := hcur.resolve_left hne
    obtain ⟨l₂, hr₂, h₂⟩ := Laid.marks (m := m) hu hw hg.base.2 g.marks [] l' hlaid (by simpa using hg.limit) hg.replacement hg.marks
    refine ⟨done', l₂, post', _, hr₂, h₂, ?_, .inr ⟨before, rfl⟩⟩
    rw [← hpos]
    simp only [List.length_append, length_glyphCells hw, List.nil_append]

/-- Over a whole text. -/
theorem Laid.text (hwrap : m.wrap = true) (hu : 2 ≤ t.usable) (he : t.eraseChar.char.chr ≠ UCSWIDE) : ∀ (gs : List Glyph)
    (done : List Line) (l : Line) (post : List Line) (cells cur : List Cell), t.Laid above done l post cells cur →
    (∀ g ∈ gs, g.Displays termCharWidth) →
    t.Room (above.length + done.length) (above.length + (layout m.vt52Mode t.usable termCharWidth (done.length, cur.length) gs).1) →
    MarksFit m.vt52Mode t.usable termCharWidth (done.length, cur.length) gs →
    ∃ done' l' post' cur', (gs.flatMap Glyph.codes).foldlM (fun t c => t.displayGraphicChar m termCharWidth c)
        (t.showing (above ++ done) l post cur.length) = some (t.showing (above ++ done') l' post' cur'.length) ∧
      t.Laid above done' l' post' (cells ++ gs.flatMap (Glyph.cells m termCharWidth)) cur' := by
  intro gs
  induction gs with
  | nil =>
    intro done l post cells cur h _ _ _
    exact ⟨done, l, post, cur, rfl, by simpa using h⟩
  | cons g gs ih =>
    intro done l post cells cur h hg hr hm
    have hrow := layout_row m.vt52Mode t.usable termCharWidth gs
      (place m.vt52Mode t.usable (done.length, cur.length) (g.width termCharWidth))
    have hfirst := place_row m.vt52Mode t.usable (done.length, cur.length) (g.width termCharWidth)
    obtain ⟨done₁, l₁, post₁, cur₁, hr₁, h₁, hpos, -⟩ := h.glyph hwrap hu he (hg g (by simp))
      (fun i hi hi' => hr i hi (by simp only [layout, List.foldl_cons] at hrow ⊢; omega)) hm.1
    have hrest := ih done₁ l₁ post₁ _ cur₁ h₁ (fun g' hg' => hg g' (List.mem_cons_of_mem _ hg'))
    rw [hpos] at hrest
    obtain ⟨done₂, l₂, post₂, cur₂, hr₂, h₂⟩ := hrest (fun i hi hi' => hr i (by
      have : done₁.length = (place m.vt52Mode t.usable (done.length, cur.length) (g.width termCharWidth)).1 := by rw [← hpos]
      simp only at hfirst
      omega) hi') hm.2
    refine ⟨done₂, l₂, post₂, cur₂, ?_, ?_⟩
    · rw [List.flatMap_cons, List.foldlM_append, hr₁]
      exact hr₂
    · rw [List.flatMap_cons, ← List.append_assoc]
      exact h₂

end Text

end TermState

end Putty.Terminal
