/-
  Putty.Terminal.Copy — wrapped text that is copied from the screen is the text that was
  printed (`terminal.c`, term_display_graphic_char and clipme; the model is
  `Putty.Terminal.Display`).

  Proved: `wrapped_text_copied`, for every text, terminal and platform. A newline is never put
  in where a line wraps, nor the space that stands for the column that a wide character did
  not fit in.

  Not every text comes back. U+FFFD takes no combining characters, on purpose
  (`mark_on_replacement_lost`). The theorem says nothing of three texts that get damaged on
  the way: one with U+10000, which clipme takes for a single UTF-16 unit; one in VT52 mode with
  combining characters behind a character that fills its line; and one on a line of a trusted
  terminal that still has LATTR_WRAPPED2 from an earlier text.
-/

import Putty.Terminal.Wrapping

namespace Putty.Terminal

/-! ## Codes -/

/-- The codes that have a meaning of their own in a cell: the character sets, UCSWIDE and the trust
    sigil, and the codes of the font. -/
def reserved (c : UInt32) : Bool := (0xD800 ≤ c && c ≤ 0xDFFF) || (0xF000 ≤ c && c ≤ 0xF1FF)

/-- A character as the platform's wide characters. -/
def Platform.units (p : Platform) (c : UInt32) : List WChar :=
  if p.isUtf16 = true ∧ 0x10000 ≤ c then [0xD800 + (c - 0x10000) / 0x400, 0xDC00 + (c - 0x10000) % 0x400] else [c]

/-- A code that clipme copies as a character. -/
structure Copyable (p : Platform) (c : UInt32) : Prop where
  printable : c ≠ 0 ∧ c < 0x110000
  unreserved : reserved c = false
  utf16 : p.isUtf16 = true → c ≠ 0x10000

section Codes

variable {p : Platform} {u : UcsData} {rawcnp : Bool} {c : UInt32}

theorem unreserved_ranges (h : reserved c = false) :
    (c.toNat < 0xD800 ∨ 0xE000 ≤ c.toNat) ∧ (c.toNat < 0xF000 ∨ 0xF200 ≤ c.toNat) := by
  simp only [reserved, Bool.or_eq_false_iff, Bool.and_eq_false_iff, decide_eq_false_iff_not, UInt32.le_iff_toNat_le] at h
  simp at h
  omega

/-- A mask of the high bits. -/
theorem div_of_mask {mask v : UInt32} {k : Nat} (hk : k ≤ 32) (hm : mask.toNat >>> k = 2 ^ (32 - k) - 1) (h : c &&& mask = v) :
    c.toNat / 2 ^ k = v.toNat / 2 ^ k := by
  have hc : c.toNat / 2 ^ k < 2 ^ (32 - k) := by
    rw [Nat.div_lt_iff_lt_mul (Nat.two_pow_pos k), ← Nat.pow_add, Nat.sub_add_cancel hk]
    exact c.toNat_lt
  have hv : (c.toNat &&& mask.toNat) >>> k = v.toNat >>> k := by rw [← UInt32.toNat_and, h]
  rw [Nat.shiftRight_and_distrib, hm, Nat.and_two_pow_sub_one_eq_mod, Nat.shiftRight_eq_div_pow, Nat.mod_eq_of_lt hc,
    Nat.shiftRight_eq_div_pow] at hv
  exact hv

theorem not_directChar (h : reserved c = false) : directChar c = false := by
  have hr := unreserved_ranges h
  refine beq_eq_false_iff_ne.mpr fun he => ?_
  have := div_of_mask (k := 10) (by decide) (by decide) he
  simp at this
  omega

theorem not_directFont (h : reserved c = false) : directFont c = false := by
  have hr := unreserved_ranges h
  refine beq_eq_false_iff_ne.mpr fun he => ?_
  have := div_of_mask (k := 9) (by decide) (by decide) he
  simp at this
  omega

theorem ne_UCSWIDE (h : reserved c = false) : c ≠ UCSWIDE := by
  rintro rfl
  revert h
  decide

/-- No character set has the code. -/
theorem unicode_of_unreserved (h : reserved c = false) : u.unicode rawcnp c = c := by
  have hr := unreserved_ranges h
  have hset : ∀ v : UInt32, v.toNat / 256 = 0xD8 ∨ v.toNat / 256 = 0xD9 ∨ v.toNat / 256 = 0xDA ∨ v.toNat / 256 = 0xF0 ∨
      v.toNat / 256 = 0xF1 → c &&& CSET_MASK ≠ v := by
    intro v hv he
    have := div_of_mask (k := 8) (by decide) (by decide) he
    omega
  have hASCII := hset CSET_ASCII (by decide)
  have hLINEDRW := hset CSET_LINEDRW (by decide)
  have hSCOACS := hset CSET_SCOACS (by decide)
  have hOEMCP := hset CSET_OEMCP (by decide)
  have hACP := hset CSET_ACP (by decide)
  simp only [UcsData.unicode, hASCII, hLINEDRW, hSCOACS, hOEMCP, hACP, false_and, or_self, if_false]

/-- The two halves of a character above U+10000. -/
theorem surrogates_eq {d : UInt32} (hd : d.toNat < 0x100000) :
    (0xD800 : UInt32) ||| (d >>> 10) = 0xD800 + d / 0x400 ∧ (0xDC00 : UInt32) ||| (d &&& 0x3FF) = 0xDC00 + d % 0x400 := by
  have hhigh : d.toNat / 1024 < 1024 := by omega
  have hlow : d.toNat % 1024 < 1024 := by omega
  constructor
  · apply UInt32.toNat_inj.mp
    have hor := Nat.shiftLeft_add_eq_or_of_lt (i := 10) (b := d.toNat / 1024) hhigh 54
    simp [UInt32.toNat_or, UInt32.toNat_add, UInt32.toNat_div, Nat.shiftRight_eq_div_pow] at hor ⊢
    omega
  · apply UInt32.toNat_inj.mp
    have hor := Nat.shiftLeft_add_eq_or_of_lt (i := 10) (b := d.toNat % 1024) hlow 55
    have hand : d.toNat &&& 1023 = d.toNat % 1024 := Nat.and_two_pow_sub_one_eq_mod d.toNat 10
    simp [UInt32.toNat_or, UInt32.toNat_add, UInt32.toNat_mod, UInt32.toNat_and, hand] at hor ⊢
    omega

theorem cbuf_copyable (h : Copyable p c) : (cbuf p c).takeWhile (· != 0) = p.units c := by
  have hlt : c.toNat < 0x110000 := by simpa [UInt32.lt_iff_toNat_lt] using h.printable.2
  have hne : c.toNat ≠ 0 := fun he => h.printable.1 (UInt32.toNat_inj.mp he)
  unfold cbuf Platform.units
  by_cases hw : p.isUtf16 = true ∧ 0x10000 ≤ c
  · have hgt : 0x10000 < c := by
      have hne : c.toNat ≠ 0x10000 := fun he => h.utf16 hw.1 (UInt32.toNat_inj.mp he)
      have hle := hw.2
      simp only [UInt32.le_iff_toNat_le, UInt32.lt_iff_toNat_lt] at hle ⊢
      simp at hle ⊢
      omega
    have hsub : (c - 0x10000).toNat = c.toNat - 0x10000 := by
      rw [UInt32.toNat_sub_of_le _ _ hw.2]
      rfl
    have hs := surrogates_eq (d := c - 0x10000) (by omega)
    rw [if_pos ⟨hw.1, hgt, h.printable.2⟩, if_pos hw, hs.1, hs.2]
    have hhigh : (0xD800 + (c - 0x10000) / 0x400 : UInt32) ≠ 0 := fun he => by
      have := congrArg UInt32.toNat he
      simp [UInt32.toNat_add, UInt32.toNat_div, hsub] at this
      omega
    have hlow : (0xDC00 + (c - 0x10000) % 0x400 : UInt32) ≠ 0 := fun he => by
      have := congrArg UInt32.toNat he
      simp [UInt32.toNat_add, UInt32.toNat_mod, hsub] at this
      omega
    simp only [List.takeWhile_cons, List.takeWhile_nil, bne_iff_ne.mpr hhigh, bne_iff_ne.mpr hlow, if_true]
  · have hsmall : ¬ (p.isUtf16 = true ∧ 0x10000 < c ∧ c < 0x110000) := fun hb => hw ⟨hb.1, UInt32.le_of_lt hb.2.1⟩
    rw [if_neg hsmall, if_neg hw]
    have hunit : wchar p c = c := by
      unfold wchar
      split
      · have hlt : c.toNat < 0x10000 := by
          have hge := not_and.mp hw (by assumption)
          simp only [UInt32.le_iff_toNat_le] at hge
          simpa using hge
        apply UInt32.toNat_inj.mp
        have hand := Nat.and_two_pow_sub_one_eq_mod c.toNat 16
        simp [UInt32.toNat_and] at hand ⊢
        omega
      · rfl
    rw [hunit]
    simp only [List.takeWhile_cons, List.takeWhile_nil, bne_iff_ne.mpr h.printable.1, if_true]

theorem clipCode_copyable (h : Copyable p c) (l : Line) (x : Nat) : clipCode p u rawcnp l c x = some (p.units c, x) := by
  unfold clipCode
  simp only [unicode_of_unreserved h.unreserved, not_directFont h.unreserved, Bool.false_eq_true, false_and, if_false,
    cbuf_copyable h]

theorem clipCell_copyable (l : Line) (x : Nat) (chrs : List UInt32) (h : ∀ c ∈ chrs, Copyable p c) :
    clipCell p u rawcnp l chrs x = some (chrs.flatMap p.units, x) := by
  induction chrs with
  | nil => rfl
  | cons chr chrs ih =>
    rw [clipCell, clipCode_copyable (h chr (by simp)), Option.bind_some]
    simp only [ih fun c hc => h c (List.mem_cons_of_mem _ hc), Option.map_some, List.flatMap_cons]

end Codes

/-! ## Lines -/

/-- What a cell holds: nothing, if it is the right half of a character. -/
def cellText (p : Platform) (cell : Cell) : List WChar :=
  if cell.chr = UCSWIDE then [] else (cell.chr :: cell.cc).flatMap p.units

def CellCopyable (p : Platform) (cell : Cell) : Prop := cell.chr = UCSWIDE ∨ ∀ c ∈ cell.chr :: cell.cc, Copyable p c

/-- The cell is not unused space. -/
def CellUsed (cell : Cell) : Prop := isSpaceChr cell.chr = false ∨ cell.cc ≠ []

section Lines

variable {p : Platform} {u : UcsData} {rawcnp : Bool} {l : Line} {y : Int} {bottom nlpos : Pos}

/-- The columns from `x` up to `stop`. -/
theorem clipColumns_eq {stop : Nat} (hstop : ∀ i : Nat, (poslt ⟨y, i⟩ bottom && poslt ⟨y, i⟩ nlpos) = decide (i < stop))
    (hlen : stop ≤ l.cells.length) (hc : ∀ cell ∈ l.cells.take stop, CellCopyable p cell) : ∀ n x : Nat, stop ≤ x + n →
    clipColumns p u rawcnp l y bottom nlpos n x = some (((l.cells.take stop).drop x).flatMap (cellText p)) := by
  intro n
  induction n with
  | zero =>
    intro x hx
    rw [List.drop_of_length_le (by rw [List.length_take]; omega)]
    rfl
  | succ n ih =>
    intro x hx
    unfold clipColumns
    rw [hstop x]
    by_cases hlt : x < stop
    · have hcell : l.cells[x]? = some l.cells[x] := List.getElem?_eq_getElem (by omega)
      have hmem : l.cells[x] ∈ l.cells.take stop := List.mem_take_iff_getElem.mpr ⟨x, by omega, rfl⟩
      have hdrop : (l.cells.take stop).drop x = l.cells[x] :: (l.cells.take stop).drop (x + 1) := by
        rw [List.drop_eq_getElem_cons (by rw [List.length_take]; omega), List.getElem_take]
      rw [decide_eq_true hlt, if_pos rfl, hcell, Option.bind_some, hdrop, List.flatMap_cons]
      by_cases hwide : l.cells[x].chr = UCSWIDE
      · rw [if_pos hwide, ih (x + 1) (by omega), cellText, if_pos hwide]
        rfl
      · rw [if_neg hwide, clipCell_copyable l x _ ((hc _ hmem).resolve_left hwide), Option.bind_some, cellText, if_neg hwide]
        simp only [ih (x + 1) (by omega), Option.map_some]
    · rw [decide_eq_false hlt, if_neg Bool.false_ne_true, List.drop_of_length_le (by rw [List.length_take]; omega)]
      rfl

/-- Unused space is trimmed up to a cell that is used. -/
theorem trimSpaces_ge (top : Pos) {k : Nat} {cell : Cell} (hcell : l.cells[k]? = some cell) (hu : CellUsed cell) :
    ∀ x, k < x → k < trimSpaces l top x := by
  intro x
  induction x with
  | zero => omega
  | succ x ih =>
    intro hx
    unfold trimSpaces
    by_cases hkx : k = x
    · subst hkx
      simp only [hcell]
      rw [if_neg fun h => hu.elim (fun hs => by rw [hs] at h; exact Bool.false_ne_true h.1) fun hcc => hcc h.2.1]
      omega
    · split
      · split
        · exact ih (by omega)
        · omega
      · omega

theorem poslt_same {i j : Int} : poslt ⟨y, i⟩ ⟨y, j⟩ = decide (i < j) := by
  simp [poslt]

theorem poslt_line {y' i j : Int} (h : y < y') : poslt ⟨y, i⟩ ⟨y', j⟩ = true := by
  simp [poslt, h]

end Lines

namespace TermState

section Region

variable {p : Platform} {u : UcsData} {rawcnp : Bool} {t s : TermState} {l : Line} {y : Int} {bottom : Pos}

/-- A wrapped line is copied up to its last cell of text, and no newline comes after it. -/
theorem Wrapped.nlpos_eq (h : t.Wrapped l) (hu : 2 ≤ t.usable) (hs : s.cols = t.cols) :
    nlpos s l ⟨y, 0⟩ bottom false = (⟨y, (t.usable - if l.padded then 1 else 0 : Nat)⟩, false) := by
  have husable : (if l.trusted then ((s.cols - TRUST_SIGIL_WIDTH : Nat) : Int) else s.cols) = t.usable := by
    rw [hs, h.trusted, usable]
    split <;> rfl
  unfold nlpos
  simp only [if_neg h.wrapped, husable, Bool.false_eq_true, if_false]
  by_cases hp : l.lattr &&& LATTR_WRAPPED2 = 0
  · have hpad : l.padded = false := by rw [Line.padded, hp]; rfl
    rw [if_pos hp, hpad]
    rfl
  · have hpad : l.padded = true := bne_iff_ne.mpr hp
    have hne : ¬ (t.usable : Int) = 0 := by omega
    rw [if_neg hp, hpad, decpos, if_neg hne]
    simp only [if_true]
    rw [Int.ofNat_sub (by omega)]
    rfl

theorem Wrapped.clipLine_eq (h : t.Wrapped l) (hu : 2 ≤ t.usable) (hs : s.cols = t.cols) (hy : y < bottom.y)
    (hc : ∀ cell ∈ t.textOf l, CellCopyable p cell) :
    clipLine p u rawcnp s l ⟨y, 0⟩ bottom false = some ((t.textOf l).flatMap (cellText p)) := by
  have hle := usable_le (t := t)
  unfold clipLine
  simp only [h.nlpos_eq hu hs, Int.toNat_zero, Int.sub_zero, Int.toNat_natCast, Bool.false_eq_true, if_false]
  have hstop : ∀ i : Nat, (poslt ⟨y, i⟩ bottom && poslt ⟨y, i⟩ ⟨y, (t.usable - if l.padded then 1 else 0 : Nat)⟩) =
      decide (i < t.usable - if l.padded then 1 else 0) := by
    intro i
    have hbottom : poslt ⟨y, i⟩ bottom = true := poslt_line (j := bottom.x) hy
    rw [hbottom, poslt_same, Bool.true_and]
    simp only [Nat.cast_lt]
  rw [clipColumns_eq hstop (by rw [h.length]; omega) hc _ 0 (by omega)]
  simp only [Option.map_some, List.drop_zero]
  rfl

/-- The current line is copied up to the cursor, and its last cell is no unused space. -/
theorem Ready.clipLine_eq {cur : List Cell} (h : t.Ready cur l) (hne : cur ≠ []) (hroom : cur.length ≤ t.usable)
    (hs : s.cols = t.cols) (hused : ∀ cell, cur.getLast? = some cell → CellUsed cell) (hc : ∀ cell ∈ cur, CellCopyable p cell) :
    clipLine p u rawcnp s l ⟨y, 0⟩ ⟨y, cur.length⟩ false = some (cur.flatMap (cellText p)) := by
  have hle := usable_le (t := t)
  have hh := h.holds hne
  have hpos := List.length_pos_iff.mpr hne
  have hnlpos : ∃ n : Nat, nlpos s l ⟨y, 0⟩ ⟨y, cur.length⟩ false = (⟨y, n⟩, false) ∧ cur.length ≤ n := by
    unfold nlpos
    simp only [Bool.false_eq_true, if_false]
    by_cases hw : l.lattr &&& LATTR_WRAPPED = 0
    · have hlast : l.cells[cur.length - 1]? = some (cur.getLast hne) := by
        rw [← List.getElem?_take_of_lt (show cur.length - 1 < cur.length by omega), hh.cells,
          ← List.getLast?_eq_getElem?, List.getLast?_eq_some_getLast hne]
      have htrim := trimSpaces_ge ⟨y, 0⟩ hlast (hused _ (List.getLast?_eq_some_getLast hne)) s.cols (by omega)
      refine ⟨trimSpaces l ⟨y, 0⟩ s.cols, ?_, by omega⟩
      rw [if_pos hw, poslt_same]
      simp only [decide_eq_false (show ¬ ((trimSpaces l ⟨y, 0⟩ s.cols : Nat) : Int) < cur.length by omega)]
    · have husable : (if l.trusted then ((s.cols - TRUST_SIGIL_WIDTH : Nat) : Int) else s.cols) = t.usable := by
        rw [hs, hh.trusted, usable]
        split <;> rfl
      rw [if_neg hw, husable]
      by_cases hp : l.lattr &&& LATTR_WRAPPED2 = 0
      · exact ⟨t.usable, by rw [if_pos hp], hroom⟩
      · have hfull : cur.length ≠ t.usable := fun he => by
          have := h.full he
          rw [Line.padded, bne_eq_false_iff_eq] at this
          exact hp this
        refine ⟨t.usable - 1, ?_, by omega⟩
        rw [if_neg hp, decpos, if_neg (by simp only; omega), Int.ofNat_sub (by omega)]
        rfl
  obtain ⟨n, hn, hcn⟩ := hnlpos
  have hstop : ∀ i : Nat, (poslt ⟨y, i⟩ ⟨y, cur.length⟩ && poslt ⟨y, i⟩ ⟨y, n⟩) = decide (i < cur.length) := by
    intro i
    rw [poslt_same, poslt_same]
    simp only [Nat.cast_lt, ← Bool.decide_and]
    exact decide_eq_decide.mpr ⟨fun hi => hi.1, fun hi => ⟨hi, by omega⟩⟩
  unfold clipLine
  simp only [hn, Int.toNat_zero, Int.sub_zero, Int.toNat_natCast, Bool.false_eq_true, if_false]
  rw [clipColumns_eq hstop (by rw [hh.length]; omega) (by rw [hh.cells]; exact hc) _ 0 (by omega), hh.cells]
  rfl

end Region

/-! ## The region -/

/-- Where a text ends that has just been printed. -/
def textEnd (t : TermState) : Pos := if t.wrapnext then ⟨t.curs.y, t.curs.x + 1⟩ else t.curs

theorem textEnd_showing (t : TermState) (pre : List Line) (l : Line) (post : List Line) {col : Nat} (hu : 0 < t.usable)
    (hcol : col ≤ t.usable) : (t.showing pre l post col).textEnd = ⟨pre.length, col⟩ := by
  show (if (col == t.usable) = true then (⟨pre.length, (min col (t.usable - 1) : Nat) + 1⟩ : Pos)
    else ⟨pre.length, (min col (t.usable - 1) : Nat)⟩) = _
  split
  · have hfull := beq_iff_eq.mp (by assumption)
    have hx : ((min col (t.usable - 1) : Nat) : Int) + 1 = col := by omega
    rw [hx]
  · have hne : col ≠ t.usable := fun he => by simp_all
    rw [Nat.min_eq_left (by omega)]

theorem lineptr_at {s : TermState} {pre post : List Line} {l : Line} (hs : s.screen = pre ++ l :: post)
    (hl : l.cells.length = s.cols) : s.lineptr pre.length = some l := by
  have hw : s.widen l = l := by rw [widen, Line.cols, if_neg (by omega)]
  unfold lineptr
  rw [if_pos (Int.natCast_nonneg _), hs]
  simp [hw]

section Region

variable {p : Platform} {u : UcsData} {rawcnp : Bool} {t s : TermState} {above done post : List Line} {l : Line}
  {cells cur : List Cell}

/-- From one of the full lines to the cursor. -/
theorem clipLines_eq (p : Platform) (u : UcsData) (rawcnp : Bool) (hu : 2 ≤ t.usable) (hcols : s.cols = t.cols)
    (hr : t.Ready cur l) (hroom : cur.length ≤ t.usable)
    (hused : ∀ cell, cur.getLast? = some cell → CellUsed cell) (hcur : ∀ cell ∈ cur, CellCopyable p cell) :
    ∀ (rest pre : List Line), s.screen = pre ++ rest ++ l :: post → (∀ l ∈ rest, t.Wrapped l) →
      (∀ l ∈ rest, ∀ cell ∈ t.textOf l, CellCopyable p cell) →
      clipLines p u rawcnp s ⟨pre.length + rest.length, cur.length⟩ false (rest.length + 1) ⟨pre.length, 0⟩ =
        some ((rest.flatMap t.textOf ++ cur).flatMap (cellText p)) := by
  intro rest
  induction rest with
  | nil =>
    intro pre hs _ _
    have hy : (pre.length : Int) + (([] : List Line).length : Nat) = pre.length := by simp
    rw [hy, clipLines, poslt_same]
    by_cases hne : cur = []
    · subst hne
      rfl
    · have hpos := List.length_pos_iff.mpr hne
      have hline := lineptr_at (by simpa using hs) ((hr.holds hne).length.trans hcols.symm)
      rw [decide_eq_true (by omega), if_pos rfl, hline, Option.bind_some, hr.clipLine_eq hne hroom hcols hused hcur]
      simp [clipLines]
  | cons r rest ih =>
    intro pre hs hw hc
    have hwr := hw r (by simp)
    have hline := lineptr_at (by simpa using hs) (hwr.length.trans hcols.symm)
    have hbelow : (pre.length : Int) < pre.length + ((r :: rest).length : Nat) := by
      rw [List.length_cons]
      omega
    have hy : (pre.length : Int) + ((r :: rest).length : Nat) = (pre ++ [r]).length + (rest.length : Nat) := by
      rw [List.length_append, List.length_cons, List.length_singleton]
      omega
    have hnext : (pre.length : Int) + 1 = (pre ++ [r]).length := by simp
    have hrest := ih (pre ++ [r]) (by simpa using hs) (fun l hl => hw l (List.mem_cons_of_mem _ hl)) fun l hl =>
      hc l (List.mem_cons_of_mem _ hl)
    rw [clipLines, poslt_line hbelow, if_pos rfl, hline, Option.bind_some, hwr.clipLine_eq hu hcols hbelow (hc r (by simp)),
      Option.bind_some, hy]
    simp only [Bool.false_eq_true, if_false, hnext, List.length_cons, hrest, Option.map_some]
    simp

/-- The region that the text occupies. -/
theorem Laid.clipme_eq (p : Platform) (u : UcsData) (rawcnp : Bool) (h : t.Laid above done l post cells cur)
    (hu : 2 ≤ t.usable)
    (hused : ∀ cell, cells.getLast? = some cell → CellUsed cell) (hc : ∀ cell ∈ cells, CellCopyable p cell) :
    clipme p u rawcnp (t.showing (above ++ done) l post cur.length) ⟨above.length, 0⟩
        (t.showing (above ++ done) l post cur.length).textEnd false =
      some (cells.flatMap (cellText p) ++ if p.nulTerminated then [0] else []) := by
  have hcells := h.cells
  have hmem : ∀ cell ∈ done.flatMap t.textOf ++ cur, CellCopyable p cell := hcells ▸ hc
  have hlast : ∀ cell, cur.getLast? = some cell → CellUsed cell := by
    intro cell hcell
    refine hused cell ?_
    rw [← hcells, List.getLast?_append, hcell]
    rfl
  have hscreen : (t.showing (above ++ done) l post cur.length).screen = above ++ done ++ l :: post := rfl
  have hclip := clipLines_eq p u rawcnp hu (show (t.showing (above ++ done) l post cur.length).cols = t.cols from rfl)
    h.ready h.room hlast
    (fun cell hm => hmem cell (List.mem_append_right _ hm)) done above hscreen h.wrapped fun l hl cell hm =>
      hmem cell (List.mem_append_left _ (List.mem_flatMap.mpr ⟨l, hl, hm⟩))
  have hend : ((above ++ done).length : Int) = above.length + done.length := by simp
  have hcount : ((above.length : Int) + done.length - above.length + 1).toNat = done.length + 1 := by omega
  unfold clipme
  rw [textEnd_showing t _ _ _ (by omega) h.room, hend]
  simp only [hcount, hclip, hcells, Option.map_some]
  cases p.nulTerminated <;> simp

end Region

end TermState

/-! ## Texts -/

/-- A printable character of one or two cells with its combining characters: at most CC_LIMIT of them,
    and none on U+FFFD. -/
structure Glyph.Printable (p : Platform) (termCharWidth : UInt32 → Int) (g : Glyph) : Prop where
  width : termCharWidth g.base = 1 ∨ termCharWidth g.base = 2
  marks : ∀ c ∈ g.marks, termCharWidth c = 0
  limit : g.marks.length ≤ CC_LIMIT
  codes : ∀ c ∈ g.codes, Copyable p c
  replacement : g.base = replacementChar → g.marks = []

/-- The text does not end in a space. -/
def EndsVisibly (gs : List Glyph) : Prop := ∀ g, gs.getLast? = some g → ¬ (g.base = 0x20 ∧ g.marks = [])

/-- Autowrap is on and the cursor in column 0, on a terminal that uses at least two columns for
    text; on a line that will be trusted no flag is left. -/
structure TermState.CanPrint (t : TermState) (m : DisplayMode) : Prop where
  ok : t.Ok
  wrap : m.wrap = true
  column : t.curs.x = 0
  wrapnext : t.wrapnext = false
  usable : 2 ≤ t.usable
  erase : t.eraseChar.char.chr = CSET_ASCII ||| 0x20
  flags : ∀ l ∈ t.screen, t.NoStale l

/-- The lines that the text needs are there, and are not scrolled. -/
def TermState.FitsBelow (t : TermState) (m : DisplayMode) (termCharWidth : UInt32 → Int) (gs : List Glyph) : Prop :=
  t.Room t.curs.y.toNat (t.curs.y.toNat + (TermState.layout m.vt52Mode t.usable termCharWidth (0, 0) gs).1)

section Texts

variable {p : Platform} {termCharWidth : UInt32 → Int} {m : DisplayMode}

theorem Glyph.Printable.displays {g : Glyph} (h : g.Printable p termCharWidth) : g.Displays termCharWidth :=
  ⟨h.width, ⟨not_directChar (h.codes g.base (by simp [Glyph.codes])).unreserved,
    ne_UCSWIDE (h.codes g.base (by simp [Glyph.codes])).unreserved⟩,
    fun c hc => ⟨h.marks c hc, not_directChar (h.codes c (by simp [Glyph.codes, hc])).unreserved⟩, h.limit, h.replacement⟩

theorem Glyph.Printable.text {g : Glyph} (h : g.Printable p termCharWidth) :
    (g.cells m termCharWidth).flatMap (cellText p) = g.codes.flatMap p.units := by
  have hbase : ¬ g.base = UCSWIDE := h.displays.base.2
  have hfirst : cellText p { m.cell g.base with cc := g.marks } = g.codes.flatMap p.units := by
    have hchr : ¬ ({ m.cell g.base with cc := g.marks } : Cell).chr = UCSWIDE := hbase
    rw [cellText, if_neg hchr]
    rfl
  have hright : cellText p (m.cell UCSWIDE) = [] := rfl
  unfold Glyph.cells TermState.glyphCells
  rw [List.flatMap_cons, hfirst]
  split
  · rw [List.flatMap_singleton, hright, List.append_nil]
  · rw [List.flatMap_nil, List.append_nil]

theorem Glyph.Printable.cells {g : Glyph} (h : g.Printable p termCharWidth) :
    ∀ cell ∈ g.cells m termCharWidth, CellCopyable p cell := by
  intro cell hcell
  unfold Glyph.cells TermState.glyphCells at hcell
  rcases List.mem_cons.mp hcell with rfl | hcell
  · exact .inr h.codes
  · split at hcell
    · rw [List.mem_singleton.mp hcell]
      exact .inl rfl
    · cases hcell

theorem Glyph.Printable.used {g : Glyph} (h : g.Printable p termCharWidth) (hv : ¬ (g.base = 0x20 ∧ g.marks = [])) :
    ∀ cell, (g.cells m termCharWidth).getLast? = some cell → CellUsed cell := by
  intro cell hcell
  unfold Glyph.cells TermState.glyphCells at hcell
  split at hcell
  · obtain rfl : m.cell UCSWIDE = cell := by simpa using hcell
    have hwide : isSpaceChr UCSWIDE = false := by decide
    exact .inl hwide
  · obtain rfl : { m.cell g.base with cc := g.marks } = cell := by simpa using hcell
    by_cases hm : g.marks = []
    · refine .inl ?_
      have hne : g.base ≠ 0x20 := fun he => hv ⟨he, hm⟩
      have hd := h.displays.base.1
      simp [isSpaceChr, DisplayMode.cell, hd, hne]
    · exact .inr hm

/-- A text is copied as it was printed, wherever its lines wrap. -/
theorem wrapped_text_copied (p : Platform) (u : UcsData) (rawcnp : Bool) (m : DisplayMode) (termCharWidth : UInt32 → Int)
    (t : TermState) (gs : List Glyph) (ht : t.CanPrint m) (hg : ∀ g ∈ gs, g.Printable p termCharWidth)
    (hend : EndsVisibly gs) (hroom : t.FitsBelow m termCharWidth gs)
    (hvt52 : TermState.MarksFit m.vt52Mode t.usable termCharWidth (0, 0) gs) :
    ∃ t', (gs.flatMap Glyph.codes).foldlM (fun t c => t.displayGraphicChar m termCharWidth c) t = some t' ∧
      clipme p u rawcnp t' t.curs t'.textEnd false =
        some ((gs.flatMap Glyph.codes).flatMap p.units ++ if p.nulTerminated then [0] else []) := by
  have hok := ht.ok
  have hy : t.curs.y.toNat < t.screen.length := by
    have := hok.curs_y
    have := hok.count_screen
    omega
  obtain ⟨above, l, post, hscreen, habove⟩ : ∃ above l post, t.screen = above ++ l :: post ∧ above.length = t.curs.y.toNat :=
    ⟨t.screen.take t.curs.y.toNat, t.screen[t.curs.y.toNat], t.screen.drop (t.curs.y.toNat + 1), by
      rw [← List.drop_eq_getElem_cons hy, List.take_append_drop], by rw [List.length_take]; omega⟩
  have hcurs : t.curs = ⟨above.length, 0⟩ := by
    have hyy := hok.curs_y.1
    have hx := ht.column
    rw [habove]
    cases hc : t.curs with
    | mk y x =>
      rw [hc] at hyy hx
      simp only at hyy hx
      rw [hx]
      simp only [Pos.mk.injEq, and_true]
      omega
  have hstart : t.showing (above ++ []) l post ([] : List Cell).length = t := by
    have hbeq : (0 == t.usable) = false := beq_eq_false_iff_ne.mpr (by have := ht.usable; omega)
    rw [TermState.showing, List.append_nil, List.length_nil, Nat.zero_min, hbeq]
    unfold TermState.on TermState.withScreen
    rw [← hscreen, ← ht.wrapnext]
    simp only [Nat.cast_zero, ← hcurs]
  have hlaid : t.Laid above [] l post [] [] :=
    ⟨by simp, rfl, (TermState.ready_nil (by have := ht.usable; omega)).mpr (ht.flags l (by simp [hscreen])),
      fun l' hl' => ht.flags l' (by simp [hscreen, hl']), by
        have := hok.count_screen
        rw [hscreen, List.length_append, List.length_cons] at this
        simp only [List.length_nil]
        omega, by simp⟩
  have herase : t.eraseChar.char.chr ≠ UCSWIDE := by
    rw [ht.erase]
    decide
  obtain ⟨done, l', post', cur, hrun, hlaid'⟩ := TermState.Laid.text ht.wrap ht.usable herase gs [] l post [] [] hlaid (fun g hm => (hg g hm).displays)
    (by rw [habove]; exact hroom) hvt52
  rw [hstart] at hrun
  refine ⟨_, hrun, ?_⟩
  have hlast : ∀ cell, (gs.flatMap (Glyph.cells m termCharWidth)).getLast? = some cell → CellUsed cell := by
    intro cell hcell
    rcases List.eq_nil_or_concat gs with rfl | ⟨init, g, rfl⟩
    · cases hcell
    · have hprint := hg g (by simp)
      have hne : g.cells m termCharWidth ≠ [] := by simp [Glyph.cells, TermState.glyphCells]
      rw [List.concat_eq_append, List.flatMap_append, List.flatMap_singleton, List.getLast?_append_of_ne_nil _ hne] at hcell
      exact hprint.used (hend g (by simp)) cell hcell
  have hclip := hlaid'.clipme_eq p u rawcnp ht.usable (by simpa using hlast) (by
    intro cell hcell
    obtain ⟨g, hm, hcell⟩ := List.mem_flatMap.mp (by simpa using hcell)
    exact (hg g hm).cells cell hcell)
  rw [hcurs, hclip, List.nil_append, List.flatMap_assoc, List.flatMap_assoc]
  congr 2
  exact List.flatMap_congr fun g hm => (hg g hm).text

/-! ### A narrow terminal -/

theorem plainSpace_no_cc : (⟨CSET_ASCII ||| 0x20, ATTR_DEFAULT, ⟨none, none⟩, 0⟩ : Termchar).ccNext = 0 := rfl

def plainSpace : Blank where
  char := ⟨CSET_ASCII ||| 0x20, ATTR_DEFAULT, ⟨none, none⟩, 0⟩
  no_cc := plainSpace_no_cc

/-- Three lines of three columns. -/
def narrow : TermState where
  rows := 3
  cols := 3
  scrollback := []
  screen := List.replicate 3 (Line.new 3 plainSpace)
  altScreen := List.replicate 3 (Line.new 3 plainSpace)
  altWhich := 0
  altSblines := 0
  disptop := 0
  tempsblines := 0
  savelines := 0
  curs := ⟨0, 0⟩
  savecurs := ⟨0, 0⟩
  altX := 0
  altY := 0
  altSavecurs := ⟨0, 0⟩
  margT := 0
  margB := 2
  altT := 0
  altB := 2
  wrapnext := false
  altWnext := false
  tabs := [true, false, false]
  trusted := false
  basicEraseChar := plainSpace
  eraseChar := plainSpace
  eraseToScrollback := false

def autowrap : DisplayMode := ⟨true, false, false, ATTR_DEFAULT, ⟨none, none⟩⟩

/-- The widths of the characters below, as mk_wcwidth has them. -/
def someWidths (c : UInt32) : Int := if c = 0x301 then 0 else if c = 0x4E2D ∨ c = 0x20000 then 2 else 1

/-- A code page that is Latin-1 throughout. -/
def latin1 : UcsData where
  unitabXterm := fun b => b.toUInt32
  unitabLine := fun b => b.toUInt32
  unitabScoacs := fun b => b.toUInt32
  unitabFont := fun b => b.toUInt32
  unitabOemcp := fun b => b.toUInt32
  isDbcsLeadbyte := fun _ => false
  mbToWc := fun bs => bs.map fun b => b.toUInt32

theorem narrow_canPrint : narrow.CanPrint autowrap where
  ok := ⟨by decide, by decide, rfl, by decide, by decide, by decide, by decide⟩
  wrap := rfl
  column := rfl
  wrapnext := rfl
  usable := by decide
  erase := rfl
  flags := fun _ _ ht => absurd ht (by decide)

/-- Two wide characters that do not fit where they come, one of them above U+FFFF, in UTF-16. -/
theorem wrapped_text_copied_narrow :
    ∃ t', ([⟨0x41, []⟩, ⟨0x42, []⟩, ⟨0x4E2D, [0x301]⟩, ⟨0x20000, []⟩].flatMap Glyph.codes).foldlM
        (fun t c => t.displayGraphicChar autowrap someWidths c) narrow = some t' ∧
      clipme .windows latin1 false t' narrow.curs t'.textEnd false = some [0x41, 0x42, 0x4E2D, 0x301, 0xD840, 0xDC00, 0] := by
  have hcodes : ∀ c ∈ [0x41, 0x42, 0x4E2D, 0x301, (0x20000 : UInt32)], Copyable .windows c := by
    simp only [List.forall_mem_cons, List.not_mem_nil, false_implies, implies_true, and_true]
    exact ⟨⟨by decide, by decide, by decide⟩, ⟨by decide, by decide, by decide⟩, ⟨by decide, by decide, by decide⟩,
      ⟨by decide, by decide, by decide⟩, ⟨by decide, by decide, by decide⟩⟩
  have hplain : ∀ c ∈ [0x41, 0x42, (0x20000 : UInt32)], Glyph.Printable .windows someWidths ⟨c, []⟩ := by
    intro c hc
    refine ⟨?_, by simp, Nat.zero_le _, fun d hd => hcodes d ?_, fun _ => rfl⟩
    · simp only [List.mem_cons, List.not_mem_nil, or_false] at hc
      rcases hc with rfl | rfl | rfl <;> decide
    · obtain rfl : d = c := by simpa [Glyph.codes] using hd
      exact (by decide : [0x41, 0x42, (0x20000 : UInt32)] ⊆ [0x41, 0x42, 0x4E2D, 0x301, 0x20000]) hc
  have hcjk : Glyph.codes ⟨0x4E2D, [0x301]⟩ ⊆ [0x41, 0x42, 0x4E2D, 0x301, (0x20000 : UInt32)] := by decide
  refine wrapped_text_copied .windows latin1 false autowrap someWidths narrow _ narrow_canPrint ?_ ?_ ?_ ?_
  · intro g hg
    simp only [List.mem_cons, List.not_mem_nil, or_false] at hg
    rcases hg with rfl | rfl | rfl | rfl
    · exact hplain 0x41 (by decide)
    · exact hplain 0x42 (by decide)
    · exact ⟨.inr rfl, List.forall_mem_singleton.mpr (by decide), by decide, fun c hc => hcodes c (hcjk hc), by decide⟩
    · exact hplain 0x20000 (by decide)
  · intro g hg
    obtain rfl : (⟨0x20000, []⟩ : Glyph) = g := Option.some.inj hg
    decide
  · intro i _ hi
    have hi : i < 2 := hi
    have hb : narrow.margB = 2 := rfl
    have hrows : narrow.rows = 3 := rfl
    omega
  · simp only [TermState.MarksFit, and_true]
    decide

/-- U+FFFD takes no combining characters, so one that follows it is not copied. -/
theorem mark_on_replacement_lost : narrow.CanPrint autowrap ∧
    ¬ ∃ t', ([⟨0xFFFD, [0x301]⟩].flatMap Glyph.codes).foldlM (fun t c => t.displayGraphicChar autowrap someWidths c) narrow = some t' ∧
      clipme .unix latin1 false t' narrow.curs t'.textEnd false = some [0xFFFD, 0x301] := by
  refine ⟨narrow_canPrint, ?_⟩
  rintro ⟨t', hrun, hclip⟩
  have hcopied : ((([⟨0xFFFD, [0x301]⟩] : List Glyph).flatMap Glyph.codes).foldlM
      (fun (t : TermState) c => t.displayGraphicChar autowrap someWidths c) narrow).bind
        (fun t' => clipme .unix latin1 false t' narrow.curs t'.textEnd false) = some [0xFFFD] := by decide
  rw [hrun, Option.bind_some, hclip] at hcopied
  revert hcopied
  decide

end Texts

end Putty.Terminal
