/-
  Putty.Terminal.Screen — the lines of the terminal: the screen, the alternate screen and the
  scrollback (`terminal.c`, resizeline to check_line_size, find_last_nonempty_line,
  swap_screen, clear_line, check_trust_status, scroll, check_boundary, erase_lots and
  term_size).

  A line is kept as the cells it shows (`Putty.Terminal.Termline` says that the array with its
  combining characters is such a list of cells, and what resizeline and copy_termchar do to
  it: `resizeline_line`). A line in the scrollback is the line that was compressed. The
  terminal is one that has been given a size: its trees exist.

  `none` is a line that is not there, which is null_line_error, or an assertion that fails.

  Left out: the selection, the window and its scroll bar, the buffer of displayed text, and the
  settings that swap_screen only exchanges (dec_om, wrap, insert, the character sets, the
  saved attributes).
-/

import Putty.Terminal.Termline

namespace Putty.Terminal

/-! ## Lines -/

@[ext] structure Line where
  cells : List Cell
  lattr : UInt16
  trusted : Bool
  deriving DecidableEq, Repr, Inhabited

def LATTR_NORM : UInt16 := 0
def LATTR_WIDE : UInt16 := 1
def LATTR_WRAPPED : UInt16 := 0x10
def LATTR_WRAPPED2 : UInt16 := 0x20

def CSET_ASCII : UInt32 := 0xD800
def UCSWIDE : UInt32 := 0xDFFF
def DATTR_MASK : UInt32 := 0xF0000000
def ATTR_DEFAULT : UInt32 := (256 : UInt32) ||| ((258 : UInt32) <<< (9 : UInt32))

/-- The line that an array of termchars shows. -/
def Termline.line (l : Termline) : Line := { cells := l.cells, lattr := l.lattr, trusted := l.trusted }

namespace Line

def cols (l : Line) : Nat := l.cells.length

/-- newtermline: a new line of erase characters. -/
def new (cols : Nat) (erase : Blank) : Line where
  cells := List.replicate cols erase.cell
  lattr := LATTR_NORM
  trusted := false

/-- resizeline. -/
def resize (basic : Blank) (cols : Nat) (l : Line) : Line :=
  { l with cells := l.cells.take cols ++ List.replicate (cols - l.cells.length) basic.cell }

/-- copy_termchar of an erase character. -/
def erase (l : Line) (x : Nat) (b : Blank) : Line := { l with cells := l.cells.set x b.cell }

end Line

/-! ### Arrays and what they show -/

def attrEqual (a b : UInt32) : Bool := a &&& ~~~DATTR_MASK == b &&& ~~~DATTR_MASK

def termcharsEqual (a b : Cell) : Bool :=
  a.truecolour == b.truecolour && a.chr == b.chr && attrEqual a.attr b.attr && a.cc == b.cc

/-! ## The terminal -/

structure Pos where
  y : Int
  x : Int
  deriving DecidableEq, Repr, Inhabited

def poslt (p q : Pos) : Bool := p.y < q.y || (p.y == q.y && p.x < q.x)

structure TermState where
  rows : Nat
  cols : Nat
  scrollback : List Line
  screen : List Line
  altScreen : List Line
  altWhich : Nat
  altSblines : Int
  disptop : Int
  tempsblines : Nat
  savelines : Nat
  curs : Pos
  savecurs : Pos
  altX : Int
  altY : Int
  altSavecurs : Pos
  margT : Int
  margB : Int
  altT : Int
  altB : Int
  wrapnext : Bool
  altWnext : Bool
  tabs : List Bool
  trusted : Bool
  basicEraseChar : Blank
  eraseChar : Blank
  eraseToScrollback : Bool

namespace TermState

/-- Move one position on; the flag says that it is on the next line. -/
def incpos (t : TermState) (p : Pos) : Pos × Bool :=
  if p.x = t.cols then (⟨p.y + 1, 0⟩, true) else (⟨p.y, p.x + 1⟩, false)

/-- Change the line of the screen that a termline pointer is to. -/
def modLine (t : TermState) (y : Int) (f : Line → Line) : Option TermState :=
  if 0 ≤ y ∧ y.toNat < t.screen.length then some { t with screen := t.screen.modify y.toNat f } else none

/-- The part of lineptr that resizes a line to at least the right length. -/
def widen (t : TermState) (l : Line) : Line := if l.cols < t.cols then l.resize t.basicEraseChar t.cols else l

/-- scrlineptr: the line must exist. -/
def scrlineptr (t : TermState) (y : Int) : Option TermState := t.modLine y t.widen

def checkLineSize (t : TermState) (l : Line) : Line := if t.cols ≠ l.cols then l.resize t.basicEraseChar t.cols else l

/-- The loop of clear_line over the columns. -/
def clearCells (erase : Blank) (n : Nat) (l : Line) : Line := (List.range n).foldl (fun l i => l.erase i erase) l

def clearLine (t : TermState) (l : Line) : Line :=
  { clearCells t.eraseChar t.cols (l.resize t.basicEraseChar t.cols) with lattr := LATTR_NORM }

def checkTrustStatus (t : TermState) (l : Line) : Line :=
  if l.trusted ≠ t.trusted then { t.clearLine l with trusted := t.trusted } else l

/-- The loop of find_last_nonempty_line over the lines before `i`. -/
def lastNonempty (erase : Blank) (screen : List Line) : Nat → Int
  | 0 => -1
  | i + 1 =>
    match screen[i]? with
    | some l => if l.cells.all (termcharsEqual · erase.cell) then lastNonempty erase screen i else i
    | none => lastNonempty erase screen i

def findLastNonemptyLine (t : TermState) (screen : List Line) : Int := lastNonempty t.eraseChar screen screen.length

/-! ## Scrolling -/

/-- The line moved out at the top is added to the scrollback; if that is full, its first line goes. -/
def pushScrollback (t : TermState) (line : Line) : TermState :=
  let t := if t.scrollback.length = t.savelines then { t with scrollback := t.scrollback.drop 1 }
    else { t with tempsblines := t.tempsblines + 1 }
  let t := { t with scrollback := t.scrollback ++ [line] }
  if t.disptop > -(t.savelines : Int) ∧ t.disptop < 0 then { t with disptop := t.disptop - 1 } else t

/-- One pass of the loop of scroll, forward. -/
def scrollForward (t : TermState) (topline botline : Nat) (sb : Bool) : Option TermState :=
  match t.screen[topline]? with
  | none => none
  | some line =>
    let t := { t with screen := t.screen.eraseIdx topline }
    let t := if sb && decide (0 < t.savelines) then t.pushScrollback line else t
    let line := t.checkTrustStatus (t.clearLine (line.resize t.basicEraseChar t.cols))
    some { t with screen := t.screen.insertIdx botline line }

/-- One pass of the loop of scroll, backward. -/
def scrollBackward (t : TermState) (topline botline : Nat) : Option TermState :=
  match t.screen[botline]? with
  | none => none
  | some line =>
    let t := { t with screen := t.screen.eraseIdx botline }
    let line := t.clearLine (line.resize t.basicEraseChar t.cols)
    some { t with screen := t.screen.insertIdx topline line }

def times {α : Type} (f : α → Option α) : Nat → α → Option α
  | 0, a => some a
  | n + 1, a => (f a).bind (times f n)

def scroll (t : TermState) (topline botline : Nat) (lines : Int) (sb : Bool) : Option TermState :=
  let sb := if topline ≠ 0 ∨ t.altWhich ≠ 0 then false else sb
  let scrollwinsize := botline + 1 - topline
  if lines < 0 then times (fun t => t.scrollBackward topline botline) (min lines.natAbs scrollwinsize) t
  else times (fun t => t.scrollForward topline botline sb) (min lines.natAbs scrollwinsize) t

/-! ## Erasing -/

/-- A wide character whose right half is in column `x` becomes two spaces. -/
def splitWide (x : Nat) (l : Line) : Line :=
  match l.cells[x]? with
  | some c =>
    if c.chr = UCSWIDE then
      let left := { (l.cells.getD (x - 1) default).cleared with chr := CSET_ASCII ||| 0x20 }
      { l with cells := (l.cells.set (x - 1) left).set x left }
    else l
  | none => l

def checkBoundary (t : TermState) (x y : Int) : Option TermState :=
  if x ≤ 0 ∨ x > t.cols then some t
  else
    (t.scrlineptr y).bind fun t => t.modLine y fun l =>
      let l := t.checkLineSize (t.checkTrustStatus l)
      if x = t.cols then { l with lattr := l.lattr &&& ~~~LATTR_WRAPPED2 } else splitWide x.toNat l

/-- Where an erase starts and ends, and whether it also erases the line attributes. -/
def eraseRegion (t : TermState) (lineOnly fromBegin toEnd : Bool) : Pos × Pos × Bool :=
  let start : Pos := if lineOnly then ⟨t.curs.y, 0⟩ else ⟨0, 0⟩
  let stop : Pos := if lineOnly then ⟨t.curs.y + 1, 0⟩ else ⟨t.rows, 0⟩
  let start := if fromBegin then start else t.curs
  let stop := if toEnd then stop else (t.incpos t.curs).1
  (start, stop, !lineOnly)

/-- One pass of the loop of erase_lots: erase at `p`. -/
def erasePos (t : TermState) (p : Pos) (eraseLattr : Bool) : Option TermState :=
  t.modLine p.y fun l =>
    let l := t.checkLineSize l
    if p.x = t.cols then
      { l with lattr := if eraseLattr then LATTR_NORM else l.lattr &&& ~~~(LATTR_WRAPPED ||| LATTR_WRAPPED2) }
    else l.erase p.x.toNat t.eraseChar

/-- `ldata = scrlineptr(y)`, and its trust status is checked. -/
def eraseLine (t : TermState) (y : Int) : Option TermState := (t.scrlineptr y).bind fun t => t.modLine y t.checkTrustStatus

/-- The loop of erase_lots, for the number of positions there are. -/
def eraseLoop (stop : Pos) (eraseLattr : Bool) : Nat → Pos → TermState → Option TermState
  | 0, _, t => some t
  | n + 1, p, t =>
    if poslt p stop then
      (t.erasePos p eraseLattr).bind fun t =>
        let q := t.incpos p
        if q.2 && decide (q.1.y < t.rows) then (t.eraseLine q.1.y).bind (eraseLoop stop eraseLattr n q.1)
        else eraseLoop stop eraseLattr n q.1 t
    else some t

/-- The number of positions from `p` up to `stop`; a line has one more than columns. -/
def posCount (t : TermState) (p stop : Pos) : Nat := ((stop.y - p.y) * (t.cols + 1) + (stop.x - p.x)).toNat

def eraseInPlace (t : TermState) (start stop : Pos) (eraseLattr : Bool) : Option TermState :=
  (t.eraseLine start.y).bind (eraseLoop stop eraseLattr (t.posCount start stop) start)

/-- Erase by scrolling away the lines before line `y`, or all up to the last that is not empty. -/
def eraseByScrolling (t : TermState) (y : Int) : Option TermState :=
  let scrolllines := if y = t.rows then t.findLastNonemptyLine t.screen + 1 else y
  if 0 < scrolllines then t.scroll 0 (scrolllines - 1).toNat scrolllines true else some t

def eraseLots (t : TermState) (lineOnly fromBegin toEnd : Bool) : Option TermState :=
  let (start, stop, eraseLattr) := t.eraseRegion lineOnly fromBegin toEnd
  (if !fromBegin || !toEnd then t.checkBoundary t.curs.x t.curs.y else some t).bind fun t =>
    let erasingLinesFromTop := start = ⟨0, 0⟩ ∧ stop.x = 0 ∧ eraseLattr = true
    (if t.eraseToScrollback = true ∧ erasingLinesFromTop then t.eraseByScrolling stop.y
      else t.eraseInPlace start stop eraseLattr).map fun t =>
        if erasingLinesFromTop ∧ t.altWhich = 0 then { t with tempsblines := 0 } else t

/-! ## The alternate screen -/

def swapScreen (t : TermState) (which : Nat) (reset keepCurPos : Bool) : Option TermState :=
  let reset := if which = 0 then false else reset
  let keep := reset || keepCurPos
  let t :=
    if which = t.altWhich then t
    else
      { t with
        altWhich := which
        altScreen := t.screen
        screen := t.altScreen
        altSblines := t.findLastNonemptyLine t.screen + 1
        curs := if keep then t.curs else ⟨t.altY, t.altX⟩
        altX := t.curs.x
        altY := t.curs.y
        margT := if reset then t.margT else t.altT
        altT := t.margT
        margB := if reset then t.margB else t.altB
        altB := t.margB
        wrapnext := if reset then t.wrapnext else t.altWnext
        altWnext := t.wrapnext
        savecurs := if keep then t.savecurs else t.altSavecurs
        altSavecurs := t.savecurs }
  if reset then t.eraseLots false true true else some t

/-! ## Resizing -/

/-- Move the cursors with the lines of the screen. -/
def shiftCursors (t : TermState) (d : Int) : TermState :=
  { t with
    curs := ⟨t.curs.y + d, t.curs.x⟩
    savecurs := ⟨t.savecurs.y + d, t.savecurs.x⟩
    altY := t.altY + d
    altSavecurs := ⟨t.altSavecurs.y + d, t.altSavecurs.x⟩ }

/-- One pass of the loop of term_size that expands the screen; the number is its variable sblen. -/
def expandRow (newcols : Nat) : TermState × Nat → Option (TermState × Nat)
  | (t, sblen) =>
    if 0 < t.tempsblines then
      if sblen < t.tempsblines then none
      else
        match t.scrollback[sblen - 1]? with
        | none => none
        | some line =>
          let t := { t with
            scrollback := t.scrollback.eraseIdx (sblen - 1)
            tempsblines := t.tempsblines - 1
            screen := line :: t.screen
            rows := t.rows + 1 }
          some (t.shiftCursors 1, sblen - 1)
    else some ({ t with screen := t.screen ++ [Line.new newcols t.basicEraseChar], rows := t.rows + 1 }, sblen)

/-- One pass of the loop that shrinks it: delete the bottom row, unless it contains the cursor. -/
def shrinkRow : TermState × Nat → Option (TermState × Nat)
  | (t, sblen) =>
    if t.curs.y < (t.rows : Int) - 1 then
      match t.screen[t.rows - 1]? with
      | none => none
      | some _ => some ({ t with screen := t.screen.eraseIdx (t.rows - 1), rows := t.rows - 1 }, sblen)
    else
      match t.screen with
      | [] => none
      | line :: rest =>
        let t := { t with
          screen := rest
          scrollback := t.scrollback.insertIdx sblen line
          tempsblines := t.tempsblines + 1
          rows := t.rows - 1 }
        some (t.shiftCursors (-1), sblen + 1)

def clampPos (newrows newcols : Nat) (p : Pos) : Pos :=
  let y := if p.y < 0 then 0 else p.y
  ⟨if y ≥ newrows then (newrows : Int) - 1 else y, if p.x ≥ newcols then (newcols : Int) - 1 else p.x⟩

/-- The excess lines of the scrollback go; the first ones. -/
def trimScrollback (t : TermState) (sblen newsavelines : Nat) : TermState :=
  let t := { t with scrollback := t.scrollback.drop (sblen - newsavelines) }
  let sblen := min sblen newsavelines
  if sblen < t.tempsblines then { t with tempsblines := sblen } else t

/-- The rest of term_size: a new alternate screen, tab stops, and cursors that are on the screen. -/
def settle (t : TermState) (newrows newcols newsavelines : Nat) : TermState :=
  { t with
    disptop := 0
    altScreen := List.replicate newrows (Line.new newcols t.eraseChar)
    altSblines := 0
    tabs := t.tabs.take newcols ++ (List.range' t.cols (newcols - t.cols)).map fun i => decide (i % 8 = 0)
    savecurs := clampPos newrows newcols t.savecurs
    altSavecurs := clampPos newrows newcols t.altSavecurs
    curs := clampPos newrows newcols t.curs
    altX := 0
    altY := 0
    wrapnext := false
    altWnext := false
    rows := newrows
    cols := newcols
    savelines := newsavelines }

/-- do_paint asks for every line of the screen through lineptr. -/
def paint (t : TermState) : TermState := { t with screen := t.screen.map t.widen }

/-- term_size of a terminal that has had a size; `draws` says whether the window can be drawn on. -/
def termSize (draws : Bool) (newrows newcols : Int) (newsavelines : Nat) (t : TermState) : Option TermState :=
  if newrows = t.rows ∧ newcols = t.cols ∧ newsavelines = t.savelines then some t
  else
    let rows' := (max newrows 1).toNat
    let cols' := (max newcols 1).toNat
    let saved := t.altWhich
    (t.swapScreen 0 false false).bind fun t =>
    let t := { t with altT := 0, margT := 0, altB := (rows' : Int) - 1, margB := (rows' : Int) - 1 }
    if t.rows ≠ t.screen.length then none
    else
      (times (expandRow cols') (rows' - t.rows) (t, t.scrollback.length)).bind fun s =>
      (times shrinkRow (s.1.rows - rows') s).bind fun s =>
      if s.1.rows ≠ rows' ∨ s.1.screen.length ≠ rows' then none
      else
        let t := s.1.trimScrollback s.2 newsavelines
        if newsavelines < t.scrollback.length ∨ t.scrollback.length < t.tempsblines then none
        else
          ((t.settle rows' cols' newsavelines).swapScreen saved false false).map fun t => if draws then t.paint else t

end TermState

end Putty.Terminal
