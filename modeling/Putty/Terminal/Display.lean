/-
  Putty.Terminal.Display — putting a character on the screen and copying it off again
  (`terminal.c`, insch, term_display_graphic_char and clipme).

  A character that does not fit goes to the next line, and the line that it leaves is marked
  as wrapped; a wide character that does not fit in the last column leaves a space there, and
  the line is marked with LATTR_WRAPPED2 too. A line of a trusted terminal keeps
  TRUST_SIGIL_WIDTH columns for its sigil. clipme reads these flags and says what text a
  region of the screen holds.

  The width of a character is a parameter, as is the code page of the font. Left out: the
  selection, logging, and the colours that are copied with each character.
-/

import Putty.Terminal.Paste
import Putty.Terminal.Screen

namespace Putty.Terminal

def TRUST_SIGIL_WIDTH : Nat := 3

def directChar (c : UInt32) : Bool := c &&& 0xFFFFFC00 == 0xD800

def directFont (c : UInt32) : Bool := c &&& 0xFFFFFE00 == 0xF000

/-! ## Putting a character on the screen -/

/-- move_termchar. -/
def Line.move (l : Line) (dest src : Nat) : Line :=
  { l with cells := (l.cells.set dest (l.cells.getD src default)).modify src Cell.cleared }

/-- The loops of insch for `n` new characters at column `x`, with `m` characters behind them. -/
def Line.insertChars (erase : Blank) (x n m : Nat) (l : Line) : Line :=
  let l := (List.range m).reverse.foldl (fun l j => l.move (x + j + n) (x + j)) l
  (List.range n).reverse.foldl (fun l j => l.erase (x + j) erase) l

/-- The loops of insch for `n` characters that go. -/
def Line.deleteChars (erase : Blank) (x n m : Nat) (l : Line) : Line :=
  let l := (List.range m).foldl (fun l j => l.move (x + j) (x + j + n)) l
  (List.range n).foldl (fun l j => l.erase (x + m + j) erase) l

structure DisplayMode where
  wrap : Bool
  insert : Bool
  vt52Mode : Bool
  currAttr : UInt32
  currTruecolour : Truecolour

/-- The cell that is written for a character. -/
def DisplayMode.cell (m : DisplayMode) (c : UInt32) : Cell := ⟨c, m.currAttr, m.currTruecolour, []⟩

namespace TermState

def insch (t : TermState) (n : Int) : Option TermState :=
  let left := (t.cols : Int) - t.curs.x
  let k := min n.natAbs left.toNat
  let m := left.toNat - k
  (t.checkBoundary t.curs.x t.curs.y).bind fun t =>
  (if n < 0 then t.checkBoundary (t.curs.x + k) t.curs.y else some t).bind fun t =>
  (t.scrlineptr t.curs.y).bind fun t => t.modLine t.curs.y fun l =>
    let l := t.checkTrustStatus l
    if n < 0 then l.deleteChars t.eraseChar t.curs.x.toNat k m else l.insertChars t.eraseChar t.curs.x.toNat k m

/-- The cursor goes to the next line; at the bottom margin the lines scroll instead. -/
def nextRow (t : TermState) : Option TermState :=
  if t.curs.y = t.margB then t.scroll t.margT.toNat t.margB.toNat 1 true
  else if t.curs.y < (t.rows : Int) - 1 then some { t with curs := ⟨t.curs.y + 1, t.curs.x⟩ }
  else some t

/-- Mark the line as wrapped and go to the start of the next. -/
def wrapRow (flags : UInt16) (t : TermState) : Option TermState :=
  (t.modLine t.curs.y fun l => { l with lattr := l.lattr ||| flags }).bind fun t =>
    t.nextRow.map fun t => { t with curs := ⟨t.curs.y, 0⟩ }

/-- The line that `cline` points to. -/
def cline (t : TermState) : Option Line := if 0 ≤ t.curs.y then t.screen[t.curs.y.toNat]? else none

def linecols (t : TermState) (l : Line) : Int := if l.trusted then (t.cols : Int) - TRUST_SIGIL_WIDTH else t.cols

def putCell (m : DisplayMode) (c : UInt32) (t : TermState) : Option TermState :=
  t.modLine t.curs.y fun l => { l with cells := l.cells.set t.curs.x.toNat (m.cell c) }

def right (t : TermState) : TermState := { t with curs := ⟨t.curs.y, t.curs.x + 1⟩ }

/-- The boundaries that a character of that width at the cursor crosses. -/
def checkBoundaries (width : Int) (t : TermState) : Option TermState :=
  (t.checkBoundary t.curs.x t.curs.y).bind fun t => t.checkBoundary (t.curs.x + width) t.curs.y

/-- A space in the last column, and the wide character goes to the next line. -/
def padRow (t : TermState) : Option TermState :=
  (t.modLine t.curs.y fun l => l.erase t.curs.x.toNat t.eraseChar).bind fun t =>
  (t.wrapRow (LATTR_WRAPPED ||| LATTR_WRAPPED2)).bind fun t =>
  (t.scrlineptr t.curs.y).bind (checkBoundaries 2)

def displayWide (m : DisplayMode) (linecols : Int) (c : UInt32) (t : TermState) : Option TermState :=
  (t.checkBoundaries 2).bind fun t =>
  (if t.curs.x ≥ linecols - 1 then t.padRow else some t).bind fun t =>
  (t.putCell m c).bind fun t => t.right.putCell m UCSWIDE

def displayNarrow (m : DisplayMode) (c : UInt32) (t : TermState) : Option TermState :=
  (t.checkBoundaries 1).bind (putCell m c)

/-- A combining character goes to the cell before the cursor, or to the cursor's at the end of a line. -/
def displayCombining (c : UInt32) (t : TermState) : Option TermState :=
  if 0 < t.curs.x then
    let x := if t.wrapnext then t.curs.x else t.curs.x - 1
    (t.cline.bind fun l => l.cells[x.toNat]?).bind fun cell =>
      if cell.chr = UCSWIDE then
        if 0 < x then t.modLine t.curs.y fun l => { l with cells := l.cells.modify (x - 1).toNat (·.add c) } else none
      else t.modLine t.curs.y fun l => { l with cells := l.cells.modify x.toNat (·.add c) }
  else some t

/-- The cursor moves on; in the last column it stays, to wrap later, or at once in VT52 mode. -/
def advance (m : DisplayMode) (linecols : Int) (t : TermState) : Option TermState :=
  let t := t.right
  if t.curs.x ≥ linecols then
    let t := { t with curs := ⟨t.curs.y, linecols - 1⟩, wrapnext := true }
    if m.wrap && m.vt52Mode then (t.wrapRow LATTR_WRAPPED).map fun t => { t with wrapnext := false } else some t
  else some t

/-- The wrap that an earlier character in the last column has left to do. -/
def pendingWrap (m : DisplayMode) (width : Int) (t : TermState) : Option TermState :=
  if t.wrapnext && m.wrap && decide (0 < width) then
    ((t.wrapRow LATTR_WRAPPED).map fun t => { t with wrapnext := false }).bind fun t => t.scrlineptr t.curs.y
  else some t

/-- The rest of it, once the line is the one that the character is to go to. -/
def displayHere (m : DisplayMode) (width : Int) (c : UInt32) (t : TermState) : Option TermState :=
  (if m.insert && decide (0 < width) then t.insch width else some t).bind fun t =>
  (t.modLine t.curs.y t.checkTrustStatus).bind fun t =>
  t.cline.bind fun cline =>
  let linecols := t.linecols cline
  let (width, c) := if width = 2 ∧ linecols < 2 then (1, replacementChar) else (width, c)
  if width = 2 then (t.displayWide m linecols c).bind (advance m linecols)
  else if width = 1 then (t.displayNarrow m c).bind (advance m linecols)
  else if width = 0 then t.displayCombining c
  else some t

def displayGraphicChar (m : DisplayMode) (termCharWidth : UInt32 → Int) (t : TermState) (c : UInt32) : Option TermState :=
  (t.scrlineptr t.curs.y).bind fun t =>
  let width := if directChar c then 1 else termCharWidth c
  (t.pendingWrap m width).bind (displayHere m width c)

/-! ## Copying -/

/-- lineptr, for a line of the screen, of the scrollback, or of the alternate screen between them. -/
def lineptr (t : TermState) (y : Int) : Option Line :=
  if 0 ≤ y then (t.screen[y.toNat]?).map t.widen
  else
    let altlines := if t.eraseToScrollback = true ∧ t.altWhich ≠ 0 then t.altSblines else 0
    let (whichtree, treeindex) :=
      if y < -altlines then (t.scrollback, y + altlines + t.scrollback.length) else (t.altScreen, y + t.altSblines)
    if 0 ≤ treeindex then (whichtree[treeindex.toNat]?).map t.widen else none

/-- Move one position back. -/
def decpos (t : TermState) (p : Pos) : Pos := if p.x = 0 then ⟨p.y - 1, t.cols⟩ else ⟨p.y, p.x - 1⟩

end TermState

/-- SELECTION_NUL_TERMINATED. -/
def Platform.nulTerminated : Platform → Bool
  | .windows => true
  | .unix => false

/-- The tables of the Unicode data, and what mb_to_wc makes of the bytes of the font's code page. -/
structure UcsData where
  unitabXterm : UInt8 → WChar
  unitabLine : UInt8 → WChar
  unitabScoacs : UInt8 → WChar
  unitabFont : UInt8 → WChar
  unitabOemcp : UInt8 → WChar
  isDbcsLeadbyte : UInt8 → Bool
  mbToWc : List UInt8 → List WChar

def CSET_MASK : UInt32 := 0xFFFFFF00
def CSET_LINEDRW : UInt32 := 0xD900
def CSET_SCOACS : UInt32 := 0xDA00
def CSET_OEMCP : UInt32 := 0xF000
def CSET_ACP : UInt32 := 0xF100

def isSpaceChr (chr : UInt32) : Bool := chr == 0x20 || (directChar chr && chr &&& 0xFF == 0x20)

section Clip

variable (p : Platform) (u : UcsData) (rawcnp : Bool)

/-- The two switches on the character set. -/
def UcsData.unicode (u : UcsData) (rawcnp : Bool) (uc : UInt32) : UInt32 :=
  let low := uc.toUInt8
  let uc :=
    if uc &&& CSET_MASK = CSET_LINEDRW ∧ rawcnp = false then u.unitabXterm low
    else if uc &&& CSET_MASK = CSET_LINEDRW ∨ uc &&& CSET_MASK = CSET_ASCII then u.unitabLine low
    else if uc &&& CSET_MASK = CSET_SCOACS then u.unitabScoacs low
    else uc
  let low := uc.toUInt8
  if uc &&& CSET_MASK = CSET_ACP then u.unitabFont low
  else if uc &&& CSET_MASK = CSET_OEMCP then u.unitabOemcp low
  else uc

/-- A wchar_t. -/
def wchar (uc : UInt32) : WChar := if p.isUtf16 then uc &&& 0xFFFF else uc

/-- What cbuf holds for a code. -/
def cbuf (uc : UInt32) : List WChar :=
  if p.isUtf16 = true ∧ 0x10000 < uc ∧ uc < 0x110000 then
    [(0xD800 : WChar) ||| ((uc - 0x10000) >>> 10), (0xDC00 : WChar) ||| ((uc - 0x10000) &&& 0x3FF)]
  else [wchar p uc]

/-- The text of one code of a cell, up to a NUL, and the column that the copy has got to. A lead
    byte of the font takes the next column's character with it. -/
def clipCode (l : Line) (chr : UInt32) (x : Nat) : Option (List WChar × Nat) :=
  let uc := u.unicode rawcnp chr
  let c := uc.toUInt8
  let upToNul := fun ws : List WChar => ws.takeWhile (· != 0)
  if directFont uc = true ∧ 0x20 ≤ c ∧ c ≠ 0x7F then
    if u.isDbcsLeadbyte c then
      (l.cells[x + 1]?).map fun next =>
        let wbuf := u.mbToWc [c, next.chr.toUInt8]
        (upToNul (if wbuf = [] then cbuf p uc else wbuf), x + 1)
    else
      let wbuf := u.mbToWc [c]
      some (upToNul (if wbuf = [] then cbuf p uc else wbuf), x)
  else some (upToNul (cbuf p uc), x)

/-- The inner loop of clipme, over a character and its combining characters. -/
def clipCell (l : Line) : List UInt32 → Nat → Option (List WChar × Nat)
  | [], x => some ([], x)
  | chr :: chrs, x =>
    (clipCode p u rawcnp l chr x).bind fun (ws, x) => (clipCell l chrs x).map fun (ws', x) => (ws ++ ws', x)

/-- The loop over the columns of line `y` from `x` on, for the number of columns there are. -/
def clipColumns (l : Line) (y : Int) (bottom nlpos : Pos) : Nat → Nat → Option (List WChar)
  | 0, _ => some []
  | n + 1, x =>
    if poslt ⟨y, x⟩ bottom && poslt ⟨y, x⟩ nlpos then
      (l.cells[x]?).bind fun cell =>
        if cell.chr = UCSWIDE then clipColumns l y bottom nlpos n (x + 1)
        else (clipCell p u rawcnp l (cell.chr :: cell.cc) x).bind fun (ws, x) =>
          (clipColumns l y bottom nlpos n (x + 1)).map (ws ++ ·)
    else some []

/-- The loop that moves `nlpos` back over unused space at the end of a line. -/
def trimSpaces (l : Line) (top : Pos) : Nat → Nat
  | 0 => 0
  | x + 1 =>
    match l.cells[x]? with
    | some cell =>
      if isSpaceChr cell.chr = true ∧ cell.cc = [] ∧ poslt top ⟨top.y, (x + 1 : Nat)⟩ = true then trimSpaces l top x else x + 1
    | none => x + 1

variable (t : TermState)

/-- How far to copy on this line, and whether a newline comes after it. -/
def nlpos (l : Line) (top bottom : Pos) (rect : Bool) : Pos × Bool :=
  let (nlpos, nl) : Pos × Bool :=
    if l.lattr &&& LATTR_WRAPPED = 0 then
      let nlpos : Pos := ⟨top.y, trimSpaces l top t.cols⟩
      (nlpos, poslt nlpos bottom)
    else
      let nlpos : Pos := ⟨top.y, if l.trusted then ((t.cols - TRUST_SIGIL_WIDTH : Nat) : Int) else t.cols⟩
      (if l.lattr &&& LATTR_WRAPPED2 = 0 then nlpos else t.decpos nlpos, false)
  if rect then (⟨nlpos.y, min nlpos.x bottom.x⟩, decide (top.y < bottom.y)) else (nlpos, nl)

/-- The text of one line: the columns before both `bottom` and `nlpos`, and a newline. -/
def clipLine (l : Line) (top bottom : Pos) (rect : Bool) : Option (List WChar) :=
  let (nlpos, nl) := nlpos t l top bottom rect
  (clipColumns p u rawcnp l top.y bottom nlpos (nlpos.x - top.x).toNat top.x.toNat).map fun ws =>
    if nl then ws ++ p.selNl else ws

/-- The loop over the lines, for the number of lines there are. -/
def clipLines (bottom : Pos) (rect : Bool) : Nat → Pos → Option (List WChar)
  | 0, _ => some []
  | n + 1, top =>
    if poslt top bottom then
      (t.lineptr top.y).bind fun l =>
      (clipLine p u rawcnp t l top bottom rect).bind fun ws =>
      (clipLines bottom rect n ⟨top.y + 1, if rect then top.x else 0⟩).map (ws ++ ·)
    else some []

/-- The text that goes to the clipboard. -/
def clipme (top bottom : Pos) (rect : Bool) : Option (List WChar) :=
  (clipLines p u rawcnp t bottom rect (bottom.y - top.y + 1).toNat top).map fun ws => if p.nulTerminated then ws ++ [0] else ws

end Clip

end Putty.Terminal
