/-
  Putty.Zlib.Code — the decompressor (`sshzlib.c`): its Huffman tables, the table lookup
  and the resumable state machine that eats a packet's bytes.

  A function is `none` where the code would index an array out of range, follow a null
  pointer, fail an assertion or not come back. An `unsigned long` or `int` is a number:
  `Putty.Zlib.Decoder` shows that none of them gets large. `x & (2^n - 1)` is written
  `x % 2 ^ n`. The arrays of the context have their declared sizes in their types; what a
  fresh context holds in the fields that are not set is whatever was in the memory.

  Left out: freeing the tables, `zlib_decompress_cleanup`, and the compressor.
-/

import Mathlib.Data.List.Basic
import Mathlib.Tactic.Ring
import Mathlib.Logic.Function.Basic

namespace Putty.Zlib

def WINSIZE : Nat := 32768
def MAXCODELEN : Nat := 16
def MAXSYMS : Nat := 288

/-! ## Huffman tables -/

mutual

/-- `struct zlib_table`: the mask applied to the input bits and `mask + 1` entries. -/
inductive Table where
  | mk (mask : Nat) (table : List TableEntry)

/-- `struct zlib_tableentry`: `code` is `none` where the code has -1. -/
inductive TableEntry where
  | mk (nbits : Nat) (code : Option Nat) (nexttable : Option Table)

end

/-- An entry while the symbols are being put in. -/
structure Slot where
  nbits : Nat
  code : Option Nat
  deriving DecidableEq, Repr

/-- The turn of the symbol `i`: it fills every slot whose low bits are its code. -/
def putSymbol (pfx pfxbits bits : Nat) (table : List Slot) : (Nat × Nat) × Nat → List Slot
  | ((length, code), i) =>
    if length ≤ pfxbits ∨ code % 2 ^ pfxbits ≠ pfx then table
    else
      let first := code / 2 ^ pfxbits % 2 ^ bits
      table.zipIdx.map fun (slot, j) =>
        -- j = first; j <= mask; j += 1 << (length - pfxbits)
        if first ≤ j ∧ (j - first) % 2 ^ (length - pfxbits) = 0 then ⟨max slot.nbits (length - pfxbits), some i⟩ else slot

def fill (codes lengths : List Nat) (pfx pfxbits bits : Nat) : List Slot :=
  (lengths.zip codes).zipIdx.foldl (putSymbol pfx pfxbits bits) (List.replicate (2 ^ bits) ⟨0, none⟩)

/-- The first argument bounds the depth of the recursion. -/
def mkonetab : Nat → List Nat → List Nat → Nat → Nat → Nat → Option Table
  | 0, _, _, _, _, _ => none
  | fuel + 1, codes, lengths, pfx, pfxbits, bits => do
    let table ← (fill codes lengths pfx pfxbits bits).zipIdx.mapM fun (slot, code) =>
      if slot.nbits ≤ bits then some (TableEntry.mk slot.nbits slot.code none)
      else do
        let sub ← mkonetab fuel codes lengths (pfx + code * 2 ^ pfxbits) (pfxbits + bits) (min (slot.nbits - bits) 7)
        some (TableEntry.mk bits none (some sub))
    some (Table.mk (2 ^ bits - 1) table)

/-- `count[lengths[i]]++` for every symbol. -/
def countLengths (lengths : List Nat) : Option (List Nat) :=
  lengths.foldlM (fun count len => if len < MAXCODELEN then some (count.modify len (· + 1)) else none)
    (List.replicate MAXCODELEN 0)

/-- `startcode[i]` for the lengths whose counts are given, `code` being the first of them. -/
def startcodes : List Nat → Nat → List Nat
  | [], _ => []
  | count :: counts, code => code :: startcodes counts ((code + count) <<< 1)

/-- The lowest `len` bits of `code`, turned round, behind what `acc` has. -/
def mirrorLoop : Nat → Nat → Nat → Nat
  | 0, _, acc => acc
  | len + 1, code, acc => mirrorLoop len (code >>> 1) ((acc <<< 1) ||| (code % 2))

/-- `code = startcode[lengths[i]]++`, mirrored, for every symbol. -/
def assignCodes : List Nat → List Nat → Option (List Nat)
  | _, [] => some []
  | startcode, len :: lengths => do
    let code ← startcode[len]?
    let codes ← assignCodes (startcode.modify len (· + 1)) lengths
    some (mirrorLoop len code 0 :: codes)

def mktable (lengths : List Nat) : Option Table := do
  let count ← countLengths lengths
  -- startcode[0] is never set, and no bit of it is used
  let codes ← if lengths.length ≤ MAXSYMS then assignCodes (0 :: startcodes count.tail 0) lengths else none
  let maxlen := lengths.foldl max 0
  mkonetab MAXCODELEN codes lengths 0 0 (if maxlen < 9 then maxlen else 9)

inductive Lookup where
  /-- -1: not enough data. -/
  | short
  /-- -2: an entry that no symbol has. -/
  | missing
  | found (code bits nbits : Nat)
  deriving DecidableEq, Repr

/-- The first argument bounds the number of tables gone through. -/
def huflookup : Nat → Nat → Nat → Table → Option Lookup
  | 0, _, _, _ => none
  | fuel + 1, bits, nbits, .mk mask table =>
    match table[bits &&& mask]? with
    | none => none
    | some (.mk n code nexttable) =>
      if nbits < n then some .short
      else
        match code with
        | some code => some (.found code (bits >>> n) (nbits - n))
        | none =>
          match nexttable with
          | none => some .missing
          | some tab => huflookup fuel (bits >>> n) (nbits - n) tab

/-! ## Tables of lengths and distances -/

structure Coderecord where
  code : Nat
  extrabits : Nat
  min : Nat
  max : Nat
  deriving DecidableEq, Repr

def lencodes : List Coderecord :=
  [⟨257, 0, 3, 3⟩, ⟨258, 0, 4, 4⟩, ⟨259, 0, 5, 5⟩, ⟨260, 0, 6, 6⟩, ⟨261, 0, 7, 7⟩, ⟨262, 0, 8, 8⟩, ⟨263, 0, 9, 9⟩,
   ⟨264, 0, 10, 10⟩, ⟨265, 1, 11, 12⟩, ⟨266, 1, 13, 14⟩, ⟨267, 1, 15, 16⟩, ⟨268, 1, 17, 18⟩, ⟨269, 2, 19, 22⟩,
   ⟨270, 2, 23, 26⟩, ⟨271, 2, 27, 30⟩, ⟨272, 2, 31, 34⟩, ⟨273, 3, 35, 42⟩, ⟨274, 3, 43, 50⟩, ⟨275, 3, 51, 58⟩,
   ⟨276, 3, 59, 66⟩, ⟨277, 4, 67, 82⟩, ⟨278, 4, 83, 98⟩, ⟨279, 4, 99, 114⟩, ⟨280, 4, 115, 130⟩, ⟨281, 5, 131, 162⟩,
   ⟨282, 5, 163, 194⟩, ⟨283, 5, 195, 226⟩, ⟨284, 5, 227, 257⟩, ⟨285, 0, 258, 258⟩]

def distcodes : List Coderecord :=
  [⟨0, 0, 1, 1⟩, ⟨1, 0, 2, 2⟩, ⟨2, 0, 3, 3⟩, ⟨3, 0, 4, 4⟩, ⟨4, 1, 5, 6⟩, ⟨5, 1, 7, 8⟩, ⟨6, 2, 9, 12⟩, ⟨7, 2, 13, 16⟩,
   ⟨8, 3, 17, 24⟩, ⟨9, 3, 25, 32⟩, ⟨10, 4, 33, 48⟩, ⟨11, 4, 49, 64⟩, ⟨12, 5, 65, 96⟩, ⟨13, 5, 97, 128⟩,
   ⟨14, 6, 129, 192⟩, ⟨15, 6, 193, 256⟩, ⟨16, 7, 257, 384⟩, ⟨17, 7, 385, 512⟩, ⟨18, 8, 513, 768⟩, ⟨19, 8, 769, 1024⟩,
   ⟨20, 9, 1025, 1536⟩, ⟨21, 9, 1537, 2048⟩, ⟨22, 10, 2049, 3072⟩, ⟨23, 10, 3073, 4096⟩, ⟨24, 11, 4097, 6144⟩,
   ⟨25, 11, 6145, 8192⟩, ⟨26, 12, 8193, 12288⟩, ⟨27, 12, 12289, 16384⟩, ⟨28, 13, 16385, 24576⟩, ⟨29, 13, 24577, 32768⟩]

def lenlenmap : List Nat := [16, 17, 18, 0, 8, 7, 9, 6, 10, 5, 11, 4, 12, 3, 13, 2, 14, 1, 15]

/-! ## The context -/

inductive State where
  | start
  | outsideblk
  | treesHdr
  | treesLenlen
  | treesLen
  | treesLenrep
  | inblk
  | gotlensym
  | gotlen
  | gotdistsym
  | uncompLen
  | uncompNlen
  | uncompData
  deriving DecidableEq, Repr

/-- What a current table points to: the static table or one of its own. -/
inductive Current where
  | static
  | dynamic (tab : Table)

structure Ctx where
  staticlentable : Table
  staticdisttable : Table
  currlentable : Option Current
  currdisttable : Option Current
  lenlentable : Option Table
  state : State
  sym : Nat
  hlit : Nat
  hdist : Nat
  hclen : Nat
  lenptr : Nat
  lenextrabits : Nat
  lenaddon : Nat
  len : Int
  lenrep : Nat
  uncomplen : Nat
  lenlen : Vector Nat 19
  lengths : Vector Nat (288 + 32)
  bits : Nat
  nbits : Nat
  window : Nat → UInt8
  winpos : Nat
  outblk : Option (List UInt8)

def staticLengths : List Nat :=
  List.replicate 144 8 ++ List.replicate (256 - 144) 9 ++ List.replicate (280 - 256) 7 ++ List.replicate (288 - 280) 8

/-- `zlib_decompress_init`: `raw` is the memory of the new context. -/
def decompressInit (raw : Ctx) : Option Ctx := do
  let staticlentable ← mktable staticLengths
  let staticdisttable ← mktable (List.replicate 32 5)
  some { raw with
    staticlentable, staticdisttable
    state := .start
    currlentable := none, currdisttable := none, lenlentable := none
    bits := 0, nbits := 0, winpos := 0, outblk := none }

namespace Ctx

/-- `EATBITS`. -/
def eatbits (ctx : Ctx) (n : Nat) : Ctx := { ctx with nbits := ctx.nbits - n, bits := ctx.bits >>> n }

/-- `bits & ((1 << n) - 1)`. -/
def lowbits (ctx : Ctx) (n : Nat) : Nat := ctx.bits % 2 ^ n

/-- What a lookup that finds a code leaves in `*bitsp` and `*nbitsp`. -/
def setBits (ctx : Ctx) (bits nbits : Nat) : Ctx := { ctx with bits, nbits }

/-- One turn of the loop that refills the bit buffer. -/
def push (ctx : Ctx) (c : UInt8) : Ctx :=
  { ctx with bits := ctx.bits ||| c.toNat <<< ctx.nbits, nbits := ctx.nbits + 8 }

def lentable (ctx : Ctx) : Option Table :=
  ctx.currlentable.map fun
    | .static => ctx.staticlentable
    | .dynamic tab => tab

def disttable (ctx : Ctx) : Option Table :=
  ctx.currdisttable.map fun
    | .static => ctx.staticdisttable
    | .dynamic tab => tab

/-- A current table that is not the static one is freed and forgotten. -/
def freeCurrent : Option Current → Option Current
  | some (.dynamic _) => none
  | curr => curr

end Ctx

def emitChar (ctx : Ctx) (c : UInt8) : Option Ctx :=
  if ctx.winpos < WINSIZE then do
    let out ← ctx.outblk
    some { ctx with
      window := Function.update ctx.window ctx.winpos c
      winpos := (ctx.winpos + 1) % WINSIZE
      outblk := some (out ++ [c]) }
  else none

/-! ## One turn of the decoding loop -/

inductive Turn where
  | finished
  | decodeError (ctx : Ctx)
  | next (ctx : Ctx)

def headerOk (header : Nat) : Bool :=
  header &&& 0x0F00 == 0x0800 && header &&& 0xF000 ≤ 0x7000 && header &&& 0x0020 == 0x0000 && header % 31 == 0

/-- The 16-bit header, which is big-endian. -/
def header (ctx : Ctx) : Nat := ctx.bits / 2 ^ 8 % 2 ^ 8 + ctx.bits % 2 ^ 8 * 2 ^ 8

def startTurn (ctx : Ctx) : Turn :=
  if ctx.nbits < 16 then .finished
  else if headerOk (header ctx) then .next { ctx.eatbits 16 with state := .outsideblk }
  else .decodeError (ctx.eatbits 16)

def blktype (ctx : Ctx) : Nat := (ctx.eatbits 1).lowbits 2

def outsideblkTurn (ctx : Ctx) : Turn :=
  if ctx.nbits < 3 then .finished
  else
    let rest := (ctx.eatbits 1).eatbits 2
    match blktype ctx with
    | 0 => .next { rest.eatbits (rest.nbits % 8) with state := .uncompLen }
    | 1 => .next { rest with currlentable := some .static, currdisttable := some .static, state := .inblk }
    | 2 => .next { rest with state := .treesHdr }
    | _ => .next rest

def treesHdrTurn (ctx : Ctx) : Turn :=
  if ctx.nbits < 5 + 5 + 4 then .finished
  else
    let ctx1 := ctx.eatbits 5
    let ctx2 := ctx1.eatbits 5
    .next { ctx2.eatbits 4 with
      hlit := 257 + ctx.lowbits 5
      hdist := 1 + ctx1.lowbits 5
      hclen := 4 + ctx2.lowbits 4
      lenptr := 0
      state := .treesLenlen
      lenlen := Vector.replicate 19 0 }

/-- One turn of `while (lenptr < hclen && nbits >= 3)`. -/
def readLenlen (ctx : Ctx) : Option Ctx := do
  let i ← lenlenmap[ctx.lenptr]?
  if h : i < 19 then some { ctx.eatbits 3 with lenlen := ctx.lenlen.set i (ctx.lowbits 3), lenptr := ctx.lenptr + 1 } else none

/-- The first argument is the number of turns that are left at most. -/
def readLenlens : Nat → Ctx → Option Ctx
  | 0, ctx => some ctx
  | left + 1, ctx => if ctx.nbits < 3 then some ctx else (readLenlen ctx).bind (readLenlens left)

/-- What follows once the last length of the lengths has been read. -/
def lenlensRead (ctx : Ctx) : Option Ctx :=
  if ctx.lenptr = ctx.hclen then do
    let tab ← mktable ctx.lenlen.toList
    some { ctx with lenlentable := some tab, state := .treesLen, lenptr := 0 }
  else some ctx

def treesLenlenTurn (ctx : Ctx) : Option Turn :=
  if ctx.nbits < 3 then some .finished
  else do
    let ctx ← readLenlens (ctx.hclen - ctx.lenptr) ctx
    let ctx ← lenlensRead ctx
    some (.next ctx)

/-- `zlib_mktable(lengths, hlit)` and `zlib_mktable(lengths + hlit, hdist)`. -/
def buildTables (ctx : Ctx) : Option Ctx :=
  if ctx.hlit + ctx.hdist ≤ 288 + 32 then do
    let lentab ← mktable (ctx.lengths.toList.take ctx.hlit)
    let disttab ← mktable ((ctx.lengths.toList.drop ctx.hlit).take ctx.hdist)
    some { ctx with
      currlentable := some (.dynamic lentab), currdisttable := some (.dynamic disttab)
      lenlentable := none, state := .inblk }
  else none

def setLength (ctx : Ctx) (len : Nat) : Option Ctx :=
  if h : ctx.lenptr < 288 + 32 then some { ctx with lengths := ctx.lengths.set ctx.lenptr len, lenptr := ctx.lenptr + 1 }
  else none

/-- `lengths[lenptr - 1]`, or 0 where there is none or the symbol is not 16. -/
def repeated (ctx : Ctx) (code : Nat) : Option Nat :=
  if code = 16 ∧ 0 < ctx.lenptr then ctx.lengths[ctx.lenptr - 1]? else some 0

def treesLenTurn (ctx : Ctx) : Option Turn :=
  if ctx.hlit + ctx.hdist ≤ ctx.lenptr then (buildTables ctx).map .next
  else do
    let tab ← ctx.lenlentable
    match ← huflookup MAXCODELEN ctx.bits ctx.nbits tab with
    | .short => some .finished
    | .missing => some (.decodeError ctx)
    | .found code bits nbits =>
      let ctx := ctx.setBits bits nbits
      if code < 16 then (setLength ctx code).map .next
      else do
        let lenrep ← repeated ctx code
        some (.next { ctx with
          lenextrabits := if code = 16 then 2 else if code = 17 then 3 else 7
          lenaddon := if code = 18 then 11 else 3
          lenrep, state := .treesLenrep })

/-- `while (rep > 0 && lenptr < hlit + hdist)`. -/
def repeatLength : Nat → Ctx → Option Ctx
  | 0, ctx => some ctx
  | rep + 1, ctx =>
    if ctx.lenptr < ctx.hlit + ctx.hdist then (setLength ctx ctx.lenrep).bind (repeatLength rep) else some ctx

def treesLenrepTurn (ctx : Ctx) : Option Turn :=
  if ctx.nbits < ctx.lenextrabits then some .finished
  else do
    let rep := ctx.lenaddon + ctx.lowbits ctx.lenextrabits
    let ctx ← repeatLength rep (ctx.eatbits ctx.lenextrabits)
    some (.next { ctx with state := .treesLen })

def inblkTurn (ctx : Ctx) : Option Turn := do
  let tab ← ctx.lentable
  match ← huflookup MAXCODELEN ctx.bits ctx.nbits tab with
  | .short => some .finished
  | .missing => some (.decodeError ctx)
  | .found code bits nbits =>
    let ctx := ctx.setBits bits nbits
    if code < 256 then (emitChar ctx (UInt8.ofNat code)).map .next
    else if code = 256 then
      some (.next { ctx with
        state := .outsideblk
        currlentable := Ctx.freeCurrent ctx.currlentable
        currdisttable := Ctx.freeCurrent ctx.currdisttable })
    else if code < 286 then some (.next { ctx with state := .gotlensym, sym := code })
    else some (.decodeError ctx)

def gotlensymTurn (ctx : Ctx) : Option Turn := do
  let rec ← if 257 ≤ ctx.sym then lencodes[ctx.sym - 257]? else none
  if ctx.nbits < rec.extrabits then some .finished
  else some (.next { ctx.eatbits rec.extrabits with len := ↑(rec.min + ctx.lowbits rec.extrabits), state := .gotlen })

def gotlenTurn (ctx : Ctx) : Option Turn := do
  let tab ← ctx.disttable
  match ← huflookup MAXCODELEN ctx.bits ctx.nbits tab with
  | .short => some .finished
  | .missing => some (.decodeError ctx)
  | .found code bits nbits =>
    let ctx := ctx.setBits bits nbits
    if 30 ≤ code then some (.decodeError ctx) else some (.next { ctx with state := .gotdistsym, sym := code })

/-- `window[(winpos - dist) & (WINSIZE - 1)]`. -/
def windowAt (ctx : Ctx) (dist : Nat) : UInt8 := ctx.window (((ctx.winpos : Int) - dist) % (WINSIZE : Int)).toNat

/-- `while (len--)`: the first argument is `len`. -/
def copyMatch (dist : Nat) : Nat → Ctx → Option Ctx
  | 0, ctx => some { ctx with len := -1 }
  | len + 1, ctx => (emitChar { ctx with len := len } (windowAt ctx dist)).bind (copyMatch dist len)

def gotdistsymTurn (ctx : Ctx) : Option Turn := do
  let rec ← distcodes[ctx.sym]?
  if ctx.nbits < rec.extrabits then some .finished
  -- from a negative length the copying would not come to an end
  else if ctx.len < 0 then none
  else do
    let ctx1 := { ctx.eatbits rec.extrabits with state := .inblk }
    let ctx ← copyMatch (rec.min + ctx.lowbits rec.extrabits) ctx.len.toNat ctx1
    some (.next ctx)

def uncompLenTurn (ctx : Ctx) : Turn :=
  if ctx.nbits < 16 then .finished else .next { ctx.eatbits 16 with uncomplen := ctx.lowbits 16, state := .uncompNlen }

def uncompNlenTurn (ctx : Ctx) : Turn :=
  if ctx.nbits < 16 then .finished
  else if ctx.uncomplen ≠ ctx.lowbits 16 ^^^ 0xFFFF then .decodeError (ctx.eatbits 16)
  else if ctx.uncomplen = 0 then .next { ctx.eatbits 16 with state := .outsideblk }
  else .next { ctx.eatbits 16 with state := .uncompData }

def uncompDataTurn (ctx : Ctx) : Option Turn :=
  if ctx.nbits < 8 then some .finished
  else do
    let ctx ← emitChar ctx (UInt8.ofNat (ctx.lowbits 8))
    let ctx := { ctx.eatbits 8 with uncomplen := ctx.uncomplen - 1 }
    some (.next (if ctx.uncomplen = 0 then { ctx with state := .outsideblk } else ctx))

def turn (ctx : Ctx) : Option Turn :=
  match ctx.state with
  | .start => some (startTurn ctx)
  | .outsideblk => some (outsideblkTurn ctx)
  | .treesHdr => some (treesHdrTurn ctx)
  | .treesLenlen => treesLenlenTurn ctx
  | .treesLen => treesLenTurn ctx
  | .treesLenrep => treesLenrepTurn ctx
  | .inblk => inblkTurn ctx
  | .gotlensym => gotlensymTurn ctx
  | .gotlen => gotlenTurn ctx
  | .gotdistsym => gotdistsymTurn ctx
  | .uncompLen => some (uncompLenTurn ctx)
  | .uncompNlen => some (uncompNlenTurn ctx)
  | .uncompData => uncompDataTurn ctx

/-! ## The loop -/

/-- `while (nbits < 24 && len > 0)`: the buffer filled, and the bytes left over. -/
def refill : Ctx → List UInt8 → Ctx × List UInt8
  | ctx, [] => (ctx, [])
  | ctx, c :: block => if ctx.nbits < 24 then refill (ctx.push c) block else (ctx, c :: block)

/-- The loop with its way out, `decode_error` (false) or `finished`. The first argument
    bounds the number of turns. -/
def loop : Nat → Ctx → List UInt8 → Option (Ctx × Bool)
  | 0, _, _ => none
  | fuel + 1, ctx, block =>
    if block = [] ∧ ctx.nbits = 0 then some (ctx, true)
    else
      let (ctx, block) := refill ctx block
      match turn ctx with
      | none => none
      | some .finished => some (ctx, true)
      | some (.decodeError ctx) => some (ctx, false)
      | some (.next ctx) => loop fuel ctx block

/-- A bit is worth three turns, and a few more may pass without one. -/
def turnBound (ctx : Ctx) (block : List UInt8) : Nat := 3 * (ctx.nbits + 8 * block.length) + 4

/-- `zlib_decompress_block`: the output, or `none` for a return of false. -/
def decompressBlock (ctx : Ctx) (block : List UInt8) : Option (Ctx × Option (List UInt8)) :=
  if ctx.outblk.isSome then none
  else
    match loop (turnBound ctx block) { ctx with outblk := some [] } block with
    | none => none
    | some (ctx, false) => some (ctx, none)
    | some (ctx, true) => ctx.outblk.bind fun out => some ({ ctx with outblk := none }, some out)

end Putty.Zlib
