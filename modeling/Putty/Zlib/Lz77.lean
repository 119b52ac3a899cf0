/-
  Putty.Zlib.Lz77 — the match finder of the compressor (`sshzlib.c`: `lz77_init`,
  `lz77_hash`, `lz77_advance`, `lz77_compress`).

  `INVALID` is `none`. The indices that the code stores are window positions and hash
  values, so the arrays are functions on the numbers; the window of a fresh context is
  whatever was in the memory. A function is `none` where the code would read past the end
  of its data, fail an assertion or not come back. `Work.trace` is the list of the states
  that `lz77_advance` has left behind and is read by nothing.
-/

import Putty.Zlib.Code

namespace Putty.Zlib.Lz77

def HASHMAX : Nat := 2039
def MAXMATCH : Nat := 32
def HASHCHARS : Nat := 3

structure WindowEntry where
  next : Option Nat
  prev : Option Nat
  hashval : Option Nat

structure Match where
  distance : Nat
  len : Nat

/-- `struct LZ77InternalContext`; `pending` holds the first `npending` bytes of the array. -/
structure InternalContext where
  win : Nat → WindowEntry
  data : Nat → UInt8
  winpos : Nat
  hashtab : Nat → Option Nat
  pending : List UInt8

def lz77Init (memory : Nat → UInt8) : InternalContext where
  win _ := ⟨none, none, none⟩
  data := memory
  winpos := 0
  hashtab _ := none
  pending := []

def lz77Hash : List UInt8 → Option Nat
  | d0 :: d1 :: d2 :: _ => some ((257 * d0.toNat + 263 * d1.toNat + 269 * d2.toNat) % HASHMAX)
  | _ => none

/-! ## `lz77_advance` -/

/-- The entry at winpos leaves the tail of its chain, or empties the chain. -/
def removeOldest (st : InternalContext) : InternalContext :=
  match (st.win st.winpos).prev with
  | some p => { st with win := Function.update st.win p { st.win p with next := none } }
  | none =>
    match (st.win st.winpos).hashval with
    | some h => { st with hashtab := Function.update st.hashtab h none }
    | none => st

/-- A new entry at winpos, at the head of its chain. -/
def addNewest (st : InternalContext) (hash : Nat) : InternalContext :=
  let off := st.hashtab hash
  let win := Function.update st.win st.winpos ⟨off, none, some hash⟩
  { st with
    hashtab := Function.update st.hashtab hash (some st.winpos)
    win := match off with
      | some o => Function.update win o { win o with prev := some st.winpos }
      | none => win }

def lz77Advance (st : InternalContext) (c : UInt8) (hash : Nat) : InternalContext :=
  let st := addNewest (removeOldest st) hash
  { st with data := Function.update st.data st.winpos c, winpos := (st.winpos + 1) % WINSIZE }

/-! ## Looking for matches -/

/-- `CHARAT(k)` -/
def charAt (st : InternalContext) (data : List UInt8) (k : Int) : Option UInt8 :=
  if k < 0 then some (st.data ((st.winpos + k) % WINSIZE).toNat) else data[k.toNat]?

/-- `CHARAT(k) == CHARAT(k - distance)` -/
def agrees (st : InternalContext) (data : List UInt8) (distance k : Nat) : Option Bool := do
  return (← charAt st data k) == (← charAt st data (k - distance))

/-- The walk along a chain from `off`; the first argument bounds the steps. -/
def findMatches (st : InternalContext) (data : List UInt8) : Nat → Option Nat → List Match → Option (List Match)
  | 0, _, _ => none
  | _ + 1, none, found => some found
  | fuel + 1, some off, found => do
    let distance := WINSIZE - (off + WINSIZE - st.winpos) % WINSIZE
    if ← (List.range HASHCHARS).allM (agrees st data distance) then
      let found := found ++ [⟨distance, 3⟩]
      if found.length ≥ MAXMATCH then some found else findMatches st data fuel (st.win off).next found
    else findMatches st data fuel (st.win off).next found

/-- The matches that go on at `matchlen`, moved to the front of the array. -/
def keepAgreeing (st : InternalContext) (data : List UInt8) (matchlen : Nat) : List Match → Option (List Match)
  | [] => some []
  | m :: rest => do
    let same ← agrees st data m.distance matchlen
    let kept ← keepAgreeing st data matchlen rest
    return if same then m :: kept else kept

/-- Follow the matches down to the longest; the first argument bounds the steps. -/
def longest (st : InternalContext) (data : List UInt8) : Nat → Nat → List Match → Option (Nat × List Match)
  | 0, _, _ => none
  | fuel + 1, matchlen, found =>
    if matchlen < data.length then do
      match ← keepAgreeing st data matchlen found with
      | [] => some (matchlen, found)
      | m :: kept => longest st data fuel (matchlen + 1) (m :: kept)
    else some (matchlen, found)

/-- `matches[0]` when `nmatch > 0` -/
def bestMatch (st : InternalContext) (data : List UInt8) : Option (Option Match) :=
  if data.length ≥ HASHCHARS then do
    let hash ← lz77Hash data
    match ← findMatches st data (WINSIZE + 1) (st.hashtab hash) [] with
    | [] => some none
    | found => do
      let (matchlen, kept) ← longest st data (data.length + 1) HASHCHARS found
      some (kept.head?.map fun m => { m with len := matchlen })
  else some none

/-! ## `lz77_compress` -/

inductive Emitted where
  | literal (c : UInt8)
  | «match» (distance len : Nat)

structure Work where
  st : InternalContext
  data : List UInt8
  defermatch : Match
  deferchr : UInt8
  out : List Emitted
  trace : List InternalContext

/-- The pending characters go to the window as far as three characters can be hashed. -/
def addPending (data : List UInt8) : InternalContext → List InternalContext → List UInt8 →
    Option (InternalContext × List InternalContext)
  | st, trace, [] => some ({ st with pending := [] }, trace)
  | st, trace, c :: rest =>
    if data.length + (c :: rest).length < HASHCHARS then some ({ st with pending := c :: rest }, trace)
    else do
      let hash ← lz77Hash (c :: rest ++ data)
      let st := lz77Advance st c hash
      addPending data st (trace ++ [st]) rest

/-- What to emit and defer, and `advance`. -/
def choose (w : Work) (c : UInt8) : Option Match → Work × Nat
  | some m =>
    if w.defermatch.len > 0 then
      if m.len > w.defermatch.len + 1 then
        ({ w with out := w.out ++ [.literal w.deferchr], defermatch := m, deferchr := c }, 1)
      else
        ({ w with
            out := w.out ++ [.match w.defermatch.distance w.defermatch.len]
            defermatch := { w.defermatch with len := 0 } }, w.defermatch.len - 1)
    else ({ w with defermatch := m, deferchr := c }, 1)
  | none =>
    if w.defermatch.len > 0 then
      ({ w with
          out := w.out ++ [.match w.defermatch.distance w.defermatch.len]
          defermatch := { w.defermatch with len := 0 } }, w.defermatch.len - 1)
    else ({ w with out := w.out ++ [.literal c] }, 1)

/-- `while (advance > 0)` -/
def advanceBy : Nat → Work → Option Work
  | 0, w => some w
  | advance + 1, w =>
    match w.data with
    | [] => none
    | c :: rest =>
      if w.data.length ≥ HASHCHARS then do
        let hash ← lz77Hash w.data
        let st := lz77Advance w.st c hash
        advanceBy advance { w with st := st, data := rest, trace := w.trace ++ [st] }
      else if w.st.pending.length < HASHCHARS then
        advanceBy advance { w with st := { w.st with pending := w.st.pending ++ [c] }, data := rest }
      else none

/-- `while (len > 0)`; the first argument bounds the turns. -/
def compressLoop : Nat → Work → Option Work
  | 0, _ => none
  | fuel + 1, w =>
    match w.data with
    | [] => some w
    | c :: _ => do
      let found ← bestMatch w.st w.data
      let (w, advance) := choose w c found
      let w ← advanceBy advance w
      compressLoop fuel w

def lz77Compress (st : InternalContext) (data : List UInt8) : Option Work :=
  if st.pending.length ≤ HASHCHARS then do
    let (st, trace) ← addPending data st [] st.pending
    compressLoop (data.length + 1) ⟨st, data, ⟨0, 0⟩, 0, [], trace⟩
  else none

/-- One call after the other on the same context: the context and the whole trace. -/
def compressAll : InternalContext → List (List UInt8) → Option (InternalContext × List InternalContext)
  | st, [] => some (st, [])
  | st, data :: rest => do
    let w ← lz77Compress st data
    let (st, trace) ← compressAll w.st rest
    return (st, w.trace ++ trace)

end Putty.Zlib.Lz77
