/-
  Putty.Scp.Sink — the sink end of the SCP protocol (`scpserver.c`, scp_sink_push to
  scp_sink_eof).

  A coroutine reads commands and file data from a chain of buffers and stops wherever it
  needs more bytes. `turn` is what it does between two places where it may stop; `none` is
  a NULL pointer followed, or a failed assertion. A stack holds the directories that were
  entered, the target of the whole transfer at its bottom.
-/

import Putty.Scp.Server
import Putty.Lib.Run
import Putty.Utils.Bufchain

namespace Putty.Scp.Sink

open Putty.Utils Putty.Lib

structure StackEntry where
  destpath : List UInt8
  isdir : Bool
  deriving DecidableEq, Repr

/-- Where the coroutine stands. -/
inductive CrState where
  | start
  /-- In the loop that reads a command. -/
  | command
  /-- In the loop that reads a file's data. -/
  | data
  /-- At the zero byte behind a file. -/
  | trailer
  | done
  deriving DecidableEq, Repr

inductive Out where
  | ack
  | stderr (msg : List UInt8)
  | exitStatus (status : Nat)
  | eof
  | close (err : Option (List UInt8))
  deriving DecidableEq, Repr

/-- The sink, but for its chain of received data. -/
structure Core (σ : Type) where
  sf : σ
  stack : List StackEntry
  fileOffset : UInt64
  fileSize : UInt64
  atime : ULong
  mtime : ULong
  gotFileTimes : Bool
  inputEof : Bool
  command : List UInt8
  filename : List UInt8
  /-- The handle in `reply`. -/
  handle : List UInt8
  errmsg : Option (List UInt8)
  crState : CrState
  out : List Out
  /-- The handles that open gave, and those passed to close. -/
  opened : List (List UInt8)
  closed : List (List UInt8)
  /-- D commands without their E. -/
  unmatched : Nat

/-- A file that was opened: the size announced for it, how many of the client's bytes
    came before its data, and its contents. -/
structure Received where
  size : Nat
  start : Nat
  contents : List UInt8
  deriving DecidableEq, Repr

structure St (σ : Type) where
  core : Core σ
  data : Bufchain
  /-- The client's bytes taken from the chain. -/
  consumed : List UInt8
  /-- The latest file first. -/
  files : List Received

variable {σ : Type}

def push (s : Core σ) (pathname : List UInt8) (isdir : Bool) : Core σ := { s with stack := ⟨pathname, isdir⟩ :: s.stack }

def ack (s : Core σ) : Core σ := { s with out := s.out ++ [.ack] }

/-- From the label `done` on. -/
def finish (s : Core σ) : Core σ :=
  match s.errmsg with
  | some msg => { s with
      out := s.out ++ [.stderr msg, .stderr [10], .exitStatus 1, .eof, .close (some msg)], crState := .done }
  | none => { s with out := s.out ++ [.exitStatus 0, .eof, .close none], crState := .done }

def fail (s : Core σ) (msg : List UInt8) : Core σ := finish { s with errmsg := some msg }

/-! ## Parsing a command -/

def isDigit (base : UInt8) (c : UInt8) : Bool := 48 ≤ c && c < 48 + base

def isSpace (c : UInt8) : Bool := c == 32 || 9 ≤ c && c ≤ 13

/-- The value of digits, in an unsigned long that wraps. -/
def octal (digits : List UInt8) : ULong := digits.foldl (fun n c => n * 8 + (c - 48).toUInt64) 0

/-- strtoull and strtoul: white space, a sign, digits; too large a number is the largest. -/
def strtoull (s : List UInt8) : Option (UInt64 × List UInt8) :=
  let s := s.dropWhile isSpace
  let negative := s.head? == some 45
  let s := if s.head? = some 45 ∨ s.head? = some 43 then s.tail else s
  let digits := s.takeWhile (isDigit 10)
  if digits = [] then none
  else
    let n := digits.foldl (fun n c => n * 10 + (c - 48).toNat) 0
    let value := if n < 2 ^ 64 then if negative then 0 - UInt64.ofNat n else UInt64.ofNat n else 18446744073709551615
    some (value, s.dropWhile (isDigit 10))

/-- sscanf with "T%lu %lu %lu %lu", behind the T; the first and third number when there are four. -/
def scanTimes (s : List UInt8) : Option (ULong × ULong) := do
  let a ← strtoull s
  let b ← strtoull a.2
  let c ← strtoull b.2
  let _ ← strtoull c.2
  some (a.1, c.1)

/-- What a C or D command says, without its letter: permissions, size and leaf name. -/
def scanFile (s : List UInt8) : Option (ULong × UInt64 × List UInt8) :=
  let digits := s.takeWhile (isDigit 8)
  match s.dropWhile (isDigit 8) with
  | [] => none
  | c :: q =>
    if c ≠ 32 then none
    else
      match q.dropWhile (isDigit 10) with
      | [] => none
      | c :: leafname =>
        if c ≠ 32 then none else some (octal digits, ((strtoull (mkstr q)).map (·.1)).getD 0, leafname)

/-- The path of a file or directory to be made. -/
def destination (head : StackEntry) (leafname : List UInt8) : List UInt8 :=
  if head.isdir then
    (if head.destpath ≠ [] ∧ head.destpath.getLast? ≠ some 47 then head.destpath ++ [47] else head.destpath) ++ leafname
  else head.destpath

section Server

variable (srv : SftpServer σ)

def parseError (s : Core σ) : Core σ := fail s (text "unrecognised scp command '" ++ mkstr s.command ++ text "'")

def mkdirCommand (s : Core σ) (filename : List UInt8) (attrs : FxpAttrs) : Core σ :=
  match srv.mkdir s.sf filename attrs with
  | (.error e, sf) =>
    fail { s with sf } (text "'" ++ mkstr filename ++ text "': unable to create directory: " ++ e.errmsg)
  | (.ok (), sf) => { push { s with sf, unmatched := s.unmatched + 1 } filename true with crState := .start }

def openCommand (s : Core σ) (filename : List UInt8) (attrs : FxpAttrs) : Core σ :=
  match srv.openFile s.sf filename (fxfWrite ||| fxfCreat ||| fxfTrunc) attrs with
  | (.error e, sf) => fail { s with sf } (text "'" ++ mkstr filename ++ text "': unable to open file: " ++ e.errmsg)
  | (.ok handle, sf) => { ack { s with sf } with
      handle := handle
      opened := s.opened ++ [handle]
      fileOffset := 0
      crState := .data }

/-- A whole command, without its newline. -/
def runCommand (s : Core σ) : Option (Core σ) :=
  match s.command with
  | [] => some (parseError s)
  | c :: args =>
    if c = 84 then
      match scanTimes (mkstr args) with
      | none => some (parseError s)
      | some (mtime, atime) => some { s with mtime, atime, gotFileTimes := true, crState := .start }
    else if c = 67 ∨ c = 68 then
      match scanFile args with
      | none => some (parseError s)
      | some (permissions, size, leafname) =>
        match s.stack with
        | [] => none
        | head :: _ =>
          let filename := destination head leafname
          let attrs : FxpAttrs :=
            if s.gotFileTimes then ⟨attrPermissions ||| attrAcmodtime, 0, permissions, s.atime, s.mtime⟩
            else ⟨attrPermissions, 0, permissions, 0, 0⟩
          let s := { s with fileSize := size, filename, gotFileTimes := false }
          some (if c = 68 then mkdirCommand srv s filename attrs else openCommand srv s filename attrs)
    else if c = 69 then
      match s.stack with
      | [] => some (fail s (text "received E command without matching D"))
      | _ :: rest => some { s with stack := rest, gotFileTimes := false, unmatched := s.unmatched - 1, crState := .start }
    else some (parseError s)

def closeHandle (s : Core σ) : Core σ := { s with sf := (srv.close s.sf s.handle).2, closed := s.closed ++ [s.handle] }

/-! ## The coroutine -/

inductive Turn (σ : Type) where
  | wait
  | crash
  | go (s : St σ)

def Turn.ofOption : Option (St σ) → Turn σ
  | none => .crash
  | some s => .go s

/-- bufchain_consume. -/
def consume (s : St σ) (len : Nat) : Option (St σ) :=
  (bufchainConsume s.data len).map fun data => { s with data, consumed := s.consumed ++ (bytes s.data).take len }

/-- The bytes up to the first newline, with it, if there is one. -/
def line (data : List UInt8) : List UInt8 :=
  if 10 ∈ data then data.takeWhile (· ≠ 10) ++ [10] else data

/-- A command is carried out; a C begins a file. -/
def command (s : St σ) : Option (St σ) :=
  (runCommand srv s.core).map fun core =>
    { s with
      core
      files := if core.crState = .data then ⟨core.fileSize.toNat, s.consumed.length, []⟩ :: s.files else s.files }

def commandTurn (s : St σ) : Turn σ :=
  if s.core.inputEof then .go { s with core := finish s.core }
  else
    match bufchainPrefix s.data with
    | none => .wait
    | some data =>
      .ofOption ((consume s (line data).length).bind fun s =>
        let cmd := s.core.command ++ line data
        if 10 ∈ data then command srv { s with core := { s.core with command := cmd.dropLast } }
        else some { s with core := { s.core with command := cmd } })

/-- What a write at an offset makes of a file's contents. -/
def overwrite (contents : List UInt8) (offset : Nat) (data : List UInt8) : List UInt8 :=
  contents.take offset ++ data ++ contents.drop (offset + data.length)

def dataTurn (s : St σ) : Turn σ :=
  if s.core.fileOffset < s.core.fileSize then
    if s.core.inputEof then .go { s with core := finish (closeHandle srv s.core) }
    else
      match bufchainPrefix s.data with
      | none => .wait
      | some data =>
        let thisLen := min data.length (s.core.fileSize - s.core.fileOffset).toNat
        match srv.write s.core.sf s.core.handle s.core.fileOffset (data.take thisLen) with
        | (.error e, sf) =>
          let msg := text "'" ++ mkstr s.core.filename ++ text "': unable to write to file: " ++ e.errmsg
          .go { s with core := fail { s.core with sf } msg }
        | (.ok (), sf) =>
          .ofOption ((consume s thisLen).map fun s => { s with
            core := { s.core with sf, fileOffset := s.core.fileOffset + UInt64.ofNat thisLen }
            files := s.files.modifyHead fun f =>
              { f with contents := overwrite f.contents s.core.fileOffset.toNat (data.take thisLen) } })
  else .go { s with core := { s.core with crState := .trailer } }

def trailerTurn (s : St σ) : Turn σ :=
  if s.core.inputEof then .go { s with core := finish (closeHandle srv s.core) }
  else
    match bufchainPrefix s.data with
    | none => .wait
    | some _ => .ofOption ((consume s 1).map fun s => { s with core := { s.core with crState := .start } })

def turn (s : St σ) : Turn σ :=
  match s.core.crState with
  | .start => .go { s with core := { ack s.core with command := [], crState := .command } }
  | .command => commandTurn srv s
  | .data => dataTurn srv s
  | .trailer => trailerTurn srv s
  | .done => .wait

def coroutineLoop : Nat → St σ → Option (St σ)
  | 0, _ => none
  | fuel + 1, s =>
    match turn srv s with
    | .wait => some s
    | .crash => none
    | .go s => coroutineLoop fuel s

/-- scp_sink_coroutine. -/
def coroutine (s : St σ) : Option (St σ) := coroutineLoop srv (2 * bufchainSize s.data + 4) s

/-! ## Sessions -/

/-- scp_sink_start_callback. -/
def startCallback (s : St σ) : Option (St σ) := coroutine srv s

def send (s : St σ) (data : List UInt8) : Option (St σ) :=
  if s.core.inputEof then some s else coroutine srv { s with data := bufchainAdd s.data data }

/-- scp_sink_eof. -/
def eof (s : St σ) : Option (St σ) := coroutine srv { s with core := { s.core with inputEof := true } }

inductive Call where
  | start
  | send (data : List UInt8)
  deriving DecidableEq, Repr

def Call.data : Call → List UInt8
  | .start => []
  | .send data => data

def call (s : St σ) : Call → Option (St σ)
  | .start => startCallback srv s
  | .send data => send srv s data

/-- What the client sends. -/
def stream (calls : List Call) : List UInt8 := calls.flatMap Call.data

/-- The calls, and then the client's EOF. -/
def session (s : St σ) (calls : List Call) : Option (St σ) := (run (call srv) s calls).bind (eof srv)

/-- The test of the target that scp_sink_new makes unless it was told. -/
def targetIsDir (sf : σ) (pathname : List UInt8) (pathnameIsDefinitelyDir : Bool) : Bool × σ :=
  if pathnameIsDefinitelyDir then (true, sf)
  else
    match srv.stat sf pathname true with
    | (.ok attrs, sf) => (attrs.has attrPermissions && attrs.isDirectory, sf)
    | (.error _, sf) => (false, sf)

/-- scp_sink_new. -/
def scpSinkNew (sf : σ) (pathname : List UInt8) (pathnameIsDefinitelyDir : Bool) : St σ where
  core :=
    { sf := (targetIsDir srv sf pathname pathnameIsDefinitelyDir).2
      stack := [⟨pathname, (targetIsDir srv sf pathname pathnameIsDefinitelyDir).1⟩]
      fileOffset := 0
      fileSize := 0
      atime := 0
      mtime := 0
      gotFileTimes := false
      inputEof := false
      command := []
      filename := []
      handle := []
      errmsg := none
      crState := .start
      out := []
      opened := []
      closed := []
      unmatched := 0 }
  data := []
  consumed := []
  files := []

end Server

end Putty.Scp.Sink
