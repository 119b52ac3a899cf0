/-
  Putty.Pscp.Sink — what PSCP does with the files a server sends it (`pscp.c`, sink,
  scp_get_sink_action and the functions they call).

  Names come from the lines of an SCP stream, or from the directories an SFTP server
  lists. The stream is what ssh_scp_recv still has to give; the SFTP server's replies, and
  the answers of the local file system, come from any `Peer` and any `Local`. `none` is the
  end of the program: bump, or a connection that is lost.
-/

import Putty.Scp.Server
import Putty.Pscp.Names

namespace Putty.Pscp

open Putty.Utils Putty.Scp

structure Opts where
  platform : Platform
  usingSftp : Bool
  recursive : Bool
  preserve : Bool
  /-- scp_unsafe_mode. -/
  unsafeMode : Bool
  targetShouldBeDirectory : Bool

inductive FileType where
  | nonexistent
  | file
  | directory
  | weird
  deriving DecidableEq, Repr

/-- What fxp_readdir_recv says. -/
inductive Readdir where
  | names (filenames : List (List UInt8))
  | eof
  | error

structure Peer (σ : Type) where
  stat : σ → List UInt8 → Option (Option FxpAttrs × σ)
  opendir : σ → List UInt8 → Option (Bool × σ)
  readdir : σ → Option (Readdir × σ)
  close : σ → Option σ
  openRead : σ → List UInt8 → Option (Bool × σ)
  recvFiledata : σ → Nat → Option (List UInt8 × σ)
  finishFilerecv : σ → Option σ

structure Local (τ : Type) where
  fileType : τ → List UInt8 → FileType × τ
  createDirectory : τ → List UInt8 → Bool × τ
  openNewFile : τ → List UInt8 → ULong → Bool × τ
  writeToFile : τ → List UInt8 → Bool × τ

/-- What was done to the local file system. -/
inductive LocalOp where
  | createDirectory (path : List UInt8)
  | openNewFile (path : List UInt8)
  deriving DecidableEq, Repr

def LocalOp.path : LocalOp → List UInt8
  | .createDirectory path => path
  | .openNewFile path => path

/-- `struct scp_sftp_dirstack`, with the names not yet looked at. -/
structure DirStack where
  names : List (List UInt8)
  dirpath : List UInt8
  wildcard : Option (List UInt8)
  matchedSomething : Bool
  deriving DecidableEq, Repr

inductive Kind where
  | file
  | dir
  deriving DecidableEq, Repr

/-- `struct scp_sink_action`. -/
inductive Action where
  | entry (kind : Kind) (name : List UInt8) (permissions : ULong) (size : UInt64) (times : Option (ULong × ULong))
  | enddir
  | retry
  deriving DecidableEq, Repr

/-- `strbuf`, as far as it is read: what was last written. It stays when len is set back to 0. -/
structure Strbuf where
  s : List UInt8
  len : Nat
  len_eq : len = 0 ∨ len = s.length
  deriving DecidableEq

def Strbuf.new : Strbuf := ⟨[], 0, Or.inl rfl⟩

/-- put_byte, which writes a NUL behind the byte. -/
def Strbuf.putByte (buf : Strbuf) (c : UInt8) : Strbuf :=
  ⟨buf.s.take buf.len ++ [c], buf.len + 1, Or.inr (by
    have := buf.len_eq
    simp only [List.length_append, List.length_take, List.length_singleton]
    omega)⟩

def Strbuf.clear (buf : Strbuf) : Strbuf := ⟨buf.s, 0, Or.inl rfl⟩

structure St (σ τ : Type) where
  peer : σ
  fs : τ
  input : List UInt8
  sent : List UInt8
  dirstack : List DirStack
  remotepath : List UInt8
  currentname : List UInt8
  wildcard : Option (List UInt8)
  doneThisTarget : Bool
  /-- act.buf of this call of sink, for the lines of an SCP stream. -/
  buf : Strbuf
  log : List LocalOp
  /-- The paths that file_type found to be directories. -/
  dirs : List (List UInt8)
  /-- The names that came when the target was a directory, each with the source it was asked for by. -/
  asked : List (List UInt8 × Option (List UInt8))

variable {σ τ : Type}

section Program

variable (o : Opts) (peer : Peer σ) (loc : Local τ) (wcMatch : List UInt8 → List UInt8 → Bool)

/-! ## The next action, over SFTP -/

/-- scp_sftp_preserve: the times to set. -/
def timesOf (attrs : FxpAttrs) : Option (ULong × ULong) :=
  if o.preserve && attrs.has attrAcmodtime then some (attrs.mtime, attrs.atime) else none

/-- The names of a directory but . and .. and those that are not names of files here. -/
def listed (filenames : List (List UInt8)) : List (List UInt8) :=
  filenames.filter fun name => name ≠ [46] && name ≠ [46, 46] && vetFilename o.platform name

/-- The directory's names, `some none` when reading it fails. The server may go on for ever. -/
def readNames : Nat → σ → List (List UInt8) → Option (Option (List (List UInt8)) × σ)
  | 0, _, _ => none
  | fuel + 1, p, ournames =>
    match peer.readdir p with
    | none => none
    | some (.eof, p) => some (some ournames, p)
    | some (.error, p) => some (none, p)
    | some (.names [], p) => some (some ournames, p)
    | some (.names filenames, p) => readNames fuel p (ournames ++ listed o filenames)

/-- scp_get_sink_action for something that is a directory. -/
def directoryAction (fuel : Nat) (s : St σ τ) (fname : List UInt8) (attrs : FxpAttrs) : Option (Option Action × St σ τ) :=
  if !o.recursive && s.wildcard.isNone then
    some (if s.dirstack = [] then none else some .retry, s)
  else
    match peer.opendir s.peer fname with
    | none => none
    | some (false, p) => some (none, { s with peer := p })
    | some (true, p) =>
      match readNames o peer fuel p [] with
      | none => none
      | some (names, p) =>
        match peer.close p with
        | none => none
        | some p =>
          match names with
          | none => some (none, { s with peer := p })
          | some names =>
            let action := if s.wildcard.isSome then .retry
              else .entry .dir (stripslashes o.platform fname false) (attrs.permissions &&& 0o7777) 0 (timesOf o attrs)
            some (some action, { s with
              peer := p, wildcard := none, dirstack := ⟨names, fname, s.wildcard, false⟩ :: s.dirstack })

/-- UINT64_MAX stands for a size that is not known. -/
def fileAction (s : St σ τ) (fname : List UInt8) (attrs : FxpAttrs) : Option Action × St σ τ :=
  let size := if attrs.has attrSize then attrs.size else 18446744073709551615
  (some (.entry .file (stripslashes o.platform fname false) (attrs.permissions &&& 0o7777) size (timesOf o attrs)),
    { s with currentname := fname })

def identify (fuel : Nat) (s : St σ τ) (fname : List UInt8) : Option (Option Action × St σ τ) :=
  match peer.stat s.peer fname with
  | none => none
  | some (none, p) => some (none, { s with peer := p })
  | some (some attrs, p) =>
    if !attrs.has attrPermissions then some (none, { s with peer := p })
    else if attrs.isDirectory then directoryAction o peer fuel { s with peer := p } fname attrs
    else some (fileAction o { s with peer := p } fname attrs)

/-- Dots, and names that do not match, are passed over. -/
def passedOver (head : DirStack) (name : List UInt8) : Bool :=
  isDots name || match head.wildcard with
    | some wildcard => !wcMatch wildcard name
    | none => false

def sftpAction (fuel : Nat) (s : St σ τ) : Option (Option Action × St σ τ) :=
  match s.dirstack with
  | [] =>
    if s.doneThisTarget then some (none, s) else identify o peer fuel { s with doneThisTarget := true } s.remotepath
  | head :: next =>
    match head.names.dropWhile (passedOver wcMatch head) with
    | [] => some (some (if head.wildcard.isSome then .retry else .enddir), { s with dirstack := next })
    | name :: names =>
      let head := { head with names, matchedSomething := true }
      identify o peer fuel { s with dirstack := head :: next } (head.dirpath ++ [47] ++ name)

/-! ## The next action, over SCP -/

def isSpace (c : UInt8) : Bool := c == 32 || 9 ≤ c && c ≤ 13

/-- A number of sscanf's, of any sign; too large a one is the largest. -/
def scanNumber (base : Nat) (s : List UInt8) : Option (UInt64 × List UInt8) :=
  let s := s.dropWhile isSpace
  let negative := s.head? == some 45
  let s := if s.head? = some 45 ∨ s.head? = some 43 then s.tail else s
  let isDigit : UInt8 → Bool := fun c => 48 ≤ c.toNat && c.toNat < 48 + base
  let digits := s.takeWhile isDigit
  if digits = [] then none
  else
    let n := digits.foldl (fun n c => n * base + (c - 48).toNat) 0
    let value := if n < 2 ^ 64 then if negative then 0 - UInt64.ofNat n else UInt64.ofNat n else 18446744073709551615
    some (value, s.dropWhile isDigit)

/-- sscanf with "%lu %*d %lu %*d", which is to find two numbers. -/
def scanTimes (s : List UInt8) : Option (ULong × ULong) := do
  let mtime ← scanNumber 10 s
  let ignored ← scanNumber 10 mtime.2
  let atime ← scanNumber 10 ignored.2
  some (mtime.1, atime.1)

/-- sscanf with "%lo %llu %n". -/
def scanEntry (s : List UInt8) : Option (ULong × UInt64 × List UInt8) := do
  let permissions ← scanNumber 8 s
  let size ← scanNumber 10 permissions.2
  some (permissions.1, size.1, size.2.dropWhile isSpace)

/-- Up to the newline, and what is behind it. -/
def splitLine (s : List UInt8) : Option (List UInt8 × List UInt8) :=
  if 10 ∈ s then some (s.takeWhile (· ≠ 10), (s.dropWhile (· ≠ 10)).tail) else none

/-- An error's text stays in the buffer that the next record is added to, and a record
    without a text leaves what was there. -/
def scpAction : Nat → St σ τ → Option (ULong × ULong) → Option (Option Action × St σ τ)
  | 0, _, _ => none
  | fuel + 1, s, times =>
    match s.input with
    | [] => some (none, s)
    | ch :: input =>
      if ch = 10 then none
      else
        match splitLine input with
        | none => none
        | some (line, input) =>
          let s := { s with input, buf := line.foldl Strbuf.putByte s.buf }
          if ch = 1 then scpAction fuel s times
          else if ch = 69 then some (some .enddir, { s with sent := s.sent ++ [0] })
          else if ch = 84 then
            match scanTimes (mkstr s.buf.s) with
            | none => none
            | some times => scpAction fuel { s with sent := s.sent ++ [0], buf := s.buf.clear } (some times)
          else if ch = 67 ∨ ch = 68 ∧ o.recursive then
            match scanEntry (mkstr s.buf.s) with
            | none => none
            | some (permissions, size, name) =>
              some (some (.entry (if ch = 67 then .file else .dir) name permissions size times), s)
          else none

/-- scp_get_sink_action; `some none` when there is no more. -/
def getSinkAction (fuel : Nat) (s : St σ τ) : Option (Option Action × St σ τ) :=
  if o.usingSftp then sftpAction o peer wcMatch fuel s
  else scpAction o (s.input.length + 1) { s with buf := s.buf.clear } none

/-! ## A file's data -/

def sendAck (s : St σ τ) : St σ τ := if o.usingSftp then s else { s with sent := s.sent ++ [0] }

/-- scp_recv_filedata, which is to give something. -/
def recvFiledata (s : St σ τ) (len : Nat) : Option (List UInt8 × St σ τ) :=
  if o.usingSftp then
    match peer.recvFiledata s.peer len with
    | none => none
    | some ([], _) => none
    | some (data, p) => some (data, { s with peer := p })
  else if s.input.length < len then none
  else some (s.input.take len, { s with input := s.input.drop len })

/-- The loop of sink over a file's data; whether a write failed. -/
def receiveData : Nat → St σ τ → (received size : UInt64) → (wrerror : Bool) → Option (Bool × St σ τ)
  | 0, _, _, _, _ => none
  | fuel + 1, s, received, size, wrerror =>
    if received < size then
      match recvFiledata o peer s (min 32768 (size - received).toNat) with
      | none => none
      | some (data, s) =>
        if wrerror then receiveData fuel s (received + UInt64.ofNat data.length) size true
        else
          let (ok, fs) := loc.writeToFile s.fs data
          receiveData fuel { s with fs } (received + UInt64.ofNat data.length) size !ok
    else some (wrerror, s)

/-- response: all is well, or an error that is not fatal. -/
def response (s : St σ τ) : Option (St σ τ) :=
  match s.input with
  | [] => none
  | resp :: input =>
    if resp = 0 then some { s with input }
    else if resp ≠ 1 then none
    else
      let rbuf := input.take 2048
      if 10 ∈ rbuf then some { s with input := (input.dropWhile (· ≠ 10)).tail }
      else if input.length < 2048 then none
      else some { s with input := input.drop 2048 }

def finishFilerecv (s : St σ τ) : Option (St σ τ) :=
  if o.usingSftp then (peer.finishFilerecv s.peer).map fun p => { s with peer := p }
  else response { s with sent := s.sent ++ [0] }

/-! ## The sink -/

inductive Outcome where
  /-- sink returned. -/
  | returned
  /-- The program ended. -/
  | exited
  /-- It is still at it. -/
  | running
  deriving DecidableEq, Repr

/-- file_type. -/
def fileType (s : St σ τ) (path : List UInt8) : FileType × St σ τ :=
  let (attr, fs) := loc.fileType s.fs path
  (attr, { s with fs, dirs := if attr = .directory then path :: s.dirs else s.dirs })

/-- The component that is added to the target, `none` for a security violation. -/
def component (src : Option (List UInt8)) (name : List UInt8) : Option (List UInt8) :=
  let striptarget := stripslashes o.platform name true
  if isDots striptarget then none
  else
    match src with
    | none => some striptarget
    | some src =>
      let stripsrc := stripslashes o.platform src true
      some (if striptarget ≠ stripsrc ∧ ¬ o.usingSftp ∧ ¬ o.unsafeMode then stripsrc else striptarget)

def inDirectory (targ name : List UInt8) : List UInt8 := if targ ≠ [] then dirFileCat o.platform targ name else name

/-- destfname. -/
def destination (s : St σ τ) (targ : List UInt8) (src : Option (List UInt8)) (targisdir : Bool) (name : List UInt8) :
    Option (List UInt8) × St σ τ :=
  if targisdir then ((component o src name).map (inDirectory o targ), { s with asked := (name, src) :: s.asked })
  else (some targ, s)

/-- The directory of a D is there, or is made. -/
def makeDirectory (s : St σ τ) (attr : FileType) (destfname : List UInt8) : Bool × St σ τ :=
  if attr = .nonexistent then
    let (ok, fs) := loc.createDirectory s.fs destfname
    (ok, { s with fs, log := s.log ++ [.createDirectory destfname] })
  else (attr = .directory, s)

/-- A file, from its opening on: whether sink goes on, `none` for the end of the program.
    The state is the one then. -/
def receiveFile (fuel : Nat) (s : St σ τ) (destfname : List UInt8) (permissions : ULong) (size : UInt64) :
    Option Bool × St σ τ :=
  let (opened, fs) := loc.openNewFile s.fs destfname permissions
  let s := { s with fs, log := s.log ++ [.openNewFile destfname] }
  if !opened then (some true, s)
  else
    match (if o.usingSftp then peer.openRead s.peer s.currentname else some (true, s.peer)) with
    | none => (none, s)
    | some (false, p) => (some false, { s with peer := p })
    | some (true, p) =>
      match receiveData o peer loc fuel (sendAck o { s with peer := p }) 0 size false with
      | none => (none, s)
      | some (true, s) => (some true, s)
      | some (false, s) =>
        match finishFilerecv o peer s with
        | none => (none, s)
        | some s => (some true, s)

/-- What a turn of sink's loop comes to; a directory is entered by a call of sink. -/
inductive Turn where
  | stop (outcome : Outcome)
  | again
  | enter (targ : List UInt8) (targisdir : Bool)
  deriving DecidableEq, Repr

/-- The beginning of sink. -/
def enterSink (s : St σ τ) (targ : List UInt8) : Turn × St σ τ :=
  let (attr, s) := fileType loc s targ
  if o.targetShouldBeDirectory ∧ attr ≠ .directory then (.stop .exited, s)
  else (.enter targ (attr = .directory), sendAck o s)

def entryTurn (fuel : Nat) (s : St σ τ) (kind : Kind) (destfname : List UInt8) (permissions : ULong) (size : UInt64) :
    Turn × St σ τ :=
  let (attr, s) := fileType loc s destfname
  match kind with
  | .dir =>
    match makeDirectory loc s attr destfname with
    | (false, s) => (.again, s)
    | (true, s) => enterSink o loc s destfname
  | .file =>
    match receiveFile o peer loc fuel s destfname permissions size with
    | (none, s) => (.stop .exited, s)
    | (some false, s) => (.stop .returned, s)
    | (some true, s) => (.again, s)

/-- A turn of sink's loop. -/
def sinkTurn (fuel : Nat) (s : St σ τ) (targ : List UInt8) (src : Option (List UInt8)) (targisdir : Bool) : Turn × St σ τ :=
  match getSinkAction o peer wcMatch fuel s with
  | none => (.stop .exited, s)
  | some (none, s) => (.stop .returned, s)
  | some (some .enddir, s) => (.stop .returned, s)
  | some (some .retry, s) => (.again, s)
  | some (some (.entry kind name permissions size _), s) =>
    match destination o s targ src targisdir name with
    | (none, s) => (.stop .exited, s)
    | (some destfname, s) => entryTurn o peer loc fuel s kind destfname permissions size

def sinkLoop : Nat → St σ τ → List UInt8 → Option (List UInt8) → Bool → Outcome × St σ τ
  | 0, s, _, _, _ => (.running, s)
  | fuel + 1, s, targ, src, targisdir =>
    match sinkTurn o peer loc wcMatch fuel s targ src targisdir with
    | (.stop outcome, s) => (outcome, s)
    | (.again, s) => sinkLoop fuel s targ src targisdir
    | (.enter destfname isdir, s) =>
      -- the call has a buffer of its own
      match sinkLoop fuel { s with buf := .new } destfname none isdir with
      | (.returned, s') => sinkLoop fuel { s' with buf := s.buf } targ src targisdir
      | r => r

/-- sink, for any number of turns of its loops. -/
def sink (fuel : Nat) (s : St σ τ) (targ : List UInt8) (src : Option (List UInt8)) : Outcome × St σ τ :=
  match enterSink o loc { s with buf := .new } targ with
  | (.enter targ targisdir, s) => sinkLoop o peer loc wcMatch fuel s targ src targisdir
  | (.stop outcome, s) => (outcome, s)
  | (.again, s) => (.running, s)

end Program

end Putty.Pscp
