/-
  Putty.Scp.Source — the source end of the SCP protocol (`scpserver.c`, scp_source_push to
  scp_source_eof).

  A stack says what is still to be sent: a name, a directory being read, a file being
  read. Commands wait in a queue of at most three, and each is sent for one ack of the
  client; the empty one stands for the ack before a file's data. scp_source_process_stack
  is called for the client's bytes, for its EOF, when the channel takes data again, and
  by a callback it queues for itself.

  `none` is a failed assertion. The log records what goes to the channel, and each ack as
  it is consumed. How a wildcard is matched is a parameter.
-/

import Putty.Scp.Server

namespace Putty.Scp.Source

open Putty.Utils

inductive CmdChar where
  | C
  | D
  deriving DecidableEq, Repr

/-- What a pending command's strbuf holds. -/
inductive Command where
  | T (mtime atime : ULong)
  | CD (cmdchar : CmdChar) (permissions : ULong) (size : UInt64) (name : List UInt8)
  | E
  /-- The zero-length one. -/
  | wait
  deriving DecidableEq, Repr

def CmdChar.byte : CmdChar → UInt8
  | .C => 67
  | .D => 68

def Command.bytes : Command → List UInt8
  | .T mtime atime => text "T" ++ decimal mtime.toNat ++ text " 0 " ++ decimal atime.toNat ++ text " 0\n"
  | .CD cmdchar permissions size name =>
    cmdchar.byte :: (octal4 permissions.toNat ++ text " " ++ decimal size.toNat ++ text " " ++ mkstr name ++ text "\n")
  | .E => text "E\n"
  | .wait => []

inductive NodeType where
  | rootpath
  | name
  | readdir
  | readfile
  deriving DecidableEq, Repr

structure StackEntry where
  type : NodeType
  pathname : List UInt8
  handle : List UInt8
  attrs : FxpAttrs
  wildcard : Option (List UInt8)
  deriving DecidableEq, Repr

inductive Out where
  /-- An ack of the client is consumed. -/
  | ack
  | command (cmd : Command)
  | data (bytes : List UInt8)
  /-- The zero byte behind a file's data. -/
  | zero
  /-- A message on standard error. -/
  | stderr (msg : List UInt8)
  | exitStatus (status : Nat)
  | eof
  | close (err : Option (List UInt8))
  deriving DecidableEq, Repr

structure St (σ : Type) where
  sf : σ
  acks : Nat
  expectNewline : Bool
  eof : Bool
  throttled : Bool
  finished : Bool
  stack : List StackEntry
  recursive : Bool
  sendFileTimes : Bool
  pendingCommands : List Command
  fileOffset : UInt64
  fileSize : UInt64
  /-- Callbacks to scp_source_process_stack_cb still queued. -/
  callbacks : Nat
  log : List Out
  /-- The handles that open and opendir gave, and those passed to close. -/
  opened : List (List UInt8)
  closed : List (List UInt8)

variable {σ : Type}

/-- The channel's backlog after a write: sshfwd_write's return value. -/
abbrev Backlog := Int

def scpMaxBacklog : Int := 65536

def push (s : St σ) (type : NodeType) (pathname handle : List UInt8) (attrs : Option FxpAttrs)
    (wc : Option (List UInt8)) : St σ :=
  { s with stack := ⟨type, pathname, handle, attrs.getD noAttrs, wc⟩ :: s.stack }

def out (s : St σ) (o : Out) : St σ := { s with log := s.log ++ [o] }

/-- scp_source_err: the message, then a newline. -/
def err (s : St σ) (msg : List UInt8) : St σ := { s with log := s.log ++ [.stderr msg, .stderr [10]] }

/-- scp_source_abort: the message as an error first. -/
def abort (s : St σ) (msg : List UInt8) : St σ :=
  { s with log := s.log ++ [.stderr msg, .stderr [10], .exitStatus 1, .eof, .close (some msg)], finished := true }

def pushName (s : St σ) (pathname : List UInt8) (attrs : FxpAttrs) (wc : Option (List UInt8)) : St σ :=
  if ¬ attrs.has attrPermissions then err s (text "unable to read file permissions for " ++ mkstr pathname)
  else if attrs.isDirectory then
    if ¬ s.recursive ∧ wc.isNone then err s (mkstr pathname ++ text ": is a directory")
    else push s .name pathname [] (some attrs) wc
  else if ¬ attrs.has attrSize then err s (text "unable to read file size for " ++ mkstr pathname)
  else push s .name pathname [] (some attrs) wc

def sendE (s : St σ) : Option (St σ) :=
  if s.pendingCommands = [] then some { s with pendingCommands := [.E] } else none

/-- The name after its last slash. -/
def leaf (name : List UInt8) : List UInt8 := (name.reverse.takeWhile (· ≠ 47)).reverse

def sendCD (s : St σ) (cmdchar : CmdChar) (attrs : FxpAttrs) (size : UInt64) (name : List UInt8) : Option (St σ) :=
  if s.pendingCommands = [] then
    let times := if s.sendFileTimes ∧ attrs.has attrAcmodtime then [Command.T attrs.mtime attrs.atime] else []
    let cmd := Command.CD cmdchar (attrs.permissions &&& 0o7777) size (leaf name)
    let data := match cmdchar with
      | .C => [Command.wait]
      | .D => []
    some { s with pendingCommands := times ++ [cmd] ++ data }
  else none

def requeue (s : St σ) : St σ := { s with callbacks := s.callbacks + 1 }

/-- wc_unescape: the text without its backslashes, unless it has a wildcard in it. -/
def wcUnescape : List UInt8 → Option (List UInt8)
  | [] => some []
  | c :: rest =>
    if c = 92 then
      match rest with
      | [] => some []
      | d :: rest => (wcUnescape rest).map (d :: ·)
    else if c = 42 ∨ c = 63 ∨ c = 91 ∨ c = 93 then none
    else (wcUnescape rest).map (c :: ·)

/-- The loop over the pending commands; false when the call ends there. -/
def sendPending (s : St σ) : List Command → St σ × Bool
  | [] => ({ s with pendingCommands := [] }, true)
  | cmd :: rest =>
    if s.eof then
      (abort { s with pendingCommands := cmd :: rest } (text "scp: received client EOF, abandoning transfer"), false)
    else if s.acks = 0 then ({ s with pendingCommands := cmd :: rest }, false)
    else
      let s := out { s with acks := s.acks - 1 } .ack
      sendPending (if cmd.bytes ≠ [] then out s (.command cmd) else s) rest

section Server

variable (srv : SftpServer σ)

def openHandle (s : St σ) (handle : List UInt8) : St σ := { s with opened := s.opened ++ [handle] }

def closeHandle (s : St σ) (handle : List UInt8) : St σ :=
  { s with sf := (srv.close s.sf handle).2, closed := s.closed ++ [handle] }

/-- The directory, and the wildcard to match in it. -/
def splitRootpath (rootpath : List UInt8) : Option (List UInt8 × Option (List UInt8)) :=
  match wcUnescape rootpath with
  | some _ => some (rootpath, none)
  | none =>
    if 47 ∈ rootpath then
      match wcUnescape (rootpath.take (rootpath.length - (leaf rootpath).length - 1)) with
      | none => none
      | some pathname => some (pathname, some (leaf rootpath))
    else some (text ".", some rootpath)

def processRootpath (s : St σ) (node : StackEntry) : St σ :=
  match splitRootpath (mkstr node.pathname) with
  | none => abort s (text "scp: wildcards in path components before the file name not supported")
  | some (pathname, wildcard) =>
    match srv.stat s.sf pathname true with
    | (.error e, sf) => abort { s with sf } (mkstr pathname ++ text ": unable to access: " ++ e.errmsg)
    | (.ok attrs, sf) => requeue (pushName { s with sf } pathname attrs wildcard)

/-- `min(file_size - file_offset, 4096)`. -/
def readLimit (s : St σ) : Nat := min (s.fileSize - s.fileOffset).toNat 4096

def processReadfile (backlog : Backlog) (s : St σ) (node : StackEntry) (rest : List StackEntry) : St σ :=
  if readLimit s > 0 then
    match srv.read s.sf node.handle s.fileOffset (readLimit s) with
    | (.error e, sf) => abort { s with sf } (mkstr node.pathname ++ text ": unable to read: " ++ e.errmsg)
    | (.ok data, sf) =>
      let s := out { s with sf, fileOffset := s.fileOffset + UInt64.ofNat data.length } (.data data)
      if backlog < scpMaxBacklog then requeue s else s
  else requeue { closeHandle srv (out s .zero) node.handle with stack := rest }

variable (wcMatchPl : List UInt8 → List UInt8 → Bool)

def processReaddir (s : St σ) (node : StackEntry) (rest : List StackEntry) : Option (St σ) :=
  match srv.readdir s.sf node.handle 1 true with
  | (.error e, sf) =>
    let s := { s with sf, stack := rest }
    let s := if e.code ≠ fxEof then err s (mkstr node.pathname ++ text ": unable to list directory: " ++ e.errmsg) else s
    let s := closeHandle srv s node.handle
    if node.wildcard.isNone then sendE s else some s
  | (.ok (name, attrs), sf) =>
    if name = text "." ∨ name = text ".." ∨ (∃ wc, node.wildcard = some wc ∧ ¬ wcMatchPl wc name) then some { s with sf }
    else some (pushName { s with sf } (node.pathname ++ text "/" ++ name) attrs none)

def processDirectory (s : St σ) (node : StackEntry) (rest : List StackEntry) : Option (St σ) :=
  if s.recursive ∨ node.wildcard.isSome then do
    let s := { s with stack := rest }
    let s ← if node.wildcard.isNone then sendCD s .D node.attrs 0 node.pathname else some s
    match srv.opendir s.sf node.pathname with
    | (.error e, sf) =>
      let s := err { s with sf } (mkstr node.pathname ++ text ": unable to access: " ++ e.errmsg)
      if node.wildcard.isNone then sendE s else some s
    | (.ok handle, sf) => some (push (openHandle { s with sf } handle) .readdir node.pathname handle none node.wildcard)
  else none

def processFile (s : St σ) (node : StackEntry) (rest : List StackEntry) : Option (St σ) :=
  let s := { s with stack := rest }
  match srv.openFile s.sf node.pathname fxfRead noAttrs with
  | (.error e, sf) => some (err { s with sf } (mkstr node.pathname ++ text ": unable to open: " ++ e.errmsg))
  | (.ok handle, sf) =>
    let s := openHandle { s with sf } handle
    match srv.fstat s.sf handle with
    | (.error e, sf) =>
      some (closeHandle srv (err { s with sf } (mkstr node.pathname ++ text ": unable to stat: " ++ e.errmsg)) handle)
    | (.ok attrs, sf) => do
      let s ← sendCD { s with sf, fileOffset := 0, fileSize := attrs.size } .C node.attrs attrs.size node.pathname
      some (push s .readfile node.pathname handle none none)

/-- The part of scp_source_process_stack behind the pending commands. -/
def processHead (backlog : Backlog) (s : St σ) : Option (St σ) :=
  match s.stack with
  | [] => some { s with log := s.log ++ [.exitStatus 0, .eof, .close none], finished := true }
  | node :: rest =>
    match node.type with
    | .rootpath => some (processRootpath srv { s with stack := rest } node)
    | .readfile => some (processReadfile srv backlog s node rest)
    | .readdir => (processReaddir srv wcMatchPl s node rest).map requeue
    | .name =>
      if node.attrs.isDirectory then (processDirectory srv s node rest).map requeue
      else (processFile srv s node rest).map requeue

def processStack (backlog : Backlog) (s : St σ) : Option (St σ) :=
  if s.throttled then some s
  else
    let r := sendPending s s.pendingCommands
    if r.2 then processHead srv wcMatchPl backlog r.1 else some r.1

/-- scp_source_send's loop over the client's bytes; false when it aborts. -/
def feed (s : St σ) : List UInt8 → St σ × Bool
  | [] => (s, true)
  | c :: rest =>
    if s.expectNewline then
      if c = 10 then feed { s with expectNewline := false, acks := s.acks + 1 } rest else feed s rest
    else if c = 0 then feed { s with acks := s.acks + 1 } rest
    else if c = 1 then feed { s with expectNewline := true } rest
    else if c = 2 then (abort s (text "terminating on fatal error from client"), false)
    else (abort s (text "unrecognised response code from client"), false)

/-! ## Runs -/

inductive Ev where
  | send (data : List UInt8) (backlog : Backlog)
  | eof (backlog : Backlog)
  | throttle (throttled : Bool) (backlog : Backlog)
  /-- A queued callback is run. -/
  | callback (backlog : Backlog)
  deriving DecidableEq

def step (s : St σ) : Ev → Option (St σ)
  | .send data backlog =>
    if s.finished then some s
    else
      let r := feed s data
      if r.2 then processStack srv wcMatchPl backlog r.1 else some r.1
  | .eof backlog => if s.finished then some s else processStack srv wcMatchPl backlog { s with eof := true }
  | .throttle throttled backlog =>
    if s.finished then some s
    else if throttled then some { s with throttled }
    else processStack srv wcMatchPl backlog { s with throttled }
  | .callback backlog =>
    if s.callbacks = 0 then some s
    else
      let s := { s with callbacks := s.callbacks - 1 }
      if s.finished then some s else processStack srv wcMatchPl backlog s

/-- scp_source_new, with the options of the command line. -/
def init (sf : σ) (pathname : List UInt8) (recursive preserve : Bool) : St σ where
  sf := sf
  acks := 0
  expectNewline := false
  eof := false
  throttled := false
  finished := false
  stack := [⟨.rootpath, pathname, [], noAttrs, none⟩]
  recursive := recursive
  sendFileTimes := preserve
  pendingCommands := []
  fileOffset := 0
  fileSize := 0
  callbacks := 0
  log := []
  opened := []
  closed := []

end Server

end Putty.Scp.Source
