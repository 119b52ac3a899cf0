/-
  Putty.Scp.Server — the file system behind the SCP server (`sftp.h`, SftpServerVtable).

  The SCP code reaches it through the SFTP server's operations alone. Its state is any
  type and every operation may fail. Of its answers two things are assumed: a read gives
  no more than was asked for, and a write is the writes of its pieces, one behind the
  other up to the first that fails.
-/

import Putty.Utils.BinarySink

namespace Putty.Scp

open Putty.Utils

/-- An unsigned long of 64 bits. -/
abbrev ULong := UInt64

/-- `struct fxp_attrs`, without the owner. -/
structure FxpAttrs where
  flags : ULong
  size : UInt64
  permissions : ULong
  atime : ULong
  mtime : ULong
  deriving DecidableEq, Repr

def noAttrs : FxpAttrs := ⟨0, 0, 0, 0, 0⟩

def attrSize : ULong := 1
def attrPermissions : ULong := 4
def attrAcmodtime : ULong := 8
/-- PERMS_DIRECTORY. -/
def permsDirectory : ULong := 0x4000

def FxpAttrs.has (attrs : FxpAttrs) (flag : ULong) : Bool := attrs.flags &&& flag != 0

def FxpAttrs.isDirectory (attrs : FxpAttrs) : Bool := attrs.permissions &&& permsDirectory != 0

def fxfRead : UInt32 := 1
def fxfWrite : UInt32 := 2
def fxfCreat : UInt32 := 8
def fxfTrunc : UInt32 := 16

/-- SSH_FX_EOF. -/
def fxEof : UInt32 := 1

/-- What fxp_reply_error was called with. -/
structure SftpError where
  code : UInt32
  errmsg : List UInt8
  deriving DecidableEq, Repr

/-- The operations, each with the state it leaves. -/
structure SftpServer (σ : Type) where
  stat : σ → List UInt8 → Bool → Except SftpError FxpAttrs × σ
  fstat : σ → List UInt8 → Except SftpError FxpAttrs × σ
  openFile : σ → List UInt8 → UInt32 → FxpAttrs → Except SftpError (List UInt8) × σ
  opendir : σ → List UInt8 → Except SftpError (List UInt8) × σ
  readdir : σ → List UInt8 → Nat → Bool → Except SftpError (List UInt8 × FxpAttrs) × σ
  read : σ → List UInt8 → UInt64 → Nat → Except SftpError (List UInt8) × σ
  write : σ → List UInt8 → UInt64 → List UInt8 → Except SftpError Unit × σ
  mkdir : σ → List UInt8 → FxpAttrs → Except SftpError Unit × σ
  close : σ → List UInt8 → Except SftpError Unit × σ
  write_nil : ∀ s handle offset, write s handle offset [] = (.ok (), s)
  write_append : ∀ s handle offset a b, write s handle offset (a ++ b) =
    match write s handle offset a with
    | (.ok (), s) => write s handle (offset + UInt64.ofNat a.length) b
    | (.error e, s) => (.error e, s)
  read_le : ∀ s handle offset length data, (read s handle offset length).1 = .ok data → data.length ≤ length

/-- mkstr, and "%.*s": a C string ends at the first zero byte. -/
def mkstr (s : List UInt8) : List UInt8 := s.takeWhile (· ≠ 0)

/-- "%lu" and PRIu64. -/
def decimal (n : Nat) : List UInt8 := (Nat.toDigits 10 n).map fun c => UInt8.ofNat c.toNat

/-- "%04o". -/
def octal4 (n : Nat) : List UInt8 :=
  let digits := (Nat.toDigits 8 n).map fun c => UInt8.ofNat c.toNat
  List.replicate (4 - digits.length) 48 ++ digits

end Putty.Scp
