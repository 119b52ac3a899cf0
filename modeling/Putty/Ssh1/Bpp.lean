/-
  Putty.Ssh1.Bpp — the incoming half of the SSH-1 binary packet protocol (`ssh1bpp.c`,
  ssh1_bpp_handle_input and what sets its state up).

  The cipher is a parameter, whose states also say which one it is. After an error the
  coroutine starts over, with what is still in the queue of raw data; at the end of the
  input the state is freed. The login layer sets a cipher up once, and asks for
  compression when there is none. `none` is a failed assertion. Left out: logging, the
  outgoing direction, and the memory that an error leaks.
-/

import Putty.Lib.Run
import Putty.Ssh1.Attack
import Putty.Zlib.Decoder

namespace Putty.Ssh1

open Putty.Utils Putty.Zlib

/-- The ciphers, which assert that they are given whole blocks. -/
structure CipherAlg (σ : Type) where
  decrypt : σ → List UInt8 → Option (List UInt8 × σ)
  whole : ∀ s data, data.length % blocksize = 0 → ∃ out s', decrypt s data = some (out, s') ∧ out.length = data.length

def SSH1_SMSG_SUCCESS : UInt8 := 14
def SSH1_SMSG_FAILURE : UInt8 := 15

/-- The errors that end the connection. -/
inductive Abort where
  | packetLength
  | attack
  | crc
  | decompression
  deriving DecidableEq, Repr

def Abort.message : Abort → String
  | .packetLength => "Out-of-range packet length from remote suggests data stream corruption"
  | .attack => "Network attack (CRC compensation) detected!"
  | .crc => "Incorrect CRC received on packet"
  | .decompression => "Zlib decompression encountered invalid data"

/-- A packet: `data` is what its buffer has after the type byte, of which `length` bytes
    are the packet's. -/
structure PktIn where
  type : UInt8
  data : List UInt8
  length : Int
  deriving DecidableEq, Repr

/-- Where a delivered packet was read, and with what. -/
structure Origin (σ : Type) where
  start : Nat
  len : Nat
  data : List UInt8
  cipherIn : Option σ
  crcda : Nat
  iv : List UInt8
  decompctx : Option Ctx

structure St (σ : Type) where
  /-- The length of the packet whose data is awaited. -/
  crState : Option Nat
  cipherIn : Option σ
  /-- The size in crcda_ctx, which is made with the cipher. -/
  crcda : Nat
  iv : List UInt8
  pendingCompressionRequest : Bool
  decompctx : Option Ctx
  inRaw : List UInt8
  inputEof : Bool
  freed : Bool
  aborts : List Abort
  /-- The lengths that were accepted. -/
  accepted : List Nat
  /-- What was pushed to in_pq, with where it is from. -/
  delivered : List (Origin σ × PktIn)
  /-- The bytes that have arrived, and how many were taken from in_raw. -/
  received : List UInt8
  taken : Nat

variable {σ : Type}

/-- ssh1_bpp_new. -/
def ssh1BppNew : St σ :=
  ⟨none, none, 0, List.replicate 8 0, false, none, [], false, false, [], [], [], [], 0⟩

def ssh1BppNewCipher (t : St σ) (c : σ) : St σ :=
  { t with cipherIn := some c, crcda := hashMinentries, iv := List.replicate 8 0 }

def ssh1BppStartCompression (t : St σ) (raw : Ctx) : Option (St σ) :=
  if t.decompctx.isSome then none
  else (decompressInit raw).map fun ctx => { t with decompctx := some ctx }

/-! ## ssh1_bpp_handle_input -/

inductive Read (σ : Type) where
  | wait
  | eof
  | done (bytes : List UInt8) (t : St σ)

/-- BPP_READ. -/
def bppRead (t : St σ) (n : Nat) : Read σ :=
  if n ≤ t.inRaw.length then .done (t.inRaw.take n) { t with inRaw := t.inRaw.drop n, taken := t.taken + n }
  else if t.inputEof then .eof
  else .wait

def toint (u : UInt32) : Int := if u.toNat < 2 ^ 31 then u.toNat else u.toNat - 2 ^ 32

/-- After an error the coroutine is at its beginning. -/
def abort (t : St σ) (a : Abort) : St σ := { t with crState := none, aborts := t.aborts ++ [a] }

def padOf (len : Nat) : Nat := 8 - len % 8
def biglen (len : Nat) : Nat := len + padOf len

/-- What comes out of the checks: an error, or the plain data. -/
inductive Checked where
  | bad (a : Abort)
  | good (plain : List UInt8)

/-- From detect_attack to the CRC. -/
def check (alg : CipherAlg σ) (t : St σ) (data : List UInt8) : Option (Checked × St σ) :=
  let iv := (data.drop (data.length - 8)).take 8
  match t.cipherIn with
  | none =>
    let t := { t with iv := iv }
    if BinarySource.get32BitMsbFirst (data.drop (data.length - 4)) ≠ crc32Ssh1 (data.take (data.length - 4)) then some (.bad .crc, t)
    else some (.good data, t)
  | some c =>
    (detectAttack t.crcda data t.iv).bind fun r =>
    let t := { t with crcda := r.1 }
    if r.2 then some (.bad .attack, t)
    else
      (alg.decrypt c data).bind fun d =>
      let t := { t with iv := iv, cipherIn := some d.2 }
      if BinarySource.get32BitMsbFirst (d.1.drop (data.length - 4)) ≠ crc32Ssh1 (d.1.take (data.length - 4)) then some (.bad .crc, t)
      else some (.good d.1, t)

/-- The compressed data, or the type byte and the payload. -/
def contents (len : Nat) (plain : List UInt8) : List UInt8 := (plain.drop (padOf len)).take (len - 4)

/-- The decompression: the buffer from the type byte on, and the length that is set. -/
def decompress (t : St σ) (len : Nat) (plain : List UInt8) : Option (Except Abort (List UInt8 × Int) × St σ) :=
  match t.decompctx with
  | none => some (.ok (plain.drop (padOf len), (len : Int) - 5), t)
  | some ctx =>
    (decompressBlock ctx (contents len plain)).map fun r =>
      let t := { t with decompctx := some r.1 }
      match r.2 with
      | none => (.error .decompression, t)
      | some decompblk => (.ok (decompblk ++ plain.drop (padOf len + decompblk.length), (decompblk.length : Int) - 1), t)

/-- The answer to the request for compression. -/
def noteType (t : St σ) (type : UInt8) (raw : Ctx) : Option (St σ) :=
  if type = SSH1_SMSG_SUCCESS ∨ type = SSH1_SMSG_FAILURE then
    if t.pendingCompressionRequest then
      (if type = SSH1_SMSG_SUCCESS then ssh1BppStartCompression t raw else some t).map fun t =>
        { t with pendingCompressionRequest := false }
    else some t
  else some t

/-- Reading the type byte beyond the buffer would be `none`. -/
def deliver (t : St σ) (o : Origin σ) (buffer : List UInt8) (length : Int) (raw : Ctx) : Option (St σ) :=
  match buffer with
  | [] => none
  | type :: data =>
    noteType { t with crState := none, delivered := t.delivered ++ [(o, ⟨type, data, length⟩)] } type raw

/-- A packet whose data is there; whether the loop goes on. -/
def packet (alg : CipherAlg σ) (t : St σ) (len : Nat) (data : List UInt8) (raw : Ctx) : Option (St σ × Bool) :=
  let o : Origin σ := ⟨t.taken - data.length, len, data, t.cipherIn, t.crcda, t.iv, t.decompctx⟩
  (check alg t data).bind fun
    | (.bad a, t) => some (abort t a, false)
    | (.good plain, t) =>
      (decompress t len plain).bind fun
        | (.error a, t) => some (abort t a, false)
        | (.ok (buffer, length), t) => (deliver t o buffer length raw).map (·, true)

/-- From one wait to the next. -/
def turn (alg : CipherAlg σ) (t : St σ) (raw : Ctx) : Option (St σ × Bool) :=
  match t.crState with
  | none =>
    match bppRead t 4 with
    | .wait => some (t, false)
    | .eof => some ({ t with freed := true }, false)
    | .done lenbuf t =>
      let len := toint (BinarySource.get32BitMsbFirst lenbuf)
      if len < 5 ∨ 262144 < len then some (abort t .packetLength, false)
      else some ({ t with crState := some len.toNat, accepted := t.accepted ++ [len.toNat] }, true)
  | some len =>
    match bppRead t (biglen len) with
    | .wait => some (t, false)
    | .eof => some ({ t with freed := true }, false)
    | .done data t => packet alg t len data raw

/-- The loop; every two turns that go on take bytes from in_raw. -/
def loop (alg : CipherAlg σ) (raw : Ctx) : Nat → St σ → Option (St σ)
  | 0, t => some t
  | fuel + 1, t =>
    (turn alg t raw).bind fun
      | (t, true) => loop alg raw fuel t
      | (t, false) => some t

def ssh1BppHandleInput (alg : CipherAlg σ) (t : St σ) (raw : Ctx) : Option (St σ) :=
  loop alg raw (t.inRaw.length + 1) t

/-! ## Events -/

/-- `raw` is the memory of a decompressor that a call makes. -/
inductive Ev (σ : Type) where
  | arrive (data : List UInt8)
  | eof
  | newCipher (c : σ)
  | requestCompression
  | handleInput (raw : Ctx)

def step (alg : CipherAlg σ) (t : St σ) (e : Ev σ) : Option (St σ) :=
  if t.freed then some t
  else
    match e with
    | .arrive data => some { t with inRaw := t.inRaw ++ data, received := t.received ++ data }
    | .eof => some { t with inputEof := true }
    | .newCipher c => some (if t.cipherIn.isSome then t else ssh1BppNewCipher t c)
    | .requestCompression => some (if t.decompctx.isSome then t else { t with pendingCompressionRequest := true })
    | .handleInput raw => ssh1BppHandleInput alg t raw

end Putty.Ssh1
