/-
  Putty.Sftp.Download — downloading a file through many read requests at once (`sftp.c`,
  xfer_download_init, xfer_download_queue, xfer_download_gotpkt, xfer_download_data,
  xfer_set_error and xfer_done).

  Reads of 32768 bytes are sent as long as less than a megabyte is outstanding, and the
  server answers them in any order. Blocks come back to the caller in the order they were
  asked for: the head of the queue is released when it is complete. A reply that is
  shorter than its request moves `filesize` down, one with data moves `furthestdata` up,
  and when the second passes the first an error is reported. The caller still gets the
  blocks that follow, with a gap between them.

  `Server` is the other end of the wire: it sees the packets alone and knows which of the
  requests, counted from the first, each of its replies answered.
-/

import Mathlib.Data.List.Nodup
import Putty.Lib.Run
import Putty.Sftp.Requests

namespace Putty.Sftp

open Putty.Lib Putty.Utils

structure Req where
  /-- Its address: the number of requests allocated before it. -/
  tag : Nat
  buffer : List UInt8
  len : Nat
  retlen : Int
  complete : Int
  offset : UInt64
  deriving DecidableEq, Repr

structure FxpXfer where
  offset : UInt64
  furthestdata : UInt64
  filesize : UInt64
  reqTotalsize : Nat
  reqMaxsize : Nat
  eof : Bool
  err : Bool
  fh : List UInt8
  /-- From `head` to `tail`. -/
  queue : List Req
  deriving DecidableEq, Repr

/-- SSH_FXP_READ. -/
structure ReadPacket where
  id : UInt32
  handle : List UInt8
  offset : UInt64
  len : Nat
  deriving DecidableEq, Repr

/-! ## The other end of the wire -/

structure Server where
  /-- The read requests, in the order they came. -/
  sent : List ReadPacket
  /-- Those without a reply: the id, and the place in `sent`. -/
  outstanding : List (UInt32 × Nat)
  /-- The replies, the latest first, by the request they answer. -/
  answers : List (Nat × Reply)
  deriving DecidableEq

namespace Server

def request (v : Server) (p : ReadPacket) : Server :=
  { v with sent := v.sent ++ [p], outstanding := v.outstanding ++ [(p.id, v.sent.length)] }

/-- A packet whose id is that of an outstanding request answers it. -/
def reply (v : Server) : Option SftpPacket → Server
  | none => v
  | some pktin =>
    let r := pktin.src.getUint32
    if r.2.err then v
    else
      match v.outstanding.find? fun x => x.1 == r.1 with
      | none => v
      | some x => { v with
          outstanding := v.outstanding.erase x
          answers := (x.2, replyIn { pktin with src := r.2 } ((v.sent[x.2]?.map ReadPacket.len).getD 0)) :: v.answers }

def answer (v : Server) (k : Nat) : Option Reply := v.answers.lookup k

end Server

/-! ## The transfer -/

structure St where
  fxp : Fxp
  xfer : FxpXfer
  /-- How many `struct req` were allocated. -/
  nextReq : Nat
  server : Server
  /-- What xfer_download_gotpkt returned, call by call. -/
  results : List Int
  /-- What xfer_download_data returned: each block with the offset of its request. -/
  returned : List (UInt64 × List UInt8)
  deriving DecidableEq

def xferInit (fh : List UInt8) (offset : UInt64) : FxpXfer where
  fh := fh
  offset := offset
  queue := []
  reqTotalsize := 0
  reqMaxsize := 1048576
  err := false
  eof := false
  filesize := 18446744073709551615
  furthestdata := 0

def xferDone (xfer : FxpXfer) : Bool := (xfer.eof || xfer.err) && xfer.queue.isEmpty

def xferSetError (xfer : FxpXfer) : FxpXfer := { xfer with err := true }

/-- The request's id, with the packet that went out. -/
def fxpReadSend (f : Fxp) (fh : List UInt8) (offset : UInt64) (len : Nat) : Option (ReadPacket × Fxp) :=
  (sftpAllocRequest f).map fun r => (⟨r.1, fh, offset, len⟩, r.2)

/-- The loop body: one more read request. -/
def queueRequest (s : St) : Option St := do
  let rr : Req := ⟨s.nextReq, [], 32768, 0, 0, s.xfer.offset⟩
  let r ← fxpReadSend s.fxp s.xfer.fh rr.offset rr.len
  some { s with
    fxp := fxpSetUserdata (sftpRegister r.2 r.1.id) r.1.id rr.tag
    nextReq := s.nextReq + 1
    server := s.server.request r.1
    xfer := { s.xfer with
      queue := s.xfer.queue ++ [rr]
      offset := s.xfer.offset + UInt64.ofNat rr.len
      reqTotalsize := s.xfer.reqTotalsize + rr.len } }

def wantsMore (xfer : FxpXfer) : Bool := xfer.reqTotalsize < xfer.reqMaxsize && !xfer.eof && !xfer.err

def queueLoop : Nat → St → Option St
  | 0, s => if wantsMore s.xfer then none else some s
  | fuel + 1, s => if wantsMore s.xfer then (queueRequest s).bind (queueLoop fuel) else some s

def xferDownloadQueue (s : St) : Option St := queueLoop (s.xfer.reqMaxsize - s.xfer.reqTotalsize) s

def intMin : Int := -2147483648

/-- A write to the fields of a queued request. -/
def setReq (xfer : FxpXfer) (rr : Req) : FxpXfer :=
  { xfer with queue := xfer.queue.map fun r => if r.tag = rr.tag then rr else r }

/-- The rest of xfer_download_gotpkt, from `rr->complete = 1` on. -/
def accept (f : Fxp) (xfer : FxpXfer) (rr : Req) : Int × Fxp × FxpXfer :=
  let rr := { rr with complete := 1 }
  let xfer := setReq xfer rr
  let xfer := if rr.retlen > 0 ∧ xfer.furthestdata < rr.offset then { xfer with furthestdata := rr.offset } else xfer
  let xfer :=
    if rr.retlen < rr.len then
      let filesize := rr.offset + (if rr.retlen < 0 then 0 else UInt64.ofNat rr.retlen.toNat)
      if xfer.filesize > filesize then { xfer with filesize := filesize } else xfer
    else xfer
  if xfer.furthestdata > xfer.filesize then
    (-1, fxpInternalError f "received a short buffer from FXP_READ, but not at EOF", xferSetError xfer)
  else (1, f, xfer)

/-- The part of xfer_download_gotpkt that takes the reply to `rr`. -/
def takeReply (f : Fxp) (xfer : FxpXfer) (rr : Req) (pktin : SftpPacket) : Int × Fxp × FxpXfer :=
  let got := fxpReadRecv f pktin rr.len
  let f := got.2.2
  let rr := { rr with retlen := got.1, buffer := got.2.1 ++ rr.buffer.drop got.2.1.length }
  if (got.1 < 0 ∧ f.fxpErrtype = sshFxEof) ∨ got.1 = 0 then
    accept f { xfer with eof := true } { rr with retlen := 0, complete := -1 }
  else if got.1 < 0 then (-1, f, xferSetError (setReq xfer { rr with complete := -1 }))
  else accept f xfer rr

/-- `none` when the request's `struct req` is no longer there. -/
def xferDownloadGotpkt (f : Fxp) (xfer : FxpXfer) (pktin : Option SftpPacket) : Option (Int × Fxp × FxpXfer) :=
  match sftpFindRequest f pktin with
  | (none, f) => some (intMin, f, xfer)
  | (some (rreq, pktin), f) =>
    match rreq.userdata with
    | none => some (intMin, fxpInternalError f "request ID is not part of the current download", xfer)
    | some tag => (xfer.queue.find? fun r => r.tag == tag).map fun rr => takeReply f xfer rr pktin

/-- The block released, with what stays in the queue and in `req_totalsize`. -/
def releaseHead (total : Nat) : List Req → Option Req × List Req × Nat
  | [] => (none, [], total)
  | rr :: rest =>
    if rr.complete = 0 then (none, rr :: rest, total)
    else if rr.complete > 0 then (some rr, rest, total - rr.len)
    else releaseHead (total - rr.len) rest

def xferDownloadData (xfer : FxpXfer) : Option Req × FxpXfer :=
  let r := releaseHead xfer.reqTotalsize xfer.queue
  (r.1, { xfer with queue := r.2.1, reqTotalsize := r.2.2 })

/-! ## Runs -/

inductive Ev where
  | queue
  /-- A packet from sftp_recv, or NULL. -/
  | gotpkt (pktin : Option SftpPacket)
  | data
  /-- The caller could not write a block. -/
  | setError
  deriving DecidableEq

def step (s : St) : Ev → Option St
  | .queue => xferDownloadQueue s
  | .gotpkt pktin =>
    (xferDownloadGotpkt s.fxp s.xfer pktin).map fun r =>
      { s with fxp := r.2.1, xfer := r.2.2, server := s.server.reply pktin, results := s.results ++ [r.1] }
  | .data =>
    let r := xferDownloadData s.xfer
    some { s with
      xfer := r.2
      returned := s.returned ++ (r.1.toList.map fun rr => (rr.offset, rr.buffer.take rr.retlen.toNat)) }
  | .setError => some { s with xfer := xferSetError s.xfer }

def beforeInit (f : Fxp) (fh : List UInt8) (offset : UInt64) : St := ⟨f, xferInit fh offset, 0, ⟨[], [], []⟩, [], []⟩

/-- xfer_download_init, then the calls of a run. -/
def download (f : Fxp) (fh : List UInt8) (offset : UInt64) (evs : List Ev) : Option St :=
  (xferDownloadQueue (beforeInit f fh offset)).bind fun s => run step s evs

end Putty.Sftp
