/-
  Putty.Pscp.Transfer — the loop of sink over a file that comes by SFTP (`pscp.c`, sink,
  scp_recv_filedata and scp_finish_filerecv).

  An event is what sftp_recv gives, with whether the local write succeeds. Every turn of
  the loop asks for more blocks, takes one reply, and takes at most one block. `none` is a
  failed assertion. Left out: the messages, the statistics, the count of errors, the file's
  times, and the close request.
-/

import Putty.Sftp.InOrder

namespace Putty.Pscp

open Putty.Utils

namespace Transfer

inductive Phase where
  /-- The loop over the data. -/
  | receiving
  /-- The loop of scp_finish_filerecv. -/
  | finishing
  | closed
  /-- bump: "Lost connection". -/
  | lost
  deriving DecidableEq, Repr

structure St where
  sftp : Sftp.St
  received : Nat
  wrerror : Bool
  /-- What was written to the file. -/
  file : List UInt8
  phase : Phase

/-- act.size: the size that the server announced, if it did. -/
def actSize (announced : Option UInt64) : Nat := (announced.getD 18446744073709551615).toNat

/-- xfer_download_gotpkt. -/
def gotpkt (s : Sftp.St) (pktin : Option Sftp.SftpPacket) : Option (Int × Sftp.St) :=
  (Sftp.xferDownloadGotpkt s.fxp s.xfer pktin).map fun r =>
    (r.1, { s with fxp := r.2.1, xfer := r.2.2, server := s.server.reply pktin, results := s.results ++ [r.1] })

/-- xfer_download_data. -/
def data (s : Sftp.St) : Option Sftp.Req × Sftp.St :=
  let r := Sftp.xferDownloadData s.xfer
  (r.1, { s with
    xfer := r.2
    returned := s.returned ++ (r.1.toList.map fun rr => (rr.offset, rr.buffer.take rr.retlen.toNat)) })

/-- scp_recv_filedata: the return value, with the data. -/
def scpRecvFiledata (s : Sftp.St) (pktin : Option Sftp.SftpPacket) (len : Nat) : Option (Int × List UInt8 × Sftp.St) :=
  (Sftp.xferDownloadQueue s).bind fun s =>
  (gotpkt s pktin).bind fun r =>
  if r.1 ≤ 0 then some (-1, [], r.2)
  else
    match data r.2 with
    | (some rr, s) =>
      if rr.retlen ≤ 0 then some (-1, [], s)
      else if (len : Int) < rr.retlen then none
      else some (rr.retlen, rr.buffer.take rr.retlen.toNat, s)
    | (none, s) => some (0, [], s)

/-- `while (!xfer_done(scp_sftp_xfer))`. -/
def finishing (t : St) : St := if Sftp.xferDone t.sftp.xfer then { t with phase := .closed } else { t with phase := .finishing }

/-- `while (received < act.size)`, and what follows the loop. -/
def again (size : Nat) (t : St) : St :=
  if t.received < size then t
  else if t.wrerror then { t with phase := .closed }
  else finishing { t with sftp := { t.sftp with xfer := Sftp.xferSetError t.sftp.xfer } }

/-- A turn of the loop over the data. -/
def receive (size : Nat) (t : St) (pktin : Option Sftp.SftpPacket) (wrote : Bool) : Option St :=
  (scpRecvFiledata t.sftp pktin (min 32768 (size - t.received))).map fun r =>
    let t := { t with sftp := r.2.2 }
    if r.1 ≤ 0 then { t with phase := .lost }
    else
      let t := { t with received := t.received + r.1.toNat }
      if t.wrerror then again size t
      else if wrote then again size { t with file := t.file ++ r.2.1 }
      else again size { t with wrerror := true }

/-- A turn of the loop of scp_finish_filerecv. -/
def finish (t : St) (pktin : Option Sftp.SftpPacket) : Option St :=
  (gotpkt t.sftp pktin).map fun r =>
    if r.1 ≤ 0 then { t with sftp := r.2, phase := .closed }
    else finishing { t with sftp := (data r.2).2 }

structure Ev where
  pktin : Option Sftp.SftpPacket
  wrote : Bool
  deriving DecidableEq

def step (size : Nat) (t : St) (e : Ev) : Option St :=
  match t.phase with
  | .receiving => receive size t e.pktin e.wrote
  | .finishing => finish t e.pktin
  | .closed => some t
  | .lost => some t

/-- xfer_download_init, and the loop's first test. -/
def start (size : Nat) (f : Sftp.Fxp) (fh : List UInt8) : Option St :=
  (Sftp.xferDownloadQueue (Sftp.beforeInit f fh 0)).map fun s => again size ⟨s, 0, false, [], .receiving⟩

end Transfer

end Putty.Pscp
