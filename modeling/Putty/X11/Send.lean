/-
  Putty.X11.Send — data arriving on a forwarded X11 channel (`x11fwd.c`, x11_send and
  x11_send_init_error).

  An event brings what x11_send meets: the data, the tree of authorisations as it is then,
  the time, how a connection to the X server goes, and whether the SSH channel has room
  for all that is written to it. Of the channel there is what ssh2channel_write and
  ssh2channel_write_eof look at; `none` is a failed assertion. What comes from the X server
  and the end of the client's data are left out, and so is an error that the socket
  reports later.
-/

import Putty.Lib.Run
import Putty.X11.Verify

namespace Putty.X11

open Putty.Utils

/-- What does not change while a channel lives. -/
structure Params where
  des : Des
  appname : List UInt8
  peer : Peer

/-- What is given to the sharing module. -/
structure Handover where
  share : Nat × Nat
  endian : UInt8
  protomajor : Nat
  protominor : Nat
  initialData : List UInt8
  deriving DecidableEq, Repr

/-- What an x11_send meets: `beyond` is the memory after the authorisation data, `connect`
    the error of the new connection, or its xdmdata. -/
structure Env where
  setting : Setting
  authtree : List X11FakeAuth
  beyond : List UInt8
  connect : Except (List UInt8) (Option (List UInt8))
  room : Bool

structure St where
  firstpkt : List UInt8
  dataRead : Nat
  /-- auth_protocol is there. -/
  allocated : Bool
  authPlen : Nat
  authDlen : Nat
  authPsize : Nat
  authDsize : Nat
  authProtocol : List UInt8
  authData : List UInt8
  verified : Bool
  s : Bool
  noDataSentToXClient : Bool
  buffered : Bool
  pendingEof : Bool
  sentEof : Bool
  /-- What was written to the X server. -/
  toServer : List UInt8
  /-- What was written to the client, and how often its EOF was. -/
  replies : List (List UInt8)
  eofs : Nat
  handover : Option Handover
  overread : Bool
  /-- The data that arrived, and what the call met that had the first packet complete. -/
  received : List UInt8
  decidedIn : Option Env

/-- x11_new_channel. -/
def x11NewChannel : St :=
  ⟨[], 0, false, 0, 0, 0, 0, [], [], false, false, true, false, false, false, [], [], 0, none, false, [], none⟩

/-! ## The channel -/

def tryEof (t : St) : St := if t.buffered then t else { t with pendingEof := false, sentEof := true }

def sshfwdWrite (t : St) (buf : List UInt8) (room : Bool) : Option St :=
  if t.sentEof then none
  else
    let t := { t with replies := t.replies ++ [buf], buffered := !room }
    some (if t.pendingEof then tryEof t else t)

def sshfwdWriteEof (t : St) : St :=
  let t := { t with eofs := t.eofs + 1 }
  if t.sentEof then t else tryEof { t with pendingEof := true }

/-! ## x11_send -/

def errorReply (p : Params) (firstpkt errMessage : List UInt8) : List UInt8 :=
  let fullMessage := p.appname ++ text " X11 proxy: " ++ errMessage ++ text "\n"
  [0, UInt8.ofNat fullMessage.length] ++ (firstpkt.drop 2).take 4 ++
    put16BitX11 (firstpkt.getD 0 0) (pad4 fullMessage.length / 4) ++ padded fullMessage

def x11SendInitError (p : Params) (t : St) (errMessage : List UInt8) (room : Bool) : Option St :=
  (sshfwdWrite t (errorReply p t.firstpkt errMessage) room).map fun t =>
    { sshfwdWriteEof t with noDataSentToXClient := false }

def skWrite (t : St) (data : List UInt8) : St := { t with toServer := t.toServer ++ data }

/-- The first loop: the rest of the data goes on. -/
def readFirst (t : St) (data : List UInt8) : St × List UInt8 :=
  let n := 12 - t.dataRead
  ({ t with firstpkt := t.firstpkt ++ data.take n, dataRead := t.dataRead + (data.take n).length }, data.drop n)

def allocate (t : St) : St :=
  if t.allocated then t
  else
    let endian := t.firstpkt.getD 0 0
    let plen := get16BitX11 endian (t.firstpkt.drop 6)
    let dlen := get16BitX11 endian (t.firstpkt.drop 8)
    { t with allocated := true, authPlen := plen, authDlen := dlen, authPsize := pad4 plen, authDsize := pad4 dlen }

def readProtocol (t : St) (data : List UInt8) : St × List UInt8 :=
  let n := 12 + t.authPsize - t.dataRead
  ({ t with authProtocol := t.authProtocol ++ data.take n, dataRead := t.dataRead + (data.take n).length }, data.drop n)

def readData (t : St) (data : List UInt8) : St × List UInt8 :=
  let n := 12 + t.authPsize + t.authDsize - t.dataRead
  ({ t with authData := t.authData ++ data.take n, dataRead := t.dataRead + (data.take n).length }, data.drop n)

def greeting (p : Params) (env : Env) (firstpkt : List UInt8) (disp : X11Display) (socketdata : Option (List UInt8)) : List UInt8 :=
  let endian := firstpkt.getD 0 0
  let peer := if (socketdata.getD []).length = 6 then socketdata.getD [] else [0, 0, 0, 0, 0, 0]
  x11MakeGreeting p.des env.setting endian (get16BitX11 endian (firstpkt.drop 2)) (get16BitX11 endian (firstpkt.drop 4))
    disp.localauthproto disp.localauthdata (peer.take 4) (get16BitMsbFirst (peer.drop 4))

/-- The verification, with the data after the first packet. -/
def verify (p : Params) (t : St) (data : List UInt8) (env : Env) : Option St :=
  if t.s then none
  else
    (x11Verify p.des env.setting p.peer env.authtree (cstring (t.authProtocol.take t.authPlen)) t.authData t.authDlen
      env.beyond).bind fun v =>
    let t := { t with authData := v.data, overread := t.overread || v.overread }
    let endian := t.firstpkt.getD 0 0
    match v.ret with
    | .error err => x11SendInitError p t err env.room
    | .ok auth =>
      match auth.share with
      | some share =>
        some { t with handover := some ⟨share, endian, get16BitX11 endian (t.firstpkt.drop 2),
          get16BitX11 endian (t.firstpkt.drop 4), data⟩ }
      | none =>
        let t := { t with s := true }
        match env.connect with
        | .error err => x11SendInitError p t (text "unable to connect to forwarded X server: " ++ err) env.room
        | .ok socketdata =>
          some (skWrite (skWrite { t with verified := true } (greeting p env t.firstpkt auth.disp socketdata)) data)

def x11Send (p : Params) (t : St) (data : List UInt8) (env : Env) : Option St :=
  let r := readFirst t data
  if r.1.dataRead < 12 then some r.1
  else
    let r := readProtocol (allocate r.1) r.2
    let r := readData r.1 r.2
    if r.1.dataRead < 12 + r.1.authPsize + r.1.authDsize then some r.1
    else if r.1.verified then some (skWrite r.1 r.2)
    else verify p r.1 r.2 env

/-! ## The channel's life -/

/-- Data for the channel, or the client's window making room for what is buffered. -/
inductive Ev where
  | send (data : List UInt8) (env : Env)
  | flush

/-- The first packet is there. -/
def Complete (received : List UInt8) : Prop :=
  12 ≤ received.length ∧
    12 + pad4 (get16BitX11 (received.getD 0 0) (received.drop 6)) + pad4 (get16BitX11 (received.getD 0 0) (received.drop 8)) ≤
      received.length

instance (received : List UInt8) : Decidable (Complete received) :=
  inferInstanceAs (Decidable (_ ∧ _))

/-- What is kept of a call, for the statements: the data, and what the call met that
    completed the first packet. -/
def noted (t : St) (data : List UInt8) (env : Env) : St :=
  { t with received := t.received ++ data,
           decidedIn := if Complete (t.received ++ data) ∧ ¬ Complete t.received then some env else t.decidedIn }

/-- After a hand-over the channel's messages do not come here. -/
def step (p : Params) (t : St) : Ev → Option St
  | .send data env => if t.handover.isSome then some t else x11Send p (noted t data env) data env
  | .flush =>
    let t := { t with buffered := false }
    some (if t.pendingEof then tryEof t else t)

end Putty.X11
