/-
  Putty.Telnet.Options — the Telnet backend's option negotiation (`telnet.c`, send_opt to
  proc_rec_opt, with telnet_size and telnet_init).

  Every write to the socket is kept with what it is meant to say (`Token`): the bytes are
  the code's, the tokens are for the statements only.
-/

import Mathlib.Logic.Function.Basic
import Putty.Utils.BinarySink

namespace Putty.Telnet

inductive Cmd where
  | WILL
  | WONT
  | DO
  | DONT
  deriving DecidableEq, Repr

def IAC : UInt8 := 255
def SB : UInt8 := 250
def SE : UInt8 := 240

def Cmd.code : Cmd → UInt8
  | .WILL => 251
  | .WONT => 252
  | .DO => 253
  | .DONT => 254

namespace Telopt

def BINARY : UInt8 := 0
def ECHO : UInt8 := 1
def SGA : UInt8 := 3
def TTYPE : UInt8 := 24
def NAWS : UInt8 := 31
def TSPEED : UInt8 := 32
def OLD_ENVIRON : UInt8 := 36
def NEW_ENVIRON : UInt8 := 39

end Telopt

inductive OptState where
  | requested
  | active
  | inactive
  | reallyInactive
  deriving DecidableEq, Repr

/-- The OPTINDEX values. -/
inductive OptIndex where
  | naws
  | tspeed
  | ttype
  | oenv
  | nenv
  | echo
  | weSga
  | theySga
  | weBin
  | theyBin
  deriving DecidableEq, Repr

structure Opt where
  send : Cmd
  nsend : Cmd
  ack : Cmd
  nak : Cmd
  option : UInt8
  index : OptIndex
  initialState : OptState
  deriving DecidableEq, Repr

def oNaws : Opt := ⟨.WILL, .WONT, .DO, .DONT, Telopt.NAWS, .naws, .requested⟩
def oTspeed : Opt := ⟨.WILL, .WONT, .DO, .DONT, Telopt.TSPEED, .tspeed, .requested⟩
def oTtype : Opt := ⟨.WILL, .WONT, .DO, .DONT, Telopt.TTYPE, .ttype, .requested⟩
def oOenv : Opt := ⟨.WILL, .WONT, .DO, .DONT, Telopt.OLD_ENVIRON, .oenv, .inactive⟩
def oNenv : Opt := ⟨.WILL, .WONT, .DO, .DONT, Telopt.NEW_ENVIRON, .nenv, .requested⟩
def oEcho : Opt := ⟨.DO, .DONT, .WILL, .WONT, Telopt.ECHO, .echo, .requested⟩
def oWeSga : Opt := ⟨.WILL, .WONT, .DO, .DONT, Telopt.SGA, .weSga, .requested⟩
def oTheySga : Opt := ⟨.DO, .DONT, .WILL, .WONT, Telopt.SGA, .theySga, .requested⟩
def oWeBin : Opt := ⟨.WILL, .WONT, .DO, .DONT, Telopt.BINARY, .weBin, .inactive⟩
def oTheyBin : Opt := ⟨.DO, .DONT, .WILL, .WONT, Telopt.BINARY, .theyBin, .inactive⟩

def opts : List Opt :=
  [oNaws, oTspeed, oTtype, oOenv, oNenv, oEcho, oWeSga, oTheySga, oWeBin, oTheyBin]

/-- A C string. -/
def CStr := { s : List UInt8 // 0 ∉ s }

def CStr.empty : CStr := ⟨[], List.not_mem_nil⟩

/-- What the backend reads of its configuration; `user` is get_remote_username. -/
structure Conf where
  passiveTelnet : Bool
  termspeed : CStr
  termtype : CStr
  environmt : List (CStr × CStr)
  rfcEnviron : Bool
  user : Option CStr

inductive ReadState where
  | topLevel
  | seenIac
  | seenWill
  | seenWont
  | seenDo
  | seenDont
  | seenSb
  | subnegot
  | subnegIac
  | seenCr
  deriving DecidableEq, Repr

/-- What a stretch of the stream means; `environ` is a subnegotiation that gives the
    values of variables, with the codes VAR and VALUE. -/
inductive Token where
  | data (c : UInt8)
  | command (c : UInt8)
  | opt (cmd : Cmd) (option : UInt8)
  | subneg (opt : UInt8) (payload : List UInt8)
  | environ (opt var value : UInt8) (vars : List (List UInt8 × List UInt8))
  deriving DecidableEq, Repr

/-- One sk_write. -/
structure Write where
  meaning : List Token
  bytes : List UInt8
  deriving DecidableEq, Repr

/-- `struct Telnet`; `s` says whether the socket is there, `stdout` is what the seat got. -/
structure St where
  s : Bool
  termWidth : Int
  termHeight : Int
  optStates : OptIndex → OptState
  echoing : Bool
  editing : Bool
  activated : Bool
  inSynch : Bool
  sbOpt : UInt8
  sbBuf : List UInt8
  state : ReadState
  conf : Conf
  sent : List Write
  stdout : List UInt8

def skWrite (t : St) (meaning : List Token) (bytes : List UInt8) : St :=
  { t with sent := t.sent ++ [⟨meaning, bytes⟩] }

def sendOpt (t : St) (cmd : Cmd) (option : UInt8) : St :=
  skWrite t [.opt cmd option] [IAC, cmd.code, option]

def setOptState (t : St) (o : Opt) (st : OptState) : St :=
  { t with optStates := Function.update t.optStates o.index st }

/-! ## The window size -/

/-- The byte, and a duplicate if it is IAC. -/
def duplicated (c : UInt8) : List UInt8 := if c = IAC then [c, IAC] else [c]

/-- The four bytes of the window size. -/
def sizeBytes (width height : Int) : List UInt8 :=
  [UInt8.ofInt (width >>> (8 : Nat)), UInt8.ofInt width, UInt8.ofInt (height >>> (8 : Nat)), UInt8.ofInt height]

def telnetSize (t : St) (width height : Int) : St :=
  let t := { t with termWidth := width, termHeight := height }
  if !t.s || t.optStates oNaws.index ≠ .active then t
  else
    skWrite t [.subneg Telopt.NAWS (sizeBytes width height)]
      ([IAC, SB, Telopt.NAWS] ++ (sizeBytes width height).flatMap duplicated ++ [IAC, SE])

/-! ## The options -/

def deactivateOption (t : St) (o : Opt) : St :=
  let t := if t.optStates o.index = .requested ∨ t.optStates o.index = .active then sendOpt t o.nsend o.option else t
  setOptState t o .reallyInactive

/-- The option is requested, if it is inactive. -/
def request (t : St) (o : Opt) : St :=
  if t.optStates o.index = .inactive then sendOpt (setOptState t o .requested) o.send o.option else t

def optionSideEffects (t : St) (o : Opt) (enabled : Bool) : St :=
  let t :=
    if o.option = Telopt.ECHO ∧ o.send = .DO then { t with echoing := !enabled }
    else if o.option = Telopt.SGA ∧ o.send = .DO then { t with editing := !enabled }
    else t
  -- the minimum options, once
  if t.activated then t
  else { request (request (request t oEcho) oWeSga) oTheySga with activated := true }

def activateOption (t : St) (o : Opt) : St :=
  let t := if o.send = .WILL ∧ o.option = Telopt.NAWS then telnetSize t t.termWidth t.termHeight else t
  -- only one kind of ENVIRON at a time
  let t :=
    if o.send = .WILL ∧ (o.option = Telopt.NEW_ENVIRON ∨ o.option = Telopt.OLD_ENVIRON) then
      deactivateOption t (if o.option = Telopt.NEW_ENVIRON then oOenv else oNenv)
    else t
  optionSideEffects t o true

def refusedOption (t : St) (o : Opt) : St :=
  let t :=
    if o.send = .WILL ∧ o.option = Telopt.NEW_ENVIRON ∧ t.optStates oOenv.index = .inactive then
      setOptState (sendOpt t .WILL Telopt.OLD_ENVIRON) oOenv .requested
    else t
  optionSideEffects t o false

/-- The server agreed to the option, or asks for it. -/
def acked (t : St) (o : Opt) (option : UInt8) : St :=
  match t.optStates o.index with
  | .requested => activateOption (setOptState t o .active) o
  | .active => t
  | .inactive => activateOption (sendOpt (setOptState t o .active) o.send option) o
  | .reallyInactive => sendOpt t o.nsend option

/-- The server refused the option, or stops it. -/
def naked (t : St) (o : Opt) (option : UInt8) : St :=
  match t.optStates o.index with
  | .requested => refusedOption (setOptState t o .inactive) o
  | .active => optionSideEffects (sendOpt (setOptState t o .inactive) o.nsend option) o false
  | .inactive => t
  | .reallyInactive => t

/-- An option we were not prepared to cope with. -/
def unknownOption (t : St) (cmd : Cmd) (option : UInt8) : St :=
  if cmd = .WILL ∨ cmd = .DO then sendOpt t (if cmd = .WILL then .DONT else .WONT) option else t

def procRecOptFrom (t : St) (cmd : Cmd) (option : UInt8) : List Opt → St
  | [] => unknownOption t cmd option
  | o :: os =>
    if o.option = option ∧ o.ack = cmd then acked t o option
    else if o.option = option ∧ o.nak = cmd then naked t o option
    else procRecOptFrom t cmd option os

def procRecOpt (t : St) (cmd : Cmd) (option : UInt8) : St := procRecOptFrom t cmd option opts

/-! ## The start -/

/-- The option's initial state, with the request it stands for. -/
def initOption (t : St) (o : Opt) : St :=
  let t := setOptState t o o.initialState
  if o.initialState = .requested then sendOpt t o.send o.option else t

/-- The state when the socket has been opened; the option states are not set yet. -/
def connecting (conf : Conf) (width height : Int) (optStates : OptIndex → OptState) : St :=
  ⟨true, width, height, optStates, true, true, false, false, 0, [], .topLevel, conf, [], []⟩

def telnetInit (conf : Conf) (width height : Int) (garbage : OptIndex → OptState) : St :=
  let t := connecting conf width height garbage
  if conf.passiveTelnet then opts.foldl (fun t o => setOptState t o .inactive) t
  else { opts.foldl initOption t with activated := true }

end Putty.Telnet
