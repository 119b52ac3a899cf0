/-
  Putty.Telnet.Session — the Telnet backend's session (`telnet.c`, process_subneg,
  do_telnet_read, telnet_send and telnet_special).

  A read is taken byte by byte, and what it gives the seat goes out at once (the code
  gathers up to 4096 bytes first). Freezing the socket, which the seat's backlog decides,
  and the log are left out, and so is the end of the connection.
-/

import Putty.Telnet.Options

namespace Putty.Telnet

def NOP : UInt8 := 241
def DM : UInt8 := 242

def CR : UInt8 := 13
def LF : UInt8 := 10

def TELQUAL_IS : UInt8 := 0
def TELQUAL_SEND : UInt8 := 1

def BSD_VAR : UInt8 := 1
def BSD_VALUE : UInt8 := 0
def RFC_VAR : UInt8 := 0
def RFC_VALUE : UInt8 := 1

/-! ## Subnegotiations -/

/-- The senses of VAR and VALUE. -/
structure Senses where
  var : UInt8
  value : UInt8
  deriving DecidableEq, Repr

def rfcSenses : Senses := ⟨RFC_VAR, RFC_VALUE⟩

def bsdSenses : Senses := ⟨BSD_VAR, BSD_VALUE⟩

/-- One byte of the request, in guessing the senses. -/
def guess (s : Senses) (p : UInt8) : Senses :=
  if p = RFC_VAR then rfcSenses else if p = BSD_VAR then bsdSenses else s

/-- The senses for a request with these bytes after SEND. -/
def senses (conf : Conf) (opt : UInt8) (rest : List UInt8) : Senses :=
  if opt = Telopt.OLD_ENVIRON then rest.foldl guess (if conf.rfcEnviron then rfcSenses else bsdSenses) else rfcSenses

def upcase (c : UInt8) : UInt8 := if 97 ≤ c ∧ c ≤ 122 then c - 32 else c

/-- The variables that are sent. -/
def sentVariables (conf : Conf) : List (List UInt8 × List UInt8) :=
  conf.environmt.map (fun e => (e.1.val, e.2.val)) ++ (conf.user.map fun u => (Utils.text "USER", u.val)).toList

/-- One variable, as it goes into the reply. -/
def variableBytes (s : Senses) (v : List UInt8 × List UInt8) : List UInt8 := [s.var] ++ v.1 ++ [s.value] ++ v.2

/-- The bytes of a subnegotiation; the payload goes out as it is. -/
def subnegBytes (opt : UInt8) (payload : List UInt8) : List UInt8 := [IAC, SB, opt] ++ payload ++ [IAC, SE]

def processSubneg (t : St) : St :=
  if t.sbOpt = Telopt.TSPEED then
    if t.sbBuf = [TELQUAL_SEND] then
      let payload := TELQUAL_IS :: t.conf.termspeed.val
      skWrite t [.subneg Telopt.TSPEED payload] (subnegBytes Telopt.TSPEED payload)
    else t
  else if t.sbOpt = Telopt.TTYPE then
    if t.sbBuf = [TELQUAL_SEND] then
      let payload := TELQUAL_IS :: t.conf.termtype.val.map upcase
      skWrite t [.subneg Telopt.TTYPE payload] (subnegBytes Telopt.TTYPE payload)
    else t
  else if t.sbOpt = Telopt.OLD_ENVIRON ∨ t.sbOpt = Telopt.NEW_ENVIRON then
    match t.sbBuf with
    | [] => t
    | p :: rest =>
      if p = TELQUAL_SEND then
        let s := senses t.conf t.sbOpt rest
        let vars := sentVariables t.conf
        skWrite t [.environ t.sbOpt s.var s.value vars]
          (subnegBytes t.sbOpt (TELQUAL_IS :: vars.flatMap (variableBytes s)))
      else t
  else t

/-! ## Reading -/

def putByte (t : St) (c : UInt8) : St := { t with stdout := t.stdout ++ [c] }

def setState (t : St) (state : ReadState) : St := { t with state }

/-- subneg_addchar. -/
def subnegAddchar (t : St) (c : UInt8) : St := { t with sbBuf := t.sbBuf ++ [c], state := .subnegot }

/-- TOP_LEVEL and SEENCR. -/
def readTop (t : St) (c : UInt8) : St :=
  if c = 0 ∧ t.state = .seenCr then setState t .topLevel
  else if c = IAC then setState t .seenIac
  else
    let t' := if !t.inSynch then putByte t c else if c = DM then { t with inSynch := false } else t
    setState t' (if c = CR ∧ t.optStates oTheyBin.index ≠ .active then .seenCr else .topLevel)

def readIac (t : St) (c : UInt8) : St :=
  if c = Cmd.DO.code then setState t .seenDo
  else if c = Cmd.DONT.code then setState t .seenDont
  else if c = Cmd.WILL.code then setState t .seenWill
  else if c = Cmd.WONT.code then setState t .seenWont
  else if c = SB then setState t .seenSb
  else if c = DM then setState { t with inSynch := false } .topLevel
  -- everything else is ignored, but IAC
  else setState (if c = IAC then putByte t c else t) .topLevel

/-- One round of do_telnet_read's loop. -/
def readByte (t : St) (c : UInt8) : St :=
  match t.state with
  | .topLevel => readTop t c
  | .seenCr => readTop t c
  | .seenIac => readIac t c
  | .seenWill => setState (procRecOpt t .WILL c) .topLevel
  | .seenWont => setState (procRecOpt t .WONT c) .topLevel
  | .seenDo => setState (procRecOpt t .DO c) .topLevel
  | .seenDont => setState (procRecOpt t .DONT c) .topLevel
  | .seenSb => { t with sbOpt := c, sbBuf := [], state := .subnegot }
  | .subnegot => if c = IAC then setState t .subnegIac else subnegAddchar t c
  | .subnegIac => if c ≠ SE then subnegAddchar t c else setState (processSubneg t) .topLevel

def doTelnetRead (t : St) (buf : List UInt8) : St := buf.foldl readByte t

def telnetReceive (t : St) (urgent : Bool) (data : List UInt8) : St :=
  doTelnetRead (if urgent then { t with inSynch := true } else t) data

/-! ## Sending -/

def iswritable (t : St) (x : UInt8) : Bool := x ≠ IAC && (t.optStates oWeBin.index = .active || x ≠ CR)

/-- A byte that is not writable goes out as two. -/
def sendEscaped (t : St) (c : UInt8) : St := skWrite t [.data c] (if c = IAC then [IAC, IAC] else [CR, 0])

/-- The loop of telnet_send: the writable bytes together, then those that are not one by
    one. Every round takes at least one byte. -/
def sendLoop : Nat → St → List UInt8 → St
  | 0, t, _ => t
  | fuel + 1, t, buf =>
    match buf with
    | [] => t
    | _ =>
      let q := buf.takeWhile (iswritable t)
      let p := buf.dropWhile (iswritable t)
      let t' := (p.takeWhile fun c => !iswritable t c).foldl sendEscaped (skWrite t (q.map .data) q)
      sendLoop fuel t' (p.dropWhile fun c => !iswritable t c)

def telnetSend (t : St) (buf : List UInt8) : St := if !t.s then t else sendLoop buf.length t buf

/-- The SessionSpecialCodes that telnet_special knows. -/
inductive Special where
  | ayt
  | brk
  | ec
  | el
  | ga
  | nop
  | abort
  | ao
  | ip
  | susp
  | eor
  | eof
  | eol
  | synch
  | ping
  | other
  deriving DecidableEq, Repr

/-- The commands of two bytes. -/
def Special.code : Special → Option UInt8
  | .ayt => some 246
  | .brk => some 243
  | .ec => some 247
  | .el => some 248
  | .ga => some 249
  | .nop => some NOP
  | .abort => some 238
  | .ao => some 245
  | .ip => some 244
  | .susp => some 237
  | .eor => some 239
  | .eof => some 236
  | _ => none

def sendCommand (t : St) (c : UInt8) : St := skWrite t [.command c] [IAC, c]

def telnetSpecial (t : St) (code : Special) : St :=
  if !t.s then t
  else
    match code with
    | .eol => if t.optStates oWeBin.index = .active then skWrite t [.data CR] [CR] else skWrite t [.data CR, .data LF] [CR, LF]
    -- DM goes out of band
    | .synch => skWrite (skWrite t [] [IAC]) [.command DM] [DM]
    | .ping => if t.optStates oTheySga.index = .active then sendCommand t NOP else t
    | code => match code.code with
      | some c => sendCommand t c
      | none => t

/-! ## Sessions -/

/-- What happens to the backend; `urgent` is the start of an urgent read. -/
inductive Ev where
  | send (buf : List UInt8)
  | size (width height : Int)
  | special (code : Special)
  | receive (c : UInt8)
  | urgent
  | reconfig (conf : Conf)

def next (t : St) : Ev → St
  | .send buf => telnetSend t buf
  | .size width height => telnetSize t width height
  | .special code => telnetSpecial t code
  | .receive c => readByte t c
  | .urgent => { t with inSynch := true }
  | .reconfig conf => { t with conf := conf }

def step (t : St) (e : Ev) : Option St := some (next t e)

end Putty.Telnet
