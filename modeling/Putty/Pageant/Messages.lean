/-
  Putty.Pageant.Messages — what the agent does with one message (`pageant.c`,
  pageant_handle_msg and pageant_make_keylist1 and 2).

  The result is the trees after the message and the body of the reply; `none` is a failed
  assertion. Left out: the log, and keylist_update.
-/

import Putty.Pageant.Keys

namespace Putty.Pageant

open Putty.Lib Putty.Utils

variable {K : Type} {c : Crypto K}

structure Store (c : Crypto K) where
  rsakeys : Ordered cmpkeysRsa
  ssh2keys : Ordered (cmpkeysSsh2 c)

/-- pageant_init. -/
def pageantInit (c : Crypto K) : Store c := ⟨.empty, .empty⟩

inductive AgentMsg where
  | requestRsaIdentities
  | requestIdentities
  | rsaChallenge
  | signRequest
  | addRsaIdentity
  | addIdentity
  | removeRsaIdentity
  | removeIdentity
  | removeAllRsaIdentities
  | removeAllIdentities
  | unrecognised
  deriving DecidableEq, Repr

/-- The constants SSH1_AGENTC_ and SSH2_AGENTC_. -/
def agentMsg (type : UInt8) : AgentMsg :=
  match type.toNat with
  | 1 => .requestRsaIdentities
  | 11 => .requestIdentities
  | 3 => .rsaChallenge
  | 13 => .signRequest
  | 7 => .addRsaIdentity
  | 17 => .addIdentity
  | 8 => .removeRsaIdentity
  | 18 => .removeIdentity
  | 9 => .removeAllRsaIdentities
  | 19 => .removeAllIdentities
  | _ => .unrecognised

def ssh1AgentRsaIdentitiesAnswer : UInt8 := 2

def ssh1AgentRsaResponse : UInt8 := 4

def sshAgentFailure : UInt8 := 5

def sshAgentSuccess : UInt8 := 6

def ssh2AgentIdentitiesAnswer : UInt8 := 12

def ssh2AgentSignResponse : UInt8 := 14

/-- pageant_failure_msg. -/
def pageantFailureMsg : List UInt8 := [sshAgentFailure]

/-! ## The lists -/

/-- put_stringz: the bytes before the terminator. -/
def putStringz (str : List UInt8) : List UInt8 := putString (str.takeWhile (· ≠ 0))

def keylist1Entry (key : RSAKey) : Option (List UInt8) := (rsaSsh1PublicBlob key).map (· ++ putStringz key.comment)

def pageantMakeKeylist1 (s : Store c) : Option (List UInt8) :=
  (s.rsakeys.list.mapM keylist1Entry).map fun entries => put32BitMsbFirst s.rsakeys.list.length ++ entries.flatten

def keylist2Entry (c : Crypto K) (key : Userkey K) : List UInt8 := putString (c.publicBlob key.key) ++ putStringz key.comment

def pageantMakeKeylist2 (s : Store c) : List UInt8 :=
  put32BitMsbFirst s.ssh2keys.list.length ++ s.ssh2keys.list.flatMap (keylist2Entry c)

def requestRsaIdentities (s : Store c) : Option (Store c × List UInt8) :=
  (pageantMakeKeylist1 s).map fun keylist => (s, ssh1AgentRsaIdentitiesAnswer :: keylist)

def requestIdentities (s : Store c) : Option (Store c × List UInt8) :=
  some (s, ssh2AgentIdentitiesAnswer :: pageantMakeKeylist2 s)

/-! ## Using a key -/

/-- A key with only its public half, to search with. -/
def RSAKey.ofPub (pub : Nat × Nat) : RSAKey := ⟨pub.2, pub.1, 0, 0, 0, 0, []⟩

structure Challenge where
  reqkey : Nat × Nat
  challenge : Nat
  sessionId : List UInt8
  responseType : UInt32
  err : Bool

def getChallenge (msg : BinarySource) : Challenge :=
  let (reqkey, msg) := getRsaSsh1PubExponentFirst msg
  let (challenge, msg) := msg.getMpSsh1
  let (sessionId, msg) := msg.getData 16
  let (responseType, msg) := msg.getUint32
  ⟨reqkey, challenge, sessionId, responseType, msg.err⟩

def rsaChallenge (s : Store c) (msg : BinarySource) : Option (Store c × List UInt8) :=
  let r := getChallenge msg
  if r.err then some (s, pageantFailureMsg)
  else if r.responseType ≠ 1 then some (s, pageantFailureMsg)
  else
    match s.rsakeys.find (cmpkeysRsa (.ofPub r.reqkey)) with
    | none => some (s, pageantFailureMsg)
    | some key => (rsaSsh1Decrypt r.challenge key).map fun response =>
      (s, ssh1AgentRsaResponse ::
        (c.md5 ((List.range 32).map (fun i => mpGetByte response (31 - i)) ++ r.sessionId)).val)

structure Signing where
  keyblob : List UInt8
  sigdata : List UInt8
  err : Bool
  /-- Zero when there is no such field. -/
  flags : UInt32

def getSigning (msg : BinarySource) : Signing :=
  let (keyblob, msg) := msg.getString
  let (sigdata, msg) := msg.getString
  ⟨keyblob, sigdata, msg.err, msg.getUint32.1⟩

def signRequest (s : Store c) (msg : BinarySource) : Option (Store c × List UInt8) :=
  let r := getSigning msg
  if r.err then some (s, pageantFailureMsg)
  else
    match s.ssh2keys.find (cmpkeysSsh2Asymm c r.keyblob) with
    | none => some (s, pageantFailureMsg)
    | some key =>
      if r.flags &&& ~~~(c.supportedFlags key.key) ≠ 0 then some (s, pageantFailureMsg)
      else if c.invalid key.key r.flags then some (s, pageantFailureMsg)
      else (c.sign key.key r.sigdata r.flags).map fun signature =>
        (s, ssh2AgentSignResponse :: putString signature.val)

/-! ## Changing the trees -/

/-- The key of SSH1_AGENTC_ADD_RSA_IDENTITY, and whether the message ended early. -/
def getRsaIdentity (msg : BinarySource) : RSAKey × Bool :=
  let (pub, msg) := getRsaSsh1PubModulusFirst msg
  let (privateExponent, msg) := msg.getMpSsh1
  let (iqmp, msg) := msg.getMpSsh1
  let (q, msg) := msg.getMpSsh1
  let (p, msg) := msg.getMpSsh1
  let (comment, msg) := msg.getString
  (⟨pub.2, pub.1, privateExponent, p, q, iqmp, comment⟩, msg.err)

def addRsaIdentity (s : Store c) (msg : BinarySource) : Option (Store c × List UInt8) :=
  let r := getRsaIdentity msg
  if r.2 then some (s, pageantFailureMsg)
  else (rsaVerify c r.1).map fun v =>
    if ¬ v.1 then (s, pageantFailureMsg)
    else
      match s.rsakeys.add v.2 with
      | some rsakeys => ({ s with rsakeys }, [sshAgentSuccess])
      | none => (s, pageantFailureMsg)

/-- The key of SSH2_AGENTC_ADD_IDENTITY, if it is set up, and if the message did not end early. -/
def getIdentity (c : Crypto K) (msg : BinarySource) : Option (Option (Userkey K)) :=
  let (algpl, msg) := msg.getString
  match c.findPubkeyAlgLen algpl with
  | none => some none
  | some alg => (alg.newPrivOpenssh msg).map fun r =>
    match r with
    | (none, _) => none
    | (some key, msg) =>
      let (comment, msg) := msg.getString
      if msg.err then none else some ⟨key, comment⟩

def addIdentity (s : Store c) (msg : BinarySource) : Option (Store c × List UInt8) :=
  (getIdentity c msg).map fun r =>
    match r with
    | none => (s, pageantFailureMsg)
    | some key =>
      match s.ssh2keys.add key with
      | some ssh2keys => ({ s with ssh2keys }, [sshAgentSuccess])
      | none => (s, pageantFailureMsg)

def removeRsaIdentity (s : Store c) (msg : BinarySource) : Option (Store c × List UInt8) :=
  let (reqkey, msg) := getRsaSsh1PubExponentFirst msg
  if msg.err then some (s, pageantFailureMsg)
  else
    match s.rsakeys.find (cmpkeysRsa (.ofPub reqkey)) with
    | some key => some ({ s with rsakeys := s.rsakeys.del key }, [sshAgentSuccess])
    | none => some (s, pageantFailureMsg)

def removeIdentity (s : Store c) (msg : BinarySource) : Option (Store c × List UInt8) :=
  let (blob, msg) := msg.getString
  if msg.err then some (s, pageantFailureMsg)
  else
    match s.ssh2keys.find (cmpkeysSsh2Asymm c blob) with
    | none => some (s, pageantFailureMsg)
    | some key => some ({ s with ssh2keys := s.ssh2keys.del key }, [sshAgentSuccess])

/-- `while ((key = index234(t, 0)) != NULL) del234(t, key);`, `fuel` times at most. -/
def delAll {E : Type} {cmp : E → E → Int} : Nat → Ordered cmp → Ordered cmp
  | 0, t => t
  | fuel + 1, t =>
    match t.list.head? with
    | none => t
    | some key => delAll fuel (t.del key)

def removeAllRsaIdentities (s : Store c) : Option (Store c × List UInt8) :=
  some ({ s with rsakeys := delAll s.rsakeys.list.length s.rsakeys }, [sshAgentSuccess])

def removeAllIdentities (s : Store c) : Option (Store c × List UInt8) :=
  some ({ s with ssh2keys := delAll s.ssh2keys.list.length s.ssh2keys }, [sshAgentSuccess])

def pageantHandleMsg (s : Store c) (msgdata : List UInt8) : Option (Store c × List UInt8) :=
  let (type, msg) := (BinarySource.ofData msgdata).getByte
  if msg.err then some (s, pageantFailureMsg)
  else
    match agentMsg type with
    | .requestRsaIdentities => requestRsaIdentities s
    | .requestIdentities => requestIdentities s
    | .rsaChallenge => rsaChallenge s msg
    | .signRequest => signRequest s msg
    | .addRsaIdentity => addRsaIdentity s msg
    | .addIdentity => addIdentity s msg
    | .removeRsaIdentity => removeRsaIdentity s msg
    | .removeIdentity => removeIdentity s msg
    | .removeAllRsaIdentities => removeAllRsaIdentities s
    | .removeAllIdentities => removeAllIdentities s
    | .unrecognised => some (s, pageantFailureMsg)

end Putty.Pageant
