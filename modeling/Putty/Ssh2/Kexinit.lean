/-
  Putty.Ssh2.Kexinit — agreeing on algorithms from the two KEXINIT packets
  (`ssh2_scan_kexinits` in `ssh2transport.c`).

  Both ends run the same scan over the same two packets, each with the table of what it
  offered itself. In every category the scan takes the first word of the client's list
  that is in the server's, and looks it up in the table.

  Proved, for every two packets and every table (`scan_agrees`): what is written out in
  each category is the table's entry of that word, except that a cipher which brings its
  own MAC decides the MAC, and that "null" as a host key algorithm counts only in a GSS
  key exchange; a scan that fails names a category which lacks a common word it needs, or
  whose word the table lacks; and two ends whose tables mean the same by a word agree in
  everything. A guessed packet is dropped only if it was announced, and then it is when a
  category has no common word at all, and is not when the first words agree.
-/

import Putty.Ssh2.NameList
import Putty.Utils.BinarySink

namespace Putty.Ssh2.Kexinit

open Putty.Utils

/-! ## Algorithms and the table of them -/

/-- KEXLIST_KEX and so on. -/
inductive KexList where
  | kex | hostkey | cscipher | sccipher | csmac | scmac | cscomp | sccomp
  deriving DecidableEq

/-- Every index, in order. -/
def kexListAll : List KexList := [.kex, .hostkey, .cscipher, .sccipher, .csmac, .scmac, .cscomp, .sccomp]

def kexlistDescr : KexList → List UInt8
  | .kex => text "key exchange algorithm"
  | .hostkey => text "host key algorithm"
  | .cscipher => text "client-to-server cipher"
  | .sccipher => text "server-to-client cipher"
  | .csmac => text "client-to-server MAC"
  | .scmac => text "server-to-client MAC"
  | .cscomp => text "client-to-server compression method"
  | .sccomp => text "server-to-client compression method"

inductive KexType where
  | dh | rsa | ecdh | gss
  deriving DecidableEq

structure SshKex where
  name : List UInt8
  mainType : KexType
  deriving DecidableEq

structure SshKeyalg where
  sshId : List UInt8
  deriving DecidableEq

structure Ssh2Macalg where
  name : List UInt8
  etmName : Option (List UInt8)
  deriving DecidableEq

structure SshCipheralg where
  ssh2Id : List UInt8
  requiredMac : Option Ssh2Macalg
  deriving DecidableEq

structure SshCompressionAlg where
  name : List UInt8
  delayedName : Option (List UInt8)
  deriving DecidableEq

structure KexMember where
  kex : SshKex
  warn : Bool
  deriving DecidableEq

structure HkMember where
  /-- NULL in the entry "null". -/
  hostkey : Option SshKeyalg
  warn : Bool
  deriving DecidableEq

structure CipherMember where
  cipher : Option SshCipheralg
  warn : Bool
  deriving DecidableEq

structure MacMember where
  mac : Option Ssh2Macalg
  etm : Bool
  deriving DecidableEq

structure CompMember where
  comp : SshCompressionAlg
  delayed : Bool
  deriving DecidableEq

/-- The member of the union `u` that the entries of a list use. -/
abbrev KexList.Member : KexList → Type
  | .kex => KexMember
  | .hostkey => HkMember
  | .cscipher | .sccipher => CipherMember
  | .csmac | .scmac => MacMember
  | .cscomp | .sccomp => CompMember

structure KexinitAlgorithm (i : KexList) where
  name : List UInt8
  u : i.Member

/-- The entries of each list that have a name. -/
abbrev Kexlists := (i : KexList) → List (KexinitAlgorithm i)

/-- The lookup of a word in a list. -/
def Kexlists.lookup (kexlists : Kexlists) (i : KexList) (found : List UInt8) : Option (KexinitAlgorithm i) :=
  (kexlists i).find? (·.name = found)

def ssh2HostkeyAlgs : List SshKeyalg :=
  [⟨text "ssh-ed25519"⟩, ⟨text "ecdsa-sha2-nistp256"⟩, ⟨text "ecdsa-sha2-nistp384"⟩,
    ⟨text "ecdsa-sha2-nistp521"⟩, ⟨text "ssh-dss"⟩, ⟨text "ssh-rsa"⟩]

def MAXKEXLIST : Nat := 16

/-! ## What the scan writes -/

structure TransportDirection where
  cipher : Option SshCipheralg
  mac : Option Ssh2Macalg
  etmMode : Bool
  comp : Option SshCompressionAlg
  compDelayed : Bool
  deriving DecidableEq

/-- The variables the scan's arguments point to. -/
structure Negotiated where
  kexAlg : Option SshKex
  hostkeyAlg : Option SshKeyalg
  cs : TransportDirection
  sc : TransportDirection
  warnKex : Bool
  warnHk : Bool
  warnCscipher : Bool
  warnSccipher : Bool
  ignoreGuessCsPacket : Bool
  ignoreGuessScPacket : Bool
  serverHostkeys : List Nat
  deriving DecidableEq

inductive Failure where
  | incomplete
  | unsupported (i : KexList) (found : List UInt8)
  | noAgreement (i : KexList) (available : List UInt8)
  /-- `server_hostkeys` was written past its end. -/
  | overrun
  deriving DecidableEq

/-- What ssh_proto_error or ssh_sw_abort is told. -/
def Failure.message : Failure → Option (List UInt8)
  | .incomplete => some (text "KEXINIT packet was incomplete")
  | .unsupported i found => some (text "Selected " ++ kexlistDescr i ++ text " \"" ++ found ++
      text "\" does not correspond to any supported algorithm")
  | .noAgreement i available =>
    some (text "Couldn't agree a " ++ kexlistDescr i ++ text " (available: " ++ available ++ text ")")
  | .overrun => none

/-! ## The scan -/

/-- The local variables of the first loop. -/
structure Scan where
  client : BinarySource
  server : BinarySource
  slists : KexList → List UInt8
  selected : (i : KexList) → Option (KexinitAlgorithm i)
  guessCorrect : Bool

def Scan.init (clientKexinit serverKexinit : List UInt8) : Scan where
  client := ((BinarySource.ofData clientKexinit).getData (1 + 16)).2
  server := ((BinarySource.ofData serverKexinit).getData (1 + 16)).2
  slists := fun _ => []
  selected := fun _ => none
  guessCorrect := true

def matchList (kexlists : Kexlists) (st : Scan) (i : KexList) : Except Failure Scan :=
  let (clist, client) := st.client.getString
  let (slist, server) := st.server.getString
  let st := { st with client, server, slists := Function.update st.slists i slist }
  if client.err || server.err then throw .incomplete
  else
    match findMatch clist slist true with
    | none => pure { st with selected := Function.update st.selected i none, guessCorrect := false }
    | some (found, cfirst, sfirst) =>
      match kexlists.lookup i found with
      | none => throw (.unsupported i found)
      | some alg => pure { st with
          selected := Function.update st.selected i (some alg)
          guessCorrect := st.guessCorrect && !((i == .kex || i == .hostkey) && !(cfirst || sfirst)) }

/-- The MAC that comes with the cipher of the same direction. -/
def requiredMac (o : Negotiated) : KexList → Option Ssh2Macalg
  | .csmac => o.cs.cipher.bind (·.requiredMac)
  | .scmac => o.sc.cipher.bind (·.requiredMac)
  | _ => none

def storeMac (o : Negotiated) (i : KexList) (mac : Option Ssh2Macalg) (etm : Bool) : Negotiated :=
  match i with
  | .csmac => { o with cs := { o.cs with mac, etmMode := etm } }
  | .scmac => { o with sc := { o.sc with mac, etmMode := etm } }
  | _ => o

/-- The switch over the list index. -/
def store (o : Negotiated) : (i : KexList) → i.Member → Negotiated
  | .kex, u => { o with kexAlg := some u.kex, warnKex := u.warn }
  | .hostkey, u =>
    if u.hostkey = none ∧ o.kexAlg.map (·.mainType) ≠ some .gss then o
    else { o with hostkeyAlg := u.hostkey, warnHk := u.warn }
  | .cscipher, u => { o with cs := { o.cs with cipher := u.cipher }, warnCscipher := u.warn }
  | .sccipher, u => { o with sc := { o.sc with cipher := u.cipher }, warnSccipher := u.warn }
  | .csmac, u => storeMac o .csmac u.mac u.etm
  | .scmac, u => storeMac o .scmac u.mac u.etm
  | .cscomp, u => { o with cs := { o.cs with comp := some u.comp, compDelayed := u.delayed } }
  | .sccomp, u => { o with sc := { o.sc with comp := some u.comp, compDelayed := u.delayed } }

def transcribe (st : Scan) (o : Negotiated) (i : KexList) : Except Failure Negotiated :=
  match requiredMac o i with
  | some mac => pure (storeMac o i (some mac) mac.etmName.isSome)
  | none =>
    match st.selected i with
    | none => throw (.noAgreement i (st.slists i))
    | some alg => pure (store o i alg.u)

/-- The index of a host key algorithm the server offers, if we know it. -/
def hostkeyIndex (word : List UInt8) : Option Nat := ssh2HostkeyAlgs.findIdx? (·.sshId = word)

/-- The auxiliary pass over the server's host key list. -/
def scanHostkeys (list : List UInt8) (serverHostkeys : List Nat) : Except Failure (List Nat) :=
  match _h : getCommasepWord list with
  | none => pure serverHostkeys
  | some (word, rest) =>
    match hostkeyIndex word with
    | none => scanHostkeys rest serverHostkeys
    | some i =>
      if serverHostkeys.length < MAXKEXLIST then scanHostkeys rest (serverHostkeys ++ [i])
      else throw .overrun
termination_by list.length
decreasing_by all_goals exact getCommasepWord_shorter ‹_›

/-- Which of its optional arguments the scan is given. -/
structure Wanted where
  ignoreGuessCsPacket : Bool
  ignoreGuessScPacket : Bool
  serverHostkeys : Bool

/-- The language strings are skipped and the flags read. -/
def readGuesses (wanted : Wanted) (st : Scan) (o : Negotiated) : Negotiated :=
  let client := st.client.getString.2.getString.2
  let server := st.server.getString.2.getString.2
  let o := if wanted.ignoreGuessCsPacket then
      { o with ignoreGuessCsPacket := client.getBool.1 && !st.guessCorrect } else o
  if wanted.ignoreGuessScPacket then { o with ignoreGuessScPacket := server.getBool.1 && !st.guessCorrect } else o

def ssh2ScanKexinits (clientKexinit serverKexinit : List UInt8) (kexlists : Kexlists) (wanted : Wanted)
    (o : Negotiated) : Except Failure Negotiated := do
  let st ← kexListAll.foldlM (matchList kexlists) (Scan.init clientKexinit serverKexinit)
  let o ← kexListAll.foldlM (transcribe st) (readGuesses wanted st o)
  if wanted.serverHostkeys then
    let serverHostkeys ← scanHostkeys (st.slists .hostkey) []
    pure { o with serverHostkeys }
  else pure o

/-- The call in `ssh2_transport_process_queue`: only the server's flag is asked for. -/
def transportWanted : Wanted := ⟨false, true, true⟩

/-! ## KEXINIT packets and what they agree on -/

structure KexinitPacket where
  cookie : List UInt8
  lists : KexList → List UInt8
  csLanguages : List UInt8
  scLanguages : List UInt8
  firstKexPacketFollows : UInt8
  reserved : List UInt8
  cookie_length : cookie.length = 16
  lists_lt : ∀ i, (lists i).length < 2 ^ 32
  csLanguages_lt : csLanguages.length < 2 ^ 32
  scLanguages_lt : scLanguages.length < 2 ^ 32

namespace KexinitPacket

def trailer (k : KexinitPacket) : List UInt8 :=
  putString k.csLanguages ++ (putString k.scLanguages ++ k.firstKexPacketFollows :: k.reserved)

def encode (k : KexinitPacket) : List UInt8 :=
  (20 :: k.cookie) ++ (kexListAll.flatMap (fun i => putString (k.lists i)) ++ k.trailer)

def names (k : KexinitPacket) (i : KexList) : List (List UInt8) := words (k.lists i)

def follows (k : KexinitPacket) : Bool := k.firstKexPacketFollows != 0

end KexinitPacket

/-- The kind of algorithm a list is about. -/
abbrev KexList.Alg : KexList → Type
  | .kex => SshKex
  | .hostkey => SshKeyalg
  | .cscipher | .sccipher => SshCipheralg
  | .csmac | .scmac => Ssh2Macalg
  | .cscomp | .sccomp => SshCompressionAlg

/-- The algorithm of an entry and the flag beside it. -/
def value : (i : KexList) → i.Member → Option i.Alg × Bool
  | .kex, u => (some u.kex, u.warn)
  | .hostkey, u => (u.hostkey, u.warn)
  | .cscipher, u | .sccipher, u => (u.cipher, u.warn)
  | .csmac, u | .scmac, u => (u.mac, u.etm)
  | .cscomp, u | .sccomp, u => (some u.comp, u.delayed)

/-- The variables that belong to a list. -/
def field (o : Negotiated) : (i : KexList) → Option i.Alg × Bool
  | .kex => (o.kexAlg, o.warnKex)
  | .hostkey => (o.hostkeyAlg, o.warnHk)
  | .cscipher => (o.cs.cipher, o.warnCscipher)
  | .sccipher => (o.sc.cipher, o.warnSccipher)
  | .csmac => (o.cs.mac, o.cs.etmMode)
  | .scmac => (o.sc.mac, o.sc.etmMode)
  | .cscomp => (o.cs.comp, o.cs.compDelayed)
  | .sccomp => (o.sc.comp, o.sc.compDelayed)

section Spec

variable (c s : KexinitPacket) (T : Kexlists)

/-- The first word of the client's list that is also in the server's. -/
def agreed (i : KexList) : Option (List UInt8) := (c.names i).find? (· ∈ s.names i)

/-- What the table has for that word. -/
def choice (i : KexList) : Option (Option i.Alg × Bool) :=
  ((agreed c s i).bind (T.lookup i)).map fun alg => value i alg.u

def macOf (cipher : Option (Option SshCipheralg × Bool)) : Option (Option Ssh2Macalg × Bool) :=
  ((cipher.bind Prod.fst).bind (·.requiredMac)).map fun mac => (some mac, mac.etmName.isSome)

/-- A MAC that comes with the agreed cipher. -/
def builtinMac : (i : KexList) → Option (Option i.Alg × Bool)
  | .csmac => macOf (choice c s T .cscipher)
  | .scmac => macOf (choice c s T .sccipher)
  | _ => none

/-- "null" was agreed on as a host key algorithm, but not a GSS key exchange. -/
def nullIgnored : (i : KexList) → Option i.Alg × Bool → Bool
  | .hostkey, v => v.1.isNone && ((choice c s T .kex).bind Prod.fst).map (·.mainType) != some .gss
  | _, _ => false

/-- What the variables of a list are to hold. -/
def expected (old : Negotiated) (i : KexList) : Option (Option i.Alg × Bool) :=
  match builtinMac c s T i with
  | some v => some v
  | none => (choice c s T i).map fun v => if nullIgnored c s T i v then field old i else v

/-- The words of the server's host key list that we know. -/
def knownHostkeys : List Nat := (s.names .hostkey).filterMap hostkeyIndex

/-- The two packets leave no algorithm to be agreed on that decides about the guess, and
    the guesses were the same. -/
def GuessRight : Prop :=
  (∀ i, agreed c s i ≠ none) ∧ ∀ i, i = .kex ∨ i = .hostkey → (c.names i).head? = (s.names i).head?

/-- Some category has no common word, or the key exchange or host key algorithm agreed on
    is nobody's first. -/
def GuessWrong : Prop :=
  (∃ i, agreed c s i = none) ∨
    ∃ i w, (i = .kex ∨ i = .hostkey) ∧ agreed c s i = some w ∧ (c.names i).head? ≠ some w ∧ (s.names i).head? ≠ some w

/-- The flag that says whether to drop a packet announced by `follows`. -/
structure Drops (follows dropped : Bool) : Prop where
  announced : dropped = true → follows = true
  wrong : GuessWrong c s → dropped = follows
  right : GuessRight c s → dropped = false

structure Negotiates (wanted : Wanted) (old o : Negotiated) : Prop where
  chosen : ∀ i, some (field o i) = expected c s T old i
  known : ∀ i w, agreed c s i = some w → (T.lookup i w).isSome
  csGuess : if wanted.ignoreGuessCsPacket then Drops c s c.follows o.ignoreGuessCsPacket
    else o.ignoreGuessCsPacket = old.ignoreGuessCsPacket
  scGuess : if wanted.ignoreGuessScPacket then Drops c s s.follows o.ignoreGuessScPacket
    else o.ignoreGuessScPacket = old.ignoreGuessScPacket
  hostkeys : if wanted.serverHostkeys then o.serverHostkeys = knownHostkeys s ∧ o.serverHostkeys.length ≤ MAXKEXLIST
    else o.serverHostkeys = old.serverHostkeys

/-- What a failure is about. -/
def Blames (wanted : Wanted) : Failure → Prop
  | .incomplete => False
  | .unsupported i found => agreed c s i = some found ∧ T.lookup i found = none
  | .noAgreement i available => agreed c s i = none ∧ builtinMac c s T i = none ∧ available = s.lists i
  | .overrun => wanted.serverHostkeys = true ∧ MAXKEXLIST < (knownHostkeys s).length

/-- What a scan may give. -/
def Scanned (wanted : Wanted) (old : Negotiated) : Except Failure Negotiated → Prop
  | .error e => Blames c s T wanted e
  | .ok o => Negotiates c s T wanted old o

end Spec

/-- The warning flags are each end's own business. -/
def bare : (i : KexList) → Option i.Alg × Bool → Option i.Alg × Bool
  | .csmac, v | .scmac, v | .cscomp, v | .sccomp, v => v
  | _, v => (v.1, false)

/-- Two ends that mean the same algorithm by a word. -/
def SameMeaning (T T' : Kexlists) : Prop :=
  ∀ i w a b, T.lookup i w = some a → T'.lookup i w = some b → bare i (value i a.u) = bare i (value i b.u)

/-! ## The first loop -/

/-- The guess is still right after list `i`. -/
def guessKept (c s : KexinitPacket) (i : KexList) : Bool :=
  match agreed c s i with
  | none => false
  | some w => !((i == .kex || i == .hostkey) && !((c.names i).head? == some w || (s.names i).head? == some w))

/-- The lists that are still to be read lie ahead in both packets. -/
structure Ahead (c s : KexinitPacket) (todo : List KexList) (st : Scan) : Prop where
  client : st.client.Reads (todo.flatMap (fun i => putString (c.lists i)) ++ c.trailer)
  server : st.server.Reads (todo.flatMap (fun i => putString (s.lists i)) ++ s.trailer)

variable {c s : KexinitPacket} {T : Kexlists}

theorem init_ahead : Ahead c s kexListAll (Scan.init c.encode s.encode) := by
  have key : ∀ k : KexinitPacket, ((BinarySource.ofData k.encode).getData (1 + 16)).2.Reads
      (kexListAll.flatMap (fun i => putString (k.lists i)) ++ k.trailer) := by
    intro k
    have h := (BinarySource.getData_reads (BinarySource.ofData_reads k.encode)).2
    rwa [List.length_cons, k.cookie_length] at h
  exact ⟨key c, key s⟩

theorem matchList_ok {i : KexList} {todo : List KexList} {st : Scan} (h : Ahead c s (i :: todo) st) :
    match matchList T st i with
    | .error e => ∃ w, e = .unsupported i w ∧ agreed c s i = some w ∧ T.lookup i w = none
    | .ok st' => Ahead c s todo st' ∧ st'.slists = Function.update st.slists i (s.lists i) ∧
        st'.selected = Function.update st.selected i ((agreed c s i).bind (T.lookup i)) ∧
        (∀ w, agreed c s i = some w → (T.lookup i w).isSome) ∧
        st'.guessCorrect = (st.guessCorrect && guessKept c s i) := by
  obtain ⟨hc, hs⟩ := h
  rw [List.flatMap_cons, List.append_assoc] at hc hs
  obtain ⟨c1, c2⟩ := BinarySource.getString_reads (c.lists_lt i) hc
  obtain ⟨s1, s2⟩ := BinarySource.getString_reads (s.lists_lt i) hs
  have herr : (st.client.getString.2.err || st.server.getString.2.err) = false := by rw [c2.1, s2.1]; rfl
  have hm := findMatch_eq (c.lists i) (s.lists i) true
  change _ = (agreed c s i).map _ at hm
  unfold matchList
  dsimp only
  rw [herr, if_neg Bool.false_ne_true, c1, s1, hm]
  rcases ha : agreed c s i with _ | w
  · exact ⟨⟨c2, s2⟩, rfl, rfl, nofun, by simp [guessKept, ha]⟩
  · rw [Option.map_some, Option.bind_some]
    dsimp only
    rcases hl : T.lookup i w with _ | alg
    · exact ⟨w, rfl, rfl, hl⟩
    · refine ⟨⟨c2, s2⟩, rfl, rfl, ?_, ?_⟩
      · rintro _ ⟨⟩
        rw [hl]; rfl
      · simp [guessKept, ha, KexinitPacket.names]

theorem matchLists_ok {todo : List KexList} {st : Scan} (hn : todo.Nodup) (h : Ahead c s todo st) :
    match todo.foldlM (matchList T) st with
    | .error e => ∃ i w, e = .unsupported i w ∧ agreed c s i = some w ∧ T.lookup i w = none
    | .ok st' => Ahead c s [] st' ∧
        (∀ i ∈ todo, st'.slists i = s.lists i ∧ st'.selected i = (agreed c s i).bind (T.lookup i) ∧
          ∀ w, agreed c s i = some w → (T.lookup i w).isSome) ∧
        (∀ i ∉ todo, st'.slists i = st.slists i ∧ st'.selected i = st.selected i) ∧
        st'.guessCorrect = (st.guessCorrect && todo.all (guessKept c s)) := by
  induction todo generalizing st with
  | nil => exact ⟨h, nofun, fun _ _ => ⟨rfl, rfl⟩, (Bool.and_true _).symm⟩
  | cons i todo ih =>
    obtain ⟨hi, hn⟩ := List.nodup_cons.mp hn
    have h1 := matchList_ok (T := T) h
    rw [List.foldlM_cons]
    rcases hm : matchList T st i with e | st1
    · rw [hm] at h1
      obtain ⟨w, hw⟩ := h1
      exact ⟨i, w, hw⟩
    · rw [hm] at h1
      obtain ⟨ha, hsl, hse, hk, hg⟩ := h1
      have h2 := ih hn ha
      show match todo.foldlM (matchList T) st1 with | .error e => _ | .ok st' => _
      rcases hf : todo.foldlM (matchList T) st1 with e | st2
      · rw [hf] at h2; exact h2
      · rw [hf] at h2
        obtain ⟨ha2, hin, hout, hg2⟩ := h2
        refine ⟨ha2, fun j hj => ?_, fun j hj => ?_, ?_⟩
        · rcases List.mem_cons.mp hj with rfl | hj
          · obtain ⟨o1, o2⟩ := hout j hi
            exact ⟨by rw [o1, hsl, Function.update_self], by rw [o2, hse, Function.update_self], hk⟩
          · exact hin j hj
        · obtain ⟨hji, hj⟩ := List.ne_and_not_mem_of_not_mem_cons hj
          obtain ⟨o1, o2⟩ := hout j hj
          exact ⟨by rw [o1, hsl, Function.update_of_ne hji], by rw [o2, hse, Function.update_of_ne hji]⟩
        · rw [hg2, hg, List.all_cons, Bool.and_assoc]

/-! ## The second loop -/

theorem field_store_ne (o : Negotiated) {i j : KexList} (h : j ≠ i) (u : i.Member) :
    field (store o i u) j = field o j := by
  cases i <;> cases j <;> first | exact absurd rfl h | rfl | skip
  all_goals
    simp only [store]
    split <;> rfl

theorem field_store (o : Negotiated) {i : KexList} (h : i ≠ .hostkey) (u : i.Member) : field (store o i u) i = value i u := by
  cases i with
  | hostkey => exact absurd rfl h
  | _ => rfl

/-- "null" is passed over unless a GSS key exchange has been stored. -/
theorem field_store_hostkey (o : Negotiated) (u : HkMember) :
    field (store o .hostkey u) .hostkey =
      if u.hostkey = none ∧ o.kexAlg.map (·.mainType) ≠ some .gss then field o .hostkey else (u.hostkey, u.warn) := by
  by_cases h : u.hostkey = none ∧ o.kexAlg.map (·.mainType) ≠ some .gss
  · rw [if_pos h, show store o .hostkey u = o from if_pos h]
  · rw [if_neg h, show store o .hostkey u = _ from if_neg h]
    rfl

/-- What must have been stored before list `i` is looked at. -/
def needs : KexList → List KexList
  | .hostkey => [.kex]
  | .csmac => [.cscipher]
  | .scmac => [.sccipher]
  | _ => []

/-- Every list of `todo` comes once, and after what it needs. -/
def Ready : List KexList → List KexList → Prop
  | _, [] => True
  | done, i :: todo => (i ∉ done ∧ needs i ⊆ done) ∧ Ready (i :: done) todo

theorem all_ready : Ready [] kexListAll := by simp [Ready, kexListAll, needs]

/-- The variables of the lists in `done` are as expected and nothing else has changed. -/
structure Stored (c s : KexinitPacket) (T : Kexlists) (old : Negotiated) (done : List KexList) (o : Negotiated) : Prop where
  stored : ∀ i ∈ done, some (field o i) = expected c s T old i
  rest : ∀ i ∉ done, field o i = field old i
  csGuess : o.ignoreGuessCsPacket = old.ignoreGuessCsPacket
  scGuess : o.ignoreGuessScPacket = old.ignoreGuessScPacket
  hostkeys : o.serverHostkeys = old.serverHostkeys

theorem store_guess (o : Negotiated) (i : KexList) (u : i.Member) :
    (store o i u).ignoreGuessCsPacket = o.ignoreGuessCsPacket ∧
      (store o i u).ignoreGuessScPacket = o.ignoreGuessScPacket ∧ (store o i u).serverHostkeys = o.serverHostkeys := by
  cases i <;> first | exact ⟨rfl, rfl, rfl⟩ | skip
  simp only [store]
  split <;> exact ⟨rfl, rfl, rfl⟩

/-- An entry for list `i` is stored as the list's other entries would be. -/
theorem Stored.put {old o : Negotiated} {done : List KexList} {i : KexList} (h : Stored c s T old done o) (hi : i ∉ done)
    (u : i.Member) (hu : some (field (store o i u) i) = expected c s T old i) : Stored c s T old (i :: done) (store o i u) := by
  obtain ⟨g1, g2, g3⟩ := store_guess o i u
  refine ⟨fun j hj => ?_, fun j hj => ?_, g1.trans h.csGuess, g2.trans h.scGuess, g3.trans h.hostkeys⟩
  · rcases List.mem_cons.mp hj with rfl | hj
    · exact hu
    · rw [field_store_ne o (ne_of_mem_of_not_mem hj hi) u]
      exact h.stored j hj
  · obtain ⟨hji, hj⟩ := List.ne_and_not_mem_of_not_mem_cons hj
    rw [field_store_ne o hji u]
    exact h.rest j hj

/-- A list that has no built-in choice was stored from the table. -/
theorem Stored.choice {old o : Negotiated} {done : List KexList} {i : KexList} (h : Stored c s T old done o)
    (hi : i ∈ done) (hb : builtinMac c s T i = none) (hn : ∀ v, nullIgnored c s T i v = false) :
    choice c s T i = some (field o i) := by
  rw [h.stored i hi, expected, hb]
  simp [hn]

/-- The MAC that the stored cipher brings is the one the agreed cipher brings. -/
theorem builtin_mac {c : Option SshCipheralg × Bool} {mac : Option Ssh2Macalg}
    (h : c.1.bind (·.requiredMac) = mac) : macOf (some c) = mac.map fun m => (some m, m.etmName.isSome) := by
  rw [macOf, Option.bind_some, h]

theorem Stored.requiredMac_none {old o : Negotiated} {done : List KexList} {i : KexList} (h : Stored c s T old done o)
    (hn : needs i ⊆ done) (hr : requiredMac o i = none) : builtinMac c s T i = none := by
  cases i with
  | csmac =>
    have hch := h.choice (hn (by simp [needs])) rfl (fun _ => rfl) (i := .cscipher)
    show macOf _ = none
    rw [hch, builtin_mac (c := field o .cscipher) hr]; rfl
  | scmac =>
    have hch := h.choice (hn (by simp [needs])) rfl (fun _ => rfl) (i := .sccipher)
    show macOf _ = none
    rw [hch, builtin_mac (c := field o .sccipher) hr]; rfl
  | _ => rfl

theorem Stored.requiredMac_some {old o : Negotiated} {done : List KexList} {i : KexList} {mac : Ssh2Macalg}
    (h : Stored c s T old done o) (hn : needs i ⊆ done) (hr : requiredMac o i = some mac) :
    ∃ u : i.Member, storeMac o i (some mac) mac.etmName.isSome = store o i u ∧
      builtinMac c s T i = some (value i u) ∧ i ≠ .hostkey := by
  cases i with
  | csmac =>
    have hch := h.choice (hn (by simp [needs])) rfl (fun _ => rfl) (i := .cscipher)
    refine ⟨⟨some mac, mac.etmName.isSome⟩, rfl, ?_, nofun⟩
    show macOf _ = _
    rw [hch, builtin_mac (c := field o .cscipher) hr]; rfl
  | scmac =>
    have hch := h.choice (hn (by simp [needs])) rfl (fun _ => rfl) (i := .sccipher)
    refine ⟨⟨some mac, mac.etmName.isSome⟩, rfl, ?_, nofun⟩
    show macOf _ = _
    rw [hch, builtin_mac (c := field o .sccipher) hr]; rfl
  | _ => cases hr

/-- Storing an entry of the table gives what is expected of the list. -/
theorem Stored.entry {old o : Negotiated} {done : List KexList} {i : KexList} (h : Stored c s T old done o)
    (hn : needs i ⊆ done) (hi : i ∉ done) {u : i.Member} (hb : builtinMac c s T i = none)
    (hc : Kexinit.choice c s T i = some (value i u)) : some (field (store o i u) i) = expected c s T old i := by
  rw [expected, hb, hc]
  by_cases hk : i = .hostkey
  · subst hk
    have hkex : Kexinit.choice c s T .kex = some (field o .kex) :=
      h.choice (hn (by simp [needs])) rfl (fun _ => rfl)
    have hnull : nullIgnored c s T .hostkey (value .hostkey u) =
        decide (u.hostkey = none ∧ o.kexAlg.map (·.mainType) ≠ some .gss) := by
      show (_ && (((Kexinit.choice c s T .kex).bind Prod.fst).map _ != _)) = _
      rw [hkex, Bool.eq_iff_iff]
      simp [value, field]
    rw [field_store_hostkey, Option.map_some, hnull]
    simp only [decide_eq_true_eq]
    split
    · rw [h.rest _ hi]
    · rfl
  · rw [field_store o hk]
    have hnull : nullIgnored c s T i (value i u) = false := by
      cases i <;> first | exact absurd rfl hk | rfl
    rw [Option.map_some, hnull]; rfl

/-- What the first loop hands over. -/
structure Matched (c s : KexinitPacket) (T : Kexlists) (st : Scan) : Prop where
  slists : ∀ i, st.slists i = s.lists i
  selected : ∀ i, st.selected i = (agreed c s i).bind (T.lookup i)
  known : ∀ i w, agreed c s i = some w → (T.lookup i w).isSome

theorem transcribe_ok {st : Scan} {old o : Negotiated} {done : List KexList} {i : KexList} (hm : Matched c s T st)
    (h : Stored c s T old done o) (hi : i ∉ done) (hn : needs i ⊆ done) :
    match transcribe st o i with
    | .error e => e = .noAgreement i (s.lists i) ∧ agreed c s i = none ∧ builtinMac c s T i = none
    | .ok o' => Stored c s T old (i :: done) o' := by
  unfold transcribe
  rcases hr : requiredMac o i with _ | mac
  · have hb := h.requiredMac_none hn hr
    rcases hs : st.selected i with _ | alg
    · refine ⟨by rw [hm.slists], ?_, hb⟩
      rw [hm.selected] at hs
      rcases ha : agreed c s i with _ | w
      · rfl
      · rw [ha, Option.bind_some] at hs
        have := hm.known i w ha
        rw [hs] at this
        cases this
    · have hc : Kexinit.choice c s T i = some (value i alg.u) := by
        rw [Kexinit.choice, ← hm.selected, hs, Option.map_some]
      exact h.put hi alg.u (h.entry hn hi hb hc)
  · obtain ⟨u, hu, hb, hk⟩ := h.requiredMac_some hn hr
    show Stored c s T old (i :: done) (storeMac o i (some mac) mac.etmName.isSome)
    rw [hu]
    refine h.put hi u ?_
    rw [field_store o hk, expected, hb]

theorem transcribeAll_ok {st : Scan} {old : Negotiated} (hm : Matched c s T st) :
    ∀ {todo done : List KexList} {o : Negotiated}, Stored c s T old done o → Ready done todo →
      match todo.foldlM (transcribe st) o with
      | .error e => ∃ i, e = .noAgreement i (s.lists i) ∧ agreed c s i = none ∧ builtinMac c s T i = none
      | .ok o' => Stored c s T old (todo.reverse ++ done) o' := by
  intro todo
  induction todo with
  | nil => intro done o h _; exact h
  | cons i todo ih =>
    rintro done o h ⟨⟨hi, hn⟩, hrest⟩
    have h1 := transcribe_ok hm h hi hn
    rw [List.foldlM_cons]
    rcases ht : transcribe st o i with e | o1
    · rw [ht] at h1
      exact ⟨i, h1⟩
    · rw [ht] at h1
      have h2 := ih h1 hrest
      show match todo.foldlM (transcribe st) o1 with | .error e => _ | .ok o' => _
      rw [List.reverse_cons, List.append_assoc]
      exact h2

/-! ## The whole scan -/

theorem scanHostkeys_eq (list : List UInt8) (acc : List Nat) (ha : acc.length ≤ MAXKEXLIST) :
    scanHostkeys list acc =
      if (acc ++ (words list).filterMap hostkeyIndex).length ≤ MAXKEXLIST then
        .ok (acc ++ (words list).filterMap hostkeyIndex)
      else .error .overrun := by
  induction hn : list.length using Nat.strongRecOn generalizing list acc with
  | _ n ih =>
    rcases getCommasepWord_words list with ⟨hg, hw⟩ | ⟨word, rest, hg, hw, hlen⟩
    · rw [hw, List.filterMap_nil, List.append_nil, if_pos ha, scanHostkeys]
      split
      · rfl
      · next h => rw [hg] at h; cases h
    · have step : scanHostkeys list acc = match hostkeyIndex word with
          | none => scanHostkeys rest acc
          | some i => if acc.length < MAXKEXLIST then scanHostkeys rest (acc ++ [i]) else .error .overrun := by
        rw [scanHostkeys]
        split
        · next h => rw [hg] at h; cases h
        · next h => rw [hg] at h; cases h; rfl
      have ih := fun acc ha => ih rest.length (hn ▸ hlen) rest acc ha rfl
      rw [step, hw]
      rcases hk : hostkeyIndex word with _ | i
      · rw [List.filterMap_cons_none hk]
        exact ih acc ha
      · rw [List.filterMap_cons_some hk]
        dsimp only
        by_cases hl : acc.length < MAXKEXLIST
        · rw [if_pos hl, ih (acc ++ [i]) (by rw [List.length_append]; exact hl), List.append_assoc]
          rfl
        · rw [if_neg hl, if_neg (by rw [List.length_append, List.length_cons]; omega)]

/-- The flag read and the guess together. -/
theorem readGuesses_eq {st : Scan} (wanted : Wanted) (old : Negotiated) (h : Ahead c s [] st) :
    readGuesses wanted st old = { old with
      ignoreGuessCsPacket :=
        if wanted.ignoreGuessCsPacket then c.follows && !st.guessCorrect else old.ignoreGuessCsPacket
      ignoreGuessScPacket :=
        if wanted.ignoreGuessScPacket then s.follows && !st.guessCorrect else old.ignoreGuessScPacket } := by
  have key : ∀ (k : KexinitPacket) (src : BinarySource), src.Reads k.trailer →
      src.getString.2.getString.2.getBool.1 = k.follows := by
    intro k src hr
    have h1 := (BinarySource.getString_reads k.csLanguages_lt hr).2
    have h2 := (BinarySource.getString_reads k.scLanguages_lt h1).2
    exact (BinarySource.getBool_reads h2).1
  unfold readGuesses
  dsimp only
  rw [key c _ h.client, key s _ h.server]
  rcases wanted with ⟨_ | _, _ | _, _⟩ <;> rfl

theorem agreed_mem {i : KexList} {w : List UInt8} (h : agreed c s i = some w) : w ∈ c.names i ∧ w ∈ s.names i :=
  ⟨List.mem_of_find?_eq_some h, by simpa using List.find?_some h⟩

theorem mem_kexListAll (i : KexList) : i ∈ kexListAll := by cases i <;> decide

/-- The guess is kept when it is right and given up when it is wrong. -/
theorem drops (follows : Bool) : Drops c s follows (follows && !kexListAll.all (guessKept c s)) := by
  refine ⟨fun h => (Bool.and_eq_true_iff.mp h).1, fun h => ?_, fun h => ?_⟩
  · have : kexListAll.all (guessKept c s) = false := by
      rw [List.all_eq_false]
      rcases h with ⟨i, hi⟩ | ⟨i, w, hi, ha, hc, hs⟩
      · exact ⟨i, mem_kexListAll i, by simp [guessKept, hi]⟩
      · refine ⟨i, mem_kexListAll i, ?_⟩
        rcases hi with rfl | rfl <;> simp [guessKept, ha, hc, hs]
    rw [this]; cases follows <;> rfl
  · have : kexListAll.all (guessKept c s) = true := by
      rw [List.all_eq_true]
      intro i _
      obtain ⟨w, hw⟩ := Option.ne_none_iff_exists'.mp (h.1 i)
      rw [guessKept, hw]
      by_cases hi : i = .kex ∨ i = .hostkey
      · -- the common first word is the one agreed on
        have hh := h.2 i hi
        have hfirst : (c.names i).head? = some w := by
          rcases hc : c.names i with _ | ⟨b, bs⟩
          · have := (agreed_mem hw).1
            rw [hc] at this; cases this
          · rw [hc, List.head?_cons] at hh
            have hb : b ∈ s.names i := List.mem_of_head? hh.symm
            have := hw
            rw [agreed, hc, List.find?_cons_of_pos (by simpa using hb)] at this
            exact this
        simp [hfirst]
      · rw [not_or] at hi
        simp [hi.1, hi.2]
    rw [this]; cases follows <;> rfl

/-- What a scan of two packets gives. -/
theorem scan_spec (c s : KexinitPacket) (T : Kexlists) (wanted : Wanted) (old : Negotiated) :
    Scanned c s T wanted old (ssh2ScanKexinits c.encode s.encode T wanted old) := by
  have h1 := matchLists_ok (T := T) (by decide) (init_ahead (c := c) (s := s))
  unfold ssh2ScanKexinits
  rcases hm : kexListAll.foldlM (matchList T) (Scan.init c.encode s.encode) with e | st
  · rw [hm] at h1
    obtain ⟨i, w, rfl, ha, hl⟩ := h1
    exact ⟨ha, hl⟩
  · rw [hm] at h1
    obtain ⟨hahead, hin, -, hguess⟩ := h1
    have hmatched : Matched c s T st :=
      ⟨fun i => (hin i (mem_kexListAll i)).1, fun i => (hin i (mem_kexListAll i)).2.1,
        fun i => (hin i (mem_kexListAll i)).2.2⟩
    have hg := readGuesses_eq wanted old hahead
    rw [hguess, show (Scan.init c.encode s.encode).guessCorrect = true from rfl, Bool.true_and] at hg
    have hstart : Stored c s T (readGuesses wanted st old) [] (readGuesses wanted st old) :=
      ⟨nofun, fun _ _ => rfl, rfl, rfl, rfl⟩
    have h2 := transcribeAll_ok hmatched hstart all_ready
    show Scanned c s T wanted old ((kexListAll.foldlM (transcribe st) (readGuesses wanted st old)).bind _)
    rcases ht : kexListAll.foldlM (transcribe st) (readGuesses wanted st old) with e | o
    · rw [ht] at h2
      obtain ⟨i, rfl, ha, hb⟩ := h2
      exact ⟨ha, hb, rfl⟩
    · rw [ht, List.append_nil] at h2
      have hchosen : ∀ i, some (field o i) = expected c s T old i := by
        intro i
        rw [h2.stored i (List.mem_reverse.mpr (mem_kexListAll i)), hg]
        cases i <;> rfl
      have hcs : if wanted.ignoreGuessCsPacket then Drops c s c.follows o.ignoreGuessCsPacket
          else o.ignoreGuessCsPacket = old.ignoreGuessCsPacket := by
        rw [h2.csGuess, hg]
        rcases wanted with ⟨_ | _, _, _⟩
        · rfl
        · exact drops c.follows
      have hsc : if wanted.ignoreGuessScPacket then Drops c s s.follows o.ignoreGuessScPacket
          else o.ignoreGuessScPacket = old.ignoreGuessScPacket := by
        rw [h2.scGuess, hg]
        rcases wanted with ⟨_, _ | _, _⟩
        · rfl
        · exact drops s.follows
      have hhk : o.serverHostkeys = old.serverHostkeys := by rw [h2.hostkeys, hg]
      have hscan : scanHostkeys (s.lists .hostkey) [] =
          if (knownHostkeys s).length ≤ MAXKEXLIST then .ok (knownHostkeys s) else .error .overrun :=
        scanHostkeys_eq (s.lists .hostkey) [] (Nat.zero_le _)
      rcases wanted with ⟨wc, ws, _ | _⟩
      · exact ⟨hchosen, hmatched.known, hcs, hsc, hhk⟩
      · show Scanned c s T ⟨wc, ws, true⟩ old ((scanHostkeys (st.slists .hostkey) []).bind _)
        rw [hmatched.slists, hscan]
        by_cases hlen : (knownHostkeys s).length ≤ MAXKEXLIST
        · rw [if_pos hlen]
          refine ⟨fun i => ?_, hmatched.known, hcs, hsc, rfl, hlen⟩
          rw [← hchosen i]
          cases i <;> rfl
        · rw [if_neg hlen]
          exact ⟨rfl, Nat.lt_of_not_le hlen⟩

/-! ## The two ends -/

/-- Tables that mean the same by a word choose the same. -/
theorem choice_bare {T' : Kexlists} (hT : SameMeaning T T') {i : KexList} {v v' : Option i.Alg × Bool}
    (h : choice c s T i = some v) (h' : choice c s T' i = some v') : bare i v = bare i v' := by
  rcases ha : agreed c s i with _ | w
  · rw [choice, ha] at h; cases h
  · rw [choice, ha, Option.bind_some] at h h'
    obtain ⟨a, hl, rfl⟩ := Option.map_eq_some_iff.mp h
    obtain ⟨b, hl', rfl⟩ := Option.map_eq_some_iff.mp h'
    exact hT i w a b hl hl'

theorem bare_fst {i : KexList} {v v' : Option i.Alg × Bool} (h : bare i v = bare i v') : v.1 = v'.1 := by
  have h1 := congrArg Prod.fst h
  cases i <;> exact h1

/-- What is stored for a list that is chosen from the table. -/
theorem Negotiates.from_table {wanted : Wanted} {old o : Negotiated} (h : Negotiates c s T wanted old o) {i : KexList}
    (hb : builtinMac c s T i = none) :
    ∃ v, choice c s T i = some v ∧ field o i = if nullIgnored c s T i v then field old i else v := by
  have hc := h.chosen i
  rw [expected, hb] at hc
  obtain ⟨v, hv, he⟩ := Option.map_eq_some_iff.mp hc.symm
  exact ⟨v, hv, he.symm⟩

theorem macOf_bare {x x' : Option (Option SshCipheralg × Bool)} (h : x.map Prod.fst = x'.map Prod.fst) :
    macOf x = macOf x' := by
  rcases x with _ | ⟨a, f⟩ <;> rcases x' with _ | ⟨b, g⟩ <;> simp [macOf] at h ⊢
  rw [h]

/-- The choices of a list that is never passed over have one algorithm. -/
theorem Negotiates.same_alg {T' : Kexlists} {wanted wanted' : Wanted} {old old' o o' : Negotiated}
    (hT : SameMeaning T T') (h : Negotiates c s T wanted old o) (h' : Negotiates c s T' wanted' old' o') {i : KexList}
    (hb : builtinMac c s T i = none) (hb' : builtinMac c s T' i = none) :
    (choice c s T i).map Prod.fst = (choice c s T' i).map Prod.fst := by
  obtain ⟨v, hv, -⟩ := h.from_table hb
  obtain ⟨v', hv', -⟩ := h'.from_table hb'
  rw [hv, hv', Option.map_some, Option.map_some, bare_fst (choice_bare hT hv hv')]

theorem Negotiates.same {T' : Kexlists} {wanted wanted' : Wanted} {old old' o o' : Negotiated} (hT : SameMeaning T T')
    (hold : old.hostkeyAlg = old'.hostkeyAlg) (h : Negotiates c s T wanted old o)
    (h' : Negotiates c s T' wanted' old' o') (i : KexList) : bare i (field o i) = bare i (field o' i) := by
  have hmac : builtinMac c s T i = builtinMac c s T' i := by
    cases i with
    | csmac => exact macOf_bare (h.same_alg hT h' (i := .cscipher) rfl rfl)
    | scmac => exact macOf_bare (h.same_alg hT h' (i := .sccipher) rfl rfl)
    | _ => rfl
  rcases hb : builtinMac c s T i with _ | m
  · obtain ⟨v, hv, hf⟩ := h.from_table hb
    obtain ⟨v', hv', hf'⟩ := h'.from_table (hmac ▸ hb)
    have hbare := choice_bare hT hv hv'
    have hnull : nullIgnored c s T i v = nullIgnored c s T' i v' := by
      cases i with
      | hostkey =>
        have hk : (choice c s T .kex).map Prod.fst = (choice c s T' .kex).map Prod.fst :=
          h.same_alg hT h' (i := .kex) rfl rfl
        have hb : ∀ x : Option (Option SshKex × Bool), x.bind Prod.fst = (x.map Prod.fst).bind id := by
          rintro (_ | _) <;> rfl
        rw [nullIgnored, nullIgnored, hb, hb, hk, bare_fst hbare]
      | _ => rfl
    rw [hf, hf', ← hnull]
    rcases hi : nullIgnored c s T i v with _ | _
    · exact hbare
    · -- only "null" is passed over, and then both ends keep what they had
      cases i <;> first | cases hi | exact congrArg (·, false) hold
  · have e := h.chosen i
    have e' := h'.chosen i
    rw [expected, hb] at e
    rw [expected, ← hmac, hb] at e'
    rw [Option.some.inj (e.trans e'.symm)]

/-- The scan of every two KEXINIT packets, with every table: what it writes, what it
    blames when it fails, and that both ends of a connection write the same algorithms. -/
theorem scan_agrees (c s : KexinitPacket) (T : Kexlists) (wanted : Wanted) (old : Negotiated) :
    Scanned c s T wanted old (ssh2ScanKexinits c.encode s.encode T wanted old) ∧
      ∀ (T' : Kexlists) (wanted' : Wanted) (old' o o' : Negotiated), SameMeaning T T' → old.hostkeyAlg = old'.hostkeyAlg →
        ssh2ScanKexinits c.encode s.encode T wanted old = .ok o →
        ssh2ScanKexinits c.encode s.encode T' wanted' old' = .ok o' →
        ∀ i, bare i (field o i) = bare i (field o' i) := by
  refine ⟨scan_spec c s T wanted old, fun T' wanted' old' o o' hT hold h h' i => ?_⟩
  have hn := scan_spec c s T wanted old
  have hn' := scan_spec c s T' wanted' old'
  rw [h] at hn
  rw [h'] at hn'
  exact Negotiates.same hT hold hn hn' i

/-! ## A cipher that brings its own MAC -/

def poly1305 : Ssh2Macalg := ⟨text "", some (text "")⟩

def chacha : SshCipheralg := ⟨text "chacha20-poly1305@openssh.com", some poly1305⟩

def hmacSha256 : Ssh2Macalg := ⟨text "hmac-sha2-256", some (text "hmac-sha2-256-etm@openssh.com")⟩

/-- What an end offers that warns about its ciphers or does not. -/
def offered (warn : Bool) : Kexlists
  | .kex => [⟨text "ecdh-sha2-nistp256", ⟨⟨text "ecdh-sha2-nistp256", .ecdh⟩, false⟩⟩]
  | .hostkey => [⟨text "ssh-ed25519", ⟨some ⟨text "ssh-ed25519"⟩, false⟩⟩]
  | .cscipher | .sccipher => [⟨chacha.ssh2Id, ⟨some chacha, warn⟩⟩]
  | .csmac | .scmac => [⟨hmacSha256.name, ⟨some hmacSha256, false⟩⟩]
  | .cscomp | .sccomp => [⟨text "none", ⟨⟨text "none", none⟩, false⟩⟩]

def guessLists (macs : List UInt8) : KexList → List UInt8
  | .kex => text "ecdh-sha2-nistp256"
  | .hostkey => text "ssh-ed25519"
  | .cscipher | .sccipher => chacha.ssh2Id
  | .csmac | .scmac => macs
  | .cscomp | .sccomp => text "none"

/-- A KEXINIT with these MACs and a guess announced. -/
def guessing (macs : List UInt8) (macs_lt : macs.length < 2 ^ 32) : KexinitPacket where
  cookie := List.replicate 16 7
  lists := guessLists macs
  csLanguages := []
  scLanguages := []
  firstKexPacketFollows := 1
  reserved := [0, 0, 0, 0]
  cookie_length := rfl
  lists_lt i := by cases i <;> simp only [guessLists] <;> first | exact macs_lt | decide
  csLanguages_lt := by decide
  scLanguages_lt := by decide

def ourKexinit : KexinitPacket := guessing (text "hmac-sha2-256") (by decide)

def theirKexinit : KexinitPacket := guessing (text "hmac-sha1") (by decide)

def fresh : Negotiated where
  kexAlg := none
  hostkeyAlg := none
  cs := ⟨none, none, false, none, false⟩
  sc := ⟨none, none, false, none, false⟩
  warnKex := false
  warnHk := false
  warnCscipher := false
  warnSccipher := false
  ignoreGuessCsPacket := false
  ignoreGuessScPacket := false
  serverHostkeys := []

/-- No MAC in common and none needed: the scan succeeds, and drops the packet of a server
    that guessed the key exchange and the host key algorithm right. -/
theorem a_right_guess_dropped :
    (ssh2ScanKexinits ourKexinit.encode theirKexinit.encode (offered false) transportWanted fresh).toOption.map
        (·.ignoreGuessScPacket) = some true ∧
      theirKexinit.follows = true ∧
      (ourKexinit.names .kex).head? = (theirKexinit.names .kex).head? ∧
      (ourKexinit.names .hostkey).head? = (theirKexinit.names .hostkey).head? := by
  decide +kernel

theorem offered_same : SameMeaning (offered false) (offered true) := by
  intro i w a b ha hb
  have ha := List.mem_of_find?_eq_some ha
  have hb := List.mem_of_find?_eq_some hb
  cases i <;> rw [List.mem_singleton.mp ha, List.mem_singleton.mp hb] <;> rfl

theorem both_ends_take_poly1305 :
    ∃ o o', ssh2ScanKexinits ourKexinit.encode theirKexinit.encode (offered false) transportWanted fresh = .ok o ∧
      ssh2ScanKexinits ourKexinit.encode theirKexinit.encode (offered true) transportWanted fresh = .ok o' ∧
      field o .csmac = (some poly1305, true) ∧ bare .csmac (field o .csmac) = bare .csmac (field o' .csmac) := by
  have h1 : (ssh2ScanKexinits ourKexinit.encode theirKexinit.encode (offered false) transportWanted fresh).toOption.map
      (field · .csmac) = some (some poly1305, true) := by decide +kernel
  have h2 : (ssh2ScanKexinits ourKexinit.encode theirKexinit.encode (offered true) transportWanted fresh).toOption.isSome
      = true := by decide +kernel
  rcases e : ssh2ScanKexinits ourKexinit.encode theirKexinit.encode (offered false) transportWanted fresh with _ | o
  · rw [e] at h1; cases h1
  rcases e' : ssh2ScanKexinits ourKexinit.encode theirKexinit.encode (offered true) transportWanted fresh with _ | o'
  · rw [e'] at h2; cases h2
  rw [e] at h1
  exact ⟨o, o', rfl, rfl, Option.some.inj h1,
    (scan_agrees ourKexinit theirKexinit (offered false) transportWanted fresh).2 (offered true) transportWanted fresh
      o o' offered_same rfl e e' .csmac⟩

end Putty.Ssh2.Kexinit
