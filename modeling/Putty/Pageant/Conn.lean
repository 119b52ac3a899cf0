/-
  Putty.Pageant.Conn — a connection to the agent (`pageant.c`, pageant_conn_receive).

  The coroutine stops in crGetChar, so a read is its bytes one after another, and a
  connection is where it stopped with what it has of the message. Proved: `agent_serves_iff`,
  the replies are one for every complete message of the stream, however it was cut, and they
  and the trees are right in exactly the streams whose messages are all `Good`.
-/

import Putty.Lib.Run
import Putty.Pageant.Agent

namespace Putty.Pageant

open Putty.Lib Putty.Utils

variable {K : Type} {c : Crypto K}

/-- AGENT_MAX_MSGLEN. -/
def agentMaxMsglen : Nat := 262144

/-! ## The connection -/

inductive CrLine where
  | begin
  | lenbuf
  | pktbuf
  deriving DecidableEq, Repr

structure Conn (c : Crypto K) where
  store : Store c
  lenbuf : List UInt8
  pktbuf : List UInt8
  len : Nat
  got : Nat
  realPacket : Bool
  crLine : CrLine
  /-- What sk_write was given. -/
  sent : List (List UInt8)

/-- A connection that was just made. -/
def newConn (s : Store c) : Conn c := ⟨s, [], [], 0, 0, false, .begin, []⟩

/-- sk_write of a reply with its length, and the loop again. -/
def Conn.replied (pc : Conn c) (r : Store c × List UInt8) : Conn c :=
  { pc with store := r.1, sent := pc.sent ++ [putString r.2], crLine := .begin }

/-- What follows the last byte of a message. -/
def reply (pc : Conn c) : Option (Conn c) :=
  (if pc.realPacket then pageantHandleMsg pc.store pc.pktbuf else some (pc.store, pageantFailureMsg)).map pc.replied

def lenbufChar (pc : Conn c) (ch : UInt8) : Option (Conn c) :=
  let pc := { pc with lenbuf := pc.lenbuf ++ [ch], got := pc.got + 1 }
  if pc.got < 4 then some { pc with crLine := .lenbuf }
  else
    let len := (BinarySource.get32BitMsbFirst pc.lenbuf).toNat
    let pc := { pc with len := len, got := 0, pktbuf := [], realPacket := len < agentMaxMsglen - 4 }
    if pc.got < pc.len then some { pc with crLine := .pktbuf } else reply pc

def pktbufChar (pc : Conn c) (ch : UInt8) : Option (Conn c) :=
  let pc := { pc with pktbuf := if pc.realPacket then pc.pktbuf ++ [ch] else pc.pktbuf, got := pc.got + 1 }
  if pc.got < pc.len then some pc else reply pc

/-- crGetChar, and the code up to the next one. -/
def getChar (pc : Conn c) (ch : UInt8) : Option (Conn c) :=
  match pc.crLine with
  | .begin => lenbufChar { pc with lenbuf := [], got := 0 } ch
  | .lenbuf => lenbufChar pc ch
  | .pktbuf => pktbufChar pc ch

def pageantConnReceive (pc : Conn c) (data : List UInt8) : Option (Conn c) := run getChar pc data

/-! ## The messages of a stream -/

inductive Message where
  | real (body : List UInt8)
  | overlong
  deriving DecidableEq, Repr

def message (body : List UInt8) : Message := if body.length < agentMaxMsglen - 4 then .real body else .overlong

/-- The complete messages. -/
def messages (stream : List UInt8) : List Message :=
  if 4 ≤ stream.length then
    let n := (BinarySource.get32BitMsbFirst (stream.take 4)).toNat
    if n ≤ (stream.drop 4).length then message ((stream.drop 4).take n) :: messages ((stream.drop 4).drop n) else []
  else []
termination_by stream.length
decreasing_by
  rw [List.length_drop, List.length_drop]
  omega

def serve (s : Store c) : Message → Option (Store c × List UInt8)
  | .real body => pageantHandleMsg s body
  | .overlong => some (s, pageantFailureMsg)

/-- The messages, with the bodies of their replies. -/
def serveAll : Store c → List Message → Option (Store c × List (List UInt8))
  | s, [] => some (s, [])
  | s, m :: ms => (serve s m).bind fun r => (serveAll r.1 ms).map fun t => (t.1, r.2 :: t.2)

/-- What is sent, and the trees. -/
def Conn.result (pc : Conn c) : Store c × List (List UInt8) := (pc.store, pc.sent)

/-- The state when the rest of a body has come. -/
def Conn.filled (pc : Conn c) (bytes : List UInt8) : Conn c :=
  { pc with pktbuf := if pc.realPacket then pc.pktbuf ++ bytes else pc.pktbuf, got := pc.len }

theorem receive_body_short : ∀ {data : List UInt8} (pc : Conn c), pc.crLine = .pktbuf → data.length < pc.len - pc.got →
    (run getChar pc data).map Conn.result = some pc.result
  | [], pc, _, _ => rfl
  | ch :: data, pc, hline, hlen => by
    rw [List.length_cons] at hlen
    rw [run_cons, getChar, hline]
    dsimp only
    rw [pktbufChar]
    dsimp only
    rw [if_pos (by omega), Option.bind_some]
    exact receive_body_short _ hline (by dsimp only; omega)

theorem receive_body : ∀ {data : List UInt8} (pc : Conn c), pc.crLine = .pktbuf → pc.got < pc.len →
    pc.len - pc.got ≤ data.length → run getChar pc data =
      (reply (pc.filled (data.take (pc.len - pc.got)))).bind fun pc' => run getChar pc' (data.drop (pc.len - pc.got))
  | [], pc, _, hlt, hlen => absurd hlen (by rw [List.length_nil]; omega)
  | ch :: data, pc, hline, hlt, hlen => by
    rw [List.length_cons] at hlen
    obtain ⟨m, hm⟩ : ∃ m, pc.len - pc.got = m + 1 := ⟨pc.len - pc.got - 1, by omega⟩
    rw [run_cons, getChar, hline, hm, List.take_succ_cons, List.drop_succ_cons]
    dsimp only
    rw [pktbufChar]
    dsimp only
    by_cases hmore : pc.got + 1 < pc.len
    · rw [if_pos hmore, Option.bind_some, 
        receive_body { pc with pktbuf := if pc.realPacket then pc.pktbuf ++ [ch] else pc.pktbuf, got := pc.got + 1 } hline hmore
          (by dsimp only; omega)]
      have hm' : pc.len - (pc.got + 1) = m := by omega
      dsimp only
      rw [hm']
      congr 2
      unfold Conn.filled
      cases pc.realPacket with
      | true => simp only [if_true, List.append_assoc, List.singleton_append]
      | false => rfl
    · have hm' : m = 0 := by omega
      have hgot : pc.got + 1 = pc.len := by omega
      rw [if_neg hmore, hm', List.take_zero, List.drop_zero, hgot]
      rfl

/-- The state when the length of a message has come. -/
def Conn.header (pc : Conn c) (lenbuf : List UInt8) : Conn c :=
  { pc with
    lenbuf
    len := (BinarySource.get32BitMsbFirst lenbuf).toNat
    got := 0
    pktbuf := []
    realPacket := (BinarySource.get32BitMsbFirst lenbuf).toNat < agentMaxMsglen - 4
    crLine := .pktbuf }

theorem receive_header {pc : Conn c} (h : pc.crLine = .begin) (x y z w : UInt8) (data : List UInt8) :
    run getChar pc (x :: y :: z :: w :: data) =
      if 0 < (pc.header [x, y, z, w]).len then run getChar (pc.header [x, y, z, w]) data
      else (reply (pc.header [x, y, z, w])).bind fun pc' => run getChar pc' data := by
  have hrun : run getChar pc (x :: y :: z :: w :: data) =
      ((lenbufChar { pc with lenbuf := [x, y, z], got := 3, crLine := .lenbuf } w).bind fun pc' => run getChar pc' data) := by
    rw [run_cons, getChar, h]
    rfl
  rw [hrun, lenbufChar]
  dsimp only [List.cons_append, List.nil_append]
  rw [if_neg (by decide)]
  by_cases hlen : 0 < (BinarySource.get32BitMsbFirst [x, y, z, w]).toNat
  · rw [if_pos hlen]
    exact (if_pos hlen).symm
  · rw [if_neg hlen]
    refine Eq.trans ?_ (if_neg hlen).symm
    rfl

theorem receive_short {pc : Conn c} (h : pc.crLine = .begin) : ∀ {stream : List UInt8}, stream.length < 4 →
    (run getChar pc stream).map Conn.result = some pc.result
  | [], _ => rfl
  | [x], _ => by
    rw [run_cons, getChar, h]
    rfl
  | [x, y], _ => by
    rw [run_cons, getChar, h]
    rfl
  | [x, y, z], _ => by
    rw [run_cons, getChar, h]
    rfl
  | _ :: _ :: _ :: _ :: _, hlen => absurd hlen (by simp)

/-- A body that has come is a message. -/
theorem reply_filled (pc : Conn c) {lenbuf body : List UInt8} (h : body.length = (pc.header lenbuf).len) :
    reply ((pc.header lenbuf).filled body) =
      (serve pc.store (message body)).map ((pc.header lenbuf).filled body).replied := by
  unfold message reply
  rw [h]
  by_cases hreal : (pc.header lenbuf).len < agentMaxMsglen - 4
  · have hr : (pc.header lenbuf).realPacket = true := decide_eq_true hreal
    have hr' : ((pc.header lenbuf).filled body).realPacket = true := hr
    have hbuf : ((pc.header lenbuf).filled body).pktbuf = body := by
      unfold Conn.filled
      rw [hr]
      exact List.nil_append body
    rw [if_pos hreal, if_pos hr', hbuf]
    rfl
  · have hr : ((pc.header lenbuf).filled body).realPacket ≠ true := fun h => hreal (of_decide_eq_true h)
    rw [if_neg hreal, if_neg hr]
    rfl

/-- What follows a header, when the body is complete. -/
theorem receive_complete {pc : Conn c} (h : pc.crLine = .begin) {x y z w : UInt8} {data : List UInt8}
    (hlen : (pc.header [x, y, z, w]).len ≤ data.length) : run getChar pc (x :: y :: z :: w :: data) =
      (reply ((pc.header [x, y, z, w]).filled (data.take (pc.header [x, y, z, w]).len))).bind fun pc' =>
        run getChar pc' (data.drop (pc.header [x, y, z, w]).len) := by
  rw [receive_header h]
  by_cases hpos : 0 < (pc.header [x, y, z, w]).len
  · rw [if_pos hpos]
    exact receive_body _ rfl hpos hlen
  · have h0 : (pc.header [x, y, z, w]).len = 0 := Nat.eq_zero_of_not_pos hpos
    have hfilled : (pc.header [x, y, z, w]).filled [] = pc.header [x, y, z, w] := by
      unfold Conn.filled
      rw [List.append_nil, ite_self, h0]
      exact congrArg (fun n => { pc.header [x, y, z, w] with len := n }) h0.symm
    rw [if_neg hpos, h0, List.take_zero, List.drop_zero, hfilled]

/-- A stream of messages is the messages, and a rest without effect. -/
theorem receive_messages {pc : Conn c} (h : pc.crLine = .begin) (stream : List UInt8) :
    (run getChar pc stream).map Conn.result =
      (serveAll pc.store (messages stream)).map fun r => (r.1, pc.sent ++ r.2.map putString) := by
  induction hn : stream.length using Nat.strong_induction_on generalizing pc stream with
  | _ n ih =>
    have hnone : some pc.result = (serveAll pc.store []).map fun r => (r.1, pc.sent ++ r.2.map putString) := by
      show _ = some (_, pc.sent ++ [])
      rw [List.append_nil]
      rfl
    unfold messages
    by_cases h4 : 4 ≤ stream.length
    · rw [if_pos h4]
      match stream, h4 with
      | x :: y :: z :: w :: data, _ =>
        show _ = (serveAll pc.store (if (pc.header [x, y, z, w]).len ≤ data.length then
          message (data.take (pc.header [x, y, z, w]).len) :: messages (data.drop (pc.header [x, y, z, w]).len) else [])).map _
        by_cases hlen : (pc.header [x, y, z, w]).len ≤ data.length
        · have hbody : (data.take (pc.header [x, y, z, w]).len).length = (pc.header [x, y, z, w]).len :=
            List.length_take_of_le hlen
          have hlt : (data.drop (pc.header [x, y, z, w]).len).length < n := by
            rw [← hn, List.length_drop]
            simp only [List.length_cons]
            omega
          rw [if_pos hlen, receive_complete h hlen, reply_filled pc hbody, serveAll]
          cases serve pc.store (message (data.take (pc.header [x, y, z, w]).len)) with
          | none => rfl
          | some r =>
            rw [Option.map_some, Option.bind_some, Option.bind_some, ih _ hlt rfl _ rfl, Option.map_map]
            refine congrArg (Option.map · _) (funext fun t => ?_)
            show (t.1, (pc.sent ++ [putString r.2]) ++ t.2.map putString) = (t.1, pc.sent ++ (r.2 :: t.2).map putString)
            rw [List.append_assoc]
            rfl
        · rw [if_neg hlen, receive_header h, if_pos (by omega), receive_body_short (pc.header [x, y, z, w]) rfl (Nat.lt_of_not_le hlen)]
          exact hnone
    · rw [if_neg h4, receive_short h (Nat.lt_of_not_le h4)]
      exact hnone

/-! ## What is claimed of a connection -/

def Message.request (c : Crypto K) : Message → Request K
  | .real body => Pageant.request c body
  | .overlong => .other

/-- Each message has one reply, right for the map that the messages before it made. -/
def Served (c : Crypto K) : Keys K → List Message → List (List UInt8) → Keys K → Prop
  | a, [], bodies, a' => bodies = [] ∧ a' = a
  | a, m :: ms, body :: bodies, a' => Fits c a (m.request c) body ∧ Served c (a.next c (m.request c)).1 ms bodies a'
  | _, _ :: _, [], _ => False

def Message.Good (s : Store c) : Message → Prop
  | .real body => Pageant.Good s body
  | .overlong => True

/-- The trees after a message. -/
def served (s : Store c) (m : Message) : Option (Store c) := (serve s m).map Prod.fst

theorem serve_spec {s : Store c} (hs : Small s) (m : Message) :
    m.Good s ∧ Done s (m.request c) (serve s m) ∨ ¬ m.Good s ∧ Wrong s (m.request c) (serve s m) := by
  cases m with
  | real body => exact handle_spec hs body
  | overlong => exact .inl ⟨trivial, done_other hs⟩

theorem served_iff {s : Store c} (hs : Small s) (ms : List Message) :
    (∃ s' bodies, serveAll s ms = some (s', bodies) ∧ Served c (view s) ms bodies (view s')) ↔
      Along served (fun s m => m.Good s) s ms := by
  induction ms generalizing s with
  | nil => exact ⟨fun _ => trivial, fun _ => ⟨s, [], rfl, rfl, rfl⟩⟩
  | cons m ms ih =>
    rcases serve_spec hs m with ⟨hgood, s1, body, h1, hs1, hview, hfits⟩ | ⟨hno, hwrong⟩
    · have hserved : served s m = some s1 := by
        rw [served, h1]
        rfl
      have hcons : serveAll s (m :: ms) = (serveAll s1 ms).map fun t => (t.1, body :: t.2) := by
        rw [serveAll, h1]
        rfl
      rw [hcons]
      constructor
      · intro ⟨s', bodies, h, hS⟩
        obtain ⟨⟨s2, rest⟩, h2, heq⟩ := Option.map_eq_some_iff.mp h
        cases heq
        refine ⟨hgood, fun t ht => ?_⟩
        rw [hserved] at ht
        cases ht
        exact (ih hs1).mp ⟨s2, rest, h2, hview ▸ hS.2⟩
      · intro ⟨_, hrest⟩
        obtain ⟨s', bodies, h, hS⟩ := (ih hs1).mpr (hrest s1 hserved)
        exact ⟨s', body :: bodies, by rw [h]; rfl, hfits, hview ▸ hS⟩
    · refine ⟨fun ⟨s', bodies, h, hS⟩ => ?_, fun h => absurd h.1 hno⟩
      rw [serveAll] at h
      obtain ⟨⟨s1, body⟩, h1, h2⟩ := Option.bind_eq_some_iff.mp h
      obtain ⟨⟨s2, rest⟩, -, heq⟩ := Option.map_eq_some_iff.mp h2
      cases heq
      exact absurd hS.1 (hwrong s1 body h1)

theorem putString_injective : Function.Injective putString := fun _ _ h => congrArg (List.drop 4) h

/-- A connection that has served its stream. -/
def ServedStream (s : Store c) (stream : List UInt8) (o : Option (Conn c)) : Prop :=
  ∃ pc bodies, o = some pc ∧ pc.sent = bodies.map putString ∧ Served c (view s) (messages stream) bodies (view pc.store)

/-- The reads of a connection come to the same however the stream is cut, and serve it if
    and only if each of its messages is good for the trees at its turn. -/
theorem agent_serves_iff {s : Store c} (hs : Small s) (reads : List (List UInt8)) :
    run pageantConnReceive (newConn s) reads = pageantConnReceive (newConn s) reads.flatten ∧
      (ServedStream s reads.flatten (run pageantConnReceive (newConn s) reads) ↔
        Along served (fun s m => m.Good s) s (messages reads.flatten)) := by
  have hflat : run pageantConnReceive (newConn s) reads = pageantConnReceive (newConn s) reads.flatten := run_flatten getChar _ _
  refine ⟨hflat, ?_⟩
  rw [hflat, ← served_iff hs]
  have hall : (run getChar (newConn s) reads.flatten).map Conn.result =
      (serveAll s (messages reads.flatten)).map fun r => (r.1, r.2.map putString) :=
    receive_messages (show (newConn s).crLine = .begin from rfl) reads.flatten
  constructor
  · intro ⟨pc, bodies, hrun, hsent, hS⟩
    have hrun' : run getChar (newConn s) reads.flatten = some pc := hrun
    rw [hrun'] at hall
    obtain ⟨⟨s', bodies'⟩, hserve, hres⟩ := Option.map_eq_some_iff.mp hall.symm
    have hstore : s' = pc.store := congrArg Prod.fst hres
    have hsame : bodies'.map putString = pc.sent := congrArg Prod.snd hres
    obtain rfl : bodies' = bodies := List.map_injective_iff.mpr putString_injective (hsame.trans hsent)
    exact ⟨s', bodies', hserve, hstore ▸ hS⟩
  · intro ⟨s', bodies, h, hS⟩
    rw [h, Option.map_some] at hall
    obtain ⟨pc, hrun, hres⟩ := Option.map_eq_some_iff.mp hall
    have hstore : pc.store = s' := congrArg Prod.fst hres
    have hsent : pc.sent = bodies.map putString := congrArg Prod.snd hres
    exact ⟨pc, bodies, hrun, hsent, hstore ▸ hS⟩

/-- No SSH-2 key is used: no algorithm has a name that is known. -/
theorem length_zeros : (List.replicate 16 (0 : UInt8)).length = 16 := rfl

def noAlgorithms : Crypto Unit :=
  ⟨fun _ => none, fun _ => [], fun _ => 0, fun _ _ => false, fun _ _ _ => none, fun _ => ⟨List.replicate 16 0, length_zeros⟩,
    fun x m => (Nat.gcdA x m % m).toNat⟩

theorem pageantInit_small : Small (pageantInit noAlgorithms) := fun _ h => absurd h List.not_mem_nil

theorem agent_serves_empty_list : ServedStream (pageantInit noAlgorithms) [0, 0, 0, 1, 11]
    (run pageantConnReceive (newConn (pageantInit noAlgorithms)) [[0, 0, 0], [1, 11]]) := by
  refine (agent_serves_iff pageantInit_small [[0, 0, 0], [1, 11]]).2.mpr ?_
  have hms : messages [0, 0, 0, 1, 11] = [.real [11]] := by simp [messages, message, agentMaxMsglen, BinarySource.get32BitMsbFirst]
  show Along _ _ _ (messages [0, 0, 0, 1, 11])
  rw [hms]
  exact ⟨fun _ => (by decide : (5 : Nat) < 2 ^ 32), fun _ _ => trivial⟩

/-- SSH1_AGENTC_ADD_RSA_IDENTITY with modulus 12, exponents 1, and the factors 3 and 4. -/
def addTwelve : List UInt8 :=
  [0, 0, 0, 27, 7, 0, 0, 0, 4, 0, 4, 12, 0, 1, 1, 0, 1, 1, 0, 2, 3, 0, 2, 3, 0, 3, 4, 0, 0, 0, 0]

/-- SSH1_AGENTC_RSA_CHALLENGE for that key. -/
def challengeTwelve : List UInt8 :=
  [0, 0, 0, 34, 3, 0, 0, 0, 4, 0, 1, 1, 0, 4, 12, 0, 1, 1] ++ List.replicate 16 0 ++ [0, 0, 0, 1]

/-- The key is taken, and the challenge fails the assertion that the modulus is odd. -/
theorem even_factor_asserts : ¬ ServedStream (pageantInit noAlgorithms) (addTwelve ++ challengeTwelve)
    (run pageantConnReceive (newConn (pageantInit noAlgorithms)) [addTwelve, challengeTwelve]) := by
  have hnone : (run pageantConnReceive (newConn (pageantInit noAlgorithms)) [addTwelve, challengeTwelve]).isNone = true := by
    decide +kernel
  intro ⟨pc, bodies, hrun, _, _⟩
  rw [hrun] at hnone
  cases hnone

end Putty.Pageant
