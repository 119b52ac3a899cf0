/-
  Putty.Ssh2.Bpp — what the binary packet protocol does with a packet that it has read,
  decrypted and verified (`ssh2bpp.c`, the second half of `ssh2_bpp_handle_input`).

  The padding is checked, the payload decompressed, the type byte read, and the packet
  queued, or answered with UNIMPLEMENTED. The decompressor tells a failure by its return
  value. The code takes it for "no compression": the payload goes on as it came, no error
  is reported, and the decompressor keeps the output that it had begun, so that its next
  call fails an assertion.

  Proved: `delivery_iff`: in every state of every run, a packet that does not decompress is
  refused with an error, and the decompressor's output is gone after every packet, if and
  only if the payload is one that decompresses and no earlier packet failed to.

  A step that fails an assertion or follows a null pointer is `none`. An error ends the
  connection with a message; the coroutine starts over. Left out: how the bytes are read
  and decrypted, logging, the transfer statistics, the outgoing direction.
-/

import Putty.Zlib.Malformed
import Putty.Utils.BinarySink
import Putty.Lib.Run

namespace Putty.Ssh2.Bpp

open Putty.Zlib Putty.Utils Putty.Lib

/-! ## Message types -/

def SSH2_MSG_UNIMPLEMENTED : Nat := 3
def SSH2_MSG_NEWKEYS : Nat := 21
def SSH2_MSG_USERAUTH_SUCCESS : Nat := 52
def SSH_MSG_NO_TYPE_CODE : Nat := 256

/-- The values of SSH2_MESSAGE_TYPES, in its order. -/
def messageTypes : List Nat :=
  [1, 2, 3, 4, 5, 6, 20, 21, 30, 31, 30, 34, 31, 32, 33, 30, 31, 32, 33, 34, 40, 41, 30, 31, 32, 30, 31, 50, 51, 52, 53,
   60, 60, 60, 61, 60, 61, 63, 64, 65, 66, 80, 81, 82, 90, 91, 92, 93, 94, 95, 96, 97, 98, 99, 100]

/-- SSH2_BITMAP_WORD, `y` being 32 times its argument. -/
def bitmapWord (y : Nat) : Nat :=
  messageTypes.foldl (fun word value => word ||| (if y ≤ value ∧ value < y + 32 then 1 <<< (value - y) else 0)) 0

def validBitmap : List Nat := (List.range 8).map fun word => bitmapWord (32 * word)

/-- `(unsigned)(pkttype - 50) < 20`. -/
def userauthRange (pkttype : Nat) : Bool := 50 ≤ pkttype && pkttype < 70

/-! ## The state -/

inductive Compression where
  | none
  | zlib
  deriving DecidableEq, Repr

structure PktIn where
  type : Nat
  sequence : Nat
  data : List UInt8
  deriving DecidableEq, Repr

structure PktOut where
  type : Nat
  data : List UInt8
  deriving DecidableEq, Repr

structure BppState where
  inDecomp : Option Ctx
  inPendingCompression : Option Compression
  inSequence : Nat
  isServer : Bool
  pendingNewkeys : Bool
  pendingCompression : Bool
  seenUserauthSuccess : Bool
  inPq : List PktIn
  outPq : List PktOut

/-- `ssh2_bpp_new`. -/
def new (isServer : Bool) : BppState := ⟨none, none, 0, isServer, false, false, false, [], []⟩

/-- A packet as it has been read: `len` is its length field, `maclen` bytes follow it. -/
structure Packet where
  len : Nat
  maclen : Nat
  data : List UInt8
  size : data.length = len + 4 + maclen
  padding_read : 4 < data.length

namespace Packet

def pad (p : Packet) : Nat := (p.data.get ⟨4, p.padding_read⟩).toNat

/-- `data + 5`, `length - 5` bytes of it. -/
def payload (p : Packet) : List UInt8 := (p.data.drop 5).take (p.len - p.pad - 1)

def BadPadding (p : Packet) : Prop := p.pad < 4 ∨ p.len < p.pad + 1

instance (p : Packet) : Decidable p.BadPadding := by
  unfold BadPadding
  infer_instance

end Packet

/-! ## The code -/

/-- `ssh_decompressor_new`: null if there is no compression. `raw` is the memory of a new context. -/
def decompressorNew (raw : Ctx) : Compression → Option (Option Ctx)
  | .none => some none
  | .zlib => (decompressInit raw).map some

/-- The incoming half of `ssh2_bpp_enable_pending_compression`, which asks the new
    decompressor for its name. -/
def enablePendingCompression (raw : Ctx) (s : BppState) : Option BppState :=
  match s.inPendingCompression with
  | none => some s
  | some comp =>
    match decompressorNew raw comp with
    | some (some decomp) => some { s with inDecomp := some decomp, inPendingCompression := none }
    | _ => none

def newIncomingCrypto (raw : Ctx) (s : BppState) (compression : Compression) (delayed : Bool) : Option BppState :=
  if delayed && !s.seenUserauthSuccess then
    some { s with inPendingCompression := some compression, inDecomp := none, pendingNewkeys := false }
  else
    (decompressorNew raw compression).map fun inDecomp => { s with inPendingCompression := none, inDecomp, pendingNewkeys := false }

/-- "Decompress packet payload": what the packet holds from here on. -/
def decompressPayload (s : BppState) (payload : List UInt8) : Option (BppState × List UInt8) :=
  match s.inDecomp with
  | none => some (s, payload)
  | some decomp =>
    match decompressBlock decomp payload with
    | none => none
    | some (decomp, some newpayload) => some ({ s with inDecomp := some decomp }, newpayload)
    | some (decomp, none) => some ({ s with inDecomp := some decomp }, payload)

/-- The semantic content of the packet. -/
def identify (sequence : Nat) : List UInt8 → PktIn
  | [] => ⟨SSH_MSG_NO_TYPE_CODE, sequence, []⟩
  | type :: data => ⟨type.toNat, sequence, data⟩

/-- `ssh2_bpp_check_unimplemented`, less the answer. -/
def checkUnimplemented (pktin : PktIn) : Bool :=
  pktin.type < 0x100 && (validBitmap.getD (pktin.type >>> 5) 0 >>> (pktin.type &&& 0x1F)) &&& 1 == 0

/-- What follows once the packet has been put on the queue. -/
def queued (raw : Ctx) (s : BppState) (type : Nat) : Option BppState :=
  if type = SSH2_MSG_NEWKEYS then some { s with pendingNewkeys := true }
  else do
    let s ← if type = SSH2_MSG_USERAUTH_SUCCESS ∧ s.isServer = false then
        (enablePendingCompression raw s).map ({ · with seenUserauthSuccess := true })
      else some s
    some (if s.pendingCompression && userauthRange type then { s with pendingCompression := false } else s)

/-- One turn of the loop of `ssh2_bpp_handle_input`, with the error that ends it. -/
def handlePacket (raw : Ctx) (s : BppState) (p : Packet) : Option (BppState × Option String) :=
  if p.BadPadding then some (s, some "Invalid padding length on received packet")
  else do
    let sequence := s.inSequence
    let (s, payload) ← decompressPayload { s with inSequence := s.inSequence + 1 } p.payload
    let pktin := identify sequence payload
    if checkUnimplemented pktin then
      some ({ s with outPq := s.outPq ++ [⟨SSH2_MSG_UNIMPLEMENTED, put32BitMsbFirst pktin.sequence⟩] }, none)
    else (queued raw { s with inPq := s.inPq ++ [pktin] } pktin.type).map fun s => (s, none)

/-! ## Runs -/

inductive Event where
  | packet (raw : Ctx) (p : Packet)
  /-- "none" has no delayed form. -/
  | newIncomingCrypto (raw : Ctx) (compression : Compression) (delayed : Bool) (named : delayed = true → compression ≠ .none)
  /-- A server has sent USERAUTH_SUCCESS. -/
  | successSent (raw : Ctx)
  /-- A client has sent the last of its authentication packets. -/
  | userauthSent
  /-- The layers above have taken a packet, or the output has been sent. -/
  | taken
  | sent

/-- While new keys are awaited, no packet is looked at. -/
def step (s : BppState) : Event → Option BppState
  | .packet raw p => if s.pendingNewkeys then some s else (handlePacket raw s p).map (·.1)
  | .newIncomingCrypto raw compression delayed _ => newIncomingCrypto raw s compression delayed
  | .successSent raw => if s.isServer then enablePendingCompression raw s else some s
  | .userauthSent => some (if s.isServer then s else { s with pendingCompression := true })
  | .taken => some { s with inPq := s.inPq.tail }
  | .sent => some { s with outPq := [] }

/-- What is asked of a packet's delivery. -/
structure Delivery (raw : Ctx) (s : BppState) (p : Packet) : Prop where
  /-- If the payload does not decompress, nothing is queued and an error is reported. -/
  refused : ∀ decomp, s.inDecomp = some decomp → ¬ p.BadPadding →
    (∃ decomp', decompressBlock decomp p.payload = some (decomp', none)) →
    ∃ s' msg, handlePacket raw s p = some (s', some msg) ∧ s'.inPq = s.inPq
  /-- The packet is dealt with, and the decompressor has no output left from it. -/
  consumed : ∃ s' r, handlePacket raw s p = some (s', r) ∧ ∀ decomp, s'.inDecomp = some decomp → decomp.outblk = none

structure Inv (s : BppState) : Prop where
  decomp : ∀ decomp, s.inDecomp = some decomp → ∃ n, Reached n decomp
  pending : s.inPendingCompression ≠ some .none

/-! ## The invariant -/

variable {raw : Ctx} {s s' : BppState} {p : Packet}

/-- The decompressor stays, or it is a new one. -/
def Renewed (raw : Ctx) (s s' : BppState) : Prop :=
  s'.inDecomp = s.inDecomp ∨ ∃ decomp, s'.inDecomp = some decomp ∧ decompressInit raw = some decomp

theorem init_total (raw : Ctx) : ∃ decomp, decompressInit raw = some decomp ∧ decomp.outblk = none := by
  obtain ⟨a, b, hinit⟩ := decompressInit_total
  exact ⟨_, (hinit raw).1, rfl⟩

theorem decompressorNew_zlib {decomp : Ctx} (h : decompressInit raw = some decomp) :
    decompressorNew raw .zlib = some (some decomp) := by
  unfold decompressorNew
  rw [h]
  rfl

theorem Renewed.inv (h : Renewed raw s s') (hi : Inv s) (hp : s'.inPendingCompression ≠ some .none) : Inv s' := by
  refine ⟨fun decomp hd => ?_, hp⟩
  rcases h with h | ⟨d, h, hinit⟩
  · exact hi.decomp decomp (h.symm.trans hd)
  · cases h.symm.trans hd
    exact ⟨0, .fresh hinit⟩

/-- The method is a variable here, so that nothing evaluates the tables of a new context. -/
theorem enable_new {comp : Compression} {decomp : Ctx} (hc : s.inPendingCompression = some comp)
    (hn : decompressorNew raw comp = some (some decomp)) :
    enablePendingCompression raw s = some { s with inDecomp := some decomp, inPendingCompression := none } := by
  unfold enablePendingCompression
  rw [hc]
  simp only [hn]

theorem enable_spec (raw : Ctx) (hp : s.inPendingCompression ≠ some .none) :
    ∃ s', enablePendingCompression raw s = some s' ∧ s'.inPendingCompression ≠ some .none ∧ Renewed raw s s' := by
  cases hc : s.inPendingCompression with
  | none =>
    refine ⟨s, ?_, hp, Or.inl rfl⟩
    unfold enablePendingCompression
    rw [hc]
  | some comp =>
    cases comp with
    | none => exact absurd hc hp
    | zlib =>
      obtain ⟨d, hd, -⟩ := init_total raw
      exact ⟨_, enable_new hc (decompressorNew_zlib hd), nofun, Or.inr ⟨d, rfl, hd⟩⟩

theorem queued_spec (raw : Ctx) (hp : s.inPendingCompression ≠ some .none) (type : Nat) :
    ∃ s', queued raw s type = some s' ∧ s'.inPendingCompression ≠ some .none ∧ Renewed raw s s' := by
  have hlast : ∀ t : BppState, t.inPendingCompression ≠ some .none → Renewed raw s t → ∃ s',
      some (if t.pendingCompression && userauthRange type then { t with pendingCompression := false } else t) = some s' ∧
        s'.inPendingCompression ≠ some .none ∧ Renewed raw s s' := fun t ht hr => by
    split
    · exact ⟨_, rfl, ht, hr⟩
    · exact ⟨_, rfl, ht, hr⟩
  unfold queued
  split
  · exact ⟨_, rfl, hp, Or.inl rfl⟩
  · split
    · obtain ⟨t, ht, hpt, hr⟩ := enable_spec raw hp
      simp only [ht, Option.map_some, Option.bind_eq_bind, Option.bind_some]
      exact hlast { t with seenUserauthSuccess := true } hpt hr
    · exact hlast s hp (Or.inl rfl)

theorem decompressPayload_spec {t : BppState} {payload rest : List UInt8} (h : decompressPayload s payload = some (t, rest)) :
    t.inPendingCompression = s.inPendingCompression ∧
      ((s.inDecomp = none ∧ t.inDecomp = none) ∨
        ∃ d d' r, s.inDecomp = some d ∧ t.inDecomp = some d' ∧ decompressBlock d payload = some (d', r)) := by
  unfold decompressPayload at h
  cases hd : s.inDecomp with
  | none =>
    rw [hd] at h
    cases h
    exact ⟨rfl, Or.inl ⟨rfl, hd⟩⟩
  | some d =>
    rw [hd] at h
    cases hc : decompressBlock d payload with
    | none =>
      simp only [hc] at h
      cases h
    | some dr =>
      obtain ⟨d', r⟩ := dr
      cases r with
      | none =>
        simp only [hc] at h
        cases h
        exact ⟨rfl, Or.inr ⟨d, d', none, rfl, rfl, hc⟩⟩
      | some out =>
        simp only [hc] at h
        cases h
        exact ⟨rfl, Or.inr ⟨d, d', _, rfl, rfl, hc⟩⟩

/-- The packet keeps the payload that does not decompress. -/
theorem decompressPayload_fails {d d' : Ctx} {payload : List UInt8} (hd : s.inDecomp = some d)
    (hc : decompressBlock d payload = some (d', none)) :
    decompressPayload s payload = some ({ s with inDecomp := some d' }, payload) := by
  simp only [decompressPayload, hd, hc]

/-- A packet with good padding is dealt with once its payload has been seen to, and no
    error comes of it. -/
theorem handlePacket_spec (raw : Ctx) (hpad : ¬ p.BadPadding) (hp : s.inPendingCompression ≠ some .none) :
    (decompressPayload { s with inSequence := s.inSequence + 1 } p.payload = none → handlePacket raw s p = none) ∧
      ∀ t payload, decompressPayload { s with inSequence := s.inSequence + 1 } p.payload = some (t, payload) →
        ∃ s', handlePacket raw s p = some (s', none) ∧ s'.inPendingCompression ≠ some .none ∧ Renewed raw t s' := by
  rw [handlePacket, if_neg hpad]
  constructor
  · intro h
    simp only [h, Option.bind_eq_bind, Option.bind_none]
  · intro t payload h
    have hpt : t.inPendingCompression ≠ some .none := by
      rw [(decompressPayload_spec h).1]
      exact hp
    simp only [h, Option.bind_eq_bind, Option.bind_some]
    split
    · exact ⟨_, rfl, hpt, Or.inl rfl⟩
    · obtain ⟨s', hs, hps, hr⟩ := queued_spec raw (show ({ t with inPq := t.inPq ++ [identify s.inSequence payload] } :
        BppState).inPendingCompression ≠ some .none from hpt) (identify s.inSequence payload).type
      exact ⟨s', by rw [hs]; rfl, hps, hr⟩

theorem handlePacket_inv (hi : Inv s) {r : Option String} (h : handlePacket raw s p = some (s', r)) : Inv s' := by
  by_cases hpad : p.BadPadding
  · rw [handlePacket, if_pos hpad] at h
    cases h
    exact hi
  · obtain ⟨hnone, hsome⟩ := handlePacket_spec raw hpad hi.pending
    cases hd : decompressPayload { s with inSequence := s.inSequence + 1 } p.payload with
    | none => cases h.symm.trans (hnone hd)
    | some tp =>
      obtain ⟨t, payload⟩ := tp
      obtain ⟨s1, hs1, hp1, hr⟩ := hsome t payload hd
      cases h.symm.trans hs1
      obtain ⟨hpt, hdec⟩ := decompressPayload_spec hd
      refine hr.inv ⟨fun d hd' => ?_, by rw [hpt]; exact hi.pending⟩ hp1
      rcases hdec with ⟨-, hnone⟩ | ⟨d0, d1, r1, h0, h1, hc⟩
      · cases hd'.symm.trans hnone
      · cases hd'.symm.trans h1
        obtain ⟨n, hn⟩ := hi.decomp d0 h0
        exact ⟨_, hn.call hc⟩

theorem newIncomingCrypto_inv {compression : Compression} {delayed : Bool} (hn : delayed = true → compression ≠ .none)
    (h : newIncomingCrypto raw s compression delayed = some s') : Inv s' := by
  unfold newIncomingCrypto at h
  split at h
  · rename_i hd
    cases h
    refine ⟨(fun decomp hnone => by cases hnone), fun hc => ?_⟩
    rw [Bool.and_eq_true] at hd
    exact hn hd.1 (Option.some.inj hc)
  · obtain ⟨new, hnew, h⟩ := Option.map_eq_some_iff.mp h
    cases h
    refine ⟨fun decomp hd => ?_, fun hc => by cases hc⟩
    dsimp only at hd
    rw [hd] at hnew
    cases compression with
    | none => cases hnew
    | zlib =>
      rw [decompressorNew] at hnew
      obtain ⟨d, hinit, hd⟩ := Option.map_eq_some_iff.mp hnew
      cases hd
      exact ⟨0, .fresh hinit⟩

theorem step_inv (hi : Inv s) (e : Event) (h : step s e = some s') : Inv s' := by
  cases e with
  | packet raw p =>
    simp only [step] at h
    split at h
    · cases h
      exact hi
    · obtain ⟨⟨t, r⟩, ht, h⟩ := Option.map_eq_some_iff.mp h
      cases h
      exact handlePacket_inv hi ht
  | newIncomingCrypto raw compression delayed hn => exact newIncomingCrypto_inv hn h
  | successSent raw =>
    simp only [step] at h
    split at h
    · obtain ⟨t, ht, hp, hr⟩ := enable_spec raw hi.pending
      cases h.symm.trans ht
      exact hr.inv hi hp
    · cases h
      exact hi
  | userauthSent =>
    cases h
    split
    · exact hi
    · exact ⟨hi.decomp, hi.pending⟩
  | taken =>
    cases h
    exact ⟨hi.decomp, hi.pending⟩
  | sent =>
    cases h
    exact ⟨hi.decomp, hi.pending⟩

theorem reached_inv {isServer : Bool} {evs : List Event} (h : run step (new isServer) evs = some s) : Inv s := by
  have h0 : Inv (new isServer) := ⟨(fun _ hd => by cases hd), fun hp => by cases hp⟩
  have htaken : Taken step (fun _ _ => True) (new isServer) evs := taken_of_forall fun _ _ _ => trivial
  exact reaches_of_inv h0 (fun _ e _ hi _ hs => step_inv hi e hs) htaken evs s (List.prefix_refl _) h

/-! ## Delivery -/

/-- A payload with nothing that the decompressor refuses leaves no output in it. -/
theorem decompressPayload_ok (hi : Inv s) {payload : List UInt8}
    (hok : ∀ decomp, s.inDecomp = some decomp → decomp.outblk = none ∧ ¬ ∃ f, Meets 0 decomp payload f ∧ f.checked = true) :
    ∃ t rest, decompressPayload s payload = some (t, rest) ∧ ∀ decomp, t.inDecomp = some decomp → decomp.outblk = none := by
  unfold decompressPayload
  cases hd : s.inDecomp with
  | none => exact ⟨s, payload, rfl, fun decomp hd' => by cases hd.symm.trans hd'⟩
  | some decomp =>
    obtain ⟨n, hn⟩ := hi.decomp decomp hd
    obtain ⟨hidle, hno⟩ := hok decomp hd
    obtain ⟨d', r, hc, hclean, -, -⟩ := decompressBlock_ok payload (hn.idle hidle)
    cases r with
    | none => exact absurd ((fails_iff (hn.idle hidle) 0).mp ⟨d', hc⟩) hno
    | some out =>
      refine ⟨{ s with inDecomp := some d' }, out, by simp only [hc], fun d hd' => ?_⟩
      cases hd'
      exact (hclean rfl).outblk

/-- In every state that a run leads to, a packet is refused when it does not decompress
    and leaves no output behind, if and only if it finds none and its payload, where it is
    looked at, has nothing that the decompressor refuses. -/
theorem delivery_iff {isServer : Bool} {evs : List Event} (raw : Ctx) (p : Packet) (h : run step (new isServer) evs = some s) :
    Delivery raw s p ↔ ∀ decomp, s.inDecomp = some decomp → decomp.outblk = none ∧
      (¬ p.BadPadding → ¬ ∃ f, Meets 0 decomp p.payload f ∧ f.checked = true) := by
  have hi := reached_inv h
  by_cases hpad : p.BadPadding
  · have hp : handlePacket raw s p = some (s, some "Invalid padding length on received packet") := if_pos hpad
    constructor
    · intro hdel decomp hd
      obtain ⟨s', r, hs, hout⟩ := hdel.consumed
      cases hp.symm.trans hs
      exact ⟨hout decomp hd, fun hno => absurd hpad hno⟩
    · intro hok
      exact ⟨fun _ _ hno => absurd hpad hno, s, _, hp, fun decomp hd => (hok decomp hd).1⟩
  · obtain ⟨hnone, hsome⟩ := handlePacket_spec raw hpad hi.pending
    constructor
    · intro hdel decomp hd
      obtain ⟨n, hn⟩ := hi.decomp decomp hd
      obtain ⟨s', r, hs, hout⟩ := hdel.consumed
      have hidle : decomp.outblk = none := by
        by_contra ho
        have hfault : decompressBlock decomp p.payload = none := if_pos (Option.isSome_iff_ne_none.mpr ho)
        rw [hnone (by simp only [decompressPayload, hd, hfault])] at hs
        cases hs
      refine ⟨hidle, fun _ hflaw => ?_⟩
      obtain ⟨d', hfail⟩ := (fails_iff (hn.idle hidle) 0).mpr hflaw
      obtain ⟨t, msg, ht, -⟩ := hdel.refused decomp hd hpad ⟨d', hfail⟩
      obtain ⟨t', ht', -⟩ := hsome _ _ (decompressPayload_fails hd hfail)
      cases ht.symm.trans ht'
    · intro hok
      refine ⟨fun decomp hd _ hfail => ?_, ?_⟩
      · obtain ⟨n, hn⟩ := hi.decomp decomp hd
        obtain ⟨hidle, hno⟩ := hok decomp hd
        exact absurd ((fails_iff (hn.idle hidle) 0).mp hfail) (hno hpad)
      · obtain ⟨t, rest, ht, hclean⟩ := decompressPayload_ok (s := { s with inSequence := s.inSequence + 1 }) ⟨hi.decomp, hi.pending⟩
          fun decomp hd => ⟨(hok decomp hd).1, (hok decomp hd).2 hpad⟩
        obtain ⟨s', hs', -, hr⟩ := hsome t rest ht
        refine ⟨s', none, hs', fun decomp hd => ?_⟩
        rcases hr with hr | ⟨d, hr, hinit⟩
        · exact hclean decomp (hr.symm.trans hd)
        · cases hr.symm.trans hd
          obtain ⟨d1, hd1, ho⟩ := init_total raw
          cases hinit.symm.trans hd1
          exact ho

/-- A packet with a payload of two bytes, padded to 16 bytes, without a MAC. -/
def twoBytes (a b : UInt8) : Packet := ⟨12, 0, [0, 0, 0, 12, 9, a, b, 0, 0, 0, 0, 0, 0, 0, 0, 0], rfl, by simp⟩

def zlibOn : List Event := [.newIncomingCrypto (zeroed (.mk 0 [])) .zlib false nofun]

def decompressing (a b : Table) : BppState :=
  { new false with inDecomp := some (freshWith (zeroed (.mk 0 [])) a b) }

theorem newIncomingCrypto_zlib {raw decomp : Ctx} {s : BppState} (h : decompressInit raw = some decomp) :
    newIncomingCrypto raw s .zlib false =
      some { s with inPendingCompression := none, inDecomp := some decomp, pendingNewkeys := false } := by
  unfold newIncomingCrypto
  rw [decompressorNew_zlib h]
  rfl

/-- The context is a variable here, so that nothing evaluates its tables. -/
theorem newIncomingCrypto_run {raw decomp : Ctx} {isServer : Bool} (h : decompressInit raw = some decomp) :
    run step (new isServer) [.newIncomingCrypto raw .zlib false nofun] = some { new isServer with inDecomp := some decomp } := by
  rw [run_cons, step, newIncomingCrypto_zlib h]
  rfl

theorem zlibOn_run (a b : Table) (h : decompressInit (zeroed (.mk 0 [])) = some (freshWith (zeroed (.mk 0 [])) a b)) :
    run step (new false) zlibOn = some (decompressing a b) := newIncomingCrypto_run h

/-- The payload 5E 00 is no zlib stream; the packet is queued, as the CHANNEL_DATA that it looks like. -/
theorem undecompressed_is_queued :
    ¬ ∀ isServer evs s raw p, run step (new isServer) evs = some s → Delivery raw s p := by
  intro hall
  obtain ⟨a, b, hinit⟩ := decompressInit_total
  have hrun := zlibOn_run a b (hinit _).1
  have hdel := hall false zlibOn _ (zeroed (.mk 0 [])) (twoBytes 0x5E 0) hrun
  have hpad : ¬ (twoBytes 0x5E 0).BadPadding := by decide
  have hpayload : (twoBytes 0x5E 0).payload = [0x5E, 0] := rfl
  have hfail : ∃ c, decompressBlock (freshWith (zeroed (.mk 0 [])) a b) [0x5E, 0] = some (c, none) := by
    simp [freshWith, decompressBlock, loop, turnBound, refill, Ctx.push, turn, startTurn, headerOk, header, Ctx.eatbits]
  obtain ⟨s', msg, hs', -⟩ := hdel.refused _ rfl hpad (by rw [hpayload]; exact hfail)
  obtain ⟨c, hc⟩ := hfail
  obtain ⟨-, hsome⟩ := handlePacket_spec (zeroed (.mk 0 [])) hpad (reached_inv hrun).pending
  obtain ⟨t, ht, -⟩ := hsome _ _ (decompressPayload_fails rfl (by rw [hpayload]; exact hc))
  cases ht.symm.trans hs'

theorem header_delivered : ∃ s, run step (new false) zlibOn = some s ∧ Delivery (zeroed (.mk 0 [])) s (twoBytes 0x78 0x9C) := by
  obtain ⟨a, b, hinit⟩ := decompressInit_total
  have hrun := zlibOn_run a b (hinit _).1
  refine ⟨_, hrun, (delivery_iff _ _ hrun).mpr fun decomp hd => ?_⟩
  cases hd
  refine ⟨rfl, fun _ hflaw => ?_⟩
  obtain ⟨c, hc⟩ := (fails_iff (hinit _).2 0).mpr hflaw
  have hpayload : (twoBytes 0x78 0x9C).payload = [0x78, 0x9C] := rfl
  rw [hpayload] at hc
  have hok : ∃ c, decompressBlock (freshWith (zeroed (.mk 0 [])) a b) [0x78, 0x9C] = some (c, some []) := by
    simp [freshWith, decompressBlock, loop, turnBound, refill, Ctx.push, turn, startTurn, headerOk, header, Ctx.eatbits]
  obtain ⟨c', hc'⟩ := hok
  cases hc.symm.trans hc'

end Putty.Ssh2.Bpp
