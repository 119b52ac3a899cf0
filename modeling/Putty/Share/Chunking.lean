/-
  Putty.Share.Chunking — data sent in pieces no longer than the peer's maximum packet size:
  ssh2_try_send (`ssh2connection.c`) towards the server, send_packet_to_downstream
  (`sshshare.c`) towards a downstream.

  The first takes the size as an unsigned, cut to the packet protocol's own limit; the
  second keeps it in an int, so that 2^31 and more is negative, and compares it as a
  size_t, which is then longer than any packet. Either loop goes on as long as there is
  data, and with a size of 0 a round takes none of it.

  Proved: both end, with pieces within the size that together are the data, exactly when
  the size is not 0 or there is nothing to be cut (`chunks_iff`).
-/

import Putty.Share.Isolation
import Putty.Ssh2.SendWindow

namespace Putty.Share

open Putty.Utils Putty.Ssh2

/-! ## To the server -/

/-- `c->remmaxpkt` as CHANNEL_OPEN and CHANNEL_OPEN_CONFIRMATION set it. -/
def remmaxpktOf (cfg : Channel.Config) (maxpkt : UInt32) : UInt32 :=
  if maxpkt > cfg.packetSizeLimit then cfg.packetSizeLimit else maxpkt

/-- ssh2_try_send up to the end of its loop. -/
def tryLoop (s : Channel.St) : Option Channel.St :=
  if s.c.halfopen then some s else Channel.sendLoop (Channel.buffered s.c + 1) s

/-- It comes out of the loop, and what it took from the buffers it sent in messages within the maximum
    packet size. -/
def TrySendCuts (maxpkt : UInt32) (s : Channel.St) : Prop :=
  ∃ s1 ms, tryLoop s = some s1 ∧ s1.life ≠ .hung ∧ Channel.Sends s s1 ms ∧ ∀ m ∈ ms, Channel.payload m ≤ maxpkt.toNat

theorem remmaxpktOf_le (cfg : Channel.Config) (maxpkt : UInt32) : (remmaxpktOf cfg maxpkt).toNat ≤ maxpkt.toNat := by
  unfold remmaxpktOf
  split
  · next h =>
    rw [gt_iff_lt, UInt32.lt_iff_toNat_lt] at h
    omega
  · omega

theorem remmaxpktOf_eq_zero {cfg : Channel.Config} (hcfg : cfg.packetSizeLimit ≠ 0) (maxpkt : UInt32) :
    remmaxpktOf cfg maxpkt = 0 ↔ maxpkt = 0 := by
  unfold remmaxpktOf
  split
  · next h =>
    rw [gt_iff_lt, UInt32.lt_iff_toNat_lt] at h
    constructor
    · intro h0
      exact absurd h0 hcfg
    · intro h0
      rw [h0] at h
      exact absurd h (Nat.not_lt_zero _)
  · rfl

theorem trySendCuts_iff {s : Channel.St} {maxpkt : UInt32} (ha : s.life = .alive) (hmax : s.c.remmaxpkt.toNat ≤ maxpkt.toNat) :
    TrySendCuts maxpkt s ↔ ¬ Channel.Spins s.c := by
  unfold TrySendCuts tryLoop
  by_cases hh : s.c.halfopen = true
  · rw [if_pos hh]
    constructor
    · intro _ hspins
      rw [hspins.1] at hh
      cases hh
    · intro _
      exact ⟨s, [], rfl, by rw [ha]; simp, .refl s, by simp⟩
  rw [if_neg hh]
  obtain ⟨s1, ms, hloop, hs, -⟩ := Channel.sendLoop_sends (Channel.buffered s.c + 1) s
  constructor
  · intro hcuts hspins
    obtain ⟨s2, ns, hloop2, hlife, -, -⟩ := hcuts
    exact hlife (Channel.sendLoop_spins (by rw [hspins.2.2]; rfl) hspins.2.1 hloop2)
  · intro hspins
    refine ⟨s1, ms, hloop, ?_, hs, ?_⟩
    · by_cases hzero : s.c.remmaxpkt = 0
      · -- nothing to send: no round is made
        have hidle : ¬ Channel.canSend s.c := fun hcan => hspins ⟨by simpa using hh, hcan, hzero⟩
        unfold Channel.sendLoop at hloop
        rw [if_neg fun h => hidle ((Channel.sendLoop_guard s.c).mp h)] at hloop
        cases hloop
        rw [ha]
        simp
      · have hpos : 0 < s.c.remmaxpkt.toNat := Nat.pos_of_ne_zero fun h => hzero (UInt32.toNat_inj.mp h)
        rw [Channel.sendLoop_ends hpos (Nat.lt_succ_self _) hloop, ha]
        simp
    · intro m hm
      exact Nat.le_trans (hs.data m hm).2 hmax

/-! ## To a downstream -/

section Downstream

variable {me : Nat} {m : At} {pkt : List UInt8} {chan : Channel} {maxpkt : UInt32}

/-- send_packet_to_downstream returns, having written a packet for each piece of the data. -/
def DownstreamCuts (me : Nat) (m : At) (pkt : List UInt8) (chan : Channel) (maxpkt : UInt32) : Prop :=
  ∃ (m' : At) (parts : List (List UInt8)), sendPacketToDownstream me m .channelData pkt (some chan) = some m' ∧
    (∀ p ∈ parts, p.length ≤ maxpkt.toNat) ∧
    if m.cs.sock then
      parts.flatten = stringField pkt ∧
        m'.cl.out = m.cl.out ++ parts.map fun p => .toDownstream me .channelData (dataPacket (firstId pkt) p)
    else m' = m

/-- A limit of 0 is the only one that the cutting does not end with. -/
theorem pieces_isSome {limit : Int} (data : List UInt8) (h : limit ≠ 0 ∨ data = []) : (pieces limit data).isSome = true := by
  induction data using pieces.induct limit with
  | case1 data hshort =>
    unfold pieces
    rw [if_pos hshort]
    rfl
  | case2 data hlong hzero =>
    exfalso
    rcases h with h | rfl
    · omega
    · simp only [List.length_nil] at hlong
      omega
  | case3 data hlong hzero ih =>
    unfold pieces
    rw [if_neg hlong, dif_neg hzero, Option.isSome_map]
    apply ih
    left
    omega

theorem pieces_zero {data : List UInt8} (h : data ≠ []) : pieces 0 data = none := by
  have hlen := List.length_pos_iff.mpr h
  unfold pieces
  rw [if_neg (by omega), dif_pos (by rfl)]

theorem toint_eq_zero : toint maxpkt = 0 ↔ maxpkt = 0 := by
  have hlt := maxpkt.toNat_lt
  have hzero : maxpkt = 0 ↔ maxpkt.toNat = 0 := by rw [← UInt32.toNat_inj]; rfl
  rw [hzero]
  unfold toint
  split <;> omega

theorem downstreamCuts_iff (hchan : chan.downstreamMaxpkt = toint maxpkt) (hpkt : pkt.length < 2 ^ 31) :
    DownstreamCuts me m pkt chan maxpkt ↔ ¬ (m.cs.sock = true ∧ maxpkt = 0 ∧ stringField pkt ≠ []) := by
  have hlen : (stringField pkt).length < 2 ^ 31 := by
    have h := BinarySource.getString_length (BinarySource.ofData pkt).getUint32.2
    rw [BinarySource.getUint32_data] at h
    exact Nat.lt_of_le_of_lt h hpkt
  unfold DownstreamCuts sendPacketToDownstream
  cases hsock : m.cs.sock with
  | false =>
    constructor
    · intro _ hno
      cases hno.1
    · intro _
      exact ⟨m, [], by simp, by simp, by simp⟩
  | true =>
    simp only [Bool.not_true, Bool.false_eq_true, ↓reduceIte, Option.bind_eq_bind, Option.bind_some, hchan, true_and]
    constructor
    · intro hcuts hno
      obtain ⟨m', parts, hsend, -⟩ := hcuts
      obtain ⟨rfl, hdata⟩ := hno
      have hnone : pieces (toint 0) (stringField pkt) = none := pieces_zero hdata
      unfold stringField at hnone
      rw [hnone, Option.bind_none] at hsend
      cases hsend
    · intro hno
      have hsome : (pieces (toint maxpkt) (stringField pkt)).isSome = true := by
        apply pieces_isSome
        by_cases hdata : stringField pkt = []
        · exact .inr hdata
        · left
          intro h0
          exact hno ⟨toint_eq_zero.mp h0, hdata⟩
      obtain ⟨parts, hparts⟩ := Option.isSome_iff_exists.mp hsome
      obtain ⟨hflat, hshort⟩ := pieces_spec hparts
      let m' : At :=
        { m with cl := parts.foldl (fun cl p => cl.emit (.toDownstream me .channelData (dataPacket (firstId pkt) p))) m.cl }
      refine ⟨m', parts, ?_, ?_, hflat, ?_⟩
      · unfold stringField at hparts
        rw [hparts, Option.bind_some]
        rfl
      · intro p hp
        have hle : p.length ≤ (stringField pkt).length := by
          rw [← hflat]
          exact (List.sublist_flatten_of_mem hp).length_le
        have hcut := hshort p hp
        unfold toint at hcut
        split at hcut <;> omega
      · show (parts.foldl (fun cl p => cl.emit (.toDownstream me .channelData (dataPacket (firstId pkt) p))) m.cl).out = _
        rw [foldl_emit_out]

end Downstream

/-! ## Both -/

/-- For a channel whose peer gave `maxpkt` and a packet protocol whose own limit is not 0, each sender
    ends with pieces within that size exactly when the size is not 0 or it has nothing to cut. -/
theorem chunks_iff {cfg : Channel.Config} (hcfg : cfg.packetSizeLimit ≠ 0) (maxpkt : UInt32) {s : Channel.St} (ha : s.life = .alive)
    (hs : s.c.remmaxpkt = remmaxpktOf cfg maxpkt) (me : Nat) (m : At) {pkt : List UInt8} (hpkt : pkt.length < 2 ^ 31)
    {chan : Channel} (hchan : chan.downstreamMaxpkt = toint maxpkt) :
    (TrySendCuts maxpkt s ↔ ¬ (maxpkt = 0 ∧ s.c.halfopen = false ∧ Channel.canSend s.c)) ∧
      (DownstreamCuts me m pkt chan maxpkt ↔ ¬ (maxpkt = 0 ∧ m.cs.sock = true ∧ stringField pkt ≠ [])) := by
  constructor
  · rw [trySendCuts_iff ha (by rw [hs]; exact remmaxpktOf_le cfg maxpkt), not_iff_not, Channel.Spins, hs,
      remmaxpktOf_eq_zero hcfg]
    tauto
  · rw [downstreamCuts_iff hchan hpkt, not_iff_not]
    tauto

/-- A channel opened by the server with this window and maximum packet size, with one byte to send. -/
def oneByte (maxpkt : UInt32) : Channel.St :=
  let s := Channel.start ⟨false, false, false, false, 0x4000⟩ (.remote .default 0 1 100 maxpkt)
  { s with c := { s.c with outbuffer := bufchainAdd s.c.outbuffer [65] } }

def newState : At := ⟨⟨0, ∅, ∅, GlobalRequests.init, ∅, []⟩, ConnState.fresh⟩

/-- CHANNEL_DATA with one byte. -/
def oneBytePacket : List UInt8 := [0, 0, 0, 0, 0, 0, 0, 1, 65]

theorem chunks_iff_one_byte :
    (TrySendCuts 1 (oneByte 1) ↔ ¬ ((1 : UInt32) = 0 ∧ (oneByte 1).c.halfopen = false ∧ Channel.canSend (oneByte 1).c)) ∧
      (DownstreamCuts 0 newState oneBytePacket (newChannel 0 0 0 .opened 1) 1 ↔
        ¬ ((1 : UInt32) = 0 ∧ newState.cs.sock = true ∧ stringField oneBytePacket ≠ [])) :=
  @chunks_iff ⟨false, false, false, false, 0x4000⟩ (by decide) 1 _ rfl rfl 0 newState _ (by decide) _ rfl

/-- With a maximum packet size of 0 neither ends. -/
theorem zero_maxpkt_neither_ends :
    ¬ TrySendCuts 0 (oneByte 0) ∧ ¬ DownstreamCuts 0 newState oneBytePacket (newChannel 0 0 0 .opened 0) 0 := by
  constructor
  · rw [trySendCuts_iff (show (oneByte 0).life = .alive from rfl) (show (oneByte 0).c.remmaxpkt.toNat ≤ (0 : UInt32).toNat from Nat.le_refl _), not_not]
    decide
  · rw [downstreamCuts_iff rfl (by decide), not_not]
    refine ⟨rfl, rfl, ?_⟩
    decide

end Putty.Share
