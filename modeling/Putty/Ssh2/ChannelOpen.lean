/-
  Putty.Ssh2.ChannelOpen — the CHANNEL_OPEN arm of ssh2_connection_filter_queue
  (`ssh2connection.c`) and the client's decision about an open
  (`ssh2connection-client.c`).

  The filter looks at the packet at the head of the queue, decides by its type, answers
  and pops it; but an open that goes to a connection-sharing downstream leaves the switch
  before the pop, and the loop comes back to the same packet with its fields already
  read. The forwarding of a forwarded-tcpip open is looked up in a tree that exists only
  once a remote forwarding has been asked for.

  Proved: every open in the queue gets its one outcome and leaves the queue exactly when
  none of them names a missing tree or a downstream's forwarding (`disposed_iff`).

  The queue holds CHANNEL_OPENs only. `connectErr` is what portfwdmgr_connect returns at
  each call. A tree is the list of its elements in order; a lookup gives the element that
  compares equal. Log messages are left out.
-/

import Mathlib.Data.List.Forall2
import Putty.Ssh2.Channel
import Putty.Utils.BinarySource

namespace Putty.Ssh2.ChannelOpen

open Putty.Utils Putty.Ssh2.Channel

/-! ## Data -/

structure Rportfwd where
  /-- A C string: no NUL in it. -/
  shost : List UInt8
  sport : UInt32
  dhost : List UInt8
  dport : UInt32
  addressfamily : Int
  shareCtx : Option Nat
  deriving DecidableEq, Repr

/-- The Channel of an accepted open. -/
inductive NewChan where
  | x11 (peeraddr : List UInt8) (peerport : UInt32) (connectionSharingPossible : Bool)
  | forwarded (dhost : List UInt8) (dport : UInt32) (addressfamily : Int)
  | agent
  deriving DecidableEq, Repr

def NewChan.initialFixedWindowSize : NewChan → Nat
  | .x11 _ _ connectionSharingPossible => if connectionSharingPossible then 128 else 0
  | _ => 0

inductive ChanopenResult where
  | failure (reasonCode : UInt32) (wireMessage : String)
  | success (channel : NewChan)
  | downstream (shareCtx : Nat)
  deriving DecidableEq, Repr

def openAdministrativelyProhibited : UInt32 := 1
def openConnectFailed : UInt32 := 2
def openUnknownChannelType : UInt32 := 3

/-- What becomes of an open: a message to the server, or the packet passed on. -/
inductive Outcome where
  | confirmation (remoteid : UInt32) (localid : Nat) (locwindow maxpkt : UInt32)
  | failure (remoteid reasonCode : UInt32) (wireMessage : String)
  | downstream (shareCtx : Nat) (data : List UInt8)
  deriving DecidableEq, Repr

structure Layer where
  cfg : Config
  x11FwdEnabled : Bool
  agentFwdEnabled : Bool
  /-- There is a sharing state. -/
  connshare : Bool
  /-- NULL until a remote forwarding is first asked for. -/
  rportfwds : Option (List Rportfwd)
  /-- By local id, in order. -/
  channels : List (Nat × NewChan × Ssh2Channel)
  inPq : List BinarySource
  out : List Outcome
  connectCalls : Nat

/-! ## The decision -/

-- "x11", "forwarded-tcpip" and "auth-agent@openssh.com"
def x11 : List UInt8 := [120, 49, 49]
def forwardedTcpip : List UInt8 := [102, 111, 114, 119, 97, 114, 100, 101, 100, 45, 116, 99, 112, 105, 112]
def authAgent : List UInt8 :=
  [97, 117, 116, 104, 45, 97, 103, 101, 110, 116, 64, 111, 112, 101, 110, 115, 115, 104, 46, 99, 111, 109]

/-- The C string that mkstr makes of a counted one: what follows a NUL is not seen. -/
def mkstr (s : List UInt8) : List UInt8 := s.takeWhile (· ≠ 0)

def strcmp : List UInt8 → List UInt8 → Int
  | [], [] => 0
  | [], _ => -1
  | _, [] => 1
  | a :: as, b :: bs => if a < b then -1 else if b < a then 1 else strcmp as bs

def rportfwdCmp (shost : List UInt8) (sport : UInt32) (b : Rportfwd) : Int :=
  let i := strcmp shost b.shost
  if i ≠ 0 then if i < 0 then -1 else 1
  else if sport > b.sport then 1
  else if sport < b.sport then -1
  else 0

def find234 (tree : List Rportfwd) (shost : List UInt8) (sport : UInt32) : Option Rportfwd :=
  tree.find? fun b => rportfwdCmp shost sport b = 0

def chanOpenX11 (s : Layer) (peeraddr : List UInt8) (peerport : UInt32) : ChanopenResult :=
  if !s.x11FwdEnabled && !s.connshare then
    .failure openAdministrativelyProhibited "X11 forwarding is not enabled"
  else .success (.x11 (mkstr peeraddr) peerport s.connshare)

/-- `none` follows the NULL tree. -/
def chanOpenForwardedTcpip (connectErr : Nat → Option String) (s : Layer) (fwdaddr : List UInt8) (fwdport : UInt32) :
    Option (ChanopenResult × Layer) := do
  let tree ← s.rportfwds
  match find234 tree (mkstr fwdaddr) fwdport with
  | none => some (.failure openAdministrativelyProhibited "Remote port is not recognised", s)
  | some realpf =>
    match realpf.shareCtx with
    | some ctx => some (.downstream ctx, s)
    | none =>
      let err := connectErr s.connectCalls
      let s := { s with connectCalls := s.connectCalls + 1 }
      if err.isSome then some (.failure openConnectFailed "Port open failed", s)
      else some (.success (.forwarded realpf.dhost realpf.dport realpf.addressfamily), s)

def chanOpenAuthAgent (s : Layer) : ChanopenResult :=
  if !s.agentFwdEnabled then .failure openAdministrativelyProhibited "Agent forwarding is not enabled"
  else .success .agent

def parseChannelOpen (connectErr : Nat → Option String) (s : Layer) (type : List UInt8) (pktin : BinarySource) :
    Option (ChanopenResult × Layer × BinarySource) :=
  if type = x11 then
    let (peeraddr, pktin) := pktin.getString
    let (peerport, pktin) := pktin.getUint32
    some (chanOpenX11 s peeraddr peerport, s, pktin)
  else if type = forwardedTcpip then do
    let (fwdaddr, pktin) := pktin.getString
    let (fwdport, pktin) := pktin.getUint32
    let (_peeraddr, pktin) := pktin.getString
    let (_peerport, pktin) := pktin.getUint32
    let (result, s) ← chanOpenForwardedTcpip connectErr s fwdaddr fwdport
    some (result, s, pktin)
  else if type = authAgent then some (chanOpenAuthAgent s, s, pktin)
  else some (.failure openUnknownChannelType "Unsupported channel type requested", s, pktin)

/-! ## The filter -/

/-- alloc_channel_id: the first number from 256 on that is free. -/
def allocChannelId : Nat → List (Nat × NewChan × Ssh2Channel) → Nat
  | i, [] => i
  | i, c :: cs => if c.1 = i then allocChannelId (i + 1) cs else i

def addChannel (c : Nat × NewChan × Ssh2Channel) : List (Nat × NewChan × Ssh2Channel) → List (Nat × NewChan × Ssh2Channel)
  | [] => [c]
  | d :: ds => if c.1 < d.1 then c :: d :: ds else d :: addChannel c ds

/-- One CHANNEL_OPEN. The packet comes back when the switch is left before pq_pop. -/
def channelOpen (connectErr : Nat → Option String) (s : Layer) (pktin : BinarySource) :
    Option (Layer × Option BinarySource) := do
  let (type, pktin) := pktin.getString
  let (remid, pktin) := pktin.getUint32
  let (winsize, pktin) := pktin.getUint32
  let (pktsize, pktin) := pktin.getUint32
  let (result, s, pktin) ← parseChannelOpen connectErr s type pktin
  match result with
  | .downstream ctx => some ({ s with out := s.out ++ [.downstream ctx pktin.data] }, some pktin)
  | .failure reasonCode wireMessage =>
    some ({ s with out := s.out ++ [.failure remid reasonCode wireMessage] }, none)
  | .success chan =>
    let localid := allocChannelId 256 s.channels
    let c := openChannel s.cfg (.remote .default chan.initialFixedWindowSize remid winsize pktsize)
    some ({ s with
      channels := addChannel (localid, chan, c) s.channels
      out := s.out ++ [.confirmation remid localid (toUInt32 c.locwindow) (toUInt32 ourV2Maxpkt)] }, none)

def filterLoop (connectErr : Nat → Option String) : Nat → Layer → Option Layer
  | 0, _ => none
  | n + 1, s =>
    match s.inPq with
    | [] => some s
    | pktin :: rest => do
      let (s, left) ← channelOpen connectErr s pktin
      filterLoop connectErr n { s with inPq := left.toList ++ rest }

/-- Every round pops a packet or reads on in it, so this many rounds are enough. -/
def rounds (s : Layer) : Nat := (s.inPq.map fun p => p.remaining + 1).sum + 1

def filterQueue (connectErr : Nat → Option String) (s : Layer) : Option Layer := filterLoop connectErr (rounds s) s

/-! ## What becomes of each open -/

/-- The channel number the sender gave. -/
def senderChannel (pktin : BinarySource) : UInt32 := pktin.getString.2.getUint32.1

def Disposes (pktin : BinarySource) : Outcome → Prop
  | .confirmation remoteid _ _ _ => remoteid = senderChannel pktin
  | .failure remoteid _ _ => remoteid = senderChannel pktin
  | .downstream _ data => data = pktin.data

/-- The filter empties the queue, and each packet in it has exactly one outcome. -/
def DisposedOnce (connectErr : Nat → Option String) (s : Layer) : Prop :=
  ∃ s' outs, filterQueue connectErr s = some s' ∧ s'.inPq = [] ∧ s'.out = s.out ++ outs ∧
    List.Forall₂ Disposes s.inPq outs

/-- The forwarding an open of type forwarded-tcpip names. -/
def forwardingKey (pktin : BinarySource) : List UInt8 × UInt32 :=
  let src := pktin.getString.2.getUint32.2.getUint32.2.getUint32.2
  (mkstr src.getString.1, src.getString.2.getUint32.1)

/-- The open asks for no forwarding, or for one that the layer keeps for itself or does not know. -/
def KeptHere (rportfwds : Option (List Rportfwd)) (pktin : BinarySource) : Prop :=
  pktin.getString.1 = forwardedTcpip → ∃ tree, rportfwds = some tree ∧
    ∀ f, find234 tree (forwardingKey pktin).1 (forwardingKey pktin).2 = some f → f.shareCtx = none

/-! ## One open -/

/-- An open that is kept here is answered with its sender's number, and popped. -/
theorem channelOpen_kept (connectErr : Nat → Option String) {s : Layer} {pktin : BinarySource}
    (hk : KeptHere s.rportfwds pktin) :
    ∃ s' o, channelOpen connectErr s pktin = some (s', none) ∧ s'.out = s.out ++ [o] ∧ Disposes pktin o ∧
      s'.rportfwds = s.rportfwds ∧ s'.inPq = s.inPq := by
  obtain ⟨result, s1, src, hparse, hres, hout, hr, hq⟩ : ∃ result s1 src,
      parseChannelOpen connectErr s pktin.getString.1 pktin.getString.2.getUint32.2.getUint32.2.getUint32.2 =
        some (result, s1, src) ∧ (∀ ctx, result ≠ .downstream ctx) ∧ s1.out = s.out ∧ s1.rportfwds = s.rportfwds ∧
        s1.inPq = s.inPq := by
    unfold parseChannelOpen
    by_cases h1 : pktin.getString.1 = x11
    · rw [if_pos h1]
      refine ⟨_, _, _, rfl, fun ctx => ?_, rfl, rfl, rfl⟩
      unfold chanOpenX11; split <;> simp
    rw [if_neg h1]
    by_cases h2 : pktin.getString.1 = forwardedTcpip
    · rw [if_pos h2]
      obtain ⟨tree, htree, hfind⟩ := hk h2
      unfold chanOpenForwardedTcpip
      simp only [htree, Option.bind_eq_bind, Option.bind_some]
      cases hf : find234 tree (forwardingKey pktin).1 (forwardingKey pktin).2 with
      | none =>
        simp only [forwardingKey] at hf
        simp only [hf, Option.bind_some]
        exact ⟨_, _, _, rfl, by simp, rfl, htree, rfl⟩
      | some f =>
        have hs := hfind f hf
        simp only [forwardingKey] at hf
        simp only [hf, hs]
        split
        · exact ⟨_, _, _, rfl, by simp, rfl, rfl, rfl⟩
        · exact ⟨_, _, _, rfl, by simp, rfl, rfl, rfl⟩
    rw [if_neg h2]
    split
    · refine ⟨_, _, _, rfl, fun ctx => ?_, rfl, rfl, rfl⟩
      unfold chanOpenAuthAgent; split <;> simp
    · exact ⟨_, _, _, rfl, by simp, rfl, rfl, rfl⟩
  unfold channelOpen
  simp only [hparse, Option.bind_eq_bind, Option.bind_some]
  cases result with
  | failure reasonCode wireMessage => exact ⟨_, .failure _ _ _, rfl, by rw [hout]; rfl, rfl, hr, hq⟩
  | success chan => exact ⟨_, .confirmation _ _ _ _, rfl, by rw [hout]; rfl, rfl, hr, hq⟩
  | downstream ctx => exact absurd rfl (hres ctx)

/-- Any other meets the missing tree, or is passed on and stays, read on. -/
theorem channelOpen_not_kept (connectErr : Nat → Option String) {s : Layer} {pktin : BinarySource}
    (hk : ¬ KeptHere s.rportfwds pktin) :
    (s.rportfwds = none ∧ channelOpen connectErr s pktin = none) ∨
      ∃ s' src, channelOpen connectErr s pktin = some (s', some src) ∧ src.remaining < pktin.remaining ∧
        s'.out.length = s.out.length + 1 ∧ s'.rportfwds = s.rportfwds := by
  have h2 : pktin.getString.1 = forwardedTcpip := by
    by_contra h2
    exact hk fun h => absurd h h2
  have h1 : forwardedTcpip ≠ x11 := by decide
  unfold channelOpen parseChannelOpen
  simp only [h2, if_neg h1, if_true, chanOpenForwardedTcpip, Option.bind_eq_bind]
  cases htree : s.rportfwds with
  | none => exact .inl ⟨rfl, rfl⟩
  | some tree =>
    obtain ⟨f, hf, hs⟩ : ∃ f, find234 tree (forwardingKey pktin).1 (forwardingKey pktin).2 = some f ∧ f.shareCtx ≠ none := by
      by_contra hno
      exact hk fun _ => ⟨tree, htree, fun f hf => by_contra fun hs => hno ⟨f, hf, hs⟩⟩
    obtain ⟨ctx, hctx⟩ := Option.ne_none_iff_exists'.mp hs
    simp only [forwardingKey] at hf
    simp only [hf, hctx, Option.bind_some]
    refine .inr ⟨_, _, rfl, BinarySource.remaining_lt (by simp) ?_, by simp, htree⟩
    -- the type that was read is not empty
    have hstart := (BinarySource.getString_progress pktin).2 (by rw [h2]; decide)
    refine Nat.lt_of_lt_of_le hstart ?_
    refine Nat.le_trans (BinarySource.getUint32_pos _) (Nat.le_trans (BinarySource.getUint32_pos _) ?_)
    refine Nat.le_trans (BinarySource.getUint32_pos _) (Nat.le_trans (BinarySource.getString_progress _).1 ?_)
    refine Nat.le_trans (BinarySource.getUint32_pos _) (Nat.le_trans (BinarySource.getString_progress _).1 ?_)
    exact BinarySource.getUint32_pos _

/-! ## The queue -/

/-- The rounds the queue needs go down by one at least with every packet popped. -/
theorem rounds_pop {s : Layer} {pktin : BinarySource} {rest : List BinarySource} (hq : s.inPq = pktin :: rest) :
    rounds { s with inPq := rest } < rounds s := by
  simp only [rounds, hq, List.map_cons, List.sum_cons]; omega

/-- A queue of opens that are all kept here is answered packet by packet. -/
theorem filterLoop_kept (connectErr : Nat → Option String) : ∀ {n : Nat} {s : Layer}, rounds s ≤ n →
    (∀ pktin ∈ s.inPq, KeptHere s.rportfwds pktin) →
    ∃ s' outs, filterLoop connectErr n s = some s' ∧ s'.inPq = [] ∧ s'.out = s.out ++ outs ∧
      List.Forall₂ Disposes s.inPq outs
  | 0, s, hn, _ => by simp [rounds] at hn
  | n + 1, s, hn, hk => by
    unfold filterLoop
    cases hq : s.inPq with
    | nil => exact ⟨s, [], rfl, hq, by simp, .nil⟩
    | cons pktin rest =>
      rw [hq] at hk
      obtain ⟨s1, o, h1, hout, hd, hr, -⟩ := channelOpen_kept connectErr (s := s) (hk pktin (by simp))
      have hmeasure : rounds { s1 with inPq := rest } ≤ n := by
        have := rounds_pop hq
        simp only [rounds] at this hn ⊢
        omega
      obtain ⟨s', outs, h2, he, hout', hf⟩ := filterLoop_kept connectErr (s := { s1 with inPq := rest }) hmeasure
        fun p hp => hr ▸ hk p (by simp [hp])
      refine ⟨s', o :: outs, by simpa [h1] using h2, he, ?_, .cons hd hf⟩
      rw [hout']
      simp [hout]

/-- Every round has an outcome, so a queue that is empty in the end had one for each
    packet at least, and no more only if all its opens were kept here. -/
theorem filterLoop_counts (connectErr : Nat → Option String) : ∀ {n : Nat} {s s' : Layer},
    filterLoop connectErr n s = some s' → s.out.length + s.inPq.length ≤ s'.out.length ∧
      (s'.out.length = s.out.length + s.inPq.length → ∀ pktin ∈ s.inPq, KeptHere s.rportfwds pktin)
  | 0, _, _, h => by cases h
  | n + 1, s, s', h => by
    unfold filterLoop at h
    cases hq : s.inPq with
    | nil =>
      rw [hq] at h
      cases h
      simp
    | cons pktin rest =>
      rw [hq] at h
      obtain ⟨⟨s1, left⟩, h1, h2⟩ := Option.bind_eq_some_iff.mp h
      obtain ⟨hle, hall⟩ := filterLoop_counts connectErr h2
      by_cases hk : KeptHere s.rportfwds pktin
      · obtain ⟨s2, o, h1', hout, -, hr, -⟩ := channelOpen_kept connectErr (s := s) hk
        rw [h1'] at h1
        cases h1
        simp only [hout, Option.toList_none, List.nil_append, List.length_append, List.length_cons, List.length_nil] at hle hall ⊢
        refine ⟨by omega, fun e p hp => ?_⟩
        rcases List.mem_cons.mp hp with rfl | hp
        · exact hk
        · exact hr ▸ hall (by omega) p hp
      · -- the packet stays, and the rounds that follow answer it once more
        rcases channelOpen_not_kept connectErr hk with ⟨-, h0⟩ | ⟨s2, src, h0, -, hlen, -⟩ <;> rw [h0] at h1 <;> cases h1
        simp only [Option.toList_some, List.singleton_append, List.length_cons, hlen] at hle ⊢
        exact ⟨by omega, fun e => by omega⟩

/-- Whatever is in the queue, each CHANNEL_OPEN in it has exactly its one outcome and
    leaves it once, and no missing tree is searched, exactly when every open is kept here:
    none asks for a forwarding before there are any, or for a downstream's. -/
theorem disposed_iff (connectErr : Nat → Option String) (s : Layer) :
    DisposedOnce connectErr s ↔ ∀ pktin ∈ s.inPq, KeptHere s.rportfwds pktin := by
  constructor
  · rintro ⟨s', outs, h, -, hout, hf⟩
    have hlen := hf.length_eq
    exact (filterLoop_counts connectErr h).2 (by rw [hout, List.length_append, hlen])
  · exact fun hk => filterLoop_kept connectErr (Nat.le_refl _) hk

/-- A layer with a forwarding (port 80 of any address) that belongs to a downstream, and
    in its queue the server's open for it on channel 5, and nothing more. -/
def sharedOpen : Layer :=
  { cfg := ⟨false, false, false, false, 0x4000⟩, x11FwdEnabled := false, agentFwdEnabled := false, connshare := true
    rportfwds := some [⟨[], 80, [], 0, 0, some 1⟩], channels := [], out := [], connectCalls := 0
    inPq := [.ofData ([0, 0, 0, 15] ++ forwardedTcpip ++ [0, 0, 0, 5, 0, 0, 64, 0, 0, 0, 64, 0] ++
      [0, 0, 0, 0, 0, 0, 0, 80, 0, 0, 0, 0, 0, 0, 0, 22])] }

/-- The open is passed to the downstream, then refused with a channel number of 0. -/
theorem shared_open_answered_twice :
    ¬ ∀ connectErr s, DisposedOnce connectErr s := by
  intro h
  obtain ⟨s', outs, hs, -, hout, hf⟩ := h (fun _ => none) sharedOpen
  have htwo : (filterQueue (fun _ => none) sharedOpen).map (·.out.length) = some 2 := by decide
  rw [hs, Option.map_some, hout, List.length_append, ← hf.length_eq] at htwo
  exact absurd htwo (by decide)

end Putty.Ssh2.ChannelOpen
