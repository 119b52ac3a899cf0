/-
  Putty.Share.Endings — when a downstream's session ends, and whether its connstate goes
  with it (`sshshare.c`, share_got_pkt_from_downstream and share_try_cleanup).

  Which packets end a session is read off the packet and the tables of the connstate
  (`packetEnds`, `gotPktFromDownstream_outcome`). The cleanup at the end keeps the
  connstate just when something of it still waits for the server: a channel that the server
  has not closed, or a forwarding it has not answered for (`Detained`,
  `tryCleanup_freed_iff`).
-/

import Putty.Share.Requests

namespace Putty.Share

open Std Putty.Lib Putty.Utils Putty.Ssh2
open Putty.Ssh2.GlobalRequests (Reply)

/-! ## Packets that end the session -/

/-- A tcpip-forward or cancel-tcpip-forward that is cut short. -/
def globalRequestEnds (pkt : List UInt8) : Bool :=
  let (requestName, src) := (BinarySource.ofData pkt).getString
  let src := src.getBool.2.getString.2.getUint32.2
  (requestName = text "tcpip-forward" || requestName = text "cancel-tcpip-forward") && src.err

/-- The fields of an OPEN_CONFIRMATION run past its end. -/
def truncatedConfirmation (pkt : List UInt8) : Bool :=
  pkt.length < 16 || (BinarySource.ofData pkt).getUint32.2.getUint32.2.getUint32.2.getUint32.2.err

/-- An X11 channel is confirmed with a window that is too small for its greeting. -/
def smallWindow (pkt : List UInt8) : Bool :=
  (BinarySource.ofData pkt).getUint32.2.getUint32.2.getUint32.1.toNat < 256

def confirmationEnds (cs : ConnState) (pkt : List UInt8) : Bool :=
  truncatedConfirmation pkt ||
    (firstId pkt ∉ cs.halfchannels) && ((findXchannelByServer cs (firstId pkt)).isNone || smallWindow pkt)

def failureEnds (cs : ConnState) (pkt : List UInt8) : Bool :=
  (BinarySource.ofData pkt).getUint32.2.err ||
    (firstId pkt ∉ cs.halfchannels) && (findXchannelByServer cs (firstId pkt)).isNone

def truncatedX11Req (src : BinarySource) : Bool :=
  src.getBool.2.getBool.2.getString.2.getString.2.getUint32.2.err

def channelRequestEnds (cs : ConnState) (pkt : List UInt8) (env : Env) : Bool :=
  let (requestName, src) := (BinarySource.ofData pkt).getUint32.2.getString
  let unknown := (findChannelByServer cs (firstId pkt)).isNone
  if requestName = text "auth-agent-req@openssh.com" ∧ !env.agentForwardingPermitted then unknown
  else (requestName = text "x11-req") && (unknown || truncatedX11Req src)

/-- The packet makes the upstream let its downstream go. -/
def packetEnds (cs : ConnState) (type : Msg) (pkt : List UInt8) (env : Env) : Bool :=
  match type with
  | .disconnect | .requestSuccess | .requestFailure | .other _ => true
  | .globalRequest => globalRequestEnds pkt
  | .channelOpen => truncatedOpen pkt
  | .channelOpenConfirmation => confirmationEnds cs pkt
  | .channelOpenFailure => failureEnds cs pkt
  | .channelRequest => channelRequestEnds cs pkt env
  | _ => false

variable {me : Nat} {m m1 : At} {d : Done} {type : Msg} {pkt : List UInt8} {env : Env}

/-- The session goes on. -/
def Stays (m : At) (d : Done) : Prop := ∃ cs, d.2 = some cs ∧ cs.sock = m.cs.sock

/-- The session ends; `m1` is what the packet had made of the upstream by then. -/
def Ends (me : Nat) (m1 : At) (d : Done) : Prop := m1.cs.sock = true ∧ tryCleanup me m1.closeSock = some d

theorem Stays.of_send {out : List Out} : Stays m (m.send out).done := ⟨m.cs, rfl, rfl⟩

theorem refuseRequest_stays {wantReply : Bool} (h : refuseRequest me m wantReply = some d) : Stays m d := by
  obtain ⟨m1, h1, rfl⟩ := Option.map_eq_some_iff.mp h
  obtain ⟨out, rfl⟩ := (sendIfWanted_spec h1).send_eq
  exact .of_send

theorem failChannel_stays {id : Nat} (h : failChannel me m id = some d) : Stays m d := by
  obtain ⟨m1, h1, h2⟩ := Option.bind_eq_some_iff.mp h
  obtain ⟨out, rfl⟩ := (send_spec h1).send_eq
  cases h2
  exact .of_send

theorem confused_ends {err : String} (h : confused me m err = some d) : ∃ out, Ends me (m.send out) d := by
  obtain ⟨hs, out, hc⟩ := shareDisconnect_spec h
  exact ⟨out, hs, hc⟩

/-! ## What the cleanup keeps -/

/-- Something waits for the server: a channel that it has not closed, or a forwarding that it
    has not granted or refused. -/
def Detained (cs : ConnState) : Prop :=
  (∃ (u : Nat) (c : Channel), cs.channelsByUs[u]? = some c ∧ c.state ≠ .rcvdClose) ∨
    ∃ (key : FwdKey) (f : Forwarding), cs.forwardings[key]? = some f ∧ f.active = false

theorem get_erase_fwd {V : Type} {t : FwdTree V} {k l : FwdKey} : (t.erase k)[l]? = if k = l then none else t[l]? := by
  rw [ExtTreeMap.getElem?_erase]
  exact if_congr LawfulEqCmp.compare_eq_iff_eq rfl rfl

theorem cleanupChannel_detained {u : Nat} (h : Detained m.cs) (hc : cleanupChannel me m u = some m1) : Detained m1.cs := by
  obtain ⟨rfl, -⟩ | ⟨c, out, hu, -, rfl⟩ | ⟨c, out, x11, hu, hs, rfl⟩ := cleanupChannel_spec hc
  · exact h
  · refine Or.inl ⟨u, { c with state := .sentClose }, ?_, by simp⟩
    show (m.cs.channelsByUs.modify u _)[u]? = _
    rw [ExtTreeMap.getElem?_modify_self, hu]
    rfl
  · obtain ⟨v, c', hv, hs'⟩ | hf := h
    · refine Or.inl ⟨v, c', ?_, hs'⟩
      show (m.cs.channelsByUs.erase u)[v]? = _
      rw [get_erase, if_neg, hv]
      rintro rfl
      cases hu.symm.trans hv
      exact hs' hs
    · exact Or.inr hf

theorem cleanupForwarding_detained {key : FwdKey} (h : Detained m.cs) (hc : cleanupForwarding me m key = some m1) :
    Detained m1.cs := by
  obtain ⟨rfl, -⟩ | ⟨f, rpf, out, hf, ha, -, -, rfl⟩ := cleanupForwarding_spec hc
  · exact h
  · obtain hch | ⟨key', f', hf', ha'⟩ := h
    · exact Or.inl hch
    · refine Or.inr ⟨key', f', ?_, ha'⟩
      show (m.cs.forwardings.erase key)[key']? = _
      rw [get_erase_fwd, if_neg, hf']
      rintro rfl
      cases hf.symm.trans hf'
      rw [ha] at ha'
      cases ha'

theorem not_idle_of_detained {cs : ConnState} (h : Detained cs) : cs.idle = false := by
  by_contra hi
  obtain ⟨-, hch, hfw⟩ := idle_iff.mp (by simpa using hi)
  obtain ⟨u, c, hu, -⟩ | ⟨key, f, hf, -⟩ := h
  · simp [hch] at hu
  · simp [hfw] at hf

/-- The channel loop takes out each one that the server has closed. -/
theorem cleanupChannels_erased (hch : ∀ (u : Nat) c, m.cs.channelsByUs[u]? = some c → c.state = .rcvdClose) {l : List Nat}
    (h : l.foldlM (cleanupChannel me) m = some m1) :
    m1.cs.halfchannels = m.cs.halfchannels ∧ m1.cs.forwardings = m.cs.forwardings ∧
      ∀ u : Nat, u ∈ m1.cs.channelsByUs → u ∈ m.cs.channelsByUs ∧ u ∉ l := by
  obtain ⟨⟨-, h1, h2⟩, h3⟩ := foldlM_erases (f := cleanupChannel me) (K := fun b u => u ∈ b.cs.channelsByUs)
    (I := fun b => (∀ (u : Nat) c, b.cs.channelsByUs[u]? = some c → c.state = .rcvdClose) ∧
      b.cs.halfchannels = m.cs.halfchannels ∧ b.cs.forwardings = m.cs.forwardings) (fun b u b' hb hu => by
    obtain ⟨rfl, hs⟩ | ⟨c, out, hc, hs, rfl⟩ | ⟨c, out, x11, hc, hs, rfl⟩ := cleanupChannel_spec hu
    · refine ⟨hb, fun hm => ?_, fun _ => id⟩
      obtain ⟨c, hc⟩ := get_of_mem hm
      have := hb.1 u c hc
      rcases hs c hc with hs | hs <;> simp [this] at hs
    · have := hb.1 u c hc
      simp [hs] at this
    · refine ⟨⟨fun v c' hv => ?_, hb.2⟩, fun hm => (mem_erase_nat.mp hm).2 rfl, fun v hv => (mem_erase_nat.mp hv).1⟩
      have hv : (b.cs.channelsByUs.erase u)[v]? = some c' := hv
      rw [get_erase] at hv
      split at hv
      · cases hv
      · exact hb.1 v c' hv) ⟨hch, rfl, rfl⟩ h
  exact ⟨h1, h2, h3⟩

/-- The forwarding loop takes out each one that is active. -/
theorem cleanupForwardings_erased
    (hfw : ∀ (key : FwdKey) (f : Forwarding), m.cs.forwardings[key]? = some f → f.active = true) {l : List FwdKey}
    (h : l.foldlM (cleanupForwarding me) m = some m1) :
    m1.cs.halfchannels = m.cs.halfchannels ∧ m1.cs.channelsByUs = m.cs.channelsByUs ∧
      ∀ key : FwdKey, key ∈ m1.cs.forwardings → key ∈ m.cs.forwardings ∧ key ∉ l := by
  obtain ⟨⟨-, h1, h2⟩, h3⟩ := foldlM_erases (f := cleanupForwarding me) (K := fun b key => key ∈ b.cs.forwardings)
    (I := fun b => (∀ (key : FwdKey) (f : Forwarding), b.cs.forwardings[key]? = some f → f.active = true) ∧
      b.cs.halfchannels = m.cs.halfchannels ∧ b.cs.channelsByUs = m.cs.channelsByUs) (fun b key b' hb hk => by
    obtain ⟨rfl, hs⟩ | ⟨f, rpf, out, hf, ha, -, -, rfl⟩ := cleanupForwarding_spec hk
    · refine ⟨hb, fun hm => ?_, fun _ => id⟩
      rw [ExtTreeMap.mem_iff_isSome_getElem?] at hm
      obtain ⟨f, hf⟩ := Option.isSome_iff_exists.mp hm
      have := hb.1 key f hf
      simp [hs f hf] at this
    · refine ⟨⟨fun k f' hk => ?_, hb.2⟩, fun hm => ?_, fun k hk => ExtTreeMap.mem_of_mem_erase hk⟩
      · have hk : (b.cs.forwardings.erase key)[k]? = some f' := hk
        rw [get_erase_fwd] at hk
        split at hk
        · cases hk
        · exact hb.1 k f' hk
      · have hm : key ∈ b.cs.forwardings.erase key := hm
        simp at hm) ⟨hfw, rfl, rfl⟩ h
  exact ⟨h1, h2, h3⟩

/-- The loops take out everything when nothing waits. -/
theorem idle_of_cleanup {m2 : At} (h : ¬ Detained m.cs)
    (h1 : m.cs.channelsByUs.keys.foldlM (cleanupChannel me) (cleanupHalfchannels me m) = some m1)
    (h2 : m1.cs.forwardings.keys.foldlM (cleanupForwarding me) m1 = some m2) : m2.cs.idle = true := by
  have hch : ∀ (u : Nat) c, m.cs.channelsByUs[u]? = some c → c.state = .rcvdClose := fun u c hu => by
    by_contra hs
    exact h (Or.inl ⟨u, c, hu, hs⟩)
  have hfw : ∀ (key : FwdKey) (f : Forwarding), m.cs.forwardings[key]? = some f → f.active = true := fun key f hf => by
    by_contra ha
    exact h (Or.inr ⟨key, f, hf, eq_false_of_ne_true ha⟩)
  obtain ⟨out, he⟩ := cleanupHalfchannels_spec me m
  rw [he] at h1
  obtain ⟨hh1, hf1, hu1⟩ := cleanupChannels_erased
    (m := ⟨{ m.cl with out := m.cl.out ++ out }, { m.cs with halfchannels := ∅ }⟩) hch h1
  obtain ⟨hh2, hc2, hk2⟩ := cleanupForwardings_erased (fun key f hf => hfw key f (by rw [← hf1]; exact hf)) h2
  refine idle_iff.mpr ⟨hh2.trans hh1, ?_, ?_⟩
  · rw [hc2]
    exact ExtTreeMap.eq_empty_iff_forall_not_mem.mpr fun u hu => (hu1 u hu).2 (ExtTreeMap.mem_keys.mpr (hu1 u hu).1)
  · exact ExtTreeMap.eq_empty_iff_forall_not_mem.mpr fun key hk => (hk2 key hk).2 (ExtTreeMap.mem_keys.mpr (hk2 key hk).1)

/-- The connstate goes just when nothing waits. -/
theorem tryCleanup_freed_iff (h : tryCleanup me m = some d) : d.2 = none ↔ ¬ Detained m.cs := by
  constructor
  · intro hd hw
    obtain ⟨m2, h2, rfl⟩ := tryCleanup_ends (P := fun m => Detained m.cs)
      (fun m1 h1 => by
        obtain ⟨out, he⟩ := cleanupHalfchannels_spec me m1
        rw [he]
        exact h1)
      (fun m1 u m' h1 hu => cleanupChannel_detained h1 hu) (fun m1 key m' h1 hk => cleanupForwarding_detained h1 hk) hw h
    dsimp only at hd
    rw [not_idle_of_detained h2] at hd
    cases hd
  · intro hw
    obtain ⟨m1, m2, h1, h2, rfl⟩ := tryCleanup_spec h
    dsimp only
    rw [if_pos (idle_of_cleanup hw h1 h2)]

theorem tryCleanup_sock {cs : ConnState} (h : tryCleanup me m = some d) (hd : d.2 = some cs) : cs.sock = m.cs.sock := by
  obtain ⟨m2, h2, rfl⟩ := tryCleanup_ends (P := fun m' => m'.cs.sock = m.cs.sock)
    (fun m1 h1 => by
      obtain ⟨out, he⟩ := cleanupHalfchannels_spec me m1
      rw [he]
      exact h1)
    (fun m1 u m' h1 hu => by
      obtain ⟨rfl, -⟩ | ⟨c, out, -, -, rfl⟩ | ⟨c, out, x11, -, -, rfl⟩ := cleanupChannel_spec hu
      · exact h1
      · exact h1
      · exact h1)
    (fun m1 key m' h1 hk => by
      obtain ⟨rfl, -⟩ | ⟨f, rpf, out, -, -, -, -, rfl⟩ := cleanupForwarding_spec hk
      · exact h1
      · exact h1) rfl h
  dsimp only at hd
  split at hd
  · cases hd
  · cases hd
    exact h2

/-- An open channel waits, if there was room for it. -/
theorem addChannel_detained (m : At) (dn u k : Nat) (maxpkt : UInt32) :
    Detained (addChannel m dn u k .opened maxpkt).2.cs ↔
      Detained m.cs ∨ u ∉ m.cs.channelsByUs ∧ k ∉ m.cs.channelsByServer := by
  obtain ⟨o, cs, he, ⟨-, rfl, hcoll⟩ | ⟨-, hu, hs, rfl⟩⟩ := addChannel_spec m dn u k .opened maxpkt
  · rw [he]
    refine ⟨Or.inl, fun h => h.resolve_right fun hno => ?_⟩
    rcases hcoll with hm | ⟨-, hm⟩
    · exact hno.1 hm
    · exact hno.2 hm
  · rw [he]
    refine ⟨fun _ => Or.inr ⟨hu, hs (by simp)⟩, fun _ => Or.inl ⟨u, newChannel m.cl.brk dn k .opened maxpkt, ?_, ?_⟩⟩
    · exact ExtTreeMap.getElem?_insert_self
    · simp [newChannel]

/-! ## What a packet does to its session -/

/-- The channel that a confirmation with too small a window has opened. -/
def LeftOpen (cs : ConnState) (type : Msg) (pkt : List UInt8) : Prop :=
  type = .channelOpenConfirmation ∧ truncatedConfirmation pkt = false ∧ firstId pkt ∉ cs.halfchannels ∧
    ∃ xc, findXchannelByServer cs (firstId pkt) = some xc ∧ xc.upstreamId ∉ cs.channelsByUs ∧
      firstId pkt ∉ cs.channelsByServer

/-- The session ends with the packet, or goes on. -/
def Outcome (me : Nat) (m : At) (type : Msg) (pkt : List UInt8) (env : Env) (d : Done) : Prop :=
  (packetEnds m.cs type pkt env = true ∧
    ∃ m1, Ends me m1 d ∧ (Detained m1.cs ↔ Detained m.cs ∨ LeftOpen m.cs type pkt)) ∨
  packetEnds m.cs type pkt env = false ∧ Stays m d

theorem Outcome.ends (he : packetEnds m.cs type pkt env = true) (hl : ¬ LeftOpen m.cs type pkt) (h : Ends me m1 d)
    (hcs : m1.cs = m.cs) : Outcome me m type pkt env d :=
  Or.inl ⟨he, m1, h, by rw [hcs]; simp [hl]⟩

theorem Outcome.confused {err : String} (he : packetEnds m.cs type pkt env = true) (hl : ¬ LeftOpen m.cs type pkt)
    (h : Share.confused me m err = some d) : Outcome me m type pkt env d := by
  obtain ⟨out, hc⟩ := confused_ends h
  exact .ends he hl hc rfl

theorem globalRequest_outcome (h : globalRequest me m pkt env = some d) : Outcome me m .globalRequest pkt env d := by
  have hl : ¬ LeftOpen m.cs .globalRequest pkt := fun hl => nomatch hl.1
  have hne : text "cancel-tcpip-forward" ≠ text "tcpip-forward" := by decide
  unfold globalRequest at h
  dsimp only at h
  split at h
  · next hn =>
    split at h
    · next ht => exact .confused (by simp [packetEnds, globalRequestEnds, hn, ht]) hl h
    · next ht =>
      refine Or.inr ⟨by simp [packetEnds, globalRequestEnds, eq_false_of_ne_true ht], ?_⟩
      obtain ⟨-, out, rfl⟩ | ⟨-, globreqs, out, -, rfl⟩ := forwardRequest_spec h
      · exact .of_send
      · refine ⟨_, rfl, ?_⟩
        split
        · rfl
        · obtain ⟨globreqHead, hp⟩ := pushGlobreq_spec { m.cs with forwardings := m.cs.forwardings.insert _ ⟨false, m.cl.brk⟩ } _
          rw [hp]
  · next hn =>
    split at h
    · next hc =>
      split at h
      · next ht => exact .confused (by simp [packetEnds, globalRequestEnds, hc, ht]) hl h
      · next ht =>
        refine Or.inr ⟨by simp [packetEnds, globalRequestEnds, eq_false_of_ne_true ht], ?_⟩
        obtain ⟨-, out, rfl⟩ | ⟨fwd, r, globreqs, out, -, -, -, -, rfl⟩ := cancelRequest_spec h
        · exact .of_send
        · obtain ⟨globreqHead, hp⟩ := pushGlobreq_spec m.cs _
          exact ⟨_, rfl, by rw [hp]⟩
    · next hc => exact Or.inr ⟨by simp [packetEnds, globalRequestEnds, hn, hc], refuseRequest_stays h⟩

theorem channelOpen_outcome (h : channelOpen me m pkt = some d) : Outcome me m .channelOpen pkt env d := by
  unfold channelOpen at h
  dsimp only at h
  split at h
  · next he =>
    obtain ⟨out, hc⟩ := confused_ends h
    exact .ends he (fun hl => nomatch hl.1) hc rfl
  · next he =>
    cases h
    exact Or.inr ⟨eq_false_of_ne_true he, _, rfl, addChannel_sock (m := ⟨m.cl.withNew me, m.cs⟩)⟩

theorem channelOpenConfirmation_outcome (h : channelOpenConfirmation me m pkt = some d) :
    Outcome me m .channelOpenConfirmation pkt env d := by
  unfold channelOpenConfirmation at h
  dsimp only at h
  split at h
  · next ht =>
    have ht : truncatedConfirmation pkt = true := by simpa [truncatedConfirmation] using ht
    exact .confused (by simp [packetEnds, confirmationEnds, ht]) (fun hl => by rw [hl.2.1] at ht; cases ht) h
  · next ht =>
    have ht : truncatedConfirmation pkt = false := by
      rw [← Bool.not_eq_true]
      simpa [truncatedConfirmation] using ht
    split at h
    · next hk =>
      cases h
      have hk : firstId pkt ∈ m.cs.halfchannels := hk
      exact Or.inr ⟨by simp [packetEnds, confirmationEnds, ht, hk], _, rfl, addChannel_sock (m := ⟨m.cl.withNew me, m.cs⟩)⟩
    · next hk =>
      have hk : firstId pkt ∉ m.cs.halfchannels := hk
      split at h
      · next hx =>
        have hx : findXchannelByServer m.cs (firstId pkt) = none := hx
        exact .confused (by simp [packetEnds, confirmationEnds, hk, hx])
          (fun ⟨_, _, _, xc, hx', _⟩ => by rw [hx] at hx'; cases hx') h
      · next xc hx =>
        have hx : findXchannelByServer m.cs (firstId pkt) = some xc := hx
        split at h
        · next hw =>
          obtain ⟨out, hc⟩ := confused_ends h
          have hw : smallWindow pkt = true := by simpa [smallWindow] using hw
          refine Or.inl ⟨by simp [packetEnds, confirmationEnds, hk, hw], _, hc, ?_⟩
          refine (addChannel_detained m _ xc.upstreamId (firstId pkt) _).trans (or_congr_right ?_)
          constructor
          · rintro ⟨hu, hs⟩
            exact ⟨rfl, ht, hk, xc, hx, hu, hs⟩
          · rintro ⟨-, -, -, xc', hx', hu, hs⟩
            cases hx.symm.trans hx'
            exact ⟨hu, hs⟩
        · next hw =>
          have hw : smallWindow pkt = false := by
            rw [← Bool.not_eq_true]
            simpa [smallWindow] using hw
          obtain ⟨m2, h1, h2⟩ := Option.bind_eq_some_iff.mp h
          cases h2
          obtain ⟨out, rfl⟩ := xchannelConfirmation_spec h1
          exact Or.inr ⟨by simp [packetEnds, confirmationEnds, ht, hk, hx, hw], _, rfl, addChannel_sock⟩

theorem XAnswer.sock {u k : Nat} (h : XAnswer m u k m1) : m1.cs.sock = m.cs.sock := by
  cases h with
  | stays out xs _ => rfl
  | goes out xs _ => rfl

theorem channelOpenFailure_outcome (h : channelOpenFailure me m pkt = some d) :
    Outcome me m .channelOpenFailure pkt env d := by
  have hl : ¬ LeftOpen m.cs .channelOpenFailure pkt := fun hl => nomatch hl.1
  unfold channelOpenFailure at h
  dsimp only at h
  split at h
  · next ht => exact .confused (by simp [packetEnds, failureEnds, ht]) hl h
  · next ht =>
    split at h
    · next hk =>
      cases h
      have hk : firstId pkt ∈ m.cs.halfchannels := hk
      exact Or.inr ⟨by simp [packetEnds, failureEnds, ht, hk], _, rfl, rfl⟩
    · next hk =>
      have hk : firstId pkt ∉ m.cs.halfchannels := hk
      split at h
      · next hx =>
        have hx : findXchannelByServer m.cs (firstId pkt) = none := hx
        exact .confused (by simp [packetEnds, failureEnds, hk, hx]) hl h
      · next xc hx =>
        have hx : findXchannelByServer m.cs (firstId pkt) = some xc := hx
        cases h
        exact Or.inr ⟨by simp [packetEnds, failureEnds, ht, hx], _, rfl, xchannelFailure_answer.sock⟩

theorem passToServer_stays {serverId : Nat} (h : passToServer me m type pkt serverId = some d) : Stays m d := by
  unfold passToServer at h
  dsimp only at h
  split at h
  · split at h
    · cases h
      exact ⟨_, rfl, rfl⟩
    · next u chan _ =>
      split at h
      · obtain ⟨m1, h1, h2⟩ := Option.bind_eq_some_iff.mp h
        cases h2
        exact ⟨_, rfl, removeChannel_sock (m := ⟨(m.cl.sendPacketFromDownstream me type pkt).deleteSharingChannel u, m.cs⟩) h1⟩
      · cases h
        exact ⟨_, rfl, rfl⟩
  · cases h
    exact ⟨_, rfl, rfl⟩

theorem channelRequest_outcome (h : channelMessage me m .channelRequest pkt env = some d) :
    Outcome me m .channelRequest pkt env d := by
  have hl : ¬ LeftOpen m.cs .channelRequest pkt := fun hl => nomatch hl.1
  unfold channelMessage at h
  dsimp only at h
  by_cases ha : (BinarySource.ofData pkt).getUint32.2.getString.1 = text "auth-agent-req@openssh.com" ∧
      (!env.agentForwardingPermitted) = true
  · rw [if_pos ⟨rfl, ha⟩] at h
    split at h
    · next v chan hf =>
      have hf : findChannelByServer m.cs (firstId pkt) = some (v, chan) := hf
      exact Or.inr ⟨by simp [packetEnds, channelRequestEnds, ha, hf], failChannel_stays h⟩
    · next hf =>
      have hf : findChannelByServer m.cs (firstId pkt) = none := hf
      exact .confused (by simp [packetEnds, channelRequestEnds, ha, hf]) hl h
  · rw [if_neg fun hn => ha hn.2] at h
    have hends : packetEnds m.cs .channelRequest pkt env =
        (decide ((BinarySource.ofData pkt).getUint32.2.getString.1 = text "x11-req") &&
          ((findChannelByServer m.cs (firstId pkt)).isNone ||
            truncatedX11Req (BinarySource.ofData pkt).getUint32.2.getString.2)) := by
      simp only [packetEnds, channelRequestEnds]
      rw [if_neg ha]
    split at h
    · next hx =>
      unfold x11Req at h
      split at h
      · next hf =>
        have hf : findChannelByServer m.cs (firstId pkt) = none := hf
        exact .confused (by simp [hends, hx.2, hf]) hl h
      · next v chan hf =>
        have hf : findChannelByServer m.cs (firstId pkt) = some (v, chan) := hf
        dsimp only at h
        split at h
        · next ht => exact .confused (by simp [hends, hx.2, hf, truncatedX11Req, ht]) hl h
        · next ht =>
          have he : packetEnds m.cs .channelRequest pkt env = false := by
            rw [hends, hf]
            simp [truncatedX11Req, eq_false_of_ne_true ht]
          split at h
          · exact Or.inr ⟨he, failChannel_stays h⟩
          · cases h
            exact Or.inr ⟨he, _, rfl, rfl⟩
    · next hx => exact Or.inr ⟨by rw [hends]; simp at hx; simp [hx], passToServer_stays h⟩

theorem channelMessage_outcome (hne : type ≠ .channelRequest) (h : channelMessage me m type pkt env = some d)
    (he : packetEnds m.cs type pkt env = false) : Outcome me m type pkt env d := by
  unfold channelMessage at h
  dsimp only at h
  rw [if_neg fun hn => hne hn.1, if_neg fun hn => hne hn.1] at h
  exact Or.inr ⟨he, passToServer_stays h⟩

/-- Whether a packet ends its session is decided by `packetEnds`. -/
theorem gotPktFromDownstream_outcome (h : gotPktFromDownstream me m type pkt env = some d) :
    Outcome me m type pkt env d := by
  cases type with
  | disconnect =>
    obtain ⟨hs, hc⟩ := beginCleanup_spec h
    exact .ends rfl (fun hl => nomatch hl.1) ⟨hs, hc⟩ rfl
  | globalRequest => exact globalRequest_outcome h
  | channelOpen => exact channelOpen_outcome h
  | channelOpenConfirmation => exact channelOpenConfirmation_outcome h
  | channelOpenFailure => exact channelOpenFailure_outcome h
  | channelRequest => exact channelRequest_outcome h
  | requestSuccess | requestFailure | other => exact .confused rfl (fun hl => nomatch hl.1) h
  | _ => exact channelMessage_outcome (by simp) h rfl

end Putty.Share
