/-
  Putty.Share.Forwardings — who refers to the records of remote forwardings (`sshshare.c`,
  share_got_pkt_from_downstream, share_got_pkt_from_server and share_try_cleanup;
  `ssh2connection-client.c`, ssh2_rportfwd_alloc and ssh2_rportfwd_remove).

  The record of a downstream's forwarding is made when the downstream asks for it and freed
  when the downstream asks for its end. The connstate's own entry is made with the record,
  becomes active when the server grants the forwarding, and goes when the server refuses it
  or grants its end. So an entry outlives its record from the cancel to the server's answer,
  for ever if the server refuses the cancel, and a record outlives its entry if the server
  refuses the forwarding.

  Proved: `forwardings_live_iff`: a run keeps every active entry with its record and every
  record with its one entry, and frees no record twice, if and only if no forwarding is
  asked for while the downstream still has its entry, none is cancelled while it is active
  or once its record is gone, and the server grants a forwarding exactly if its record is
  still there; and one of our own that is refused has its record.
-/

import Putty.Share.Cleanup

namespace Putty.Share

open Std Putty.Lib Putty.Utils Putty.Ssh2
open Putty.Ssh2.GlobalRequests (Reply queueGlobalRequestHandler filterReply View)

/-! ## What is asked for -/

structure Paired (s : St) : Prop where
  /-- An active entry's record has not been freed. -/
  active : ∀ (a : Nat) cs (key : FwdKey) fwd, s.connections[a]? = some cs → cs.forwardings[key]? = some fwd →
    fwd.active = true → ∃ r, s.cl.rportfwds[key]? = some r ∧ r.addr = fwd.rpf
  /-- A record for a downstream has one entry, of all the entries of all downstreams. -/
  referred : ∀ (key : FwdKey) r a, s.cl.rportfwds[key]? = some r → r.shareCtx = some a →
    ∃! p : Nat × FwdKey, ∃ cs fwd, s.connections[p.1]? = some cs ∧ cs.forwardings[p.2]? = some fwd ∧ fwd.rpf = r.addr

/-- The records that the cleanup of a connstate frees. -/
def activeRecords (forwardings : FwdTree Forwarding) : List (FwdKey × Nat) :=
  forwardings.toList.filterMap fun (key, fwd) => if fwd.active then some (key, fwd.rpf) else none

/-- The record that a cancel frees. -/
def cancelledRecord (cs : ConnState) (pkt : List UInt8) : List (FwdKey × Nat) :=
  match cancelOf pkt with
  | none => []
  | some key => (cs.forwardings[key]?).toList.map fun fwd => (key, fwd.rpf)

/-- A message of the server after which the cleanup is tried again. -/
def retriesCleanup (cs : ConnState) (type : Msg) (pkt : List UInt8) : Bool :=
  !cs.sock && (cs.channelsByUs[firstId pkt]?).any fun chan =>
    (type = .channelOpenConfirmation ∧ chan.state = .unacknowledged ∧ 8 ≤ pkt.length) ∨
      (type = .channelClose ∧ chan.state = .sentClose)

/-- What a downstream's reply frees: the records of what is active once it has been settled,
    if the downstream is gone. -/
def repliedRecords (cs : ConnState) (reply : Reply) : List (FwdKey × Nat) :=
  match cs.globreqHead with
  | [] => []
  | globreq :: _ =>
    if cs.sock then [] else ((settleForwarding cs.forwardings globreq reply).map activeRecords).getD []

/-- The records that an event makes the code free. -/
def removals (s : St) (e : Ev) : List (FwdKey × Nat) :=
  if s.protoError then []
  else
    match e with
    | .packet a type pkt env =>
      match s.connections[a]? with
      | none => []
      | some cs =>
        if !readable s a then []
        else if packetEnds cs type pkt env then activeRecords cs.forwardings
        else if type = .globalRequest then cancelledRecord cs pkt
        else []
    | .malformed a _ => if readable s a then ((s.connections[a]?).map (activeRecords ·.forwardings)).getD [] else []
    | .closing a => if socketOpen s a then ((s.connections[a]?).map (activeRecords ·.forwardings)).getD [] else []
    | .globalReply reply _ =>
      match nextHandler s.cl.globreqs with
      | some (.sharing a) => ((s.connections[a]?).map (repliedRecords · reply)).getD []
      | some (.rportfwd key addr) => if reply = .failure then [(key, addr)] else []
      | none => []
    | .serverMsg type pkt =>
      match s.cl.channels[firstId pkt]? with
      | some (.sharectx a) =>
        ((s.connections[a]?).map fun cs => if retriesCleanup cs type pkt then activeRecords cs.forwardings else []).getD []
      | _ => []
    | .unforwardOurs key => ((s.cl.rportfwds[key]?).filter (·.shareCtx = none)).toList.map fun r => (key, r.addr)
    | _ => []

/-- The event frees a record that has been freed before. -/
def FreesAgain (s : St) (e : Ev) : Prop := ∃ key addr, (key, addr) ∈ removals s e ∧ s.cl.rportfwd key addr = none

/-- Every event of a run, whether it can be carried out or not, is one that `ok` allows. -/
def Asked (ok : St → Ev → Prop) (evs : List Ev) : Prop :=
  ∀ pre e t, pre ++ [e] <+: evs → run step St.init pre = some t → ok t e

/-- In every state of the run the entries and the records fit, and no record is freed twice. -/
structure HandlesLive (evs : List Ev) : Prop where
  live : Reaches step Paired St.init evs
  once : Asked (fun s e => ¬ FreesAgain s e) evs

/-! ## When it is so -/

/-- A forwarding is asked for only if the downstream has no entry for it, and cancelled only
    if it is not active; the server grants one exactly if its record is still there. -/
def Timely (s : St) : Ev → Prop
  | .packet a .globalRequest pkt _ => s.protoError = false → ∀ cs, s.connections[a]? = some cs →
      (∀ key, forwardOf pkt = some key → key ∉ s.cl.rportfwds → key ∉ cs.forwardings) ∧
      ∀ key fwd, cancelOf pkt = some key → cs.forwardings[key]? = some fwd → fwd.active = false
  | .globalReply reply _ => s.protoError = false → ∀ (a : Nat) cs globreq rest, nextHandler s.cl.globreqs = some (.sharing a) →
      s.connections[a]? = some cs → cs.globreqHead = globreq :: rest → globreq.type = .tcpipForward →
      (reply = .success ↔ (s.cl.rportfwd globreq.fwd globreq.rpf).isSome)
  | _ => True

/-- A cancel finds the record of its forwarding, and so does a grant of one whose downstream
    is gone, and a refusal of one of our own. -/
def RecordThere (s : St) : Ev → Prop
  | .packet a .globalRequest pkt _ => s.protoError = false → readable s a = true → ∀ cs key fwd, s.connections[a]? = some cs →
      cancelOf pkt = some key → cs.forwardings[key]? = some fwd → (s.cl.rportfwd key fwd.rpf).isSome
  | .globalReply reply _ => s.protoError = false →
      (∀ key addr, nextHandler s.cl.globreqs = some (.rportfwd key addr) → reply = .failure → (s.cl.rportfwd key addr).isSome) ∧
      ∀ (a : Nat) cs globreq rest fwd, nextHandler s.cl.globreqs = some (.sharing a) → s.connections[a]? = some cs →
        cs.globreqHead = globreq :: rest → globreq.type = .tcpipForward → reply = .success → cs.sock = false →
        cs.forwardings[globreq.fwd]? = some fwd → fwd.rpf = globreq.rpf → (s.cl.rportfwd globreq.fwd globreq.rpf).isSome
  | _ => True

/-! ## The invariant -/

/-- Addresses are given out once, and the records that our own requests are about are ours. -/
structure Layer (cl : ConnectionLayer) : Prop where
  view : ∃ hs, View cl.globreqs hs
  addr_lt : ∀ (key : FwdKey) r, cl.rportfwds[key]? = some r → r.addr < cl.brk
  addr_inj : ∀ (key key' : FwdKey) r r', cl.rportfwds[key]? = some r → cl.rportfwds[key']? = some r' → r.addr = r'.addr → key = key'
  ours : ∀ key addr, Handler.rportfwd key addr ∈ cl.globreqs.queued →
    addr < cl.brk ∧ ∀ (k : FwdKey) r, cl.rportfwds[k]? = some r → r.addr = addr → r.shareCtx = none

/-- The record at this address has been freed. -/
def Freed (cl : ConnectionLayer) (addr : Nat) : Prop :=
  addr < cl.brk ∧ ∀ (key : FwdKey) r, cl.rportfwds[key]? = some r → r.addr ≠ addr

/-- The entries of a connstate and the records that are for it: an entry has its record, or
    is not active and its record is gone; a cancel that is unanswered has freed its record. -/
structure Entries (a : Nat) (cl : ConnectionLayer) (cs : ConnState) : Prop where
  entry : ∀ (key : FwdKey) fwd, cs.forwardings[key]? = some fwd →
    cl.rportfwds[key]? = some ⟨fwd.rpf, some a⟩ ∨ fwd.active = false ∧ Freed cl fwd.rpf
  record : ∀ (key : FwdKey) addr, cl.rportfwds[key]? = some ⟨addr, some a⟩ → ∃ fwd, cs.forwardings[key]? = some fwd ∧ fwd.rpf = addr
  cancels : ∀ globreq ∈ cs.globreqHead, globreq.type = .cancelTcpipForward → Freed cl globreq.rpf

def NoRecord (a : Nat) (cl : ConnectionLayer) : Prop := ∀ (key : FwdKey) addr, cl.rportfwds[key]? ≠ some ⟨addr, some a⟩

structure Handles (s : St) : Prop where
  layer : Layer s.cl
  each : ∀ (a : Nat) cs, s.connections[a]? = some cs → Entries a s.cl cs
  strays : ∀ a : Nat, a ∉ s.connections → NoRecord a s.cl
  fresh : ∀ a : Nat, s.cl.brk ≤ a → a ∉ s.connections

/-- Nothing changes for the connstate `b`. -/
structure Unaffected (b : Nat) (cl cl' : ConnectionLayer) : Prop where
  brk : cl.brk ≤ cl'.brk
  same : ∀ (key : FwdKey) addr, cl'.rportfwds[key]? = some ⟨addr, some b⟩ ↔ cl.rportfwds[key]? = some ⟨addr, some b⟩
  new : ∀ (key : FwdKey) r, cl'.rportfwds[key]? = some r → cl.rportfwds[key]? = some r ∨ cl.brk ≤ r.addr

variable {s s' : St} {a b : Nat} {cs cs' : ConnState} {cl cl' cl'' : ConnectionLayer} {m m1 : At} {d : Done} {key : FwdKey}
  {fwd : Forwarding} {type : Msg} {pkt : List UInt8} {env : Env} {reply : Reply}

namespace Unaffected

theorem of_eq (h : cl'.rportfwds = cl.rportfwds) (hb : cl.brk ≤ cl'.brk) : Unaffected b cl cl' :=
  ⟨hb, fun _ _ => by rw [h], fun _ _ hr => Or.inl (h ▸ hr)⟩

theorem trans (h : Unaffected b cl cl') (h' : Unaffected b cl' cl'') : Unaffected b cl cl'' := by
  refine ⟨Nat.le_trans h.brk h'.brk, fun key addr => (h'.same key addr).trans (h.same key addr), fun key r hr => ?_⟩
  rcases h'.new key r hr with hr | hr
  · exact h.new key r hr
  · exact Or.inr (Nat.le_trans h.brk hr)

/-- A record of another goes. -/
theorem erase {r : SshRportfwd} (hr : cl.rportfwds[key]? = some r) (hne : r.shareCtx ≠ some b)
    (h : cl'.rportfwds = cl.rportfwds.erase key) (hb : cl.brk ≤ cl'.brk) : Unaffected b cl cl' := by
  refine ⟨hb, fun k addr => ?_, fun k r' hk => ?_⟩
  · rw [h, get_erase_fwd]
    split
    · next he =>
      subst he
      rw [hr]
      exact ⟨(nomatch ·), fun he => absurd (congrArg SshRportfwd.shareCtx (Option.some.inj he)) hne⟩
    · exact Iff.rfl
  · rw [h, get_erase_fwd] at hk
    split at hk
    · cases hk
    · exact Or.inl hk

/-- A record of another is made. -/
theorem insert {ctx : Option Nat} (hk : key ∉ cl.rportfwds) (hne : ctx ≠ some b)
    (h : cl'.rportfwds = cl.rportfwds.insert key ⟨cl.brk, ctx⟩) (hb : cl.brk ≤ cl'.brk) : Unaffected b cl cl' := by
  refine ⟨hb, fun k addr => ?_, fun k r' hr => ?_⟩
  · rw [h, get_insert_fwd]
    split
    · next he =>
      subst he
      refine ⟨fun he => absurd (congrArg SshRportfwd.shareCtx (Option.some.inj he)) hne, fun he => absurd ?_ hk⟩
      rw [ExtTreeMap.mem_iff_isSome_getElem?, he]
      rfl
    · exact Iff.rfl
  · rw [h, get_insert_fwd] at hr
    split at hr
    · cases hr
      exact Or.inr (Nat.le_refl _)
    · exact Or.inl hr

end Unaffected

theorem Freed.frame {addr : Nat} (h : Freed cl addr) (hb : cl.brk ≤ cl'.brk)
    (hn : ∀ (key : FwdKey) r, cl'.rportfwds[key]? = some r → cl.rportfwds[key]? = some r ∨ cl.brk ≤ r.addr) : Freed cl' addr := by
  refine ⟨Nat.lt_of_lt_of_le h.1 hb, fun key r hr he => ?_⟩
  rcases hn key r hr with hr | hr
  · exact h.2 key r hr he
  · exact absurd h.1 (by omega)

theorem Freed.spared {addr : Nat} (h : Freed cl addr) (hs : Unaffected b cl cl') : Freed cl' addr := h.frame hs.brk hs.new

theorem Entries.spared (h : Entries b cl cs) (hs : Unaffected b cl cl') : Entries b cl' cs := by
  refine ⟨fun key fwd hf => ?_, fun key addr hr => h.record key addr ((hs.same key addr).mp hr), fun g hg hc => (h.cancels g hg hc).spared hs⟩
  rcases h.entry key fwd hf with hr | ⟨hi, hf⟩
  · exact Or.inl ((hs.same key fwd.rpf).mpr hr)
  · exact Or.inr ⟨hi, hf.spared hs⟩

theorem NoRecord.spared (h : NoRecord b cl) (hs : Unaffected b cl cl') : NoRecord b cl' :=
  fun key addr hr => h key addr ((hs.same key addr).mp hr)

/-- Records go, or none do. -/
theorem Layer.shrink (h : Layer cl) (hb : cl.brk ≤ cl'.brk) (hv : ∃ hs, View cl'.globreqs hs)
    (hr : ∀ (key : FwdKey) r, cl'.rportfwds[key]? = some r → cl.rportfwds[key]? = some r)
    (hq : ∀ key addr, Handler.rportfwd key addr ∈ cl'.globreqs.queued → Handler.rportfwd key addr ∈ cl.globreqs.queued) : Layer cl' := by
  refine ⟨hv, fun key r hk => Nat.lt_of_lt_of_le (h.addr_lt key r (hr key r hk)) hb,
    fun key key' r r' hk hk' => h.addr_inj key key' r r' (hr key r hk) (hr key' r' hk'), fun key addr hm => ?_⟩
  obtain ⟨hlt, hn⟩ := h.ours key addr (hq key addr hm)
  exact ⟨Nat.lt_of_lt_of_le hlt hb, fun k r hk => hn k r (hr k r hk)⟩

/-- A record is made, and a handler queued. -/
theorem Layer.insert {ctx : Option Nat} (h : Layer cl) (hk : key ∉ cl.rportfwds) (hb : cl'.brk = cl.brk + 1)
    (hr : cl'.rportfwds = cl.rportfwds.insert key ⟨cl.brk, ctx⟩) (hv : ∃ hs, View cl'.globreqs hs)
    (hq : ∀ k addr, Handler.rportfwd k addr ∈ cl'.globreqs.queued →
      Handler.rportfwd k addr ∈ cl.globreqs.queued ∨ addr = cl.brk ∧ ctx = none) : Layer cl' := by
  have hget : ∀ (k : FwdKey) r, cl'.rportfwds[k]? = some r → k = key ∧ r = ⟨cl.brk, ctx⟩ ∨ cl.rportfwds[k]? = some r ∧ r.addr < cl.brk := by
    intro k r hkr
    rw [hr, get_insert_fwd] at hkr
    split at hkr
    · next he =>
      cases hkr
      exact Or.inl ⟨he.symm, rfl⟩
    · exact Or.inr ⟨hkr, h.addr_lt k r hkr⟩
  refine ⟨hv, fun k r hkr => ?_, fun k k' r r' hkr hkr' he => ?_, fun k addr hm => ?_⟩
  · rcases hget k r hkr with ⟨-, rfl⟩ | ⟨-, hlt⟩
    · show cl.brk < cl'.brk
      omega
    · omega
  · rcases hget k r hkr with ⟨rfl, rfl⟩ | ⟨hold, hlt⟩
    · rcases hget k' r' hkr' with ⟨rfl, -⟩ | ⟨-, hlt⟩
      · rfl
      · dsimp only at he
        omega
    · rcases hget k' r' hkr' with ⟨rfl, rfl⟩ | ⟨hold', -⟩
      · dsimp only at he
        omega
      · exact h.addr_inj k k' r r' hold hold' he
  · rcases hq k addr hm with hm | ⟨rfl, hn⟩
    · obtain ⟨hlt, hnone⟩ := h.ours k addr hm
      refine ⟨by omega, fun k' r hkr he => ?_⟩
      rcases hget k' r hkr with ⟨-, rfl⟩ | ⟨hold, -⟩
      · dsimp only at he
        omega
      · exact hnone k' r hold he
    · refine ⟨by omega, fun k' r hkr he => ?_⟩
      rcases hget k' r hkr with ⟨-, rfl⟩ | ⟨-, hlt⟩
      · exact hn
      · omega

/-! ## Calls for a connstate -/

/-- What a call leaves of the connection layer and the connstate. -/
structure Tended (a : Nat) (m : At) (d : Done) : Prop where
  brk : m.cl.brk ≤ d.1.brk
  layer : Layer d.1
  stays : ∀ cs, d.2 = some cs → Entries a d.1 cs
  goes : d.2 = none → NoRecord a d.1
  spares : ∀ b, b ≠ a → Unaffected b m.cl d.1

theorem Entries.congr (h : Entries a cl cs) (h1 : cl'.rportfwds = cl.rportfwds) (h2 : cl.brk ≤ cl'.brk) (h3 : cs'.forwardings = cs.forwardings)
    (h4 : ∀ g ∈ cs'.globreqHead, g ∈ cs.globreqHead) : Entries a cl' cs' := by
  have hsp : Unaffected a cl cl' := .of_eq h1 h2
  obtain ⟨he, hr, hc⟩ := h.spared hsp
  exact ⟨h3 ▸ he, h3 ▸ hr, fun g hg => hc g (h4 g hg)⟩

/-- The forwardings and their records are as they were. -/
structure Untouched (m : At) (d : Done) : Prop where
  rportfwds : d.1.rportfwds = m.cl.rportfwds
  disturbed : Undisturbed m d
  cs : ∃ cs, d.2 = some cs ∧ cs.forwardings = m.cs.forwardings

theorem Untouched.tended (h : Untouched m d) (hl : Layer m.cl) (ho : Entries a m.cl m.cs) : Tended a m d := by
  obtain ⟨cs, hd, hf⟩ := h.cs
  have hg := h.disturbed.globreqs
  have hb := h.disturbed.brk
  refine ⟨hb, hl.shrink hb (hg ▸ hl.view) (fun key r hr => h.rportfwds ▸ hr) (fun key addr hm => hg ▸ hm), fun cs' hd' => ?_,
    (fun hn => nomatch hd.symm.trans hn), fun b _ => .of_eq h.rportfwds hb⟩
  cases hd.symm.trans hd'
  exact ho.congr h.rportfwds hb hf fun g hg => (h.disturbed.lists cs hd).1 ▸ hg

theorem Untouched.same (h1 : m1.cl.rportfwds = m.cl.rportfwds) (h2 : m1.cs.forwardings = m.cs.forwardings)
    (hu : Undisturbed m m1.done) : Untouched m m1.done := ⟨h1, hu, m1.cs, rfl, h2⟩

theorem Tended.after {n : At} (h : Tended a n d) (hb : m.cl.brk ≤ n.cl.brk) (hs : ∀ b, b ≠ a → Unaffected b m.cl n.cl) : Tended a m d :=
  ⟨Nat.le_trans hb h.brk, h.layer, h.stays, h.goes, fun b hne => (hs b hne).trans (h.spares b hne)⟩

/-- An entry goes, and its record with it if it has one. -/
theorem Entries.erase (h : Entries a cl cs) (hf : cs.forwardings[key]? = some fwd) (hcs : cs'.forwardings = cs.forwardings.erase key)
    (hg : ∀ g ∈ cs'.globreqHead, g ∈ cs.globreqHead) (hb : cl.brk ≤ cl'.brk)
    (hr : ∀ k : FwdKey, k ≠ key → cl'.rportfwds[k]? = cl.rportfwds[k]?) (hn : cl'.rportfwds[key]? ≠ some ⟨fwd.rpf, some a⟩)
    (hsub : ∀ (k : FwdKey) r, cl'.rportfwds[k]? = some r → cl.rportfwds[k]? = some r) : Entries a cl' cs' := by
  have hfreed : ∀ addr, Freed cl addr → Freed cl' addr := fun addr h => h.frame hb fun k r hk => Or.inl (hsub k r hk)
  refine ⟨fun k f hk => ?_, fun k addr hk => ?_, fun g hm hc => hfreed _ (h.cancels g (hg g hm) hc)⟩
  · rw [hcs, get_erase_fwd] at hk
    split at hk
    · cases hk
    · next hne =>
      rcases h.entry k f hk with hrec | ⟨hi, hfr⟩
      · exact Or.inl ((hr k fun he => hne he.symm).trans hrec)
      · exact Or.inr ⟨hi, hfreed _ hfr⟩
  · obtain ⟨f, hk', he⟩ := h.record k addr (hsub k _ hk)
    by_cases hkey : k = key
    · subst hkey
      cases hf.symm.trans hk'
      exact absurd (he ▸ hk) hn
    · exact ⟨f, by rw [hcs, get_erase_fwd, if_neg fun he => hkey he.symm, hk'], he⟩

/-- One round of the loop over the entries. -/
theorem cleanupForwarding_own (hl : Layer m.cl) (ho : Entries a m.cl m.cs) (h : cleanupForwarding a m key = some m1) :
    Layer m1.cl ∧ Entries a m1.cl m1.cs ∧ m.cl.brk ≤ m1.cl.brk ∧ ∀ b, b ≠ a → Unaffected b m.cl m1.cl := by
  obtain ⟨rfl, -⟩ | ⟨f, r, out, hf, hact, hr, haddr, rfl⟩ := cleanupForwarding_spec h
  · exact ⟨hl, ho, Nat.le_refl _, fun b _ => .of_eq rfl (Nat.le_refl _)⟩
  have hctx : r = ⟨f.rpf, some a⟩ := by
    rcases ho.entry key f hf with hrec | ⟨hi, -⟩
    · exact Option.some.inj (hr.symm.trans hrec)
    · rw [hact] at hi
      cases hi
  subst hctx
  have hsub : ∀ (k : FwdKey) r, (m.cl.rportfwds.erase key)[k]? = some r → m.cl.rportfwds[k]? = some r := fun k r hk => by
    rw [get_erase_fwd] at hk
    split at hk
    · cases hk
    · exact hk
  refine ⟨hl.shrink (Nat.le_refl _) hl.view hsub fun _ _ => id, ho.erase hf rfl (fun _ => id) (Nat.le_refl _) (fun k hk => ?_) ?_ hsub,
    Nat.le_refl _, fun b hne => .erase hr (fun he => hne (Option.some.inj he).symm) rfl (Nat.le_refl _)⟩
  · show (m.cl.rportfwds.erase key)[k]? = _
    rw [get_erase_fwd, if_neg fun he => hk he.symm]
  · show (m.cl.rportfwds.erase key)[key]? ≠ _
    rw [get_erase_fwd, if_pos rfl]
    exact nofun

theorem tryCleanup_tended (hl : Layer m.cl) (ho : Entries a m.cl m.cs) (h : tryCleanup a m = some d) : Tended a m d := by
  obtain ⟨m2, ⟨hl2, ho2, hb2, hs2⟩, rfl⟩ := tryCleanup_ends
    (P := fun m' => Layer m'.cl ∧ Entries a m'.cl m'.cs ∧ m.cl.brk ≤ m'.cl.brk ∧ ∀ b, b ≠ a → Unaffected b m.cl m'.cl)
    (fun m1 h1 => by
      obtain ⟨out, he⟩ := cleanupHalfchannels_spec a m1
      rw [he]
      exact ⟨h1.1.shrink (Nat.le_refl _) h1.1.view (fun _ _ => id) fun _ _ => id,
        h1.2.1.congr rfl (Nat.le_refl _) rfl fun _ => id, h1.2.2.1, fun b hne => (h1.2.2.2 b hne).trans (.of_eq rfl (Nat.le_refl _))⟩)
    (fun m1 u m' h1 hu => by
      have hkeep : m'.cl.rportfwds = m1.cl.rportfwds ∧ m'.cl.brk = m1.cl.brk ∧ m'.cl.globreqs = m1.cl.globreqs ∧
          m'.cs.forwardings = m1.cs.forwardings ∧ m'.cs.globreqHead = m1.cs.globreqHead := by
        obtain ⟨rfl, -⟩ | ⟨c, out, -, -, rfl⟩ | ⟨c, out, x11, -, -, rfl⟩ := cleanupChannel_spec hu
        · exact ⟨rfl, rfl, rfl, rfl, rfl⟩
        · exact ⟨rfl, rfl, rfl, rfl, rfl⟩
        · exact ⟨rfl, rfl, rfl, rfl, rfl⟩
      obtain ⟨e1, e2, e3, e4, e5⟩ := hkeep
      have hle := Nat.le_of_eq e2.symm
      exact ⟨h1.1.shrink hle (e3 ▸ h1.1.view) (fun k r hk => e1 ▸ hk) (fun k addr hm => e3 ▸ hm),
        h1.2.1.congr e1 hle e4 fun g hg => e5 ▸ hg, Nat.le_trans h1.2.2.1 hle, fun b hne => (h1.2.2.2 b hne).trans (.of_eq e1 hle)⟩)
    (fun m1 key m' h1 hk => by
      obtain ⟨hl', ho', hb', hs'⟩ := cleanupForwarding_own h1.1 h1.2.1 hk
      exact ⟨hl', ho', Nat.le_trans h1.2.2.1 hb', fun b hne => (h1.2.2.2 b hne).trans (hs' b hne)⟩)
    ⟨hl, ho, Nat.le_refl _, fun b _ => .of_eq rfl (Nat.le_refl _)⟩ h
  refine ⟨hb2, hl2, fun cs hd => ?_, fun hd key addr hr => ?_, hs2⟩
  · dsimp only at hd
    split at hd
    · cases hd
    · cases hd
      exact ho2
  · dsimp only at hd
    split at hd
    · next hidle =>
      obtain ⟨f, hf, -⟩ := ho2.record key addr hr
      rw [(idle_iff.mp hidle).2.2] at hf
      simp at hf
    · cases hd

theorem retryCleanup_tended (hl : Layer m.cl) (ho : Entries a m.cl m.cs) (h : retryCleanup a m = some d) : Tended a m d := by
  unfold retryCleanup at h
  split at h
  · cases h
    exact Untouched.tended (.same rfl rfl (.same rfl rfl rfl rfl)) hl ho
  · exact tryCleanup_tended hl ho h

/-! ## What leaves the forwardings alone -/

theorem addChannel_untouched (m : At) (dn u k : Nat) (state : ChanState) (maxpkt : UInt32) :
    Untouched m (addChannel m dn u k state maxpkt).2.done := by
  have hu := addChannel_undisturbed m dn u k state maxpkt
  obtain ⟨o, cs, he, ⟨-, rfl, -⟩ | ⟨-, -, -, rfl⟩⟩ := addChannel_spec m dn u k state maxpkt
  · rw [he] at hu ⊢
    exact .same rfl rfl hu
  · rw [he] at hu ⊢
    exact .same rfl rfl hu

theorem Untouched.trans {n : At} (h : Untouched m n.done) (h' : Untouched n d) : Untouched m d := by
  obtain ⟨cs, hd, hf⟩ := h.cs
  obtain ⟨cs', hd', hf'⟩ := h'.cs
  cases hd
  exact ⟨h'.rportfwds.trans h.rportfwds, h.disturbed.trans h'.disturbed, cs', hd', hf'.trans hf⟩

theorem Untouched.frame (h1 : m1.cl.rportfwds = m.cl.rportfwds) (h2 : m1.cs.forwardings = m.cs.forwardings)
    (h3 : m1.cl.globreqs = m.cl.globreqs) (h4 : m.cl.brk ≤ m1.cl.brk) (h5 : m1.cs.globreqHead = m.cs.globreqHead)
    (h6 : m1.cs.globreqTail = m.cs.globreqTail) : Untouched m m1.done := .same h1 h2 (.of_eq h3 h4 h5 h6)

/-- Such a call and then the cleanup. -/
theorem Untouched.cleaned (h : Untouched m m1.done) (hl : Layer m.cl) (ho : Entries a m.cl m.cs) (ht : tryCleanup a m1.closeSock = some d) :
    Tended a m d := by
  have hm := h.tended hl ho
  have hown := hm.stays m1.cs rfl
  exact (tryCleanup_tended (m := m1.closeSock) hm.layer ⟨hown.entry, hown.record, hown.cancels⟩ ht).after hm.brk hm.spares

theorem removeChannel_untouched {u : Nat} {c : Channel} (h : removeChannel m u c = some m1) : Untouched m m1.done := by
  obtain ⟨h1, x11, h2⟩ := removeChannel_spec h
  exact .same (by rw [h2]) (by rw [h1]) (removeChannel_undisturbed h)

theorem XAnswer.untouched {u k : Nat} (h : XAnswer m u k m1) : Untouched m m1.done := by
  have hu := h.undisturbed
  cases h with
  | stays out xs _ => exact .same rfl rfl hu
  | goes out xs _ => exact .same rfl rfl hu

theorem setupX11Channel_untouched {u : Nat} {auth : X11FakeAuth} {x : X11Setup}
    (h : setupX11Channel a m u auth x = some m1) : Untouched m m1.done := by
  have hu := setupX11Channel_undisturbed h
  obtain ⟨chan, window, msgs, cs, out, -, -, -, hx, rfl⟩ := setupX11Channel_spec h
  obtain ⟨-, -, rfl⟩ := addXchannel_spec hx
  split at hu
  · next ho =>
    rw [if_pos ho]
    exact .same rfl rfl hu
  · next ho =>
    rw [if_neg ho]
    exact .same rfl rfl hu

theorem Untouched.retried (h : Untouched m m1.done) (hl : Layer m.cl) (ho : Entries a m.cl m.cs) (ht : retryCleanup a m1 = some d) :
    Tended a m d := by
  have hm := h.tended hl ho
  exact (retryCleanup_tended hm.layer (hm.stays m1.cs rfl) ht).after hm.brk hm.spares

/-- Packets other than global requests. -/
theorem Handled.tended (ht : type ≠ .globalRequest) (hl : Layer m.cl) (ho : Entries a m.cl m.cs) (h : Handled a m type pkt d) :
    Tended a m d := by
  cases h with
  | ended out _ hc =>
    have h1 : Untouched m (m.send out).done := .frame rfl rfl rfl (Nat.le_refl _) rfl rfl
    exact h1.cleaned hl ho hc
  | openTruncated out _ _ _ hc =>
    have h1 : Untouched m (At.send ⟨m.cl.withNew a, m.cs⟩ out).done := .frame rfl rfl rfl (Nat.le_refl _) rfl rfl
    exact h1.cleaned hl ho hc
  | opened oldId maxpkt out _ _ =>
    have h1 := addChannel_untouched ⟨m.cl.withNew a, m.cs⟩ oldId m.cl.allocChannelId 0 .unacknowledged maxpkt
    have h2 : Untouched m (At.mk (m.cl.withNew a) m.cs).done := .frame rfl rfl rfl (Nat.le_refl _) rfl rfl
    refine ((h2.trans h1).trans ?_).tended hl ho
    exact .frame rfl rfl rfl (Nat.le_refl _) rfl rfl
  | confirmedHalf oldId maxpkt m1 out _ _ hm =>
    have h1 := addChannel_untouched ⟨m.cl.withNew a, m.cs⟩ oldId m.cl.allocChannelId (firstId pkt) .opened maxpkt
    have h2 : Untouched m (At.mk (m.cl.withNew a) m.cs).done := .frame rfl rfl rfl (Nat.le_refl _) rfl rfl
    subst hm
    refine ((h2.trans h1).trans ?_).tended hl ho
    exact .frame rfl rfl rfl (Nat.le_refl _) rfl rfl
  | confirmedX xc oldId maxpkt chan m1 m2 window _ _ hadd hx =>
    have h1 := addChannel_untouched m oldId xc.upstreamId (firstId pkt) .opened maxpkt
    rw [hadd] at h1
    obtain ⟨out, rfl⟩ := xchannelConfirmation_spec hx
    refine (h1.trans ?_).tended hl ho
    exact .frame rfl rfl rfl (Nat.le_refl _) rfl rfl
  | windowTooSmall xc oldId maxpkt chan m1 out _ _ hadd _ hc =>
    have h1 := addChannel_untouched m oldId xc.upstreamId (firstId pkt) .opened maxpkt
    rw [hadd] at h1
    have h2 : Untouched m1 (m1.send out).done := .frame rfl rfl rfl (Nat.le_refl _) rfl rfl
    exact (h1.trans h2).cleaned hl ho hc
  | refusedX xc _ _ => exact xchannelFailure_answer.untouched.tended hl ho
  | forwarded _ _ _ _ _ _ _ h => exact absurd h ht
  | cancelled _ _ _ _ _ _ _ h => exact absurd h ht
  | closedBoth u chan out m1 _ _ _ hr =>
    have h1 : Untouched m (At.send ⟨m.cl.deleteSharingChannel u, m.cs⟩ out).done := .frame rfl rfl rfl (Nat.le_refl _) rfl rfl
    exact (h1.trans (removeChannel_untouched hr)).tended hl ho
  | x11 u chan single out _ _ => exact Untouched.tended (.frame rfl rfl rfl (Nat.le_succ _) rfl rfl) hl ho
  | _ => exact Untouched.tended (.frame rfl rfl rfl (Nat.le_refl _) rfl rfl) hl ho

theorem Served.tended (hl : Layer m.cl) (ho : Entries a m.cl m.cs) (h : Served a m type pkt d) : Tended a m d := by
  cases h with
  | acknowledged c out _ _ _ _ hr =>
    have h1 : Untouched m (At.send ⟨m.cl, channelSetServerId m.cs (firstId pkt) (senderId pkt) .opened⟩ out).done :=
      .frame rfl rfl rfl (Nat.le_refl _) rfl rfl
    exact h1.retried hl ho hr
  | openFailed c out m1 _ _ hr =>
    have h1 : Untouched m (At.send ⟨m.cl.deleteSharingChannel (firstId pkt), m.cs⟩ out).done :=
      .frame rfl rfl rfl (Nat.le_refl _) rfl rfl
    exact (h1.trans (removeChannel_untouched hr)).tended hl ho
  | closedBoth c out m1 _ _ _ hr hb =>
    have h1 : Untouched m (At.send ⟨m.cl.deleteSharingChannel (firstId pkt), m.cs⟩ out).done :=
      .frame rfl rfl rfl (Nat.le_refl _) rfl rfl
    exact (h1.trans (removeChannel_untouched hr)).retried hl ho hb
  | xchannel xc _ _ => exact gotXchannelMsg_answer.untouched.tended hl ho
  | _ => exact Untouched.tended (.frame rfl rfl rfl (Nat.le_refl _) rfl rfl) hl ho

/-! ## Requests -/

theorem pushGlobreq_mem {globreq g : Globreq} (h : g ∈ (pushGlobreq cs globreq).globreqHead) : g ∈ cs.globreqHead ∨ g = globreq := by
  unfold pushGlobreq at h
  split at h
  · simpa using h
  · exact Or.inr (by simpa using h)

theorem pushGlobreq_forwardings (cs : ConnState) (globreq : Globreq) : (pushGlobreq cs globreq).forwardings = cs.forwardings := by
  obtain ⟨l, h⟩ := pushGlobreq_spec cs globreq
  rw [h]

/-- A forwarding is asked for that the downstream has no entry for. -/
theorem Entries.forward {globreq : Globreq} (h : Entries a cl cs) (hb : cl'.brk = cl.brk + 1)
    (hr : cl'.rportfwds = cl.rportfwds.insert key ⟨cl.brk, some a⟩) (ht : globreq.type = .tcpipForward) :
    Entries a cl' (pushGlobreq { cs with forwardings := cs.forwardings.insert key ⟨false, cl.brk⟩ } globreq) := by
  have hnew : ∀ (k : FwdKey) r, cl'.rportfwds[k]? = some r → cl.rportfwds[k]? = some r ∨ cl.brk ≤ r.addr := fun k r hkr => by
    rw [hr, get_insert_fwd] at hkr
    split at hkr
    · cases hkr
      exact Or.inr (Nat.le_refl _)
    · exact Or.inl hkr
  have hfreed : ∀ addr, Freed cl addr → Freed cl' addr := fun addr hf => hf.frame (by omega) hnew
  refine ⟨fun k f hf => ?_, fun k addr hkr => ?_, fun g hg hc => ?_⟩
  · rw [pushGlobreq_forwardings, get_insert_fwd] at hf
    rw [hr, get_insert_fwd]
    split at hf
    · next he =>
      cases hf
      rw [if_pos he]
      exact Or.inl rfl
    · next hne =>
      rw [if_neg hne]
      exact (h.entry k f hf).imp_right fun hl => ⟨hl.1, hfreed _ hl.2⟩
  · rw [pushGlobreq_forwardings, get_insert_fwd]
    rw [hr, get_insert_fwd] at hkr
    split
    · next he =>
      rw [if_pos he] at hkr
      cases hkr
      exact ⟨_, rfl, rfl⟩
    · next hne =>
      rw [if_neg hne] at hkr
      exact h.record k addr hkr
  · rcases pushGlobreq_mem hg with hg | rfl
    · exact hfreed _ (h.cancels g hg hc)
    · rw [ht] at hc
      cases hc

/-- A forwarding is cancelled that is not active, and its record freed. -/
theorem Entries.cancel {globreq : Globreq} {r : SshRportfwd} (h : Entries a cl cs) (hl : Layer cl) (hf : cs.forwardings[key]? = some fwd)
    (hi : fwd.active = false) (hrec : cl.rportfwds[key]? = some r) (haddr : r.addr = fwd.rpf) (hb : cl.brk ≤ cl'.brk)
    (hr : cl'.rportfwds = cl.rportfwds.erase key) (hg : globreq.rpf = fwd.rpf) : Entries a cl' (pushGlobreq cs globreq) := by
  have hsub : ∀ (k : FwdKey) r, cl'.rportfwds[k]? = some r → cl.rportfwds[k]? = some r ∧ k ≠ key := fun k r hkr => by
    rw [hr, get_erase_fwd] at hkr
    split at hkr
    · cases hkr
    · next hne => exact ⟨hkr, fun he => hne he.symm⟩
  have hfreed : ∀ addr, Freed cl addr → Freed cl' addr := fun addr hf => hf.frame hb fun k r hkr => Or.inl (hsub k r hkr).1
  have hgone : Freed cl' fwd.rpf := by
    refine ⟨Nat.lt_of_lt_of_le (haddr ▸ hl.addr_lt key r hrec) hb, fun k r' hkr he => ?_⟩
    obtain ⟨hold, hne⟩ := hsub k r' hkr
    exact hne (hl.addr_inj k key r' r hold hrec (he.trans haddr.symm))
  refine ⟨fun k f hk => ?_, fun k addr hkr => ?_, fun g hm hc => ?_⟩
  · rw [pushGlobreq_forwardings] at hk
    by_cases he : k = key
    · subst he
      cases hf.symm.trans hk
      exact Or.inr ⟨hi, hgone⟩
    · refine (h.entry k f hk).imp (fun hold => ?_) fun hl => ⟨hl.1, hfreed _ hl.2⟩
      rw [hr, get_erase_fwd, if_neg fun hx => he hx.symm, hold]
  · rw [pushGlobreq_forwardings]
    exact h.record k addr (hsub k _ hkr).1
  · rcases pushGlobreq_mem hm with hm | rfl
    · exact hfreed _ (h.cancels g hm hc)
    · rw [hg]
      exact hgone

theorem Unaffected.cancel {r : SshRportfwd} (ho : Entries a cl cs) (hf : cs.forwardings[key]? = some fwd)
    (hrec : cl.rportfwds[key]? = some r) (haddr : r.addr = fwd.rpf) (hne : b ≠ a)
    (hr : cl'.rportfwds = cl.rportfwds.erase key) (hb : cl.brk ≤ cl'.brk) : Unaffected b cl cl' := by
  refine .erase hrec (fun hctx => ?_) hr hb
  rcases ho.entry key fwd hf with hown | ⟨-, hgone⟩
  · rw [Option.some.inj (hrec.symm.trans hown)] at hctx
    exact hne (Option.some.inj hctx).symm
  · exact hgone.2 key r hrec haddr

/-- A request, if it is made in time. -/
theorem globalRequest_tended (hl : Layer m.cl) (ho : Entries a m.cl m.cs)
    (hfresh : ∀ key, forwardOf pkt = some key → key ∉ m.cl.rportfwds → key ∉ m.cs.forwardings)
    (hidle : ∀ key fwd, cancelOf pkt = some key → m.cs.forwardings[key]? = some fwd → fwd.active = false)
    (h : globalRequest a m pkt env = some d) : Tended a m d := by
  have hquiet : ∀ out, d = (m.send out).done → Tended a m d := fun out he => by
    subst he
    exact Untouched.tended (.frame rfl rfl rfl (Nat.le_refl _) rfl rfl) hl ho
  obtain ⟨hs, hv⟩ := hl.view
  obtain ⟨key, wantReply, pos, hf, -, he⟩ | ⟨key, wantReply, pos, -, hf, he⟩ | ⟨-, -, ⟨err, he⟩ | ⟨wantReply, he⟩⟩ :=
    globalRequest_cases a m pkt env
  · rw [he] at h
    obtain ⟨-, out, hd⟩ | ⟨hk, globreqs, out, hq, rfl⟩ := forwardRequest_spec h
    · exact hquiet out hd
    · obtain ⟨hv', hqd, -⟩ := hv.queue hq
      rw [if_neg (hfresh key hf hk)]
      refine ⟨Nat.le_succ _, hl.insert hk rfl rfl ⟨_, hv'⟩ fun k addr hm => ?_, fun cs hd => ?_, (nomatch ·),
        fun b hne => .insert hk (fun he => hne (Option.some.inj he).symm) rfl (Nat.le_succ _)⟩
      · rw [hqd, List.mem_append] at hm
        exact Or.inl (hm.resolve_right (by simp))
      · cases hd
        exact ho.forward rfl rfl rfl
  · rw [he] at h
    obtain ⟨-, out, hd⟩ | ⟨fwd, r, globreqs, out, hfwd, hrec, haddr, hq, rfl⟩ := cancelRequest_spec h
    · exact hquiet out hd
    · obtain ⟨hv', hqd, -⟩ := hv.queue hq
      refine ⟨Nat.le_refl _, hl.shrink (Nat.le_refl _) ⟨_, hv'⟩ (fun k r hk => ?_) fun k addr hm => ?_, fun cs hd => ?_, (nomatch ·),
        fun b hne => .cancel ho hfwd hrec haddr hne rfl (Nat.le_refl _)⟩
      · rw [show (m.cl.rportfwds.erase key)[k]? = if key = k then none else m.cl.rportfwds[k]? from get_erase_fwd] at hk
        split at hk
        · cases hk
        · exact hk
      · rw [hqd, List.mem_append] at hm
        exact hm.resolve_right (by simp)
      · cases hd
        exact ho.cancel hl hfwd (hidle key fwd hf hfwd) hrec haddr (Nat.le_refl _) rfl rfl
  · rw [he] at h
    obtain ⟨-, out, ht⟩ := shareDisconnect_spec h
    have h1 : Untouched m (m.send out).done := .frame rfl rfl rfl (Nat.le_refl _) rfl rfl
    exact h1.cleaned hl ho ht
  · rw [he] at h
    obtain ⟨out, hd⟩ := refuseRequest_spec h
    exact hquiet out hd

/-! ## Replies -/

theorem rportfwd_isSome_iff {addr : Nat} : (cl.rportfwd key addr).isSome ↔ ∃ r, cl.rportfwds[key]? = some r ∧ r.addr = addr := by
  unfold ConnectionLayer.rportfwd
  rw [Option.isSome_iff_exists]
  exact exists_congr fun r => by simp [Option.filter_eq_some_iff]

/-- The record that is there is the entry's. -/
theorem Entries.there (h : Entries a cl cs) (hf : cs.forwardings[key]? = some fwd) :
    (cl.rportfwd key fwd.rpf).isSome ↔ cl.rportfwds[key]? = some ⟨fwd.rpf, some a⟩ := by
  rw [rportfwd_isSome_iff]
  constructor
  · rintro ⟨r, hr, haddr⟩
    rcases h.entry key fwd hf with hown | ⟨-, hgone⟩
    · exact hown
    · exact absurd haddr (hgone.2 key r hr)
  · exact fun hr => ⟨_, hr, rfl⟩

/-- An entry whose request is granted becomes active, and has its record. -/
theorem Entries.settle {globreq : Globreq} {rest : List Globreq} {forwardings : FwdTree Forwarding} (h : Entries a cl cs)
    (hhead : cs.globreqHead = globreq :: rest) (hset : settleForwarding cs.forwardings globreq reply = some forwardings)
    (htimely : globreq.type = .tcpipForward → (reply = .success ↔ (cl.rportfwd globreq.fwd globreq.rpf).isSome))
    (hcs : cs'.forwardings = forwardings) (hrest : cs'.globreqHead = rest) : Entries a cl cs' := by
  have hlist : ∀ g ∈ cs'.globreqHead, g ∈ cs.globreqHead := fun g hg => by
    rw [hhead, ← hrest]
    exact List.mem_cons_of_mem _ hg
  have herase : ∀ fwd, cs.forwardings[globreq.fwd]? = some fwd → ¬ (cl.rportfwd globreq.fwd fwd.rpf).isSome →
      cs'.forwardings = cs.forwardings.erase globreq.fwd → Entries a cl cs' := fun fwd hf hn he =>
    h.erase hf he hlist (Nat.le_refl _) (fun _ _ => rfl) (mt (h.there hf).mpr hn) fun _ _ => id
  unfold settleForwarding at hset
  split at hset
  · cases hset
    exact h.congr rfl (Nat.le_refl _) hcs hlist
  · next ht =>
    obtain ⟨fwd, hf, hset⟩ := Option.bind_eq_some_iff.mp hset
    obtain ⟨hf, haddr⟩ := Option.filter_eq_some_iff.mp hf
    have hthere := (htimely ht).mp rfl
    rw [← of_decide_eq_true haddr, h.there hf] at hthere
    cases hset
    refine ⟨fun k f hk => ?_, fun k addr hk => ?_, fun g hg => h.cancels g (hlist g hg)⟩
    · rw [hcs, get_insert_fwd] at hk
      split at hk
      · next he =>
        cases hk
        exact Or.inl (he ▸ hthere)
      · exact h.entry k f hk
    · obtain ⟨f, hf', he⟩ := h.record k addr hk
      rw [hcs, get_insert_fwd]
      split
      · next hkey =>
        subst hkey
        cases hf.symm.trans hf'
        exact ⟨_, rfl, he⟩
      · exact ⟨f, hf', he⟩
  · next ht =>
    obtain ⟨fwd, hf, hset⟩ := Option.bind_eq_some_iff.mp hset
    obtain ⟨hf, haddr⟩ := Option.filter_eq_some_iff.mp hf
    cases hset
    refine herase fwd hf (fun hthere => ?_) hcs
    rw [of_decide_eq_true haddr, ← htimely ht] at hthere
    cases hthere
  · next ht =>
    obtain ⟨fwd, hf, hset⟩ := Option.bind_eq_some_iff.mp hset
    obtain ⟨hf, haddr⟩ := Option.filter_eq_some_iff.mp hf
    cases hset
    refine herase fwd hf (fun hthere => ?_) hcs
    obtain ⟨r, hr, he⟩ := rportfwd_isSome_iff.mp hthere
    have hgone := h.cancels globreq (by rw [hhead]; exact List.mem_cons_self) ht
    exact hgone.2 _ r hr (he.trans (of_decide_eq_true haddr))

theorem gotGlobreqReply_tended (hl : Layer m.cl) (ho : Entries a m.cl m.cs)
    (htimely : ∀ globreq rest, m.cs.globreqHead = globreq :: rest → globreq.type = .tcpipForward →
      (reply = .success ↔ (m.cl.rportfwd globreq.fwd globreq.rpf).isSome))
    (h : gotGlobreqReply a m reply pkt = some d) : Tended a m d := by
  obtain ⟨globreq, rest, forwardings, out, hhead, hset, hretry⟩ := gotGlobreqReply_spec h
  generalize hcs : ({ m.cs with
    forwardings
    globreqHead := rest
    globreqTail := if rest = [] then none else m.cs.globreqTail } : ConnState) = cs' at hretry
  have hown : Entries a m.cl cs' := ho.settle hhead hset (htimely globreq rest hhead) (by rw [← hcs]) (by rw [← hcs])
  have hlayer : Layer (At.send ⟨m.cl, cs'⟩ out).cl := hl.shrink (Nat.le_refl _) hl.view (fun _ _ => id) fun _ _ => id
  have hsent : Entries a (At.send ⟨m.cl, cs'⟩ out).cl (At.send ⟨m.cl, cs'⟩ out).cs := hown.congr rfl (Nat.le_refl _) rfl fun _ => id
  exact (retryCleanup_tended hlayer hsent hretry).after (Nat.le_refl _) fun b _ => .of_eq rfl (Nat.le_refl _)

/-! ## Every step -/

theorem Handles.congr {s1 : St} (h : Handles s) (h1 : s1.cl = s.cl) (h2 : s1.connections = s.connections) : Handles s1 := by
  obtain ⟨hl, he, hs, hf⟩ := h
  exact ⟨h1 ▸ hl, by rw [h1, h2]; exact he, by rw [h1, h2]; exact hs, by rw [h1, h2]; exact hf⟩

theorem Handles.addr_lt (h : Handles s) (hc : s.connections[a]? = some cs) : a < s.cl.brk := by
  by_contra hlt
  exact h.fresh a (Nat.le_of_not_lt hlt) (mem_of_get hc)

/-- The call of one connstate. -/
theorem Handles.after (h : Handles s) (ha : a < d.1.brk) (hd : Tended a ⟨s.cl, cs⟩ d) : Handles (s.after a d) := by
  refine ⟨hd.layer, fun b cs' hc => ?_, fun b hb => ?_, fun b hb hm => ?_⟩
  · by_cases hba : b = a
    · subst hba
      exact hd.stays cs' (after_get hc)
    · rw [after_get_ne hba] at hc
      exact (h.each b cs' hc).spared (hd.spares b hba)
  · by_cases hba : b = a
    · subst hba
      refine hd.goes ?_
      cases hnew : d.2 with
      | none => rfl
      | some cs' =>
        refine absurd ?_ hb
        simp [St.after, hnew]
    · refine (h.strays b fun hm => hb ?_).spared (hd.spares b hba)
      rw [ExtTreeMap.mem_iff_isSome_getElem?] at hm ⊢
      rwa [after_get_ne hba]
  · by_cases hba : b = a
    · subst hba
      exact absurd ha (Nat.not_lt_of_le hb)
    · refine h.fresh b (Nat.le_trans hd.brk hb) ?_
      rw [ExtTreeMap.mem_iff_isSome_getElem?] at hm ⊢
      rwa [after_get_ne hba] at hm

theorem Handles.tended (h : Handles s) (hc : s.connections[a]? = some cs) (hd : Tended a ⟨s.cl, cs⟩ d) : Handles (s.after a d) :=
  h.after (Nat.lt_of_lt_of_le (h.addr_lt hc) hd.brk) hd

/-- The connection layer alone. -/
theorem Handles.only {reading : Option Nat} {protoError : Bool} (h : Handles s) (hl : Layer cl) (hs : ∀ b, Unaffected b s.cl cl) :
    Handles { s with cl, reading, protoError } :=
  ⟨hl, fun b cs hc => (h.each b cs hc).spared (hs b), fun b hb => (h.strays b hb).spared (hs b),
    fun b hb => h.fresh b (Nat.le_trans (hs b).brk hb)⟩

theorem Layer.erase (h : Layer cl) (hr : cl'.rportfwds = cl.rportfwds.erase key) (hg : cl'.globreqs = cl.globreqs)
    (hb : cl'.brk = cl.brk) : Layer cl' := by
  refine h.shrink (Nat.le_of_eq hb.symm) (hg ▸ h.view) (fun k r hk => ?_) fun _ _ hq => hg ▸ hq
  rw [hr, get_erase_fwd] at hk
  split at hk
  · cases hk
  · exact hk

/-- The reply to one of our own requests. -/
theorem replyOurs_layer {head addr : Nat} {next : Ptr} {globreqs : GlobalRequests.St Handler} (h : Layer cl)
    (hh : cl.globreqs.globreqHead = some head) (hcell : cl.globreqs.heap.cell head = some ⟨.rportfwd key addr, next⟩)
    (hresp : rportfwdGlobreqResponse cl key addr reply = some cl') (hf : filterReply cl'.globreqs reply [] = some globreqs) :
    Layer { cl' with globreqs } ∧ ∀ b, Unaffected b cl { cl' with globreqs } := by
  obtain ⟨r, hr, haddr, hcl⟩ := rportfwdGlobreqResponse_spec hresp
  have hgl : cl'.globreqs = cl.globreqs := by
    rcases hcl with rfl | rfl
    · rfl
    · rfl
  rw [hgl] at hf
  obtain ⟨hs, hv⟩ := h.view
  obtain ⟨hs', hhs, hv', hqd, -⟩ := hv.reply hh hcell hf
  have hours : r.shareCtx = none := by
    refine (h.ours key addr ?_).2 key r hr haddr
    rw [hv.queued, hhs]
    exact List.mem_append_right _ List.mem_cons_self
  have hleft : ∀ k addr, Handler.rportfwd k addr ∈ globreqs.queued → Handler.rportfwd k addr ∈ cl.globreqs.queued :=
    fun k addr hm => hqd ▸ hm
  rcases hcl with rfl | rfl
  · exact ⟨h.shrink (Nat.le_refl _) ⟨hs', hv'⟩ (fun _ _ => id) hleft, fun b => .of_eq rfl (Nat.le_refl _)⟩
  · have herased : Layer { cl with rportfwds := cl.rportfwds.erase key } := h.erase rfl rfl rfl
    exact ⟨herased.shrink (Nat.le_refl _) ⟨hs', hv'⟩ (fun _ _ => id) hleft,
      fun b => .erase hr (by rw [hours]; exact nofun) rfl (Nat.le_refl _)⟩

theorem step_handles {e : Ev} (h : Handles s) (hok : Timely s e) (hs : step s e = some s') : Handles s' := by
  obtain ⟨-, rfl⟩ | ⟨hp, s1, ha, -, rfl⟩ := step_acted hs
  · exact h
  refine Handles.congr (s := s1) ?_ rfl rfl
  have hsame : ∀ cl : ConnectionLayer, cl.rportfwds = s.cl.rportfwds → cl.globreqs = s.cl.globreqs → cl.brk = s.cl.brk →
      Layer cl ∧ ∀ b, Unaffected b s.cl cl := fun cl h1 h2 h3 =>
    ⟨h.layer.shrink (Nat.le_of_eq h3.symm) (h2 ▸ h.layer.view) (fun _ _ hr => h1 ▸ hr) fun _ _ hq => h2 ▸ hq,
      fun b => .of_eq h1 (Nat.le_of_eq h3.symm)⟩
  cases ha with
  | accept =>
    have hnew : Entries s.cl.brk s.cl ConnState.fresh := by
      have hno := h.strays s.cl.brk (h.fresh s.cl.brk (Nat.le_refl _))
      exact ⟨fun key f hf => by simp [ConnState.fresh] at hf, fun key addr hr => absurd hr (hno key addr), fun g hg => absurd hg List.not_mem_nil⟩
    have h1 : Untouched ⟨s.cl, ConnState.fresh⟩ (At.mk { s.cl with brk := s.cl.brk + 1 } ConnState.fresh).done :=
      .frame rfl rfl rfl (Nat.le_succ _) rfl rfl
    exact h.after (Nat.lt_succ_self _) (h1.tended h.layer hnew)
  | @packet a type pkt env cs d _ hc hh hg =>
    have hown := h.each a cs hc
    by_cases ht : type = .globalRequest
    · subst ht
      obtain ⟨hfresh, hidle⟩ := hok hp cs hc
      exact h.tended hc (globalRequest_tended h.layer hown hfresh hidle hg)
    · exact h.tended hc (hh.tended ht h.layer hown)
  | @malformed a message cs d out _ hc _ ht =>
    have h1 : Untouched ⟨s.cl, cs⟩ (At.send ⟨s.cl, cs⟩ out).done := .frame rfl rfl rfl (Nat.le_refl _) rfl rfl
    exact h.tended hc (h1.cleaned h.layer (h.each a cs hc) ht)
  | @closing a cs d hc _ ht =>
    have h1 : Untouched ⟨s.cl, cs⟩ (At.mk s.cl cs).done := .frame rfl rfl rfl (Nat.le_refl _) rfl rfl
    exact h.tended hc (h1.cleaned h.layer (h.each a cs hc) ht)
  | @replySharing reply pkt head next a cs d globreqs hh hcell hc hg hf =>
    have hnext : nextHandler s.cl.globreqs = some (.sharing a) := by
      simp [nextHandler, hh, hcell]
    have hd := gotGlobreqReply_tended h.layer (h.each a cs hc) (fun globreq rest hl => hok hp a cs globreq rest hnext hc hl) hg
    obtain ⟨_, _, _, _, -, -, hretry⟩ := gotGlobreqReply_spec hg
    have hgl : d.1.globreqs = s.cl.globreqs := (retryCleanup_undisturbed hretry).globreqs
    obtain ⟨hs, hv⟩ := hd.layer.view
    rw [← hgl] at hh hcell
    obtain ⟨hs', -, hv', hqd, -⟩ := hv.reply hh hcell hf
    refine h.tended hc ⟨hd.brk, hd.layer.shrink (Nat.le_refl _) ⟨hs', hv'⟩ (fun _ _ => id) fun k addr hm => ?_, fun cs' hd' => ?_,
      fun hn => hd.goes hn, fun b hne => (hd.spares b hne).trans (.of_eq rfl (Nat.le_refl _))⟩
    · rwa [hqd] at hm
    · exact (hd.stays cs' hd').congr rfl (Nat.le_refl _) rfl fun _ => id
  | @replyOurs reply pkt head next key addr cl globreqs hh hcell hresp hf =>
    obtain ⟨hl, hspare⟩ := replyOurs_layer h.layer hh hcell hresp hf
    exact h.only hl hspare
  | @openSharing src key r a cs m _ _ hc hg =>
    obtain ⟨id, out, rfl⟩ := gotChannelOpen_spec hg
    have h1 : Untouched ⟨s.cl, cs⟩ (At.send ⟨s.cl, addHalfchannel cs id⟩ out).done := .frame rfl rfl rfl (Nat.le_refl _) rfl rfl
    exact h.tended hc (h1.tended h.layer (h.each a cs hc))
  | @msgSharing type pkt a cs d _ hc hh _ => exact h.tended hc (hh.tended h.layer (h.each a cs hc))
  | @forwardOurs key junk addr cl globreqs hal hq =>
    obtain ⟨hk, rfl, rfl⟩ := rportfwdAlloc_spec hal
    obtain ⟨hs, hv⟩ := h.layer.view
    obtain ⟨hv', hqd, -⟩ := hv.queue hq
    have hours : ∀ b : Nat, (none : Option Nat) ≠ some b := fun b he => by cases he
    refine h.only (h.layer.insert hk rfl rfl ⟨_, hv'⟩ fun k addr hm => ?_) fun b => .insert hk (hours b) rfl (Nat.le_succ _)
    rw [hqd, List.mem_append, List.mem_singleton] at hm
    rcases hm with hm | he
    · exact Or.inl hm
    · exact Or.inr ⟨(Handler.rportfwd.inj he).2, rfl⟩
  | @unforwardOurs key addr hk =>
    exact h.only (h.layer.erase rfl rfl rfl) fun b => .erase hk (fun he => by cases he) rfl (Nat.le_refl _)
  | @handover u x auth cs m _ hauth hc hx =>
    have h1 : Untouched ⟨s.cl, cs⟩ (At.mk { s.cl with channels := s.cl.channels.insert u (.sharectx auth.shareCs) } cs).done :=
      .frame rfl rfl rfl (Nat.le_refl _) rfl rfl
    exact h.tended hc ((h1.trans (setupX11Channel_untouched hx)).tended h.layer (h.each _ cs hc))
  | openOurs =>
    obtain ⟨hl, hspare⟩ := hsame { s.cl with channels := s.cl.channels.insertIfNew s.cl.allocChannelId .ours } rfl rfl rfl
    exact h.only hl hspare
  | @closeOurs u _ =>
    obtain ⟨hl, hspare⟩ := hsame (s.cl.deleteSharingChannel u) rfl rfl rfl
    exact h.only hl hspare
  | _ =>
    obtain ⟨hl, hspare⟩ := hsame s.cl rfl rfl rfl
    exact h.only hl hspare

theorem init_handles : Handles St.init :=
  ⟨⟨⟨[], GlobalRequests.init_view⟩, fun key r hr => by simp [St.init] at hr, fun key key' r r' hr => by simp [St.init] at hr,
      fun key addr hm => by simp [St.init, GlobalRequests.init] at hm⟩,
    fun a cs hc => by simp [St.init] at hc, fun a _ key addr hr => by simp [St.init] at hr, fun a _ => by simp [St.init]⟩

/-! ## What is out of time -/

/-- The entry with a record's address is the entry it was made for. -/
theorem Handles.entry_unique {k : FwdKey} {addr : Nat} (h : Handles s) (hr : s.cl.rportfwds[key]? = some ⟨addr, some a⟩)
    (hc : s.connections[b]? = some cs) (hf : cs.forwardings[k]? = some fwd) (haddr : fwd.rpf = addr) : b = a ∧ k = key := by
  subst haddr
  rcases (h.each b cs hc).entry k fwd hf with hown | ⟨-, hgone⟩
  · cases h.layer.addr_inj k key _ _ hown hr rfl
    cases Option.some.inj (hown.symm.trans hr)
    exact ⟨rfl, rfl⟩
  · exact absurd rfl (hgone.2 key _ hr)

theorem Handles.live (h : Handles s) : Paired s := by
  refine ⟨fun a cs key fwd hc hf hact => ?_, fun key r a hr hctx => ?_⟩
  · rcases (h.each a cs hc).entry key fwd hf with hown | ⟨hi, -⟩
    · exact ⟨_, hown, rfl⟩
    · rw [hi] at hact
      cases hact
  · obtain ⟨addr, ctx⟩ := r
    cases hctx
    by_cases ha : a ∈ s.connections
    · obtain ⟨cs, hc⟩ := get_of_mem ha
      obtain ⟨fwd, hf, haddr⟩ := (h.each a cs hc).record key addr hr
      refine ⟨(a, key), ⟨cs, fwd, hc, hf, haddr⟩, fun ⟨b, k⟩ ⟨cs', fwd', hc', hf', he⟩ => ?_⟩
      obtain ⟨rfl, rfl⟩ := h.entry_unique hr hc' hf' he
      rfl
    · exact absurd hr (h.strays a ha key addr)

theorem Handles.rpf_lt (h : Handles s) (hc : s.connections[a]? = some cs) (hf : cs.forwardings[key]? = some fwd) :
    fwd.rpf < s.cl.brk := by
  rcases (h.each a cs hc).entry key fwd hf with hown | ⟨-, hgone⟩
  · exact h.layer.addr_lt key _ hown
  · exact hgone.1

/-- An active entry is left without its record. -/
theorem not_live_of_active (hcs : d.2 = some cs) (hf : cs.forwardings[key]? = some fwd) (hact : fwd.active = true)
    (hgone : d.1.rportfwd key fwd.rpf = none) : ¬ Paired (s.after a d) := by
  intro hlive
  have hc : (s.after a d).connections[a]? = some cs := by simp [St.after, hcs]
  obtain ⟨r, hr, haddr⟩ := hlive.active a cs key fwd hc hf hact
  have hthere := rportfwd_isSome_iff.mpr ⟨r, hr, haddr⟩
  rw [show (s.after a d).cl = d.1 from rfl, hgone] at hthere
  cases hthere

/-- A record is left without its entry. -/
theorem not_live_of_record {addr : Nat} (hr : d.1.rportfwds[key]? = some ⟨addr, some a⟩)
    (hown : ∀ cs, d.2 = some cs → ∀ (k : FwdKey) fwd, cs.forwardings[k]? = some fwd → fwd.rpf ≠ addr)
    (hothers : ∀ b cs, b ≠ a → s.connections[b]? = some cs → ∀ (k : FwdKey) fwd, cs.forwardings[k]? = some fwd → fwd.rpf ≠ addr) :
    ¬ Paired (s.after a d) := by
  intro hlive
  obtain ⟨⟨b, k⟩, ⟨cs, fwd, hc, hf, haddr⟩, -⟩ := hlive.referred key _ a hr rfl
  by_cases hba : b = a
  · subst hba
    exact hown cs (after_get hc) k fwd hf haddr
  · rw [after_get_ne hba] at hc
    exact hothers b cs hba hc k fwd hf haddr

/-- What holds of the records and the entries and is kept when an active one goes with its record. -/
theorem retryCleanup_leaves {P : FwdTree SshRportfwd → FwdTree Forwarding → Prop}
    (hgoes : ∀ rpfs fwds (k : FwdKey) f r, P rpfs fwds → fwds[k]? = some f → f.active = true → rpfs[k]? = some r → r.addr = f.rpf →
      P (rpfs.erase k) (fwds.erase k))
    (hm : P m.cl.rportfwds m.cs.forwardings) (h : retryCleanup a m = some d) :
    ∃ forwardings, P d.1.rportfwds forwardings ∧
      (d.2 = none ∧ forwardings = ∅ ∨ ∃ cs, d.2 = some cs ∧ cs.forwardings = forwardings) := by
  unfold retryCleanup at h
  split at h
  · cases h
    exact ⟨_, hm, Or.inr ⟨_, rfl, rfl⟩⟩
  · obtain ⟨m2, h2, rfl⟩ := tryCleanup_ends (P := fun m' => P m'.cl.rportfwds m'.cs.forwardings)
      (fun m1 h1 => by
        obtain ⟨out, he⟩ := cleanupHalfchannels_spec a m1
        rw [he]
        exact h1)
      (fun m1 u m' h1 hu => by
        obtain ⟨rfl, -⟩ | ⟨c, out, -, -, rfl⟩ | ⟨c, out, x11, -, -, rfl⟩ := cleanupChannel_spec hu
        · exact h1
        · exact h1
        · exact h1)
      (fun m1 k m' h1 hk => by
        obtain ⟨rfl, -⟩ | ⟨f, r, out, hf, hact, hr, haddr, rfl⟩ := cleanupForwarding_spec hk
        · exact h1
        · exact hgoes _ _ k f r h1 hf hact hr haddr)
      hm h
    refine ⟨m2.cs.forwardings, h2, ?_⟩
    dsimp only
    split
    · next hidle => exact Or.inl ⟨rfl, (idle_iff.mp hidle).2.2⟩
    · exact Or.inr ⟨_, rfl, rfl⟩

theorem globalRequest_untimely (h : Handles s) (hc : s.connections[a]? = some cs)
    (hok : ¬ ((∀ key, forwardOf pkt = some key → key ∉ s.cl.rportfwds → key ∉ cs.forwardings) ∧
      ∀ key fwd, cancelOf pkt = some key → cs.forwardings[key]? = some fwd → fwd.active = false))
    (hg : globalRequest a ⟨s.cl, cs⟩ pkt env = some d) : ¬ Paired (s.after a d) := by
  rw [not_and_or] at hok
  rcases hok with hok | hok
  · simp only [not_forall, not_not] at hok
    obtain ⟨key, hf, hk, hkey⟩ := hok
    obtain ⟨key', wantReply, pos, hf', -, he⟩ | ⟨key', wantReply, pos, hf', -⟩ | ⟨hf', -⟩ :=
      globalRequest_cases a ⟨s.cl, cs⟩ pkt env
    · cases hf.symm.trans hf'
      rw [he] at hg
      obtain ⟨hk', -⟩ | ⟨-, globreqs, out, hq, rfl⟩ := forwardRequest_spec hg
      · exact absurd hk' hk
      · have hnew : (s.cl.rportfwds.insert key ⟨s.cl.brk, some a⟩)[key]? = some ⟨s.cl.brk, some a⟩ := by
          rw [get_insert_fwd, if_pos rfl]
        refine not_live_of_record hnew (fun cs' hd k fwd hk' => ?_) fun b cs' _ hb k fwd hk' => Nat.ne_of_lt (h.rpf_lt hb hk')
        rw [if_pos hkey] at hd
        cases hd
        exact Nat.ne_of_lt (h.rpf_lt hc hk')
    · cases hf.symm.trans hf'
    · cases hf.symm.trans hf'
  · simp only [not_forall] at hok
    obtain ⟨key, fwd, hf, hfwd, hact⟩ := hok
    obtain ⟨key', wantReply, pos, -, hf', he⟩ | ⟨key', wantReply, pos, -, hf', he⟩ | ⟨-, hf', -⟩ :=
      globalRequest_cases a ⟨s.cl, cs⟩ pkt env
    · cases hf.symm.trans hf'
    · cases hf.symm.trans hf'
      rw [he] at hg
      obtain ⟨hk', -⟩ | ⟨fwd', r, globreqs, out, hfwd', -, -, hq, rfl⟩ := cancelRequest_spec hg
      · exact absurd (ExtTreeMap.mem_iff_isSome_getElem?.mpr (by rw [hfwd]; rfl)) hk'
      · have hgone : ((s.cl.rportfwds.erase key)[key]?).filter (·.addr = fwd.rpf) = none := by
          rw [get_erase_fwd, if_pos rfl]
          rfl
        refine not_live_of_active rfl ?_ (eq_true_of_ne_false hact) hgone
        rw [pushGlobreq_forwardings]
        exact hfwd
    · cases hf.symm.trans hf'

theorem settled_leaves {P : FwdTree SshRportfwd → FwdTree Forwarding → Prop} {globreq : Globreq} {rest : List Globreq}
    (hhead : m.cs.globreqHead = globreq :: rest)
    (hgoes : ∀ rpfs fwds (k : FwdKey) f r, P rpfs fwds → fwds[k]? = some f → f.active = true → rpfs[k]? = some r → r.addr = f.rpf →
      P (rpfs.erase k) (fwds.erase k))
    (hm : ∀ forwardings, settleForwarding m.cs.forwardings globreq reply = some forwardings → P m.cl.rportfwds forwardings)
    (h : gotGlobreqReply a m reply pkt = some d) :
    ∃ forwardings, P d.1.rportfwds forwardings ∧
      (d.2 = none ∧ forwardings = ∅ ∨ ∃ cs, d.2 = some cs ∧ cs.forwardings = forwardings) := by
  obtain ⟨globreq', rest', forwardings, out, hhead', hset, hretry⟩ := gotGlobreqReply_spec h
  cases hhead.symm.trans hhead'
  exact retryCleanup_leaves hgoes (hm forwardings hset) hretry

theorem reply_untimely {globreq : Globreq} {rest : List Globreq} {globreqs : GlobalRequests.St Handler} (h : Handles s)
    (hc : s.connections[a]? = some cs) (hhead : cs.globreqHead = globreq :: rest) (ht : globreq.type = .tcpipForward)
    (hok : ¬ (reply = .success ↔ (s.cl.rportfwd globreq.fwd globreq.rpf).isSome))
    (hg : gotGlobreqReply a ⟨s.cl, cs⟩ reply pkt = some d) : ¬ Paired (s.after a ({ d.1 with globreqs }, d.2)) := by
  obtain ⟨globreq', rest', forwardings, out, hhead', hset, -⟩ := gotGlobreqReply_spec hg
  cases hhead.symm.trans hhead'
  cases reply with
  | success =>
    have hgone : s.cl.rportfwd globreq.fwd globreq.rpf = none := by
      cases hthere : s.cl.rportfwd globreq.fwd globreq.rpf with
      | none => rfl
      | some r => exact absurd ⟨fun _ => by rw [hthere]; rfl, fun _ => rfl⟩ hok
    -- the entry stays active, and the cleanup cannot take it away without its record
    obtain ⟨fwds, ⟨f, hf, hact, hrec⟩, hd⟩ := settled_leaves
      (P := fun rpfs fwds => ∃ f, fwds[globreq.fwd]? = some f ∧ f.active = true ∧ (rpfs[globreq.fwd]?).filter (·.addr = f.rpf) = none)
      hhead
      (fun rpfs fwds k f r hP hk _ hr haddr => by
        obtain ⟨f', hf', hact', hnone⟩ := hP
        by_cases hkey : k = globreq.fwd
        · subst hkey
          cases hf'.symm.trans hk
          rw [hr] at hnone
          simp [haddr] at hnone
        · exact ⟨f', by rw [get_erase_fwd, if_neg hkey, hf'], hact', by rw [get_erase_fwd, if_neg hkey, hnone]⟩)
      (fun fwds hset => by
        simp only [settleForwarding, ht] at hset
        obtain ⟨fwd, hf, hset⟩ := Option.bind_eq_some_iff.mp hset
        obtain ⟨-, haddr⟩ := Option.filter_eq_some_iff.mp hf
        cases hset
        refine ⟨{ fwd with active := true }, by rw [get_insert_fwd, if_pos rfl], rfl, ?_⟩
        rw [← of_decide_eq_true haddr] at hgone
        exact hgone) hg
    rcases hd with ⟨-, rfl⟩ | ⟨cs', hcs', rfl⟩
    · simp at hf
    · exact not_live_of_active hcs' hf hact hrec
  | failure =>
    have hthere : (s.cl.rportfwd globreq.fwd globreq.rpf).isSome := by
      by_contra hno
      exact hok ⟨(fun he => nomatch he), fun hyes => absurd hyes hno⟩
    simp only [settleForwarding, ht] at hset
    obtain ⟨fwd, hf, -⟩ := Option.bind_eq_some_iff.mp hset
    obtain ⟨hf, haddr⟩ := Option.filter_eq_some_iff.mp hf
    rw [← of_decide_eq_true haddr, (h.each a cs hc).there hf] at hthere
    have hother : ∀ b cs' (k : FwdKey) f, s.connections[b]? = some cs' → cs'.forwardings[k]? = some f → f.rpf = fwd.rpf →
        b = a ∧ k = globreq.fwd := fun b cs' k f hb hk he => h.entry_unique hthere hb hk he
    have herased : ∀ (fwds : FwdTree Forwarding) (k : FwdKey), (∀ (l : FwdKey) f, l ≠ k → fwds[l]? = some f → f.rpf ≠ fwd.rpf) →
        ∀ (l : FwdKey) f, (fwds.erase k)[l]? = some f → f.rpf ≠ fwd.rpf := fun fwds k hno l f hl => by
      rw [get_erase_fwd] at hl
      split at hl
      · cases hl
      · next hne => exact hno l f (Ne.symm hne) hl
    -- the record stays, as no entry has its address any more
    obtain ⟨fwds, ⟨hrec, hno⟩, hd⟩ := settled_leaves
      (P := fun rpfs fwds => rpfs[globreq.fwd]? = some ⟨fwd.rpf, some a⟩ ∧ ∀ (k : FwdKey) f, fwds[k]? = some f → f.rpf ≠ fwd.rpf)
      hhead
      (fun rpfs fwds k f r hP hk _ hr haddr => by
        obtain ⟨hrec, hno⟩ := hP
        have hne : k ≠ globreq.fwd := by
          rintro rfl
          cases hrec.symm.trans hr
          exact hno _ f hk haddr.symm
        exact ⟨by rw [get_erase_fwd, if_neg hne, hrec], herased fwds k fun l f _ => hno l f⟩)
      (fun fwds hset => by
        simp only [settleForwarding, ht] at hset
        obtain ⟨_, -, hset⟩ := Option.bind_eq_some_iff.mp hset
        cases hset
        exact ⟨hthere, herased _ _ fun k f hne hk he => hne (hother a cs k f hc hk he).2⟩) hg
    refine not_live_of_record hrec (fun cs' hcs' k f hk => ?_) fun b cs' hb hc' k f hk he => hb (hother b cs' k f hc' hk he).1
    rcases hd with ⟨hnone, -⟩ | ⟨cs1, hcs1, rfl⟩
    · rw [show ({ d.1 with globreqs }, d.2).2 = d.2 from rfl, hnone] at hcs'
      cases hcs'
    · cases hcs1.symm.trans hcs'
      exact hno k f hk

theorem Paired.congr {s1 : St} (h : Paired s1) (h1 : s1.cl = s.cl) (h2 : s1.connections = s.connections) : Paired s := by
  obtain ⟨ha, hr⟩ := h
  rw [h1, h2] at ha hr
  exact ⟨ha, hr⟩

theorem step_untimely {e : Ev} (h : Handles s) (hok : ¬ Timely s e) (hs : step s e = some s') : ¬ Paired s' := by
  unfold Timely at hok
  split at hok
  · next a pkt env =>
    rw [Classical.not_imp] at hok
    obtain ⟨hp, hok⟩ := hok
    obtain ⟨hp', -⟩ | ⟨-, s1, hacted, -, rfl⟩ := step_acted hs
    · rw [hp] at hp'
      cases hp'
    cases hacted with
    | @packet _ _ _ _ cs d _ hc _ hg =>
      simp only [not_forall] at hok
      obtain ⟨cs', hc', hok⟩ := hok
      cases hc.symm.trans hc'
      exact fun hlive => globalRequest_untimely h hc hok hg (hlive.congr rfl rfl)
  · next reply pkt =>
    simp only [not_forall] at hok
    obtain ⟨hp, a, cs, globreq, rest, hnext, hc, hhead, ht, hok⟩ := hok
    obtain ⟨hp', -⟩ | ⟨-, s1, hacted, -, rfl⟩ := step_acted hs
    · rw [hp] at hp'
      cases hp'
    cases hacted with
    | replyNone hn =>
      rw [nextHandler, hn] at hnext
      cases hnext
    | @replySharing _ _ head next a' cs' d globreqs hh hcell hc' hg _ =>
      have hnext' : nextHandler s.cl.globreqs = some (.sharing a') := by
        simp [nextHandler, hh, hcell]
      cases hnext.symm.trans hnext'
      cases hc.symm.trans hc'
      exact fun hlive => reply_untimely h hc hhead ht hok hg (hlive.congr rfl rfl)
    | @replyOurs _ _ head next key addr _ _ hh hcell _ _ =>
      have hnext' : nextHandler s.cl.globreqs = some (.rportfwd key addr) := by
        simp [nextHandler, hh, hcell]
      cases hnext.symm.trans hnext'
  · exact absurd trivial hok

/-! ## What is freed again -/

theorem mem_activeRecords {fwds : FwdTree Forwarding} {addr : Nat} :
    (key, addr) ∈ activeRecords fwds ↔ ∃ fwd, fwds[key]? = some fwd ∧ fwd.active = true ∧ fwd.rpf = addr := by
  simp only [activeRecords, List.mem_filterMap, Prod.exists, ExtTreeMap.mem_toList_iff_getElem?_eq_some]
  constructor
  · rintro ⟨k, fwd, hf, he⟩
    split at he
    · next hact =>
      cases he
      exact ⟨fwd, hf, hact, rfl⟩
    · cases he
  · rintro ⟨fwd, hf, hact, rfl⟩
    exact ⟨key, fwd, hf, by rw [if_pos hact]⟩

/-- What the cleanup of a connstate frees has not been freed. -/
theorem Entries.activeRecords_there {addr : Nat} (h : Entries a cl cs) (hm : (key, addr) ∈ activeRecords cs.forwardings) :
    cl.rportfwd key addr ≠ none := by
  obtain ⟨fwd, hf, hact, rfl⟩ := mem_activeRecords.mp hm
  rcases h.entry key fwd hf with hown | ⟨hi, -⟩
  · exact Option.isSome_iff_ne_none.mp (rportfwd_isSome_iff.mpr ⟨_, hown, rfl⟩)
  · rw [hi] at hact
    cases hact

/-- What is freed with a reply is active already, or it has just become so. -/
theorem Entries.replied {globreq : Globreq} {fwds : FwdTree Forwarding} {addr : Nat} (h : Entries a cl cs)
    (hset : settleForwarding cs.forwardings globreq reply = some fwds) (hm : (key, addr) ∈ activeRecords fwds)
    (hnone : cl.rportfwd key addr = none) :
    globreq.type = .tcpipForward ∧ reply = .success ∧ key = globreq.fwd ∧ addr = globreq.rpf ∧
      ∃ fwd, cs.forwardings[globreq.fwd]? = some fwd ∧ fwd.rpf = globreq.rpf := by
  obtain ⟨fwd, hf, hact, rfl⟩ := mem_activeRecords.mp hm
  have hold : cs.forwardings[key]? ≠ some fwd := fun hk =>
    absurd hnone (h.activeRecords_there (mem_activeRecords.mpr ⟨fwd, hk, hact, rfl⟩))
  have herase : fwds ≠ cs.forwardings.erase globreq.fwd := by
    rintro rfl
    rw [get_erase_fwd] at hf
    split at hf
    · cases hf
    · exact hold hf
  unfold settleForwarding at hset
  split at hset
  · cases hset
    exact absurd hf hold
  · next ht =>
    obtain ⟨f, hf', hset⟩ := Option.bind_eq_some_iff.mp hset
    obtain ⟨hf', haddr⟩ := Option.filter_eq_some_iff.mp hf'
    cases hset
    rw [get_insert_fwd] at hf
    split at hf
    · next hkey =>
      cases hf
      exact ⟨ht, rfl, hkey.symm, of_decide_eq_true haddr, f, hf', of_decide_eq_true haddr⟩
    · exact absurd hf hold
  · obtain ⟨f, -, hset⟩ := Option.bind_eq_some_iff.mp hset
    cases hset
    exact absurd rfl herase
  · obtain ⟨f, -, hset⟩ := Option.bind_eq_some_iff.mp hset
    cases hset
    exact absurd rfl herase

theorem cancel_goes_on {env : Env} (h : cancelOf pkt = some key) : packetEnds cs .globalRequest pkt env = false := by
  unfold cancelOf at h
  dsimp only at h
  split at h
  · next hc =>
    obtain ⟨-, ht⟩ := hc
    have ht : (BinarySource.ofData pkt).getString.2.getBool.2.getString.2.getUint32.2.err = false := ht
    show globalRequestEnds pkt = false
    simp [globalRequestEnds, ht]
  · cases h

theorem packet_frees_again (h : Handles s) (hp : s.protoError = false) {env : Env} :
    FreesAgain s (.packet a type pkt env) ↔ ¬ RecordThere s (.packet a type pkt env) := by
  unfold FreesAgain removals
  rw [hp]
  simp only [Bool.false_eq_true, if_false]
  by_cases ht : type = .globalRequest
  · subst ht
    simp only [RecordThere, hp, forall_const, not_forall]
    constructor
    · rintro ⟨key, addr, hm, hnone⟩
      split at hm
      · cases hm
      · next cs hc =>
        split at hm
        · cases hm
        · next hr =>
          split at hm
          · exact absurd hnone ((h.each a cs hc).activeRecords_there hm)
          · rw [if_pos trivial, cancelledRecord] at hm
            split at hm
            · cases hm
            · next key' hcan =>
              obtain ⟨fwd, hf, he⟩ := List.mem_map.mp hm
              cases he
              exact ⟨by simpa using hr, cs, key, fwd, hc, hcan, by simpa using hf, by rw [hnone]; simp⟩
    · rintro ⟨hr, cs, key, fwd, hc, hcan, hf, hnone⟩
      refine ⟨key, fwd.rpf, ?_, Option.not_isSome_iff_eq_none.mp hnone⟩
      simp [hc, hr, cancel_goes_on hcan, cancelledRecord, hcan, hf]
  · have htrue : RecordThere s (.packet a type pkt env) := by
      unfold RecordThere
      split
      · next he => cases he; exact absurd rfl ht
      · next he => cases he
      · trivial
    refine iff_of_false ?_ (not_not_intro htrue)
    rintro ⟨key, addr, hm, hnone⟩
    split at hm
    · cases hm
    · next cs hc =>
      split at hm
      · cases hm
      · split at hm
        · exact absurd hnone ((h.each a cs hc).activeRecords_there hm)
        · cases hm

theorem reply_frees_again (h : Handles s) (hp : s.protoError = false) :
    FreesAgain s (.globalReply reply pkt) ↔ ¬ RecordThere s (.globalReply reply pkt) := by
  unfold FreesAgain removals RecordThere
  rw [hp]
  simp only [Bool.false_eq_true, if_false, forall_const]
  cases hnext : nextHandler s.cl.globreqs with
  | none => simp
  | some handler =>
    cases handler with
    | rportfwd key addr =>
      simp only [Option.some.injEq, Handler.rportfwd.injEq, reduceCtorEq, false_implies, implies_true, and_true]
      constructor
      · rintro ⟨key', addr', hm, hnone⟩ hall
        split at hm
        · next hr =>
          cases List.mem_singleton.mp hm
          have hthere := hall key addr ⟨rfl, rfl⟩ hr
          rw [hnone] at hthere
          cases hthere
        · cases hm
      · intro hall
        simp only [not_forall] at hall
        obtain ⟨key', addr', ⟨rfl, rfl⟩, hr, hnone⟩ := hall
        exact ⟨key, addr, by simp [hr], Option.not_isSome_iff_eq_none.mp hnone⟩
    | sharing a =>
      simp only [Option.some.injEq, reduceCtorEq, false_implies, implies_true, true_and]
      constructor
      · rintro ⟨key, addr, hm, hnone⟩ hall
        cases hc : s.connections[a]? with
        | none => simp [hc] at hm
        | some cs =>
          rw [hc, Option.map_some, Option.getD_some, repliedRecords] at hm
          split at hm
          · cases hm
          · next globreq rest hhead =>
            split at hm
            · cases hm
            · next hsock =>
              cases hset : settleForwarding cs.forwardings globreq reply with
              | none => simp [hset] at hm
              | some fwds =>
                rw [hset, Option.map_some, Option.getD_some] at hm
                obtain ⟨ht, hr, rfl, rfl, fwd, hf, haddr⟩ := (h.each a cs hc).replied hset hm hnone
                have hthere := hall a cs globreq rest fwd (congrArg _ rfl) hc hhead ht hr (by simpa using hsock) hf haddr
                rw [hnone] at hthere
                cases hthere
      · intro hall
        simp only [not_forall] at hall
        obtain ⟨a', cs, globreq, rest, fwd, hsame, hc, hhead, ht, hr, hsock, hf, haddr, hnone⟩ := hall
        cases hsame
        refine ⟨globreq.fwd, globreq.rpf, ?_, Option.not_isSome_iff_eq_none.mp hnone⟩
        have hset : settleForwarding cs.forwardings globreq reply =
            some (cs.forwardings.insert globreq.fwd { fwd with active := true }) := by
          simp [settleForwarding, ht, hr, hf, Option.filter_some, haddr]
        rw [hc, Option.map_some, Option.getD_some, repliedRecords, hhead]
        simp only [hsock, Bool.false_eq_true, if_false, hset, Option.map_some, Option.getD_some]
        exact mem_activeRecords.mpr ⟨{ fwd with active := true }, by rw [get_insert_fwd, if_pos rfl], rfl, haddr⟩

/-- Of the requests and the replies alone it depends whether a record is freed again. -/
theorem freesAgain_iff (h : Handles s) (e : Ev) : FreesAgain s e ↔ ¬ RecordThere s e := by
  cases hp : s.protoError with
  | true =>
    refine iff_of_false ?_ (not_not_intro ?_)
    · rintro ⟨key, addr, hm, -⟩
      simp [removals, hp] at hm
    · unfold RecordThere
      split
      · exact fun hno => nomatch hp.symm.trans hno
      · exact fun hno => nomatch hp.symm.trans hno
      · trivial
  | false =>
    have hnever : ∀ e, RecordThere s e → (∀ key addr, (key, addr) ∈ removals s e → s.cl.rportfwd key addr ≠ none) →
        (FreesAgain s e ↔ ¬ RecordThere s e) := fun e hthere hall =>
      iff_of_false (fun ⟨key, addr, hm, hnone⟩ => hall key addr hm hnone) (not_not_intro hthere)
    have hgone : ∀ (a : Nat) key addr, (key, addr) ∈ ((s.connections[a]?).map (activeRecords ·.forwardings)).getD [] →
        s.cl.rportfwd key addr ≠ none := fun a key addr hm => by
      cases hc : s.connections[a]? with
      | none => simp [hc] at hm
      | some cs =>
        rw [hc, Option.map_some, Option.getD_some] at hm
        exact (h.each a cs hc).activeRecords_there hm
    cases e with
    | packet a type pkt env => exact packet_frees_again h hp
    | globalReply reply pkt => exact reply_frees_again h hp
    | malformed a message =>
      refine hnever _ trivial fun key addr hm => ?_
      simp only [removals, hp, Bool.false_eq_true, if_false] at hm
      split at hm
      · exact hgone a key addr hm
      · cases hm
    | closing a =>
      refine hnever _ trivial fun key addr hm => ?_
      simp only [removals, hp, Bool.false_eq_true, if_false] at hm
      split at hm
      · exact hgone a key addr hm
      · cases hm
    | serverMsg type pkt =>
      refine hnever _ trivial fun key addr hm => ?_
      simp only [removals, hp, Bool.false_eq_true, if_false] at hm
      split at hm
      · next a _ =>
        cases hc : s.connections[a]? with
        | none => simp [hc] at hm
        | some cs =>
          rw [hc, Option.map_some, Option.getD_some] at hm
          split at hm
          · exact (h.each a cs hc).activeRecords_there hm
          · cases hm
      · cases hm
    | unforwardOurs key =>
      refine hnever _ trivial fun k addr hm => ?_
      simp only [removals, hp, Bool.false_eq_true, if_false, List.mem_map, Option.mem_toList] at hm
      obtain ⟨r, hr, he⟩ := hm
      cases he
      exact Option.isSome_iff_ne_none.mp (rportfwd_isSome_iff.mpr ⟨r, (Option.filter_eq_some_iff.mp hr).1, rfl⟩)
    | _ => exact hnever _ trivial fun key addr hm => by simp [removals] at hm

/-! ## All runs -/

/-- In the runs where every request and every reply comes in time, and in no others, the entries
    and the records fit in every state and no record is freed twice. -/
theorem forwardings_live_iff (evs : List Ev) :
    HandlesLive evs ↔ Taken step Timely St.init evs ∧ Asked RecordThere evs := by
  have hruns : Reaches step Paired St.init evs ↔ Taken step Timely St.init evs := reaches_iff_taken (J := Handles) init_handles (fun _ h => h.live)
    (fun _ _ _ h hok hs => step_handles h hok hs) (fun _ _ _ h hok hs => step_untimely h hok hs) evs
  have hasked : Taken step Timely St.init evs → (Asked (fun s e => ¬ FreesAgain s e) evs ↔ Asked RecordThere evs) := fun htaken => by
    have hinv : Reaches step Handles St.init evs := reaches_of_inv init_handles (fun _ _ _ h hok hs => step_handles h hok hs) htaken
    refine forall_congr' fun pre => forall_congr' fun e => forall_congr' fun t => forall_congr' fun hpre => forall_congr' fun hr => ?_
    exact (not_congr (freesAgain_iff (hinv pre t ((List.prefix_append _ _).trans hpre) hr) e)).trans not_not
  constructor
  · rintro ⟨hlive, honce⟩
    have htaken := hruns.mp hlive
    exact ⟨htaken, (hasked htaken).mp honce⟩
  · rintro ⟨htaken, hthere⟩
    exact ⟨hruns.mpr htaken, (hasked htaken).mpr hthere⟩

/-- Two downstreams ask for a forwarding each, the server grants the first, and its downstream
    cancels it. -/
def cancelsActive : List Ev :=
  let request (a : Nat) (name : String) (port : Nat) : Ev := .packet a .globalRequest
    (putString (text name) ++ putBool true ++ putString (text "localhost") ++ put32BitMsbFirst port) ⟨none, false, [], []⟩
  [.accept, .accept, request 0 "tcpip-forward" 8080, request 1 "tcpip-forward" 8081, .globalReply .success [],
    request 0 "cancel-tcpip-forward" 8080]

/-- The entry is active until the server answers, and its record has been freed. -/
theorem cancelled_forwarding_stays_active : ¬ ∀ evs, HandlesLive evs := by
  intro h
  have hrun : (run step St.init cancelsActive).bind (fun s =>
      (s.connections[0]?.bind fun cs => cs.forwardings[(⟨text "localhost", 8080⟩ : FwdKey)]?).map fun fwd =>
        (fwd.active, s.cl.rportfwds[(⟨text "localhost", 8080⟩ : FwdKey)]?)) = some (true, none) := by
    decide +kernel
  obtain ⟨s, hs, hf⟩ := Option.bind_eq_some_iff.mp hrun
  obtain ⟨fwd, hfwd, hf⟩ := Option.map_eq_some_iff.mp hf
  obtain ⟨cs, hcs, hfwd⟩ := Option.bind_eq_some_iff.mp hfwd
  simp only [Prod.mk.injEq] at hf
  obtain ⟨r, hr, -⟩ := ((h cancelsActive).live cancelsActive s (List.prefix_refl _) hs).active 0 cs _ fwd hcs hfwd hf.1
  rw [hf.2] at hr
  cases hr

end Putty.Share
