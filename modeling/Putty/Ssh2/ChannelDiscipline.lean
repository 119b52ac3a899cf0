/-
  Putty.Ssh2.ChannelDiscipline — what may be sent on a channel, and when it goes away.

  No data follows EOF, EOF goes out once and only with both buffers empty, nothing
  follows CLOSE, and the channel is destroyed only after CLOSE went both ways
  (`Discipline`). The layer keeps this for every order of messages, calls and throttling
  as long as the Channel keeps three rules (`SafeEv`): it writes only before EOF is
  sent, sends requests only before CLOSE went either way, and does not let CLOSE go out
  from inside a call whose message the layer still answers (`channel_disciplined`).

  The layer itself does not keep the rules for the Channel: resizing the terminal after
  CLOSE is sent fails the assertion of ssh2_chanreq_init (`resize_after_close`).
-/

import Putty.Ssh2.SendWindow

namespace Putty.Ssh2.Channel

open Putty.Lib Putty.Utils

/-! ## The discipline -/

/-- `m` may be sent after `sent`. -/
def MayFollow (sent : List Msg) (m : Msg) : Prop := .close ∉ sent ∧ (.eof ∈ sent → isData m = false ∧ m ≠ .eof)

def Disciplined (sent : List Msg) : Prop := ∀ as m bs, sent = as ++ m :: bs → MayFollow as m

structure Discipline (pre : List Ev) (s : St) : Prop where
  order : Disciplined (msgs s)
  eofEmpty : .eof ∈ msgs s → s.c.outbuffer = [] ∧ s.c.errbuffer = []
  destroyed : s.life = .destroyed → .close ∈ msgs s ∧ .server .close ∈ pre

/-! ## The rules the Channel has to keep -/

def canClose (c : Ssh2Channel) : Prop := c.halfopen = false ∧ c.chanreqs = [] ∧ c.sentClose = false

/-- Once EOF is sent the Channel wants the close. -/
def wantsAfterEof (c : Ssh2Channel) : Prop := wantClose c.chan true c.rcvdEof = some true

/-- The call lets CLOSE go out. -/
def closing (c : Ssh2Channel) : Op → Prop
  | .initiateClose => canClose c
  | .writeEof => canClose c ∧ c.sentEof = false ∧ buffered c = 0 ∧ wantsAfterEof c
  | .write _ data =>
    canClose c ∧ c.sentEof = false ∧ c.pendingEof = true ∧ buffered c + data.length ≤ c.remwindow.toNat ∧ wantsAfterEof c
  | _ => False

/-- The layer is inside a call whose message it still answers on this channel. -/
def answering (s : St) : Prop := s.pending = some (.request true) ∨ s.pending = some .data ∧ s.c.rcvdClose = true

def SafeOp (s : St) (o : Op) : Prop :=
  (match o with
    | .write _ _ => s.c.sentEof = false
    | .request _ _ => s.c.sentClose = false ∧ s.c.rcvdClose = false
    | _ => True) ∧
  (answering s → ¬ closing s.c o)

def SafeEv (s : St) : Ev → Prop
  | .op o => callable s = true → SafeOp s o
  | _ => True

instance (c : Ssh2Channel) : Decidable (canClose c) := inferInstanceAs (Decidable (_ ∧ _ ∧ _))
instance (c : Ssh2Channel) : Decidable (wantsAfterEof c) := inferInstanceAs (Decidable (_ = _))
instance (s : St) : Decidable (answering s) := inferInstanceAs (Decidable (_ ∨ _ ∧ _))

instance (c : Ssh2Channel) (o : Op) : Decidable (closing c o) := by
  cases o <;> unfold closing <;> infer_instance

instance (s : St) (o : Op) : Decidable (SafeOp s o) := by
  cases o <;> unfold SafeOp <;> infer_instance

instance (s : St) (e : Ev) : Decidable (SafeEv s e) := by
  cases e <;> unfold SafeEv <;> infer_instance

/-! ## Orders of messages -/

theorem disciplined_nil : Disciplined [] := fun as m bs h => by simp at h

theorem disciplined_snoc {sent : List Msg} {m : Msg} (h : Disciplined sent) (hm : MayFollow sent m) :
    Disciplined (sent ++ [m]) := by
  intro as x bs he
  rcases List.eq_nil_or_concat bs with rfl | ⟨cs, y, rfl⟩
  · obtain ⟨h1, h2⟩ := List.append_inj' he rfl
    rw [List.singleton_inj] at h2
    rw [← h1, ← h2]; exact hm
  · rw [List.concat_eq_append, ← List.cons_append, ← List.append_assoc] at he
    exact h as x cs (List.append_inj' he rfl).1

theorem mayFollow_plain {sent : List Msg} {m : Msg} (hc : .close ∉ sent) (hd : isData m = false) (he : m ≠ .eof) :
    MayFollow sent m := ⟨hc, fun _ => ⟨hd, he⟩⟩

theorem mayFollow_early {sent : List Msg} {m : Msg} (hc : .close ∉ sent) (he : .eof ∉ sent) : MayFollow sent m :=
  ⟨hc, fun h => absurd h he⟩

/-! ## The invariant -/

def isSession : Chan → Bool
  | .live (.session _) _ => true
  | _ => false

/-- The log of what was sent agrees with the channel's flags. -/
structure Log (s : St) : Prop where
  order : Disciplined (msgs s)
  close : .close ∈ msgs s ↔ s.c.sentClose = true
  eof : .eof ∈ msgs s → s.c.sentEof = true ∧ s.c.outbuffer = [] ∧ s.c.errbuffer = []

/-- What holds of the flags of a channel that is alive. -/
structure Core (c : Ssh2Channel) : Prop where
  closeEof : c.sentClose = true → c.sentEof = true
  closeReqs : c.sentClose = true → c.chanreqs = []
  rcvd : c.rcvdClose = true → c.rcvdEof = true ∧ c.sentEof = true
  half : c.halfopen = true → c.sentEof = false ∧ c.rcvdEof = false ∧ isSession c.chan = false
  /-- Only a session has its CLOSE sent while its EOF is still pending. -/
  pend : c.pendingEof = true → c.sentEof = true → c.sentClose = true ∧ (isSession c.chan = true ∨ c.shared = true)
  zombie : c.chan = .zombie → c.pendingEof = false
  shared : c.chan = .null ↔ c.shared = true

def Both (c : Ssh2Channel) : Prop := c.sentClose = true ∧ c.rcvdClose = true

/-- What is known where a message's handling will go on. -/
def FrameOk (c : Ssh2Channel) : Frame → Prop
  | .openConfirmation => c.halfopen = false ∧ c.rcvdEof = false ∧ c.shared = false ∧ isSession c.chan = false
  | .openFailure => c.halfopen = true
  | .data => True
  | .request wantReply => c.shared = false ∧ (wantReply = true → c.sentClose = false)
  | .reply => c.shared = false ∧ c.chanreqs ≠ []
  | .eof => c.shared = false ∧ c.rcvdClose = false
  | .closeEof => c.shared = false ∧ c.rcvdClose = false ∧ c.rcvdEof = true ∧ c.halfopen = false
  | .closeThrottle => c.shared = false ∧ c.rcvdClose = false ∧ c.rcvdEof = true ∧ c.sentEof = true

structure Inv (pre : List Ev) (s : St) : Prop where
  log : Log s
  heard : s.c.rcvdClose = true ∨ s.pending = some .closeEof ∨ s.pending = some .closeThrottle → .server .close ∈ pre
  alive : s.life = .alive → Core s.c ∧ ¬ Both s.c ∧ ∀ f, s.pending = some f → FrameOk s.c f
  destroyed : s.life = .destroyed → Both s.c ∧ ∀ f, s.pending = some f → f = .request false
  refused : s.life = .refused → s.pending = none

/-- How a channel changes in a call: the flags that messages set stay, the flags of what
    was sent only rise, and CLOSE goes out only if `P`. -/
structure Evolves (c c' : Ssh2Channel) (P : Prop) : Prop where
  halfopen : c'.halfopen = c.halfopen
  rcvdEof : c'.rcvdEof = c.rcvdEof
  rcvdClose : c'.rcvdClose = c.rcvdClose
  sentEof : c.sentEof = true → c'.sentEof = true
  sentClose : c'.sentClose = true → c.sentClose = true ∨ P
  reqs : c.chanreqs ≠ [] → c'.chanreqs ≠ []
  session : isSession c'.chan = true → isSession c.chan = true

/-- The outcome of a call on a live channel. -/
structure Good (s s' : St) (P : Prop) : Prop where
  log : Log s'
  life : s'.life = .hung ∨ (s'.life = .alive ∧ Core s'.c ∧ ¬ Both s'.c) ∨ (s'.life = .destroyed ∧ Both s'.c ∧ s'.c.chanreqs = [])
  evolves : Evolves s.c s'.c P
  shared : s'.c.shared = s.c.shared
  pending : s'.pending = s.pending

theorem Evolves.refl (c : Ssh2Channel) (P : Prop) : Evolves c c P := ⟨rfl, rfl, rfl, id, .inl, id, id⟩

theorem Evolves.trans {a b c : Ssh2Channel} {P Q R : Prop} (h : Evolves a b P) (h' : Evolves b c Q) (hP : P → R)
    (hQ : Q → R) : Evolves a c R := by
  refine ⟨h'.halfopen.trans h.halfopen, h'.rcvdEof.trans h.rcvdEof, h'.rcvdClose.trans h.rcvdClose,
    fun e => h'.sentEof (h.sentEof e), fun e => ?_, fun e => h'.reqs (h.reqs e), fun e => h.session (h'.session e)⟩
  rcases h'.sentClose e with e | e
  · exact (h.sentClose e).imp_right hP
  · exact .inr (hQ e)

theorem Core.not_null {c : Ssh2Channel} (hc : Core c) (hs : c.shared = false) : c.chan ≠ .null := fun h => by
  rw [hc.shared.mp h] at hs; cases hs

theorem wantClose_some {chan : Chan} (h : chan ≠ .null) (e r : Bool) : ∃ want, wantClose chan e r = some want := by
  cases chan with
  | live policy n => cases policy <;> exact ⟨_, rfl⟩
  | zombie => exact ⟨_, rfl⟩
  | null => exact absurd rfl h

/-! ## Closing -/

/-- When the Channel wants the close, no EOF is pending, unless it is a session. -/
theorem Core.want_pending {c : Ssh2Channel} (hc : Core c) (hs : c.sentClose = false) (hp : c.pendingEof = true)
    (hw : wantClose c.chan c.sentEof c.rcvdEof = some true) : isSession c.chan = true := by
  cases hch : c.chan with
  | live policy n =>
    cases policy with
    | session => rfl
    | default =>
      simp only [hch, wantClose, Option.some.injEq, Bool.and_eq_true] at hw
      have := (hc.pend hp hw.1).1
      rw [hs] at this; cases this
  | zombie => rw [hc.zombie hch] at hp; cases hp
  | null => simp [hch, wantClose] at hw

theorem core_close {c : Ssh2Channel} (hc : Core c) (hcan : canClose c)
    (hw : wantClose c.chan c.sentEof c.rcvdEof = some true) : Core { c with sentEof := true, sentClose := true } :=
  ⟨fun _ => rfl, fun _ => hcan.2.1, fun h => ⟨(hc.rcvd h).1, rfl⟩, fun h => absurd (hcan.1.symm.trans h) (by simp),
    fun hp _ => ⟨rfl, .inl (hc.want_pending hcan.2.2 hp hw)⟩, hc.zombie, hc.shared⟩

theorem log_close {s : St} (hl : Log s) (hs : s.c.sentClose = false) :
    Log { push s .close with c := { s.c with sentEof := true, sentClose := true } } := by
  have hno : .close ∉ msgs s := fun h => by rw [hl.close.mp h] at hs; cases hs
  have hm : msgs { push s .close with c := { s.c with sentEof := true, sentClose := true } } = msgs s ++ [.close] :=
    msgs_push s .close
  refine ⟨?_, ?_, fun h => ?_⟩
  · rw [hm]; exact disciplined_snoc hl.order (mayFollow_plain hno rfl (by simp))
  · rw [hm]; simp
  · rw [hm] at h
    exact ⟨rfl, (hl.eof (by simpa using h)).2⟩

theorem destroy_good {s s0 : St} {P : Prop} (hl : Log s) (hb : Both s.c) (hr : s.c.chanreqs = []) (hev : Evolves s0.c s.c P)
    (hsh : s.c.shared = s0.c.shared) (hp : s.pending = s0.pending) : ∃ s', destroy s = some s' ∧ Good s0 s' P := by
  refine ⟨{ closeLocal s with life := .destroyed }, by simp [destroy, hr], ?_⟩
  unfold closeLocal
  split
  · exact ⟨⟨hl.order, hl.close, hl.eof⟩, .inr (.inr ⟨rfl, hb, hr⟩), hev, hsh, hp⟩
  · exact ⟨⟨hl.order, hl.close, hl.eof⟩, .inr (.inr ⟨rfl, hb, hr⟩), ⟨hev.halfopen, hev.rcvdEof, hev.rcvdClose,
      hev.sentEof, hev.sentClose, hev.reqs, fun h => by simp [isSession] at h⟩, hsh, hp⟩

theorem checkClose_good {s : St} (ha : s.life = .alive) (hl : Log s) (hc : Core s.c) (hs : s.c.shared = false)
    (hhalf : s.c.halfopen = true → ¬ Both s.c) :
    ∃ s', checkClose s = some s' ∧
      Good s s' (canClose s.c ∧ wantClose s.c.chan s.c.sentEof s.c.rcvdEof = some true) := by
  obtain ⟨want, hw⟩ := wantClose_some (hc.not_null hs) s.c.sentEof s.c.rcvdEof
  unfold checkClose
  by_cases hh : s.c.halfopen = true
  · rw [if_pos hh]
    exact ⟨s, rfl, hl, .inr (.inl ⟨ha, hc, hhalf hh⟩), .refl _ _, rfl, rfl⟩
  rw [if_neg hh]
  simp only [hw, Option.bind_eq_bind, Option.bind_some]
  by_cases hgo : want = true ∧ s.c.chanreqs = [] ∧ ¬ s.c.sentClose = true
  · rw [if_pos hgo]
    obtain ⟨rfl, hr, hsc⟩ := hgo
    have hsc : s.c.sentClose = false := by simpa using hsc
    have hcan : canClose s.c := ⟨by simpa using hh, hr, hsc⟩
    have hev : Evolves s.c { s.c with sentEof := true, sentClose := true }
        (canClose s.c ∧ some true = some true) :=
      ⟨rfl, rfl, rfl, fun _ => rfl, fun _ => .inr ⟨hcan, rfl⟩, fun h => absurd hr h, id⟩
    by_cases hrc : s.c.rcvdClose = true
    · rw [if_pos (by simp [push, hrc]), if_neg (by simp [push, hr])]
      exact destroy_good (log_close hl hsc) ⟨rfl, hrc⟩ hr hev rfl rfl
    · rw [if_neg (by simp [push, hrc])]
      exact ⟨_, rfl, log_close hl hsc, .inr (.inl ⟨ha, core_close hc hcan hw, fun h => hrc h.2⟩), hev, rfl, rfl⟩
  · rw [if_neg hgo]
    by_cases hb : Both s.c
    · rw [if_pos (by simpa [Both] using hb), if_neg (by simp [hc.closeReqs hb.1])]
      exact destroy_good hl hb (hc.closeReqs hb.1) (.refl _ _) rfl rfl
    · rw [if_neg (by simpa [Both] using hb)]
      exact ⟨s, rfl, hl, .inr (.inl ⟨ha, hc, hb⟩), .refl _ _, rfl, rfl⟩

theorem checkClose_life {s s' : St} (h : checkClose s = some s') : s'.life = s.life ∨ s'.life = .destroyed := by
  unfold checkClose at h
  by_cases hh : s.c.halfopen = true
  · rw [if_pos hh] at h
    cases h; exact .inl rfl
  rw [if_neg hh] at h
  obtain ⟨want, -, h⟩ := Option.bind_eq_some_iff.mp h
  dsimp only at h
  generalize hs1 : (if want = true ∧ s.c.chanreqs = [] ∧ ¬ s.c.sentClose = true then
    { push s .close with c := { (push s .close).c with sentEof := true, sentClose := true } } else s) = s1 at h
  have hlife : s1.life = s.life := by rw [← hs1]; split <;> rfl
  rw [← hlife]
  split at h
  · split at h
    · cases h
    · unfold destroy at h
      split at h
      · cases h
      · cases h; exact .inr rfl
  · cases h; exact .inl rfl

theorem log_eof {s : St} (hl : Log s) (he : s.c.sentEof = false) (hs : s.c.sentClose = false) (hb : buffered s.c = 0) :
    Log { push s .eof with c := { s.c with pendingEof := false, sentEof := true } } := by
  have hno : .close ∉ msgs s := fun h => by rw [hl.close.mp h] at hs; cases hs
  have hne : .eof ∉ msgs s := fun h => by rw [(hl.eof h).1] at he; cases he
  have hm : msgs { push s .eof with c := { s.c with pendingEof := false, sentEof := true } } = msgs s ++ [.eof] :=
    msgs_push s .eof
  refine ⟨?_, ?_, fun _ => ⟨rfl, buffered_eq_zero.mp hb⟩⟩
  · rw [hm]; exact disciplined_snoc hl.order (mayFollow_early hno hne)
  · rw [hm, List.mem_append]
    simpa using hl.close

theorem Core.unrcvd {c : Ssh2Channel} (hc : Core c) (h : c.rcvdEof ≠ true ∨ c.sentEof ≠ true) : c.rcvdClose = false := by
  rw [← Bool.not_eq_true]
  intro hr
  obtain ⟨h1, h2⟩ := hc.rcvd hr
  rcases h with h | h
  · exact h h1
  · exact h h2

theorem Core.open_of_reqs {c : Ssh2Channel} (hc : Core c) (h : c.chanreqs ≠ []) : c.sentClose = false := by
  rw [← Bool.not_eq_true]
  intro hs
  exact h (hc.closeReqs hs)

theorem Core.unclosed {c : Ssh2Channel} (hc : Core c) (he : c.sentEof = false) : c.sentClose = false := by
  cases hs : c.sentClose with
  | false => rfl
  | true => rw [hc.closeEof hs] at he; cases he

/-- An EOF that cannot go yet leaves the channel as it is; one that goes may take CLOSE with it. -/
theorem tryEof_good {s : St} (ha : s.life = .alive) (hl : Log s) (hc : Core { s.c with pendingEof := false })
    (hs : s.c.shared = false) (hp : s.c.pendingEof = true) (he : s.c.sentEof = false)
    (hkeep : s.c.halfopen = true ∨ buffered s.c ≠ 0 → Core s.c) :
    ∃ s', tryEof s = some s' ∧ Good s s' (canClose s.c ∧ buffered s.c = 0 ∧ wantsAfterEof s.c) ∧
      (s.c.halfopen = false → buffered s.c = 0 → s'.c.sentEof = true) := by
  have hsc : s.c.sentClose = false := hc.unclosed he
  have hb : ¬ Both s.c := fun h => by rw [h.1] at hsc; cases hsc
  unfold tryEof
  rw [if_neg (by simp [hp])]
  by_cases hh : s.c.halfopen = true
  · rw [if_pos hh]
    exact ⟨s, rfl, ⟨hl, .inr (.inl ⟨ha, hkeep (.inl hh), hb⟩), .refl _ _, rfl, rfl⟩,
      fun h => absurd (h.symm.trans hh) (by simp)⟩
  rw [if_neg hh]
  by_cases hbuf : buffered s.c = 0
  · rw [if_neg (by rw [buffered] at hbuf; omega)]
    have hc' : Core { s.c with pendingEof := false, sentEof := true } :=
      ⟨fun _ => rfl, hc.closeReqs, fun h => ⟨(hc.rcvd h).1, rfl⟩, fun h => absurd h hh, fun h => absurd h (by simp),
        fun _ => rfl, hc.shared⟩
    obtain ⟨s', h1, hg⟩ := checkClose_good (s := { push s .eof with c := { s.c with pendingEof := false, sentEof := true } })
      ha (log_eof hl he hsc hbuf) hc' hs fun h => absurd h hh
    refine ⟨s', h1, ⟨hg.log, hg.life, ?_, hg.shared, hg.pending⟩, fun _ _ => hg.evolves.sentEof rfl⟩
    have hev : Evolves s.c { s.c with pendingEof := false, sentEof := true } False :=
      ⟨rfl, rfl, rfl, fun _ => rfl, .inl, id, id⟩
    exact hev.trans hg.evolves False.elim fun h => ⟨h.1, hbuf, h.2⟩
  · rw [if_pos (by rw [buffered] at hbuf; omega)]
    exact ⟨s, rfl, ⟨hl, .inr (.inl ⟨ha, hkeep (.inr hbuf), hb⟩), .refl _ _, rfl, rfl⟩, fun _ h => absurd h hbuf⟩

theorem Core.noPending {c : Ssh2Channel} (hc : Core c) : Core { c with pendingEof := false } :=
  ⟨hc.closeEof, hc.closeReqs, hc.rcvd, hc.half, fun h => absurd h (by simp), fun _ => rfl, hc.shared⟩

/-! ## Requests and windows -/

/-- The same channel up to its windows, its throttling and requests added. -/
structure Same (c c' : Ssh2Channel) : Prop where
  halfopen : c'.halfopen = c.halfopen
  sentEof : c'.sentEof = c.sentEof
  sentClose : c'.sentClose = c.sentClose
  rcvdEof : c'.rcvdEof = c.rcvdEof
  rcvdClose : c'.rcvdClose = c.rcvdClose
  pendingEof : c'.pendingEof = c.pendingEof
  outbuffer : c'.outbuffer = c.outbuffer
  errbuffer : c'.errbuffer = c.errbuffer
  shared : c'.shared = c.shared
  chan : c'.chan = c.chan
  reqs : ∃ l, c'.chanreqs = c.chanreqs ++ l ∧ (c.sentClose = true → l = [])

/-- Nothing is sent but requests and window adjustments, and that only before CLOSE. -/
structure Plain (s s' : St) : Prop where
  same : Same s.c s'.c
  life : s'.life = s.life
  pending : s'.pending = s.pending
  msgs : ∃ ms, msgs s' = msgs s ++ ms ∧ ∀ m ∈ ms, isData m = false ∧ m ≠ .eof ∧ m ≠ .close ∧ s.c.sentClose = false

theorem Same.refl (c : Ssh2Channel) : Same c c := ⟨rfl, rfl, rfl, rfl, rfl, rfl, rfl, rfl, rfl, rfl, [], by simp⟩

theorem Plain.refl (s : St) : Plain s s := ⟨.refl _, rfl, rfl, [], by simp⟩

theorem Plain.trans {a b c : St} (h : Plain a b) (h' : Plain b c) : Plain a c := by
  obtain ⟨l, hl, hl0⟩ := h.same.reqs
  obtain ⟨l', hl', hl0'⟩ := h'.same.reqs
  obtain ⟨ms, hm, hms⟩ := h.msgs
  obtain ⟨ms', hm', hms'⟩ := h'.msgs
  refine ⟨⟨h'.same.halfopen.trans h.same.halfopen, h'.same.sentEof.trans h.same.sentEof,
    h'.same.sentClose.trans h.same.sentClose, h'.same.rcvdEof.trans h.same.rcvdEof,
    h'.same.rcvdClose.trans h.same.rcvdClose, h'.same.pendingEof.trans h.same.pendingEof,
    h'.same.outbuffer.trans h.same.outbuffer, h'.same.errbuffer.trans h.same.errbuffer,
    h'.same.shared.trans h.same.shared, h'.same.chan.trans h.same.chan, l ++ l', by rw [hl', hl, List.append_assoc], ?_⟩,
    h'.life.trans h.life, h'.pending.trans h.pending, ms ++ ms', by rw [hm', hm, List.append_assoc], ?_⟩
  · intro e
    rw [hl0 e, hl0' (h.same.sentClose.trans e)]; rfl
  · intro m hm
    rcases List.mem_append.mp hm with hm | hm
    · exact hms m hm
    · obtain ⟨h1, h2, h3, h4⟩ := hms' m hm
      exact ⟨h1, h2, h3, h.same.sentClose.symm.trans h4⟩

theorem disciplined_append {sent ms : List Msg} (h : Disciplined sent) (hm : ∀ m ∈ ms, MayFollow sent m ∧ m ≠ .eof ∧ m ≠ .close) :
    Disciplined (sent ++ ms) := by
  induction ms generalizing sent with
  | nil => simpa using h
  | cons m ms ih =>
    rw [List.append_cons]
    refine ih (disciplined_snoc h (hm m (by simp)).1) fun x hx => ?_
    obtain ⟨⟨hc, he⟩, hxe, hxc⟩ := hm x (by simp [hx])
    obtain ⟨-, hme, hmc⟩ := hm m (by simp)
    refine ⟨⟨by simp [hc, Ne.symm hmc], fun h => he ?_⟩, hxe, hxc⟩
    simpa [Ne.symm hme] using h

theorem Core.same {c c' : Ssh2Channel} (hc : Core c) (h : Same c c') : Core c' := by
  obtain ⟨l, hl, hl0⟩ := h.reqs
  refine ⟨?_, fun e => ?_, ?_, ?_, ?_, ?_, ?_⟩
  · rw [h.sentClose, h.sentEof]; exact hc.closeEof
  · rw [h.sentClose] at e
    rw [hl, hl0 e, hc.closeReqs e]; rfl
  · rw [h.rcvdClose, h.rcvdEof, h.sentEof]; exact hc.rcvd
  · rw [h.halfopen, h.sentEof, h.rcvdEof, h.chan]; exact hc.half
  · rw [h.pendingEof, h.sentEof, h.sentClose, h.chan, h.shared]; exact hc.pend
  · rw [h.chan, h.pendingEof]; exact hc.zombie
  · rw [h.chan, h.shared]; exact hc.shared

theorem Same.evolves {c c' : Ssh2Channel} (h : Same c c') (P : Prop) : Evolves c c' P := by
  obtain ⟨l, hl, -⟩ := h.reqs
  refine ⟨h.halfopen, h.rcvdEof, h.rcvdClose, fun e => h.sentEof.trans e, fun e => .inl (h.sentClose ▸ e), fun e => ?_, ?_⟩
  · rw [hl]; simp [e]
  · rw [h.chan]; exact id

theorem Log.plain {s s' : St} (hl : Log s) (h : Plain s s') : Log s' := by
  obtain ⟨ms, hm, hms⟩ := h.msgs
  refine ⟨?_, ?_, fun e => ?_⟩
  · rw [hm]
    refine disciplined_append hl.order fun m hm => ?_
    obtain ⟨hd, he, hc, hs⟩ := hms m hm
    exact ⟨mayFollow_plain (fun h => by rw [hl.close.mp h] at hs; cases hs) hd he, he, hc⟩
  · rw [hm, h.same.sentClose, ← hl.close, List.mem_append]
    exact ⟨fun e => e.resolve_right fun e => (hms _ e).2.2.1 rfl, .inl⟩
  · rw [hm, List.mem_append] at e
    rw [h.same.sentEof, h.same.outbuffer, h.same.errbuffer]
    exact hl.eof (e.resolve_right fun e => (hms _ e).2.1 rfl)

theorem Plain.good {s s' : St} (h : Plain s s') (ha : s.life = .alive) (hl : Log s) (hc : Core s.c) (hb : ¬ Both s.c)
    (P : Prop) : Good s s' P :=
  ⟨hl.plain h, .inr (.inl ⟨h.life.trans ha, hc.same h.same, fun e => hb ⟨h.same.sentClose ▸ e.1, h.same.rcvdClose ▸ e.2⟩⟩),
    h.same.evolves P, h.same.shared, h.pending⟩

theorem chanreqInit_plain {s : St} (type : String) (handler : Option Handler) (hs : s.c.sentClose = false)
    (hr : s.c.rcvdClose = false) : ∃ s', chanreqInit s type handler = some s' ∧ Plain s s' := by
  refine ⟨push { s with c := { s.c with chanreqs := s.c.chanreqs ++ handler.toList } } (.request type handler.isSome),
    by simp [chanreqInit, hs, hr], ?_⟩
  refine ⟨⟨rfl, rfl, rfl, rfl, rfl, rfl, rfl, rfl, rfl, rfl, handler.toList, rfl, ?_⟩, rfl, rfl,
    [.request type handler.isSome], msgs_push _ _, ?_⟩
  · intro e; rw [hs] at e; cases e
  · simp [isData, hs]

theorem setWindow_plain (cfg : Config) {s : St} (hc : Core s.c) (hs : s.c.shared = false) (newwin : Int) :
    ∃ s', setWindow cfg s newwin = some s' ∧ Plain s s' := by
  unfold setWindow
  by_cases hguard : (s.c.rcvdEof || s.c.sentClose) = true
  · rw [if_pos hguard]
    exact ⟨s, rfl, .refl s⟩
  rw [if_neg hguard]
  simp only [Bool.or_eq_true, not_or, Bool.not_eq_true] at hguard
  have hrc : s.c.rcvdClose = false := hc.unrcvd (.inl (by simp [hguard.1]))
  obtain ⟨fixed, hfix⟩ : ∃ fixed, initialFixedWindowSize s.c.chan = some fixed := by
    have := hc.not_null hs
    cases hch : s.c.chan with
    | live p n => exact ⟨n, rfl⟩
    | zombie => exact ⟨0, rfl⟩
    | null => exact absurd hch this
  simp only [hfix, Option.bind_eq_bind, Option.bind_some]
  by_cases hf : fixed ≠ 0
  · rw [if_pos hf]
    exact ⟨s, rfl, .refl s⟩
  rw [if_neg hf]
  generalize (if cfg.bugSsh2Maxpkt = true ∧ (newwin < 0 ∨ newwin > ourV2Maxpkt) then ourV2Maxpkt else newwin) = win
  by_cases hbig : win.tdiv 2 ≥ s.c.locwindow
  · rw [if_pos hbig]
    by_cases hack : win = s.c.locmaxwin ∧ ¬ cfg.bugChokesOnWinadj = true
    · rw [if_pos hack]
      obtain ⟨s1, h1, hp⟩ := chanreqInit_plain "winadj@putty.projects.tartarus.org" (some (.winadj (win - s.c.locwindow)))
        hguard.2 hrc
      simp only [h1, Option.bind_some]
      refine ⟨_, rfl, hp.trans ⟨⟨rfl, rfl, rfl, rfl, rfl, rfl, rfl, rfl, rfl, rfl, [], by simp [push]⟩, rfl, rfl,
        [.windowAdjust (toUInt32 (win - s.c.locwindow))], by simp [msgs, push], ?_⟩⟩
      simp [isData, hp.same.sentClose, hguard.2]
    · rw [if_neg hack]
      refine ⟨_, rfl, ⟨rfl, rfl, rfl, rfl, rfl, rfl, rfl, rfl, rfl, rfl, [], by simp [push]⟩, rfl, rfl,
        [.windowAdjust (toUInt32 (win - s.c.locwindow))], by simp [msgs, push], ?_⟩
      simp [isData, hguard.2]
  · rw [if_neg hbig]
    exact ⟨s, rfl, .refl s⟩

/-! ## Sending -/

/-- Data goes out only before EOF and CLOSE. -/
theorem Log.sends {s s' : St} {ms : List Msg} (hl : Log s) (h : Sends s s' ms) (he : s.c.sentEof = false)
    (hs : s.c.sentClose = false) : Log s' := by
  have hno : .close ∉ msgs s := fun h => by rw [hl.close.mp h] at hs; cases hs
  have hne : .eof ∉ msgs s := fun h => by rw [(hl.eof h).1] at he; cases he
  have hdata : ∀ m ∈ ms, MayFollow (msgs s) m ∧ m ≠ .eof ∧ m ≠ .close := fun m hm => by
    have hd := (h.data m hm).1
    refine ⟨mayFollow_early hno hne, ?_, ?_⟩ <;> rintro rfl <;> simp [isData] at hd
  have hm := h.msgs
  obtain ⟨ob, eb, w, e⟩ := h.state
  refine ⟨hm ▸ disciplined_append hl.order hdata, ?_, fun hmem => ?_⟩
  · have hsc : s'.c.sentClose = s.c.sentClose := by rw [e]
    rw [hm, hsc, ← hl.close, List.mem_append]
    exact ⟨fun hx => hx.resolve_right fun hx => (hdata _ hx).2.2 rfl, .inl⟩
  · rw [hm, List.mem_append] at hmem
    exact absurd (hmem.resolve_right fun hx => (hdata _ hx).2.1 rfl) hne

/-- What a send may end in CLOSE for: a pending EOF with all that is buffered fitting the window. -/
def drains (c : Ssh2Channel) : Prop :=
  canClose c ∧ c.pendingEof = true ∧ buffered c ≤ c.remwindow.toNat ∧ wantsAfterEof c

theorem trySend_good {s : St} (ha : s.life = .alive) (hl : Log s) (hc : Core s.c) (hs : s.c.shared = false)
    (he : s.c.sentEof = false) : ∃ s', trySend s = some s' ∧ Good s s' (drains s.c) := by
  obtain ⟨s1, ms, hsend, hlife, -, htry⟩ := trySend_sends s ha
  have hl1 := hl.sends hsend he (hc.unclosed he)
  have hbuf := hsend.buffered
  have hwin := hsend.window
  obtain ⟨ob, eb, w, e⟩ := hsend.state
  have hc1 : s1.c = { s.c with outbuffer := ob, errbuffer := eb, remwindow := w } := by rw [e]
  have hpend : s1.pending = s.pending := by rw [e]
  have hcore : Core s1.c := by
    rw [hc1]; exact ⟨hc.closeEof, hc.closeReqs, hc.rcvd, hc.half, hc.pend, hc.zombie, hc.shared⟩
  have hev : ∀ P, Evolves s.c s1.c P := fun P => by
    rw [hc1]; exact ⟨rfl, rfl, rfl, id, .inl, id, id⟩
  have hsh : s1.c.shared = s.c.shared := by rw [hc1]
  have hunclosed := hc.unclosed he
  have hnb : ¬ Both s1.c := fun h => by
    have : s1.c.sentClose = s.c.sentClose := by rw [hc1]
    rw [Both, this, hunclosed] at h; exact absurd h.1 (by simp)
  rcases hlife with ⟨hhung, -⟩ | ⟨ha1, -⟩
  · rw [htry, if_neg fun h => h.1 hhung]
    exact ⟨s1, rfl, hl1, .inl hhung, hev _, hsh, hpend⟩
  by_cases hgo : s1.life ≠ .hung ∧ buffered s1.c = 0 ∧ s1.c.pendingEof = true
  · obtain ⟨s', h1, hg, -⟩ := tryEof_good ha1 hl1 hcore.noPending (hsh.trans hs) hgo.2.2 (by rw [hc1]; exact he) fun _ => hcore
    rw [htry, if_pos hgo]
    refine ⟨s', h1, hg.log, hg.life, (hev False).trans hg.evolves False.elim fun h => ?_, hg.shared.trans hsh,
      hg.pending.trans hpend⟩
    have hp : s.c.pendingEof = true := by have := hgo.2.2; rw [hc1] at this; exact this
    refine ⟨?_, hp, by omega, ?_⟩
    · have := h.1; rw [hc1] at this; exact this
    · have := h.2.2; rw [hc1] at this; exact this
  · rw [htry, if_neg hgo]
    exact ⟨s1, rfl, hl1, .inr (.inl ⟨ha1, hcore, hnb⟩), hev _, hsh, hpend⟩

/-! ## Calls from the Channel -/

/-- On a zombie the layer itself sends EOF, with the buffers cleared. -/
theorem writeEof_good {s : St} (ha : s.life = .alive) (hl : Log s) (hc : Core s.c) (hb : ¬ Both s.c)
    (hs : s.c.shared = false) (hz : s.c.chan = .zombie → s.c.halfopen = false ∧ buffered s.c = 0) :
    ∃ s', writeEof s = some s' ∧ Good s s' (closing s.c .writeEof) ∧
      (s.c.halfopen = false → buffered s.c = 0 → s'.c.sentEof = true) := by
  unfold writeEof
  by_cases he : s.c.sentEof = true
  · rw [if_pos he]
    exact ⟨s, rfl, ⟨hl, .inr (.inl ⟨ha, hc, hb⟩), .refl _ _, rfl, rfl⟩, fun _ _ => he⟩
  rw [if_neg he]
  have he : s.c.sentEof = false := by simpa using he
  have hkeep : s.c.halfopen = true ∨ buffered s.c ≠ 0 → Core { s.c with pendingEof := true } := fun h =>
    ⟨hc.closeEof, hc.closeReqs, hc.rcvd, hc.half, fun _ h' => absurd (he.symm.trans h') (by simp), fun h' => by
      obtain ⟨h1, h2⟩ := hz h'
      rcases h with h | h
      · exact absurd (h1.symm.trans h) (by simp)
      · exact absurd h2 h, hc.shared⟩
  obtain ⟨s', h1, hg, hset⟩ := tryEof_good (s := { s with c := { s.c with pendingEof := true } })
    ha ⟨hl.order, hl.close, hl.eof⟩ hc.noPending hs rfl he hkeep
  refine ⟨s', h1, ⟨hg.log, hg.life, ?_, hg.shared, hg.pending⟩, hset⟩
  have hev : Evolves s.c { s.c with pendingEof := true } False := ⟨rfl, rfl, rfl, id, .inl, id, id⟩
  exact hev.trans hg.evolves False.elim fun h => ⟨h.1, he, h.2.1, h.2.2⟩

theorem initiateClose_good {s : St} (ha : s.life = .alive) (hl : Log s) (hc : Core s.c) (hs : s.c.shared = false) :
    ∃ s', initiateClose s = some s' ∧ Good s s' (closing s.c .initiateClose) := by
  have hcore : Core { s.c with chan := .zombie, pendingEof := false } :=
    ⟨hc.closeEof, hc.closeReqs, hc.rcvd, fun h => ⟨(hc.half h).1, (hc.half h).2.1, rfl⟩, fun h => absurd h (by simp),
      fun _ => rfl, by simp [hs]⟩
  have hhalf : s.c.halfopen = true → ¬ Both s.c := fun h hb => by
    have := (hc.rcvd hb.2).1
    rw [(hc.half h).2.1] at this; cases this
  obtain ⟨s', h1, hg⟩ := checkClose_good (s := { s with c := { s.c with chan := .zombie, pendingEof := false } })
    ha ⟨hl.order, hl.close, hl.eof⟩ hcore hs hhalf
  refine ⟨s', by simpa [initiateClose, closeLocal, hs] using h1, hg.log, hg.life, ?_, hg.shared, hg.pending⟩
  have hev : Evolves s.c { s.c with chan := .zombie, pendingEof := false } False :=
    ⟨rfl, rfl, rfl, id, .inl, id, fun h => absurd h (by simp [isSession])⟩
  exact hev.trans hg.evolves False.elim fun h => h.1

theorem unthrottle_plain (cfg : Config) {s : St} (hc : Core s.c) (hs : s.c.shared = false) (bufsize : Nat) :
    ∃ s', unthrottle cfg s bufsize = some s' ∧ Plain s s' := by
  have hlast : ∀ (s1 : St) (p : Prop) [Decidable p],
      Plain s1 (if p then { s1 with c := { s1.c with throttlingConn := false } } else s1) := fun s1 p _ => by
    split
    · exact ⟨⟨rfl, rfl, rfl, rfl, rfl, rfl, rfl, rfl, rfl, rfl, [], by simp⟩, rfl, rfl, [], by simp [msgs], by simp⟩
    · exact .refl s1
  unfold unthrottle
  dsimp only
  generalize (if cfg.sshIsSimple = true then 0 else s.c.locmaxwin.toNat) = buflimit
  by_cases hlt : bufsize < buflimit
  · obtain ⟨s1, h1, hp⟩ := setWindow_plain cfg hc hs (toInt (buflimit - bufsize))
    rw [if_pos hlt, h1]
    exact ⟨_, rfl, hp.trans (hlast s1 _)⟩
  · rw [if_neg hlt]
    exact ⟨_, rfl, hlast s _⟩

theorem write_good {s : St} (ha : s.life = .alive) (hl : Log s) (hc : Core s.c) (hs : s.c.shared = false)
    (he : s.c.sentEof = false) (isStderr : Bool) (data : List UInt8) :
    ∃ s', write s isStderr data = some s' ∧ Good s s' (closing s.c (.write isStderr data)) := by
  have hne : .eof ∉ msgs s := fun h => by rw [(hl.eof h).1] at he; cases he
  have hadd : ∀ ob eb, bufchainSize ob + bufchainSize eb = buffered s.c + data.length →
      ∃ s', trySend { s with c := { s.c with outbuffer := ob, errbuffer := eb } } = some s' ∧
        Good s s' (closing s.c (.write isStderr data)) := fun ob eb hsize => by
    obtain ⟨s', h1, hg⟩ := trySend_good (s := { s with c := { s.c with outbuffer := ob, errbuffer := eb } }) ha
      ⟨hl.order, hl.close, fun h => absurd h hne⟩
      ⟨hc.closeEof, hc.closeReqs, hc.rcvd, hc.half, hc.pend, hc.zombie, hc.shared⟩ hs he
    have hev : Evolves s.c { s.c with outbuffer := ob, errbuffer := eb } False := ⟨rfl, rfl, rfl, id, .inl, id, id⟩
    refine ⟨s', h1, hg.log, hg.life, hev.trans hg.evolves False.elim fun h => ?_, hg.shared, hg.pending⟩
    exact ⟨h.1, he, h.2.1, by rw [← hsize]; exact h.2.2.1, h.2.2.2⟩
  unfold write
  rw [if_neg (by simp [he])]
  cases isStderr with
  | false => exact hadd _ _ (by rw [bufchainSize_bufchainAdd, buffered]; omega)
  | true => exact hadd _ _ (by rw [bufchainSize_bufchainAdd, buffered]; omega)

/-- A live Channel changes its window or its policy, not what kind it is. -/
theorem Core.rechan {c : Ssh2Channel} {p p' : Policy} {n n' : Nat} (hc : Core c) (hch : c.chan = .live p n)
    (hsess : isSession (.live p' n') = isSession (.live p n)) : Core { c with chan := .live p' n' } :=
  ⟨hc.closeEof, hc.closeReqs, hc.rcvd, fun h => by rw [hsess, ← hch]; exact hc.half h,
    fun h h' => by rw [hsess, ← hch]; exact hc.pend h h', fun h => absurd h (by simp), by
      have := hc.shared
      rw [hch] at this
      simpa using this⟩

theorem rechan_good {s : St} {p p' : Policy} {n n' : Nat} (ha : s.life = .alive) (hl : Log s) (hc : Core s.c)
    (hb : ¬ Both s.c) (hch : s.c.chan = .live p n) (hsess : isSession (.live p' n') = isSession (.live p n)) :
    Good s { s with c := { s.c with chan := .live p' n' } } False :=
  ⟨⟨hl.order, hl.close, hl.eof⟩, .inr (.inl ⟨ha, hc.rechan hch hsess, hb⟩),
    ⟨rfl, rfl, rfl, id, .inl, id, fun h => by rw [hch, ← hsess]; exact h⟩, rfl, rfl⟩

theorem windowOverrideRemoved_good (cfg : Config) {s : St} {p : Policy} {n : Nat} (ha : s.life = .alive) (hl : Log s)
    (hc : Core s.c) (hb : ¬ Both s.c) (hs : s.c.shared = false) (hch : s.c.chan = .live p n) :
    ∃ s', windowOverrideRemoved cfg s = some s' ∧ Good s s' False := by
  have hsess : isSession (.live p 0) = isSession (.live p n) := by cases p <;> rfl
  have h0 := rechan_good ha hl hc hb hch hsess
  simp only [windowOverrideRemoved, hch]
  obtain ⟨s', h1, hp⟩ := setWindow_plain cfg (s := { s with c := { s.c with chan := .live p 0 } })
    (hc.rechan hch hsess) hs (if cfg.sshIsSimple then ourV2Bigwin else ourV2Winsize)
  have hg := hp.good ha h0.log (hc.rechan hch hsess) hb False
  exact ⟨s', h1, hg.log, hg.life, h0.evolves.trans hg.evolves id id, hg.shared, hg.pending⟩

theorem sessionSeen_good (cfg : Config) {s : St} {p : Policy} {n : Nat} (ha : s.life = .alive) (hl : Log s)
    (hc : Core s.c) (hb : ¬ Both s.c) (hch : s.c.chan = .live p n) :
    ∃ s', doOp cfg s .sessionSeen = some s' ∧ Good s s' False := by
  simp only [doOp, hch]
  cases p with
  | default => exact ⟨_, rfl, rechan_good ha hl hc hb hch rfl⟩
  | session seen => exact ⟨_, rfl, rechan_good ha hl hc hb hch rfl⟩

/-- Every call but the hand-over keeps the invariant of a live channel. -/
theorem doOp_good (cfg : Config) {s : St} (hcall : callable s = true) (hl : Log s) (hc : Core s.c) (hb : ¬ Both s.c)
    {o : Op} (hok : SafeOp s o) (ho : o = .x11SharingHandover → s.pending ≠ some .data) :
    ∃ s', doOp cfg s o = some s' ∧ Good s s' (closing s.c o) := by
  obtain ⟨ha, hlive⟩ : s.life = .alive ∧ ∃ p n, s.c.chan = .live p n := by
    simp only [callable, Bool.and_eq_true, decide_eq_true_eq] at hcall
    refine ⟨hcall.1, ?_⟩
    have := hcall.2
    cases hch : s.c.chan with
    | live p n => exact ⟨p, n, rfl⟩
    | zombie => rw [hch] at this; cases this
    | null => rw [hch] at this; cases this
  obtain ⟨p, n, hlive⟩ := hlive
  have hs : s.c.shared = false := by
    cases h : s.c.shared with
    | false => rfl
    | true => rw [hc.shared.mpr h] at hlive; cases hlive
  cases o with
  | write e data => exact write_good ha hl hc hs hok.1 e data
  | writeEof =>
    obtain ⟨s', h1, hg, -⟩ := writeEof_good ha hl hc hb hs fun h => absurd (hlive.symm.trans h) (by simp)
    exact ⟨s', h1, hg⟩
  | initiateClose => exact initiateClose_good ha hl hc hs
  | unthrottle bufsize =>
    obtain ⟨s', h1, hp⟩ := unthrottle_plain cfg hc hs bufsize
    exact ⟨s', h1, hp.good ha hl hc hb _⟩
  | windowOverrideRemoved => exact windowOverrideRemoved_good cfg ha hl hc hb hs hlive
  | x11SharingHandover =>
    refine ⟨s, by simp [doOp, ho rfl], hl, .inr (.inl ⟨ha, hc, hb⟩), .refl _ _, rfl, rfl⟩
  | request type wantReply =>
    obtain ⟨s', h1, hp⟩ := chanreqInit_plain type (if wantReply then some .response else none) hok.1.1 hok.1.2
    exact ⟨s', h1, hp.good ha hl hc hb _⟩
  | sessionSeen => exact sessionSeen_good cfg ha hl hc hb hlive

/-! ## One step -/

/-- What a call does to a live channel with a message half handled. -/
theorem Good.inv {pre pre' : List Ev} {s s' : St} {P : Prop} (hi : Inv pre s) (ha : s.life = .alive) (hg : Good s s' P)
    (hpre : pre <+: pre') (hans : answering s → ¬ P) : Inv pre' s' := by
  obtain ⟨hc, hb, hf⟩ := hi.alive ha
  have hev := hg.evolves
  -- CLOSE does not go out where it would be followed by an answer
  have hquiet : answering s → s'.c.sentClose = true → s.c.sentClose = true := fun h hs =>
    (hev.sentClose hs).resolve_right (hans h)
  refine ⟨hg.log, ?_, fun ha' => ?_, fun hd => ?_, fun hr => ?_⟩
  · rw [hev.rcvdClose, hg.pending]
    exact fun h => hpre.subset (hi.heard h)
  · rcases hg.life with h | ⟨-, hc', hb'⟩ | ⟨h, -⟩
    · rw [ha'] at h; cases h
    · refine ⟨hc', hb', fun f hp => ?_⟩
      rw [hg.pending] at hp
      have hfr := hf f hp
      cases f with
      | openConfirmation =>
        refine ⟨hev.halfopen.trans hfr.1, hev.rcvdEof.trans hfr.2.1, hg.shared.trans hfr.2.2.1, ?_⟩
        cases h : isSession s'.c.chan with
        | false => rfl
        | true => exact absurd (hev.session h) (by simp [hfr.2.2.2])
      | openFailure => exact hev.halfopen.trans hfr
      | data => trivial
      | request wantReply =>
        refine ⟨hg.shared.trans hfr.1, fun hw => ?_⟩
        subst hw
        cases h : s'.c.sentClose with
        | false => rfl
        | true => rw [← hfr.2 rfl, hquiet (.inl hp) h]
      | reply => exact ⟨hg.shared.trans hfr.1, hev.reqs hfr.2⟩
      | eof => exact ⟨hg.shared.trans hfr.1, hev.rcvdClose.trans hfr.2⟩
      | closeEof =>
        exact ⟨hg.shared.trans hfr.1, hev.rcvdClose.trans hfr.2.1, hev.rcvdEof.trans hfr.2.2.1, hev.halfopen.trans hfr.2.2.2⟩
      | closeThrottle =>
        exact ⟨hg.shared.trans hfr.1, hev.rcvdClose.trans hfr.2.1, hev.rcvdEof.trans hfr.2.2.1, hev.sentEof hfr.2.2.2⟩
    · rw [ha'] at h; cases h
  · rcases hg.life with h | ⟨h, -⟩ | ⟨-, hboth, hreqs⟩
    · rw [hd] at h; cases h
    · rw [hd] at h; cases h
    · refine ⟨hboth, fun f hp => ?_⟩
      rw [hg.pending] at hp
      have hfr := hf f hp
      have hrc : s.c.rcvdClose = true := hev.rcvdClose ▸ hboth.2
      have hre := (hc.rcvd hrc).1
      cases f with
      | openConfirmation => exact absurd hre (by simp [hfr.2.1])
      | openFailure => exact absurd hre (by simp [(hc.half hfr).2.1])
      | data => exact absurd ⟨hquiet (.inr ⟨hp, hrc⟩) hboth.1, hrc⟩ hb
      | request wantReply =>
        cases wantReply with
        | false => rfl
        | true => exact absurd (hquiet (.inl hp) hboth.1) (by simp [hfr.2 rfl])
      | reply => exact absurd hreqs (hev.reqs hfr.2)
      | eof => exact absurd hrc (by simp [hfr.2])
      | closeEof => exact absurd hrc (by simp [hfr.2.1])
      | closeThrottle => exact absurd hrc (by simp [hfr.2.1])
  · rcases hg.life with h | ⟨h, -⟩ | ⟨h, -⟩ <;> rw [hr] at h <;> cases h

/-- A live channel between two messages. -/
theorem inv_idle {pre : List Ev} {s : St} (hl : Log s) (ha : s.life = .alive) (hc : Core s.c) (hb : ¬ Both s.c)
    (hp : s.pending = none) (hheard : s.c.rcvdClose = true → .server .close ∈ pre) : Inv pre s := by
  refine ⟨hl, fun h => ?_, fun _ => ⟨hc, hb, fun f h => ?_⟩, fun h => ?_, fun _ => hp⟩
  · rcases h with h | h | h
    · exact hheard h
    · rw [hp] at h; cases h
    · rw [hp] at h; cases h
  · rw [hp] at h; cases h
  · rw [ha] at h; cases h

/-- A message calls into the Channel. -/
theorem inv_call {pre : List Ev} {s : St} (hl : Log s) (ha : s.life = .alive) (hc : Core s.c) (hb : ¬ Both s.c) {f : Frame}
    (hp : s.pending = some f) (hf : FrameOk s.c f)
    (hheard : s.c.rcvdClose = true ∨ f = .closeEof ∨ f = .closeThrottle → .server .close ∈ pre) : Inv pre s := by
  refine ⟨hl, fun h => ?_, fun _ => ⟨hc, hb, fun g h => ?_⟩, fun h => ?_, fun h => ?_⟩
  · rw [hp, Option.some.injEq, Option.some.injEq] at h
    exact hheard h
  · rw [hp] at h; cases h; exact hf
  · rw [ha] at h; cases h
  · rw [ha] at h; cases h

/-- Once a channel has ended, only its log matters. -/
theorem inv_ended {pre : List Ev} {s : St} (hl : Log s) (hlife : s.life = .stopped ∨ s.life = .hung)
    (hheard : s.c.rcvdClose = true ∨ s.pending = some .closeEof ∨ s.pending = some .closeThrottle → .server .close ∈ pre) :
    Inv pre s := by
  refine ⟨hl, hheard, fun h => ?_, fun h => ?_, fun h => ?_⟩ <;> rcases hlife with h' | h' <;> rw [h] at h' <;> cases h'

/-- The outcome of a call made by a message that nothing is left of. -/
theorem Good.inv_idle {pre : List Ev} {s s' : St} {P : Prop} (hg : Good s s' P) (hp : s.pending = none)
    (hheard : s.c.rcvdClose = true → .server .close ∈ pre) : Inv pre s' := by
  have hp' := hg.pending.trans hp
  have hh : s'.c.rcvdClose = true → .server .close ∈ pre := fun h => hheard (hg.evolves.rcvdClose ▸ h)
  rcases hg.life with h | ⟨h, hc, hb⟩ | ⟨h, hb, -⟩
  · refine inv_ended hg.log (.inr h) fun e => ?_
    rw [hp'] at e
    exact hh (e.resolve_right (by simp))
  · exact Channel.inv_idle hg.log h hc hb hp' hh
  · refine ⟨hg.log, fun e => ?_, fun e => ?_, fun _ => ⟨hb, fun f e => ?_⟩, fun e => ?_⟩
    · rw [hp'] at e
      exact hh (e.resolve_right (by simp))
    · rw [h] at e; cases e
    · rw [hp'] at e; cases e
    · rw [h] at e; cases e

theorem closeFinish_inv {pre : List Ev} {s : St} (hl : Log s) (ha : s.life = .alive) (hc : Core s.c) (hb : ¬ Both s.c)
    (hs : s.c.shared = false) (hp : s.pending = none) (hre : s.c.rcvdEof = true) (hse : s.c.sentEof = true)
    (hheard : .server .close ∈ pre) : ∃ s', closeFinish s = some s' ∧ Inv pre s' := by
  unfold closeFinish
  by_cases hrc : s.c.rcvdClose = true
  · rw [if_pos hrc]
    exact ⟨s, rfl, inv_idle hl ha hc hb hp fun _ => hheard⟩
  · rw [if_neg hrc]
    have hcore : Core { s.c with rcvdClose := true } :=
      ⟨hc.closeEof, hc.closeReqs, fun _ => ⟨hre, hse⟩, hc.half, hc.pend, hc.zombie, hc.shared⟩
    obtain ⟨s', h1, hg⟩ := checkClose_good (s := { s with c := { s.c with rcvdClose := true } }) ha
      ⟨hl.order, hl.close, hl.eof⟩ hcore hs fun h => absurd ((hc.half h).1.symm.trans hse) (by simp)
    exact ⟨s', h1, hg.inv_idle hp fun _ => hheard⟩

/-- The requests a CLOSE finds outstanding are dropped, unless one of their handlers reads the NULL packet. -/
theorem closeReqs_spec : ∀ (l : List Handler) (s : St), s.life = .alive → s.c.sentClose = false ∨ l = [] →
    Log s → Core s.c → Log (closeReqs s l) ∧ (closeReqs s l).pending = s.pending ∧
      (closeReqs s l).c.rcvdClose = s.c.rcvdClose ∧
      ((closeReqs s l).life = .stopped ∨ (closeReqs s l).life = .alive ∧ Core (closeReqs s l).c ∧
        (closeReqs s l).c.halfopen = s.c.halfopen ∧ (closeReqs s l).c.sentEof = s.c.sentEof ∧
        (closeReqs s l).c.sentClose = s.c.sentClose ∧ (closeReqs s l).c.rcvdEof = s.c.rcvdEof ∧
        (closeReqs s l).c.shared = s.c.shared)
  | [], s, ha, _, hl, hc => by
    refine ⟨⟨hl.order, hl.close, hl.eof⟩, rfl, rfl, .inr ⟨ha, ?_, rfl, rfl, rfl, rfl, rfl⟩⟩
    exact ⟨hc.closeEof, fun _ => rfl, hc.rcvd, hc.half, hc.pend, hc.zombie, hc.shared⟩
  | .winadj size :: rest, s, ha, hs, hl, hc =>
    closeReqs_spec rest { s with c := handleWinadjResponse s.c size } ha (hs.imp_right (by simp))
      ⟨hl.order, hl.close, hl.eof⟩ ⟨hc.closeEof, hc.closeReqs, hc.rcvd, hc.half, hc.pend, hc.zombie, hc.shared⟩
  | .response :: rest, s, _, _, hl, _ => ⟨⟨hl.order, hl.close, hl.eof⟩, rfl, rfl, .inl rfl⟩

/-- CLOSE, once the Channel knows of the EOF in it. -/
theorem closeRest_inv (cfg : Config) {pre : List Ev} {s : St} (hl : Log s) (ha : s.life = .alive) (hc : Core s.c)
    (hb : ¬ Both s.c) (hs : s.c.shared = false) (hp : s.pending = none) (hre : s.c.rcvdEof = true)
    (hh : s.c.halfopen = false) (hheard : .server .close ∈ pre) : ∃ s', closeRest cfg s = some s' ∧ Inv pre s' := by
  -- the state after the requests are cleaned up
  obtain ⟨s1, h1, hl1, hp1, hlife⟩ : ∃ s1, (if cfg.bugSendsLateRequestReply then s else closeReqs s s.c.chanreqs) = s1 ∧
      Log s1 ∧ s1.pending = none ∧ (s1.life = .stopped ∨ s1.life = .alive ∧ Core s1.c ∧ ¬ Both s1.c ∧ s1.c.halfopen = false ∧
        s1.c.rcvdEof = true ∧ s1.c.shared = false) := by
    split
    · exact ⟨s, rfl, hl, hp, .inr ⟨ha, hc, hb, hh, hre, hs⟩⟩
    · have hreq : s.c.sentClose = false ∨ s.c.chanreqs = [] := by
        cases h : s.c.sentClose with
        | false => exact .inl rfl
        | true => exact .inr (hc.closeReqs h)
      obtain ⟨h1, h2, h3, h4⟩ := closeReqs_spec s.c.chanreqs s ha hreq hl hc
      refine ⟨_, rfl, h1, h2.trans hp, h4.imp_right fun ⟨a1, a2, a3, a4, a5, a6, a7⟩ => ⟨a1, a2, fun h => hb ⟨?_, ?_⟩,
        a3.trans hh, a6.trans hre, a7.trans hs⟩⟩
      · exact a5.symm.trans h.1
      · exact h3.symm.trans h.2
  unfold closeRest
  dsimp only
  rw [h1]
  rcases hlife with hst | ⟨ha1, hc1, hb1, hh1, hre1, hs1⟩
  · rw [if_pos hst]
    exact ⟨s1, rfl, inv_ended hl1 (.inl hst) fun _ => hheard⟩
  rw [if_neg (by rw [ha1]; simp)]
  by_cases hse : s1.c.sentEof = true
  · rw [if_pos hse]
    exact closeFinish_inv hl1 ha1 hc1 hb1 hs1 hp1 hre1 hse hheard
  rw [if_neg hse]
  have hse : s1.c.sentEof = false := by simpa using hse
  have hrc : s1.c.rcvdClose = false := hc1.unrcvd (.inr (by simp [hse]))
  obtain ⟨s2, h2, hg, hset⟩ := writeEof_good (s := { s1 with c := { s1.c with outbuffer := [], errbuffer := [] } }) ha1
    ⟨hl1.order, hl1.close, fun h => ⟨(hl1.eof h).1, rfl, rfl⟩⟩
    ⟨hc1.closeEof, hc1.closeReqs, hc1.rcvd, hc1.half, hc1.pend, hc1.zombie, hc1.shared⟩ hb1 hs1 fun _ => ⟨hh1, rfl⟩
  have hnd : s2.life ≠ .destroyed := fun hd => by
    rcases hg.life with h | ⟨h, -⟩ | ⟨-, hboth, -⟩
    · rw [hd] at h; cases h
    · rw [hd] at h; cases h
    · exact absurd (hg.evolves.rcvdClose.symm.trans hboth.2) (by simp [hrc])
  refine ⟨{ checkThrottle s2 with pending := some .closeThrottle }, by simp [h2, touch, hnd], ?_⟩
  have hl2 : Log { checkThrottle s2 with pending := some .closeThrottle } := ⟨hg.log.order, hg.log.close, hg.log.eof⟩
  rcases hg.life with h | ⟨h, hc2, hb2⟩ | ⟨h, -⟩
  · exact inv_ended hl2 (.inr h) fun _ => hheard
  · refine inv_call hl2 h hc2 hb2 rfl ⟨hg.shared.trans hs1, hg.evolves.rcvdClose.trans hrc, hg.evolves.rcvdEof.trans hre1, ?_⟩
      fun _ => hheard
    exact hset hh1 rfl
  · exact absurd h hnd

theorem trySendAndUnthrottle_inv {pre : List Ev} {s : St} (hl : Log s) (ha : s.life = .alive) (hc : Core s.c)
    (hs : s.c.shared = false) (hp : s.pending = none) (he : s.c.sentEof = false)
    (hheard : s.c.rcvdClose = true → .server .close ∈ pre) : ∃ s', trySendAndUnthrottle s = some s' ∧ Inv pre s' := by
  have hrc : s.c.rcvdClose = false := hc.unrcvd (.inr (by simp [he]))
  obtain ⟨s1, h1, hg⟩ := trySend_good ha hl hc hs he
  unfold trySendAndUnthrottle
  rw [if_neg (by simp [he]), h1]
  simp only [Option.bind_eq_bind, Option.bind_some]
  by_cases hgo : s1.life ≠ .hung ∧ buffered s1.c = 0
  · rw [if_pos hgo]
    rcases hg.life with h | ⟨h, hc1, hb1⟩ | ⟨-, hboth, -⟩
    · exact absurd h hgo.1
    · refine ⟨checkThrottle { s1 with c := { s1.c with throttledByBacklog := false } }, by simp [touch, h], ?_⟩
      refine inv_idle ⟨hg.log.order, hg.log.close, hg.log.eof⟩ h
        ⟨hc1.closeEof, hc1.closeReqs, hc1.rcvd, hc1.half, hc1.pend, hc1.zombie, hc1.shared⟩ hb1 (hg.pending.trans hp) fun h => ?_
      exact hheard (hg.evolves.rcvdClose ▸ h)
    · exact absurd (hg.evolves.rcvdClose.symm.trans hboth.2) (by simp [hrc])
  · rw [if_neg hgo]
    exact ⟨s1, rfl, hg.inv_idle hp hheard⟩

/-- A protocol error, or a process that stops. -/
theorem Inv.stop {pre pre' : List Ev} {s : St} (hi : Inv pre s) (hpre : pre <+: pre') : Inv pre' { s with life := .stopped } :=
  inv_ended ⟨hi.log.order, hi.log.close, hi.log.eof⟩ (.inl rfl) fun h => hpre.subset (hi.heard h)

theorem Inv.mono {pre pre' : List Ev} {s : St} (hi : Inv pre s) (hpre : pre <+: pre') : Inv pre' s :=
  ⟨hi.log, fun h => hpre.subset (hi.heard h), hi.alive, hi.destroyed, hi.refused⟩

theorem serverMsg_inv (cfg : Config) {pre pre' : List Ev} {s : St} (hi : Inv pre s) (ha : s.life = .alive)
    (hp : s.pending = none) (m : ServerMsg) (hpre : pre <+: pre') (hnow : m = .close → .server .close ∈ pre') :
    ∃ s', serverMsg cfg s m = some s' ∧ Inv pre' s' := by
  obtain ⟨hc, hb, -⟩ := hi.alive ha
  have hl := hi.log
  have hheard : s.c.rcvdClose = true → .server .close ∈ pre' := fun h => hpre.subset (hi.heard (.inl h))
  unfold serverMsg
  by_cases hs : s.c.shared = true
  · rw [if_pos hs]
    exact ⟨s, rfl, hi.mono hpre⟩
  rw [if_neg hs]
  have hs : s.c.shared = false := by simpa using hs
  by_cases hhalf : s.c.halfopen ≠ expectHalfopen m
  · rw [if_pos hhalf]
    exact ⟨_, rfl, hi.stop hpre⟩
  rw [if_neg hhalf]
  have hhalf : s.c.halfopen = expectHalfopen m := by simpa using hhalf
  cases m with
  | openConfirmation remoteid remwindow remmaxpkt =>
    refine ⟨_, rfl, inv_call ⟨hl.order, hl.close, hl.eof⟩ ha
      ⟨hc.closeEof, hc.closeReqs, hc.rcvd, fun h => absurd h (by simp), hc.pend, hc.zombie, hc.shared⟩ hb rfl
      ⟨rfl, (hc.half hhalf).2.1, hs, (hc.half hhalf).2.2⟩ fun h => hheard (h.resolve_right (by simp))⟩
  | openFailure =>
    exact ⟨_, rfl, inv_call ⟨hl.order, hl.close, hl.eof⟩ ha hc hb rfl hhalf fun h => hheard (h.resolve_right (by simp))⟩
  | data extType bytes =>
    exact ⟨_, rfl, inv_call ⟨hl.order, hl.close, hl.eof⟩ ha
      ⟨hc.closeEof, hc.closeReqs, hc.rcvd, hc.half, hc.pend, hc.zombie, hc.shared⟩ hb rfl trivial
      fun h => hheard (h.resolve_right (by simp))⟩
  | malformedData => exact ⟨s, rfl, hi.mono hpre⟩
  | windowAdjust n =>
    dsimp only
    by_cases he : s.c.sentEof = true
    · rw [if_pos he]
      exact ⟨s, rfl, hi.mono hpre⟩
    · rw [if_neg he]
      exact trySendAndUnthrottle_inv (s := { s with c := { s.c with remwindow := s.c.remwindow + n } })
        ⟨hl.order, hl.close, hl.eof⟩ ha ⟨hc.closeEof, hc.closeReqs, hc.rcvd, hc.half, hc.pend, hc.zombie, hc.shared⟩ hs hp
        (by simpa using he) hheard
  | request known wantReply =>
    dsimp only
    unfold serverRequest
    have hquiet : (wantReply && !s.c.sentClose) = true → s.c.sentClose = false := fun h => by simpa using (Bool.and_eq_true_iff.mp h).2
    by_cases hk : known = true
    · simp only [hk, if_true]
      exact ⟨_, rfl, inv_call ⟨hl.order, hl.close, hl.eof⟩ ha hc hb rfl ⟨hs, hquiet⟩ fun h => hheard (h.resolve_right (by simp))⟩
    · simp only [hk]
      by_cases hw : (wantReply && !s.c.sentClose) = true
      · have hg : Plain s (push s .failure) :=
          ⟨.refl _, rfl, rfl, [.failure], msgs_push s _, by simp [isData, hquiet hw]⟩
        exact ⟨push s .failure, by simp [hw], (hg.good ha hl hc hb False).inv_idle hp hheard⟩
      · exact ⟨s, by simp [hw], hi.mono hpre⟩
  | reply success =>
    dsimp only
    cases hr : s.c.chanreqs with
    | nil => exact ⟨_, rfl, hi.stop hpre⟩
    | cons handler rest =>
      have hsc : s.c.sentClose = false := hc.open_of_reqs (by simp [hr])
      cases handler with
      | winadj size =>
        obtain ⟨s', h1, hg⟩ := checkClose_good (s := { s with c := { handleWinadjResponse s.c size with chanreqs := rest } })
          ha ⟨hl.order, hl.close, hl.eof⟩
          ⟨hc.closeEof, fun h => absurd h (by simp [handleWinadjResponse, hsc]), hc.rcvd, hc.half, hc.pend, hc.zombie, hc.shared⟩
          hs fun _ h => hb h
        exact ⟨s', h1, hg.inv_idle hp hheard⟩
      | response =>
        dsimp only
        by_cases hz : s.c.chan = .zombie
        · rw [if_pos hz]
          exact ⟨_, rfl, hi.stop hpre⟩
        · rw [if_neg hz]
          exact ⟨_, rfl, inv_call ⟨hl.order, hl.close, hl.eof⟩ ha hc hb rfl ⟨hs, by simp [hr]⟩
            fun h => hheard (h.resolve_right (by simp))⟩
  | eof =>
    dsimp only
    by_cases hre : s.c.rcvdEof = true
    · rw [if_pos hre]
      exact ⟨s, rfl, hi.mono hpre⟩
    · rw [if_neg hre]
      have hrc : s.c.rcvdClose = false := hc.unrcvd (.inl hre)
      exact ⟨_, rfl, inv_call ⟨hl.order, hl.close, hl.eof⟩ ha
        ⟨hc.closeEof, hc.closeReqs, fun h => ⟨rfl, (hc.rcvd h).2⟩, fun h => absurd h (by simp [hhalf]), hc.pend,
          hc.zombie, hc.shared⟩ hb rfl ⟨hs, hrc⟩ fun h => hheard (h.resolve_right (by simp))⟩
  | close =>
    dsimp only
    by_cases hre : s.c.rcvdEof = true
    · rw [if_pos hre]
      exact closeRest_inv cfg hl ha hc hb hs hp hre hhalf (hnow rfl)
    · rw [if_neg hre]
      have hrc : s.c.rcvdClose = false := hc.unrcvd (.inl hre)
      exact ⟨_, rfl, inv_call ⟨hl.order, hl.close, hl.eof⟩ ha
        ⟨hc.closeEof, hc.closeReqs, fun h => ⟨rfl, (hc.rcvd h).2⟩, fun h => absurd h (by simp [hhalf]), hc.pend,
          hc.zombie, hc.shared⟩ hb rfl ⟨hs, hrc, rfl, hhalf⟩ fun _ => hnow rfl⟩

theorem resumeData_plain (cfg : Config) {s : St} (hc : Core s.c) (bufsize : Int) :
    ∃ s', resumeData cfg s bufsize = some s' ∧ Plain s s' := by
  unfold resumeData
  by_cases hs : s.c.shared = true
  · rw [if_pos hs]
    exact ⟨s, rfl, .refl s⟩
  rw [if_neg hs]
  have hs : s.c.shared = false := by simpa using hs
  obtain ⟨s1, h1, hp1⟩ : ∃ s1, (if s.c.remlocwin ≤ 0 ∧ s.c.throttleState = .unthrottled ∧ s.c.locmaxwin < 0x40000000 then
      { s with c := { s.c with locmaxwin := s.c.locmaxwin + ourV2Winsize } } else s) = s1 ∧ Plain s s1 := by
    split
    · exact ⟨_, rfl, ⟨rfl, rfl, rfl, rfl, rfl, rfl, rfl, rfl, rfl, rfl, [], by simp⟩, rfl, rfl, [], by simp [msgs], by simp⟩
    · exact ⟨_, rfl, .refl s⟩
  have hlast : ∀ (s2 : St) (p : Prop) [Decidable p],
      Plain s2 (if p then { s2 with c := { s2.c with throttlingConn := true } } else s2) := fun s2 p _ => by
    split
    · exact ⟨⟨rfl, rfl, rfl, rfl, rfl, rfl, rfl, rfl, rfl, rfl, [], by simp⟩, rfl, rfl, [], by simp [msgs], by simp⟩
    · exact .refl s2
  dsimp only
  rw [h1]
  by_cases hlt : bufsize < s1.c.locmaxwin
  · obtain ⟨s2, h2, hp2⟩ := setWindow_plain cfg (hc.same hp1.same) (hp1.same.shared.trans hs) (s1.c.locmaxwin - bufsize)
    rw [if_pos hlt, h2]
    exact ⟨_, rfl, (hp1.trans hp2).trans (hlast s2 _)⟩
  · rw [if_neg hlt]
    exact ⟨_, rfl, hp1.trans (hlast s1 _)⟩

/-- The Channel returns to a message that was half handled. -/
theorem resume_inv (cfg : Config) {pre : List Ev} {s : St} (hi : Inv pre s) (ha : s.life = .alive) {f : Frame}
    (hp : s.pending = some f) (value : Nat) :
    ∃ s', resume cfg { s with pending := none } value f = some s' ∧ Inv pre s' := by
  obtain ⟨hc, hb, hf⟩ := hi.alive ha
  have hl : Log { s with pending := none } := ⟨hi.log.order, hi.log.close, hi.log.eof⟩
  have hheard : s.c.rcvdClose = true → .server .close ∈ pre := fun h => hi.heard (.inl h)
  have htouch : touch { s with pending := none } = some { s with pending := none } := by simp [touch, ha]
  have hfr := hf f hp
  cases f with
  | request wantReply =>
    simp only [resume]
    by_cases hw : wantReply = true
    · rw [if_pos hw, htouch]
      have hsc := hfr.2 hw
      have hplain : Plain { s with pending := none } (push { s with pending := none } (if value ≠ 0 then .success else .failure)) :=
        ⟨.refl _, rfl, rfl, [if value ≠ 0 then .success else .failure], msgs_push _ _, by
          intro m hm
          rw [List.mem_singleton.mp hm]
          split <;> simp [isData, hsc]⟩
      exact ⟨_, rfl, (hplain.good ha hl hc hb False).inv_idle rfl hheard⟩
    · rw [if_neg hw]
      exact ⟨_, rfl, inv_idle hl ha hc hb rfl hheard⟩
  | openConfirmation =>
    obtain ⟨hh, hre, hs, hsess⟩ := hfr
    have hrc : s.c.rcvdClose = false := hc.unrcvd (.inl (by simp [hre]))
    obtain ⟨s1, h1, hg⟩ := checkClose_good (s := { s with pending := none }) ha hl hc hs fun _ h => hb h
    simp only [resume, htouch, Option.bind_eq_bind, Option.bind_some, h1]
    rcases hg.life with h | ⟨ha1, hc1, hb1⟩ | ⟨-, hboth, -⟩
    · rcases checkClose_life h1 with h' | h' <;> rw [h] at h'
      · exact absurd (h'.trans ha) (by simp)
      · cases h'
    · have htouch1 : touch s1 = some s1 := by simp [touch, ha1]
      simp only [htouch1, Option.bind_some]
      have hheard1 : s1.c.rcvdClose = true → .server .close ∈ pre := fun h => hheard (hg.evolves.rcvdClose ▸ h)
      by_cases hpe : s1.c.pendingEof = true
      · rw [if_pos hpe]
        -- only a session would have its EOF pending when CLOSE is sent
        have hse : s1.c.sentEof = false := by
          cases h : s1.c.sentEof with
          | false => rfl
          | true =>
            rcases (hc1.pend hpe h).2 with h | h
            · exact absurd (hg.evolves.session h) (by simp [hsess])
            · exact absurd (hg.shared.symm.trans h) (by simp [hs])
        obtain ⟨s2, h2, hg2, -⟩ := tryEof_good ha1 hg.log hc1.noPending (hg.shared.trans hs) hpe hse fun _ => hc1
        exact ⟨s2, h2, hg2.inv_idle hg.pending hheard1⟩
      · rw [if_neg hpe]
        exact ⟨s1, rfl, inv_idle hg.log ha1 hc1 hb1 hg.pending hheard1⟩
    · exact absurd (hg.evolves.rcvdClose.symm.trans hboth.2) (by simp [hrc])
  | openFailure =>
    exact ⟨{ s with pending := none, life := .refused }, by simp [resume, htouch], ⟨hl.order, hl.close, hl.eof⟩,
      fun h => hheard (h.resolve_right (by simp)), fun h => absurd h (by simp), fun h => absurd h (by simp), fun _ => rfl⟩
  | data =>
    obtain ⟨s', h1, hplain⟩ := resumeData_plain cfg (s := { s with pending := none }) hc (toInt value)
    exact ⟨s', by simp [resume, htouch, h1], (hplain.good ha hl hc hb False).inv_idle rfl hheard⟩
  | reply =>
    have hsc : s.c.sentClose = false := hc.open_of_reqs hfr.2
    obtain ⟨s', h1, hg⟩ := checkClose_good (s := { s with pending := none, c := { s.c with chanreqs := s.c.chanreqs.tail } })
      ha ⟨hl.order, hl.close, hl.eof⟩
      ⟨hc.closeEof, fun h => absurd h (by simp [hsc]), hc.rcvd, hc.half, hc.pend, hc.zombie, hc.shared⟩ hfr.1 fun _ h => hb h
    exact ⟨s', by simp [resume, htouch, h1], hg.inv_idle rfl hheard⟩
  | eof =>
    obtain ⟨s', h1, hg⟩ := checkClose_good (s := { s with pending := none }) ha hl hc hfr.1 fun _ h => hb h
    exact ⟨s', by simp [resume, htouch, h1], hg.inv_idle rfl hheard⟩
  | closeEof =>
    have hclose := hi.heard (.inr (.inl hp))
    obtain ⟨s', h1, hinv⟩ := closeRest_inv cfg (s := { s with pending := none }) hl ha hc hb hfr.1 rfl hfr.2.2.1 hfr.2.2.2 hclose
    exact ⟨s', by simp [resume, htouch, h1], hinv⟩
  | closeThrottle =>
    have hclose := hi.heard (.inr (.inr hp))
    obtain ⟨s', h1, hinv⟩ := closeFinish_inv (s := { s with pending := none }) hl ha hc hb hfr.1 rfl hfr.2.2.1 hfr.2.2.2 hclose
    exact ⟨s', by simp [resume, htouch, h1], hinv⟩

/-- The hand-over to a downstream, from inside chan_send. -/
theorem handover_inv {pre pre' : List Ev} {s : St} (hi : Inv pre s) (ha : s.life = .alive) (hp : s.pending = some .data)
    (hpre : pre <+: pre') : Inv pre' (x11SharingHandover s) := by
  obtain ⟨hc, hb, -⟩ := hi.alive ha
  refine inv_call (s := x11SharingHandover s) ⟨hi.log.order, hi.log.close, hi.log.eof⟩ ha
    ⟨hc.closeEof, hc.closeReqs, hc.rcvd, fun h => ⟨(hc.half h).1, (hc.half h).2.1, rfl⟩,
      fun h h' => ⟨(hc.pend h h').1, .inr rfl⟩, fun h => absurd h (by simp [x11SharingHandover]), by simp [x11SharingHandover]⟩
    hb hp trivial fun h => hpre.subset (hi.heard (.inl (h.resolve_right (by simp))))

theorem step_inv (cfg : Config) {pre : List Ev} {s : St} {e : Ev} (hi : Inv pre s) (hok : SafeEv s e) :
    ∃ s', step cfg s e = some s' ∧ Inv (pre ++ [e]) s' := by
  have hpre : pre <+: pre ++ [e] := List.prefix_append _ _
  cases e with
  | server m =>
    by_cases hgo : s.life = .alive ∧ s.pending = none
    · simp only [step, if_pos hgo]
      exact serverMsg_inv cfg hi hgo.1 hgo.2 m hpre fun h => by rw [h]; simp
    · exact ⟨s, by simp only [step, if_neg hgo], hi.mono hpre⟩
  | ret value =>
    cases hp : s.pending with
    | none => exact ⟨s, by simp [step, hp], hi.mono hpre⟩
    | some f =>
      simp only [step, hp]
      cases hlife : s.life with
      | alive =>
        obtain ⟨s', h1, h2⟩ := resume_inv cfg hi hlife hp value
        rw [hlife] at h1
        exact ⟨s', by simpa using h1, h2.mono hpre⟩
      | destroyed =>
        obtain ⟨hb, hf⟩ := hi.destroyed hlife
        obtain rfl := hf f hp
        refine ⟨{ s with pending := none }, by simp [resume, hlife], ⟨hi.log.order, hi.log.close, hi.log.eof⟩,
          fun _ => hpre.subset (hi.heard (.inl hb.2)), fun h => ?_, fun _ => ⟨hb, fun f h => by cases h⟩, fun _ => rfl⟩
        rw [hlife] at h; cases h
      | refused => rw [hi.refused hlife] at hp; cases hp
      | stopped => exact ⟨s, by simp, hi.mono hpre⟩
      | hung => exact ⟨s, by simp, hi.mono hpre⟩
  | op o =>
    by_cases hcall : callable s = true
    · simp only [step, if_pos hcall]
      have ha : s.life = .alive := by
        simp only [callable, Bool.and_eq_true, decide_eq_true_eq] at hcall
        exact hcall.1
      obtain ⟨hc, hb, -⟩ := hi.alive ha
      have hsafe := hok hcall
      by_cases hx : o = .x11SharingHandover ∧ s.pending = some .data
      · obtain ⟨rfl, hp⟩ := hx
        exact ⟨x11SharingHandover s, by simp [doOp, hp], handover_inv hi ha hp hpre⟩
      · obtain ⟨s', h1, hg⟩ := doOp_good cfg hcall hi.log hc hb hsafe fun h hp => hx ⟨h, hp⟩
        exact ⟨s', h1, hg.inv hi ha hpre hsafe.2⟩
    · exact ⟨s, by simp only [step, if_neg hcall], hi.mono hpre⟩
  | throttleAll throttled =>
    refine ⟨_, rfl, ?_⟩
    split
    · exact ⟨⟨hi.log.order, hi.log.close, hi.log.eof⟩, fun h => hpre.subset (hi.heard h), hi.alive, hi.destroyed, hi.refused⟩
    · exact ⟨⟨hi.log.order, hi.log.close, hi.log.eof⟩, fun h => hpre.subset (hi.heard h), hi.alive, hi.destroyed, hi.refused⟩

/-! ## Runs -/

theorem start_inv (cfg : Config) (o : Opening) : Inv [] (start cfg o) := by
  refine inv_idle ⟨disciplined_nil, ?_, fun h => absurd h (by simp [msgs, start])⟩ rfl ?_ ?_ rfl fun h => ?_
  · cases o with
    | «local» fixed => simp [msgs, start, openChannel, channelInit]
    | remote policy fixed remoteid winsize pktsize =>
      by_cases hf : fixed = 0 <;> simp [msgs, start, openChannel, channelInit, hf]
  · cases o with
    | «local» fixed => constructor <;> simp [start, openChannel, channelInit, isSession]
    | remote policy fixed remoteid winsize pktsize =>
      by_cases hf : fixed = 0 <;> constructor <;> simp [start, openChannel, channelInit, hf]
  · cases o with
    | «local» fixed => simp [Both, start, openChannel, channelInit]
    | remote policy fixed remoteid winsize pktsize =>
      by_cases hf : fixed = 0 <;> simp [Both, start, openChannel, channelInit, hf]
  · cases o with
    | «local» fixed => simp [start, openChannel, channelInit] at h
    | remote policy fixed remoteid winsize pktsize =>
      by_cases hf : fixed = 0 <;> simp [start, openChannel, channelInit, hf] at h

theorem Inv.discipline {pre : List Ev} {s : St} (hi : Inv pre s) : Discipline pre s := by
  refine ⟨hi.log.order, fun h => (hi.log.eof h).2, fun h => ?_⟩
  obtain ⟨hb, -⟩ := hi.destroyed h
  exact ⟨hi.log.close.mpr hb.1, hi.heard (.inl hb.2)⟩

/-- However a channel is opened, and whatever the server, the Channel and the transport
    do in whatever order: if the Channel keeps its three rules, the discipline holds in
    every state reached, and no assertion fails. -/
theorem channel_disciplined (cfg : Config) (o : Opening) (evs : List Ev)
    (h : Along (step cfg) SafeEv (start cfg o) evs) : Always (step cfg) Discipline (start cfg o) evs := by
  refine (always_of_inv (I := Inv) (start_inv cfg o) ?_ evs h).mono fun _ _ hi => hi.discipline
  exact fun _ _ _ hi hok => step_inv cfg hi hok

/-- A forwarded connection: data both ways, EOF from each side, and CLOSE. -/
theorem forwarding_disciplined :
    Always (step ⟨false, false, false, false, 0x4000⟩) Discipline (start ⟨false, false, false, false, 0x4000⟩ (.local 0))
      [.server (.openConfirmation 7 100 50), .op (.write false [1, 2, 3]), .ret 0, .server (.data 0 [4]), .ret 0,
        .op .writeEof, .server .eof, .ret 0, .server .close] :=
  channel_disciplined _ _ _ (by decide)

/-- The terminal of a session is resized after EOF went both ways and CLOSE was sent. -/
theorem resize_after_close :
    ¬ ∀ cfg o evs, Always (step cfg) Discipline (start cfg o) evs := by
  intro h
  obtain ⟨s, hs, -⟩ := h ⟨false, false, false, false, 0x4000⟩ (.local 0)
    [.server (.openConfirmation 7 100 50), .ret 0, .op .writeEof, .server .eof, .ret 0, .op (.request "window-change" false)]
    _ (List.prefix_refl _)
  have hcrash : (run (step ⟨false, false, false, false, 0x4000⟩) (start ⟨false, false, false, false, 0x4000⟩ (.local 0))
    [.server (.openConfirmation 7 100 50), .ret 0, .op .writeEof, .server .eof, .ret 0,
      .op (.request "window-change" false)]).isSome = false := by decide
  rw [hs] at hcrash
  cases hcrash

end Putty.Ssh2.Channel
