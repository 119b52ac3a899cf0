/-
  Putty.Ssh2.SendWindow — what ssh2_try_send puts on the wire, and the server's window.

  A round of its loop takes a piece from the front of one buffer, no longer than the
  window and the server's maximum packet size, errors first (`sendRound_spec`); the loop
  is a run of rounds (`sendLoop_sends`). With a maximum packet size of 0 a round sends
  nothing and the loop never ends (`sendLoop_spins`); with any other it empties the
  buffers or the window (`sendLoop_ends`).

  Over any writes and window adjustments from the opening on: the data sent stays within
  the windows granted and the packet size announced, both streams arrive as the
  beginning of what was written, nothing is lost, and sending stops only at an empty
  buffer or an empty window, exactly when no send meets a maximum packet size of 0 with
  data and window to use (`sends_iff`).
-/

import Putty.Ssh2.Channel

namespace Putty.Ssh2.Channel

open Putty.Lib Putty.Utils

/-! ## Data messages -/

def isData : Msg → Bool
  | .data _ => true
  | .extendedData _ => true
  | _ => false

def outBytes : Msg → List UInt8
  | .data b => b
  | _ => []

def errBytes : Msg → List UInt8
  | .extendedData b => b
  | _ => []

/-- The bytes a message takes from the server's window. -/
def payload (m : Msg) : Nat := (outBytes m).length + (errBytes m).length

def msgs (s : St) : List Msg := s.out.map (·.2)

def sentOut (s : St) : List UInt8 := (msgs s).flatMap outBytes

def sentErr (s : St) : List UInt8 := (msgs s).flatMap errBytes

@[simp] theorem msgs_push (s : St) (m : Msg) : msgs (push s m) = msgs s ++ [m] := by simp [msgs, push]

/-! ## The loop -/

/-- `s'` is `s` with the data messages `ms` sent from the fronts of the buffers. -/
structure Sends (s s' : St) (ms : List Msg) : Prop where
  state : ∃ ob eb w, s' = { s with
    c := { s.c with outbuffer := ob, errbuffer := eb, remwindow := w }
    out := s.out ++ ms.map (s.c.remoteid, ·)
    life := s'.life }
  data : ∀ m ∈ ms, isData m = true ∧ payload m ≤ s.c.remmaxpkt.toNat
  outbuffer : bytes s.c.outbuffer = ms.flatMap outBytes ++ bytes s'.c.outbuffer
  errbuffer : bytes s.c.errbuffer = ms.flatMap errBytes ++ bytes s'.c.errbuffer
  window : s.c.remwindow.toNat = s'.c.remwindow.toNat + (ms.map payload).sum

theorem Sends.refl (s : St) : Sends s s [] :=
  ⟨⟨s.c.outbuffer, s.c.errbuffer, s.c.remwindow, by simp⟩, by simp, rfl, rfl, rfl⟩

theorem Sends.remmaxpkt {s s' : St} {ms : List Msg} (h : Sends s s' ms) : s'.c.remmaxpkt = s.c.remmaxpkt := by
  obtain ⟨ob, eb, w, e⟩ := h.state
  rw [e]

theorem Sends.msgs {s s' : St} {ms : List Msg} (h : Sends s s' ms) : msgs s' = msgs s ++ ms := by
  obtain ⟨ob, eb, w, e⟩ := h.state
  rw [e]; simp [Channel.msgs, Function.comp_def]

theorem Sends.trans {s s' s'' : St} {ms ns : List Msg} (h : Sends s s' ms) (h' : Sends s' s'' ns) :
    Sends s s'' (ms ++ ns) := by
  have hmax := h.remmaxpkt
  obtain ⟨ob, eb, w, e⟩ := h.state
  obtain ⟨ob', eb', w', e'⟩ := h'.state
  refine ⟨⟨ob', eb', w', ?_⟩, fun m hm => ?_, ?_, ?_, ?_⟩
  · rw [e', e]; simp
  · rcases List.mem_append.mp hm with hm | hm
    · exact h.data m hm
    · rw [← hmax]; exact h'.data m hm
  · rw [h.outbuffer, h'.outbuffer, List.flatMap_append, List.append_assoc]
  · rw [h.errbuffer, h'.errbuffer, List.flatMap_append, List.append_assoc]
  · rw [h.window, h'.window, List.map_append, List.sum_append]; omega

theorem buffered_eq_zero {c : Ssh2Channel} : buffered c = 0 ↔ c.outbuffer = [] ∧ c.errbuffer = [] := by
  rw [buffered, Nat.add_eq_zero_iff, bufchainSize_eq_zero, bufchainSize_eq_zero]

theorem sum_payload (ms : List Msg) :
    (ms.map payload).sum = (ms.flatMap outBytes).length + (ms.flatMap errBytes).length := by
  induction ms with
  | nil => rfl
  | cons m ms ih =>
    simp only [List.map_cons, List.sum_cons, List.flatMap_cons, List.length_append]
    rw [ih, payload]; omega

/-- What is sent leaves the buffers. -/
theorem Sends.buffered {s s' : St} {ms : List Msg} (h : Sends s s' ms) :
    buffered s.c = buffered s'.c + (ms.map payload).sum := by
  simp only [Channel.buffered, bufchainSize, h.outbuffer, h.errbuffer, List.length_append, sum_payload]
  omega

theorem sub_toNat {w : UInt32} {n : Nat} (h : n ≤ w.toNat) : (w - UInt32.ofNat n).toNat = w.toNat - n := by
  have hw := w.toNat_lt
  have hn : (UInt32.ofNat n).toNat = n := by rw [UInt32.toNat_ofNat']; omega
  rw [UInt32.toNat_sub_of_le _ _ (by rw [UInt32.le_iff_toNat_le, hn]; exact h), hn]

theorem piece_eq (c : Ssh2Channel) (data : List UInt8) :
    piece c data = data.take (min c.remwindow.toNat c.remmaxpkt.toNat) := by
  have hcut : ∀ (l : List UInt8) (n : Nat), (if l.length > n then l.take n else l) = l.take n := fun l n => by
    split
    · rfl
    · rw [List.take_of_length_le (by omega)]
  rw [piece, hcut, hcut, List.take_take, Nat.min_comm]

theorem piece_length (c : Ssh2Channel) (data : List UInt8) :
    (piece c data).length = min (min c.remwindow.toNat c.remmaxpkt.toNat) data.length := by
  rw [piece_eq, List.length_take]

/-- A piece is taken from the front of a buffer, and is no longer in it. -/
theorem piece_consume (c : Ssh2Channel) {buf : Bufchain} (h : 0 < bufchainSize buf) :
    ∃ p ch, bufchainPrefix buf = some p ∧ 0 < p.length ∧ bufchainConsume buf (piece c p).length = some ch ∧
      bytes buf = piece c p ++ bytes ch := by
  obtain ⟨p, hp, hne, hpre⟩ := bytes_bufchainPrefix h
  have hpiece : piece c p <+: bytes buf := by
    rw [piece_eq]; exact (List.take_prefix _ _).trans hpre
  obtain ⟨ch, hch, hbytes⟩ := bufchainConsume_spec buf (piece c p).length hpiece.length_le
  refine ⟨p, ch, hp, List.length_pos_iff.mpr hne, hch, ?_⟩
  obtain ⟨t, ht⟩ := hpiece
  rw [hbytes, ← ht, List.drop_left]

/-- A round sends one piece, of the errors if there are any, else of the output. -/
theorem sendRound_spec {s : St} (hb : 0 < buffered s.c) :
    ∃ s' m, sendRound s = some s' ∧ s'.life = s.life ∧ Sends s s' [m] ∧
      (0 < s.c.remwindow.toNat → 0 < s.c.remmaxpkt.toNat → 0 < payload m) := by
  by_cases he : bufchainSize s.c.errbuffer > 0
  · obtain ⟨p, ch, hp, hpos, hch, hbytes⟩ := piece_consume s.c he
    have hlen := piece_length s.c p
    refine ⟨{ push s (.extendedData (piece s.c p)) with
      c := { s.c with errbuffer := ch, remwindow := s.c.remwindow - UInt32.ofNat (piece s.c p).length } },
      .extendedData (piece s.c p), ?_, rfl, ⟨⟨s.c.outbuffer, ch, _, rfl⟩, ?_, rfl, ?_, ?_⟩, ?_⟩
    · simp [sendRound, he, hp, hch, push]
    · simp only [List.mem_singleton, forall_eq, isData, payload, outBytes, errBytes, List.length_nil, true_and]
      omega
    · simpa [errBytes] using hbytes
    · simp only [List.map_cons, List.map_nil, List.sum_cons, List.sum_nil, payload, outBytes, errBytes, List.length_nil]
      rw [sub_toNat (by omega)]; omega
    · simp only [payload, outBytes, errBytes, List.length_nil]
      omega
  · have ho : bufchainSize s.c.outbuffer > 0 := by
      rw [buffered] at hb; omega
    obtain ⟨p, ch, hp, hpos, hch, hbytes⟩ := piece_consume s.c ho
    have hlen := piece_length s.c p
    refine ⟨{ push s (.data (piece s.c p)) with
      c := { s.c with outbuffer := ch, remwindow := s.c.remwindow - UInt32.ofNat (piece s.c p).length } },
      .data (piece s.c p), ?_, rfl, ⟨⟨ch, s.c.errbuffer, _, rfl⟩, ?_, ?_, rfl, ?_⟩, ?_⟩
    · simp [sendRound, he, hp, hch, push]
    · simp only [List.mem_singleton, forall_eq, isData, payload, outBytes, errBytes, List.length_nil, true_and]
      omega
    · simpa [outBytes] using hbytes
    · simp only [List.map_cons, List.map_nil, List.sum_cons, List.sum_nil, payload, outBytes, errBytes, List.length_nil]
      rw [sub_toNat (by omega)]; omega
    · simp only [payload, outBytes, errBytes, List.length_nil]
      omega

/-- There is window to use and data to send. -/
def canSend (c : Ssh2Channel) : Prop := 0 < c.remwindow.toNat ∧ 0 < buffered c

theorem sendLoop_guard (c : Ssh2Channel) :
    (c.remwindow > 0 ∧ (bufchainSize c.outbuffer > 0 ∨ bufchainSize c.errbuffer > 0)) ↔ canSend c := by
  rw [canSend, buffered, gt_iff_lt, UInt32.lt_iff_toNat_lt]
  simp only [UInt32.toNat_zero]
  omega

/-- Whatever happens, the loop sends data from the fronts of the buffers; it ends with
    nothing left to send, or not at all. -/
theorem sendLoop_sends (n : Nat) (s : St) :
    ∃ s' ms, sendLoop n s = some s' ∧ Sends s s' ms ∧ (s'.life = .hung ∨ s'.life = s.life ∧ ¬ canSend s'.c) := by
  induction n generalizing s with
  | zero => exact ⟨_, [], rfl, ⟨⟨s.c.outbuffer, s.c.errbuffer, s.c.remwindow, by simp⟩, by simp, rfl, rfl, rfl⟩, .inl rfl⟩
  | succ n ih =>
    unfold sendLoop
    by_cases hg : canSend s.c
    · obtain ⟨s1, m, h1, hlife, hs, -⟩ := sendRound_spec hg.2
      obtain ⟨s', ms, h2, hs', hend⟩ := ih s1
      rw [if_pos ((sendLoop_guard s.c).mpr hg)]
      refine ⟨s', [m] ++ ms, by simp [h1, h2], hs.trans hs', ?_⟩
      rwa [hlife] at hend
    · rw [if_neg fun h => hg ((sendLoop_guard s.c).mp h)]
      exact ⟨s, [], rfl, .refl s, .inr ⟨rfl, hg⟩⟩

/-- Every round takes something as long as the maximum packet size is not 0. -/
theorem sendLoop_ends {n : Nat} {s s' : St} (hmax : 0 < s.c.remmaxpkt.toNat) (hn : buffered s.c < n)
    (h : sendLoop n s = some s') : s'.life = s.life := by
  induction n generalizing s with
  | zero => omega
  | succ n ih =>
    unfold sendLoop at h
    by_cases hg : canSend s.c
    · obtain ⟨s1, m, h1, hlife, hs, hpos⟩ := sendRound_spec hg.2
      rw [if_pos ((sendLoop_guard s.c).mpr hg), h1] at h
      have hb := hs.buffered
      have hm := hpos hg.1 hmax
      simp only [List.map_cons, List.map_nil, List.sum_cons, List.sum_nil] at hb
      rw [← hlife]
      exact ih (by rw [hs.remmaxpkt]; exact hmax) (by omega) h
    · rw [if_neg fun h => hg ((sendLoop_guard s.c).mp h)] at h
      cases h; rfl

/-- With a maximum packet size of 0 the rounds repeat. -/
theorem sendLoop_spins {n : Nat} {s s' : St} (hmax : s.c.remmaxpkt.toNat = 0) (hg : canSend s.c)
    (h : sendLoop n s = some s') : s'.life = .hung := by
  induction n generalizing s with
  | zero => cases h; rfl
  | succ n ih =>
    unfold sendLoop at h
    obtain ⟨s1, m, h1, -, hs, -⟩ := sendRound_spec hg.2
    rw [if_pos ((sendLoop_guard s.c).mpr hg), h1] at h
    have hb := hs.buffered
    have hw := hs.window
    have hm := (hs.data m (by simp)).2
    simp only [List.map_cons, List.map_nil, List.sum_cons, List.sum_nil] at hb hw
    refine ih (by rw [hs.remmaxpkt]; exact hmax) ⟨?_, ?_⟩ h
    · have := hg.1; omega
    · have := hg.2; omega

/-- The loop of ssh2_try_send does not end. -/
def Spins (c : Ssh2Channel) : Prop := c.halfopen = false ∧ canSend c ∧ c.remmaxpkt = 0

instance (c : Ssh2Channel) : Decidable (Spins c) := inferInstanceAs (Decidable (_ ∧ (_ ∧ _) ∧ _))

theorem trySend_sends (s : St) (ha : s.life = .alive) :
    ∃ s1 ms, Sends s s1 ms ∧ (s1.life = .hung ∧ Spins s.c ∨ s1.life = .alive ∧ ¬ Spins s.c) ∧
      (s1.life = .alive → s.c.halfopen = true ∧ s1 = s ∨ s.c.halfopen = false ∧ ¬ canSend s1.c) ∧
      trySend s = if s1.life ≠ .hung ∧ buffered s1.c = 0 ∧ s1.c.pendingEof then tryEof s1 else some s1 := by
  by_cases hh : s.c.halfopen = true
  · refine ⟨s, [], .refl s, .inr ⟨ha, fun h => by rw [h.1] at hh; cases hh⟩, fun _ => .inl ⟨hh, rfl⟩, ?_⟩
    simp [trySend, hh]
  have hh : s.c.halfopen = false := by simpa using hh
  obtain ⟨s1, ms, h1, hs, hend⟩ := sendLoop_sends (buffered s.c + 1) s
  refine ⟨s1, ms, hs, ?_, fun hl => .inr ⟨hh, ?_⟩, by simp [trySend, hh, h1]⟩
  · by_cases hsp : Spins s.c
    · exact .inl ⟨sendLoop_spins (by rw [hsp.2.2]; rfl) hsp.2.1 h1, hsp⟩
    · refine .inr ⟨?_, hsp⟩
      by_cases hmax : s.c.remmaxpkt = 0
      · -- nothing to send: the loop does not run
        have hg : ¬ canSend s.c := fun hg => hsp ⟨hh, hg, hmax⟩
        unfold sendLoop at h1
        rw [if_neg fun h => hg ((sendLoop_guard s.c).mp h)] at h1
        cases h1; exact ha
      · rw [sendLoop_ends (Nat.pos_of_ne_zero fun h => hmax (UInt32.toNat_inj.mp h)) (Nat.lt_succ_self _) h1, ha]
  · rcases hend with h | h
    · rw [hl] at h; cases h
    · exact h.2

/-! ## Writes and window adjustments -/

inductive Traffic where
  | write (isStderr : Bool) (data : List UInt8)
  | windowAdjust (n : UInt32)
  | openConfirmation (remoteid remwindow remmaxpkt : UInt32)
  | ret (value : Nat)
  deriving DecidableEq, Repr

def Traffic.toEv : Traffic → Ev
  | .write isStderr data => .op (.write isStderr data)
  | .windowAdjust n => .server (.windowAdjust n)
  | .openConfirmation remoteid remwindow remmaxpkt => .server (.openConfirmation remoteid remwindow remmaxpkt)
  | .ret value => .ret value

def stepTraffic (cfg : Config) (s : St) (t : Traffic) : Option St := step cfg s t.toEv

def written (isStderr : Bool) (ts : List Traffic) : List UInt8 := ts.flatMap fun
  | .write e data => if e = isStderr then data else []
  | _ => []

def adjusts (ts : List Traffic) : Nat := (ts.map fun
  | .windowAdjust n => n.toNat
  | _ => 0).sum

/-- The window and maximum packet size the channel is opened with. -/
def opened : Opening → List Traffic → Option (UInt32 × UInt32)
  | .remote _ _ _ winsize pktsize, _ => some (winsize, pktsize)
  | .local _, ts => ts.findSome? fun
    | .openConfirmation _ remwindow remmaxpkt => some (remwindow, remmaxpkt)
    | _ => none

def granted (o : Opening) (ts : List Traffic) : Nat := ((opened o ts).map (·.1.toNat)).getD 0 + adjusts ts

def announced (o : Opening) (ts : List Traffic) : Nat := ((opened o ts).map (·.2.toNat)).getD 0

def sentBytes (s : St) : Nat := ((msgs s).map payload).sum

/-- The traffic makes ssh2_try_send run on the channel. -/
def sends (s : St) : Traffic → Prop
  | .write _ _ => s.life = .alive
  | .windowAdjust _ => s.life = .alive ∧ s.pending = none
  | _ => False

structure SendSafe (o : Opening) (ts : List Traffic) (s : St) : Prop where
  ends : s.life ≠ .hung
  window : sentBytes s ≤ granted o ts
  maxpkt : ∀ m ∈ msgs s, payload m ≤ announced o ts
  outPrefix : sentOut s <+: written false ts
  errPrefix : sentErr s <+: written true ts
  outKept : s.life = .alive → sentOut s ++ bytes s.c.outbuffer = written false ts
  errKept : s.life = .alive → sentErr s ++ bytes s.c.errbuffer = written true ts
  drained : (∃ t, ts.getLast? = some t ∧ sends s t) → s.c.halfopen = false → s.c.remwindow = 0 ∨ buffered s.c = 0

/-- The send that `t` makes does not meet a maximum packet size of 0 with data and
    window to use. -/
def SafeSend (s : St) : Traffic → Prop
  | .write _ data => s.life = .alive →
    ¬ (s.c.halfopen = false ∧ s.c.remmaxpkt = 0 ∧ 0 < s.c.remwindow.toNat ∧ 0 < buffered s.c + data.length)
  | .windowAdjust n => s.life = .alive → s.pending = none →
    ¬ (s.c.halfopen = false ∧ s.c.remmaxpkt = 0 ∧ 0 < (s.c.remwindow + n).toNat ∧ 0 < buffered s.c)
  | _ => True

instance (s : St) (t : Traffic) : Decidable (SafeSend s t) := by
  cases t <;> unfold SafeSend <;> infer_instance

/-! ## The invariant -/

/-- A live channel under such traffic: open on the sending side, its Channel there, and
    every byte written either sent or still buffered. -/
structure Sending (o : Opening) (ts : List Traffic) (s : St) : Prop where
  alive : s.life = .alive
  sentEof : s.c.sentEof = false
  rcvdClose : s.c.rcvdClose = false
  rcvdEof : s.c.rcvdEof = false
  pendingEof : s.c.pendingEof = false
  shared : s.c.shared = false
  chan : ∃ p n, s.c.chan = .live p n
  pending : s.pending = none ∨ s.pending = some .openConfirmation ∧ s.c.halfopen = false
  ours : s.c.halfopen = true ∨ s.pending ≠ none → ∃ n, s.c.chan = .live .default n
  half : s.c.halfopen = true → opened o ts = none ∧ msgs s = []
  account : s.c.halfopen = false → ∃ w p, opened o ts = some (w, p) ∧
    sentBytes s + s.c.remwindow.toNat ≤ w.toNat + adjusts ts ∧ s.c.remmaxpkt.toNat ≤ p.toNat ∧
    ∀ m ∈ msgs s, payload m ≤ s.c.remmaxpkt.toNat
  outKept : sentOut s ++ bytes s.c.outbuffer = written false ts
  errKept : sentErr s ++ bytes s.c.errbuffer = written true ts

def Drained (s : St) : Prop := s.c.halfopen = false → s.c.remwindow = 0 ∨ buffered s.c = 0

theorem Sending.safe {o : Opening} {ts : List Traffic} {s : St} (h : Sending o ts s)
    (hd : (∃ t, ts.getLast? = some t ∧ sends s t) → Drained s) : SendSafe o ts s := by
  refine ⟨by rw [h.alive]; simp, ?_, ?_, ⟨_, h.outKept⟩, ⟨_, h.errKept⟩, fun _ => h.outKept, fun _ => h.errKept, hd⟩
  · by_cases hh : s.c.halfopen = true
    · simp [sentBytes, (h.half hh).2]
    · obtain ⟨w, p, hop, hacc, -⟩ := h.account (by simpa using hh)
      simp only [granted, hop, Option.map_some, Option.getD_some]
      omega
  · by_cases hh : s.c.halfopen = true
    · simp [(h.half hh).2]
    · obtain ⟨w, p, hop, -, hmax, hall⟩ := h.account (by simpa using hh)
      intro m hm
      simp only [announced, hop, Option.map_some, Option.getD_some]
      exact Nat.le_trans (hall m hm) hmax

theorem written_snoc (e : Bool) (ts : List Traffic) (t : Traffic) : written e (ts ++ [t]) = written e ts ++ written e [t] := by
  simp [written]

theorem adjusts_snoc (ts : List Traffic) (t : Traffic) : adjusts (ts ++ [t]) = adjusts ts + adjusts [t] := by
  simp [adjusts]

theorem opened_snoc {o : Opening} {ts : List Traffic} {x : UInt32 × UInt32} (t : Traffic) (h : opened o ts = some x) :
    opened o (ts ++ [t]) = some x := by
  cases o with
  | remote => exact h
  | «local» => simp only [opened] at h ⊢; rw [List.findSome?_append, h]; rfl

theorem opened_snoc_none {o : Opening} {ts : List Traffic} {t : Traffic} (h : opened o ts = none)
    (ht : ∀ r w p, t ≠ .openConfirmation r w p) : opened o (ts ++ [t]) = none := by
  cases o with
  | remote => exact h
  | «local» =>
    simp only [opened] at h ⊢
    rw [List.findSome?_append, h]
    cases t with
    | openConfirmation r w p => exact absurd rfl (ht r w p)
    | _ => rfl

theorem SendSafe.idle {o : Opening} {ts : List Traffic} {s : St} (t : Traffic) (h : SendSafe o ts s)
    (hl : s.life = .stopped) : SendSafe o (ts ++ [t]) s := by
  have hne : s.life ≠ .alive := by rw [hl]; simp
  refine ⟨h.ends, Nat.le_trans h.window ?_, fun m hm => Nat.le_trans (h.maxpkt m hm) ?_, h.outPrefix.trans ?_, h.errPrefix.trans ?_,
    fun e => absurd e hne, fun e => absurd e hne, ?_⟩
  · cases ho : opened o ts with
    | none => simp only [granted, ho, adjusts_snoc, Option.map_none, Option.getD_none]; omega
    | some x => simp only [granted, ho, opened_snoc t ho, adjusts_snoc]; omega
  · cases ho : opened o ts with
    | none => simp [announced, ho]
    | some x => simp [announced, ho, opened_snoc t ho]
  · rw [written_snoc]; exact List.prefix_append _ _
  · rw [written_snoc]; exact List.prefix_append _ _
  · rintro ⟨t', -, ht⟩
    cases t' with
    | write e d => exact absurd ht hne
    | windowAdjust n => exact absurd ht.1 hne
    | openConfirmation r w p => exact ht.elim
    | ret v => exact ht.elim

/-! ## One step -/

/-- A send keeps what is known, and drains what it can. -/
theorem Sending.trySend {o : Opening} {ts : List Traffic} {s : St} (h : Sending o ts s) (hsp : ¬ Spins s.c) :
    ∃ s1, trySend s = some s1 ∧ Sending o ts s1 ∧ Drained s1 := by
  obtain ⟨s1, ms, hs, hlife, hend, htry⟩ := trySend_sends s h.alive
  have ha : s1.life = .alive := by
    rcases hlife with ⟨-, hsp'⟩ | ⟨ha, -⟩
    · exact absurd hsp' hsp
    · exact ha
  obtain ⟨ob, eb, w, e⟩ := hs.state
  have hc : s1.c = { s.c with outbuffer := ob, errbuffer := eb, remwindow := w } := by rw [e]
  have hmsgs := hs.msgs
  have hout : sentOut s1 = sentOut s ++ ms.flatMap outBytes := by simp [sentOut, hmsgs]
  have herr : sentErr s1 = sentErr s ++ ms.flatMap errBytes := by simp [sentErr, hmsgs]
  refine ⟨s1, ?_, ⟨ha, by rw [hc]; exact h.sentEof, by rw [hc]; exact h.rcvdClose, by rw [hc]; exact h.rcvdEof,
    by rw [hc]; exact h.pendingEof, by rw [hc]; exact h.shared, by rw [hc]; exact h.chan, ?_, ?_, ?_, ?_, ?_, ?_⟩, ?_⟩
  · rw [htry, if_neg fun hp => by rw [hc] at hp; exact absurd (h.pendingEof.symm.trans hp.2.2) (by simp)]
  · have hp : s1.pending = s.pending := by rw [e]
    rw [hp, hc]; exact h.pending
  · have hp : s1.pending = s.pending := by rw [e]
    rw [hp, hc]; exact h.ours
  · intro hh
    rcases hend ha with ⟨-, rfl⟩ | ⟨hf, -⟩
    · exact h.half hh
    · rw [hc] at hh; exact absurd (hf.symm.trans hh) (by simp)
  · intro hh
    obtain ⟨w0, p, hop, hacc, hmax, hall⟩ := h.account (by rw [hc] at hh; exact hh)
    have hwin := hs.window
    refine ⟨w0, p, hop, ?_, by rw [hs.remmaxpkt]; exact hmax, ?_⟩
    · simp only [sentBytes, hmsgs, List.map_append, List.sum_append] at hacc ⊢; omega
    · intro m hm
      rw [hmsgs, List.mem_append] at hm
      rw [hs.remmaxpkt]
      exact hm.elim (hall m) fun hm => (hs.data m hm).2
  · rw [hout, List.append_assoc, ← hs.outbuffer]; exact h.outKept
  · rw [herr, List.append_assoc, ← hs.errbuffer]; exact h.errKept
  · intro hh
    rcases hend ha with ⟨hh', -⟩ | ⟨-, hnot⟩
    · rw [hc] at hh; exact absurd (hh'.symm.trans hh) (by simp)
    · by_contra hno
      rw [not_or] at hno
      exact hnot ⟨Nat.pos_of_ne_zero fun h0 => hno.1 (UInt32.toNat_inj.mp h0), Nat.pos_of_ne_zero hno.2⟩

theorem trySend_hangs {s : St} (ha : s.life = .alive) (hsp : Spins s.c) {s' : St} (h : trySend s = some s') :
    s'.life = .hung := by
  obtain ⟨s1, ms, -, hlife, -, htry⟩ := trySend_sends s ha
  rcases hlife with ⟨hl, -⟩ | ⟨-, hno⟩
  · rw [htry, if_neg fun hp => hp.1 hl] at h
    cases h; exact hl
  · exact absurd hsp hno

theorem step_write {cfg : Config} {o : Opening} {ts : List Traffic} {s : St} (h : Sending o ts s) (e : Bool)
    (data : List UInt8) :
    ∃ s0, stepTraffic cfg s (.write e data) = trySend s0 ∧ Sending o (ts ++ [.write e data]) s0 ∧
      s0.c.halfopen = s.c.halfopen ∧ s0.c.remmaxpkt = s.c.remmaxpkt ∧ s0.c.remwindow = s.c.remwindow ∧
      buffered s0.c = buffered s.c + data.length := by
  obtain ⟨p, n, hch⟩ := h.chan
  have hcall : callable s = true := by simp [callable, h.alive, hch]
  have hopen : opened o (ts ++ [.write e data]) = opened o ts := by
    cases hop : opened o ts with
    | none => exact opened_snoc_none hop (by simp)
    | some x => exact opened_snoc _ hop
  have hadj : adjusts (ts ++ [.write e data]) = adjusts ts := by rw [adjusts_snoc]; rfl
  refine ⟨{ s with c :=
    if e then { s.c with errbuffer := bufchainAdd s.c.errbuffer data }
    else { s.c with outbuffer := bufchainAdd s.c.outbuffer data } }, ?_, ?_⟩
  · simp only [stepTraffic, Traffic.toEv, step, hcall, if_true, doOp, write, h.sentEof, Bool.false_eq_true, if_false]
  · have hout := h.outKept
    have herr := h.errKept
    cases e with
    | false =>
      simp only [Bool.false_eq_true, if_false]
      refine ⟨⟨h.alive, h.sentEof, h.rcvdClose, h.rcvdEof, h.pendingEof, h.shared, h.chan, h.pending, h.ours, fun hh => ?_,
        fun hh => ?_, ?_, ?_⟩, trivial, trivial, trivial, ?_⟩
      · rw [hopen]; exact h.half hh
      · rw [hopen, hadj]; exact h.account hh
      · rw [written_snoc, ← hout, bytes_bufchainAdd]
        simp [written, sentOut, msgs]
      · rw [written_snoc, ← herr]
        simp [written, sentErr, msgs]
      · simp only [buffered, bufchainSize_bufchainAdd]; omega
    | true =>
      simp only [if_true]
      refine ⟨⟨h.alive, h.sentEof, h.rcvdClose, h.rcvdEof, h.pendingEof, h.shared, h.chan, h.pending, h.ours, fun hh => ?_,
        fun hh => ?_, ?_, ?_⟩, trivial, trivial, trivial, ?_⟩
      · rw [hopen]; exact h.half hh
      · rw [hopen, hadj]; exact h.account hh
      · rw [written_snoc, ← hout]
        simp [written, sentOut, msgs]
      · rw [written_snoc, ← herr, bytes_bufchainAdd]
        simp [written, sentErr, msgs]
      · simp only [buffered, bufchainSize_bufchainAdd]; omega

theorem written_quiet {t : Traffic} (ht : ∀ e d, t ≠ .write e d) (e : Bool) : written e [t] = [] := by
  cases t with
  | write e d => exact absurd rfl (ht e d)
  | _ => rfl

/-- An event that neither writes nor sends nor opens keeps a live channel as it is. -/
theorem Sending.quiet {o : Opening} {ts : List Traffic} {s : St} (h : Sending o ts s) {t : Traffic}
    (ht : ∀ e d, t ≠ .write e d) (ho : opened o (ts ++ [t]) = opened o ts) : Sending o (ts ++ [t]) s := by
  refine ⟨h.alive, h.sentEof, h.rcvdClose, h.rcvdEof, h.pendingEof, h.shared, h.chan, h.pending, h.ours, fun hh => ?_,
    fun hh => ?_, ?_, ?_⟩
  · rw [ho]; exact h.half hh
  · obtain ⟨w, p, hop, hacc, hmax, hall⟩ := h.account hh
    refine ⟨w, p, ho.trans hop, ?_, hmax, hall⟩
    rw [adjusts_snoc]; omega
  · rw [written_snoc, written_quiet ht, List.append_nil]; exact h.outKept
  · rw [written_snoc, written_quiet ht, List.append_nil]; exact h.errKept

theorem toNat_add_le (a b : UInt32) : (a + b).toNat ≤ a.toNat + b.toNat := by
  rw [UInt32.toNat_add]; exact Nat.mod_le _ _

theorem SendSafe.stop {o : Opening} {ts : List Traffic} {s : St} (h : SendSafe o ts s) :
    SendSafe o ts { s with life := .stopped } := by
  refine ⟨by simp, h.window, h.maxpkt, h.outPrefix, h.errPrefix, fun e => by simp at e, fun e => by simp at e, ?_⟩
  rintro ⟨t, -, ht⟩
  cases t with
  | write e d => simp [sends] at ht
  | windowAdjust n => simp [sends] at ht
  | openConfirmation r w p => exact ht.elim
  | ret v => exact ht.elim

theorem step_stopped {cfg : Config} {s : St} (hl : s.life = .stopped) (t : Traffic) :
    stepTraffic cfg s t = some s := by
  cases t with
  | write e d => simp [stepTraffic, Traffic.toEv, step, callable, hl]
  | windowAdjust n => simp [stepTraffic, Traffic.toEv, step, hl]
  | openConfirmation r w p => simp [stepTraffic, Traffic.toEv, step, hl]
  | ret v => simp only [stepTraffic, Traffic.toEv, step, hl]; split <;> simp

theorem step_adjust {cfg : Config} {o : Opening} {ts : List Traffic} {s : St} (h : Sending o ts s) (n : UInt32)
    (hp : s.pending = none) (hh : s.c.halfopen = false) :
    stepTraffic cfg s (.windowAdjust n) =
        trySendAndUnthrottle { s with c := { s.c with remwindow := s.c.remwindow + n } } ∧
      Sending o (ts ++ [.windowAdjust n]) { s with c := { s.c with remwindow := s.c.remwindow + n } } := by
  constructor
  · simp [stepTraffic, Traffic.toEv, step, serverMsg, h.alive, hp, h.shared, hh, h.sentEof]
  · obtain ⟨w, p, hop, hacc, hmax, hall⟩ := h.account hh
    have hout := h.outKept
    have herr := h.errKept
    refine ⟨h.alive, h.sentEof, h.rcvdClose, h.rcvdEof, h.pendingEof, h.shared, h.chan, h.pending, h.ours,
      fun hh' => absurd (hh.symm.trans hh') (by simp), fun _ => ⟨w, p, opened_snoc _ hop, ?_, hmax, hall⟩, ?_, ?_⟩
    · have hadd := toNat_add_le s.c.remwindow n
      have hone : adjusts [.windowAdjust n] = n.toNat := by simp [adjusts]
      show sentBytes s + (s.c.remwindow + n).toNat ≤ _
      rw [adjusts_snoc, hone]; omega
    · rw [written_snoc, written_quiet (by simp), List.append_nil]; exact hout
    · rw [written_snoc, written_quiet (by simp), List.append_nil]; exact herr

/-- The unthrottling after a send tells the Channel, and changes nothing that is sent. -/
theorem trySendAndUnthrottle_eq {o : Opening} {ts : List Traffic} {s s1 : St} (h : Sending o ts s)
    (h1 : trySend s = some s1) (hs1 : Sending o ts s1) :
    ∃ s2, trySendAndUnthrottle s = some s2 ∧ Sending o ts s2 ∧ s2.c.halfopen = s1.c.halfopen ∧
      s2.c.remwindow = s1.c.remwindow ∧ buffered s2.c = buffered s1.c := by
  have ha := hs1.alive
  unfold trySendAndUnthrottle
  rw [if_neg (by rw [h.sentEof]; simp)]
  simp only [h1, Option.bind_eq_bind, Option.bind_some]
  by_cases hb : buffered s1.c = 0
  · rw [if_pos ⟨by rw [ha]; simp, hb⟩]
    simp only [touch, ha, reduceCtorEq, if_false, Option.bind_some]
    refine ⟨_, rfl, ?_, rfl, rfl, rfl⟩
    exact ⟨rfl, hs1.sentEof, hs1.rcvdClose, hs1.rcvdEof, hs1.pendingEof, hs1.shared, hs1.chan, hs1.pending, hs1.ours,
      hs1.half, hs1.account, hs1.outKept, hs1.errKept⟩
  · rw [if_neg fun hp => hb hp.2]
    exact ⟨s1, rfl, hs1, rfl, rfl, rfl⟩

theorem step_open {cfg : Config} {o : Opening} {ts : List Traffic} {s : St} (h : Sending o ts s)
    (hh : s.c.halfopen = true) (remoteid remwindow remmaxpkt : UInt32) :
    ∃ s', stepTraffic cfg s (.openConfirmation remoteid remwindow remmaxpkt) = some s' ∧
      Sending o (ts ++ [.openConfirmation remoteid remwindow remmaxpkt]) s' := by
  obtain ⟨hop, hmsgs⟩ := h.half hh
  have hp : s.pending = none := by
    rcases h.pending with hp | ⟨-, hp⟩
    · exact hp
    · exact absurd (hp.symm.trans hh) (by simp)
  have hout := h.outKept
  have herr := h.errKept
  refine ⟨{ s with
    c := { s.c with
      remoteid, halfopen := false, remwindow
      remmaxpkt := if remmaxpkt > cfg.packetSizeLimit then cfg.packetSizeLimit else remmaxpkt }
    pending := some .openConfirmation }, ?_, ⟨h.alive, h.sentEof, h.rcvdClose, h.rcvdEof, h.pendingEof, h.shared, h.chan,
      .inr ⟨rfl, rfl⟩, fun _ => h.ours (.inl hh), fun hh' => absurd hh' (by simp), fun _ => ⟨remwindow, remmaxpkt, ?_, ?_, ?_, ?_⟩,
      ?_, ?_⟩⟩
  · simp [stepTraffic, Traffic.toEv, step, serverMsg, h.alive, hp, h.shared, hh]
  · cases o with
    | remote => exact absurd hop (by simp [opened])
    | «local» =>
      simp only [opened] at hop ⊢
      rw [List.findSome?_append, hop]; rfl
  · have hs : sentBytes s = 0 := by simp [sentBytes, hmsgs]
    show sentBytes s + remwindow.toNat ≤ _
    omega
  · show (if _ then _ else _ : UInt32).toNat ≤ _
    split
    · next hgt => exact Nat.le_of_lt (UInt32.lt_iff_toNat_lt.mp hgt)
    · exact Nat.le_refl _
  · show ∀ m ∈ msgs s, _
    simp [hmsgs]
  · rw [written_snoc, written_quiet (by simp), List.append_nil]; exact hout
  · rw [written_snoc, written_quiet (by simp), List.append_nil]; exact herr

/-- The Channel returns from its open confirmation: it wants no close yet. -/
theorem step_confirmed {cfg : Config} {o : Opening} {ts : List Traffic} {s : St} (h : Sending o ts s) (value : Nat)
    (hp : s.pending = some .openConfirmation) (hh : s.c.halfopen = false) :
    stepTraffic cfg s (.ret value) = some { s with pending := none } := by
  obtain ⟨n, hch⟩ := h.ours (.inr (by rw [hp]; simp))
  simp [stepTraffic, Traffic.toEv, step, resume, touch, checkClose, wantClose, hp, hh, hch, h.alive, h.sentEof, h.rcvdClose,
    h.rcvdEof, h.pendingEof]

/-! ## Runs -/

theorem start_sending (cfg : Config) (o : Opening) : Sending o [] (start cfg o) := by
  cases o with
  | «local» fixed =>
    exact ⟨rfl, rfl, rfl, rfl, rfl, rfl, ⟨_, _, rfl⟩, .inl rfl, fun _ => ⟨_, rfl⟩, fun _ => ⟨rfl, rfl⟩,
      fun h => by simp [start, openChannel, channelInit] at h, rfl, rfl⟩
  | remote policy fixed remoteid winsize pktsize =>
    have hmax : (if pktsize > cfg.packetSizeLimit then cfg.packetSizeLimit else pktsize).toNat ≤ pktsize.toNat := by
      split
      · next hgt => exact Nat.le_of_lt (UInt32.lt_iff_toNat_lt.mp hgt)
      · exact Nat.le_refl _
    by_cases hf : fixed = 0
    · refine ⟨rfl, ?_, ?_, ?_, ?_, ?_, ⟨policy, fixed, ?_⟩, .inl rfl, ?_, ?_, fun _ => ⟨winsize, pktsize, rfl, ?_, ?_, ?_⟩, ?_, ?_⟩ <;>
        simp [start, openChannel, channelInit, hf, sentBytes, msgs, sentOut, sentErr, written, adjusts, hmax]
    · refine ⟨rfl, ?_, ?_, ?_, ?_, ?_, ⟨policy, fixed, ?_⟩, .inl rfl, ?_, ?_, fun _ => ⟨winsize, pktsize, rfl, ?_, ?_, ?_⟩, ?_, ?_⟩ <;>
        simp [start, openChannel, channelInit, hf, sentBytes, msgs, sentOut, sentErr, written, adjusts, hmax]

/-- What a run keeps: the promise, and the invariant until a message stops the connection. -/
def SendInv (o : Opening) (ts : List Traffic) (s : St) : Prop := SendSafe o ts s ∧ (s.life = .stopped ∨ Sending o ts s)

theorem Sending.inv {o : Opening} {ts : List Traffic} {s : St} (h : Sending o ts s) (hd : Drained s) : SendInv o ts s :=
  ⟨h.safe fun _ => hd, .inr h⟩

/-- The event does not send, so nothing has to be drained. -/
theorem Sending.inv_quiet {o : Opening} {ts : List Traffic} {s : St} {t : Traffic} (h : Sending o (ts ++ [t]) s)
    (ht : ¬ sends s t) : SendInv o (ts ++ [t]) s := by
  refine ⟨h.safe ?_, .inr h⟩
  rintro ⟨t', ht', hs⟩
  rw [List.getLast?_concat] at ht'
  cases ht'; exact absurd hs ht

theorem SendSafe.stopped {o : Opening} {ts : List Traffic} {s : St} (h : SendSafe o ts s) (t : Traffic) :
    SendInv o (ts ++ [t]) { s with life := .stopped } := ⟨h.stop.idle t rfl, .inl rfl⟩

theorem step_sends {cfg : Config} {o : Opening} {ts : List Traffic} {s : St} {t : Traffic} (hi : SendInv o ts s)
    (hok : SafeSend s t) : ∃ s', stepTraffic cfg s t = some s' ∧ SendInv o (ts ++ [t]) s' := by
  obtain ⟨hsafe, hl | h⟩ := hi
  · exact ⟨s, step_stopped hl t, hsafe.idle t hl, .inl hl⟩
  have hopen : s.pending ≠ none → opened o (ts ++ [t]) = opened o ts := fun hp => by
    have hh : s.c.halfopen = false := (h.pending.resolve_left hp).2
    obtain ⟨w, p, hop, -⟩ := h.account hh
    rw [hop]; exact opened_snoc t hop
  cases t with
  | write e data =>
    obtain ⟨s0, hs, h0, hh, hmax, hwin, hbuf⟩ := step_write h e data
    have hsp : ¬ Spins s0.c := fun hsp => by
      refine hok h.alive ⟨hh ▸ hsp.1, hmax ▸ hsp.2.2, hwin ▸ hsp.2.1.1, ?_⟩
      rw [← hbuf]; exact hsp.2.1.2
    obtain ⟨s1, h1, hs1, hd⟩ := h0.trySend hsp
    exact ⟨s1, hs.trans h1, hs1.inv hd⟩
  | windowAdjust n =>
    by_cases hp : s.pending = none
    · by_cases hh : s.c.halfopen = true
      · refine ⟨{ s with life := .stopped }, ?_, hsafe.stopped _⟩
        simp [stepTraffic, Traffic.toEv, step, serverMsg, h.alive, hp, h.shared, hh]
      have hh : s.c.halfopen = false := by simpa using hh
      obtain ⟨hs, h0⟩ := step_adjust h n hp hh
      obtain ⟨s1, h1, hs1, hd⟩ := h0.trySend fun hsp => hok h.alive hp ⟨hh, hsp.2.2, hsp.2.1.1, hsp.2.1.2⟩
      obtain ⟨s2, h2, hs2, e1, e2, e3⟩ := trySendAndUnthrottle_eq h0 h1 hs1
      exact ⟨s2, hs.trans h2, hs2.inv fun hh2 => by rw [e2, e3]; exact hd (e1 ▸ hh2)⟩
    · refine ⟨s, by simp [stepTraffic, Traffic.toEv, step, hp], (h.quiet (by simp) (hopen hp)).inv_quiet ?_⟩
      exact fun hs => hp hs.2
  | openConfirmation remoteid remwindow remmaxpkt =>
    by_cases hp : s.pending = none
    · by_cases hh : s.c.halfopen = true
      · obtain ⟨s', hs, h'⟩ := step_open h hh remoteid remwindow remmaxpkt
        exact ⟨s', hs, h'.inv_quiet id⟩
      · refine ⟨{ s with life := .stopped }, ?_, hsafe.stopped _⟩
        simp [stepTraffic, Traffic.toEv, step, serverMsg, h.alive, hp, h.shared, hh]
    · exact ⟨s, by simp [stepTraffic, Traffic.toEv, step, hp], (h.quiet (by simp) (hopen hp)).inv_quiet id⟩
  | ret value =>
    have ho : opened o (ts ++ [.ret value]) = opened o ts := by
      cases hop : opened o ts with
      | none => exact opened_snoc_none hop (by simp)
      | some x => exact opened_snoc _ hop
    have hq := h.quiet (t := .ret value) (by simp) ho
    rcases h.pending with hp | ⟨hp, hh⟩
    · exact ⟨s, by simp [stepTraffic, Traffic.toEv, step, hp], hq.inv_quiet id⟩
    · refine ⟨{ s with pending := none }, step_confirmed h value hp hh, Sending.inv_quiet ?_ id⟩
      exact ⟨hq.alive, hq.sentEof, hq.rcvdClose, hq.rcvdEof, hq.pendingEof, hq.shared, hq.chan, .inl rfl,
        fun _ => h.ours (.inr (by rw [hp]; simp)), hq.half, hq.account, hq.outKept, hq.errKept⟩

/-- A send that meets a maximum packet size of 0 with data and window to use never ends. -/
theorem step_spins {cfg : Config} {o : Opening} {ts : List Traffic} {s s' : St} {t : Traffic} (hi : SendInv o ts s)
    (hno : ¬ SafeSend s t) (hs : stepTraffic cfg s t = some s') : s'.life = .hung := by
  obtain ⟨-, hl | h⟩ := hi
  · exfalso
    apply hno
    cases t with
    | write e d => intro ha; rw [hl] at ha; cases ha
    | windowAdjust n => intro ha; rw [hl] at ha; cases ha
    | openConfirmation r w p => trivial
    | ret v => trivial
  cases t with
  | write e data =>
    obtain ⟨s0, hs0, h0, hh, hmax, hwin, hbuf⟩ := step_write h e data
    simp only [SafeSend, not_forall, not_not] at hno
    obtain ⟨-, h1, h2, h3, h4⟩ := hno
    rw [hs0] at hs
    refine trySend_hangs h0.alive ⟨hh.trans h1, ⟨?_, ?_⟩, hmax.trans h2⟩ hs
    · rw [hwin]; exact h3
    · rw [hbuf]; exact h4
  | windowAdjust n =>
    simp only [SafeSend, not_forall, not_not] at hno
    obtain ⟨-, hp, h1, h2, h3, h4⟩ := hno
    obtain ⟨hs0, h0⟩ := step_adjust h n hp h1
    rw [hs0, trySendAndUnthrottle, if_neg (by rw [h0.sentEof]; simp)] at hs
    obtain ⟨s1, h1', h2'⟩ := Option.bind_eq_some_iff.mp hs
    have hhung := trySend_hangs h0.alive ⟨h1, ⟨h3, h4⟩, h2⟩ h1'
    rw [if_neg fun hp => hp.1 hhung] at h2'
    cases h2'; exact hhung
  | openConfirmation r w p => exact absurd trivial hno
  | ret v => exact absurd trivial hno

/-- However a channel is opened, and however writes and the server's window adjustments
    follow, what is sent is safe and complete exactly when no send meets a maximum packet
    size of 0 with data and window to use. -/
theorem sends_iff (cfg : Config) (o : Opening) (ts : List Traffic) :
    Always (stepTraffic cfg) (SendSafe o) (start cfg o) ts ↔ Along (stepTraffic cfg) SafeSend (start cfg o) ts := by
  refine always_iff_along (I := SendInv o) ?_ (fun _ _ h => h.1) (fun _ _ _ hi hok => step_sends hi hok) ?_ ts
  · exact ⟨(start_sending cfg o).safe (by simp), .inr (start_sending cfg o)⟩
  · intro ts s t s' hi hno hs hsafe
    exact hsafe.ends (step_spins hi hno hs)

/-- The server opens a channel with a maximum packet size of 0, and something is written. -/
theorem zero_maxpkt_never_ends :
    ¬ ∀ cfg o ts, Always (stepTraffic cfg) (SendSafe o) (start cfg o) ts := by
  intro h
  obtain ⟨s, hs, hsafe⟩ :=
    h ⟨false, false, false, false, 0x4000⟩ (.remote .default 0 1 100 0) [.write false [65]] _ (List.prefix_refl _)
  have hhung : (run (stepTraffic ⟨false, false, false, false, 0x4000⟩)
      (start ⟨false, false, false, false, 0x4000⟩ (.remote .default 0 1 100 0)) [.write false [65]]).map (·.life) =
      some .hung := by decide
  rw [hs] at hhung
  exact hsafe.ends (Option.some.inj hhung)

end Putty.Ssh2.Channel
