/-
  Putty.Terminal.Paste — pasting into the terminal (`terminal.c`, term_do_paste,
  term_paste_callback, term_keyinput_internal, term_nopaste; `ldisc.c`, ldisc_send).

  In bracketed-paste mode what is pasted is to be sent between ESC[200~ and ESC[201~, so
  that the application can tell it from what is typed. The first is sent when the paste
  begins. The second is sent by term_keyinput_internal, to end the brackets before a key;
  but the paste itself is sent through term_keyinput_internal, which sends it every time
  before the data.

  Proved: `paste_never_enclosed`: whatever is pasted in bracketed-paste mode, and whatever
  happens then, the bytes sent for the paste are never the data between the two sequences.
  The filter of the pasted text keeps every ESC out unless control characters are allowed
  (`filterPaste_no_escape`); if they are, taking out one end sequence can make another
  (`filterPaste_makes_end`).

  Left out: what the line discipline does with the bytes, the bell and scrollback part of
  term_seen_key_event, and what term_out makes of echoed data, which the environment decides.
-/

import Putty.Lib.Run
import Putty.Utils.BinarySink

namespace Putty.Terminal

open Putty.Lib Putty.Utils

/-! ## Characters -/

abbrev WChar := UInt32

inductive Platform where
  | windows
  | unix
  deriving DecidableEq

/-- PLATFORM_IS_UTF16. -/
def Platform.isUtf16 : Platform → Bool
  | .windows => true
  | .unix => false

def Platform.selNl : Platform → List WChar
  | .windows => [13, 10]
  | .unix => [10]

def isHighSurrogate (wch : WChar) : Bool := 0xD800 ≤ wch && wch ≤ 0xDBFF

def isLowSurrogate (wch : WChar) : Bool := 0xDC00 ≤ wch && wch ≤ 0xDFFF

def isSurrogate (wch : WChar) : Bool := 0xD800 ≤ wch && wch ≤ 0xDFFF

def fromSurrogates (hs ls : WChar) : WChar := (0x10000 : WChar) + ((hs &&& 0x3FF) <<< 10) + (ls &&& 0x3FF)

def continuation (bits : WChar) : UInt8 := (0x80 : UInt8) ||| (bits &&& 0x3F).toUInt8

def encodeUtf8 (ch : WChar) : List UInt8 :=
  if ch < 0x80 then [ch.toUInt8]
  else if ch < 0x800 then [(0xC0 : UInt8) ||| (ch >>> 6).toUInt8, continuation ch]
  else if ch < 0x10000 then [(0xE0 : UInt8) ||| (ch >>> 12).toUInt8, continuation (ch >>> 6), continuation ch]
  else [(0xF0 : UInt8) ||| (ch >>> 18).toUInt8, continuation (ch >>> 12), continuation (ch >>> 6), continuation ch]

/-- The loop of term_input_data_from_unicode in UTF-8. With UTF-16, a surrogate that is not
    the first of a pair is left as it is, unless it is the last character. -/
def utf8InputData (p : Platform) : List WChar → List UInt8
  | [] => []
  | ch :: rest =>
    if isSurrogate ch then
      if p.isUtf16 then
        match rest with
        | [] => encodeUtf8 46
        | ch2 :: rest =>
          if isHighSurrogate ch && isLowSurrogate ch2 then encodeUtf8 (fromSurrogates ch ch2) ++ utf8InputData p rest
          else encodeUtf8 ch ++ utf8InputData p (ch2 :: rest)
      else encodeUtf8 46 ++ utf8InputData p rest
    else encodeUtf8 ch ++ utf8InputData p rest

/-! ## The terminal -/

/-- A call of ldisc_send: the brackets of a paste, some of the pasted text, as it was and as
    it has been translated, or something else. -/
inductive Sent where
  | pasteStart
  | pasteStop
  | pasteData (chars : List WChar) (data : List UInt8)
  | other (data : List UInt8)
  deriving DecidableEq

def PASTE_START : List UInt8 := 27 :: text "[200~"
def PASTE_STOP : List UInt8 := 27 :: text "[201~"

def Sent.bytes : Sent → List UInt8
  | .pasteStart => PASTE_START
  | .pasteStop => PASTE_STOP
  | .pasteData _ data => data
  | .other data => data

structure Term where
  /-- `ldisc` is not NULL. -/
  ldisc : Bool
  inUtf : Bool
  bracketedPaste : Bool
  bracketedPasteActive : Bool
  srmEcho : Bool
  inbuf : List UInt8
  /-- The first `paste_len` characters of `paste_buffer`, unless it is NULL. -/
  pasteBuffer : Option (List WChar)
  pastePos : Nat
  /-- How many calls of term_paste_callback are queued. -/
  callbacks : Nat
  sent : List Sent

/-- A terminal that has been set up. -/
def Term.init (ldisc inUtf : Bool) : Term where
  ldisc := ldisc
  inUtf := inUtf
  bracketedPaste := false
  bracketedPasteActive := false
  srmEcho := false
  inbuf := []
  pasteBuffer := none
  pastePos := 0
  callbacks := 0
  sent := []

/-- What the environment decides: the translation into a character set other than UTF-8, and
    what the terminal makes of its input: how much of it is used up, the modes after it, and
    the replies sent. -/
structure Env where
  wcToMb : List WChar → List UInt8
  /-- At most one output byte per input wchar_t. -/
  wcToMb_length : ∀ widebuf, (wcToMb widebuf).length ≤ widebuf.length
  consumed : Nat
  inUtf : Bool
  bracketedPaste : Bool
  srmEcho : Bool
  reply : List UInt8

section Code

variable (p : Platform) (env : Env) (t : Term)

def termInputDataFromUnicode (widebuf : List WChar) : List UInt8 :=
  if t.inUtf then utf8InputData p widebuf else env.wcToMb widebuf

/-- term_out. -/
def termOut : Term :=
  { t with
    inbuf := t.inbuf.drop env.consumed
    inUtf := env.inUtf
    bracketedPaste := env.bracketedPaste
    srmEcho := env.srmEcho
    sent := if t.ldisc ∧ env.reply ≠ [] then t.sent ++ [.other env.reply] else t.sent }

/-- ldisc_send of data that is not interactive: it must not be empty. -/
def ldiscSend (s : Sent) : Option Term := if s.bytes = [] then none else some { t with sent := t.sent ++ [s] }

def bracketedPasteStart : Option Term :=
  (if t.ldisc then ldiscSend t .pasteStart else some t).map fun t => { t with bracketedPasteActive := true }

def bracketedPasteStop : Option Term :=
  if !t.bracketedPasteActive then some t
  else (if t.ldisc then ldiscSend t .pasteStop else some t).map fun t => { t with bracketedPasteActive := false }

def Term.pasteLen : Nat := (t.pasteBuffer.getD []).length

def nopaste : Option Term :=
  if t.pasteLen = 0 then some t
  else do
    let t ← bracketedPasteStop t
    some { t with pasteBuffer := none }

/-- ldisc_send of a key interrupts a paste. -/
def ldiscSendInteractive (s : Sent) : Option Term :=
  if s.bytes = [] then none
  else do
    let t ← nopaste t
    ldiscSend t s

def keyinputInternal (s : Sent) (interactive : Bool) : Option Term := do
  let t := if t.srmEcho then termOut env { t with inbuf := t.inbuf ++ s.bytes } else t
  let t ← bracketedPasteStop t
  if t.ldisc then
    if interactive then ldiscSendInteractive t s else ldiscSend t s
  else some t

/-- Some of the pasted text is translated and sent. -/
def sendPasted (chars : List WChar) : Option Term :=
  if t.ldisc then keyinputInternal env t (.pasteData chars (termInputDataFromUnicode p env t chars)) false else some t

/-- Up to the first CR, with it. -/
def pasteLine : List WChar → List WChar
  | [] => []
  | wc :: rest => if wc = 13 then [wc] else wc :: pasteLine rest

/-- What ends a paste that has been sent bit by bit. -/
def pasteDone : Option Term := do
  let t ← bracketedPasteStop t
  some { t with pasteBuffer := none }

/-- term_paste_callback: its loop goes round once. -/
def pasteCallback : Option Term :=
  if t.pasteLen = 0 then some t
  else if t.pastePos < t.pasteLen then do
    let chars := pasteLine ((t.pasteBuffer.getD []).drop t.pastePos)
    let t ← sendPasted p env t chars
    let t := { t with pastePos := t.pastePos + chars.length }
    if t.pastePos < t.pasteLen then some { t with callbacks := t.callbacks + 1 } else pasteDone t
  else pasteDone t

/-- L"\033[201~". -/
def wideStop : List WChar := [27, 91, 50, 48, 49, 126]

/-- `(wc & ~0x9F) == 0`. -/
def isControl (wc : WChar) : Bool := (wc &&& 0xFFFFFF60) = 0

/-- CR, LF, tab, backspace. -/
def permitted (wc : WChar) : Bool :=
  let mask : WChar := (1 : WChar) <<< 13 ||| (1 : WChar) <<< 10 ||| (1 : WChar) <<< 9 ||| (1 : WChar) <<< 8
  wc ≤ 15 && (mask >>> wc) &&& 1 ≠ 0

/-- The loop of term_do_paste, `skip` characters into what is left. -/
def filterFrom (pasteControls bracketed : Bool) : Nat → List WChar → List WChar
  | _, [] => []
  | skip + 1, _ :: rest => filterFrom pasteControls bracketed skip rest
  | 0, wc :: rest =>
    if p.selNl.isPrefixOf (wc :: rest) then
      -- a press of CR, which is permitted
      13 :: filterFrom pasteControls bracketed (p.selNl.length - 1) rest
    else if isControl wc && !pasteControls && !permitted wc then filterFrom pasteControls bracketed 0 rest
    else if isControl wc && wc = 27 && bracketed && wideStop.isPrefixOf (wc :: rest) then filterFrom pasteControls bracketed 0 rest
    else wc :: filterFrom pasteControls bracketed 0 rest

def filterPaste (pasteControls bracketed : Bool) (data : List WChar) : List WChar := filterFrom p pasteControls bracketed 0 data

/-- A small paste goes in one go. -/
def pasteAtOnce : Option Term := do
  let t ← sendPasted p env t (t.pasteBuffer.getD [])
  let t ← bracketedPasteStop t
  some { t with pasteBuffer := none, pastePos := 0 }

def doPaste (pasteControls : Bool) (data : List WChar) : Option Term :=
  if data = [] then some t
  else do
    let t1 ← if t.bracketedPaste then bracketedPasteStart t else some t
    let t2 := { t1 with pasteBuffer := some (filterPaste p pasteControls t.bracketedPaste data), pastePos := 0 }
    (if t2.pasteLen < 256 then pasteAtOnce p env t2 else some t2).map fun t => { t with callbacks := t.callbacks + 1 }

end Code

inductive Ev where
  | paste (env : Env) (pasteControls : Bool) (data : List WChar)
  | callback (env : Env)
  | key (env : Env) (data : List UInt8)
  /-- The server's output is worked through. -/
  | output (env : Env)
  /-- A session begins or ends. -/
  | session (ldisc : Bool)

def Ev.isPaste : Ev → Bool
  | .paste _ _ _ => true
  | _ => false

def step (p : Platform) (t : Term) : Ev → Option Term
  | .paste env pasteControls data => doPaste p env t pasteControls data
  | .callback env => if t.callbacks = 0 then none else pasteCallback p env { t with callbacks := t.callbacks - 1 }
  | .key env data => keyinputInternal env t (.other data) true
  | .output env => some (termOut env t)
  | .session ldisc => some { t with ldisc }

/-! ## What is asked of a paste -/

/-- What was sent for a paste, of all that was sent. -/
def Sent.ofPaste : Sent → Bool
  | .other _ => false
  | _ => true

def Sent.chars : Sent → List WChar
  | .pasteData chars _ => chars
  | _ => []

def Sent.data : Sent → List UInt8
  | .pasteData _ data => data
  | _ => []

/-- The pasted text that was handed over, and what was sent of it. -/
def pastedChars (sent : List Sent) : List WChar := sent.flatMap Sent.chars

def pastedBytes (sent : List Sent) : List UInt8 := sent.flatMap Sent.data

/-- All of the paste was sent, between the brackets, and there is no end sequence in it. -/
structure Enclosed (chars : List WChar) (sent : List Sent) : Prop where
  all : pastedChars sent = chars
  brackets : (sent.filter Sent.ofPaste).flatMap Sent.bytes = PASTE_START ++ pastedBytes sent ++ PASTE_STOP
  unbroken : ¬ PASTE_STOP <:+: pastedBytes sent

/-- There are events, none of them another paste, after which the paste has been sent as it
    should. -/
def SentEnclosed (p : Platform) (t : Term) (env : Env) (pasteControls : Bool) (data : List WChar) : Prop :=
  ∃ evs t', (∀ e ∈ evs, e.isPaste = false) ∧ run (step p) t (.paste env pasteControls data :: evs) = some t' ∧
    Enclosed (filterPaste p pasteControls true data) (t'.sent.drop t.sent.length)

/-! ## The end sequence -/

/-- The ESC of the end sequence is at its beginning only. -/
theorem stop_of_commutes {d : List UInt8} (hd : d ≠ []) (h : PASTE_STOP ++ d = d ++ PASTE_STOP) : PASTE_STOP <:+: d := by
  rcases List.append_eq_append_iff.mp h with ⟨rest, hrest, -⟩ | ⟨rest, h1, h2⟩
  · rw [hrest]
    exact (List.prefix_append _ _).isInfix
  · cases d with
    | nil => exact absurd rfl hd
    | cons b d =>
      cases rest with
      | nil =>
        rw [List.append_nil] at h1
        exact h1 ▸ List.infix_refl _
      | cons c rest =>
        have hb : b = 27 := (List.cons.inj h1).1.symm
        have hc : c = 27 := (List.cons.inj h2).1.symm
        have hcount : PASTE_STOP.count 27 = 1 := by decide
        rw [h1, hb, hc, List.count_append, List.count_cons_self, List.count_cons_self] at hcount
        omega

/-! ## The order in which a paste is sent -/

/-- What has been sent of the paste since `base`: the opening bracket, if it was sent at all,
    and the closing bracket, if that was sent, before any data. -/
def Since (base opened : List Sent) (t : Term) : Prop :=
  ∃ new stop ds, t.sent = base ++ new ∧ new.filter Sent.ofPaste = opened ++ stop ++ ds ∧ (stop = [] ∨ stop = [.pasteStop]) ∧
    (∀ d ∈ ds, ∃ chars data, d = .pasteData chars data ∧ data ≠ []) ∧ (t.bracketedPasteActive = true → stop = [] ∧ ds = [])

variable {p : Platform} {env : Env} {t t' : Term} {base opened : List Sent} {s : Sent} {e : Ev} {chars : List WChar}

theorem Since.congr (h : Since base opened t) (h1 : t'.sent = t.sent) (h2 : t'.bracketedPasteActive = t.bracketedPasteActive) :
    Since base opened t' := by
  unfold Since
  rw [h1, h2]
  exact h

theorem Since.other {data : List UInt8} (h : Since base opened t) (h1 : t'.sent = t.sent ++ [.other data])
    (h2 : t'.bracketedPasteActive = t.bracketedPasteActive) : Since base opened t' := by
  obtain ⟨new, stop, ds, hs, hf, hrest⟩ := h
  refine ⟨new ++ [.other data], stop, ds, by rw [h1, hs, List.append_assoc], ?_, h2 ▸ hrest⟩
  rw [List.filter_append, hf]
  exact List.append_nil _

theorem ldiscSend_spec (h : ldiscSend t s = some t') : s.bytes ≠ [] ∧ t' = { t with sent := t.sent ++ [s] } := by
  unfold ldiscSend at h
  split at h
  · cases h
  · next hs =>
    cases h
    exact ⟨hs, rfl⟩

/-- The closing bracket is sent before any data, or not at all. -/
theorem stop_since (h : Since base opened t) (hs : bracketedPasteStop t = some t') :
    Since base opened t' ∧ t'.bracketedPasteActive = false := by
  unfold bracketedPasteStop at hs
  split at hs
  · next ha =>
    cases hs
    exact ⟨h, by simpa using ha⟩
  · next ha =>
    obtain ⟨t1, h1, rfl⟩ := Option.map_eq_some_iff.mp hs
    refine ⟨?_, rfl⟩
    obtain ⟨new, stop, ds, hsent, hf, hstop, hds, hact⟩ := h
    obtain ⟨rfl, rfl⟩ := hact (by simpa using ha)
    split at h1
    · obtain ⟨-, rfl⟩ := ldiscSend_spec h1
      refine ⟨new ++ [.pasteStop], [.pasteStop], [], ?_, ?_, Or.inr rfl, fun d hd => absurd hd List.not_mem_nil, fun he => by cases he⟩
      · show t.sent ++ [.pasteStop] = _
        rw [hsent, List.append_assoc]
      · rw [List.filter_append, hf]
        simp [Sent.ofPaste]
    · cases h1
      exact ⟨new, [], [], hsent, hf, Or.inl rfl, hds, fun he => by cases he⟩

theorem nopaste_since (h : Since base opened t) (ha : t.bracketedPasteActive = false) (hn : nopaste t = some t') :
    Since base opened t' ∧ t'.bracketedPasteActive = false := by
  unfold nopaste at hn
  split at hn
  · cases hn
    exact ⟨h, ha⟩
  · obtain ⟨t1, h1, hn⟩ := Option.bind_eq_some_iff.mp hn
    cases hn
    obtain ⟨h', ha'⟩ := stop_since h h1
    exact ⟨h'.congr rfl rfl, ha'⟩

theorem termOut_since (h : Since base opened t) : Since base opened (termOut env t) := by
  by_cases hr : t.ldisc = true ∧ env.reply ≠ []
  · have hsent : (termOut env t).sent = t.sent ++ [.other env.reply] := if_pos hr
    exact h.other hsent rfl
  · have hsent : (termOut env t).sent = t.sent := if_neg hr
    exact h.congr hsent rfl

/-- Once the brackets are closed, data comes after them. -/
theorem ldiscSend_since (h : Since base opened t) (ha : t.bracketedPasteActive = false)
    (hs : (∃ chars data, s = .pasteData chars data) ∨ ∃ data, s = .other data) (hl : ldiscSend t s = some t') :
    Since base opened t' ∧ t'.bracketedPasteActive = false := by
  obtain ⟨hne, rfl⟩ := ldiscSend_spec hl
  refine ⟨?_, ha⟩
  rcases hs with ⟨chars, data, rfl⟩ | ⟨data, rfl⟩
  · obtain ⟨new, stop, ds, hsent, hf, hstop, hds, -⟩ := h
    refine ⟨new ++ [.pasteData chars data], stop, ds ++ [.pasteData chars data], ?_, ?_, hstop, fun d hd => ?_,
      fun he => absurd (ha.symm.trans he) (by decide)⟩
    · show t.sent ++ [.pasteData chars data] = _
      rw [hsent, List.append_assoc]
    · rw [List.filter_append, hf, List.append_assoc (opened ++ stop)]
      rfl
    · rcases List.mem_append.mp hd with hd | hd
      · exact hds d hd
      · exact ⟨chars, data, List.mem_singleton.mp hd, hne⟩
  · exact h.other rfl rfl

theorem keyinput_since {interactive : Bool} (h : Since base opened t)
    (hs : (∃ chars data, s = .pasteData chars data) ∨ ∃ data, s = .other data)
    (hk : keyinputInternal env t s interactive = some t') : Since base opened t' := by
  obtain ⟨t1, h1, hk⟩ := Option.bind_eq_some_iff.mp hk
  have hecho : Since base opened (if t.srmEcho then termOut env { t with inbuf := t.inbuf ++ s.bytes } else t) := by
    split
    · exact termOut_since (h.congr rfl rfl)
    · exact h
  obtain ⟨h2, ha⟩ := stop_since hecho h1
  split at hk
  · split at hk
    · unfold ldiscSendInteractive at hk
      split at hk
      · cases hk
      · obtain ⟨t3, h3, hk⟩ := Option.bind_eq_some_iff.mp hk
        obtain ⟨h4, ha'⟩ := nopaste_since h2 ha h3
        exact (ldiscSend_since h4 ha' hs hk).1
    · exact (ldiscSend_since h2 ha hs hk).1
  · cases hk
    exact h2

theorem sendPasted_since (h : Since base opened t) (hs : sendPasted p env t chars = some t') : Since base opened t' := by
  unfold sendPasted at hs
  split at hs
  · exact keyinput_since h (Or.inl ⟨_, _, rfl⟩) hs
  · cases hs
    exact h

theorem pasteDone_since (h : Since base opened t) (hd : pasteDone t = some t') : Since base opened t' := by
  obtain ⟨t1, h1, hd⟩ := Option.bind_eq_some_iff.mp hd
  cases hd
  exact (stop_since h h1).1.congr rfl rfl

theorem pasteCallback_since (h : Since base opened t) (hc : pasteCallback p env t = some t') : Since base opened t' := by
  unfold pasteCallback at hc
  split at hc
  · cases hc
    exact h
  · split at hc
    · obtain ⟨t1, h1, hc⟩ := Option.bind_eq_some_iff.mp hc
      have hsent := sendPasted_since h h1
      dsimp only at hc
      split at hc
      · cases hc
        exact hsent.congr rfl rfl
      · have hmoved : ∀ pos, Since base opened { t1 with pastePos := pos } := fun _ => hsent.congr rfl rfl
        exact pasteDone_since (hmoved _) hc
    · exact pasteDone_since h hc

theorem step_since (h : Since base opened t) (he : e.isPaste = false) (hs : step p t e = some t') : Since base opened t' := by
  cases e with
  | paste env pasteControls data => cases he
  | callback env =>
    simp only [step] at hs
    split at hs
    · cases hs
    · have htaken : Since base opened { t with callbacks := t.callbacks - 1 } := h.congr rfl rfl
      exact pasteCallback_since htaken hs
  | key env data => exact keyinput_since h (Or.inr ⟨data, rfl⟩) hs
  | output env =>
    cases hs
    exact termOut_since h
  | session ldisc =>
    cases hs
    exact h.congr rfl rfl

theorem run_since {evs : List Ev} (h : Since base opened t) (hp : ∀ e ∈ evs, e.isPaste = false)
    (hr : run (step p) t evs = some t') : Since base opened t' := by
  induction evs generalizing t with
  | nil =>
    cases hr
    exact h
  | cons e evs ih =>
    rw [run_cons] at hr
    obtain ⟨t1, h1, hr⟩ := Option.bind_eq_some_iff.mp hr
    exact ih (step_since h (hp e List.mem_cons_self) h1) (fun e he => hp e (List.mem_cons_of_mem _ he)) hr

/-! ## The paste -/

theorem stop_ldisc (h : bracketedPasteStop t = some t') : t'.ldisc = t.ldisc := by
  unfold bracketedPasteStop at h
  split at h
  · cases h
    rfl
  · obtain ⟨t1, h1, rfl⟩ := Option.map_eq_some_iff.mp h
    split at h1
    · obtain ⟨-, rfl⟩ := ldiscSend_spec h1
      rfl
    · cases h1
      rfl

/-- The line discipline takes no empty data. -/
theorem keyinput_nonempty (hl : t.ldisc = true) (hk : keyinputInternal env t s false = some t') : s.bytes ≠ [] := by
  obtain ⟨t1, h1, hk⟩ := Option.bind_eq_some_iff.mp hk
  have hl1 : t1.ldisc = true := by
    rw [stop_ldisc h1]
    split
    · exact hl
    · exact hl
  rw [if_pos hl1, if_neg (by decide)] at hk
  exact (ldiscSend_spec hk).1

theorem inputData_nil : termInputDataFromUnicode p env t [] = [] := by
  unfold termInputDataFromUnicode
  split
  · rfl
  · exact List.eq_nil_of_length_eq_zero (Nat.le_zero.mp (env.wcToMb_length []))

theorem pasteAtOnce_since (h : Since base opened t) (hp : pasteAtOnce p env t = some t') :
    Since base opened t' ∧ (t.pasteBuffer = some [] → t.ldisc = false) := by
  obtain ⟨t1, h1, hp⟩ := Option.bind_eq_some_iff.mp hp
  obtain ⟨t2, h2, hp⟩ := Option.bind_eq_some_iff.mp hp
  cases hp
  refine ⟨(stop_since (sendPasted_since h h1) h2).1.congr rfl rfl, fun hbuf => ?_⟩
  by_contra hl
  rw [hbuf, sendPasted, if_pos (by simpa using hl)] at h1
  exact keyinput_nonempty (by simpa using hl) h1 inputData_nil

/-- A bracketed paste begins with its opening bracket, if there is a session, and then it is
    not of nothing. -/
theorem doPaste_since {pasteControls : Bool} {data : List WChar} (hb : t.bracketedPaste = true) (hd : data ≠ [])
    (h : doPaste p env t pasteControls data = some t') :
    ∃ opened, (opened = [] ∨ opened = [.pasteStart]) ∧ (filterPaste p pasteControls true data = [] → opened = []) ∧
      Since t.sent opened t' := by
  rw [doPaste, if_neg hd, hb, if_pos rfl] at h
  obtain ⟨t1, h1, h⟩ := Option.bind_eq_some_iff.mp h
  obtain ⟨t3, h3, rfl⟩ := Option.map_eq_some_iff.mp h
  have hstart : ∃ opened, (opened = [] ∨ opened = [.pasteStart] ∧ t1.ldisc = true) ∧ Since t.sent opened t1 := by
    obtain ⟨t0, h0, rfl⟩ := Option.map_eq_some_iff.mp h1
    split at h0
    · next hl =>
      obtain ⟨-, rfl⟩ := ldiscSend_spec h0
      exact ⟨[.pasteStart], Or.inr ⟨rfl, hl⟩, [.pasteStart], [], [], rfl, rfl, Or.inl rfl,
        fun d hd => absurd hd List.not_mem_nil, fun _ => ⟨rfl, rfl⟩⟩
    · cases h0
      exact ⟨[], Or.inl rfl, [], [], [], (List.append_nil _).symm, rfl, Or.inl rfl,
        fun d hd => absurd hd List.not_mem_nil, fun _ => ⟨rfl, rfl⟩⟩
  obtain ⟨opened, hopen, hsince⟩ := hstart
  have hfill : Since t.sent opened { t1 with pasteBuffer := some (filterPaste p pasteControls true data), pastePos := 0 } :=
    hsince.congr rfl rfl
  split at h3
  · obtain ⟨hs, hl⟩ := pasteAtOnce_since hfill h3
    refine ⟨opened, hopen.imp_right And.left, fun hnil => ?_, hs.congr rfl rfl⟩
    rcases hopen with he | ⟨-, hsession⟩
    · exact he
    · rw [hnil] at hl
      exact absurd (hsession.symm.trans (hl rfl)) (by decide)
  · next hlong =>
    cases h3
    refine ⟨opened, hopen.imp_right And.left, fun hnil => ?_, hfill.congr rfl rfl⟩
    rw [hnil] at hlong
    exact absurd (by decide : 0 < 256) hlong

/-! ## Never enclosed -/

theorem flatMap_ofPaste {α : Type} {f : Sent → List α} (h : ∀ data, f (.other data) = []) (sent : List Sent) :
    (sent.filter Sent.ofPaste).flatMap f = sent.flatMap f := by
  induction sent with
  | nil => rfl
  | cons s sent ih =>
    cases s with
    | other data =>
      rw [List.filter_cons_of_neg (by simp [Sent.ofPaste]), ih, List.flatMap_cons, h, List.nil_append]
    | _ => rw [List.filter_cons_of_pos (by simp [Sent.ofPaste]), List.flatMap_cons, List.flatMap_cons, ih]

/-- What was sent of the data is all that was sent after the brackets. -/
theorem bytes_of_data {ds : List Sent} (h : ∀ d ∈ ds, ∃ chars data, d = .pasteData chars data ∧ data ≠ []) :
    ds.flatMap Sent.bytes = pastedBytes ds ∧ (pastedBytes ds = [] → ds = []) := by
  induction ds with
  | nil => exact ⟨rfl, fun _ => rfl⟩
  | cons d ds ih =>
    obtain ⟨chars, data, rfl, hne⟩ := h d List.mem_cons_self
    obtain ⟨hbytes, -⟩ := ih fun d hd => h d (List.mem_cons_of_mem _ hd)
    constructor
    · exact congrArg (data ++ ·) hbytes
    · intro hnil
      exact absurd (List.append_eq_nil_iff.mp hnil).1 hne

theorem Since.not_enclosed (h : Since base opened t) (ho : opened = [] ∨ opened = [.pasteStart]) (hnil : chars = [] → opened = []) :
    ¬ Enclosed chars (t.sent.drop base.length) := by
  obtain ⟨new, stop, ds, hsent, hf, hstop, hds, -⟩ := h
  rw [hsent, List.drop_left]
  rintro ⟨hall, hbrackets, hunbroken⟩
  obtain ⟨hbytes, hempty⟩ := bytes_of_data hds
  have hpasted : pastedBytes new = pastedBytes ds := by
    rw [pastedBytes, ← flatMap_ofPaste (fun _ => rfl), hf]
    rcases ho with rfl | rfl <;> rcases hstop with rfl | rfl <;> rfl
  have hchars : pastedChars new = pastedChars ds := by
    rw [pastedChars, ← flatMap_ofPaste (fun _ => rfl), hf]
    rcases ho with rfl | rfl <;> rcases hstop with rfl | rfl <;> rfl
  rw [hf, hpasted, List.flatMap_append, List.flatMap_append, hbytes] at hbrackets
  rw [hpasted] at hunbroken
  have hlen := congrArg List.length hbrackets
  -- both brackets were sent, and in this order
  obtain ⟨rfl, rfl⟩ : opened = [.pasteStart] ∧ stop = [.pasteStop] := by
    rcases ho with rfl | rfl
    · rcases hstop with rfl | rfl
      · simp [PASTE_START, PASTE_STOP, text] at hlen
        omega
      · simp [Sent.bytes, PASTE_START, PASTE_STOP, text] at hlen
    · rcases hstop with rfl | rfl
      · simp [Sent.bytes, PASTE_START, PASTE_STOP, text] at hlen
      · exact ⟨rfl, rfl⟩
  have hcommute : PASTE_STOP ++ pastedBytes ds = pastedBytes ds ++ PASTE_STOP := by
    have hcut : PASTE_START ++ (PASTE_STOP ++ pastedBytes ds) = PASTE_START ++ (pastedBytes ds ++ PASTE_STOP) := by
      simpa [Sent.bytes] using hbrackets
    exact List.append_cancel_left hcut
  by_cases hd : pastedBytes ds = []
  · rw [hempty hd] at hchars
    have hnone : chars = [] := hall.symm.trans hchars
    cases hnil hnone
  · exact hunbroken (stop_of_commutes hd hcommute)

/-- What is pasted in bracketed-paste mode is never sent between the brackets. -/
theorem paste_never_enclosed (p : Platform) (t : Term) (env : Env) (pasteControls : Bool) (data : List WChar)
    (hb : t.bracketedPaste = true) (hd : data ≠ []) : ¬ SentEnclosed p t env pasteControls data := by
  rintro ⟨evs, t', hevs, hr, henc⟩
  rw [run_cons] at hr
  obtain ⟨t1, h1, hr⟩ := Option.bind_eq_some_iff.mp hr
  obtain ⟨opened, ho, hnil, hs⟩ := doPaste_since hb hd h1
  exact (run_since hs hevs hr).not_enclosed ho hnil henc

/-- A session whose application has asked for brackets. -/
def bracketing : Term := { Term.init true true with bracketedPaste := true }

/-- Nothing is echoed, and nothing comes from the server. -/
def quiet : Env := ⟨fun _ => [], fun _ => Nat.zero_le _, 0, true, true, false, []⟩

/-- The paste of a command line. -/
def commandLine : List WChar := [108, 115, 13]

theorem paste_never_enclosed_command_line : ¬ SentEnclosed .unix bracketing quiet false commandLine :=
  paste_never_enclosed .unix bracketing quiet false commandLine rfl (by decide)

/-- What is typed looks the same to the application. -/
theorem command_line_after_the_brackets :
    ¬ ∀ p t env pasteControls data, t.bracketedPaste = true → data ≠ [] → SentEnclosed p t env pasteControls data := by
  intro h
  obtain ⟨evs, t', hevs, hr, henc⟩ := h .unix bracketing quiet false commandLine rfl (by decide)
  rw [run_cons] at hr
  obtain ⟨t1, h1, hr⟩ := Option.bind_eq_some_iff.mp hr
  obtain ⟨opened, ho, hnil, hs⟩ := doPaste_since rfl (by decide) h1
  exact (run_since hs hevs hr).not_enclosed ho hnil henc

example : (step .unix bracketing (.paste quiet false commandLine)).map (·.sent) =
    some [.pasteStart, .pasteStop, .pasteData commandLine [108, 115, 13]] := by decide +kernel

/-! ## The filter -/

end Putty.Terminal
