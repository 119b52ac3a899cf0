/-
  Putty.Telnet.Framing — reading back one write of the Telnet backend.

  The scanner is do_telnet_read's machine with its actions left as tokens
  (`readByte_scan`). Here are what the negotiation writes (`procRecOpt_speaks`) and what
  the scanner makes of each kind of write: of a subnegotiation whose payload is not
  escaped, less than was meant if there is an IAC in it (`scan_iac`).
-/

import Putty.Telnet.Session
import Putty.Telnet.Negotiation

namespace Putty.Telnet

/-! ## The scanner -/

/-- Where a reader of the stream is; `bin` is whether the stream is in BINARY mode. -/
structure Reader where
  state : ReadState
  sbOpt : UInt8
  sbBuf : List UInt8
  bin : Bool
  deriving DecidableEq, Repr

def Reader.at (r : Reader) (state : ReadState) : Reader := { r with state }

/-- BINARY mode after WILL or WONT. -/
def binAfter (bin : Bool) (cmd : Cmd) (option : UInt8) : Bool :=
  if option = Telopt.BINARY then
    match cmd with
    | .WILL => true
    | .WONT => false
    | _ => bin
  else bin

def scanOpt (r : Reader) (cmd : Cmd) (c : UInt8) : Reader × List Token :=
  ({ r with state := .topLevel, bin := binAfter r.bin cmd c }, [.opt cmd c])

def scanTop (r : Reader) (c : UInt8) : Reader × List Token :=
  if c = 0 ∧ r.state = .seenCr then (r.at .topLevel, [])
  else if c = IAC then (r.at .seenIac, [])
  else (r.at (if c = CR ∧ r.bin = false then .seenCr else .topLevel), [.data c])

def scanIac (r : Reader) (c : UInt8) : Reader × List Token :=
  if c = Cmd.DO.code then (r.at .seenDo, [])
  else if c = Cmd.DONT.code then (r.at .seenDont, [])
  else if c = Cmd.WILL.code then (r.at .seenWill, [])
  else if c = Cmd.WONT.code then (r.at .seenWont, [])
  else if c = SB then (r.at .seenSb, [])
  else (r.at .topLevel, [if c = IAC then .data c else .command c])

def scanAdd (r : Reader) (c : UInt8) : Reader := { r with sbBuf := r.sbBuf ++ [c], state := .subnegot }

def scanByte (r : Reader) (c : UInt8) : Reader × List Token :=
  match r.state with
  | .topLevel => scanTop r c
  | .seenCr => scanTop r c
  | .seenIac => scanIac r c
  | .seenWill => scanOpt r .WILL c
  | .seenWont => scanOpt r .WONT c
  | .seenDo => scanOpt r .DO c
  | .seenDont => scanOpt r .DONT c
  | .seenSb => ({ r with sbOpt := c, sbBuf := [], state := .subnegot }, [])
  | .subnegot => if c = IAC then (r.at .subnegIac, []) else (scanAdd r c, [])
  | .subnegIac => if c ≠ SE then (scanAdd r c, []) else (r.at .topLevel, [.subneg r.sbOpt r.sbBuf])

def scan (r : Reader) : List UInt8 → Reader × List Token
  | [] => (r, [])
  | c :: cs => ((scan (scanByte r c).1 cs).1, (scanByte r c).2 ++ (scan (scanByte r c).1 cs).2)

theorem scan_append (r : Reader) (as bs : List UInt8) :
    scan r (as ++ bs) = ((scan (scan r as).1 bs).1, (scan r as).2 ++ (scan (scan r as).1 bs).2) := by
  induction as generalizing r with
  | nil => rfl
  | cons c as ih => simp only [List.cons_append, scan, ih, List.append_assoc]

/-! ## What the negotiation writes -/

def sizeWrite (width height : Int) : Write :=
  ⟨[.subneg Telopt.NAWS (sizeBytes width height)],
    [IAC, SB, Telopt.NAWS] ++ (sizeBytes width height).flatMap duplicated ++ [IAC, SE]⟩

def optWrite (cmd : Cmd) (option : UInt8) : Write := ⟨[.opt cmd option], [IAC, cmd.code, option]⟩

def Control (w : Write) : Prop := (∃ cmd option, w = optWrite cmd option) ∨ ∃ width height, w = sizeWrite width height

/-- Negotiation is written, none of it about sending BINARY. -/
structure Speaks (t t' : St) : Prop where
  sbOpt : t'.sbOpt = t.sbOpt
  sbBuf : t'.sbBuf = t.sbBuf
  weBin : t'.optStates .weBin = t.optStates .weBin
  sent : ∃ ws, t'.sent = t.sent ++ ws ∧ ∀ w ∈ ws, Control w ∧ ∀ m ∈ w.meaning, ¬ About oWeBin m

theorem Speaks.refl (t : St) : Speaks t t := ⟨rfl, rfl, rfl, [], by simp, by simp⟩

theorem Speaks.trans {t t1 t' : St} (h : Speaks t t1) (h' : Speaks t1 t') : Speaks t t' := by
  obtain ⟨ws, hws, hc⟩ := h.sent
  obtain ⟨ws', hws', hc'⟩ := h'.sent
  refine ⟨h'.sbOpt.trans h.sbOpt, h'.sbBuf.trans h.sbBuf, h'.weBin.trans h.weBin, ws ++ ws', ?_, fun w hw => ?_⟩
  · rw [hws', hws, List.append_assoc]
  · rcases List.mem_append.mp hw with hw | hw
    · exact hc w hw
    · exact hc' w hw

theorem speaks_sendOpt (t : St) {cmd : Cmd} {option : UInt8} (h : ¬ About oWeBin (.opt cmd option)) : Speaks t (sendOpt t cmd option) :=
  ⟨rfl, rfl, rfl, [optWrite cmd option], rfl, by simpa [optWrite] using ⟨.inl ⟨cmd, option, rfl⟩, h⟩⟩

theorem speaks_setOptState (t : St) {o : Opt} (h : .weBin ≠ o.index) (st : OptState) : Speaks t (setOptState t o st) :=
  ⟨rfl, rfl, optStates_setOptState_ne h, [], by simp [setOptState], by simp⟩

theorem not_about_weBin : ∀ o ∈ opts, o ≠ oWeBin → .weBin ≠ o.index ∧
    ¬ About oWeBin (.opt o.send o.option) ∧ ¬ About oWeBin (.opt o.nsend o.option) := by
  unfold About
  decide

theorem speaks_telnetSize (t : St) (width height : Int) : Speaks t (telnetSize t width height) := by
  simp only [telnetSize]
  split
  · exact ⟨rfl, rfl, rfl, [], by simp, by simp⟩
  · refine ⟨rfl, rfl, rfl, [sizeWrite width height], rfl, ?_⟩
    simpa [sizeWrite, About] using .inr ⟨width, height, rfl⟩

theorem speaks_deactivateOption (t : St) {o : Opt} (ho : o ∈ opts) (hne : o ≠ oWeBin) : Speaks t (deactivateOption t o) := by
  obtain ⟨hi, -, hn⟩ := not_about_weBin o ho hne
  unfold deactivateOption
  dsimp only
  split
  · exact (speaks_sendOpt t hn).trans (speaks_setOptState _ hi _)
  · exact speaks_setOptState t hi _

theorem speaks_request (t : St) {o : Opt} (ho : o ∈ opts) (hne : o ≠ oWeBin) : Speaks t (request t o) := by
  obtain ⟨hi, hs, -⟩ := not_about_weBin o ho hne
  unfold request
  split
  · exact (speaks_setOptState t hi _).trans (speaks_sendOpt _ hs)
  · exact Speaks.refl t

theorem speaks_flagged (t : St) (o : Opt) (enabled : Bool) : Speaks t (flagged t o enabled) := by
  unfold flagged
  split
  · exact ⟨rfl, rfl, rfl, [], by simp, by simp⟩
  · split <;> exact ⟨rfl, rfl, rfl, [], by simp, by simp⟩

theorem speaks_optionSideEffects (t : St) (o : Opt) (enabled : Bool) : Speaks t (optionSideEffects t o enabled) := by
  rw [optionSideEffects_eq]
  have hflag := speaks_flagged t o enabled
  split
  · exact hflag
  · have h1 := speaks_request (flagged t o enabled) (o := oEcho) (by decide) (by decide)
    have h2 := speaks_request (request (flagged t o enabled) oEcho) (o := oWeSga) (by decide) (by decide)
    have h3 := speaks_request (request (request (flagged t o enabled) oEcho) oWeSga) (o := oTheySga) (by decide) (by decide)
    have h := hflag.trans (h1.trans (h2.trans h3))
    exact ⟨h.sbOpt, h.sbBuf, h.weBin, h.sent⟩

theorem speaks_activateOption (t : St) (o : Opt) : Speaks t (activateOption t o) := by
  rw [activateOption_eq]
  refine Speaks.trans ?_ (speaks_optionSideEffects _ o true)
  have ha : Speaks t (announced t o) := by
    unfold announced
    split
    · exact speaks_telnetSize t _ _
    · exact Speaks.refl t
  refine ha.trans ?_
  unfold oneEnviron
  split
  · split
    · exact speaks_deactivateOption _ (by decide) (by decide)
    · exact speaks_deactivateOption _ (by decide) (by decide)
  · exact Speaks.refl _

theorem speaks_refusedOption (t : St) (o : Opt) : Speaks t (refusedOption t o) := by
  unfold refusedOption
  refine Speaks.trans ?_ (speaks_optionSideEffects _ o false)
  split
  · exact (speaks_sendOpt t (by unfold About; decide)).trans (speaks_setOptState _ (by decide) _)
  · exact Speaks.refl t

theorem speaks_acked (t : St) {o : Opt} (ho : o ∈ opts) (hne : o ≠ oWeBin) : Speaks t (acked t o o.option) := by
  obtain ⟨hi, hs, hn⟩ := not_about_weBin o ho hne
  unfold acked
  split
  · exact (speaks_setOptState t hi _).trans (speaks_activateOption _ o)
  · exact Speaks.refl t
  · exact ((speaks_setOptState t hi _).trans (speaks_sendOpt _ hs)).trans (speaks_activateOption _ o)
  · exact speaks_sendOpt t hn

theorem speaks_naked (t : St) {o : Opt} (ho : o ∈ opts) (hne : o ≠ oWeBin) : Speaks t (naked t o o.option) := by
  obtain ⟨hi, hs, hn⟩ := not_about_weBin o ho hne
  unfold naked
  split
  · exact (speaks_setOptState t hi _).trans (speaks_refusedOption _ o)
  · exact ((speaks_setOptState t hi _).trans (speaks_sendOpt _ hn)).trans (speaks_optionSideEffects _ o false)
  · exact Speaks.refl t
  · exact Speaks.refl t

/-- Sending BINARY is off or on, never asked for nor given up. -/
def Binary (t : St) : Prop := t.optStates .weBin = .inactive ∨ t.optStates .weBin = .active

/-- What a command has written: negotiation, in which sending BINARY changes with its own
    message only. -/
theorem procRecOpt_speaks {t : St} (h : Binary t) (cmd : Cmd) (option : UInt8) :
    Speaks t (procRecOpt t cmd option) ∨
    (t.optStates .weBin = .inactive ∧ Speaks (sendOpt (setOptState t oWeBin .active) .WILL Telopt.BINARY) (procRecOpt t cmd option)) ∨
    (t.optStates .weBin = .active ∧ Speaks (sendOpt (setOptState t oWeBin .inactive) .WONT Telopt.BINARY) (procRecOpt t cmd option)) := by
  rcases procRecOpt_cases t cmd option with ⟨o, ho, rfl, rfl, heq⟩ | ⟨o, ho, rfl, rfl, heq⟩ | ⟨hno, heq⟩ <;> rw [heq]
  · by_cases hne : o = oWeBin
    · subst hne
      unfold acked
      rcases h with h | h <;> rw [show t.optStates oWeBin.index = _ from h]
      · exact .inr (.inl ⟨h, speaks_activateOption _ oWeBin⟩)
      · exact .inl (Speaks.refl t)
    · exact .inl (speaks_acked t ho hne)
  · by_cases hne : o = oWeBin
    · subst hne
      unfold naked
      rcases h with h | h <;> rw [show t.optStates oWeBin.index = _ from h]
      · exact .inl (Speaks.refl t)
      · exact .inr (.inr ⟨h, speaks_optionSideEffects _ oWeBin false⟩)
    · exact .inl (speaks_naked t ho hne)
  · left
    unfold unknownOption
    split
    · next hc =>
      refine speaks_sendOpt t ?_
      unfold About
      rcases hc with rfl | rfl
      · simp [oWeBin]
      · simp only [reduceCtorEq, if_false]
        rintro (hab | hab)
        · cases hab
        · injection hab with _ hx
          exact (hno oWeBin (by decide) hx.symm).1 rfl
    · exact Speaks.refl t

/-! ## The scanner is do_telnet_read -/

/-- What do_telnet_read does with a token, outside a SYNCH. -/
def perform (t : St) : Token → St
  | .data c => putByte t c
  | .opt cmd option => procRecOpt t cmd option
  | .subneg _ _ => processSubneg t
  | _ => t

/-- The reader in the backend. -/
def reader (t : St) : Reader := ⟨t.state, t.sbOpt, t.sbBuf, t.optStates .theyBin = .active⟩

def setReader (t : St) (r : Reader) : St := { t with state := r.state, sbOpt := r.sbOpt, sbBuf := r.sbBuf }

/-! ## Reading a write back -/

@[simp] theorem at_state (r : Reader) (state : ReadState) : (r.at state).state = state := rfl
@[simp] theorem at_bin (r : Reader) (state : ReadState) : (r.at state).bin = r.bin := rfl
@[simp] theorem at_sbOpt (r : Reader) (state : ReadState) : (r.at state).sbOpt = r.sbOpt := rfl
@[simp] theorem at_sbBuf (r : Reader) (state : ReadState) : (r.at state).sbBuf = r.sbBuf := rfl

theorem scan_opt {r : Reader} (h : r.state = .topLevel) (cmd : Cmd) (option : UInt8) :
    scan r [IAC, cmd.code, option] = ({ r with state := .topLevel, bin := binAfter r.bin cmd option }, [.opt cmd option]) := by
  have h1 : scanByte r IAC = (r.at .seenIac, []) := by
    rw [scanByte, h]
    simp [scanTop, h]
  simp only [scan, h1]
  cases cmd <;> rfl

/-- The start of a subnegotiation. -/
theorem scan_subneg {r : Reader} (h : r.state = .topLevel) (opt : UInt8) (cs : List UInt8) :
    scan r ([IAC, SB, opt] ++ cs) = scan ⟨.subnegot, opt, [], r.bin⟩ cs := by
  have h1 : scanByte r IAC = (r.at .seenIac, []) := by
    rw [scanByte, h]
    simp [scanTop, h]
  have h2 : scanByte (r.at .seenIac) SB = (r.at .seenSb, []) := rfl
  simp only [List.cons_append, List.nil_append, scan, h1, h2]
  rfl

theorem scanByte_subnegot {r : Reader} (h : r.state = .subnegot) {c : UInt8} (hc : c ≠ IAC) : scanByte r c = (scanAdd r c, []) := by
  rw [scanByte, h]
  exact if_neg hc

theorem scanByte_subnegot_iac {r : Reader} (h : r.state = .subnegot) : scanByte r IAC = (r.at .subnegIac, []) := by
  rw [scanByte, h]
  exact if_pos rfl

theorem scanByte_iac {r : Reader} (h : r.state = .subnegIac) {c : UInt8} (hc : c ≠ SE) : scanByte r c = (scanAdd r c, []) := by
  rw [scanByte, h]
  exact if_pos hc

theorem scanByte_end {r : Reader} (h : r.state = .subnegIac) : scanByte r SE = (r.at .topLevel, [.subneg r.sbOpt r.sbBuf]) := by
  rw [scanByte, h]
  exact if_neg (by simp)

/-- The end of a subnegotiation. -/
theorem scan_end {r : Reader} (h : r.state = .subnegot) : scan r [IAC, SE] = (r.at .topLevel, [.subneg r.sbOpt r.sbBuf]) := by
  simp only [scan, scanByte_subnegot_iac h, scanByte_end (at_state r .subnegIac)]
  rfl

theorem add_at_subnegIac (r : Reader) (c : UInt8) : scanAdd (r.at .subnegIac) c = scanAdd r c := rfl

/-- Duplicating every IAC keeps the payload. -/
theorem scan_duplicated {r : Reader} (h : r.state = .subnegot) (p : List UInt8) :
    scan r (p.flatMap duplicated ++ [IAC, SE]) = (⟨.topLevel, r.sbOpt, r.sbBuf ++ p, r.bin⟩, [.subneg r.sbOpt (r.sbBuf ++ p)]) := by
  induction p generalizing r with
  | nil =>
    rw [List.flatMap_nil, List.nil_append, scan_end h, List.append_nil]
    rfl
  | cons c p ih =>
    have hadd := ih (r := scanAdd r c) rfl
    rw [show (scanAdd r c).sbBuf ++ p = r.sbBuf ++ c :: p from List.append_assoc r.sbBuf [c] p] at hadd
    rw [List.flatMap_cons, List.append_assoc, duplicated]
    by_cases hc : c = IAC
    · subst hc
      rw [if_pos rfl]
      simp only [List.cons_append, List.nil_append, scan, scanByte_subnegot_iac h,
        scanByte_iac (at_state r .subnegIac) (show IAC ≠ SE by decide), add_at_subnegIac, hadd]
      rfl
    · rw [if_neg hc]
      simp only [List.cons_append, List.nil_append, scan, scanByte_subnegot h hc, hadd]
      rfl

theorem duplicated_plain {p : List UInt8} (h : IAC ∉ p) : p.flatMap duplicated = p := by
  induction p with
  | nil => rfl
  | cons c p ih =>
    have hc : c ≠ IAC := fun hc => h (by rw [hc]; exact List.mem_cons_self)
    rw [List.flatMap_cons, ih fun hp => h (List.mem_cons_of_mem _ hp), duplicated, if_neg hc]
    rfl

/-- A payload without IAC is read back. -/
theorem scan_plain {r : Reader} (h : r.state = .topLevel) {opt : UInt8} {p : List UInt8} (hp : IAC ∉ p) :
    scan r (subnegBytes opt p) = (⟨.topLevel, opt, p, r.bin⟩, [.subneg opt p]) := by
  have := scan_duplicated (r := ⟨.subnegot, opt, [], r.bin⟩) rfl p
  rw [duplicated_plain hp] at this
  rw [subnegBytes, List.append_assoc, scan_subneg h, this]
  rfl

/-- A payload with an IAC is not read back: what is read first is shorter, if anything. -/
theorem scan_iac {r : Reader} (h : r.state = .subnegot) (p : List UInt8) :
    (scan r (p ++ [IAC, SE])).2 = [] ∨
      ∃ q ms, (scan r (p ++ [IAC, SE])).2 = .subneg r.sbOpt q :: ms ∧ q.length ≤ r.sbBuf.length + p.length ∧
        (IAC ∈ p → q.length < r.sbBuf.length + p.length) := by
  match p with
  | [] => exact .inr ⟨r.sbBuf, [], by rw [List.nil_append, scan_end h], by simp, by simp⟩
  | c :: p =>
    by_cases hc : c = IAC
    · subst hc
      match p with
      | [] =>
        left
        simp only [List.cons_append, List.nil_append, scan, scanByte_subnegot_iac h,
          scanByte_iac (at_state r .subnegIac) (show IAC ≠ SE by decide), add_at_subnegIac]
        rw [scanByte_subnegot rfl (show SE ≠ IAC by decide)]
        rfl
      | d :: p =>
        by_cases hd : d = SE
        · subst hd
          refine .inr ⟨r.sbBuf, (scan (r.at .topLevel) (p ++ [IAC, SE])).2, ?_, by simp, fun _ => by simp⟩
          simp only [List.cons_append, scan, scanByte_subnegot_iac h, scanByte_end (at_state r .subnegIac)]
          rfl
        · have hlen : (scanAdd r d).sbBuf.length = r.sbBuf.length + 1 := by simp [scanAdd]
          have hscan : (scan r (IAC :: d :: p ++ [IAC, SE])).2 = (scan (scanAdd r d) (p ++ [IAC, SE])).2 := by
            simp only [List.cons_append, scan, scanByte_subnegot_iac h, scanByte_iac (at_state r .subnegIac) hd, add_at_subnegIac]
            rfl
          rcases scan_iac (r := scanAdd r d) rfl p with h0 | ⟨q, ms, h1, h2, -⟩
          · exact .inl (hscan.trans h0)
          · refine .inr ⟨q, ms, hscan.trans h1, ?_, fun _ => ?_⟩ <;> simp only [List.length_cons] <;> omega
    · have hlen : (scanAdd r c).sbBuf.length = r.sbBuf.length + 1 := by simp [scanAdd]
      have hscan : (scan r (c :: p ++ [IAC, SE])).2 = (scan (scanAdd r c) (p ++ [IAC, SE])).2 := by
        simp only [List.cons_append, scan, scanByte_subnegot h hc]
        rfl
      rcases scan_iac (r := scanAdd r c) rfl p with h0 | ⟨q, ms, h1, h2, h3⟩
      · exact .inl (hscan.trans h0)
      · refine .inr ⟨q, ms, hscan.trans h1, ?_, fun hm => ?_⟩
        · simp only [List.length_cons]; omega
        · have := h3 ((List.mem_cons.mp hm).resolve_left (Ne.symm hc))
          simp only [List.length_cons]
          omega

/-- Bytes that are written as they are. -/
theorem scan_data {r : Reader} (h : r.state = .topLevel) {q : List UInt8} (hq : ∀ c ∈ q, c ≠ IAC ∧ (r.bin = true ∨ c ≠ CR)) :
    scan r q = (r, q.map .data) := by
  induction q with
  | nil => rfl
  | cons c q ih =>
    obtain ⟨hc, hcr⟩ := hq c List.mem_cons_self
    have hbyte : scanByte r c = (r, [.data c]) := by
      have hn : ¬ (c = CR ∧ r.bin = false) := fun hx => by rcases hcr with h1 | h1 <;> simp_all
      rw [scanByte, h]
      simp only [scanTop, h, reduceCtorEq, and_false, if_false, hc, hn]
      rw [Reader.at, ← h]
    simp only [scan, hbyte, ih fun d hd => hq d (List.mem_cons_of_mem _ hd)]
    rfl

theorem scan_iac_iac {r : Reader} (h : r.state = .topLevel) : scan r [IAC, IAC] = (r, [.data IAC]) := by
  have h1 : scanByte r IAC = (r.at .seenIac, []) := by
    rw [scanByte, h]
    simp [scanTop, h]
  have h2 : scanByte (r.at .seenIac) IAC = (r.at .topLevel, [.data IAC]) := rfl
  simp only [scan, h1, h2, List.nil_append, List.append_nil]
  rw [Reader.at, ← h]

/-- A CR with its NUL, or with the LF of an end of line. -/
theorem scan_cr {r : Reader} (h : r.state = .topLevel) (hb : r.bin = false) :
    scan r [CR, 0] = (r, [.data CR]) ∧ scan r [CR, LF] = (r, [.data CR, .data LF]) := by
  have h1 : scanByte r CR = (r.at .seenCr, [.data CR]) := by
    rw [scanByte, h]
    simp [scanTop, h, hb, CR, IAC]
  have h2 : scanByte (r.at .seenCr) 0 = (r.at .topLevel, []) := rfl
  have h3 : scanByte (r.at .seenCr) LF = (r.at .topLevel, [.data LF]) := rfl
  have h4 : r.at .topLevel = r := by rw [Reader.at, ← h]
  constructor
  · simp only [scan, h1, h2, h4]
    rfl
  · simp only [scan, h1, h3, h4]
    rfl

end Putty.Telnet
