/-
  Putty.Telnet.Streams — reading back everything the Telnet backend writes.

  Every write is read back as what it means, from wherever a token may start (`Framed`),
  but for a subnegotiation whose configured values hold an IAC or a code for VAR or VALUE,
  since those are not escaped: a session is read back as it was meant exactly when no such
  reply is asked for (`session_framed_iff`). A user name of the one byte 255 swallows the
  end of its own message (`iac_in_a_user_name`).
-/

import Mathlib.Data.List.TakeWhile
import Putty.Lib.Run
import Putty.Telnet.Framing

namespace Putty.Telnet

/-! ## The variables of a reply -/

/-- The bytes before the first code, then each code with the bytes after it. -/
def split (s : Senses) : List UInt8 → List UInt8 × List (UInt8 × List UInt8)
  | [] => ([], [])
  | c :: cs =>
    if c = s.var ∨ c = s.value then ([], (c, (split s cs).1) :: (split s cs).2)
    else (c :: (split s cs).1, (split s cs).2)

/-- The pieces of the variables. -/
def pieces (s : Senses) (vars : List (List UInt8 × List UInt8)) : List (UInt8 × List UInt8) :=
  vars.flatMap fun v => [(s.var, v.1), (s.value, v.2)]

def joined (items : List (UInt8 × List UInt8)) : List UInt8 := items.flatMap fun i => i.1 :: i.2

theorem joined_split (s : Senses) (l : List UInt8) : (split s l).1 ++ joined (split s l).2 = l := by
  induction l with
  | nil => rfl
  | cons c l ih =>
    rw [split]
    split
    · simpa [joined] using ih
    · simpa using ih

theorem joined_pieces (s : Senses) (vars : List (List UInt8 × List UInt8)) :
    joined (pieces s vars) = vars.flatMap (variableBytes s) := by
  induction vars with
  | nil => rfl
  | cons v vars ih =>
    have hcons : joined (pieces s (v :: vars)) = joined [(s.var, v.1), (s.value, v.2)] ++ joined (pieces s vars) :=
      List.flatMap_append
    rw [hcons, ih, List.flatMap_cons]
    simp [joined, variableBytes]

/-- Neither VAR nor VALUE. -/
def CodeFree (s : Senses) (l : List UInt8) : Prop := ∀ c ∈ l, c ≠ s.var ∧ c ≠ s.value

theorem split_codeFree {s : Senses} {l : List UInt8} (h : CodeFree s l) (m : List UInt8) :
    split s (l ++ m) = (l ++ (split s m).1, (split s m).2) := by
  induction l with
  | nil => rfl
  | cons c l ih =>
    have hc := h c List.mem_cons_self
    rw [List.cons_append, split, if_neg (by simp [hc.1, hc.2]), ih fun d hd => h d (List.mem_cons_of_mem _ hd)]
    rfl

theorem split_code {s : Senses} {c : UInt8} (h : c = s.var ∨ c = s.value) (m : List UInt8) :
    split s (c :: m) = ([], (c, (split s m).1) :: (split s m).2) := by rw [split, if_pos h]

/-- Variables without codes in them are found again. -/
theorem split_variables {s : Senses} {vars : List (List UInt8 × List UInt8)}
    (h : ∀ v ∈ vars, CodeFree s v.1 ∧ CodeFree s v.2) : split s (vars.flatMap (variableBytes s)) = ([], pieces s vars) := by
  induction vars with
  | nil => rfl
  | cons v vars ih =>
    obtain ⟨h1, h2⟩ := h v List.mem_cons_self
    have hrest := ih fun w hw => h w (List.mem_cons_of_mem _ hw)
    have hbytes : (v :: vars).flatMap (variableBytes s) =
        s.var :: (v.1 ++ (s.value :: (v.2 ++ vars.flatMap (variableBytes s)))) := by simp [variableBytes]
    rw [hbytes, split_code (.inl rfl), split_codeFree h1, split_code (.inr rfl), split_codeFree h2, hrest]
    simp [pieces]

theorem split_length (s : Senses) (l : List UInt8) : (split s l).2.length = l.countP fun c => c = s.var ∨ c = s.value := by
  induction l with
  | nil => rfl
  | cons c l ih =>
    rw [split]
    split
    · next h => simp [h, ih]
    · next h => simp [h, ih]

theorem countP_variables (s : Senses) (vars : List (List UInt8 × List UInt8)) :
    (vars.flatMap (variableBytes s)).countP (fun c => c = s.var ∨ c = s.value) =
      (pieces s vars).length + (vars.map fun v => (v.1 ++ v.2).countP fun c => c = s.var ∨ c = s.value).sum := by
  induction vars with
  | nil => rfl
  | cons v vars ih =>
    have hp : (pieces s (v :: vars)).length = (pieces s vars).length + 2 := by simp [pieces]
    rw [List.flatMap_cons, List.countP_append, ih, hp, List.map_cons, List.sum_cons]
    simp [variableBytes]
    omega

/-- Variables that are found again have no codes in them. -/
theorem codeFree_of_split {s : Senses} {vars : List (List UInt8 × List UInt8)}
    (h : split s (vars.flatMap (variableBytes s)) = ([], pieces s vars)) : ∀ v ∈ vars, CodeFree s v.1 ∧ CodeFree s v.2 := by
  have hlen := split_length s (vars.flatMap (variableBytes s))
  rw [h, countP_variables] at hlen
  have hsum : (vars.map fun v => (v.1 ++ v.2).countP fun c => c = s.var ∨ c = s.value).sum = 0 := by
    simp only at hlen
    omega
  intro v hv
  have hz := List.sum_eq_zero_iff_forall_eq_nat.mp hsum _ (List.mem_map_of_mem hv)
  rw [List.countP_eq_zero] at hz
  have hfree : ∀ c ∈ v.1 ++ v.2, c ≠ s.var ∧ c ≠ s.value := fun c hc => by simpa using hz c hc
  exact ⟨fun c hc => hfree c (List.mem_append_left _ hc), fun c hc => hfree c (List.mem_append_right _ hc)⟩

/-- Where the stream starts. -/
def start : Reader := ⟨.topLevel, 0, [], false⟩

/-! ## What is read against what was meant -/

/-- A token that is read is what was meant; for variables, they are found in it. -/
def Matches (read meant : Token) : Prop :=
  match meant with
  | .environ opt var value vars =>
    ∃ q, read = .subneg opt (TELQUAL_IS :: q) ∧ split ⟨var, value⟩ q = ([], pieces ⟨var, value⟩ vars)
  | meant => read = meant

def stream (t : St) : List UInt8 := t.sent.flatMap (·.bytes)

/-- Writes that are read back as they are meant, from one mode to another. -/
def Reads (bin bin' : Bool) (ws : List Write) : Prop :=
  ∀ r : Reader, r.state = .topLevel → r.bin = bin →
    (scan r (ws.flatMap (·.bytes))).1.state = .topLevel ∧ (scan r (ws.flatMap (·.bytes))).1.bin = bin' ∧
      List.Forall₂ Matches (scan r (ws.flatMap (·.bytes))).2 (ws.flatMap (·.meaning))

theorem reads_nil (bin : Bool) : Reads bin bin [] := fun _ h hb => ⟨h, hb, .nil⟩

theorem Reads.append {b b1 b' : Bool} {as bs : List Write} (ha : Reads b b1 as) (hb : Reads b1 b' bs) : Reads b b' (as ++ bs) := by
  intro r h hr
  obtain ⟨h1, h2, h3⟩ := ha r h hr
  obtain ⟨h4, h5, h6⟩ := hb _ h1 h2
  rw [List.flatMap_append, List.flatMap_append, scan_append]
  exact ⟨h4, h5, List.rel_append h3 h6⟩

/-- One write that is read as its tokens. -/
theorem reads_write {b b' : Bool} {w : Write}
    (h : ∀ r : Reader, r.state = .topLevel → r.bin = b → ∃ r', scan r w.bytes = (r', w.meaning) ∧ r'.state = .topLevel ∧ r'.bin = b')
    (hm : ∀ m ∈ w.meaning, Matches m m) : Reads b b' [w] := by
  intro r hr hb
  obtain ⟨r', h1, h2, h3⟩ := h r hr hb
  rw [List.flatMap_singleton, List.flatMap_singleton, h1]
  exact ⟨h2, h3, List.forall₂_same.mpr hm⟩

theorem reads_optWrite (b : Bool) (cmd : Cmd) (option : UInt8) : Reads b (binAfter b cmd option) [optWrite cmd option] :=
  reads_write (fun r hr hb => ⟨_, scan_opt hr cmd option, rfl, by rw [hb]⟩) (by simp [optWrite, Matches])

theorem reads_sizeWrite (b : Bool) (width height : Int) : Reads b b [sizeWrite width height] := by
  refine reads_write (fun r hr hb => ?_) (by simp [sizeWrite, Matches])
  have h := scan_duplicated (r := ⟨.subnegot, Telopt.NAWS, [], r.bin⟩) rfl (sizeBytes width height)
  refine ⟨⟨.topLevel, Telopt.NAWS, sizeBytes width height, r.bin⟩, ?_, rfl, hb⟩
  rw [sizeWrite, List.append_assoc, scan_subneg hr, h]
  rfl

/-- Negotiation that is not about sending BINARY leaves the mode. -/
theorem reads_control (b : Bool) {ws : List Write} (h : ∀ w ∈ ws, Control w ∧ ∀ m ∈ w.meaning, ¬ About oWeBin m) : Reads b b ws := by
  induction ws with
  | nil => exact reads_nil b
  | cons w ws ih =>
    rw [show w :: ws = [w] ++ ws from rfl]
    refine Reads.append ?_ (ih fun v hv => h v (List.mem_cons_of_mem _ hv))
    obtain ⟨hc, hab⟩ := h w List.mem_cons_self
    rcases hc with ⟨cmd, option, rfl⟩ | ⟨width, height, rfl⟩
    · have hb : binAfter b cmd option = b := by
        have hn := hab _ List.mem_cons_self
        simp only [About, oWeBin, Token.opt.injEq, not_or, not_and] at hn
        unfold binAfter
        split
        · next hx => cases cmd <;> simp_all
        · rfl
      have hr := reads_optWrite b cmd option
      rwa [hb] at hr
    · exact reads_sizeWrite b width height

/-- All that was written is read back, and a token may start. -/
structure Framed (t : St) : Prop where
  top : (scan start (stream t)).1.state = .topLevel
  bin : (scan start (stream t)).1.bin = decide (t.optStates .weBin = .active)
  read : List.Forall₂ Matches (scan start (stream t)).2 (tokens t)
  binary : Binary t

theorem Framed.extend {t t' : St} (h : Framed t) {ws : List Write} (hs : t'.sent = t.sent ++ ws) (hb : Binary t')
    (hr : Reads (decide (t.optStates .weBin = .active)) (decide (t'.optStates .weBin = .active)) ws) : Framed t' := by
  obtain ⟨h1, h2, h3⟩ := hr _ h.top h.bin
  have hstream : stream t' = stream t ++ ws.flatMap (·.bytes) := by rw [stream, hs, List.flatMap_append]; rfl
  have htok : tokens t' = tokens t ++ ws.flatMap (·.meaning) := by rw [tokens, hs, List.flatMap_append]; rfl
  have hscan := scan_append start (stream t) (ws.flatMap (·.bytes))
  rw [← hstream] at hscan
  refine ⟨?_, ?_, ?_, hb⟩
  · rw [hscan]; exact h1
  · rw [hscan]; exact h2
  · rw [hscan, htok]; exact List.rel_append h.read h3

/-- One more write, in the same mode. -/
theorem Framed.skWrite {t : St} (h : Framed t) {meaning : List Token} {bytes : List UInt8}
    (hr : ∀ r : Reader, r.state = .topLevel → r.bin = decide (t.optStates .weBin = .active) →
      ∃ r', scan r bytes = (r', meaning) ∧ r'.state = .topLevel ∧ r'.bin = r.bin)
    (hm : ∀ m ∈ meaning, Matches m m) : Framed (skWrite t meaning bytes) :=
  h.extend rfl h.binary (reads_write (fun r h1 h2 => by
    obtain ⟨r', h3, h4, h5⟩ := hr r h1 h2
    exact ⟨r', h3, h4, h5.trans h2⟩) hm)

/-! ## The writes of the terminal -/

theorem framed_data {t : St} (h : Framed t) {q : List UInt8} (hq : ∀ c ∈ q, iswritable t c = true) :
    Framed (skWrite t (q.map .data) q) := by
  refine h.skWrite (fun r hr hb => ⟨r, scan_data hr fun c hc => ?_, hr, rfl⟩) (by simp [Matches])
  have hw := hq c hc
  simp only [iswritable, Bool.and_eq_true, Bool.or_eq_true, decide_eq_true_eq] at hw
  exact ⟨hw.1, hw.2.imp_left fun ha => by rw [hb]; exact decide_eq_true ha⟩

theorem framed_sendEscaped {t : St} (h : Framed t) {c : UInt8} (hc : iswritable t c = false) : Framed (sendEscaped t c) := by
  refine h.skWrite (fun r hr hb => ⟨r, ?_, hr, rfl⟩) (by simp [Matches])
  by_cases hi : c = IAC
  · rw [if_pos hi, hi]
    exact scan_iac_iac hr
  · rw [if_neg hi]
    have hcr : c = CR ∧ t.optStates .weBin ≠ .active := by
      simp only [iswritable, ne_eq, hi, not_false_eq_true, decide_true, Bool.true_and, Bool.or_eq_false_iff, decide_eq_false_iff_not,
        not_not] at hc
      exact ⟨hc.2, hc.1⟩
    rw [hcr.1]
    exact (scan_cr hr (by rw [hb]; exact decide_eq_false hcr.2)).1

theorem framed_escaped {t : St} (h : Framed t) {p : List UInt8} (hp : ∀ c ∈ p, iswritable t c = false) :
    Framed (p.foldl sendEscaped t) := by
  induction p generalizing t with
  | nil => exact h
  | cons c p ih => exact ih (framed_sendEscaped h (hp c List.mem_cons_self)) fun d hd => hp d (List.mem_cons_of_mem _ hd)

theorem framed_sendLoop {fuel : Nat} {t : St} (h : Framed t) (buf : List UInt8) : Framed (sendLoop fuel t buf) := by
  induction fuel generalizing t buf with
  | zero => exact h
  | succ fuel ih =>
    cases buf with
    | nil => exact h
    | cons c cs =>
      refine ih (framed_escaped (framed_data h fun d hd => ?_) fun d hd => ?_) _
      · exact List.mem_takeWhile_imp hd
      · have hw : iswritable t d = false := by simpa using List.mem_takeWhile_imp hd
        exact hw

theorem tokens_escaped (t : St) (p : List UInt8) : tokens (p.foldl sendEscaped t) = tokens t ++ p.map .data := by
  induction p generalizing t with
  | nil => simp
  | cons c p ih =>
    rw [List.foldl_cons, ih]
    simp [tokens, sendEscaped, Putty.Telnet.skWrite]

/-- The loop of telnet_send takes all its data. -/
theorem tokens_sendLoop {fuel : Nat} {t : St} {buf : List UInt8} (h : buf.length ≤ fuel) :
    tokens (sendLoop fuel t buf) = tokens t ++ buf.map .data := by
  induction fuel generalizing t buf with
  | zero =>
    rw [List.length_eq_zero_iff.mp (Nat.le_zero.mp h)]
    simp [sendLoop]
  | succ fuel ih =>
    cases buf with
    | nil => simp [sendLoop]
    | cons c cs =>
      simp only [sendLoop]
      generalize hq : (c :: cs).takeWhile (iswritable t) = q
      generalize hp : (c :: cs).dropWhile (iswritable t) = p
      have hcat : q ++ p = c :: cs := by rw [← hq, ← hp]; exact List.takeWhile_append_dropWhile
      have hcat' := List.takeWhile_append_dropWhile (p := fun c => !iswritable t c) (l := p)
      have hlen : (p.dropWhile fun c => !iswritable t c).length ≤ fuel := by
        have h1 := congrArg List.length hcat
        have h2 := congrArg List.length hcat'
        simp only [List.length_append, List.length_cons] at h1 h2 h
        -- the first byte goes with one of the two
        by_cases hc : iswritable t c
        · have : q ≠ [] := by rw [← hq, List.takeWhile_cons, if_pos hc]; simp
          have := List.length_pos_iff.mpr this
          omega
        · have hpc : p = c :: cs := by rw [← hp, List.dropWhile_cons, if_neg hc]
          have : (p.takeWhile fun c => !iswritable t c) ≠ [] := by rw [hpc, List.takeWhile_cons, if_pos (by simpa using hc)]; simp
          have := List.length_pos_iff.mpr this
          omega
      rw [ih hlen, tokens_escaped]
      have hdata : tokens (Putty.Telnet.skWrite t (q.map .data) q) = tokens t ++ q.map .data := by
        simp [tokens, Putty.Telnet.skWrite]
      have hmap : (c :: cs).map Token.data = q.map .data ++ ((p.takeWhile fun c => !iswritable t c).map .data ++
          (p.dropWhile fun c => !iswritable t c).map .data) := by rw [← List.map_append, hcat', ← List.map_append, hcat]
      rw [hdata, hmap]
      simp only [List.append_assoc]

theorem framed_telnetSize {t : St} (h : Framed t) (width height : Int) : Framed (telnetSize t width height) := by
  simp only [telnetSize]
  have h' : Framed { t with termWidth := width, termHeight := height } := ⟨h.top, h.bin, h.read, h.binary⟩
  split
  · exact h'
  · exact h'.extend rfl h.binary (reads_sizeWrite _ width height)

theorem scan_command {r : Reader} (h : r.state = .topLevel) {c : UInt8} (hc : c.toNat < 250) :
    scan r [IAC, c] = (r, [.command c]) := by
  have h1 : scanByte r IAC = (r.at .seenIac, []) := by
    rw [scanByte, h]
    simp [scanTop, h]
  have hne : ∀ d : UInt8, 250 ≤ d.toNat → c ≠ d := fun d hd he => by rw [he] at hc; omega
  have h2 : scanByte (r.at .seenIac) c = (r.at .topLevel, [.command c]) := by
    rw [scanByte, at_state]
    simp only [scanIac]
    rw [if_neg (hne _ (by decide)), if_neg (hne _ (by decide)), if_neg (hne _ (by decide)), if_neg (hne _ (by decide)),
      if_neg (hne _ (by decide)), if_neg (hne _ (by decide))]
    rfl
  simp only [scan, h1, h2, List.nil_append, List.append_nil]
  rw [Reader.at, ← h]

theorem framed_sendCommand {t : St} (h : Framed t) {c : UInt8} (hc : c.toNat < 250) : Framed (sendCommand t c) :=
  h.skWrite (fun r hr _ => ⟨r, scan_command hr hc, hr, rfl⟩) (by simp [Matches])

/-- The commands are none of the negotiation. -/
theorem code_lt (code : Special) (c : UInt8) (h : code.code = some c) : c.toNat < 250 := by
  cases code <;> simp only [Special.code, Option.some.injEq, reduceCtorEq] at h <;> subst h <;> decide

theorem framed_telnetSpecial {t : St} (h : Framed t) (code : Special) : Framed (telnetSpecial t code) := by
  unfold telnetSpecial
  split
  · exact h
  · split
    · split
      · next hact =>
        refine h.skWrite (fun r hr hb => ⟨r, scan_data hr ?_, hr, rfl⟩) (by simp [Matches])
        have hbin : r.bin = true := by rw [hb]; exact decide_eq_true hact
        simp [CR, IAC, hbin]
      · next hact =>
        refine h.skWrite (fun r hr hb => ⟨r, (scan_cr hr ?_).2, hr, rfl⟩) (by simp [Matches])
        rw [hb]
        exact decide_eq_false hact
    · -- the two writes of a SYNCH are one token
      have hws : (Putty.Telnet.skWrite (Putty.Telnet.skWrite t [] [IAC]) [.command DM] [DM]).sent =
          t.sent ++ [⟨[], [IAC]⟩, ⟨[.command DM], [DM]⟩] := by simp [Putty.Telnet.skWrite]
      refine h.extend hws h.binary fun r hr hb => ?_
      have hscan : scan r [IAC, DM] = (r, [Token.command DM]) := scan_command hr (by decide)
      change (scan r [IAC, DM]).1.state = .topLevel ∧ (scan r [IAC, DM]).1.bin = _ ∧ List.Forall₂ Matches (scan r [IAC, DM]).2 _
      rw [hscan]
      exact ⟨hr, hb, .cons rfl .nil⟩
    · split
      · exact framed_sendCommand h (by decide)
      · exact h
    · split
      · next c hc => exact framed_sendCommand h (code_lt code c hc)
      · exact h

/-! ## Replies to the server -/

theorem framed_of_speaks {t t' : St} (h : Framed t) (hs : Speaks t t') : Framed t' := by
  obtain ⟨ws, hws, hc⟩ := hs.sent
  refine h.extend hws ?_ ?_
  · unfold Binary
    rw [hs.weBin]
    exact h.binary
  · rw [hs.weBin]
    exact reads_control _ hc

theorem framed_procRecOpt {t : St} (h : Framed t) (cmd : Cmd) (option : UInt8) : Framed (procRecOpt t cmd option) := by
  rcases procRecOpt_speaks h.binary cmd option with hs | ⟨hst, hs⟩ | ⟨hst, hs⟩
  · exact framed_of_speaks h hs
  · refine framed_of_speaks (h.extend rfl (.inr rfl) ?_) hs
    rw [hst]
    exact reads_optWrite _ .WILL Telopt.BINARY
  · refine framed_of_speaks (h.extend rfl (.inl rfl) ?_) hs
    rw [hst]
    exact reads_optWrite _ .WONT Telopt.BINARY

/-- The values that a reply to this subnegotiation gives hold no IAC, and those of
    variables no code 1 either; a C string holds no 0. -/
structure Clean (conf : Conf) (opt : UInt8) (buf : List UInt8) : Prop where
  termspeed : opt = Telopt.TSPEED → buf = [TELQUAL_SEND] → IAC ∉ conf.termspeed.val
  termtype : opt = Telopt.TTYPE → buf = [TELQUAL_SEND] → IAC ∉ conf.termtype.val
  environ : opt = Telopt.OLD_ENVIRON ∨ opt = Telopt.NEW_ENVIRON → buf.head? = some TELQUAL_SEND →
    ∀ v ∈ sentVariables conf, IAC ∉ v.1 ++ v.2 ∧ 1 ∉ v.1 ++ v.2

/-- VAR and VALUE are 0 and 1. -/
theorem senses_cases (conf : Conf) (opt : UInt8) (rest : List UInt8) :
    senses conf opt rest = rfcSenses ∨ senses conf opt rest = bsdSenses := by
  have hguess : ∀ (rest : List UInt8) (s : Senses), s = rfcSenses ∨ s = bsdSenses →
      rest.foldl guess s = rfcSenses ∨ rest.foldl guess s = bsdSenses := by
    intro rest
    induction rest with
    | nil => exact fun s h => h
    | cons p rest ih =>
      intro s h
      refine ih _ ?_
      unfold guess
      split
      · exact .inl rfl
      · split
        · exact .inr rfl
        · exact h
  unfold senses
  split
  · refine hguess rest _ ?_
    split
    · exact .inl rfl
    · exact .inr rfl
  · exact .inl rfl

/-- The strings of the variables are C strings. -/
theorem sentVariables_cstr (conf : Conf) : ∀ v ∈ sentVariables conf, 0 ∉ v.1 ∧ 0 ∉ v.2 := by
  intro v hv
  rcases List.mem_append.mp hv with hv | hv
  · obtain ⟨e, -, rfl⟩ := List.mem_map.mp hv
    exact ⟨e.1.property, e.2.property⟩
  · rw [Option.mem_toList, Option.map_eq_some_iff] at hv
    obtain ⟨u, -, rfl⟩ := hv
    exact ⟨(by decide : 0 ∉ Utils.text "USER"), u.property⟩

theorem codeFree_iff {s : Senses} (hs : s = rfcSenses ∨ s = bsdSenses) {l : List UInt8} (h0 : 0 ∉ l) : CodeFree s l ↔ 1 ∉ l := by
  have hcode : ∀ c, (c ≠ s.var ∧ c ≠ s.value) ↔ (c ≠ 0 ∧ c ≠ 1) := by
    rcases hs with rfl | rfl
    · exact fun c => Iff.rfl
    · exact fun c => and_comm
  constructor
  · intro h hm
    exact ((hcode 1).mp (h 1 hm)).2 rfl
  · intro h c hc
    exact (hcode c).mpr ⟨fun he => h0 (he ▸ hc), fun he => h (he ▸ hc)⟩

/-- A reply is read back just when its payload has no IAC and, for variables, they are found. -/
theorem framed_subneg {t : St} (h : Framed t) {opt : UInt8} {p : List UInt8} {m : Token}
    (hp : IAC ∉ p) (hm : Matches (.subneg opt p) m) : Framed (skWrite t [m] (subnegBytes opt p)) := by
  have hws : (skWrite t [m] (subnegBytes opt p)).sent = t.sent ++ [⟨[m], subnegBytes opt p⟩] := rfl
  refine h.extend hws h.binary fun r hr hb => ?_
  rw [List.flatMap_singleton, List.flatMap_singleton, scan_plain hr hp]
  exact ⟨rfl, hb, .cons hm .nil⟩

/-- When a payload with an IAC or the wrong variables goes out, the stream is not read back as meant. -/
theorem not_read_subneg {t : St} (h : Framed t) {opt : UInt8} {p : List UInt8} {m : Token}
    (hno : ∀ q, Matches (.subneg opt q) m → p.length ≤ q.length)
    (hbad : IAC ∈ p ∨ ¬ Matches (.subneg opt p) m) :
    ¬ List.Forall₂ Matches (scan start (stream (skWrite t [m] (subnegBytes opt p)))).2 (tokens t ++ [m]) := by
  intro hall
  have hstream : stream (skWrite t [m] (subnegBytes opt p)) = stream t ++ subnegBytes opt p := by simp [stream, skWrite]
  rw [hstream, scan_append] at hall
  dsimp only at hall
  have hlen := hall.length_eq
  rw [List.length_append, List.length_append, h.read.length_eq] at hlen
  have htail : List.Forall₂ Matches (scan (scan start (stream t)).1 (subnegBytes opt p)).2 [m] := by
    have hdrop := List.forall₂_drop (tokens t).length hall
    rwa [← h.read.length_eq, List.drop_left, h.read.length_eq, List.drop_left] at hdrop
  have hbytes : subnegBytes opt p = [IAC, SB, opt] ++ (p ++ [IAC, SE]) := by simp [subnegBytes]
  rw [hbytes, scan_subneg h.top] at htail
  by_cases hi : IAC ∈ p
  · rcases scan_iac (r := ⟨.subnegot, opt, [], (scan start (stream t)).1.bin⟩) rfl p with h0 | ⟨q, ms, h1, -, h2⟩
    · rw [h0] at htail
      cases htail
    · rw [h1] at htail
      cases htail with
      | cons hq _ =>
        have := hno q hq
        have := h2 hi
        simp only [List.length_nil] at this
        omega
  · have hread := scan_duplicated (r := ⟨.subnegot, opt, [], (scan start (stream t)).1.bin⟩) rfl p
    rw [duplicated_plain hi] at hread
    rw [hread] at htail
    cases htail with
    | cons hq _ => exact (hbad.resolve_left hi) hq

/-- A subnegotiation whose payload is given: it is read back just when it has no IAC. -/
theorem subneg_read_iff {t : St} (h : Framed t) (opt : UInt8) (p : List UInt8) :
    (IAC ∉ p → Framed (skWrite t [.subneg opt p] (subnegBytes opt p))) ∧
    (IAC ∈ p → ¬ List.Forall₂ Matches (scan start (stream (skWrite t [.subneg opt p] (subnegBytes opt p)))).2
      (tokens t ++ [.subneg opt p])) := by
  refine ⟨fun hp => framed_subneg h hp rfl, fun hp => not_read_subneg h (fun q hq => ?_) (.inl hp)⟩
  have heq : Token.subneg opt q = .subneg opt p := hq
  injection heq with _ heq
  rw [heq]

theorem matches_environ {opt : UInt8} {q : List UInt8} {s : Senses} {vars : List (List UInt8 × List UInt8)} :
    Matches (.subneg opt (TELQUAL_IS :: q)) (.environ opt s.var s.value vars) ↔ split s q = ([], pieces s vars) := by
  constructor
  · rintro ⟨q', heq, hs⟩
    injection heq with _ heq
    injection heq with _ heq
    rw [heq]
    exact hs
  · exact fun hs => ⟨q, rfl, hs⟩

/-- Variables are read back just when no string of theirs has an IAC or a code in it. -/
theorem environ_read_iff {t : St} (h : Framed t) (opt : UInt8) (s : Senses) (vars : List (List UInt8 × List UInt8)) :
    ((∀ v ∈ vars, IAC ∉ v.1 ++ v.2 ∧ CodeFree s v.1 ∧ CodeFree s v.2) → IAC ≠ s.var → IAC ≠ s.value →
      Framed (skWrite t [.environ opt s.var s.value vars] (subnegBytes opt (TELQUAL_IS :: vars.flatMap (variableBytes s))))) ∧
    (¬ (∀ v ∈ vars, IAC ∉ v.1 ++ v.2 ∧ CodeFree s v.1 ∧ CodeFree s v.2) →
      ¬ List.Forall₂ Matches
        (scan start (stream (skWrite t [.environ opt s.var s.value vars] (subnegBytes opt (TELQUAL_IS :: vars.flatMap (variableBytes s)))))).2
        (tokens t ++ [.environ opt s.var s.value vars])) := by
  constructor
  · intro hc hvar hvalue
    refine framed_subneg h ?_ (matches_environ.mpr (split_variables fun v hv => (hc v hv).2))
    rw [List.mem_cons, List.mem_flatMap]
    rintro (h0 | ⟨v, hv, hm⟩)
    · exact absurd h0 (by decide)
    · have hfree := (hc v hv).1
      simp only [List.mem_append, not_or] at hfree
      simp only [variableBytes, List.mem_append, List.mem_singleton] at hm
      rcases hm with ((hm | hm) | hm) | hm
      · exact hvar hm
      · exact hfree.1 hm
      · exact hvalue hm
      · exact hfree.2 hm
  · intro hc
    refine not_read_subneg h (fun q hq => ?_) ?_
    · obtain ⟨q', heq, hs⟩ := hq
      injection heq with _ heq
      have hq' : joined (split s q').2 = q' := by
        have := joined_split s q'
        rwa [show (split s q').1 = [] from congrArg Prod.fst hs, List.nil_append] at this
      rw [show (split s q').2 = pieces s vars from congrArg Prod.snd hs, joined_pieces] at hq'
      rw [heq, ← hq']
    · by_contra hno
      rw [not_or, not_not] at hno
      have hfree := codeFree_of_split (matches_environ.mp hno.2)
      refine hc fun v hv => ⟨fun hm => hno.1 (List.mem_cons_of_mem _ (List.mem_flatMap.mpr ⟨v, hv, ?_⟩)), hfree v hv⟩
      rcases List.mem_append.mp hm with hm | hm <;> simp [variableBytes, hm]

theorem upcase_iac (c : UInt8) : upcase c = IAC ↔ c = IAC := by
  unfold upcase
  split
  · next h =>
    have h1 : c.toNat ≤ 122 := UInt8.le_iff_toNat_le.mp h.2
    have h2 : (c - 32).toNat ≤ 122 := by
      have hle : (32 : UInt8) ≤ c := UInt8.le_trans (by decide : (32 : UInt8) ≤ 97) h.1
      rw [UInt8.toNat_sub_of_le _ _ hle]
      omega
    constructor
    · intro he
      rw [he] at h2
      exact absurd h2 (by decide)
    · intro he
      rw [he] at h1
      exact absurd h1 (by decide)
  · exact Iff.rfl

theorem mem_map_upcase (l : List UInt8) : IAC ∈ l.map upcase ↔ IAC ∈ l := by
  rw [List.mem_map]
  constructor
  · rintro ⟨c, hc, he⟩
    rwa [(upcase_iac c).mp he] at hc
  · exact fun h => ⟨IAC, h, (upcase_iac IAC).mpr rfl⟩

/-- Either what was written is read back, or not as it was meant. -/
def ReadIff (good : Prop) (t t' : St) : Prop :=
  (good → Framed t') ∧
    (¬ good → ∃ ms, tokens t' = tokens t ++ ms ∧ ¬ List.Forall₂ Matches (scan start (stream t')).2 (tokens t ++ ms))

theorem ReadIff.of_framed {good : Prop} {t t' : St} (hg : good) (h : Framed t') : ReadIff good t t' :=
  ⟨fun _ => h, fun hn => absurd hg hn⟩

theorem readIff_subneg {t : St} (h : Framed t) (opt : UInt8) {p : List UInt8} {good : Prop} (hg : good ↔ IAC ∉ p) :
    ReadIff good t (skWrite t [.subneg opt (TELQUAL_IS :: p)] (subnegBytes opt (TELQUAL_IS :: p))) := by
  have hp : IAC ∈ TELQUAL_IS :: p ↔ IAC ∈ p := by
    rw [List.mem_cons]
    exact or_iff_right (by decide)
  obtain ⟨h1, h2⟩ := subneg_read_iff h opt (TELQUAL_IS :: p)
  refine ⟨fun hgood => h1 (mt hp.mp (hg.mp hgood)), fun hn => ⟨[.subneg opt (TELQUAL_IS :: p)], by simp [tokens, skWrite], ?_⟩⟩
  exact h2 (hp.mpr (by by_contra hno; exact hn (hg.mpr hno)))

theorem readIff_environ {t : St} (h : Framed t) (opt : UInt8) {s : Senses} (hs : s = rfcSenses ∨ s = bsdSenses) (conf : Conf) :
    ReadIff (∀ v ∈ sentVariables conf, IAC ∉ v.1 ++ v.2 ∧ 1 ∉ v.1 ++ v.2) t
      (skWrite t [.environ opt s.var s.value (sentVariables conf)]
        (subnegBytes opt (TELQUAL_IS :: (sentVariables conf).flatMap (variableBytes s)))) := by
  have hiff : (∀ v ∈ sentVariables conf, IAC ∉ v.1 ++ v.2 ∧ 1 ∉ v.1 ++ v.2) ↔
      ∀ v ∈ sentVariables conf, IAC ∉ v.1 ++ v.2 ∧ CodeFree s v.1 ∧ CodeFree s v.2 := by
    refine forall₂_congr fun v hv => ?_
    obtain ⟨h1, h2⟩ := sentVariables_cstr conf v hv
    rw [codeFree_iff hs h1, codeFree_iff hs h2, List.mem_append, List.mem_append, not_or (p := 1 ∈ v.1)]
  have hne : IAC ≠ s.var ∧ IAC ≠ s.value := by
    rcases hs with rfl | rfl <;> decide
  obtain ⟨h1, h2⟩ := environ_read_iff h opt s (sentVariables conf)
  refine ⟨fun hg => h1 (hiff.mp hg) hne.1 hne.2, fun hn => ⟨_, ?_, h2 (mt hiff.mpr hn)⟩⟩
  simp [tokens, skWrite]

theorem processSubneg_readIff {t : St} (h : Framed t) : ReadIff (Clean t.conf t.sbOpt t.sbBuf) t (processSubneg t) := by
  have hdiff : Telopt.TSPEED ≠ Telopt.TTYPE ∧ Telopt.OLD_ENVIRON ≠ Telopt.TSPEED ∧ Telopt.NEW_ENVIRON ≠ Telopt.TSPEED ∧
      Telopt.OLD_ENVIRON ≠ Telopt.TTYPE ∧ Telopt.NEW_ENVIRON ≠ Telopt.TTYPE := by decide
  unfold processSubneg
  by_cases hspeed : t.sbOpt = Telopt.TSPEED
  · rw [if_pos hspeed]
    by_cases hb : t.sbBuf = [TELQUAL_SEND]
    · rw [if_pos hb]
      refine readIff_subneg h _ ⟨fun hc => hc.termspeed hspeed hb, fun hc => ⟨fun _ _ => hc, fun ht => ?_, fun he => ?_⟩⟩
      · exact absurd (hspeed.symm.trans ht) hdiff.1
      · rcases he with he | he
        · exact absurd (he.symm.trans hspeed) hdiff.2.1
        · exact absurd (he.symm.trans hspeed) hdiff.2.2.1
    · rw [if_neg hb]
      refine .of_framed ⟨fun _ hb' => absurd hb' hb, fun ht => ?_, fun he => ?_⟩ h
      · exact absurd (hspeed.symm.trans ht) hdiff.1
      · rcases he with he | he
        · exact absurd (he.symm.trans hspeed) hdiff.2.1
        · exact absurd (he.symm.trans hspeed) hdiff.2.2.1
  rw [if_neg hspeed]
  by_cases htype : t.sbOpt = Telopt.TTYPE
  · rw [if_pos htype]
    by_cases hb : t.sbBuf = [TELQUAL_SEND]
    · rw [if_pos hb]
      refine readIff_subneg h _ ⟨fun hc => mt (mem_map_upcase _).mp (hc.termtype htype hb), fun hc => ⟨fun hs => absurd hs hspeed,
        fun _ _ => mt (mem_map_upcase _).mpr hc, fun he => ?_⟩⟩
      rcases he with he | he
      · exact absurd (he.symm.trans htype) hdiff.2.2.2.1
      · exact absurd (he.symm.trans htype) hdiff.2.2.2.2
    · rw [if_neg hb]
      refine .of_framed ⟨fun hs => absurd hs hspeed, fun _ hb' => absurd hb' hb, fun he => ?_⟩ h
      rcases he with he | he
      · exact absurd (he.symm.trans htype) hdiff.2.2.2.1
      · exact absurd (he.symm.trans htype) hdiff.2.2.2.2
  rw [if_neg htype]
  by_cases henv : t.sbOpt = Telopt.OLD_ENVIRON ∨ t.sbOpt = Telopt.NEW_ENVIRON
  · rw [if_pos henv]
    cases hbuf : t.sbBuf with
    | nil => exact .of_framed ⟨fun hs => absurd hs hspeed, fun ht => absurd ht htype, fun _ hb => by simp at hb⟩ h
    | cons p rest =>
      dsimp only
      by_cases hp : p = TELQUAL_SEND
      · rw [if_pos hp]
        have hclean : Clean t.conf t.sbOpt (p :: rest) ↔ ∀ v ∈ sentVariables t.conf, IAC ∉ v.1 ++ v.2 ∧ 1 ∉ v.1 ++ v.2 :=
          ⟨fun hc => hc.environ henv (by rw [hp]; rfl),
            fun hc => ⟨fun hs => absurd hs hspeed, fun ht => absurd ht htype, fun _ _ => hc⟩⟩
        have hread := readIff_environ h t.sbOpt (senses_cases t.conf t.sbOpt rest) t.conf
        exact ⟨fun hc => hread.1 (hclean.mp hc), fun hc => hread.2 (mt hclean.mpr hc)⟩
      · rw [if_neg hp]
        exact .of_framed ⟨fun hs => absurd hs hspeed, fun ht => absurd ht htype, fun _ hb => absurd (Option.some.inj hb) hp⟩ h
  · rw [if_neg henv]
    exact .of_framed ⟨fun hs => absurd hs hspeed, fun ht => absurd ht htype, fun he => absurd he henv⟩ h

/-! ## Sessions -/

/-- What an event is to say. -/
def meant (t : St) : Ev → List Token
  | .send buf => if t.s then buf.map .data else []
  | .size width height =>
    if t.s ∧ t.optStates .naws = .active then [.subneg Telopt.NAWS (sizeBytes width height)] else []
  | .special code =>
    if !t.s then []
    else
      match code with
      | .eol => if t.optStates .weBin = .active then [.data CR] else [.data CR, .data LF]
      | .synch => [.command DM]
      | .ping => if t.optStates .theySga = .active then [.command NOP] else []
      | code => (code.code.map .command).toList
  -- the replies of the negotiation and of process_subneg
  | .receive c => (tokens (readByte t c)).drop (tokens t).length
  | .urgent => []
  | .reconfig _ => []

/-- What a run is to say. -/
def meantBy (t : St) : List Ev → List Token
  | [] => []
  | e :: es => meant t e ++ meantBy (next t e) es

theorem meantBy_snoc (t : St) (es : List Ev) (e : Ev) :
    meantBy t (es ++ [e]) = meantBy t es ++ meant (es.foldl next t) e := by
  induction es generalizing t with
  | nil => simp [meantBy]
  | cons d es ih => rw [List.cons_append, meantBy, ih, meantBy, List.append_assoc]; rfl

/-- The replies that go out hold nothing that would have to be escaped. -/
def Escapable (t : St) : Ev → Prop
  | .receive c => t.state = .subnegIac → c = SE → Clean t.conf t.sbOpt t.sbBuf
  | _ => True

/-- The stream so far is read back as what was meant so far. -/
def ReadBack (t0 : St) (pre : List Ev) (t : St) : Prop :=
  List.Forall₂ Matches (scan start (stream t)).2 (tokens t0 ++ meantBy t0 pre)

theorem framed_congr {t t' : St} (h : Framed t) (hs : t'.sent = t.sent) (ho : t'.optStates = t.optStates) : Framed t' := by
  have hstream : stream t' = stream t := by rw [stream, hs]; rfl
  have htok : tokens t' = tokens t := by rw [tokens, hs]; rfl
  refine ⟨?_, ?_, ?_, ?_⟩
  · rw [hstream]; exact h.top
  · rw [hstream, ho]; exact h.bin
  · rw [hstream, htok]; exact h.read
  · unfold Binary
    rw [ho]
    exact h.binary

theorem readIff_congr {good : Prop} {t t' t1 : St} (h : ReadIff good t t') (hs : t1.sent = t'.sent) (ho : t1.optStates = t'.optStates) :
    ReadIff good t t1 := by
  have hstream : stream t1 = stream t' := by rw [stream, hs]; rfl
  have htok : tokens t1 = tokens t' := by rw [tokens, hs]; rfl
  refine ⟨fun hg => framed_congr (h.1 hg) hs ho, fun hn => ?_⟩
  obtain ⟨ms, h1, h2⟩ := h.2 hn
  exact ⟨ms, htok.trans h1, by rwa [hstream]⟩

theorem readTop_same (t : St) (c : UInt8) : (readTop t c).sent = t.sent ∧ (readTop t c).optStates = t.optStates := by
  unfold readTop
  dsimp only
  split_ifs <;> exact ⟨rfl, rfl⟩

theorem readIac_same (t : St) (c : UInt8) : (readIac t c).sent = t.sent ∧ (readIac t c).optStates = t.optStates := by
  unfold readIac
  split_ifs <;> exact ⟨rfl, rfl⟩

theorem readByte_readIff {t : St} (h : Framed t) (c : UInt8) : ReadIff (Escapable t (.receive c)) t (readByte t c) := by
  have hother : t.state ≠ .subnegIac → ∀ t', Framed t' → ReadIff (Escapable t (.receive c)) t t' := fun hs t' hf =>
    .of_framed (fun hs' => absurd hs' hs) hf
  have hneg : ∀ cmd, Framed (setState (procRecOpt t cmd c) .topLevel) := fun cmd =>
    framed_congr (framed_procRecOpt h cmd c) rfl rfl
  unfold readByte
  cases hs : t.state with
  | topLevel => exact hother (by simp [hs]) _ (framed_congr h (readTop_same t c).1 (readTop_same t c).2)
  | seenCr => exact hother (by simp [hs]) _ (framed_congr h (readTop_same t c).1 (readTop_same t c).2)
  | seenIac => exact hother (by simp [hs]) _ (framed_congr h (readIac_same t c).1 (readIac_same t c).2)
  | seenWill => exact hother (by simp [hs]) _ (hneg .WILL)
  | seenWont => exact hother (by simp [hs]) _ (hneg .WONT)
  | seenDo => exact hother (by simp [hs]) _ (hneg .DO)
  | seenDont => exact hother (by simp [hs]) _ (hneg .DONT)
  | seenSb => exact hother (by simp [hs]) _ (framed_congr h rfl rfl)
  | subnegot =>
    dsimp only
    split
    · exact hother (by simp [hs]) _ (framed_congr h rfl rfl)
    · exact hother (by simp [hs]) _ (framed_congr h rfl rfl)
  | subnegIac =>
    dsimp only
    by_cases hc : c ≠ SE
    · rw [if_pos hc]
      exact .of_framed (fun _ he => absurd he hc) (framed_congr h rfl rfl)
    · rw [if_neg hc]
      have hiff : Escapable t (.receive c) ↔ Clean t.conf t.sbOpt t.sbBuf :=
        ⟨fun he => he hs (not_not.mp hc), fun he _ _ => he⟩
      have hread := processSubneg_readIff h
      exact readIff_congr ⟨fun hg => hread.1 (hiff.mp hg), fun hn => hread.2 (mt hiff.mpr hn)⟩ rfl rfl

theorem processSubneg_extends (t : St) : ∃ ws, (processSubneg t).sent = t.sent ++ ws := by
  have hsame : ∃ ws, t.sent = t.sent ++ ws := ⟨[], (List.append_nil _).symm⟩
  unfold processSubneg
  dsimp only
  split_ifs
  · exact ⟨_, rfl⟩
  · exact hsame
  · exact ⟨_, rfl⟩
  · exact hsame
  · split
    · exact hsame
    · split_ifs
      · exact ⟨_, rfl⟩
      · exact hsame
  · exact hsame

theorem procRecOpt_extends {t : St} (h : Binary t) (cmd : Cmd) (option : UInt8) : ∃ ws, (procRecOpt t cmd option).sent = t.sent ++ ws := by
  rcases procRecOpt_speaks h cmd option with hs | ⟨-, hs⟩ | ⟨-, hs⟩
  · obtain ⟨ws, hws, -⟩ := hs.sent
    exact ⟨ws, hws⟩
  · obtain ⟨ws, hws, -⟩ := hs.sent
    exact ⟨[optWrite .WILL Telopt.BINARY] ++ ws, hws.trans (List.append_assoc _ _ _)⟩
  · obtain ⟨ws, hws, -⟩ := hs.sent
    exact ⟨[optWrite .WONT Telopt.BINARY] ++ ws, hws.trans (List.append_assoc _ _ _)⟩

theorem readByte_extends {t : St} (h : Binary t) (c : UInt8) : ∃ ws, (readByte t c).sent = t.sent ++ ws := by
  have hsame : ∃ ws, t.sent = t.sent ++ ws := ⟨[], (List.append_nil _).symm⟩
  unfold readByte
  cases t.state with
  | topLevel => dsimp only; rw [(readTop_same t c).1]; exact hsame
  | seenCr => dsimp only; rw [(readTop_same t c).1]; exact hsame
  | seenIac => dsimp only; rw [(readIac_same t c).1]; exact hsame
  | seenWill => exact procRecOpt_extends h .WILL c
  | seenWont => exact procRecOpt_extends h .WONT c
  | seenDo => exact procRecOpt_extends h .DO c
  | seenDont => exact procRecOpt_extends h .DONT c
  | seenSb => exact hsame
  | subnegot => dsimp only; split <;> exact hsame
  | subnegIac =>
    dsimp only
    split
    · exact hsame
    · exact processSubneg_extends t

/-- An event says what it is to say. -/
theorem next_meant {t : St} (h : Binary t) (e : Ev) : tokens (next t e) = tokens t ++ meant t e := by
  cases e with
  | send buf =>
    simp only [next, telnetSend, meant]
    by_cases hs : t.s
    · rw [if_pos hs, if_neg (by simp [hs])]
      exact tokens_sendLoop (Nat.le_refl _)
    · rw [if_neg hs, if_pos (by simp [hs]), List.append_nil]
  | size width height =>
    simp only [next, telnetSize, meant]
    by_cases hs : t.s ∧ t.optStates .naws = .active
    · rw [if_pos hs, if_neg (by simp [hs.1, hs.2, oNaws])]
      simp [tokens, skWrite]
    · rw [if_neg hs, if_pos]
      · exact (List.append_nil _).symm
      · by_cases h1 : t.s
        · simp only [h1, Bool.not_true, Bool.false_or]
          exact decide_eq_true fun h2 => hs ⟨h1, h2⟩
        · simp [h1]
  | special code =>
    simp only [next, telnetSpecial, meant]
    split
    · exact (List.append_nil _).symm
    · cases code with
      | eol =>
        dsimp only
        by_cases ha : t.optStates .weBin = .active
        · rw [if_pos ha, if_pos (show t.optStates oWeBin.index = .active from ha)]
          simp [tokens, skWrite]
        · rw [if_neg ha, if_neg (show ¬ t.optStates oWeBin.index = .active from ha)]
          simp [tokens, skWrite]
      | ping =>
        dsimp only
        by_cases ha : t.optStates .theySga = .active
        · rw [if_pos ha, if_pos (show t.optStates oTheySga.index = .active from ha)]
          simp [tokens, skWrite, sendCommand]
        · rw [if_neg ha, if_neg (show ¬ t.optStates oTheySga.index = .active from ha), List.append_nil]
      | synch => simp [tokens, skWrite]
      | other => exact (List.append_nil _).symm
      | ayt | brk | ec | el | ga | nop | abort | ao | ip | susp | eor | eof =>
        simp [Special.code, tokens, skWrite, sendCommand]
  | receive c =>
    obtain ⟨ws, hws⟩ := readByte_extends h c
    have htok : tokens (readByte t c) = tokens t ++ ws.flatMap (·.meaning) := by rw [tokens, hws, List.flatMap_append]; rfl
    rw [meant, next, htok, List.drop_left]
  | urgent => exact (List.append_nil _).symm
  | reconfig conf => exact (List.append_nil _).symm

theorem framed_next {t : St} (h : Framed t) (e : Ev) (he : Escapable t e) : Framed (next t e) := by
  cases e with
  | send buf =>
    simp only [next, telnetSend]
    split
    · exact h
    · exact framed_sendLoop h buf
  | size width height => exact framed_telnetSize h width height
  | special code => exact framed_telnetSpecial h code
  | receive c => exact (readByte_readIff h c).1 he
  | urgent => exact framed_congr h rfl rfl
  | reconfig conf => exact framed_congr h rfl rfl

theorem framed_telnetInit (conf : Conf) (width height : Int) (garbage : OptIndex → OptState) :
    Framed (telnetInit conf width height garbage) := by
  have hna := telnetInit_not_active conf width height garbage .weBin
  have hbin : Binary (telnetInit conf width height garbage) := by
    left
    cases h : conf.passiveTelnet with
    | true => exact (telnetInit_passive h width height garbage).1 _
    | false => exact (telnetInit_active h width height garbage).1 _
  have hbase : Framed { telnetInit conf width height garbage with sent := [] } :=
    ⟨rfl, (decide_eq_false hna).symm, .nil, hbin⟩
  refine hbase.extend (List.nil_append _).symm hbin (reads_control _ ?_)
  cases h : conf.passiveTelnet with
  | true =>
    rw [telnetInit, if_pos h]
    intro w hw
    cases hw
  | false =>
    have hsent : (telnetInit conf width height garbage).sent =
        [optWrite .WILL Telopt.NAWS, optWrite .WILL Telopt.TSPEED, optWrite .WILL Telopt.TTYPE, optWrite .WILL Telopt.NEW_ENVIRON,
          optWrite .DO Telopt.ECHO, optWrite .WILL Telopt.SGA, optWrite .DO Telopt.SGA] := by
      rw [telnetInit, if_neg (by simp [h])]
      rfl
    rw [hsent]
    intro w hw
    simp only [List.mem_cons, List.not_mem_nil, or_false] at hw
    rcases hw with rfl | rfl | rfl | rfl | rfl | rfl | rfl <;>
      exact ⟨.inl ⟨_, _, rfl⟩, by unfold About; decide⟩

/-- A session is read back as it was meant, at every point of it, just when no reply goes
    out that would have to be escaped. -/
theorem session_framed_iff (conf : Conf) (width height : Int) (garbage : OptIndex → OptState) (evs : List Ev) :
    Lib.Always step (ReadBack (telnetInit conf width height garbage)) (telnetInit conf width height garbage) evs ↔
      Lib.Along step Escapable (telnetInit conf width height garbage) evs := by
  generalize ht0 : telnetInit conf width height garbage = t0
  have h0 : Framed t0 := ht0 ▸ framed_telnetInit conf width height garbage
  refine Lib.always_iff_along (I := fun pre t => Framed t ∧ t = pre.foldl next t0 ∧ tokens t = tokens t0 ++ meantBy t0 pre)
    ⟨h0, rfl, (List.append_nil _).symm⟩ ?_ ?_ ?_ evs
  · rintro pre t ⟨hf, -, htok⟩
    rw [ReadBack, ← htok]
    exact hf.read
  · rintro pre t e ⟨hf, rfl, htok⟩ he
    refine ⟨_, rfl, framed_next hf e he, by rw [List.foldl_append]; rfl, ?_⟩
    rw [next_meant hf.binary e, htok, meantBy_snoc, List.append_assoc]
  · rintro pre t e t' ⟨hf, rfl, htok⟩ hno hs hread
    cases hs
    cases e with
    | receive c =>
      obtain ⟨ms, hms, hbad⟩ := (readByte_readIff hf c).2 hno
      have hmeant := next_meant hf.binary (.receive c)
      rw [show next (pre.foldl next t0) (.receive c) = readByte (pre.foldl next t0) c from rfl, hms,
        List.append_cancel_left_eq] at hmeant
      rw [ReadBack, meantBy_snoc, ← List.append_assoc, ← htok, ← hmeant] at hread
      exact hbad hread
    | send buf => exact hno trivial
    | size width height => exact hno trivial
    | special code => exact hno trivial
    | urgent => exact hno trivial
    | reconfig conf => exact hno trivial

/-- A user name of the one byte 255. -/
def badUser : Conf := ⟨true, CStr.empty, CStr.empty, [], false, some ⟨[255], by decide⟩⟩

def askEnviron : List Ev := [IAC, SB, Telopt.NEW_ENVIRON, TELQUAL_SEND, IAC, SE].map Ev.receive

/-- The server asks for the environment, and the reply never ends. -/
theorem iac_in_a_user_name :
    let t0 := telnetInit badUser 80 24 fun _ => .inactive
    stream (askEnviron.foldl next t0) = [255, 250, 39, 0, 0, 85, 83, 69, 82, 1, 255, 255, 240] ∧
      (scan start (stream (askEnviron.foldl next t0))).2 = [] ∧ ¬ ReadBack t0 askEnviron (askEnviron.foldl next t0) := by
  intro t0
  have h : stream (askEnviron.foldl next t0) = [255, 250, 39, 0, 0, 85, 83, 69, 82, 1, 255, 255, 240] ∧
      (scan start (stream (askEnviron.foldl next t0))).2 = [] ∧
      tokens t0 ++ meantBy t0 askEnviron = [.environ 39 0 1 [([85, 83, 69, 82], [255])]] := by decide +kernel
  refine ⟨h.1, h.2.1, fun hr => ?_⟩
  rw [ReadBack, h.2.1, h.2.2] at hr
  cases hr

end Putty.Telnet
