/-
  Putty.Zlib.Window — what a stream reads of the window that was never written.

  Two decompressors that differ only in their windows take the same turns; only a copy
  looks at the window (`turn_twins`). The places up to a distance of the number of bytes
  put out hold these bytes, the others what was there at the start. So two runs from a
  fresh context put out the same unless some distance reaches further back than that, and
  then they do not, if the windows differ in every place.

  Proved:
  - `output_closed_iff`: the answers to a sequence of calls are the same for all initial
    contents of the window if and only if no call reads a distance that reaches back beyond
    the bytes put out before it, but for a call that is refused.
  - `window_leaks`: a stream of five bytes that puts out three bytes of the window.
-/

import Putty.Zlib.Malformed
import Putty.Zlib.Output

namespace Putty.Zlib

variable {c c' : Ctx} {n : Nat} {o o' : List UInt8}

/-! ## Pairs of contexts -/

/-- The contexts differ in their windows and in what the call has put out, not in how much. -/
structure Twins (c c' : Ctx) (o o' : List UInt8) : Prop where
  out : c.outblk = some o
  same : c' = c.withOut c'.window c.winpos (some o')
  length : o.length = o'.length

/-- The last `n` bytes put out are the same. -/
def Near (n : Nat) (c c' : Ctx) : Prop := ∀ d, 0 < d → d ≤ n → d ≤ WINSIZE → windowAt c d = windowAt c' d

/-- The windows differ wherever these are not. -/
def Apart (n : Nat) (c c' : Ctx) : Prop := ∀ d, n < d → d ≤ WINSIZE → windowAt c d ≠ windowAt c' d

theorem Twins.out' (h : Twins c c' o o') : c'.outblk = some o' := by rw [h.same]; rfl

/-! ## Emissions -/

/-- A byte put out is the nearest in the window, and moves the others one place off. -/
theorem emitChar_window (hw : c.winpos < WINSIZE) {r : Ctx} {b : UInt8} (h : emitChar c b = some r) :
    windowAt r 1 = b ∧ ∀ d, 0 < d → d < WINSIZE → windowAt r (d + 1) = windowAt c d := by
  unfold emitChar at h
  rw [if_pos hw] at h
  obtain ⟨o, -, h⟩ := Option.bind_eq_some_iff.mp h
  cases h
  unfold windowAt WINSIZE at *
  dsimp only
  refine ⟨?_, fun d hd hlt => ?_⟩
  · have he : ((((c.winpos + 1) % 32768 : Nat) : Int) - (1 : Nat)) % ((32768 : Nat) : Int) = c.winpos := by omega
    rw [he]
    simp
  · have he : ((((c.winpos + 1) % 32768 : Nat) : Int) - ((d + 1 : Nat) : Int)) % ((32768 : Nat) : Int) =
        ((c.winpos : Int) - d) % ((32768 : Nat) : Int) := by omega
    have hne : ((((c.winpos : Int) - d) % ((32768 : Nat) : Int))).toNat ≠ c.winpos := by omega
    rw [he, Function.update_of_ne hne]

theorem emitChar_twins (h : Twins c c' o o') (hw : c.winpos < WINSIZE) (b b' : UInt8) :
    ∃ r r', emitChar c b = some r ∧ emitChar c' b' = some r' ∧ r.winpos < WINSIZE ∧ Twins r r' (o ++ [b]) (o' ++ [b']) ∧
      (Apart n c c' → Apart (n + 1) r r') ∧ (Near n c c' → b = b' → Near (n + 1) r r') := by
  have hw' : c'.winpos < WINSIZE := by rw [h.same]; exact hw
  obtain ⟨r, hr⟩ : ∃ r, emitChar c b = some r := ⟨_, emitChar_eq h.out hw b⟩
  obtain ⟨r', hr'⟩ : ∃ r', emitChar c' b' = some r' := ⟨_, emitChar_eq h.out' hw' b'⟩
  obtain ⟨h1, h2⟩ := emitChar_window hw hr
  obtain ⟨h1', h2'⟩ := emitChar_window hw' hr'
  rw [emitChar_eq h.out hw] at hr
  rw [emitChar_eq h.out' hw'] at hr'
  refine ⟨r, r', by rw [emitChar_eq h.out hw, hr], by rw [emitChar_eq h.out' hw', hr'], ?_, ⟨?_, ?_, ?_⟩, fun ha d hd hlt => ?_,
    fun hn hb d hd hdn hlt => ?_⟩
  · cases hr
    exact winpos_step _
  · cases hr
    rfl
  · cases hr
    cases hr'
    have hs := h.same
    generalize c'.window = w at *
    subst hs
    rfl
  · simp [h.length]
  · obtain ⟨e, rfl⟩ : ∃ e, d = e + 1 := ⟨d - 1, by omega⟩
    rw [h2 e (by omega) (by omega), h2' e (by omega) (by omega)]
    exact ha e (by omega) (by omega)
  · by_cases hd1 : d = 1
    · rw [hd1, h1, h1', hb]
    · obtain ⟨e, rfl⟩ : ∃ e, d = e + 1 := ⟨d - 1, by omega⟩
      rw [h2 e (by omega) (by omega), h2' e (by omega) (by omega)]
      exact hn e (by omega) (by omega) (by omega)

theorem Twins.setLen (h : Twins c c' o o') (len : Int) : Twins { c with len } { c' with len } o o' := by
  refine ⟨h.out, ?_, h.length⟩
  have hs := h.same
  generalize c'.window = w at *
  subst hs
  rfl

/-- A copy puts out the same from both windows if it stays within the bytes put out, and
    from windows that differ beyond these it does not if it reaches there. -/
theorem copyMatch_twins {dist len : Nat} (h : Twins c c' o o') (hw : c.winpos < WINSIZE) (hd : 0 < dist) (hdw : dist ≤ WINSIZE) :
    ∃ r r' bs bs', copyMatch dist len c = some r ∧ copyMatch dist len c' = some r' ∧ Twins r r' (o ++ bs) (o' ++ bs') ∧
      bs.length = len ∧ bs'.length = len ∧ (Apart n c c' → Apart (n + len) r r') ∧
      (Near n c c' → dist ≤ n → bs = bs' ∧ Near (n + len) r r') ∧ (Apart n c c' → n < dist → 0 < len → bs ≠ bs') := by
  induction len generalizing c c' o o' n with
  | zero =>
    refine ⟨_, _, [], [], rfl, rfl, ?_, rfl, rfl, fun ha => ha, fun hn _ => ⟨rfl, hn⟩, fun _ _ hpos => absurd hpos (by omega)⟩
    rw [List.append_nil, List.append_nil]
    exact h.setLen (-1)
  | succ len ih =>
    have hl : Twins { c with len := (len : Int) } { c' with len := (len : Int) } o o' := h.setLen _
    obtain ⟨r1, r1', he, he', hw1, ht1, hapart, hnear⟩ := emitChar_twins (n := n) hl hw (windowAt c dist) (windowAt c' dist)
    obtain ⟨r, r', bs, bs', hr, hr', ht, hlen, hlen', hapart', hnear', -⟩ := ih (n := n + 1) ht1 hw1
    refine ⟨r, r', windowAt c dist :: bs, windowAt c' dist :: bs', ?_, ?_, ?_, by simp [hlen], by simp [hlen'], fun ha => ?_,
      fun hn hle => ?_, fun ha hlt _ heq => ?_⟩
    · rw [copyMatch, he]
      exact hr
    · rw [copyMatch, he']
      exact hr'
    · simpa using ht
    · have := hapart' (hapart ha)
      rwa [Nat.add_assoc, Nat.add_comm 1] at this
    · have hb : windowAt c dist = windowAt c' dist := hn dist hd hle hdw
      obtain ⟨h1, h2⟩ := hnear' (hnear hn hb) (by omega)
      rw [Nat.add_assoc, Nat.add_comm 1] at h2
      exact ⟨by rw [hb, h1], h2⟩
    · exact ha dist hlt hdw (List.cons.inj heq).1

/-! ## Turns -/

/-- What the turns of twins have in common, `n` bytes having been put out before the call. -/
def TurnTwins (n : Nat) (c c' : Ctx) (o o' : List UInt8) : Turn → Turn → Prop
  | .finished, .finished => flaw n c ≠ some .tooFar
  | .decodeError _, .decodeError _ => flaw n c ≠ some .tooFar
  | .next r, .next r' => ∃ bs bs', Twins r r' (o ++ bs) (o' ++ bs') ∧
      (Apart (n + o.length) c c' → Apart (n + (o ++ bs).length) r r') ∧
      (Near (n + o.length) c c' → flaw n c ≠ some .tooFar → bs = bs' ∧ Near (n + (o ++ bs).length) r r') ∧
      (Apart (n + o.length) c c' → flaw n c = some .tooFar → bs ≠ bs')
  | _, _ => False

theorem symbolFlaw_ne {tab : Option Table} {p : Nat → Prop} [DecidablePred p] {f : Flaw} (hf : f ≠ .tooFar) :
    symbolFlaw c tab (fun code => if p code then some f else none) ≠ some .tooFar := by
  unfold symbolFlaw
  split
  · exact nofun
  · dsimp only
    split
    · exact fun h => hf (Option.some.inj h)
    · exact nofun
  · exact nofun

theorem tooFar_state (h : flaw n c = some .tooFar) : c.state = .gotdistsym := by
  unfold flaw at h
  cases hs : c.state with
  | gotdistsym => rfl
  | treesLenlen =>
    rw [hs] at h
    dsimp only at h
    split at h
    · split at h <;> cases h
    · cases h
  | treesLen =>
    rw [hs] at h
    dsimp only at h
    split at h
    · split at h <;> cases h
    · exact absurd h (symbolFlaw_ne nofun)
  | inblk => rw [hs] at h; exact absurd h (symbolFlaw_ne nofun)
  | gotlen => rw [hs] at h; exact absurd h (symbolFlaw_ne nofun)
  | _ =>
    rw [hs] at h
    dsimp only at h
    first
      | cases h
      | (split at h <;> cases h)

theorem Twins.winpos (h : Twins c c' o o') : c'.winpos = c.winpos := by rw [h.same]; rfl

theorem Twins.base (h : Twins c c' o o') (base : Ctx) :
    Twins (base.withOut c.window c.winpos (some o)) (base.withOut c'.window c'.winpos (some o')) o o' :=
  ⟨rfl, by rw [h.winpos]; rfl, h.length⟩

theorem Near.base {p p' : Option (List UInt8)} (h : Near n c c') (base : Ctx) :
    Near n (base.withOut c.window c.winpos p) (base.withOut c'.window c'.winpos p') := h

theorem Apart.base {p p' : Option (List UInt8)} (h : Apart n c c') (base : Ctx) :
    Apart n (base.withOut c.window c.winpos p) (base.withOut c'.window c'.winpos p') := h

/-- The distances that the stream can encode stay within the window. -/
theorem dist_bounds {i : Nat} {r : Coderecord} (h : distcodes[i]? = some r) : 0 < r.min ∧ r.min + (2 ^ r.extrabits - 1) ≤ WINSIZE := by
  have hall : ∀ r ∈ distcodes, 0 < r.min ∧ r.min + (2 ^ r.extrabits - 1) ≤ WINSIZE := by decide
  exact hall r (List.mem_of_getElem? h)

/-- A distance is read: bits are missing, or a copy of one to 32768 places back. -/
theorem distance_read (n : Nat) (hi : Inv c) (ho : c.outblk = some o) (hs : c.state = .gotdistsym) :
    (gotdistsymAction c = some .finished ∧ flaw n c = none) ∨
      ∃ base dist len, gotdistsymAction c = some (.next base (.copy dist len)) ∧ 0 < dist ∧ dist ≤ WINSIZE ∧ 0 < len ∧
        (flaw n c = some .tooFar ↔ n + o.length < dist) := by
  have hst := hi.state
  rw [StateOk, hs] at hst
  obtain ⟨-, hlen, hsym⟩ := hst
  have hrec : ∀ i < 30, ∃ r, distcodes[i]? = some r ∧ r.extrabits < 16 := by decide
  obtain ⟨r, hr, -⟩ := hrec c.sym hsym
  obtain ⟨hmin, hmax⟩ := dist_bounds hr
  have hlow : c.lowbits r.extrabits < 2 ^ r.extrabits := Nat.mod_lt _ (Nat.two_pow_pos _)
  simp only [gotdistsymAction, flaw, hs, hr, ho, Option.bind_some, Option.getD_some]
  by_cases hn : c.nbits < r.extrabits
  · left
    rw [if_pos hn, if_neg fun hx => by omega]
    exact ⟨rfl, rfl⟩
  · right
    rw [if_neg hn, if_neg (by omega)]
    refine ⟨_, _, _, rfl, by omega, by omega, by omega, ?_⟩
    constructor
    · intro hf
      split at hf
      · rename_i hx
        exact hx.2
      · cases hf
    · intro hlt
      rw [if_pos ⟨by omega, hlt⟩]

/-- A turn that puts out the same bytes for both. -/
theorem quiet_twins (h : Twins c c' o o') (hw : c.winpos < WINSIZE) (hfl : flaw n c ≠ some .tooFar) (base : Ctx) {e : Emission}
    (he : e.isCopy = false) : ∃ r r', e.run (base.withOut c.window c.winpos (some o)) = some r ∧
      e.run (base.withOut c'.window c'.winpos (some o')) = some r' ∧ TurnTwins n c c' o o' (.next r) (.next r') := by
  cases e with
  | copy dist len => cases he
  | nothing =>
    refine ⟨_, _, rfl, rfl, [], [], ?_, fun ha => ?_, fun hn _ => ⟨rfl, ?_⟩, fun _ hf => absurd hf hfl⟩
    · simpa using h.base base
    · rw [List.append_nil]
      exact ha.base base
    · rw [List.append_nil]
      exact hn.base base
  | byte b =>
    obtain ⟨r, r', hr, hr', -, ht, hapart, hnear⟩ := emitChar_twins (n := n + o.length) (h.base base) hw b b
    refine ⟨r, r', hr, hr', [b], [b], ht, fun ha => ?_, fun hn _ => ⟨rfl, ?_⟩, fun _ hf => absurd hf hfl⟩
    · rw [List.length_append, ← Nat.add_assoc]
      exact hapart (ha.base base)
    · rw [List.length_append, ← Nat.add_assoc]
      exact hnear (hn.base base) rfl

theorem turn_twins (n : Nat) (hi : Inv c) (h : Twins c c' o o') :
    ∃ t t', turn c = some t ∧ turn c' = some t' ∧ TurnTwins n c c' o o' t t' := by
  have hc : c = c.withOut c.window c.winpos (some o) := by
    rw [← h.out]
    rfl
  obtain ⟨t, ht, -⟩ := turn_ok hi h.out
  by_cases hs : c.state = .gotdistsym
  · have hact : ∀ w p q, turn (c.withOut w p q) = (gotdistsymAction c).bind (Action.perform w p q) := fun w p q => by
      rw [turn, show (c.withOut w p q).state = .gotdistsym from hs]
      exact gotdistsymTurn_withOut
    have h1 := hact c.window c.winpos (some o)
    rw [← hc] at h1
    have h2 := hact c'.window c'.winpos (some o')
    rw [h.winpos, ← h.same] at h2
    rcases distance_read n hi h.out hs with ⟨ha, hf⟩ | ⟨base, dist, len, ha, hd, hdw, hlen, hf⟩
    · rw [ha] at h1 h2
      exact ⟨.finished, .finished, h1, h2, by rw [TurnTwins, hf]; intro he; cases he⟩
    · rw [ha] at h1 h2
      obtain ⟨r, r', bs, bs', hr, hr', htw, hbl, -, hapart, hnear, hdiff⟩ :=
        copyMatch_twins (n := n + o.length) (h.base base) hi.winpos hd hdw
      rw [h.winpos] at hr'
      refine ⟨.next r, .next r', ?_, ?_, bs, bs', htw, fun hap => ?_, fun hne hok => ?_, fun hap hbad => ?_⟩
      · rw [h1, Option.bind_some, Action.perform, Emission.run, hr]
        rfl
      · rw [h2, Option.bind_some, Action.perform, Emission.run, hr']
        rfl
      · rw [List.length_append, hbl, ← Nat.add_assoc]
        exact hapart (hap.base base)
      · rw [List.length_append, hbl, ← Nat.add_assoc]
        exact hnear (hne.base base) (by by_contra hlt; exact hok (hf.mpr (by omega)))
      · exact hdiff (hap.base base) (hf.mp hbad) hlen
  · have hfl : flaw n c ≠ some .tooFar := fun hf => hs (tooFar_state hf)
    obtain ⟨a, ha, hcopy⟩ := turn_acts c
    have h1 := ha c.window c.winpos (some o)
    rw [← hc] at h1
    have h2 := ha c'.window c'.winpos (some o')
    rw [h.winpos, ← h.same] at h2
    cases a with
    | none => cases ht.symm.trans h1
    | some a =>
      cases a with
      | finished => exact ⟨.finished, .finished, h1, h2, hfl⟩
      | decodeError r => exact ⟨_, _, h1, h2, hfl⟩
      | next base e =>
        obtain ⟨r, r', hr, hr', htw⟩ := quiet_twins (n := n) h hi.winpos hfl base (hcopy hs base e rfl)
        rw [h.winpos] at hr'
        refine ⟨.next r, .next r', ?_, ?_, htw⟩
        · rw [h1, Option.bind_some, Action.perform, hr]
          rfl
        · rw [h2, Option.bind_some, Action.perform, hr']
          rfl

/-! ## Calls -/

theorem refill_window (c : Ctx) (block : List UInt8) :
    (refill c block).1.window = c.window ∧ (refill c block).1.winpos = c.winpos := by
  induction block generalizing c with
  | nil => exact ⟨rfl, rfl⟩
  | cons b block ih =>
    rw [refill]
    split
    · exact ih (c.push b)
    · exact ⟨rfl, rfl⟩

theorem Twins.push (h : Twins c c' o o') (b : UInt8) : Twins (c.push b) (c'.push b) o o' := by
  refine ⟨h.out, ?_, h.length⟩
  have hs := h.same
  generalize c'.window = w at *
  subst hs
  rfl

theorem Twins.nbits (h : Twins c c' o o') : c'.nbits = c.nbits := by rw [h.same]; rfl

theorem refill_twins (h : Twins c c' o o') (block : List UInt8) :
    Twins (refill c block).1 (refill c' block).1 o o' ∧ (refill c' block).2 = (refill c block).2 := by
  induction block generalizing c c' with
  | nil => exact ⟨h, rfl⟩
  | cons b block ih =>
    rw [refill, refill, h.nbits]
    split
    · exact ih (h.push b)
    · exact ⟨h, rfl⟩

theorem Near.refill (h : Near n c c') (block : List UInt8) : Near n (refill c block).1 (refill c' block).1 := fun d h0 h1 h2 => by
  have hr := refill_window c block
  have hr' := refill_window c' block
  unfold windowAt
  rw [hr.1, hr.2, hr'.1, hr'.2]
  exact h d h0 h1 h2

theorem Apart.refill (h : Apart n c c') (block : List UInt8) : Apart n (refill c block).1 (refill c' block).1 := fun d h0 h1 => by
  have hr := refill_window c block
  have hr' := refill_window c' block
  unfold windowAt
  rw [hr.1, hr.2, hr'.1, hr'.2]
  exact h d h0 h1

/-- What twins have put out when the loop that began with `c` has finished. -/
structure Finished (n : Nat) (c c' : Ctx) (o o' : List UInt8) (block : List UInt8) (r r' : Ctx) (bs bs' : List UInt8) : Prop where
  twins : Twins r r' (o ++ bs) (o' ++ bs')
  apart : Apart (n + o.length) c c' → Apart (n + (o ++ bs).length) r r'
  near : Near (n + o.length) c c' → (∀ p, Passes c block p → flaw n p ≠ some .tooFar) →
    bs = bs' ∧ Near (n + (o ++ bs).length) r r'
  differ : Apart (n + o.length) c c' → (∃ p, Passes c block p ∧ flaw n p = some .tooFar) → bs ≠ bs'

theorem Finished.nothing (h : Twins c c' o o') {block : List UInt8}
    (hp : ∀ p, Passes c block p → p = (refill c block).1 ∧ flaw n p ≠ some .tooFar) :
    Finished n c c' o o' block (refill c block).1 (refill c' block).1 [] [] := by
  refine ⟨?_, fun ha => ?_, fun hn _ => ⟨rfl, ?_⟩, fun _ ⟨p, hpass, hf⟩ => absurd hf (hp p hpass).2⟩
  · rw [List.append_nil, List.append_nil]
    exact (refill_twins h block).1
  · rw [List.append_nil]
    exact ha.refill block
  · rw [List.append_nil]
    exact hn.refill block

theorem loop_twins (fuel : Nat) (block : List UInt8) (hb : Buffered c) (h : Twins c c' o o')
    (hf : work c + 24 * block.length < fuel) :
    ∃ r r' ok, loop fuel c block = some (r, ok) ∧ loop fuel c' block = some (r', ok) ∧
      (ok = true → ∃ bs bs', Finished n c c' o o' block r r' bs bs') := by
  induction fuel generalizing c c' o o' block with
  | zero => omega
  | succ fuel ih =>
    rw [loop, loop, h.nbits]
    split
    · rename_i hend
      refine ⟨c, c', true, rfl, rfl, fun _ => ⟨[], [], ?_⟩⟩
      have hfin : Finished n c c' o o' block _ _ [] [] := Finished.nothing h fun p hp => by
        cases hp with
        | here hno => exact absurd hend hno
        | later hno => exact absurd hend hno
      rw [hend.1] at hfin
      rw [hend.1]
      exact hfin
    · rename_i hgo
      obtain ⟨h1, h2, -, h4⟩ := refill_ok block hb
      obtain ⟨htw, hleft⟩ := refill_twins h block
      obtain ⟨t, ht, hok⟩ := turn_ok h1.inv htw.out
      obtain ⟨t1, t', ht1, ht', htt⟩ := turn_twins n h1.inv htw
      cases ht.symm.trans ht1
      simp only [ht, ht', hleft]
      cases t with
      | finished =>
        cases t' with
        | finished =>
          refine ⟨_, _, true, rfl, rfl, fun _ => ⟨[], [], Finished.nothing h fun p hp => ?_⟩⟩
          cases hp with
          | here _ => exact ⟨rfl, htt⟩
          | later _ hl => cases hl.symm.trans ht
        | decodeError r' => cases htt
        | next r' => cases htt
      | decodeError r =>
        cases t' with
        | finished => cases htt
        | decodeError r' => exact ⟨r, r', false, rfl, rfl, fun he => by cases he⟩
        | next r' => cases htt
      | next r =>
        cases t' with
        | finished => cases htt
        | decodeError r' => cases htt
        | next r' =>
          obtain ⟨bs, bs', htw1, hapart, hnear, hdiff⟩ := htt
          have hw := hok.2.1
          obtain ⟨q, q', ok, hl, hl', hfin⟩ := ih (refill c block).2 (h1.next hok) htw1 (by omega)
          refine ⟨q, q', ok, hl, hl', fun htrue => ?_⟩
          obtain ⟨cs, cs', hcs⟩ := hfin htrue
          have hlen : bs.length = bs'.length := by
            have h5 := htw1.length
            have h6 := h.length
            rw [List.length_append, List.length_append] at h5
            omega
          refine ⟨bs ++ cs, bs' ++ cs', ?_, fun ha => ?_, fun hn hno => ?_, fun ha hex heq => ?_⟩
          · rw [← List.append_assoc, ← List.append_assoc]
            exact hcs.twins
          · rw [← List.append_assoc]
            exact hcs.apart (hapart (ha.refill block))
          · obtain ⟨he, hn1⟩ := hnear (hn.refill block) (hno _ (.here hgo))
            obtain ⟨he', hn2⟩ := hcs.near hn1 fun p hp => hno p (.later hgo ht hp)
            rw [← List.append_assoc]
            exact ⟨by rw [he, he'], hn2⟩
          · obtain ⟨heb, hec⟩ := List.append_inj heq hlen
            obtain ⟨p, hp, hf⟩ := hex
            cases hp with
            | here _ => exact hdiff (ha.refill block) hf heb
            | later _ hl1 hp1 =>
              cases hl1.symm.trans ht
              exact hcs.differ (hapart (ha.refill block)) ⟨p, hp1, hf⟩ hec

theorem Idle.window (h : Idle c) (w : Nat → UInt8) : Idle { c with window := w } := by
  have hi := h.buffered.inv
  exact ⟨⟨⟨hi.staticlen, hi.staticdist, hi.curlen, hi.curdist, hi.bits, hi.winpos, hi.state.io _ _ _ _ _⟩, h.buffered.nbits⟩, h.outblk⟩

theorem decompressBlock_fails {block : List UInt8} {r : Ctx} (ho : c.outblk = none)
    (hl : loop (turnBound c block) { c with outblk := some [] } block = some (r, false)) :
    decompressBlock c block = some (r, none) := by
  simp only [decompressBlock, ho, hl, Option.isSome_none, Bool.false_eq_true, if_false]

theorem decompressBlock_gives {block out : List UInt8} {r : Ctx} (ho : c.outblk = none)
    (hl : loop (turnBound c block) { c with outblk := some [] } block = some (r, true)) (hr : r.outblk = some out) :
    decompressBlock c block = some ({ r with outblk := none }, some out) := by
  simp only [decompressBlock, ho, hl, hr, Option.isSome_none, Bool.false_eq_true, if_false, Option.bind_some]

/-- A call on contexts that differ in their windows fails for both, or succeeds for both
    with outputs of one length, the same unless a distance reaches too far. -/
theorem call_twins (n : Nat) (h : Idle c) (w : Nat → UInt8) (block : List UInt8) :
    (∃ r r', decompressBlock c block = some (r, none) ∧ decompressBlock { c with window := w } block = some (r', none)) ∨
      ∃ r w' out out', decompressBlock c block = some (r, some out) ∧
        decompressBlock { c with window := w } block = some ({ r with window := w' }, some out') ∧
        (Apart n c { c with window := w } → Apart (n + out.length) r { r with window := w' }) ∧
        (Near n c { c with window := w } → ¬ Meets n c block .tooFar →
          out = out' ∧ Near (n + out.length) r { r with window := w' }) ∧
        (Apart n c { c with window := w } → Meets n c block .tooFar → out ≠ out') := by
  have htw : Twins { c with outblk := some [] } { c with window := w, outblk := some [] } [] [] := ⟨rfl, rfl, rfl⟩
  have hrank := rank_le c.state
  have hfuel : work { c with outblk := some [] } + 24 * block.length < turnBound c block := by
    simp only [work, turnBound]
    omega
  obtain ⟨r, r', ok, hl, hl', hfin⟩ := loop_twins (n := n) (turnBound c block) block (h.buffered.output (some [])) htw hfuel
  cases ok with
  | false => exact Or.inl ⟨r, r', decompressBlock_fails h.outblk hl, decompressBlock_fails (h.window w).outblk hl'⟩
  | true =>
    obtain ⟨bs, bs', hf⟩ := hfin rfl
    obtain ⟨w', rfl⟩ : ∃ w', r' = r.withOut w' r.winpos (some bs') := ⟨_, hf.twins.same⟩
    right
    refine ⟨{ r with outblk := none }, w', bs, bs', decompressBlock_gives h.outblk hl hf.twins.out,
      decompressBlock_gives (h.window w).outblk hl' rfl, ?_, fun hn hm => ?_, ?_⟩
    · have hap := hf.apart
      rw [List.nil_append] at hap
      exact hap
    · have hne := hf.near hn fun p hp hfl => hm ⟨p, hp, hfl⟩
      rw [List.nil_append] at hne
      exact hne
    · exact hf.differ

/-! ## Sequences of calls -/

/-- The answers to the calls, up to the first that fails: after it a call would fail the
    assertion that there is no output left from before. -/
def feed : Ctx → List (List UInt8) → Option (List (Option (List UInt8)))
  | _, [] => some []
  | ctx, block :: blocks =>
    match decompressBlock ctx block with
    | none => none
    | some (_, none) => some [none]
    | some (ctx, some out) => (feed ctx blocks).map (some out :: ·)

/-- No call reads a distance that reaches back beyond the bytes put out, `n` before the
    first of them, but one that is refused for another flaw. -/
def Closed : Nat → Ctx → List (List UInt8) → Prop
  | _, _, [] => True
  | n, ctx, block :: blocks =>
    (Meets n ctx block .tooFar → ∃ f, Meets n ctx block f ∧ f.checked = true) ∧
      ∀ ctx' out, decompressBlock ctx block = some (ctx', some out) → Closed (n + out.length) ctx' blocks

theorem Closed.call {block : List UInt8} {blocks : List (List UInt8)} {r : Ctx} {out : List UInt8} (h : Closed n c (block :: blocks))
    (hi : Idle c) (hc : decompressBlock c block = some (r, some out)) : ¬ Meets n c block .tooFar := fun hm => by
  obtain ⟨r', hr'⟩ := (fails_iff hi n).mpr (h.1 hm)
  cases hc.symm.trans hr'

/-- No call fails its assertion, or does not come back. -/
theorem feed_total (blocks : List (List UInt8)) (h : Idle c) : ∃ ans, feed c blocks = some ans := by
  induction blocks generalizing c with
  | nil => exact ⟨[], rfl⟩
  | cons block blocks ih =>
    obtain ⟨r, ans, hok, hidle, -⟩ := decompressBlock_ok block h
    cases ans with
    | none => exact ⟨[none], by rw [feed, hok]⟩
    | some out =>
      obtain ⟨ans, hans⟩ := ih (hidle rfl)
      exact ⟨some out :: ans, by simp only [feed, hok, hans, Option.map_some]⟩

theorem feed_same (blocks : List (List UInt8)) (h : Idle c) (w : Nat → UInt8) (hn : Near n c { c with window := w })
    (hc : Closed n c blocks) : feed c blocks = feed { c with window := w } blocks := by
  induction blocks generalizing n c w with
  | nil => rfl
  | cons block blocks ih =>
    rw [feed, feed]
    rcases call_twins n h w block with ⟨r, r', h1, h2⟩ | ⟨r, w', out, out', h1, h2, -, hnear, -⟩
    · rw [h1, h2]
    · obtain ⟨heq, hn'⟩ := hnear hn (hc.call h h1)
      obtain ⟨r1, ans, hok, hidle, -⟩ := decompressBlock_ok block h
      cases h1.symm.trans hok
      rw [h1, h2]
      simp only
      rw [← heq, ih (hidle rfl) w' hn' (hc.2 r out h1)]

theorem feed_differs (blocks : List (List UInt8)) (h : Idle c) (w : Nat → UInt8) (ha : Apart n c { c with window := w })
    (hc : ¬ Closed n c blocks) : feed c blocks ≠ feed { c with window := w } blocks := by
  induction blocks generalizing n c w with
  | nil => exact absurd trivial hc
  | cons block blocks ih =>
    intro heq
    rw [feed, feed] at heq
    rcases call_twins n h w block with ⟨r, r', h1, h2⟩ | ⟨r, w', out, out', h1, h2, hapart, -, hdiff⟩
    · -- a refused call meets a flaw that is looked out for, and nothing follows it
      refine hc ⟨fun _ => (fails_iff h n).mp ⟨r, h1⟩, fun ctx' out hok => ?_⟩
      cases h1.symm.trans hok
    · obtain ⟨r1, ans, hok, hidle, -⟩ := decompressBlock_ok block h
      cases h1.symm.trans hok
      obtain ⟨ans, hans⟩ := feed_total blocks (hidle rfl)
      obtain ⟨ans', hans'⟩ := feed_total blocks ((hidle rfl).window w')
      simp only [h1, h2, hans, hans', Option.map_some] at heq
      obtain ⟨hout, hrest⟩ := List.cons.inj (Option.some.inj heq)
      by_cases hm : Meets n c block .tooFar
      · exact hdiff ha hm (Option.some.inj hout)
      · refine ih (hidle rfl) w' (hapart ha) (fun hcl => hc ⟨fun hm' => absurd hm' hm, fun ctx' out1 hok' => ?_⟩) ?_
        · cases h1.symm.trans hok'
          exact hcl
        · rw [hans, hans', hrest]

/-- The answers that a fresh context gives. -/
def answers (raw : Ctx) (blocks : List (List UInt8)) : Option (List (Option (List UInt8))) :=
  (decompressInit raw).bind (feed · blocks)

def other (b : UInt8) : UInt8 := if b = 0 then 1 else 0

theorem other_ne (b : UInt8) : other b ≠ b := by
  unfold other
  split
  · rename_i h
    rw [h]
    decide
  · rename_i h
    exact fun he => h he.symm

/-- The answers to a sequence of calls are the same for all initial contents of the window
    if and only if no call that succeeds reads a distance that reaches back beyond the
    bytes put out before it. -/
theorem output_closed_iff (raw : Ctx) (blocks : List (List UInt8)) :
    (∀ w w', answers { raw with window := w } blocks = answers { raw with window := w' } blocks) ↔
      ∀ w ctx, decompressInit { raw with window := w } = some ctx → Closed 0 ctx blocks := by
  obtain ⟨a, b, hinit⟩ := decompressInit_total
  have hfeed : ∀ w, answers { raw with window := w } blocks = feed { freshWith raw a b with window := w } blocks := fun w => by
    rw [answers, (hinit _).1]
    rfl
  constructor
  · intro hall w ctx hctx
    cases hctx.symm.trans (hinit _).1
    by_contra hno
    -- a window that differs from `w` everywhere
    have hap : Apart 0 (freshWith { raw with window := w } a b)
        { freshWith { raw with window := w } a b with window := fun i => other (w i) } := fun d _ _ heq => other_ne _ heq.symm
    refine feed_differs blocks (hinit _).2 _ hap hno ?_
    have := hall w fun i => other (w i)
    rw [hfeed, hfeed] at this
    exact this
  · intro hcl w w'
    rw [hfeed, hfeed]
    refine feed_same (n := 0) blocks (hinit { raw with window := w }).2 w' (fun d h1 h2 => ?_) (hcl w _ (hinit _).1)
    exact absurd h1 (Nat.not_lt.mpr h2)

/-- A zlib header, and a block in the static codes: a copy of three bytes from one place
    back, before anything has been put out, and the end of the block. -/
def leakStream : List UInt8 := [0x78, 0x9C, 0x02, 0x02, 0x00]

theorem static_slots :
    ((countLengths staticLengths).bind fun count => assignCodes (0 :: startcodes count.tail 0) staticLengths).map
      (fun codes => (slotAt (staticLengths.zip codes) 0 9 64, slotAt (staticLengths.zip codes) 0 9 0)) =
        some (⟨7, some 257⟩, ⟨7, some 256⟩) ∧
    ((countLengths (List.replicate 32 5)).bind fun count => assignCodes (0 :: startcodes count.tail 0) (List.replicate 32 5)).map
      (fun codes => slotAt ((List.replicate 32 5).zip codes) 0 5 0) = some ⟨5, some 0⟩ := by
  decide +kernel

theorem leak_lookups {raw : Ctx} {a b : Table} (h : decompressInit raw = some (freshWith raw a b)) :
    huflookup MAXCODELEN 64 21 a = some (.found 257 0 14) ∧ huflookup MAXCODELEN 0 9 a = some (.found 256 0 2) ∧
      huflookup MAXCODELEN 0 14 b = some (.found 0 0 9) := by
  have h5 : ∀ l ∈ List.replicate 32 5, l < MAXCODELEN := fun l hl => by
    rw [List.eq_of_mem_replicate hl]
    decide
  have h32 : (List.replicate 32 5).length ≤ MAXSYMS := by
    rw [List.length_replicate]
    decide
  obtain ⟨la, ha, -⟩ := mktable_good staticLengths_lt (Nat.le_of_eq staticLengths_length)
  obtain ⟨lb, hb, -⟩ := mktable_good h5 h32
  rw [decompressInit, ha, hb] at h
  obtain ⟨rfl, rfl⟩ : la = a ∧ lb = b := by
    have hc := Option.some.inj h
    exact ⟨congrArg Ctx.staticlentable hc, congrArg Ctx.staticdisttable hc⟩
  obtain ⟨h1, h2⟩ := static_slots
  obtain ⟨codes, hc, hslots⟩ := Option.map_eq_some_iff.mp h1
  obtain ⟨dcodes, hdc, hdslot⟩ := Option.map_eq_some_iff.mp h2
  obtain ⟨hs1, hs2⟩ := Prod.mk.inj hslots
  have hlen := Nat.le_of_eq staticLengths_length
  have hwidth : (if staticLengths.foldl max 0 < 9 then staticLengths.foldl max 0 else 9) = 9 := by decide +kernel
  have hwidth5 : (if (List.replicate 32 5).foldl max 0 < 9 then (List.replicate 32 5).foldl max 0 else 9) = 5 := by decide +kernel
  have e1 : huflookup MAXCODELEN 64 21 la = some (.found 257 (64 >>> 7) (21 - 7)) :=
    mktable_lookup staticLengths_lt hlen ha hc hwidth hs1 (by decide) (by decide)
  have e2 : huflookup MAXCODELEN 0 9 la = some (.found 256 (0 >>> 7) (9 - 7)) :=
    mktable_lookup staticLengths_lt hlen ha hc hwidth hs2 (by decide) (by decide)
  have e3 : huflookup MAXCODELEN 0 14 lb = some (.found 0 (0 >>> 5) (14 - 5)) :=
    mktable_lookup h5 h32 hb hdc hwidth5 hdslot (by decide) (by decide)
  exact ⟨e1, e2, e3⟩

theorem leak_run {raw : Ctx} {a b : Table} (h : decompressInit raw = some (freshWith raw a b)) :
    (decompressBlock (freshWith raw a b) leakStream).map (·.2) =
      some (some [raw.window 32767, raw.window 32767, raw.window 32767]) := by
  obtain ⟨h1, h2, h3⟩ := leak_lookups h
  simp [freshWith, leakStream, decompressBlock, loop, turnBound, refill, Ctx.push, turn, startTurn, outsideblkTurn, headerOk,
    header, blktype, Ctx.eatbits, Ctx.lowbits, inblkTurn, Ctx.lentable, Ctx.disttable, h1, h2, h3, Ctx.setBits, gotlensymTurn,
    gotlenTurn, gotdistsymTurn, lencodes, distcodes, copyMatch, emitChar, windowAt, WINSIZE, Ctx.freeCurrent]

theorem leak_answers (raw : Ctx) :
    answers raw [leakStream] = some [some [raw.window 32767, raw.window 32767, raw.window 32767]] := by
  obtain ⟨a, b, hinit⟩ := decompressInit_total
  have hinit := (hinit raw).1
  obtain ⟨⟨c, r⟩, hc, hr⟩ := Option.map_eq_some_iff.mp (leak_run hinit)
  dsimp only at hr
  rw [hr] at hc
  rw [answers, hinit, Option.bind_some]
  simp only [feed, hc, Option.map_some]

/-- The stream puts out what the memory of the new context held. -/
theorem window_leaks :
    ¬ ∀ (raw : Ctx) blocks w w', answers { raw with window := w } blocks = answers { raw with window := w' } blocks := by
  intro hall
  have h := hall (zeroed (.mk 0 [])) [leakStream] (fun _ => 0) (fun _ => 1)
  rw [leak_answers, leak_answers] at h
  simp at h

end Putty.Zlib
