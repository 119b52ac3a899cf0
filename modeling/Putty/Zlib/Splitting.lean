/-
  Putty.Zlib.Splitting — a stream may be cut into calls anywhere.

  A turn that has bits enough does the same with more of them behind (`microturn_push`): a
  table lookup because of `mkonetab_more`, every other read because it takes its bits from
  the low end. So a call does the turns that it would do if all its bytes were in the bit
  buffer at once (`loop_steps`), and these do not depend on where a call ends. The turn
  that reads the lengths of the lengths takes as many of them as it has; it is cut up into
  turns that take one.

  Proved: `split_call`: from every context that calls lead to, one call with `a ++ b` gives
  what a call with `a` and then, if that succeeds, one with `b` give, context and output;
  it fails exactly when one of the two fails.
-/

import Putty.Zlib.Malformed
import Putty.Zlib.Output
import Mathlib.Logic.Relation

namespace Putty.Zlib

variable {ctx : Ctx} {x : UInt8}

/-! ## One more byte behind -/

def Turn.push (t : Turn) (x : UInt8) : Turn :=
  match t with
  | .finished => .finished
  | .decodeError ctx => .decodeError (ctx.push x)
  | .next ctx => .next (ctx.push x)

theorem eatbits_push {n : Nat} (hn : n ≤ ctx.nbits) : (ctx.push x).eatbits n = (ctx.eatbits n).push x := by
  have hb : (ctx.bits ||| x.toNat <<< ctx.nbits) >>> n = ctx.bits >>> n ||| x.toNat <<< (ctx.nbits - n) := by
    have he : x.toNat * 2 ^ ctx.nbits = 2 ^ n * (x.toNat * 2 ^ (ctx.nbits - n)) := by
      rw [Nat.mul_left_comm, ← Nat.pow_add, Nat.add_sub_cancel' hn]
    rw [Nat.shiftRight_or_distrib, Nat.shiftLeft_eq, Nat.shiftLeft_eq, he, Nat.shiftRight_eq_div_pow (2 ^ n * _),
      Nat.mul_div_cancel_left _ (Nat.two_pow_pos n)]
  simp only [Ctx.push, Ctx.eatbits, hb, Nat.sub_add_comm hn]

theorem lowbits_push {n : Nat} (hn : n ≤ ctx.nbits) : (ctx.push x).lowbits n = ctx.lowbits n := by
  have hz : (x.toNat <<< ctx.nbits) % 2 ^ n = 0 := by
    rw [Nat.shiftLeft_eq]
    exact Nat.mod_eq_zero_of_dvd (Nat.dvd_trans (Nat.pow_dvd_pow 2 hn) (Nat.dvd_mul_left _ _))
  show (ctx.bits ||| x.toNat <<< ctx.nbits) % 2 ^ n = ctx.bits % 2 ^ n
  rw [Nat.or_mod_two_pow, hz, Nat.or_zero]

theorem push_bits (h : ctx.bits < 2 ^ ctx.nbits) : (ctx.push x).bits = ctx.bits + x.toNat * 2 ^ ctx.nbits := by
  show ctx.bits ||| x.toNat <<< ctx.nbits = _
  rw [Nat.or_comm, ← Nat.shiftLeft_add_eq_or_of_lt h, Nat.shiftLeft_eq, Nat.add_comm]

theorem setBits_push {bits nbits : Nat} (h : bits < 2 ^ nbits) :
    (ctx.push x).setBits (bits + x.toNat * 2 ^ nbits) (nbits + 8) = (ctx.setBits bits nbits).push x := by
  have hb := @push_bits (ctx.setBits bits nbits) x h
  have hb : bits ||| x.toNat <<< nbits = bits + x.toNat * 2 ^ nbits := hb
  simp only [Ctx.push, Ctx.setBits, hb]

theorem emitChar_push {c : UInt8} : emitChar (ctx.push x) c = (emitChar ctx c).map (·.push x) := by
  unfold emitChar
  by_cases hw : ctx.winpos < WINSIZE
  · rw [if_pos hw, if_pos (by exact hw)]
    show ctx.outblk.bind _ = Option.map _ (ctx.outblk.bind _)
    cases ctx.outblk <;> rfl
  · rw [if_neg hw, if_neg (by exact hw)]
    rfl

theorem copyMatch_push {dist n : Nat} : copyMatch dist n (ctx.push x) = (copyMatch dist n ctx).map (·.push x) := by
  induction n generalizing ctx with
  | zero => rfl
  | succ n ih =>
    rw [copyMatch, copyMatch]
    have he : { ctx.push x with len := (n : Int) } = Ctx.push { ctx with len := (n : Int) } x := rfl
    have hw : windowAt (ctx.push x) dist = windowAt ctx dist := rfl
    rw [he, hw, emitChar_push]
    cases emitChar { ctx with len := n } (windowAt ctx dist) with
    | none => rfl
    | some c => exact ih

theorem lenlensRead_push : lenlensRead (ctx.push x) = (lenlensRead ctx).map (·.push x) := by
  unfold lenlensRead
  by_cases hp : ctx.lenptr = ctx.hclen
  · rw [if_pos hp, if_pos (by exact hp)]
    show (mktable ctx.lenlen.toList).bind _ = ((mktable ctx.lenlen.toList).bind _).map _
    cases mktable ctx.lenlen.toList <;> rfl
  · rw [if_neg hp, if_neg (by exact hp)]
    rfl

theorem readLenlen_push (hn : 3 ≤ ctx.nbits) : readLenlen (ctx.push x) = (readLenlen ctx).map (·.push x) := by
  unfold readLenlen
  rw [eatbits_push hn, lowbits_push hn]
  show (lenlenmap[ctx.lenptr]?.bind _) = Option.map _ (lenlenmap[ctx.lenptr]?.bind _)
  cases lenlenmap[ctx.lenptr]? with
  | none => rfl
  | some i =>
    simp only [Option.bind_some]
    by_cases hi : i < 19
    · rw [dif_pos hi, dif_pos hi]
      rfl
    · rw [dif_neg hi, dif_neg hi]
      rfl

theorem buildTables_push : buildTables (ctx.push x) = (buildTables ctx).map (·.push x) := by
  unfold buildTables
  by_cases hb : ctx.hlit + ctx.hdist ≤ 288 + 32
  · rw [if_pos hb, if_pos (by exact hb)]
    show (mktable (ctx.lengths.toList.take ctx.hlit)).bind (fun lentab =>
      (mktable ((ctx.lengths.toList.drop ctx.hlit).take ctx.hdist)).bind _) = Option.map _ (Option.bind _ fun lentab =>
      (mktable ((ctx.lengths.toList.drop ctx.hlit).take ctx.hdist)).bind _)
    cases mktable (ctx.lengths.toList.take ctx.hlit) with
    | none => rfl
    | some lentab => cases mktable ((ctx.lengths.toList.drop ctx.hlit).take ctx.hdist) <;> rfl
  · rw [if_neg hb, if_neg (by exact hb)]
    rfl

theorem setLength_push {len : Nat} : setLength (ctx.push x) len = (setLength ctx len).map (·.push x) := by
  unfold setLength
  by_cases hp : ctx.lenptr < 288 + 32
  · rw [dif_pos hp, dif_pos (by exact hp)]
    rfl
  · rw [dif_neg hp, dif_neg (by exact hp)]
    rfl

theorem repeatLength_push {rep : Nat} : repeatLength rep (ctx.push x) = (repeatLength rep ctx).map (·.push x) := by
  induction rep generalizing ctx with
  | zero => rfl
  | succ rep ih =>
    rw [repeatLength, repeatLength]
    by_cases hp : ctx.lenptr < ctx.hlit + ctx.hdist
    · rw [if_pos hp, if_pos (by exact hp)]
      show (setLength (ctx.push x) ctx.lenrep).bind _ = _
      rw [setLength_push]
      cases setLength ctx ctx.lenrep with
      | none => rfl
      | some c => exact ih
    · rw [if_neg hp, if_neg (by exact hp)]
      rfl

/-- What a turn comes to that had bits enough, with one more byte behind them. -/
def Pushes (turn : Ctx → Option Turn) (ctx : Ctx) (x : UInt8) : Prop :=
  ∀ t, turn ctx = some t → t ≠ .finished → turn (ctx.push x) = some (t.push x)

theorem startTurn_push (hne : startTurn ctx ≠ .finished) : startTurn (ctx.push x) = (startTurn ctx).push x := by
  unfold startTurn at hne ⊢
  split at hne
  · exact absurd rfl hne
  · rename_i hn
    have hh : header (ctx.push x) = header ctx := by
      have h8 := @lowbits_push ctx x 8 (by omega)
      have h16 := @lowbits_push (ctx.eatbits 8) x 8 (show 8 ≤ ctx.nbits - 8 by omega)
      rw [← eatbits_push (by omega)] at h16
      simp only [Ctx.lowbits, Ctx.eatbits, Nat.shiftRight_eq_div_pow] at h8 h16
      simp only [header, h8, h16]
    have hn' : ¬ (ctx.push x).nbits < 16 := by
      simp only [Ctx.push]
      omega
    rw [hh, eatbits_push (by omega), if_neg hn']
    simp only [if_neg hn]
    split <;> rfl

theorem outsideblkTurn_push (hne : outsideblkTurn ctx ≠ .finished) : outsideblkTurn (ctx.push x) = (outsideblkTurn ctx).push x := by
  unfold outsideblkTurn at hne ⊢
  split at hne
  · exact absurd rfl hne
  · rename_i hn
    have hb : blktype (ctx.push x) = blktype ctx := by
      unfold blktype
      rw [eatbits_push (by omega), lowbits_push (show 2 ≤ ctx.nbits - 1 by omega)]
    have hn' : ¬ (ctx.push x).nbits < 3 := by
      simp only [Ctx.push]
      omega
    have hal : (((ctx.eatbits 1).eatbits 2).push x).nbits % 8 = ((ctx.eatbits 1).eatbits 2).nbits % 8 := by
      simp only [Ctx.push]
      omega
    rw [hb, eatbits_push (by omega), eatbits_push (show 2 ≤ ctx.nbits - 1 by omega), if_neg hn']
    simp only [if_neg hn, hal]
    rw [eatbits_push (Nat.mod_le _ _)]
    split <;> rfl

theorem treesHdrTurn_push (hne : treesHdrTurn ctx ≠ .finished) : treesHdrTurn (ctx.push x) = (treesHdrTurn ctx).push x := by
  unfold treesHdrTurn at hne ⊢
  split at hne
  · exact absurd rfl hne
  · rename_i hn
    have hn' : ¬ (ctx.push x).nbits < 5 + 5 + 4 := by
      simp only [Ctx.push]
      omega
    simp only [if_neg hn, if_neg hn']
    rw [eatbits_push (by omega), lowbits_push (by omega), eatbits_push (show 5 ≤ ctx.nbits - 5 by omega),
      lowbits_push (show 5 ≤ ctx.nbits - 5 by omega), eatbits_push (show 4 ≤ ctx.nbits - 5 - 5 by omega),
      lowbits_push (show 4 ≤ ctx.nbits - 5 - 5 by omega)]
    rfl

theorem lenlenTurn_push : Pushes (lenlenTurn 1) ctx x := by
  intro t ht hne
  unfold lenlenTurn at ht ⊢
  split at ht
  · cases ht
    exact absurd rfl hne
  · rename_i hn
    have hn' : ¬ (ctx.push x).nbits < 3 := by
      simp only [Ctx.push]
      omega
    have hone : ∀ c, readLenlens 1 c = if c.nbits < 3 then some c else (readLenlen c).bind some := fun c => by
      rw [readLenlens]
      rfl
    rw [hone, if_neg hn, Option.bind_fun_some] at ht
    rw [if_neg hn', hone, if_neg hn', Option.bind_fun_some, readLenlen_push (by omega)]
    cases hr : readLenlen ctx with
    | none => rw [hr] at ht; cases ht
    | some c =>
      rw [hr] at ht
      simp only [Option.bind_some, Option.map_some, lenlensRead_push] at ht ⊢
      cases hl : lenlensRead c with
      | none => rw [hl] at ht; cases ht
      | some c' => rw [hl] at ht; cases ht; rfl

theorem lookup_push {tab : Table} {r : Lookup} (hg : tab.Good MAXSYMS) (hb : ctx.bits < 2 ^ ctx.nbits)
    (hr : huflookup MAXCODELEN ctx.bits ctx.nbits tab = some r) (hne : r ≠ .short) :
    huflookup MAXCODELEN (ctx.push x).bits (ctx.push x).nbits tab = some (r.more x.toNat 8) ∧
      ∀ code bits nbits, r = .found code bits nbits →
        (ctx.push x).setBits (bits + x.toNat * 2 ^ nbits) (nbits + 8) = (ctx.setBits bits nbits).push x := by
  obtain ⟨r', hr', hs, hmore⟩ := hg ctx.bits ctx.nbits hb
  cases hr.symm.trans hr'
  refine ⟨by rw [push_bits hb]; exact hmore hne _ _, ?_⟩
  rintro code bits nbits rfl
  obtain ⟨-, l, -, hl, rfl, rfl⟩ := hs
  exact setBits_push (shiftRight_lt hb hl)

theorem treesLenTurn_push (h : Inv ctx) (hs : ctx.state = .treesLen) : Pushes treesLenTurn ctx x := by
  have hst := h.state
  rw [StateOk, hs] at hst
  obtain ⟨tab, htab, hgood⟩ := hst.table
  intro t ht hne
  unfold treesLenTurn at ht ⊢
  by_cases hp : ctx.hlit + ctx.hdist ≤ ctx.lenptr
  · rw [if_pos hp] at ht
    rw [if_pos (by exact hp), buildTables_push]
    cases hb : buildTables ctx with
    | none => rw [hb] at ht; cases ht
    | some c => rw [hb] at ht; cases ht; rfl
  · rw [if_neg hp, htab] at ht
    rw [if_neg (by exact hp), show (ctx.push x).lenlentable = some tab from htab]
    simp only [Option.bind_eq_bind, Option.bind_some] at ht ⊢
    obtain ⟨r, hr, ht⟩ := Option.bind_eq_some_iff.mp ht
    have hns : r ≠ .short := by
      rintro rfl
      cases ht
      exact hne rfl
    obtain ⟨hr', hset⟩ := lookup_push (x := x) hgood h.bits hr hns
    rw [hr', Option.bind_some]
    cases r with
    | short => exact absurd rfl hns
    | missing => cases ht; rfl
    | found code bits nbits =>
      simp only [Lookup.more, hset code bits nbits rfl]
      dsimp only at ht
      by_cases hc : code < 16
      · rw [if_pos hc] at ht ⊢
        rw [setLength_push]
        cases hl : setLength (ctx.setBits bits nbits) code with
        | none => rw [hl] at ht; cases ht
        | some c => rw [hl] at ht; cases ht; rfl
      · rw [if_neg hc] at ht ⊢
        obtain ⟨rep, hrep, ht⟩ := Option.bind_eq_some_iff.mp ht
        cases ht
        rw [show repeated ((ctx.setBits bits nbits).push x) code = some rep from hrep]
        rfl

theorem treesLenrepTurn_push : Pushes treesLenrepTurn ctx x := by
  intro t ht hne
  unfold treesLenrepTurn at ht ⊢
  split at ht
  · cases ht
    exact absurd rfl hne
  · rename_i hn
    have hn' : ¬ (ctx.push x).nbits < (ctx.push x).lenextrabits := by
      simp only [Ctx.push]
      omega
    rw [if_neg hn']
    dsimp only at ht ⊢
    rw [show (ctx.push x).lenextrabits = ctx.lenextrabits from rfl, show (ctx.push x).lenaddon = ctx.lenaddon from rfl,
      lowbits_push (by omega), eatbits_push (by omega), repeatLength_push]
    obtain ⟨c, hc, ht⟩ := Option.bind_eq_some_iff.mp ht
    cases ht
    rw [hc]
    rfl

theorem inblkTurn_push (h : Inv ctx) : Pushes inblkTurn ctx x := by
  intro t ht hne
  unfold inblkTurn at ht ⊢
  obtain ⟨tab, htab, ht⟩ := Option.bind_eq_some_iff.mp ht
  obtain ⟨r, hr, ht⟩ := Option.bind_eq_some_iff.mp ht
  have hns : r ≠ .short := by
    rintro rfl
    cases ht
    exact hne rfl
  obtain ⟨hr', hset⟩ := lookup_push (x := x) (h.lentable htab) h.bits hr hns
  rw [show (ctx.push x).lentable = some tab from htab]
  simp only [Option.bind_eq_bind, Option.bind_some, hr']
  cases r with
  | short => exact absurd rfl hns
  | missing => cases ht; rfl
  | found code bits nbits =>
    simp only [Lookup.more, hset code bits nbits rfl]
    dsimp only at ht
    by_cases h1 : code < 256
    · rw [if_pos h1] at ht ⊢
      rw [emitChar_push]
      cases he : emitChar (ctx.setBits bits nbits) (UInt8.ofNat code) with
      | none => rw [he] at ht; cases ht
      | some c => rw [he] at ht; cases ht; rfl
    · rw [if_neg h1] at ht ⊢
      by_cases h2 : code = 256
      · rw [if_pos h2] at ht ⊢
        cases ht
        rfl
      · rw [if_neg h2] at ht ⊢
        by_cases h3 : code < 286
        · rw [if_pos h3] at ht ⊢
          cases ht
          rfl
        · rw [if_neg h3] at ht ⊢
          cases ht
          rfl

theorem gotlensymTurn_push : Pushes gotlensymTurn ctx x := by
  intro t ht hne
  unfold gotlensymTurn at ht ⊢
  by_cases hs : 257 ≤ ctx.sym
  · rw [if_pos hs] at ht
    rw [if_pos (by exact hs)]
    obtain ⟨r, hr, ht⟩ := Option.bind_eq_some_iff.mp ht
    rw [show lencodes[(ctx.push x).sym - 257]? = some r from hr]
    simp only [Option.bind_eq_bind, Option.bind_some] at ht ⊢
    split at ht
    · cases ht
      exact absurd rfl hne
    · rename_i hn
      have hn' : ¬ (ctx.push x).nbits < r.extrabits := by
        simp only [Ctx.push]
        omega
      rw [if_neg hn', eatbits_push (by omega), lowbits_push (by omega)]
      cases ht
      rfl
  · rw [if_neg hs] at ht
    cases ht

theorem gotlenTurn_push (h : Inv ctx) : Pushes gotlenTurn ctx x := by
  intro t ht hne
  unfold gotlenTurn at ht ⊢
  obtain ⟨tab, htab, ht⟩ := Option.bind_eq_some_iff.mp ht
  obtain ⟨r, hr, ht⟩ := Option.bind_eq_some_iff.mp ht
  have hns : r ≠ .short := by
    rintro rfl
    cases ht
    exact hne rfl
  obtain ⟨hr', hset⟩ := lookup_push (x := x) (h.disttable htab) h.bits hr hns
  rw [show (ctx.push x).disttable = some tab from htab]
  simp only [Option.bind_eq_bind, Option.bind_some, hr']
  cases r with
  | short => exact absurd rfl hns
  | missing => cases ht; rfl
  | found code bits nbits =>
    simp only [Lookup.more, hset code bits nbits rfl]
    dsimp only at ht
    split at ht
    · rename_i h30
      rw [if_pos h30]
      cases ht
      rfl
    · rename_i h30
      rw [if_neg h30]
      cases ht
      rfl

theorem gotdistsymTurn_push : Pushes gotdistsymTurn ctx x := by
  intro t ht hne
  unfold gotdistsymTurn at ht ⊢
  obtain ⟨r, hr, ht⟩ := Option.bind_eq_some_iff.mp ht
  rw [show distcodes[(ctx.push x).sym]? = some r from hr]
  simp only [Option.bind_eq_bind, Option.bind_some] at ht ⊢
  split at ht
  · cases ht
    exact absurd rfl hne
  · rename_i hn
    have hn' : ¬ (ctx.push x).nbits < r.extrabits := by
      simp only [Ctx.push]
      omega
    rw [if_neg hn']
    split at ht
    · cases ht
    · rename_i hl
      rw [if_neg (by exact hl)]
      obtain ⟨c, hc, ht⟩ := Option.bind_eq_some_iff.mp ht
      rw [eatbits_push (by omega), lowbits_push (by omega)]
      have he : { (ctx.eatbits r.extrabits).push x with state := .inblk } =
        Ctx.push { ctx.eatbits r.extrabits with state := .inblk } x := rfl
      rw [he, copyMatch_push, show (ctx.push x).len = ctx.len from rfl, hc]
      cases ht
      rfl

theorem uncompLenTurn_push (hne : uncompLenTurn ctx ≠ .finished) : uncompLenTurn (ctx.push x) = (uncompLenTurn ctx).push x := by
  unfold uncompLenTurn at hne ⊢
  split at hne
  · exact absurd rfl hne
  · rename_i hn
    have hn' : ¬ (ctx.push x).nbits < 16 := by
      simp only [Ctx.push]
      omega
    rw [if_neg hn', eatbits_push (by omega), lowbits_push (by omega)]
    simp only [if_neg hn]
    rfl

theorem uncompNlenTurn_push (hne : uncompNlenTurn ctx ≠ .finished) : uncompNlenTurn (ctx.push x) = (uncompNlenTurn ctx).push x := by
  unfold uncompNlenTurn at hne ⊢
  split at hne
  · exact absurd rfl hne
  · rename_i hn
    have hn' : ¬ (ctx.push x).nbits < 16 := by
      simp only [Ctx.push]
      omega
    rw [if_neg hn', eatbits_push (by omega), lowbits_push (by omega), show (ctx.push x).uncomplen = ctx.uncomplen from rfl]
    simp only [if_neg hn]
    split
    · rfl
    · split <;> rfl

theorem uncompDataTurn_push : Pushes uncompDataTurn ctx x := by
  intro t ht hne
  unfold uncompDataTurn at ht ⊢
  split at ht
  · cases ht
    exact absurd rfl hne
  · rename_i hn
    have hn' : ¬ (ctx.push x).nbits < 8 := by
      simp only [Ctx.push]
      omega
    rw [if_neg hn', lowbits_push (by omega), emitChar_push]
    obtain ⟨c, hc, ht⟩ := Option.bind_eq_some_iff.mp ht
    have hcn : 8 ≤ c.nbits := by
      unfold emitChar at hc
      split at hc
      · obtain ⟨o, -, hc⟩ := Option.bind_eq_some_iff.mp hc
        cases hc
        exact show 8 ≤ ctx.nbits by omega
      · cases hc
    rw [hc]
    simp only [Option.map_some, Option.bind_eq_bind, Option.bind_some]
    rw [eatbits_push hcn, show (c.push x).uncomplen = c.uncomplen from rfl]
    cases ht
    dsimp only
    split <;> rfl

/-! ## Small turns -/

/-- A turn that reads one length of the lengths at most. -/
def microturn : Ctx → Option Turn := turnOf fun _ => 1

theorem turnOf_of_ne (left : Ctx → Nat) (hs : ctx.state ≠ .treesLenlen) : turnOf left ctx = turn ctx := if_neg hs

theorem microturn_push (h : Inv ctx) (x : UInt8) : Pushes microturn ctx x := by
  intro t ht hne
  unfold microturn turnOf at ht ⊢
  rw [show (ctx.push x).state = ctx.state from rfl]
  split at ht
  · rename_i hs
    rw [if_pos hs]
    exact lenlenTurn_push t ht hne
  · rename_i hs
    rw [if_neg hs]
    unfold turn at ht ⊢
    rw [show (ctx.push x).state = ctx.state from rfl]
    cases hst : ctx.state with
    | start =>
      rw [hst] at ht
      cases ht
      exact congrArg some (startTurn_push hne)
    | outsideblk =>
      rw [hst] at ht
      cases ht
      exact congrArg some (outsideblkTurn_push hne)
    | treesHdr =>
      rw [hst] at ht
      cases ht
      exact congrArg some (treesHdrTurn_push hne)
    | treesLenlen => exact absurd hst hs
    | treesLen => rw [hst] at ht; exact treesLenTurn_push h hst t ht hne
    | treesLenrep => rw [hst] at ht; exact treesLenrepTurn_push t ht hne
    | inblk => rw [hst] at ht; exact inblkTurn_push h t ht hne
    | gotlensym => rw [hst] at ht; exact gotlensymTurn_push t ht hne
    | gotlen => rw [hst] at ht; exact gotlenTurn_push h t ht hne
    | gotdistsym => rw [hst] at ht; exact gotdistsymTurn_push t ht hne
    | uncompLen =>
      rw [hst] at ht
      cases ht
      exact congrArg some (uncompLenTurn_push hne)
    | uncompNlen =>
      rw [hst] at ht
      cases ht
      exact congrArg some (uncompNlenTurn_push hne)
    | uncompData => rw [hst] at ht; exact uncompDataTurn_push t ht hne

/-- A context that the loop can be in. -/
structure Live (ctx : Ctx) : Prop where
  inv : Inv ctx
  out : ∃ o, ctx.outblk = some o

theorem microturn_ok (h : Live ctx) : ∃ t, microturn ctx = some t ∧ ∀ c, t = .next c → Live c := by
  obtain ⟨o, ho⟩ := h.out
  have hnext : ∀ t, TurnOk ctx t → ∀ c, t = .next c → Live c := by
    rintro t hok c rfl
    obtain ⟨h1, -, o', more, -, h2⟩ := hok
    exact ⟨h1, _, h2⟩
  unfold microturn turnOf
  split
  · rename_i hs
    have hst := h.inv.state
    rw [StateOk, hs] at hst
    obtain ⟨-, -, hlt, -⟩ := hst
    obtain ⟨t, ht, hok⟩ := lenlenTurn_ok h.inv ho hs Nat.one_pos (show 1 ≤ ctx.hclen - ctx.lenptr by omega)
    exact ⟨t, ht, hnext t hok⟩
  · obtain ⟨t, ht, hok⟩ := turn_ok h.inv ho
    exact ⟨t, ht, hnext t hok⟩

def Step (c c' : Ctx) : Prop := c.nbits ≠ 0 ∧ microturn c = some (.next c')

abbrev Steps : Ctx → Ctx → Prop := Relation.ReflTransGen Step

/-- No bits are left, or not enough. -/
def Settled (c : Ctx) : Prop := c.nbits = 0 ∨ microturn c = some .finished

def Fails (c : Ctx) : Prop := c.nbits ≠ 0 ∧ ∃ c', microturn c = some (.decodeError c')

theorem Live.step {c c' : Ctx} (h : Live c) (hs : Step c c') : Live c' := by
  obtain ⟨t, ht, hnext⟩ := microturn_ok h
  cases ht.symm.trans hs.2
  exact hnext c' rfl

theorem Live.steps {c c' : Ctx} (h : Live c) (hs : Steps c c') : Live c' := by
  induction hs with
  | refl => exact h
  | tail _ hs ih => exact ih.step hs

theorem Settled.no_step {c c' : Ctx} (h : Settled c) : ¬ Step c c' := by
  rintro ⟨hn, ht⟩
  rcases h with h | h
  · exact hn h
  · cases h.symm.trans ht

theorem Fails.no_step {c c' : Ctx} (h : Fails c) : ¬ Step c c' := by
  rintro ⟨-, ht⟩
  obtain ⟨-, c1, h⟩ := h
  cases h.symm.trans ht

theorem Settled.not_fails {c : Ctx} (h : Settled c) : ¬ Fails c := by
  rintro ⟨hn, c', ht⟩
  rcases h with h | h
  · exact hn h
  · cases h.symm.trans ht

/-- A run of small turns ends in one place. -/
theorem steps_unique {c c1 c2 : Ctx} (h1 : Steps c c1) (h2 : Steps c c2) (hs1 : ∀ c', ¬ Step c1 c') (hs2 : ∀ c', ¬ Step c2 c') :
    c1 = c2 := by
  have hfun : Relator.RightUnique Step := by
    rintro a b b' ⟨-, hb⟩ ⟨-, hb'⟩
    cases hb.symm.trans hb'
    rfl
  rcases Relation.ReflTransGen.total_of_right_unique hfun h1 h2 with h | h
  · rcases Relation.ReflTransGen.cases_head h with he | ⟨c', hs, -⟩
    · exact he
    · exact absurd hs (hs1 c')
  · rcases Relation.ReflTransGen.cases_head h with he | ⟨c', hs, -⟩
    · exact he.symm
    · exact absurd hs (hs2 c')

/-! ## All the bytes at once -/

/-- The bit buffer with all of `block` behind what it holds. -/
def full (ctx : Ctx) (block : List UInt8) : Ctx := block.foldl Ctx.push ctx

theorem full_refill (ctx : Ctx) (block : List UInt8) : full (refill ctx block).1 (refill ctx block).2 = full ctx block := by
  induction block generalizing ctx with
  | nil => rfl
  | cons c block ih =>
    rw [refill]
    split
    · exact ih (ctx.push c)
    · rfl

theorem full_append (ctx : Ctx) (a b : List UInt8) : full ctx (a ++ b) = full (full ctx a) b := List.foldl_append

theorem Live.push (h : Live ctx) (x : UInt8) : Live (ctx.push x) := ⟨h.inv.push x, h.out⟩

theorem Step.push {c c' : Ctx} (h : Live c) (hs : Step c c') (x : UInt8) : Step (c.push x) (c'.push x) :=
  ⟨fun hz => absurd hz (Nat.succ_ne_zero _), microturn_push h.inv x _ hs.2 nofun⟩

theorem Steps.push {c c' : Ctx} (h : Live c) (hs : Steps c c') (x : UInt8) : Steps (c.push x) (c'.push x) := by
  induction hs with
  | refl => exact .refl
  | tail hs' hs ih => exact ih.tail (hs.push (h.steps hs') x)

theorem Fails.push {c : Ctx} (h : Live c) (hf : Fails c) (x : UInt8) : Fails (c.push x) := by
  obtain ⟨hn, c', ht⟩ := hf
  exact ⟨fun hz => absurd hz (Nat.succ_ne_zero _), c'.push x, microturn_push h.inv x _ ht nofun⟩

theorem Live.full (h : Live ctx) (block : List UInt8) : Live (full ctx block) := by
  induction block generalizing ctx with
  | nil => exact h
  | cons x block ih => exact ih (h.push x)

theorem Steps.full {c c' : Ctx} (h : Live c) (hs : Steps c c') (block : List UInt8) : Steps (full c block) (full c' block) := by
  induction block generalizing c c' with
  | nil => exact hs
  | cons x block ih => exact ih (h.push x) (hs.push h x)

theorem Fails.full {c : Ctx} (h : Live c) (hf : Fails c) (block : List UInt8) : Fails (full c block) := by
  induction block generalizing c with
  | nil => exact hf
  | cons x block ih => exact ih (h.push x) (hf.push h x)

/-! ## Turns and calls as small turns -/

/-- A turn that reads many lengths of the lengths is small turns that read one each. -/
theorem lenlenTurn_steps {left : Nat} {c' : Ctx} (hs : ctx.state = .treesLenlen) (hleft : left + 1 = ctx.hclen - ctx.lenptr)
    (ht : lenlenTurn (left + 1) ctx = some (.next c')) : Steps ctx c' := by
  induction left generalizing ctx with
  | zero =>
    refine .single ⟨fun hz => ?_, ?_⟩
    · rw [lenlenTurn, if_pos (by omega)] at ht
      cases ht
    · rw [microturn, turnOf, if_pos hs]
      exact ht
  | succ left ih =>
    by_cases hn : ctx.nbits < 3
    · rw [lenlenTurn, if_pos hn] at ht
      cases ht
    · rw [lenlenTurn, if_neg hn, readLenlens, if_neg hn] at ht
      cases hr : readLenlen ctx with
      | none => rw [hr] at ht; cases ht
      | some c1 =>
        rw [hr, Option.bind_some] at ht
        have hc1 : c1.state = ctx.state ∧ c1.lenptr = ctx.lenptr + 1 ∧ c1.hclen = ctx.hclen := by
          unfold readLenlen at hr
          obtain ⟨i, -, hr⟩ := Option.bind_eq_some_iff.mp hr
          split at hr
          · cases hr
            exact ⟨rfl, rfl, rfl⟩
          · cases hr
        obtain ⟨h1, h2, h3⟩ := hc1
        have hread : lenlensRead c1 = some c1 := if_neg (by omega)
        have hstep : Step ctx c1 := by
          refine ⟨by omega, ?_⟩
          rw [microturn, turnOf, if_pos hs, lenlenTurn, if_neg hn, readLenlens, if_neg hn, hr]
          show ((readLenlens 0 c1).bind lenlensRead).map Turn.next = _
          rw [readLenlens, Option.bind_some, hread]
          rfl
        refine .head hstep ?_
        by_cases hn1 : c1.nbits < 3
        · rw [readLenlens, if_pos hn1, Option.bind_some, hread] at ht
          cases ht
          exact .refl
        · refine ih (h1.trans hs) (by omega) ?_
          rw [lenlenTurn, if_neg hn1]
          exact ht

/-- A turn is small turns. -/
theorem turn_steps {c : Ctx} {t : Turn} (h : Live c) (hn : c.nbits ≠ 0) (ht : turn c = some t) :
    match t with
    | .finished => microturn c = some .finished
    | .decodeError c' => microturn c = some (.decodeError c')
    | .next c' => Steps c c' := by
  by_cases hs : c.state = .treesLenlen
  · have hst := h.inv.state
    rw [StateOk, hs] at hst
    obtain ⟨-, -, hlt, -⟩ := hst
    obtain ⟨left, hleft⟩ : ∃ left, left + 1 = c.hclen - c.lenptr := ⟨c.hclen - c.lenptr - 1, by omega⟩
    rw [turn, hs] at ht
    dsimp only at ht
    rw [treesLenlenTurn_eq, ← hleft] at ht
    cases t with
    | finished =>
      show microturn c = some .finished
      rw [microturn, turnOf, if_pos hs]
      unfold lenlenTurn at ht ⊢
      split at ht
      · rename_i hlt3
        rw [if_pos hlt3]
      · obtain ⟨c', -, he⟩ := Option.map_eq_some_iff.mp ht
        cases he
    | decodeError c' =>
      unfold lenlenTurn at ht
      split at ht
      · cases ht
      · obtain ⟨c', -, he⟩ := Option.map_eq_some_iff.mp ht
        cases he
    | next c' => exact lenlenTurn_steps hs hleft ht
  · rw [← turnOf_of_ne (fun _ => 1) hs] at ht
    cases t with
    | finished => exact ht
    | decodeError c' => exact ht
    | next c' => exact .single ⟨hn, ht⟩

theorem refill_nbits {block : List UInt8} (h : ¬ (block = [] ∧ ctx.nbits = 0)) : (refill ctx block).1.nbits ≠ 0 := by
  have hmono : ∀ (block : List UInt8) (c : Ctx), c.nbits ≤ (refill c block).1.nbits := by
    intro block
    induction block with
    | nil => exact fun c => Nat.le_refl _
    | cons x block ih =>
      intro c
      rw [refill]
      split
      · exact Nat.le_trans (Nat.le_add_right _ 8) (ih (c.push x))
      · exact Nat.le_refl _
  cases block with
  | nil => exact fun hz => h ⟨rfl, hz⟩
  | cons x block =>
    rw [refill]
    split
    · have h1 : ctx.nbits + 8 ≤ _ := hmono block (ctx.push x)
      omega
    · dsimp only
      omega

/-- A call takes the small turns that it would take with all its bytes in the bit buffer,
    to their end. -/
theorem loop_steps {fuel : Nat} {block : List UInt8} {c : Ctx} {ok : Bool} (hb : Buffered ctx) (ho : ∃ o, ctx.outblk = some o)
    (h : loop fuel ctx block = some (c, ok)) :
    (ok = true → Steps (full ctx block) c ∧ Settled c) ∧
      (ok = false → ∃ c1, Steps (full ctx block) c1 ∧ Fails c1) := by
  induction fuel generalizing ctx block with
  | zero => cases h
  | succ fuel ih =>
    rw [loop] at h
    split at h
    · rename_i hend
      cases h
      obtain ⟨rfl, hz⟩ := hend
      exact ⟨fun _ => ⟨.refl, Or.inl hz⟩, fun he => by cases he⟩
    · rename_i hgo
      obtain ⟨o, ho⟩ := ho
      obtain ⟨h1, h2, h3, -⟩ := refill_ok block hb
      have hnb := refill_nbits hgo
      have hlive : Live (refill ctx block).1 := ⟨h1.inv, o, h2.trans ho⟩
      have hfull := full_refill ctx block
      obtain ⟨t, ht, hok⟩ := turn_ok h1.inv (h2.trans ho)
      have hsmall := turn_steps hlive hnb ht
      simp only [ht] at h
      cases t with
      | finished =>
        cases h
        have hlt : (refill ctx block).1.nbits < 16 := hok
        have hrest : (refill ctx block).2 = [] := by
          rcases h3 with h3 | h3
          · omega
          · exact h3
        rw [hrest] at hfull
        have hfull : (refill ctx block).1 = full ctx block := hfull
        exact ⟨fun _ => ⟨hfull ▸ .refl, Or.inr hsmall⟩, fun he => by cases he⟩
      | decodeError c' =>
        cases h
        have hf : Fails (refill ctx block).1 := ⟨hnb, _, hsmall⟩
        exact ⟨(fun he => by cases he), fun _ => ⟨_, .refl, hfull ▸ hf.full hlive _⟩⟩
      | next c' =>
        have hpre : Steps (full ctx block) (full c' (refill ctx block).2) := hfull ▸ Steps.full hlive hsmall _
        obtain ⟨o', more, -, h5⟩ := hok.2.2
        obtain ⟨htrue, hfalse⟩ := ih (h1.next hok) ⟨_, h5⟩ h
        refine ⟨fun he => ?_, fun he => ?_⟩
        · obtain ⟨h6, h7⟩ := htrue he
          exact ⟨hpre.trans h6, h7⟩
        · obtain ⟨c1, h6, h7⟩ := hfalse he
          exact ⟨c1, hpre.trans h6, h7⟩

/-! ## More output in front -/

/-- The context with `p` in front of its output. -/
def Ctx.pre (p : List UInt8) (ctx : Ctx) : Ctx := { ctx with outblk := ctx.outblk.map (p ++ ·) }

def Turn.pre (p : List UInt8) : Turn → Turn
  | .finished => .finished
  | .decodeError ctx => .decodeError (ctx.pre p)
  | .next ctx => .next (ctx.pre p)

theorem emitChar_pre (p : List UInt8) (c : UInt8) : emitChar (ctx.pre p) c = (emitChar ctx c).map (Ctx.pre p) := by
  unfold emitChar
  by_cases hw : ctx.winpos < WINSIZE
  · rw [if_pos hw, if_pos (by exact hw)]
    show (ctx.outblk.map (p ++ ·)).bind _ = Option.map _ (ctx.outblk.bind _)
    cases ctx.outblk with
    | none => rfl
    | some o => simp [Ctx.pre, List.append_assoc]
  · rw [if_neg hw, if_neg (by exact hw)]
    rfl

theorem copyMatch_pre (p : List UInt8) {dist n : Nat} : copyMatch dist n (ctx.pre p) = (copyMatch dist n ctx).map (Ctx.pre p) := by
  induction n generalizing ctx with
  | zero => rfl
  | succ n ih =>
    rw [copyMatch, copyMatch]
    have he : { ctx.pre p with len := (n : Int) } = Ctx.pre p { ctx with len := (n : Int) } := rfl
    rw [he, show windowAt (ctx.pre p) dist = windowAt ctx dist from rfl, emitChar_pre]
    cases emitChar { ctx with len := n } (windowAt ctx dist) with
    | none => rfl
    | some c => exact ih

theorem microturn_pre (p : List UInt8) (c : Ctx) : microturn (c.pre p) = (microturn c).map (Turn.pre p) := by
  obtain ⟨a, ha, -⟩ := turnOf_acts (fun _ => 1) (fun _ _ _ _ => rfl) c
  have h1 : microturn (c.pre p) = _ := ha c.window c.winpos (c.outblk.map (p ++ ·))
  have h2 : microturn c = _ := ha c.window c.winpos c.outblk
  rw [h1, h2]
  cases a with
  | none => rfl
  | some a =>
    cases a with
    | finished => rfl
    | decodeError c' => rfl
    | next base e =>
      have he : e.run ((base.withOut c.window c.winpos c.outblk).pre p) =
          (e.run (base.withOut c.window c.winpos c.outblk)).map (Ctx.pre p) := by
        cases e with
        | nothing => rfl
        | byte b => exact emitChar_pre p b
        | copy dist len => exact copyMatch_pre p
      show ((e.run ((base.withOut c.window c.winpos c.outblk).pre p)).map Turn.next) = _
      rw [he]
      show _ = Option.map _ (Option.map _ _)
      rw [Option.map_map, Option.map_map]
      rfl

theorem Steps.pre {c c' : Ctx} (p : List UInt8) (hs : Steps c c') : Steps (c.pre p) (c'.pre p) := by
  induction hs with
  | refl => exact .refl
  | tail _ hs ih =>
    refine ih.tail ⟨hs.1, ?_⟩
    rw [microturn_pre, hs.2]
    rfl

theorem Settled.pre {c : Ctx} (p : List UInt8) (h : Settled c) : Settled (c.pre p) := by
  refine h.imp id fun h => ?_
  rw [microturn_pre, h]
  rfl

theorem Fails.pre {c : Ctx} (p : List UInt8) (h : Fails c) : Fails (c.pre p) := by
  obtain ⟨hn, c', h⟩ := h
  refine ⟨hn, c'.pre p, ?_⟩
  rw [microturn_pre, h]
  rfl

theorem full_pre (p : List UInt8) (c : Ctx) (block : List UInt8) : full (c.pre p) block = (full c block).pre p := by
  induction block generalizing c with
  | nil => rfl
  | cons x block ih => exact ih (c.push x)

/-! ## Calls -/

/-- A context as a call starts in it. -/
def Ctx.opened (ctx : Ctx) : Ctx := { ctx with outblk := some [] }

theorem Idle.live (h : Idle ctx) : Live ctx.opened := ⟨h.buffered.inv.output _, [], rfl⟩

/-- Where the small turns of a call end. -/
theorem call_steps {block : List UInt8} {c : Ctx} {r : Option (List UInt8)} (h : Idle ctx)
    (hc : decompressBlock ctx block = some (c, r)) :
    (∀ out, r = some out → Steps (full ctx.opened block) { c with outblk := some out } ∧
      Settled { c with outblk := some out } ∧ Idle c) ∧
      (r = none → ∃ c1, Steps (full ctx.opened block) c1 ∧ Fails c1) := by
  have hb : Buffered ctx.opened := h.buffered.output _
  obtain ⟨c', r', hc', hidle, -⟩ := decompressBlock_ok block h
  cases hc.symm.trans hc'
  rw [decompressBlock, h.outblk] at hc
  simp only [Option.isSome_none] at hc
  cases hl : loop (turnBound ctx block) { ctx with outblk := some [] } block with
  | none => rw [hl] at hc; cases hc
  | some res =>
    obtain ⟨c1, ok⟩ := res
    rw [hl] at hc
    obtain ⟨htrue, hfalse⟩ := loop_steps hb ⟨[], rfl⟩ hl
    cases ok with
    | false =>
      cases hc
      exact ⟨(fun out he => by cases he), fun _ => hfalse rfl⟩
    | true =>
      obtain ⟨out, hout, hc⟩ := Option.bind_eq_some_iff.mp hc
      cases hc
      refine ⟨fun out' he => ?_, fun he => by cases he⟩
      cases he
      have hsame : { c1 with outblk := some out } = c1 := by rw [← hout]
      rw [hsame]
      obtain ⟨h1, h2⟩ := htrue rfl
      exact ⟨h1, h2, hidle rfl⟩

/-- What becomes of a stream does not depend on where it is cut. -/
theorem split_call (n : Nat) (ctx : Ctx) (h : Reached n ctx) (a b : List UInt8) :
    (∀ c out, decompressBlock ctx (a ++ b) = some (c, some out) ↔
      ∃ c1 out1 out2, decompressBlock ctx a = some (c1, some out1) ∧ decompressBlock c1 b = some (c, some out2) ∧
        out = out1 ++ out2) ∧
    ((∃ c, decompressBlock ctx (a ++ b) = some (c, none)) ↔
      (∃ c, decompressBlock ctx a = some (c, none)) ∨
        ∃ c1 out1 c, decompressBlock ctx a = some (c1, some out1) ∧ decompressBlock c1 b = some (c, none)) := by
  by_cases ho : ctx.outblk = none
  · have hidle := h.idle ho
    obtain ⟨c, r, hc, -⟩ := decompressBlock_ok (a ++ b) hidle
    obtain ⟨ca, ra, hca, -⟩ := decompressBlock_ok a hidle
    have hwhole := call_steps hidle hc
    have hfirst := call_steps hidle hca
    rw [full_append] at hwhole
    have hlive : Live (full ctx.opened a) := hidle.live.full a
    cases ra with
    | none =>
      -- the first part fails, and the whole with it
      obtain ⟨f, hf1, hf2⟩ := hfirst.2 rfl
      have hf1' := Steps.full hlive hf1 b
      have hf2' := hf2.full (hlive.steps hf1) b
      cases r with
      | none =>
        refine ⟨fun c' out => ⟨fun he => ?_, ?_⟩, fun _ => Or.inl ⟨ca, hca⟩, fun _ => ⟨c, hc⟩⟩
        · cases hc.symm.trans he
        · rintro ⟨c1, out1, out2, he, -⟩
          cases hca.symm.trans he
      | some out =>
        obtain ⟨h1, h2, -⟩ := hwhole.1 out rfl
        have := steps_unique hf1' h1 (fun _ => hf2'.no_step) fun _ => h2.no_step
        exact absurd (this ▸ hf2') h2.not_fails
    | some out1 =>
      obtain ⟨h1, -, hidle1⟩ := hfirst.1 out1 rfl
      obtain ⟨cb, rb, hcb, -⟩ := decompressBlock_ok b hidle1
      have hsecond := call_steps hidle1 hcb
      -- the second call goes on where the first one stopped, with an empty output
      have hgo : Steps (full (full ctx.opened a) b) ((full ca.opened b).pre out1) := by
        have hpre : { ca with outblk := some out1 } = ca.opened.pre out1 := by simp [Ctx.opened, Ctx.pre]
        have := Steps.full hlive h1 b
        rwa [hpre, full_pre] at this
      cases rb with
      | none =>
        obtain ⟨f, hf1, hf2⟩ := hsecond.2 rfl
        have hf1' := hgo.trans (hf1.pre out1)
        have hf2' := hf2.pre out1
        cases r with
        | none =>
          refine ⟨fun c' out => ⟨fun he => ?_, ?_⟩, fun _ => Or.inr ⟨ca, out1, cb, hca, hcb⟩, fun _ => ⟨c, hc⟩⟩
          · cases hc.symm.trans he
          · rintro ⟨c1, out1', out2, he, he2, -⟩
            cases hca.symm.trans he
            cases hcb.symm.trans he2
        | some out =>
          obtain ⟨h3, h4, -⟩ := hwhole.1 out rfl
          have := steps_unique hf1' h3 (fun _ => hf2'.no_step) fun _ => h4.no_step
          exact absurd (this ▸ hf2') h4.not_fails
      | some out2 =>
        obtain ⟨h5, h6, hidle2⟩ := hsecond.1 out2 rfl
        have h5' := hgo.trans (h5.pre out1)
        have h6' := h6.pre out1
        cases r with
        | none =>
          obtain ⟨f, hf1, hf2⟩ := hwhole.2 rfl
          have := steps_unique hf1 h5' (fun _ => hf2.no_step) fun _ => h6'.no_step
          exact absurd (this ▸ hf2) h6'.not_fails
        | some out =>
          obtain ⟨h3, h4, hidle3⟩ := hwhole.1 out rfl
          have he := steps_unique h3 h5' (fun _ => h4.no_step) fun _ => h6'.no_step
          have hout : out = out1 ++ out2 := Option.some.inj (congrArg Ctx.outblk he)
          have hctx : c = cb := by
            have h7 : { c with outblk := some out } = { cb with outblk := some (out1 ++ out2) } := he
            have h8 := congrArg (fun x : Ctx => { x with outblk := none }) h7
            have h9 := hidle3.outblk
            have h10 := hidle2.outblk
            cases c
            cases cb
            dsimp only at h8 h9 h10
            rw [h9, h10]
            exact h8
          subst hctx hout
          refine ⟨fun c' out' => ⟨fun he => ?_, ?_⟩, ?_, ?_⟩
          · cases hc.symm.trans he
            exact ⟨ca, out1, out2, hca, hcb, rfl⟩
          · rintro ⟨c1, o1, o2, he1, he2, rfl⟩
            cases hca.symm.trans he1
            cases hcb.symm.trans he2
            exact hc
          · rintro ⟨c', he⟩
            cases hc.symm.trans he
          · rintro (⟨c', he⟩ | ⟨c1, o1, c', he1, he2⟩)
            · cases hca.symm.trans he
            · cases hca.symm.trans he1
              cases hcb.symm.trans he2
  · have hnone : ∀ block, decompressBlock ctx block = none := fun block =>
      if_pos (Option.isSome_iff_ne_none.mpr ho)
    simp [hnone]

/-- A zlib header that comes in two calls. -/
theorem header_in_two_calls : ∃ ctx, Reached 0 ctx ∧ ∃ c1 c2, decompressBlock ctx [0x78] = some (c1, some []) ∧
    decompressBlock c1 [0x9C] = some (c2, some []) := by
  obtain ⟨a, b, hinit⟩ := decompressInit_total
  have hreached := Reached.fresh (hinit (zeroed (.mk 0 []))).1
  obtain ⟨c, hc⟩ : ∃ c, decompressBlock (freshWith (zeroed (.mk 0 [])) a b) ([0x78] ++ [0x9C]) = some (c, some []) := by
    simp [freshWith, decompressBlock, loop, turnBound, refill, Ctx.push, turn, startTurn, headerOk, header, Ctx.eatbits]
  obtain ⟨c1, out1, out2, h1, h2, he⟩ := ((split_call 0 _ hreached [0x78] [0x9C]).1 c []).mp hc
  obtain ⟨rfl, rfl⟩ := List.append_eq_nil_iff.mp he.symm
  exact ⟨_, hreached, c1, c, h1, h2⟩

end Putty.Zlib
