/-
  Putty.Zlib.Decoder — every call of the decompressor comes back, whatever the bytes.

  One turn of the decoding loop keeps the invariant `Inv` (the tables are good, the bit
  buffer holds no more than it says, every array index that the state stands for is inside
  its array) and either says that bits are missing, which it never does with 16 of them,
  or gives up, or leaves less work (`turn_ok`). A call is the loop of these turns.
-/

import Putty.Zlib.Tables
import Mathlib.Tactic.Linarith

namespace Putty.Zlib

/-- The lengths of the two codes of a dynamic block are being read. -/
structure Trees (ctx : Ctx) : Prop where
  hlit : ctx.hlit ≤ 288
  hdist : ctx.hdist ≤ 32
  lengths : ∀ i, (h : i < 288 + 32) → i < ctx.lenptr → ctx.lengths[i] < MAXCODELEN
  table : ∃ tab, ctx.lenlentable = some tab ∧ tab.Good MAXSYMS

/-- What the fields of a state hold. -/
def StateOk (ctx : Ctx) : Prop :=
  match ctx.state with
  | .start | .outsideblk | .treesHdr | .uncompLen | .uncompNlen | .uncompData => True
  | .treesLenlen =>
    ctx.hlit ≤ 288 ∧ ctx.hdist ≤ 32 ∧ ctx.lenptr < ctx.hclen ∧ ctx.hclen ≤ 19 ∧
      ∀ i, (h : i < 19) → ctx.lenlen[i] < MAXCODELEN
  | .treesLen => Trees ctx
  | .treesLenrep => Trees ctx ∧ ctx.lenrep < MAXCODELEN ∧ 0 < ctx.lenextrabits ∧ ctx.lenextrabits ≤ 7
  | .inblk => ctx.lentable.isSome ∧ ctx.disttable.isSome
  | .gotlensym => (ctx.lentable.isSome ∧ ctx.disttable.isSome) ∧ 257 ≤ ctx.sym ∧ ctx.sym < 286
  | .gotlen => (ctx.lentable.isSome ∧ ctx.disttable.isSome) ∧ 0 < ctx.len
  | .gotdistsym => (ctx.lentable.isSome ∧ ctx.disttable.isSome) ∧ 0 < ctx.len ∧ ctx.sym < 30

structure Inv (ctx : Ctx) : Prop where
  staticlen : ctx.staticlentable.Good MAXSYMS
  staticdist : ctx.staticdisttable.Good MAXSYMS
  curlen : ∀ tab, ctx.currlentable = some (.dynamic tab) → tab.Good MAXSYMS
  curdist : ∀ tab, ctx.currdisttable = some (.dynamic tab) → tab.Good MAXSYMS
  bits : ctx.bits < 2 ^ ctx.nbits
  winpos : ctx.winpos < WINSIZE
  state : StateOk ctx

/-- Turns that take no bits are counted by the state. -/
def rank : State → Nat
  | .gotlensym => 2
  | .gotlen | .gotdistsym | .treesLen => 1
  | _ => 0

def work (ctx : Ctx) : Nat := 3 * ctx.nbits + rank ctx.state

/-- What a turn may come to. -/
def TurnOk (ctx : Ctx) : Turn → Prop
  | .finished => ctx.nbits < 16
  | .decodeError ctx' => ctx'.outblk = ctx.outblk
  | .next ctx' => Inv ctx' ∧ work ctx' < work ctx ∧ ∃ o more, ctx.outblk = some o ∧ ctx'.outblk = some (o ++ more)

variable {ctx : Ctx} {o : List UInt8}

theorem Table.Good.mono {m n : Nat} {tab : Table} (h : tab.Good m) (hmn : m ≤ n) : tab.Good n := fun bits nbits hb => by
  obtain ⟨r, hr, hs, hmore⟩ := h bits nbits hb
  refine ⟨r, hr, ?_, hmore⟩
  cases r with
  | short => exact hs
  | missing => trivial
  | found code b k => exact ⟨Nat.lt_of_lt_of_le hs.1 hmn, hs.2⟩

theorem shiftRight_lt {v n l : Nat} (h : v < 2 ^ n) (hl : l ≤ n) : v >>> l < 2 ^ (n - l) := by
  rw [Nat.shiftRight_eq_div_pow, Nat.div_lt_iff_lt_mul (Nat.two_pow_pos l), ← Nat.pow_add, Nat.sub_add_cancel hl]
  exact h

theorem Inv.lentable (h : Inv ctx) {tab : Table} (ht : ctx.lentable = some tab) : tab.Good MAXSYMS := by
  unfold Ctx.lentable at ht
  cases hc : ctx.currlentable with
  | none => rw [hc] at ht; cases ht
  | some c =>
    rw [hc] at ht
    cases c with
    | static => cases ht; exact h.staticlen
    | dynamic t => cases ht; exact h.curlen _ hc

theorem Inv.disttable (h : Inv ctx) {tab : Table} (ht : ctx.disttable = some tab) : tab.Good MAXSYMS := by
  unfold Ctx.disttable at ht
  cases hc : ctx.currdisttable with
  | none => rw [hc] at ht; cases ht
  | some c =>
    rw [hc] at ht
    cases c with
    | static => cases ht; exact h.staticdist
    | dynamic t => cases ht; exact h.curdist _ hc

/-- The invariant of a context that differs only in bits taken, output and state fields. -/
theorem Inv.take {ctx' : Ctx} (h : Inv ctx) {n : Nat} (hn : n ≤ ctx.nbits)
    (hb : ctx'.bits = ctx.bits >>> n) (hnb : ctx'.nbits = ctx.nbits - n)
    (h1 : ctx'.staticlentable = ctx.staticlentable) (h2 : ctx'.staticdisttable = ctx.staticdisttable)
    (h3 : ctx'.currlentable = ctx.currlentable) (h4 : ctx'.currdisttable = ctx.currdisttable)
    (hw : ctx'.winpos < WINSIZE) (hs : StateOk ctx') : Inv ctx' :=
  ⟨h1 ▸ h.staticlen, h2 ▸ h.staticdist, fun tab ht => h.curlen tab (h3 ▸ ht), fun tab ht => h.curdist tab (h4 ▸ ht),
    by rw [hb, hnb]; exact shiftRight_lt h.bits hn, hw, hs⟩

/-! ## The turns -/

theorem startTurn_ok (h : Inv ctx) (ho : ctx.outblk = some o) (hs : ctx.state = .start) : TurnOk ctx (startTurn ctx) := by
  unfold startTurn
  split
  · assumption
  · rename_i hn
    split
    · refine ⟨h.take (n := 16) (by omega) rfl rfl rfl rfl rfl rfl h.winpos trivial, ?_, o, [], ho, ho.trans (by simp)⟩
      simp only [work, rank, hs, Ctx.eatbits]
      omega
    · rfl

theorem eatbits_eatbits (ctx : Ctx) (m n : Nat) : (ctx.eatbits m).eatbits n = ctx.eatbits (m + n) := by
  simp only [Ctx.eatbits, Nat.sub_sub, Nat.shiftRight_add]

theorem outsideblkTurn_ok (h : Inv ctx) (ho : ctx.outblk = some o) (hs : ctx.state = .outsideblk) :
    TurnOk ctx (outsideblkTurn ctx) := by
  unfold outsideblkTurn
  split
  · rename_i hn
    exact show ctx.nbits < 16 by omega
  · rename_i hn
    simp only [eatbits_eatbits]
    split
    · refine ⟨h.take (n := 3 + (ctx.nbits - 3) % 8) (by omega) rfl rfl rfl rfl rfl rfl h.winpos trivial, ?_, o, [], ho,
        ho.trans (by simp)⟩
      simp only [work, rank, hs, Ctx.eatbits]
      omega
    · refine ⟨⟨h.staticlen, h.staticdist, nofun, nofun, shiftRight_lt h.bits (by omega), h.winpos, rfl, rfl⟩, ?_, o, [], ho,
        ho.trans (by simp)⟩
      simp only [work, rank, hs, Ctx.eatbits]
      omega
    · refine ⟨h.take (n := 3) (by omega) rfl rfl rfl rfl rfl rfl h.winpos trivial, ?_, o, [], ho, ho.trans (by simp)⟩
      simp only [work, rank, hs, Ctx.eatbits]
      omega
    · refine ⟨h.take (n := 3) (by omega) rfl rfl rfl rfl rfl rfl h.winpos ?_, ?_, o, [], ho, ho.trans (by simp)⟩
      · simp only [StateOk, Ctx.eatbits, hs]
      · simp only [work, rank, hs, Ctx.eatbits]
        omega

theorem treesHdrTurn_ok (h : Inv ctx) (ho : ctx.outblk = some o) (hs : ctx.state = .treesHdr) :
    TurnOk ctx (treesHdrTurn ctx) := by
  unfold treesHdrTurn
  split
  · rename_i hn
    exact show ctx.nbits < 16 by omega
  · rename_i hn
    have hl : ∀ c n, Ctx.lowbits c n < 2 ^ n := fun c n => Nat.mod_lt _ (Nat.two_pow_pos n)
    simp only [eatbits_eatbits]
    refine ⟨h.take (n := 5 + 5 + 4) (by omega) rfl rfl rfl rfl rfl rfl h.winpos ?_, ?_, o, [], ho, ho.trans (by simp)⟩
    · have h1 := hl ctx 5
      have h2 := hl (ctx.eatbits 5) 5
      have h3 := hl (ctx.eatbits (5 + 5)) 4
      refine ⟨?_, ?_, ?_, ?_, fun i hi => ?_⟩
      · exact show 257 + ctx.lowbits 5 ≤ 288 by omega
      · exact show 1 + (ctx.eatbits 5).lowbits 5 ≤ 32 by omega
      · exact show 0 < 4 + (ctx.eatbits (5 + 5)).lowbits 4 by omega
      · exact show 4 + (ctx.eatbits (5 + 5)).lowbits 4 ≤ 19 by omega
      · show (Vector.replicate 19 0)[i] < MAXCODELEN
        rw [Vector.getElem_replicate]
        decide
    · simp only [work, rank, hs, Ctx.eatbits]
      omega

/-- What `readLenlens` does: it takes `k` lengths of three bits. -/
theorem readLenlens_spec (left : Nat) (hp : ctx.lenptr + left ≤ 19) (hl : ∀ i, (h : i < 19) → ctx.lenlen[i] < MAXCODELEN) :
    ∃ k L, readLenlens left ctx = some { ctx.eatbits (3 * k) with lenlen := L, lenptr := ctx.lenptr + k } ∧
      k ≤ left ∧ 3 * k ≤ ctx.nbits ∧ (0 < left → 3 ≤ ctx.nbits → 0 < k) ∧ ∀ i, (h : i < 19) → L[i] < MAXCODELEN := by
  induction left generalizing ctx with
  | zero => exact ⟨0, ctx.lenlen, rfl, Nat.le_refl _, Nat.zero_le _, fun h => absurd h (by decide), hl⟩
  | succ left ih =>
    rw [readLenlens]
    split
    · exact ⟨0, ctx.lenlen, rfl, Nat.zero_le _, Nat.zero_le _, fun _ h => by omega, hl⟩
    · rename_i hn
      have hmap : ∀ i < 19, ∃ j, lenlenmap[i]? = some j ∧ j < 19 := by decide
      obtain ⟨j, hj, hlt⟩ := hmap ctx.lenptr (by omega)
      have hread : readLenlen ctx =
          some { ctx.eatbits 3 with lenlen := ctx.lenlen.set j (ctx.lowbits 3), lenptr := ctx.lenptr + 1 } := by
        simp [readLenlen, hj, hlt]
      have hbound : ctx.lowbits 3 < MAXCODELEN := Nat.lt_of_lt_of_le (Nat.mod_lt _ (Nat.two_pow_pos 3)) (by decide)
      rw [hread, Option.bind_some]
      obtain ⟨k, L, hk, hkl, hkb, -, hL⟩ := @ih
        { ctx.eatbits 3 with lenlen := ctx.lenlen.set j (ctx.lowbits 3), lenptr := ctx.lenptr + 1 }
        (show ctx.lenptr + 1 + left ≤ 19 by omega) fun i hi => by
          show (ctx.lenlen.set j (ctx.lowbits 3))[i] < MAXCODELEN
          rw [Vector.getElem_set]
          split
          · exact hbound
          · exact hl i hi
      refine ⟨k + 1, L, ?_, by omega, ?_, fun _ _ => Nat.succ_pos k, hL⟩
      · rw [hk]
        have he : 3 + 3 * k = 3 * (k + 1) := by omega
        have h1 : (ctx.bits >>> 3) >>> (3 * k) = ctx.bits >>> (3 * (k + 1)) := by rw [← Nat.shiftRight_add, he]
        have h2 : ctx.nbits - 3 - 3 * k = ctx.nbits - 3 * (k + 1) := by omega
        have h3 : ctx.lenptr + 1 + k = ctx.lenptr + (k + 1) := by omega
        simp only [Ctx.eatbits, h1, h2, h3]
      · have : 3 * k ≤ ctx.nbits - 3 := hkb
        omega

theorem toList_lt {n M : Nat} {v : Vector Nat n} (h : ∀ i, (hi : i < n) → v[i] < M) : ∀ x ∈ v.toList, x < M := by
  intro x hx
  obtain ⟨i, hi, rfl⟩ := List.mem_iff_getElem.mp hx
  rw [Vector.getElem_toList]
  exact h i (by simpa using hi)

/-- A turn of the state TREES_LENLEN that reads `left` lengths at most. -/
def lenlenTurn (left : Nat) (ctx : Ctx) : Option Turn :=
  if ctx.nbits < 3 then some .finished else ((readLenlens left ctx).bind lenlensRead).map .next

theorem treesLenlenTurn_eq (ctx : Ctx) : treesLenlenTurn ctx = lenlenTurn (ctx.hclen - ctx.lenptr) ctx := by
  unfold treesLenlenTurn lenlenTurn
  split
  · rfl
  · cases readLenlens (ctx.hclen - ctx.lenptr) ctx with
    | none => rfl
    | some c =>
      simp only [Option.bind_eq_bind, Option.bind_some]
      cases lenlensRead c <;> rfl

theorem lenlenTurn_ok (h : Inv ctx) (ho : ctx.outblk = some o) (hs : ctx.state = .treesLenlen) {left : Nat} (hpos : 0 < left)
    (hleft : left ≤ ctx.hclen - ctx.lenptr) : ∃ t, lenlenTurn left ctx = some t ∧ TurnOk ctx t := by
  have hst := h.state
  rw [StateOk, hs] at hst
  obtain ⟨h1, h2, h3, h4, h5⟩ := hst
  unfold lenlenTurn
  split
  · rename_i hn
    exact ⟨_, rfl, show ctx.nbits < 16 by omega⟩
  · rename_i hn
    obtain ⟨k, L, hk, hkl, hkb, hk0, hL⟩ := readLenlens_spec left (by omega) h5
    have hk0 := hk0 hpos (by omega)
    simp only [hk, Option.bind_some, lenlensRead, Ctx.eatbits]
    by_cases hall : ctx.lenptr + k = ctx.hclen
    · obtain ⟨tab, htab, hgood⟩ := mktable_good (toList_lt hL) (by rw [Vector.length_toList]; decide)
      rw [if_pos hall, htab]
      refine ⟨_, rfl, h.take (n := 3 * k) hkb rfl rfl rfl rfl rfl rfl h.winpos ?_, ?_, o, [], ho, ho.trans (by simp)⟩
      · refine ⟨h1, h2, fun i hi hlt => absurd hlt (Nat.not_lt_zero _), tab, rfl, hgood.mono ?_⟩
        rw [Vector.length_toList]
        decide
      · simp only [work, rank, hs]
        omega
    · rw [if_neg hall]
      refine ⟨_, rfl, h.take (n := 3 * k) hkb rfl rfl rfl rfl rfl rfl h.winpos ?_, ?_, o, [], ho, ho.trans (by simp)⟩
      · simp only [StateOk, hs]
        exact ⟨h1, h2, by omega, h4, hL⟩
      · simp only [work, rank, hs]
        omega

theorem treesLenlenTurn_ok (h : Inv ctx) (ho : ctx.outblk = some o) (hs : ctx.state = .treesLenlen) :
    ∃ t, treesLenlenTurn ctx = some t ∧ TurnOk ctx t := by
  have hst := h.state
  rw [StateOk, hs] at hst
  obtain ⟨-, -, hlt, -⟩ := hst
  rw [treesLenlenTurn_eq]
  exact lenlenTurn_ok h ho hs (by omega) (Nat.le_refl _)

theorem buildTables_ok (ht : Trees ctx) (hge : ctx.hlit + ctx.hdist ≤ ctx.lenptr) :
    ∃ lentab disttab, lentab.Good MAXSYMS ∧ disttab.Good MAXSYMS ∧ buildTables ctx = some { ctx with
      currlentable := some (.dynamic lentab), currdisttable := some (.dynamic disttab)
      lenlentable := none, state := .inblk } := by
  have hlit := ht.hlit
  have hdist := ht.hdist
  have hall : ∀ x ∈ ctx.lengths.toList.take (ctx.hlit + ctx.hdist), x < MAXCODELEN := by
    intro x hx
    obtain ⟨i, hi, rfl⟩ := List.mem_take_iff_getElem.mp hx
    rw [Vector.getElem_toList]
    exact ht.lengths i (by simp at hi; omega) (by simp at hi; omega)
  have hlen : ∀ x ∈ ctx.lengths.toList.take ctx.hlit, x < MAXCODELEN := fun x hx =>
    hall x (List.take_subset_take_left _ (Nat.le_add_right _ _) hx)
  have hdst : ∀ x ∈ (ctx.lengths.toList.drop ctx.hlit).take ctx.hdist, x < MAXCODELEN := fun x hx => by
    refine hall x ?_
    rw [List.take_add]
    exact List.mem_append_right _ hx
  obtain ⟨lentab, hl, hgl⟩ := mktable_good hlen (by simp [MAXSYMS]; omega)
  obtain ⟨disttab, hd, hgd⟩ := mktable_good hdst (by simp [MAXSYMS]; omega)
  refine ⟨lentab, disttab, hgl.mono (by simp [MAXSYMS]; omega), hgd.mono (by simp [MAXSYMS]; omega), ?_⟩
  rw [buildTables, if_pos (by omega), hl, hd]
  rfl

theorem setLength_ok {len : Nat} (hp : ctx.lenptr < 288 + 32) (hl : ∀ i, (h : i < 288 + 32) → i < ctx.lenptr → ctx.lengths[i] < MAXCODELEN)
    (hlen : len < MAXCODELEN) :
    ∃ L, setLength ctx len = some { ctx with lengths := L, lenptr := ctx.lenptr + 1 } ∧
      ∀ i, (h : i < 288 + 32) → i < ctx.lenptr + 1 → L[i] < MAXCODELEN := by
  refine ⟨ctx.lengths.set ctx.lenptr len, by rw [setLength, dif_pos hp], fun i hi hlt => ?_⟩
  rw [Vector.getElem_set]
  split
  · exact hlen
  · exact hl i hi (by omega)

theorem repeatLength_ok {rep : Nat} (hb : ctx.hlit + ctx.hdist ≤ 288 + 32)
    (hl : ∀ i, (h : i < 288 + 32) → i < ctx.lenptr → ctx.lengths[i] < MAXCODELEN) (hrep : ctx.lenrep < MAXCODELEN) :
    ∃ L k, repeatLength rep ctx = some { ctx with lengths := L, lenptr := ctx.lenptr + k } ∧
      ∀ i, (h : i < 288 + 32) → i < ctx.lenptr + k → L[i] < MAXCODELEN := by
  induction rep generalizing ctx with
  | zero => exact ⟨ctx.lengths, 0, rfl, hl⟩
  | succ rep ih =>
    rw [repeatLength]
    split
    · rename_i hlt
      obtain ⟨L, hL, hl'⟩ := setLength_ok (by omega) hl hrep
      rw [hL, Option.bind_some]
      obtain ⟨L', k, hk, hl''⟩ := @ih { ctx with lengths := L, lenptr := ctx.lenptr + 1 } hb hl' hrep
      refine ⟨L', k + 1, ?_, fun i hi hlt => hl'' i hi (show i < ctx.lenptr + 1 + k by omega)⟩
      rw [hk]
      simp only [Nat.add_assoc, Nat.add_comm 1]
    · exact ⟨ctx.lengths, 0, rfl, hl⟩

theorem treesLenTurn_ok (h : Inv ctx) (ho : ctx.outblk = some o) (hs : ctx.state = .treesLen) :
    ∃ t, treesLenTurn ctx = some t ∧ TurnOk ctx t := by
  have hst := h.state
  rw [StateOk, hs] at hst
  unfold treesLenTurn
  split
  · rename_i hge
    obtain ⟨lentab, disttab, hgl, hgd, hb⟩ := buildTables_ok hst hge
    rw [hb]
    refine ⟨_, rfl, ⟨h.staticlen, h.staticdist, fun tab ht => ?_, fun tab ht => ?_, h.bits, h.winpos, rfl, rfl⟩, ?_, o, [], ho,
      ho.trans (by simp)⟩
    · cases ht
      exact hgl
    · cases ht
      exact hgd
    · simp only [work, rank, hs]
      omega
  · rename_i hlt
    obtain ⟨tab, htab, hgood⟩ := hst.table
    obtain ⟨r, hr, hsound, -⟩ := hgood ctx.bits ctx.nbits h.bits
    simp only [htab, hr, Option.bind_eq_bind, Option.bind_some]
    have hlit := hst.hlit
    have hdist := hst.hdist
    cases r with
    | short => exact ⟨_, rfl, show ctx.nbits < 16 by unfold Lookup.Sound MAXCODELEN at hsound; omega⟩
    | missing => exact ⟨_, rfl, rfl⟩
    | found code bits nbits =>
      obtain ⟨-, l, hpos, hle, rfl, rfl⟩ := hsound
      dsimp only
      split
      · rename_i hcode
        obtain ⟨L, hL, hL'⟩ := @setLength_ok (ctx.setBits (ctx.bits >>> l) (ctx.nbits - l)) code
          (show ctx.lenptr < 288 + 32 by omega) hst.lengths hcode
        rw [hL]
        refine ⟨_, rfl, h.take (n := l) hle rfl rfl rfl rfl rfl rfl h.winpos ?_, ?_, o, [], ho, ho.trans (by simp)⟩
        · simp only [StateOk, Ctx.setBits, hs]
          exact ⟨hlit, hdist, hL', tab, htab, hgood⟩
        · simp only [work, rank, hs, Ctx.setBits]
          omega
      · have hrep : ∃ rep, repeated (ctx.setBits (ctx.bits >>> l) (ctx.nbits - l)) code = some rep ∧ rep < MAXCODELEN := by
          unfold repeated
          split
          · rename_i hc
            have hpos : 0 < ctx.lenptr := hc.2
            refine ⟨_, Vector.getElem?_eq_getElem (show ctx.lenptr - 1 < 288 + 32 by omega), hst.lengths _ ?_ ?_⟩
            · exact show ctx.lenptr - 1 < 288 + 32 by omega
            · exact show ctx.lenptr - 1 < ctx.lenptr by omega
          · exact ⟨0, rfl, by decide⟩
        obtain ⟨rep, hrep, hlt16⟩ := hrep
        rw [hrep]
        refine ⟨_, rfl, h.take (n := l) hle rfl rfl rfl rfl rfl rfl h.winpos ?_, ?_, o, [], ho, ho.trans (by simp)⟩
        · refine ⟨⟨hlit, hdist, hst.lengths, tab, htab, hgood⟩, hlt16, ?_⟩
          dsimp only
          split
          · decide
          · split
            · decide
            · decide
        · simp only [work, rank, hs, Ctx.setBits]
          omega

theorem treesLenrepTurn_ok (h : Inv ctx) (ho : ctx.outblk = some o) (hs : ctx.state = .treesLenrep) :
    ∃ t, treesLenrepTurn ctx = some t ∧ TurnOk ctx t := by
  have hst := h.state
  rw [StateOk, hs] at hst
  obtain ⟨ht, hrep, hpos, hextra⟩ := hst
  unfold treesLenrepTurn
  split
  · rename_i hn
    exact ⟨_, rfl, show ctx.nbits < 16 by omega⟩
  · rename_i hn
    have hlit := ht.hlit
    have hdist := ht.hdist
    obtain ⟨L, k, hk, hL⟩ := @repeatLength_ok (ctx.eatbits ctx.lenextrabits) (ctx.lenaddon + ctx.lowbits ctx.lenextrabits)
      (show ctx.hlit + ctx.hdist ≤ 288 + 32 by omega) ht.lengths hrep
    dsimp only
    rw [hk]
    refine ⟨_, rfl, h.take (n := ctx.lenextrabits) (by omega) rfl rfl rfl rfl rfl rfl h.winpos ?_, ?_, o, [], ho, ho.trans (by simp)⟩
    · exact ⟨hlit, hdist, hL, ht.table⟩
    · simp only [work, rank, hs, Ctx.eatbits]
      omega

theorem emitChar_eq (ho : ctx.outblk = some o) (hw : ctx.winpos < WINSIZE) (c : UInt8) :
    emitChar ctx c = some { ctx with
      window := Function.update ctx.window ctx.winpos c, winpos := (ctx.winpos + 1) % WINSIZE, outblk := some (o ++ [c]) } := by
  simp [emitChar, ho, hw]

theorem winpos_step (n : Nat) : (n + 1) % WINSIZE < WINSIZE := Nat.mod_lt _ (by decide)

theorem inblkTurn_ok (h : Inv ctx) (ho : ctx.outblk = some o) (hs : ctx.state = .inblk) :
    ∃ t, inblkTurn ctx = some t ∧ TurnOk ctx t := by
  have hst := h.state
  rw [StateOk, hs] at hst
  obtain ⟨tab, htab⟩ := Option.isSome_iff_exists.mp hst.1
  obtain ⟨r, hr, hsound, -⟩ := h.lentable htab ctx.bits ctx.nbits h.bits
  simp only [inblkTurn, htab, hr, Option.bind_eq_bind, Option.bind_some]
  cases r with
  | short => exact ⟨_, rfl, show ctx.nbits < 16 by unfold Lookup.Sound MAXCODELEN at hsound; omega⟩
  | missing => exact ⟨_, rfl, rfl⟩
  | found code bits nbits =>
    obtain ⟨-, l, hpos, hle, rfl, rfl⟩ := hsound
    dsimp only
    split
    · rw [@emitChar_eq (ctx.setBits (ctx.bits >>> l) (ctx.nbits - l)) o ho h.winpos]
      refine ⟨_, rfl, h.take (n := l) hle rfl rfl rfl rfl rfl rfl (winpos_step _) ?_, ?_, o, _, ho, rfl⟩
      · simp only [StateOk, Ctx.setBits, hs]
        exact hst
      · simp only [work, rank, hs, Ctx.setBits]
        omega
    · split
      · refine ⟨_, rfl, ⟨h.staticlen, h.staticdist, fun t ht => ?_, fun t ht => ?_, shiftRight_lt h.bits hle, h.winpos, trivial⟩,
          ?_, o, [], ho, ho.trans (by simp)⟩
        · dsimp only [Ctx.freeCurrent] at ht
          split at ht
          · cases ht
          · rename_i hno
            exact absurd ht (hno t)
        · dsimp only [Ctx.freeCurrent] at ht
          split at ht
          · cases ht
          · rename_i hno
            exact absurd ht (hno t)
        · simp only [work, rank, hs, Ctx.setBits]
          omega
      · split
        · rename_i h256 hne hlt
          refine ⟨_, rfl, h.take (n := l) hle rfl rfl rfl rfl rfl rfl h.winpos ⟨hst, ?_, hlt⟩, ?_, o, [], ho, ho.trans (by simp)⟩
          · exact show 257 ≤ code by omega
          · simp only [work, rank, hs, Ctx.setBits]
            omega
        · exact ⟨_, rfl, rfl⟩

theorem gotlensymTurn_ok (h : Inv ctx) (ho : ctx.outblk = some o) (hs : ctx.state = .gotlensym) :
    ∃ t, gotlensymTurn ctx = some t ∧ TurnOk ctx t := by
  have hst := h.state
  rw [StateOk, hs] at hst
  obtain ⟨htab, h1, h2⟩ := hst
  have hrec : ∀ i < 29, ∃ r, lencodes[i]? = some r ∧ r.extrabits < 16 ∧ 0 < r.min := by decide
  obtain ⟨r, hr, hx, hmin⟩ := hrec (ctx.sym - 257) (by omega)
  simp only [gotlensymTurn, if_pos h1, hr, Option.bind_eq_bind, Option.bind_some]
  split
  · exact ⟨_, rfl, show ctx.nbits < 16 by omega⟩
  · rename_i hn
    refine ⟨_, rfl, h.take (n := r.extrabits) (by omega) rfl rfl rfl rfl rfl rfl h.winpos ⟨htab, ?_⟩, ?_, o, [], ho,
      ho.trans (by simp)⟩
    · exact show (0 : Int) < ↑(r.min + ctx.lowbits r.extrabits) by omega
    · simp only [work, rank, hs, Ctx.eatbits]
      omega

theorem gotlenTurn_ok (h : Inv ctx) (ho : ctx.outblk = some o) (hs : ctx.state = .gotlen) :
    ∃ t, gotlenTurn ctx = some t ∧ TurnOk ctx t := by
  have hst := h.state
  rw [StateOk, hs] at hst
  obtain ⟨hst, hlen⟩ := hst
  obtain ⟨tab, htab⟩ := Option.isSome_iff_exists.mp hst.2
  obtain ⟨r, hr, hsound, -⟩ := h.disttable htab ctx.bits ctx.nbits h.bits
  simp only [gotlenTurn, htab, hr, Option.bind_eq_bind, Option.bind_some]
  cases r with
  | short => exact ⟨_, rfl, show ctx.nbits < 16 by unfold Lookup.Sound MAXCODELEN at hsound; omega⟩
  | missing => exact ⟨_, rfl, rfl⟩
  | found code bits nbits =>
    obtain ⟨-, l, hpos, hle, rfl, rfl⟩ := hsound
    dsimp only
    split
    · exact ⟨_, rfl, rfl⟩
    · rename_i hc
      refine ⟨_, rfl, h.take (n := l) hle rfl rfl rfl rfl rfl rfl h.winpos ⟨hst, hlen, ?_⟩, ?_, o, [], ho, ho.trans (by simp)⟩
      · exact show code < 30 by omega
      · simp only [work, rank, hs, Ctx.setBits]
        omega

theorem copyMatch_ok {dist n : Nat} (ho : ctx.outblk = some o) (hw : ctx.winpos < WINSIZE) :
    ∃ w wp bytes, copyMatch dist n ctx = some { ctx with len := -1, window := w, winpos := wp, outblk := some (o ++ bytes) } ∧
      wp < WINSIZE ∧ bytes.length = n := by
  induction n generalizing ctx o with
  | zero => exact ⟨ctx.window, ctx.winpos, [], by rw [copyMatch, List.append_nil, ← ho], hw, rfl⟩
  | succ n ih =>
    rw [copyMatch, @emitChar_eq { ctx with len := n } o ho hw, Option.bind_some]
    obtain ⟨w, wp, bytes, hc, hwp, hlen⟩ := @ih { ctx with
      len := n, window := Function.update ctx.window ctx.winpos (windowAt ctx dist), winpos := (ctx.winpos + 1) % WINSIZE
      outblk := some (o ++ [windowAt ctx dist]) } _ rfl (winpos_step _)
    refine ⟨w, wp, windowAt ctx dist :: bytes, ?_, hwp, by simp [hlen]⟩
    rw [hc]
    simp

theorem gotdistsymTurn_ok (h : Inv ctx) (ho : ctx.outblk = some o) (hs : ctx.state = .gotdistsym) :
    ∃ t, gotdistsymTurn ctx = some t ∧ TurnOk ctx t := by
  have hst := h.state
  rw [StateOk, hs] at hst
  obtain ⟨htab, hlen, hsym⟩ := hst
  have hrec : ∀ i < 30, ∃ r, distcodes[i]? = some r ∧ r.extrabits < 16 := by decide
  obtain ⟨r, hr, hx⟩ := hrec ctx.sym hsym
  simp only [gotdistsymTurn, hr, Option.bind_eq_bind, Option.bind_some]
  split
  · exact ⟨_, rfl, show ctx.nbits < 16 by omega⟩
  · rename_i hn
    rw [if_neg (by omega)]
    obtain ⟨w, wp, bytes, hc, hwp, -⟩ := @copyMatch_ok { ctx.eatbits r.extrabits with state := .inblk } o
      (r.min + ctx.lowbits r.extrabits) ctx.len.toNat ho h.winpos
    rw [hc]
    refine ⟨_, rfl, h.take (n := r.extrabits) (by omega) rfl rfl rfl rfl rfl rfl hwp htab, ?_, o, bytes, ho, rfl⟩
    simp only [work, rank, hs, Ctx.eatbits]
    omega

theorem uncompLenTurn_ok (h : Inv ctx) (ho : ctx.outblk = some o) (hs : ctx.state = .uncompLen) :
    TurnOk ctx (uncompLenTurn ctx) := by
  unfold uncompLenTurn
  split
  · assumption
  · rename_i hn
    refine ⟨h.take (n := 16) (by omega) rfl rfl rfl rfl rfl rfl h.winpos trivial, ?_, o, [], ho, ho.trans (by simp)⟩
    simp only [work, rank, hs, Ctx.eatbits]
    omega

theorem uncompNlenTurn_ok (h : Inv ctx) (ho : ctx.outblk = some o) (hs : ctx.state = .uncompNlen) :
    TurnOk ctx (uncompNlenTurn ctx) := by
  unfold uncompNlenTurn
  split
  · assumption
  · rename_i hn
    split
    · rfl
    · split
      · refine ⟨h.take (n := 16) (by omega) rfl rfl rfl rfl rfl rfl h.winpos trivial, ?_, o, [], ho, ho.trans (by simp)⟩
        simp only [work, rank, hs, Ctx.eatbits]
        omega
      · refine ⟨h.take (n := 16) (by omega) rfl rfl rfl rfl rfl rfl h.winpos trivial, ?_, o, [], ho, ho.trans (by simp)⟩
        simp only [work, rank, hs, Ctx.eatbits]
        omega

theorem uncompDataTurn_ok (h : Inv ctx) (ho : ctx.outblk = some o) (hs : ctx.state = .uncompData) :
    ∃ t, uncompDataTurn ctx = some t ∧ TurnOk ctx t := by
  unfold uncompDataTurn
  split
  · rename_i hn
    exact ⟨_, rfl, show ctx.nbits < 16 by omega⟩
  · rename_i hn
    simp only [emitChar_eq ho h.winpos, Option.bind_eq_bind, Option.bind_some]
    refine ⟨_, rfl, ?_⟩
    split
    · refine ⟨h.take (n := 8) (by omega) rfl rfl rfl rfl rfl rfl (winpos_step _) trivial, ?_, o, _, ho, rfl⟩
      simp only [work, rank, hs, Ctx.eatbits]
      omega
    · refine ⟨h.take (n := 8) (by omega) rfl rfl rfl rfl rfl rfl (winpos_step _) ?_, ?_, o, _, ho, rfl⟩
      · simp only [StateOk, Ctx.eatbits, hs]
      · simp only [work, rank, hs, Ctx.eatbits]
        omega

/-- A turn of the decoding loop, from any state that the loop can be in. -/
theorem turn_ok (h : Inv ctx) (ho : ctx.outblk = some o) : ∃ t, turn ctx = some t ∧ TurnOk ctx t := by
  unfold turn
  cases hs : ctx.state with
  | start => exact ⟨_, rfl, startTurn_ok h ho hs⟩
  | outsideblk => exact ⟨_, rfl, outsideblkTurn_ok h ho hs⟩
  | treesHdr => exact ⟨_, rfl, treesHdrTurn_ok h ho hs⟩
  | treesLenlen => exact treesLenlenTurn_ok h ho hs
  | treesLen => exact treesLenTurn_ok h ho hs
  | treesLenrep => exact treesLenrepTurn_ok h ho hs
  | inblk => exact inblkTurn_ok h ho hs
  | gotlensym => exact gotlensymTurn_ok h ho hs
  | gotlen => exact gotlenTurn_ok h ho hs
  | gotdistsym => exact gotdistsymTurn_ok h ho hs
  | uncompLen => exact ⟨_, rfl, uncompLenTurn_ok h ho hs⟩
  | uncompNlen => exact ⟨_, rfl, uncompNlenTurn_ok h ho hs⟩
  | uncompData => exact uncompDataTurn_ok h ho hs

/-! ## The loop -/

theorem Trees.congr {ctx' : Ctx} (h : Trees ctx) (h1 : ctx'.hlit = ctx.hlit) (h2 : ctx'.hdist = ctx.hdist)
    (h3 : ctx'.lengths = ctx.lengths) (h4 : ctx'.lenptr = ctx.lenptr) (h5 : ctx'.lenlentable = ctx.lenlentable) : Trees ctx' :=
  ⟨h1 ▸ h.hlit, h2 ▸ h.hdist, fun i hi hlt => by simp only [h3]; exact h.lengths i hi (h4 ▸ hlt), h5 ▸ h.table⟩

theorem push_lt (h : ctx.bits < 2 ^ ctx.nbits) (c : UInt8) : (ctx.push c).bits < 2 ^ (ctx.push c).nbits := by
  have hc : c.toNat <<< ctx.nbits < 2 ^ (ctx.nbits + 8) := by
    rw [Nat.shiftLeft_eq, Nat.add_comm, Nat.pow_add]
    exact Nat.mul_lt_mul_of_pos_right c.toNat_lt (Nat.two_pow_pos _)
  have hb : ctx.bits < 2 ^ (ctx.nbits + 8) := Nat.lt_of_lt_of_le h (Nat.pow_le_pow_right (by decide) (Nat.le_add_right _ _))
  exact Nat.or_lt_two_pow hb hc

/-- The fields of a state are none of the bit buffer's or the output's. -/
theorem StateOk.io (h : StateOk ctx) (bits nbits : Nat) (window : Nat → UInt8) (winpos : Nat) (outblk : Option (List UInt8)) :
    StateOk { ctx with bits, nbits, window, winpos, outblk } := by
  unfold StateOk at *
  dsimp only
  cases hs : ctx.state with
  | treesLen => rw [hs] at h; exact h.congr rfl rfl rfl rfl rfl
  | treesLenrep => rw [hs] at h; exact ⟨h.1.congr rfl rfl rfl rfl rfl, h.2⟩
  | _ => rw [hs] at h; exact h

theorem Inv.push (h : Inv ctx) (c : UInt8) : Inv (ctx.push c) :=
  ⟨h.staticlen, h.staticdist, h.curlen, h.curdist, push_lt h.bits c, h.winpos, h.state.io _ _ _ _ _⟩

theorem Inv.output (h : Inv ctx) (outblk : Option (List UInt8)) : Inv { ctx with outblk } :=
  ⟨h.staticlen, h.staticdist, h.curlen, h.curdist, h.bits, h.winpos, h.state.io _ _ _ _ _⟩

/-- The bit buffer between two turns, and before one. -/
structure Buffered (ctx : Ctx) : Prop where
  inv : Inv ctx
  nbits : ctx.nbits ≤ 31

theorem refill_ok (block : List UInt8) (h : Buffered ctx) :
    Buffered (refill ctx block).1 ∧ (refill ctx block).1.outblk = ctx.outblk ∧
      (24 ≤ (refill ctx block).1.nbits ∨ (refill ctx block).2 = []) ∧
      work (refill ctx block).1 + 24 * (refill ctx block).2.length = work ctx + 24 * block.length := by
  induction block generalizing ctx with
  | nil => exact ⟨h, rfl, Or.inr rfl, rfl⟩
  | cons c block ih =>
    rw [refill]
    split
    · rename_i hlt
      obtain ⟨h1, h2, h3, h4⟩ := ih (show Buffered (ctx.push c) from ⟨h.inv.push c, show ctx.nbits + 8 ≤ 31 by omega⟩)
      refine ⟨h1, h2, h3, h4.trans ?_⟩
      simp only [work, Ctx.push, List.length_cons]
      omega
    · rename_i hge
      exact ⟨h, rfl, Or.inl (by dsimp only; omega), rfl⟩

theorem rank_le (s : State) : rank s ≤ 2 := by cases s <;> decide

theorem Buffered.next {ctx' : Ctx} (h : Buffered ctx) (ht : TurnOk ctx (.next ctx')) : Buffered ctx' := by
  refine ⟨ht.1, ?_⟩
  have hw := ht.2.1
  have := rank_le ctx.state
  have := h.nbits
  simp only [work] at hw
  omega

/-- The contexts that a call takes its turns in, the bit buffer having been refilled. -/
inductive Passes : Ctx → List UInt8 → Ctx → Prop
  | here {ctx : Ctx} {block : List UInt8} (h : ¬ (block = [] ∧ ctx.nbits = 0)) : Passes ctx block (refill ctx block).1
  | later {ctx ctx' c : Ctx} {block : List UInt8} (h : ¬ (block = [] ∧ ctx.nbits = 0))
    (ht : turn (refill ctx block).1 = some (.next ctx')) (hp : Passes ctx' (refill ctx block).2 c) : Passes ctx block c

/-- Every turn of a call is taken in a context that keeps the invariant, with the output
    so far in it. -/
theorem Passes.buffered {block : List UInt8} {c : Ctx} (hp : Passes ctx block c) (h : Buffered ctx) (ho : ctx.outblk = some o) :
    Buffered c ∧ ∃ more, c.outblk = some (o ++ more) := by
  induction hp generalizing o with
  | here _ =>
    obtain ⟨h1, h2, -⟩ := refill_ok _ h
    exact ⟨h1, [], by rw [h2, ho, List.append_nil]⟩
  | later _ ht _ ih =>
    obtain ⟨h1, h2, -⟩ := refill_ok _ h
    obtain ⟨t, ht', hok⟩ := turn_ok h1.inv (h2.trans ho)
    cases ht.symm.trans ht'
    obtain ⟨o1, more, h3, h4⟩ := hok.2.2
    cases (h2.trans ho).symm.trans h3
    obtain ⟨h5, more', h6⟩ := ih (h1.next hok) h4
    exact ⟨h5, more ++ more', by rw [h6, List.append_assoc]⟩

/-- The loop comes to an end: it gives up in the turn of one of the contexts it passes, or
    it finishes with the bytes all taken and the invariant kept. -/
theorem loop_ok (fuel : Nat) (block : List UInt8) (h : Buffered ctx) (ho : ctx.outblk = some o)
    (hf : work ctx + 24 * block.length < fuel) :
    ∃ c ok, loop fuel ctx block = some (c, ok) ∧
      (ok = true → Buffered c) ∧ (∃ more, c.outblk = some (o ++ more)) ∧
      (ok = false ↔ ∃ p c', Passes ctx block p ∧ turn p = some (.decodeError c')) := by
  induction fuel generalizing ctx block o with
  | zero => omega
  | succ fuel ih =>
    rw [loop]
    split
    · rename_i hend
      refine ⟨ctx, true, rfl, fun _ => h, ⟨[], by rw [ho, List.append_nil]⟩, nofun, ?_⟩
      rintro ⟨p, c', hp, -⟩
      cases hp with
      | here hno => exact absurd hend hno
      | later hno => exact absurd hend hno
    · rename_i hgo
      obtain ⟨h1, h2, -, h4⟩ := refill_ok block h
      have ho1 := h2.trans ho
      obtain ⟨t, ht, hok⟩ := turn_ok h1.inv ho1
      simp only [ht]
      cases t with
      | finished =>
        refine ⟨_, true, rfl, fun _ => h1, ⟨[], by rw [ho1, List.append_nil]⟩, nofun, ?_⟩
        rintro ⟨p, c', hp, hd⟩
        cases hp with
        | here _ => cases hd.symm.trans ht
        | later _ ht' => cases ht'.symm.trans ht
      | decodeError c' =>
        have he : c'.outblk = some o := hok.trans ho1
        exact ⟨_, false, rfl, nofun, ⟨[], by rw [he, List.append_nil]⟩, fun _ => ⟨_, _, .here hgo, ht⟩, fun _ => rfl⟩
      | next ctx' =>
        obtain ⟨o1, more, h5, h6⟩ := hok.2.2
        cases ho1.symm.trans h5
        have hw := hok.2.1
        obtain ⟨c, ok, hl, htrue, ⟨more', h7⟩, hfalse⟩ := ih (refill ctx block).2 (h1.next hok) h6 (by omega)
        refine ⟨c, ok, hl, htrue, ⟨more ++ more', by rw [h7, List.append_assoc]⟩, hfalse.trans ⟨?_, ?_⟩⟩
        · rintro ⟨p, c', hp, hd⟩
          exact ⟨p, c', .later hgo ht hp, hd⟩
        · rintro ⟨p, c', hp, hd⟩
          cases hp with
          | here _ => cases hd.symm.trans ht
          | later _ ht' hp' =>
            cases ht'.symm.trans ht
            exact ⟨p, c', hp', hd⟩

/-! ## Calls -/

/-- A context no call on which has failed. -/
structure Idle (ctx : Ctx) : Prop where
  buffered : Buffered ctx
  outblk : ctx.outblk = none

theorem Buffered.output (h : Buffered ctx) (outblk : Option (List UInt8)) : Buffered { ctx with outblk } :=
  ⟨h.inv.output outblk, h.nbits⟩

theorem staticLengths_lt : ∀ l ∈ staticLengths, l < MAXCODELEN := by
  intro l hl
  simp only [staticLengths, List.mem_append, List.mem_replicate] at hl
  unfold MAXCODELEN
  omega

theorem staticLengths_length : staticLengths.length = MAXSYMS := by
  simp only [staticLengths, List.length_append, List.length_replicate, MAXSYMS]

/-- A fresh context, its static tables being given. -/
def freshWith (raw : Ctx) (staticlentable staticdisttable : Table) : Ctx := { raw with
  staticlentable, staticdisttable
  state := .start
  currlentable := none, currdisttable := none, lenlentable := none
  bits := 0, nbits := 0, winpos := 0, outblk := none }

theorem decompressInit_total : ∃ a b, ∀ raw, decompressInit raw = some (freshWith raw a b) ∧ Idle (freshWith raw a b) := by
  have h32 : (List.replicate 32 5).length ≤ MAXSYMS := by
    rw [List.length_replicate]
    decide
  obtain ⟨lentab, hl, hgl⟩ := mktable_good staticLengths_lt (Nat.le_of_eq staticLengths_length)
  obtain ⟨disttab, hd, hgd⟩ := mktable_good (show ∀ l ∈ List.replicate 32 5, l < MAXCODELEN from fun l hl => by
    rw [List.eq_of_mem_replicate hl]
    decide) h32
  refine ⟨lentab, disttab, fun raw => ⟨?_, ⟨⟨?_, ?_, (fun _ ht => nomatch ht), (fun _ ht => nomatch ht), Nat.one_pos, ?_, trivial⟩,
    Nat.zero_le 31⟩, rfl⟩⟩
  · rw [decompressInit, hl, hd]
    rfl
  · exact hgl.mono (Nat.le_of_eq staticLengths_length)
  · exact hgd.mono h32
  · exact show 0 < WINSIZE by decide

/-- A call on such a context comes back: it fails if and only if one of its turns gives up.
    It then leaves its output behind, and otherwise such a context again. -/
theorem decompressBlock_ok (block : List UInt8) (h : Idle ctx) :
    ∃ c r, decompressBlock ctx block = some (c, r) ∧ (r.isSome → Idle c) ∧ (r = none → c.outblk ≠ none) ∧
      (r = none ↔ ∃ p c', Passes { ctx with outblk := some [] } block p ∧ turn p = some (.decodeError c')) := by
  have hb : Buffered { ctx with outblk := some [] } := h.buffered.output (some [])
  have hrank := rank_le ctx.state
  obtain ⟨c, ok, hl, htrue, ⟨more, hout⟩, hfalse⟩ := loop_ok (turnBound ctx block) block hb rfl (by
    simp only [work, turnBound]
    omega)
  rw [decompressBlock, h.outblk, hl]
  cases ok with
  | false =>
    refine ⟨c, none, rfl, nofun, fun _ hn => ?_, fun _ => hfalse.mp rfl, fun _ => rfl⟩
    rw [hout] at hn
    cases hn
  | true =>
    refine ⟨{ c with outblk := none }, some more, by simp [hout], fun _ => ⟨(htrue rfl).output none, rfl⟩, nofun, nofun,
      fun hp => ?_⟩
    cases hfalse.mpr hp

end Putty.Zlib
