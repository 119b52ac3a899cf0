/-
  Putty.Zlib.Output — what a turn puts out, apart from what it decides.

  A turn emits nothing, a byte of the stream, or a copy of what the window holds. What it
  emits of these, and everything else that it does, depends neither on the window nor on
  the output so far (`turn_acts`): these are read by a copy only.
-/

import Putty.Zlib.Decoder

namespace Putty.Zlib

/-- What a turn puts out. -/
inductive Emission where
  | nothing
  | byte (c : UInt8)
  | copy (dist len : Nat)
  deriving DecidableEq

def Emission.isCopy : Emission → Bool
  | .copy _ _ => true
  | _ => false

def Emission.run : Emission → Ctx → Option Ctx
  | .nothing, ctx => some ctx
  | .byte c, ctx => emitChar ctx c
  | .copy dist len, ctx => copyMatch dist len ctx

/-- A turn but for what it puts out. -/
inductive Action where
  | finished
  | decodeError (ctx : Ctx)
  | next (ctx : Ctx) (e : Emission)

def Ctx.withOut (ctx : Ctx) (window : Nat → UInt8) (winpos : Nat) (outblk : Option (List UInt8)) : Ctx :=
  { ctx with window, winpos, outblk }

def Turn.withOut (t : Turn) (window : Nat → UInt8) (winpos : Nat) (outblk : Option (List UInt8)) : Turn :=
  match t with
  | .finished => .finished
  | .decodeError ctx => .decodeError (ctx.withOut window winpos outblk)
  | .next ctx => .next (ctx.withOut window winpos outblk)

/-- The turn that an action comes to from a window and an output. -/
def Action.perform (window : Nat → UInt8) (winpos : Nat) (outblk : Option (List UInt8)) : Action → Option Turn
  | .finished => some .finished
  | .decodeError ctx => some (.decodeError (ctx.withOut window winpos outblk))
  | .next ctx e => (e.run (ctx.withOut window winpos outblk)).map .next

/-- Whatever the window and the output are, the turn comes to one action, which copies
    from the window only once a distance has been read. -/
def Acts (turn : Ctx → Option Turn) (ctx : Ctx) : Prop :=
  ∃ a : Option Action, (∀ w p o, turn (ctx.withOut w p o) = a.bind (Action.perform w p o)) ∧
    (ctx.state ≠ .gotdistsym → ∀ base e, a = some (.next base e) → e.isCopy = false)

variable {ctx : Ctx} {w : Nat → UInt8} {p : Nat} {o : Option (List UInt8)}

theorem acts_of_quiet {turn : Ctx → Option Turn} (h : ∀ w p o, turn (ctx.withOut w p o) = (turn ctx).map (·.withOut w p o)) :
    Acts turn ctx := by
  refine ⟨(turn ctx).map fun
    | .finished => .finished
    | .decodeError c => .decodeError c
    | .next c => .next c .nothing, fun w p o => ?_, fun _ base e he => ?_⟩
  · rw [h]
    cases turn ctx with
    | none => rfl
    | some t => cases t <;> rfl
  · cases h : turn ctx with
    | none => rw [h] at he; cases he
    | some t =>
      rw [h] at he
      cases t with
      | finished => cases he
      | decodeError c => cases he
      | next c => cases he; rfl

/-! ## Turns that put nothing out -/

theorem startTurn_withOut : startTurn (ctx.withOut w p o) = (startTurn ctx).withOut w p o := by
  unfold startTurn
  by_cases hn : ctx.nbits < 16
  · rw [if_pos hn, if_pos (by exact hn)]
    rfl
  · rw [if_neg hn, if_neg (by exact hn)]
    by_cases hh : headerOk (header ctx)
    · rw [if_pos hh, if_pos (by exact hh)]
      rfl
    · rw [if_neg hh, if_neg (by exact hh)]
      rfl

theorem outsideblkTurn_withOut : outsideblkTurn (ctx.withOut w p o) = (outsideblkTurn ctx).withOut w p o := by
  unfold outsideblkTurn
  by_cases hn : ctx.nbits < 3
  · rw [if_pos hn, if_pos (by exact hn)]
    rfl
  · rw [if_neg hn, if_neg (by exact hn)]
    have hb : blktype (ctx.withOut w p o) = blktype ctx := rfl
    rw [hb]
    dsimp only
    split <;> rfl

theorem treesHdrTurn_withOut : treesHdrTurn (ctx.withOut w p o) = (treesHdrTurn ctx).withOut w p o := by
  unfold treesHdrTurn
  by_cases hn : ctx.nbits < 5 + 5 + 4
  · rw [if_pos hn, if_pos (by exact hn)]
    rfl
  · rw [if_neg hn, if_neg (by exact hn)]
    rfl

theorem readLenlen_withOut : readLenlen (ctx.withOut w p o) = (readLenlen ctx).map (·.withOut w p o) := by
  show (lenlenmap[ctx.lenptr]?.bind fun i => if h : i < 19 then _ else none) = (lenlenmap[ctx.lenptr]?.bind _).map _
  cases lenlenmap[ctx.lenptr]? with
  | none => rfl
  | some i =>
    simp only [Option.bind_some]
    split <;> rfl

theorem readLenlens_withOut {left : Nat} : readLenlens left (ctx.withOut w p o) = (readLenlens left ctx).map (·.withOut w p o) := by
  induction left generalizing ctx with
  | zero => rfl
  | succ left ih =>
    rw [readLenlens, readLenlens]
    by_cases hn : ctx.nbits < 3
    · rw [if_pos hn, if_pos (by exact hn)]
      rfl
    · rw [if_neg hn, if_neg (by exact hn), readLenlen_withOut]
      cases readLenlen ctx with
      | none => rfl
      | some c => exact ih

theorem lenlensRead_withOut : lenlensRead (ctx.withOut w p o) = (lenlensRead ctx).map (·.withOut w p o) := by
  unfold lenlensRead
  by_cases hp : ctx.lenptr = ctx.hclen
  · rw [if_pos hp, if_pos (by exact hp)]
    show (mktable ctx.lenlen.toList).bind _ = ((mktable ctx.lenlen.toList).bind _).map _
    cases mktable ctx.lenlen.toList <;> rfl
  · rw [if_neg hp, if_neg (by exact hp)]
    rfl

theorem lenlenTurn_withOut {left : Nat} : lenlenTurn left (ctx.withOut w p o) = (lenlenTurn left ctx).map (·.withOut w p o) := by
  unfold lenlenTurn
  by_cases hn : ctx.nbits < 3
  · rw [if_pos hn, if_pos (by exact hn)]
    rfl
  · rw [if_neg hn, if_neg (by exact hn), readLenlens_withOut]
    cases readLenlens left ctx with
    | none => rfl
    | some c =>
      simp only [Option.map_some, Option.bind_some, lenlensRead_withOut]
      cases lenlensRead c <;> rfl

theorem buildTables_withOut : buildTables (ctx.withOut w p o) = (buildTables ctx).map (·.withOut w p o) := by
  unfold buildTables
  by_cases hb : ctx.hlit + ctx.hdist ≤ 288 + 32
  · rw [if_pos hb, if_pos (by exact hb)]
    show (mktable (ctx.lengths.toList.take ctx.hlit)).bind (fun lentab =>
      (mktable ((ctx.lengths.toList.drop ctx.hlit).take ctx.hdist)).bind _) = Option.map _ (Option.bind _ fun lentab =>
      (mktable ((ctx.lengths.toList.drop ctx.hlit).take ctx.hdist)).bind _)
    cases mktable (ctx.lengths.toList.take ctx.hlit) with
    | none => rfl
    | some lentab => cases mktable ((ctx.lengths.toList.drop ctx.hlit).take ctx.hdist) <;> rfl
  · rw [if_neg hb, if_neg (by exact hb)]
    rfl

theorem setLength_withOut {len : Nat} : setLength (ctx.withOut w p o) len = (setLength ctx len).map (·.withOut w p o) := by
  unfold setLength
  by_cases hp : ctx.lenptr < 288 + 32
  · rw [dif_pos hp, dif_pos (by exact hp)]
    rfl
  · rw [dif_neg hp, dif_neg (by exact hp)]
    rfl

theorem repeatLength_withOut {rep : Nat} : repeatLength rep (ctx.withOut w p o) = (repeatLength rep ctx).map (·.withOut w p o) := by
  induction rep generalizing ctx with
  | zero => rfl
  | succ rep ih =>
    rw [repeatLength, repeatLength]
    by_cases hp : ctx.lenptr < ctx.hlit + ctx.hdist
    · rw [if_pos hp, if_pos (by exact hp)]
      show (setLength (ctx.withOut w p o) ctx.lenrep).bind _ = _
      rw [setLength_withOut]
      cases setLength ctx ctx.lenrep with
      | none => rfl
      | some c => exact ih
    · rw [if_neg hp, if_neg (by exact hp)]
      rfl

theorem treesLenTurn_withOut : treesLenTurn (ctx.withOut w p o) = (treesLenTurn ctx).map (·.withOut w p o) := by
  unfold treesLenTurn
  by_cases hp : ctx.hlit + ctx.hdist ≤ ctx.lenptr
  · rw [if_pos hp, if_pos (by exact hp), buildTables_withOut]
    cases buildTables ctx <;> rfl
  · rw [if_neg hp, if_neg (by exact hp)]
    show (ctx.lenlentable.bind fun tab => (huflookup MAXCODELEN ctx.bits ctx.nbits tab).bind _) =
      Option.map _ (ctx.lenlentable.bind fun tab => (huflookup MAXCODELEN ctx.bits ctx.nbits tab).bind _)
    cases ctx.lenlentable with
    | none => rfl
    | some tab =>
      simp only [Option.bind_some]
      cases huflookup MAXCODELEN ctx.bits ctx.nbits tab with
      | none => rfl
      | some r =>
        cases r with
        | short => rfl
        | missing => rfl
        | found code bits nbits =>
          simp only [Option.bind_some]
          have hset : (ctx.withOut w p o).setBits bits nbits = (ctx.setBits bits nbits).withOut w p o := rfl
          rw [hset]
          by_cases hc : code < 16
          · rw [if_pos hc, if_pos hc, setLength_withOut]
            cases setLength (ctx.setBits bits nbits) code <;> rfl
          · rw [if_neg hc, if_neg hc]
            show (repeated (ctx.setBits bits nbits) code).bind _ = Option.map _ ((repeated (ctx.setBits bits nbits) code).bind _)
            cases repeated (ctx.setBits bits nbits) code <;> rfl

theorem treesLenrepTurn_withOut : treesLenrepTurn (ctx.withOut w p o) = (treesLenrepTurn ctx).map (·.withOut w p o) := by
  unfold treesLenrepTurn
  by_cases hn : ctx.nbits < ctx.lenextrabits
  · rw [if_pos hn, if_pos (by exact hn)]
    rfl
  · rw [if_neg hn, if_neg (by exact hn)]
    show (repeatLength (ctx.lenaddon + ctx.lowbits ctx.lenextrabits) ((ctx.eatbits ctx.lenextrabits).withOut w p o)).bind _ =
      Option.map _ ((repeatLength (ctx.lenaddon + ctx.lowbits ctx.lenextrabits) (ctx.eatbits ctx.lenextrabits)).bind _)
    rw [repeatLength_withOut]
    cases repeatLength (ctx.lenaddon + ctx.lowbits ctx.lenextrabits) (ctx.eatbits ctx.lenextrabits) <;> rfl

theorem gotlensymTurn_withOut : gotlensymTurn (ctx.withOut w p o) = (gotlensymTurn ctx).map (·.withOut w p o) := by
  unfold gotlensymTurn
  by_cases hs : 257 ≤ ctx.sym
  · rw [if_pos hs, if_pos (by exact hs)]
    show (lencodes[ctx.sym - 257]?.bind _) = Option.map _ (lencodes[ctx.sym - 257]?.bind _)
    cases lencodes[ctx.sym - 257]? with
    | none => rfl
    | some r =>
      simp only [Option.bind_some]
      by_cases hn : ctx.nbits < r.extrabits
      · rw [if_pos hn, if_pos (by exact hn)]
        rfl
      · rw [if_neg hn, if_neg (by exact hn)]
        rfl
  · rw [if_neg hs, if_neg (by exact hs)]
    rfl

theorem gotlenTurn_withOut : gotlenTurn (ctx.withOut w p o) = (gotlenTurn ctx).map (·.withOut w p o) := by
  unfold gotlenTurn
  show (ctx.disttable.bind fun tab => (huflookup MAXCODELEN ctx.bits ctx.nbits tab).bind _) =
    Option.map _ (ctx.disttable.bind fun tab => (huflookup MAXCODELEN ctx.bits ctx.nbits tab).bind _)
  cases ctx.disttable with
  | none => rfl
  | some tab =>
    simp only [Option.bind_some]
    cases huflookup MAXCODELEN ctx.bits ctx.nbits tab with
    | none => rfl
    | some r =>
      cases r with
      | short => rfl
      | missing => rfl
      | found code bits nbits =>
        simp only [Option.bind_some]
        split <;> rfl

theorem uncompLenTurn_withOut : uncompLenTurn (ctx.withOut w p o) = (uncompLenTurn ctx).withOut w p o := by
  unfold uncompLenTurn
  by_cases hn : ctx.nbits < 16
  · rw [if_pos hn, if_pos (by exact hn)]
    rfl
  · rw [if_neg hn, if_neg (by exact hn)]
    rfl

theorem uncompNlenTurn_withOut : uncompNlenTurn (ctx.withOut w p o) = (uncompNlenTurn ctx).withOut w p o := by
  unfold uncompNlenTurn
  by_cases hn : ctx.nbits < 16
  · rw [if_pos hn, if_pos (by exact hn)]
    rfl
  · rw [if_neg hn, if_neg (by exact hn)]
    by_cases hc : ctx.uncomplen ≠ ctx.lowbits 16 ^^^ 0xFFFF
    · rw [if_pos hc, if_pos (by exact hc)]
      rfl
    · rw [if_neg hc, if_neg (by exact hc)]
      by_cases hz : ctx.uncomplen = 0
      · rw [if_pos hz, if_pos (by exact hz)]
        rfl
      · rw [if_neg hz, if_neg (by exact hz)]
        rfl

/-! ## Turns that emit -/

theorem inblkTurn_acts (ctx : Ctx) : Acts inblkTurn ctx := by
  unfold Acts inblkTurn
  show ∃ a : Option Action, (∀ w p o, (ctx.lentable.bind fun tab => (huflookup MAXCODELEN ctx.bits ctx.nbits tab).bind _) = _) ∧ _
  cases ctx.lentable with
  | none => exact ⟨none, fun w p o => rfl, fun _ _ _ he => by cases he⟩
  | some tab =>
    simp only [Option.bind_some]
    cases huflookup MAXCODELEN ctx.bits ctx.nbits tab with
    | none => exact ⟨none, fun w p o => rfl, fun _ _ _ he => by cases he⟩
    | some r =>
      cases r with
      | short => exact ⟨some .finished, fun w p o => rfl, fun _ _ _ he => by cases he⟩
      | missing => exact ⟨some (.decodeError ctx), fun w p o => rfl, fun _ _ _ he => by cases he⟩
      | found code bits nbits =>
        simp only [Option.bind_some]
        by_cases h1 : code < 256
        · simp only [if_pos h1]
          exact ⟨some (.next (ctx.setBits bits nbits) (.byte (UInt8.ofNat code))), fun w p o => rfl, fun _ _ _ he => by cases he; rfl⟩
        · simp only [if_neg h1]
          by_cases h2 : code = 256
          · simp only [if_pos h2]
            exact ⟨some (.next { ctx.setBits bits nbits with
              state := .outsideblk
              currlentable := Ctx.freeCurrent ctx.currlentable
              currdisttable := Ctx.freeCurrent ctx.currdisttable } .nothing), fun w p o => rfl, fun _ _ _ he => by cases he; rfl⟩
          · simp only [if_neg h2]
            by_cases h3 : code < 286
            · simp only [if_pos h3]
              exact ⟨some (.next { ctx.setBits bits nbits with state := .gotlensym, sym := code } .nothing), fun w p o => rfl,
                fun _ _ _ he => by cases he; rfl⟩
            · simp only [if_neg h3]
              exact ⟨some (.decodeError (ctx.setBits bits nbits)), fun w p o => rfl, fun _ _ _ he => by cases he⟩

/-- The copy that a distance asks for. -/
def gotdistsymAction (ctx : Ctx) : Option Action :=
  distcodes[ctx.sym]?.bind fun rec =>
    if ctx.nbits < rec.extrabits then some .finished
    else if ctx.len < 0 then none
    else some (.next { ctx.eatbits rec.extrabits with state := .inblk }
      (.copy (rec.min + ctx.lowbits rec.extrabits) ctx.len.toNat))

theorem gotdistsymTurn_withOut : gotdistsymTurn (ctx.withOut w p o) = (gotdistsymAction ctx).bind (Action.perform w p o) := by
  unfold gotdistsymTurn gotdistsymAction
  show (distcodes[ctx.sym]?.bind _) = _
  cases distcodes[ctx.sym]? with
  | none => rfl
  | some r =>
    simp only [Option.bind_some]
    by_cases hn : ctx.nbits < r.extrabits
    · rw [if_pos hn, if_pos (by exact hn)]
      rfl
    · rw [if_neg hn, if_neg (by exact hn)]
      by_cases hl : ctx.len < 0
      · rw [if_pos hl, if_pos (by exact hl)]
        rfl
      · rw [if_neg hl, if_neg (by exact hl)]
        show (copyMatch (r.min + ctx.lowbits r.extrabits) ctx.len.toNat _).bind _ = Option.map _ (copyMatch _ _ _)
        rw [Option.map_eq_bind]
        rfl

/-- The byte of an uncompressed block that a turn puts out. -/
def uncompDataAction (ctx : Ctx) : Action :=
  if ctx.nbits < 8 then .finished
  else
    let ctx1 := { ctx.eatbits 8 with uncomplen := ctx.uncomplen - 1 }
    .next (if ctx1.uncomplen = 0 then { ctx1 with state := .outsideblk } else ctx1) (.byte (UInt8.ofNat (ctx.lowbits 8)))

theorem uncompDataTurn_withOut : uncompDataTurn (ctx.withOut w p o) = (uncompDataAction ctx).perform w p o := by
  unfold uncompDataTurn uncompDataAction
  by_cases hn : ctx.nbits < 8
  · rw [if_pos hn, if_pos (by exact hn)]
    rfl
  · rw [if_neg hn, if_neg (by exact hn)]
    dsimp only [Action.perform, Emission.run]
    have hlow : (ctx.withOut w p o).lowbits 8 = ctx.lowbits 8 := rfl
    rw [hlow]
    unfold emitChar
    by_cases hz : ctx.uncomplen - 1 = 0
    · rw [if_pos hz]
      by_cases hw : p < WINSIZE
      · rw [if_pos (by exact hw), if_pos (by exact hw)]
        cases o with
        | none => rfl
        | some o =>
          simp only [Ctx.withOut, Ctx.eatbits, Option.bind_eq_bind, Option.bind_some, hz, if_true]
          rfl
      · rw [if_neg (by exact hw), if_neg (by exact hw)]
        rfl
    · rw [if_neg hz]
      by_cases hw : p < WINSIZE
      · rw [if_pos (by exact hw), if_pos (by exact hw)]
        cases o with
        | none => rfl
        | some o =>
          simp only [Ctx.withOut, Ctx.eatbits, Option.bind_eq_bind, Option.bind_some, hz, if_false]
          rfl
      · rw [if_neg (by exact hw), if_neg (by exact hw)]
        rfl

/-! ## All turns -/

/-- A turn that reads at most `left` of the lengths of lengths. -/
def turnOf (left : Ctx → Nat) (ctx : Ctx) : Option Turn :=
  if ctx.state = .treesLenlen then lenlenTurn (left ctx) ctx else turn ctx

theorem turnOf_acts (left : Ctx → Nat) (hleft : ∀ ctx w p o, left (Ctx.withOut ctx w p o) = left ctx) (ctx : Ctx) :
    Acts (turnOf left) ctx := by
  have hst : ∀ w p o, (ctx.withOut w p o).state = ctx.state := fun _ _ _ => rfl
  by_cases hs : ctx.state = .treesLenlen
  · refine acts_of_quiet fun w p o => ?_
    simp only [turnOf, hst, hs, if_true, hleft, lenlenTurn_withOut]
  · have hof : ∀ w p o, turnOf left (ctx.withOut w p o) = turn (ctx.withOut w p o) := fun w p o => by
      simp only [turnOf, hst, hs, if_false]
    have hact : Acts turn ctx := by
      cases h : ctx.state with
      | start =>
        refine acts_of_quiet fun w p o => ?_
        simp only [turn, hst, h, startTurn_withOut, Option.map_some]
      | outsideblk =>
        refine acts_of_quiet fun w p o => ?_
        simp only [turn, hst, h, outsideblkTurn_withOut, Option.map_some]
      | treesHdr =>
        refine acts_of_quiet fun w p o => ?_
        simp only [turn, hst, h, treesHdrTurn_withOut, Option.map_some]
      | treesLenlen => exact absurd h hs
      | treesLen =>
        refine acts_of_quiet fun w p o => ?_
        simp only [turn, hst, h, treesLenTurn_withOut]
      | treesLenrep =>
        refine acts_of_quiet fun w p o => ?_
        simp only [turn, hst, h, treesLenrepTurn_withOut]
      | inblk =>
        obtain ⟨a, ha, hcopy⟩ := inblkTurn_acts ctx
        exact ⟨a, fun w p o => by simp only [turn, hst, h, ha], hcopy⟩
      | gotlensym =>
        refine acts_of_quiet fun w p o => ?_
        simp only [turn, hst, h, gotlensymTurn_withOut]
      | gotlen =>
        refine acts_of_quiet fun w p o => ?_
        simp only [turn, hst, h, gotlenTurn_withOut]
      | gotdistsym =>
        exact ⟨gotdistsymAction ctx, fun w p o => by simp only [turn, hst, h, gotdistsymTurn_withOut], fun hne => absurd h hne⟩
      | uncompLen =>
        refine acts_of_quiet fun w p o => ?_
        simp only [turn, hst, h, uncompLenTurn_withOut, Option.map_some]
      | uncompNlen =>
        refine acts_of_quiet fun w p o => ?_
        simp only [turn, hst, h, uncompNlenTurn_withOut, Option.map_some]
      | uncompData =>
        refine ⟨some (uncompDataAction ctx), fun w p o => by simp only [turn, hst, h, uncompDataTurn_withOut, Option.bind_some],
          fun _ base e he => ?_⟩
        unfold uncompDataAction at he
        split at he
        · cases he
        · cases he
          rfl
    obtain ⟨a, ha, hcopy⟩ := hact
    exact ⟨a, fun w p o => (hof w p o).trans (ha w p o), hcopy⟩

theorem turn_eq_turnOf (ctx : Ctx) : turn ctx = turnOf (fun c => c.hclen - c.lenptr) ctx := by
  unfold turnOf
  split
  · rename_i hs
    rw [turn, hs]
    exact treesLenlenTurn_eq ctx
  · rfl

theorem turn_acts (ctx : Ctx) : Acts turn ctx := by
  obtain ⟨a, ha, hcopy⟩ := turnOf_acts (fun c => c.hclen - c.lenptr) (fun _ _ _ _ => rfl) ctx
  exact ⟨a, fun w p o => (turn_eq_turnOf _).trans (ha w p o), hcopy⟩

end Putty.Zlib
