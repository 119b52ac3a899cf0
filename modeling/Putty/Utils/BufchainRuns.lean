/-
  Putty.Utils.BufchainRuns — the byte queue of `utils.c` with its granules, its stored
  size and its integer types (bufchain_*).

  A granule is filled up to bufend and read from bufpos. `bufchain_consume` and
  `bufchain_fetch` count what is left in a size_t, but copy it into an int first, so
  from 2^31 bytes on the piece they take is negative or zero: the head's position is
  moved before its granule, the copy gets a huge size, or nothing moves for ever.

  Proved: over every run of operations that are called as they may be, the bytes read
  are those added, in order, the stored size is the number of bytes held and a prefix is
  never empty, exactly when no operation takes 2^31 bytes or more (`bufchain_fifo_iff`).
  For shorter lengths `Utils.Bufchain` is the same queue without the bookkeeping.
-/

import Putty.Utils.Bufchain

namespace Putty.Utils.Fifo

/-- Offsets count from the end of the granule's header. -/
structure BufGranule where
  /-- The bytes written, up to bufend. -/
  buf : List UInt8
  bufpos : Nat
  bufmax : Nat
  deriving DecidableEq

structure BufchainTag where
  granules : List BufGranule
  buffersize : Nat
  deriving DecidableEq

namespace BufGranule

/-- The bytes from bufpos to bufend. -/
def held (g : BufGranule) : List UInt8 := g.buf.drop g.bufpos

end BufGranule

/-- `int remlen = len`. -/
def intOfSize (len : Nat) : Int :=
  if len % 4294967296 < 2147483648 then ((len % 4294967296 : Nat) : Int) else (len % 4294967296 : Nat) - 4294967296

def bufchainInit : BufchainTag := ⟨[], 0⟩

def bufchainClear (_ : BufchainTag) : BufchainTag := ⟨[], 0⟩

def bufchainSize (ch : BufchainTag) : Nat := ch.buffersize

/-! ## Adding -/

/-- Copy into the tail's spare room; what is left over comes second. -/
def fillTail : List BufGranule → List UInt8 → List BufGranule × List UInt8
  | [], data => ([], data)
  | [tail], data =>
    if tail.buf.length < tail.bufmax then
      let copylen := min data.length (tail.bufmax - tail.buf.length)
      ([{ tail with buf := tail.buf ++ data.take copylen }], data.drop copylen)
    else ([tail], data)
  | g :: g' :: gs, data => (g :: (fillTail (g' :: gs) data).1, (fillTail (g' :: gs) data).2)

def newGranule (len : Nat) : BufGranule := ⟨[], 0, max (granuleHeader + len) bufferMinGranule - granuleHeader⟩

/-- The loop goes round a second time only to fill the granule it has just made, which holds the rest. -/
def addLoop (granules : List BufGranule) (data : List UInt8) : List BufGranule :=
  let (granules, rest) := fillTail granules data
  if rest = [] then granules else (fillTail (granules ++ [newGranule rest.length]) rest).1

def bufchainAdd (ch : BufchainTag) (data : List UInt8) : BufchainTag :=
  if data.length = 0 then ch else ⟨addLoop ch.granules data, ch.buffersize + data.length⟩

/-! ## Taking -/

/-- The bytes at the head that lie together; a crash on an empty chain. -/
def bufchainPrefix (ch : BufchainTag) : Option (List UInt8) := ch.granules.head?.map BufGranule.held

def consumeLoop (granules : List BufGranule) (buffersize len : Nat) : Option BufchainTag :=
  if len = 0 then some ⟨granules, buffersize⟩
  else match granules with
    | [] => none
    | g :: gs =>
      let remlen := intOfSize len
      if (g.held.length : Int) ≤ remlen then consumeLoop gs (buffersize - g.held.length) (len - g.held.length)
      else if 0 < remlen then
        consumeLoop ({ g with bufpos := g.bufpos + remlen.toNat } :: gs) (buffersize - remlen.toNat)
          (len - remlen.toNat)
      -- zero: the same again for ever; negative: bufpos leaves its granule
      else none
  termination_by (granules.length, len)

def bufchainConsume (ch : BufchainTag) (len : Nat) : Option BufchainTag :=
  if len ≤ ch.buffersize then consumeLoop ch.granules ch.buffersize len else none

def fetchLoop : List BufGranule → Nat → Option (List UInt8)
  | _, 0 => some []
  | [], _ + 1 => none
  | g :: gs, len + 1 =>
    let remlen := min (g.held.length : Int) (intOfSize (len + 1))
    -- memcpy's size is unsigned
    if remlen < 0 then none
    else (fetchLoop gs (len + 1 - remlen.toNat)).map (g.held.take remlen.toNat ++ ·)

def bufchainFetch (ch : BufchainTag) (len : Nat) : Option (List UInt8) :=
  if len ≤ ch.buffersize then fetchLoop ch.granules len else none

def bufchainFetchConsume (ch : BufchainTag) (len : Nat) : Option (List UInt8 × BufchainTag) := do
  let data ← bufchainFetch ch len
  let ch ← bufchainConsume ch len
  pure (data, ch)

/-- The returned Bool says whether the bytes were there. -/
def bufchainTryFetchConsume (ch : BufchainTag) (len : Nat) : Option (Bool × List UInt8 × BufchainTag) :=
  if len ≤ ch.buffersize then (bufchainFetchConsume ch len).map fun r => (true, r) else some (false, [], ch)

def bufchainFetchConsumeUpTo (ch : BufchainTag) (len : Nat) : Option (List UInt8 × BufchainTag) :=
  let len := min len ch.buffersize
  if len = 0 then some ([], ch) else bufchainFetchConsume ch len

/-! ## The queue -/

/-- The bytes in the chain. -/
def contents (granules : List BufGranule) : List UInt8 := granules.flatMap BufGranule.held

/-- Between two calls no granule is empty or overfull. -/
def Sound (granules : List BufGranule) : Prop := ∀ g ∈ granules, g.bufpos < g.buf.length ∧ g.buf.length ≤ g.bufmax

/-- The chain holds the queue `q`. -/
structure Holds (ch : BufchainTag) (q : List UInt8) : Prop where
  sound : Sound ch.granules
  contents_eq : contents ch.granules = q
  size : ch.buffersize = q.length

@[simp] theorem contents_nil : contents [] = [] := rfl

@[simp] theorem contents_cons (g : BufGranule) (gs : List BufGranule) : contents (g :: gs) = g.held ++ contents gs := rfl

@[simp] theorem contents_append (gs gs' : List BufGranule) : contents (gs ++ gs') = contents gs ++ contents gs' := by
  simp [contents]

theorem sound_cons {g : BufGranule} {gs : List BufGranule} :
    Sound (g :: gs) ↔ (g.bufpos < g.buf.length ∧ g.buf.length ≤ g.bufmax) ∧ Sound gs := by
  simp [Sound]

theorem held_length (g : BufGranule) : g.held.length = g.buf.length - g.bufpos := by
  simp [BufGranule.held]

theorem held_pos {g : BufGranule} {gs : List BufGranule} (h : Sound (g :: gs)) : 0 < g.held.length := by
  have := (sound_cons.mp h).1
  rw [held_length]
  omega

theorem init_holds : Holds bufchainInit [] := ⟨by simp [Sound, bufchainInit], rfl, rfl⟩

/-! ## Adding keeps the queue -/

theorem fillTail_spec {gs : List BufGranule} (h : ∀ g ∈ gs, g.bufpos ≤ g.buf.length) (data : List UInt8) :
    contents (fillTail gs data).1 ++ (fillTail gs data).2 = contents gs ++ data := by
  induction gs, data using fillTail.induct with
  | case1 data => rfl
  | case2 tail data hroom =>
    have hpos := h tail (by simp)
    rw [fillTail, if_pos hroom]
    show (tail.buf ++ data.take _).drop tail.bufpos ++ [] ++ data.drop _ = _
    rw [List.drop_append_of_le_length hpos]
    simp [BufGranule.held]
  | case3 tail data hroom => rw [fillTail, if_neg hroom]
  | case4 g g' gs data ih =>
    rw [fillTail, contents_cons, contents_cons, List.append_assoc, ih fun x hx => h x (List.mem_cons_of_mem g hx),
      List.append_assoc]

theorem fillTail_sound {gs : List BufGranule} (h : Sound gs) (data : List UInt8) : Sound (fillTail gs data).1 := by
  induction gs, data using fillTail.induct with
  | case1 data => exact h
  | case2 tail data hroom =>
    rw [fillTail, if_pos hroom]
    have := (sound_cons.mp h).1
    apply sound_cons.mpr
    refine ⟨⟨?_, ?_⟩, by simp [Sound]⟩
    · simp only [List.length_append]
      omega
    · simp only [List.length_append, List.length_take]
      omega
  | case3 tail data hroom =>
    rw [fillTail, if_neg hroom]
    exact h
  | case4 g g' gs data ih =>
    rw [fillTail]
    exact sound_cons.mpr ⟨(sound_cons.mp h).1, ih (sound_cons.mp h).2⟩

/-- The new granule takes everything there is. -/
theorem fillTail_new (gs : List BufGranule) {rest : List UInt8} (h : rest ≠ []) :
    fillTail (gs ++ [newGranule rest.length]) rest = (gs ++ [{ newGranule rest.length with buf := rest }], []) := by
  have hlen := List.length_pos_of_ne_nil h
  have hmax : rest.length ≤ (newGranule rest.length).bufmax := by
    simp only [newGranule]
    omega
  induction gs with
  | nil =>
    have hcopy : min rest.length ((newGranule rest.length).bufmax - (newGranule rest.length).buf.length) = rest.length :=
      Nat.min_eq_left hmax
    have hroom : (newGranule rest.length).buf.length < (newGranule rest.length).bufmax := Nat.lt_of_lt_of_le hlen hmax
    rw [List.nil_append, fillTail, if_pos hroom]
    simp only [hcopy, List.take_length, List.drop_length]
    rfl
  | cons g gs ih =>
    cases gs with
    | nil =>
      rw [List.nil_append] at ih
      rw [List.cons_append, List.nil_append, fillTail, ih]
      rfl
    | cons g' gs =>
      rw [List.cons_append] at ih
      rw [List.cons_append, List.cons_append, fillTail, ih]
      rfl

theorem addLoop_spec {gs : List BufGranule} (h : Sound gs) (data : List UInt8) :
    Sound (addLoop gs data) ∧ contents (addLoop gs data) = contents gs ++ data := by
  have hfill := fillTail_spec (fun g hg => Nat.le_of_lt (h g hg).1) data
  have hsound := fillTail_sound h data
  unfold addLoop
  rcases hr : fillTail gs data with ⟨gs', rest⟩
  rw [hr] at hfill hsound
  dsimp only
  by_cases hrest : rest = []
  · rw [if_pos hrest]
    subst hrest
    exact ⟨hsound, by simpa using hfill⟩
  · have hlen := List.length_pos_of_ne_nil hrest
    rw [if_neg hrest, fillTail_new gs' hrest]
    refine ⟨?_, ?_⟩
    · intro g hg
      rcases List.mem_append.mp hg with hg | hg
      · exact hsound g hg
      · obtain rfl := List.mem_singleton.mp hg
        refine ⟨hlen, ?_⟩
        simp only [newGranule]
        omega
    · rw [contents_append, ← hfill]
      simp [BufGranule.held, newGranule]

theorem bufchainAdd_holds {ch : BufchainTag} {q : List UInt8} (h : Holds ch q) (data : List UInt8) :
    Holds (bufchainAdd ch data) (q ++ data) := by
  unfold bufchainAdd
  split
  · next h0 =>
    rw [List.length_eq_zero_iff.mp h0, List.append_nil]
    exact h
  · obtain ⟨h1, h2⟩ := addLoop_spec h.sound data
    exact ⟨h1, by rw [h2, h.contents_eq], by rw [h.size, List.length_append]⟩

/-! ## Taking from the queue -/

theorem intOfSize_small {len : Nat} (h : len < 2147483648) : intOfSize len = len := by
  unfold intOfSize
  rw [Nat.mod_eq_of_lt (by omega), if_pos h]

/-- The positive pieces of a long length leave it long. -/
theorem intOfSize_long {len : Nat} (h : 2147483648 ≤ len) : intOfSize len ≤ 0 ∨ intOfSize len + 4294967296 ≤ len := by
  unfold intOfSize
  split <;> omega

theorem consumeLoop_spec {gs : List BufGranule} (hs : Sound gs) {len : Nat} (hlen : len ≤ (contents gs).length)
    (hshort : len < 2147483648) :
    ∃ ch, consumeLoop gs (contents gs).length len = some ch ∧ Holds ch ((contents gs).drop len) := by
  induction gs generalizing len with
  | nil =>
    obtain rfl : len = 0 := Nat.le_zero.mp hlen
    exact ⟨bufchainInit, by rw [consumeLoop, if_pos rfl]; rfl, init_holds⟩
  | cons g gs ih =>
    by_cases h0 : len = 0
    · subst h0
      exact ⟨_, by rw [consumeLoop, if_pos rfl], ⟨hs, rfl, rfl⟩⟩
    · have hint := intOfSize_small hshort
      rw [contents_cons, List.length_append] at hlen ⊢
      by_cases hle : g.held.length ≤ len
      · obtain ⟨ch, hch, hholds⟩ := ih (sound_cons.mp hs).2 (show len - g.held.length ≤ (contents gs).length by omega) (by omega)
        refine ⟨ch, ?_, ?_⟩
        · rw [consumeLoop, if_neg h0]
          dsimp only
          rw [hint, if_pos (by omega), Nat.add_sub_cancel_left, hch]
        · rwa [List.drop_append, List.drop_of_length_le hle, List.nil_append]
      · have hpos := (sound_cons.mp hs).1
        have hheld := held_length g
        refine ⟨⟨{ g with bufpos := g.bufpos + len } :: gs, g.held.length + (contents gs).length - len⟩, ?_, ?_, ?_, ?_⟩
        · rw [consumeLoop, if_neg h0]
          dsimp only
          rw [hint, if_neg (by omega), if_pos (by omega), Int.toNat_natCast, Nat.sub_self, consumeLoop, if_pos rfl]
        · exact sound_cons.mpr ⟨⟨by dsimp only; omega, hpos.2⟩, (sound_cons.mp hs).2⟩
        · rw [contents_cons, List.drop_append, Nat.sub_eq_zero_of_le (by omega), List.drop_zero]
          simp only [BufGranule.held, List.drop_drop]
        · rw [List.length_drop, List.length_append]

theorem fetchLoop_spec {gs : List BufGranule} {len : Nat} (hlen : len ≤ (contents gs).length)
    (hshort : len < 2147483648) : fetchLoop gs len = some ((contents gs).take len) := by
  induction gs generalizing len with
  | nil =>
    obtain rfl : len = 0 := Nat.le_zero.mp hlen
    rw [fetchLoop]
    rfl
  | cons g gs ih =>
    cases len with
    | zero => simp [fetchLoop]
    | succ len =>
      rw [contents_cons, List.length_append] at hlen
      rw [fetchLoop, intOfSize_small hshort, if_neg (by omega)]
      have hmin : (min (g.held.length : Int) ((len + 1 : Nat) : Int)).toNat = min g.held.length (len + 1) := by omega
      rw [hmin, ih (by omega) (by omega), contents_cons, List.take_append]
      simp only [Option.map_some]
      rw [show len + 1 - min g.held.length (len + 1) = len + 1 - g.held.length by omega]
      congr 2
      rw [List.take_eq_take_iff]
      omega

/-- From 2^31 bytes on the loop does not come to an end it may come to. -/
theorem consumeLoop_long {gs : List BufGranule} (hs : Sound gs) (size : Nat) {len : Nat} (hlong : 2147483648 ≤ len) :
    consumeLoop gs size len = none := by
  induction gs generalizing len size with
  | nil => rw [consumeLoop, if_neg (by omega)]
  | cons g gs ih =>
    have hheld := held_pos hs
    induction len using Nat.strongRecOn generalizing g size with
    | _ len ihlen =>
      rw [consumeLoop, if_neg (by omega)]
      dsimp only
      have hint := intOfSize_long hlong
      by_cases hle : (g.held.length : Int) ≤ intOfSize len
      · rw [if_pos hle]
        exact ih (sound_cons.mp hs).2 _ (by omega)
      · rw [if_neg hle]
        by_cases hpos : 0 < intOfSize len
        · rw [if_pos hpos]
          have hg := (sound_cons.mp hs).1
          rw [held_length] at hle
          apply ihlen
          · omega
          · exact sound_cons.mpr ⟨⟨by dsimp only; omega, hg.2⟩, (sound_cons.mp hs).2⟩
          · omega
          · rw [held_length]
            dsimp only
            omega
        · rw [if_neg hpos]

theorem fetchLoop_long (gs : List BufGranule) {len : Nat} (hlong : 2147483648 ≤ len) : fetchLoop gs len = none := by
  induction gs generalizing len with
  | nil =>
    obtain ⟨len, rfl⟩ : ∃ k, len = k + 1 := ⟨len - 1, by omega⟩
    rw [fetchLoop]
  | cons g gs ih =>
    obtain ⟨len, rfl⟩ : ∃ k, len = k + 1 := ⟨len - 1, by omega⟩
    rw [fetchLoop]
    have hint := intOfSize_long hlong
    by_cases hneg : min (g.held.length : Int) (intOfSize (len + 1)) < 0
    · rw [if_pos hneg]
    · rw [if_neg hneg, ih (by omega)]
      rfl

theorem bufchainConsume_iff {ch : BufchainTag} {q : List UInt8} (h : Holds ch q) {len : Nat} (hlen : len ≤ q.length) :
    (∃ ch', bufchainConsume ch len = some ch' ∧ Holds ch' (q.drop len)) ↔ len < 2147483648 := by
  unfold bufchainConsume
  rw [h.size, if_pos hlen, ← h.contents_eq]
  constructor
  · rintro ⟨ch', hch, -⟩
    by_contra hlong
    rw [consumeLoop_long h.sound _ (Nat.not_lt.mp hlong)] at hch
    cases hch
  · exact consumeLoop_spec h.sound (h.contents_eq ▸ hlen)

theorem bufchainFetch_short {ch : BufchainTag} {q : List UInt8} (h : Holds ch q) {len : Nat} (hlen : len ≤ q.length)
    (hshort : len < 2147483648) : bufchainFetch ch len = some (q.take len) := by
  unfold bufchainFetch
  rw [h.size, if_pos hlen, ← h.contents_eq]
  exact fetchLoop_spec (h.contents_eq ▸ hlen) hshort

theorem bufchainFetch_long (ch : BufchainTag) {len : Nat} (hlong : 2147483648 ≤ len) : bufchainFetch ch len = none := by
  unfold bufchainFetch
  rw [fetchLoop_long _ hlong]
  split <;> rfl

theorem fetchConsume_short {ch : BufchainTag} {q : List UInt8} (h : Holds ch q) {len : Nat} (hlen : len ≤ q.length)
    (hshort : len < 2147483648) :
    ∃ ch', bufchainFetchConsume ch len = some (q.take len, ch') ∧ Holds ch' (q.drop len) := by
  obtain ⟨ch', hch, hholds⟩ := (bufchainConsume_iff h hlen).mpr hshort
  exact ⟨ch', by simp [bufchainFetchConsume, bufchainFetch_short h hlen hshort, hch], hholds⟩

theorem fetchConsume_long (ch : BufchainTag) {len : Nat} (hlong : 2147483648 ≤ len) : bufchainFetchConsume ch len = none := by
  simp [bufchainFetchConsume, bufchainFetch_long ch hlong]

/-! ## Runs -/

inductive Op where
  | add (data : List UInt8)
  | lookPrefix
  | consume (len : Nat)
  | fetch (len : Nat)
  | fetchConsume (len : Nat)
  | tryFetchConsume (len : Nat)
  | fetchConsumeUpTo (len : Nat)
  | size
  | clear

inductive Reply where
  | done
  | bytes (data : List UInt8)
  | notThere
  | count (n : Nat)
  deriving DecidableEq

def step (ch : BufchainTag) : Op → Option (Reply × BufchainTag)
  | .add data => some (.done, bufchainAdd ch data)
  | .lookPrefix => (bufchainPrefix ch).map fun p => (.bytes p, ch)
  | .consume len => (bufchainConsume ch len).map fun ch => (.done, ch)
  | .fetch len => (bufchainFetch ch len).map fun data => (.bytes data, ch)
  | .fetchConsume len => (bufchainFetchConsume ch len).map fun r => (.bytes r.1, r.2)
  | .tryFetchConsume len =>
    (bufchainTryFetchConsume ch len).map fun r => (if r.1 then .bytes r.2.1 else .notThere, r.2.2)
  | .fetchConsumeUpTo len => (bufchainFetchConsumeUpTo ch len).map fun r => (.bytes r.1, r.2)
  | .size => some (.count (bufchainSize ch), ch)
  | .clear => some (.done, bufchainClear ch)

def run (ch : BufchainTag) : List Op → Option (List Reply × BufchainTag)
  | [] => some ([], ch)
  | op :: ops => do
    let (reply, ch) ← step ch op
    let (replies, ch) ← run ch ops
    pure (reply :: replies, ch)

/-- The queue after an operation. -/
def next (q : List UInt8) : Op → List UInt8
  | .add data => q ++ data
  | .consume len | .fetchConsume len | .fetchConsumeUpTo len => q.drop len
  | .tryFetchConsume len => if len ≤ q.length then q.drop len else q
  | .clear => []
  | .lookPrefix | .fetch _ | .size => q

/-- When the operation may be called. -/
def Allowed (q : List UInt8) : Op → Prop
  | .lookPrefix => q ≠ []
  | .consume len | .fetch len | .fetchConsume len => len ≤ q.length
  | _ => True

/-- What a queue of bytes answers. -/
def Answers (q : List UInt8) : Op → Reply → Prop
  | .lookPrefix, reply => ∃ p, reply = .bytes p ∧ p ≠ [] ∧ p <+: q
  | .fetch len, reply | .fetchConsume len, reply | .fetchConsumeUpTo len, reply => reply = .bytes (q.take len)
  | .tryFetchConsume len, reply => reply = if len ≤ q.length then .bytes (q.take len) else .notThere
  | .size, reply => reply = .count q.length
  | .add _, reply | .consume _, reply | .clear, reply => reply = .done

/-- How many bytes the operation takes. -/
def taken (q : List UInt8) : Op → Nat
  | .consume len | .fetch len | .fetchConsume len => len
  | .tryFetchConsume len => if len ≤ q.length then len else 0
  | .fetchConsumeUpTo len => min len q.length
  | _ => 0

def AllowedRun (q : List UInt8) : List Op → Prop
  | [] => True
  | op :: ops => Allowed q op ∧ AllowedRun (next q op) ops

def AnswersRun (q : List UInt8) : List Op → List Reply → Prop
  | [], [] => True
  | op :: ops, reply :: replies => Answers q op reply ∧ AnswersRun (next q op) ops replies
  | _, _ => False

/-- No operation of the run takes 2^31 bytes or more. -/
def ShortRun (q : List UInt8) : List Op → Prop
  | [] => True
  | op :: ops => taken q op < 2147483648 ∧ ShortRun (next q op) ops

/-- The run ends, with the answers and the bytes of a queue. -/
def RunsAsQueue (ch : BufchainTag) (q : List UInt8) (ops : List Op) : Prop :=
  ∃ replies ch', run ch ops = some (replies, ch') ∧ AnswersRun q ops replies ∧ Holds ch' (ops.foldl next q)

theorem lookPrefix_spec {ch : BufchainTag} {q : List UInt8} (h : Holds ch q) (hne : q ≠ []) :
    ∃ p, bufchainPrefix ch = some p ∧ p ≠ [] ∧ p <+: q := by
  obtain ⟨hs, hc, -⟩ := h
  unfold bufchainPrefix
  cases hg : ch.granules with
  | nil =>
    rw [hg] at hc
    exact absurd hc.symm hne
  | cons g gs =>
    rw [hg] at hs hc
    refine ⟨g.held, rfl, List.ne_nil_of_length_pos (held_pos hs), ?_⟩
    rw [← hc, contents_cons]
    exact List.prefix_append _ _

/-- One operation: it is the queue's when it takes few bytes, and does not return when it takes many. -/
theorem step_short {ch : BufchainTag} {q : List UInt8} (h : Holds ch q) {op : Op} (hallowed : Allowed q op)
    (hshort : taken q op < 2147483648) :
    ∃ reply ch', step ch op = some (reply, ch') ∧ Answers q op reply ∧ Holds ch' (next q op) := by
  cases op with
  | add data => exact ⟨_, _, rfl, rfl, bufchainAdd_holds h data⟩
  | lookPrefix =>
    obtain ⟨p, hp, hp'⟩ := lookPrefix_spec h hallowed
    exact ⟨_, ch, by simp [step, hp], ⟨p, rfl, hp'⟩, h⟩
  | consume len =>
    obtain ⟨ch', hch, hholds⟩ := (bufchainConsume_iff h hallowed).mpr hshort
    exact ⟨_, ch', by simp [step, hch], rfl, hholds⟩
  | fetch len => exact ⟨_, ch, by simp [step, bufchainFetch_short h hallowed hshort], rfl, h⟩
  | fetchConsume len =>
    obtain ⟨ch', hch, hholds⟩ := fetchConsume_short h hallowed hshort
    exact ⟨_, ch', by simp [step, hch], rfl, hholds⟩
  | tryFetchConsume len =>
    by_cases hlen : len ≤ q.length
    · rw [taken, if_pos hlen] at hshort
      obtain ⟨ch', hch, hholds⟩ := fetchConsume_short h hlen hshort
      refine ⟨.bytes (q.take len), ch', by simp [step, bufchainTryFetchConsume, h.size, hlen, hch], ?_, ?_⟩
      · simp [Answers, hlen]
      · rwa [next, if_pos hlen]
    · refine ⟨.notThere, ch, by simp [step, bufchainTryFetchConsume, h.size, hlen], ?_, ?_⟩
      · simp [Answers, hlen]
      · rwa [next, if_neg hlen]
  | fetchConsumeUpTo len =>
    by_cases h0 : min len q.length = 0
    · refine ⟨.bytes [], ch, by simp [step, bufchainFetchConsumeUpTo, h.size, h0], ?_, ?_⟩
      · rcases Nat.min_eq_zero_iff.mp h0 with rfl | hq
        · simp [Answers]
        · simp [Answers, List.length_eq_zero_iff.mp hq]
      · rcases Nat.min_eq_zero_iff.mp h0 with rfl | hq
        · simpa [next] using h
        · simpa [next, List.length_eq_zero_iff.mp hq] using h
    · obtain ⟨ch', hch, hholds⟩ := fetchConsume_short h (Nat.min_le_right len q.length) hshort
      have hmin : q.take (min len q.length) = q.take len ∧ q.drop (min len q.length) = q.drop len := by
        rcases Nat.le_total len q.length with hle | hle
        · rw [Nat.min_eq_left hle]
          exact ⟨rfl, rfl⟩
        · rw [Nat.min_eq_right hle, List.take_of_length_le hle, List.drop_of_length_le hle, List.take_length, List.drop_length]
          exact ⟨rfl, rfl⟩
      refine ⟨.bytes (q.take (min len q.length)), ch', by simp [step, bufchainFetchConsumeUpTo, h.size, h0, hch], ?_, ?_⟩
      · rw [Answers, hmin.1]
      · rwa [next, ← hmin.2]
  | size => exact ⟨_, ch, rfl, by rw [Answers, bufchainSize, h.size], h⟩
  | clear => exact ⟨_, _, rfl, rfl, init_holds⟩

theorem step_long {ch : BufchainTag} {q : List UInt8} (h : Holds ch q) {op : Op}
    (hlong : 2147483648 ≤ taken q op) : step ch op = none := by
  cases op with
  | add data => simp [taken] at hlong
  | lookPrefix => simp [taken] at hlong
  | consume len =>
    have hnone := consumeLoop_long h.sound ch.buffersize hlong
    simp only [taken] at hnone
    simp [step, bufchainConsume, hnone]
  | fetch len =>
    have hnone : bufchainFetch ch len = none := bufchainFetch_long ch hlong
    simp [step, hnone]
  | fetchConsume len =>
    have hnone : bufchainFetchConsume ch len = none := fetchConsume_long ch hlong
    simp [step, hnone]
  | tryFetchConsume len =>
    by_cases hlen : len ≤ q.length
    · rw [taken, if_pos hlen] at hlong
      simp [step, bufchainTryFetchConsume, h.size, hlen, fetchConsume_long ch hlong]
    · simp [taken, hlen] at hlong
  | fetchConsumeUpTo len =>
    have hmin : min len q.length ≠ 0 := by
      simp only [taken] at hlong
      omega
    have hnone := fetchConsume_long ch hlong
    simp only [taken] at hnone
    simp [step, bufchainFetchConsumeUpTo, h.size, hmin, hnone]
  | size => simp [taken] at hlong
  | clear => simp [taken] at hlong

theorem run_iff {ch : BufchainTag} {q : List UInt8} (h : Holds ch q) {ops : List Op} (hallowed : AllowedRun q ops) :
    RunsAsQueue ch q ops ↔ ShortRun q ops := by
  induction ops generalizing ch q with
  | nil => exact iff_of_true ⟨[], ch, rfl, trivial, h⟩ trivial
  | cons op ops ih =>
    by_cases hshort : taken q op < 2147483648
    · obtain ⟨reply, ch1, hstep, hans, hholds⟩ := step_short h hallowed.1 hshort
      have hrest := ih hholds hallowed.2
      constructor
      · rintro ⟨replies, ch', hrun, hanswers, hend⟩
        refine ⟨hshort, hrest.mp ?_⟩
        rw [run, hstep] at hrun
        rcases hr : run ch1 ops with _ | ⟨replies1, ch2⟩
        · simp [hr] at hrun
        · simp only [hr, Option.bind_eq_bind, Option.bind_some, Option.pure_def, Option.some.injEq, Prod.mk.injEq] at hrun
          obtain ⟨rfl, rfl⟩ := hrun
          exact ⟨replies1, ch2, hr, hanswers.2, hend⟩
      · rintro ⟨-, hshorts⟩
        obtain ⟨replies, ch', hrun, hanswers, hend⟩ := hrest.mpr hshorts
        exact ⟨reply :: replies, ch', by simp [run, hstep, hrun], ⟨hans, hanswers⟩, hend⟩
    · refine iff_of_false ?_ fun hc => hshort hc.1
      rintro ⟨replies, ch', hrun, -, -⟩
      rw [run, step_long h (Nat.not_lt.mp hshort)] at hrun
      cases hrun

/-- The byte queue, from an empty chain on. -/
theorem bufchain_fifo_iff (ops : List Op) (hallowed : AllowedRun [] ops) :
    RunsAsQueue bufchainInit [] ops ↔ ShortRun [] ops :=
  run_iff init_holds hallowed

/-- A few bytes in, looked at and out again. -/
theorem bufchain_fifo_few :
    AllowedRun [] [.add [1, 2, 3], .lookPrefix, .fetchConsume 2, .tryFetchConsume 5, .consume 1] ∧
      RunsAsQueue bufchainInit [] [.add [1, 2, 3], .lookPrefix, .fetchConsume 2, .tryFetchConsume 5, .consume 1] := by
  have hallowed : AllowedRun [] [.add [1, 2, 3], .lookPrefix, .fetchConsume 2, .tryFetchConsume 5, .consume 1] := by
    simp [AllowedRun, Allowed, next]
  refine ⟨hallowed, (bufchain_fifo_iff _ hallowed).mpr ?_⟩
  simp [ShortRun, taken, next]

/-- Two gigabytes added and consumed at once. -/
theorem long_consume_not_queue :
    AllowedRun [] [.add (List.replicate 2147483648 0), .consume 2147483648] ∧
      ¬ RunsAsQueue bufchainInit [] [.add (List.replicate 2147483648 0), .consume 2147483648] := by
  have hallowed : AllowedRun [] [.add (List.replicate 2147483648 0), .consume 2147483648] := by
    refine ⟨trivial, ?_, trivial⟩
    simp only [Allowed, next, List.nil_append, List.length_replicate]
    exact Nat.le_refl _
  refine ⟨hallowed, fun hrun => ?_⟩
  have hshort := ((run_iff init_holds hallowed).mp hrun).2.1
  exact absurd hshort (Nat.lt_irrefl _)

end Putty.Utils.Fifo
