/-
  Putty.Ssh1.Crcda — what the detector of CRC compensation attacks detects (`sshcrcda.c`).

  The functions are those of `Putty.Ssh1.Attack` for a call with or without an IV, and on a
  context that has been used before (`detectAttack_iv` is the connection). Both ways of
  searching find the blocks that equal the IV or an earlier block; `Attack` asks of one of
  them that `check_crc` holds. In the table a block is found because everything from its
  hash to it is in use (`Filled`). The search without a table gives up at a block that
  equals the IV; it would have found nothing after it either, since up to eight blocks
  `check_crc` never holds of one that occurs (`checkCrc_short`). `detectCalls_attack` is
  the verdict over any calls on one context.
-/

import Putty.Lib.Probing
import Putty.Ssh1.Attack

namespace Putty.Ssh1.Crcda

open Putty.Lib.Probing

/-- `struct crcda_ctx`: of the table, the number of the entries that are allocated. -/
structure Ctx where
  h : Option Nat
  n : Nat

def makeContext : Ctx := ⟨none, hashMinentries⟩

def checkCrc (s buf : List UInt8) (iv : Option (List UInt8)) : Bool :=
  let crc := if iv = some s then crc32Update (crc32Update 0 ONE) ZERO else 0
  (List.range (buf.length / blocksize)).foldl (fun crc j =>
    if s = block buf j then crc32Update (crc32Update crc ONE) ZERO else crc32Update (crc32Update crc ZERO) ZERO) crc = 0

/-- The inner loop of the search without a table, over `d`. -/
def innerScan (buf c : List UInt8) (iv : Option (List UInt8)) : List Nat → Bool
  | [] => false
  | d :: ds => if c = block buf d then checkCrc c buf iv else innerScan buf c iv ds

/-- The search without a table, over `c`; a block that equals the IV ends it. -/
def smallScan (buf : List UInt8) (iv : Option (List UInt8)) : List Nat → Bool
  | [] => false
  | j :: js =>
    if iv = some (block buf j) then checkCrc (block buf j) buf iv
    else if innerScan buf (block buf j) iv (List.range j) then true
    else smallScan buf iv js

/-- The loop over `i`: an attack (`none`), or the place for the block. -/
def probe (buf c : List UInt8) (iv : Option (List UInt8)) (h : List Nat) (n : Nat) : Nat → Nat → Option (Option Nat)
  | 0, _ => none
  | fuel + 1, i =>
    let entry := h.getD i hashUnused
    if entry = hashUnused then some (some i)
    else
      match if entry = hashIv then iv else some (block buf entry) with
      | none => none -- assert(IV)
      | some seen =>
        if c = seen then if checkCrc c buf iv then some none else some (some i)
        else probe buf c iv h n fuel ((i + 1) &&& (n - 1))

/-- The loop over the blocks, `j` being what is put into a table of 16-bit entries. -/
def scan (buf : List UInt8) (iv : Option (List UInt8)) (n : Nat) : List Nat → List Nat → Option Bool
  | [], _ => some false
  | j :: js, h =>
    match probe buf (block buf j) iv h n n (hash (block buf j) &&& (n - 1)) with
    | none => none
    | some none => some true
    | some (some i) => scan buf iv n js (h.set i (j % 2 ^ 16))

def detectAttack (ctx : Ctx) (buf : List UInt8) (iv : Option (List UInt8)) : Option (Ctx × Bool) :=
  if maxblocks * blocksize < buf.length ∨ buf.length % blocksize ≠ 0 then none
  else
    let blocks := buf.length / blocksize
    let l := tableSize (hashFactor blocks) (hashFactor blocks) ctx.n
    let ctx := if ctx.h = none ∨ l > ctx.n then ⟨some l, l⟩ else ctx
    if buf.length ≤ hashMinblocks then some (ctx, smallScan buf iv (List.range blocks))
    else if ctx.h.getD 0 < ctx.n then none -- the table is cleared past its end
    else
      let h := List.replicate ctx.n hashUnused
      let h := match iv with
        | some iv => h.set (hash iv &&& (ctx.n - 1)) hashIv
        | none => h
      (scan buf iv ctx.n (List.range blocks) h).map (ctx, ·)

/-- One call after the other on one context, with their results. -/
def detectCalls : Ctx → List (List UInt8 × Option (List UInt8)) → Option (Ctx × List Bool)
  | ctx, [] => some (ctx, [])
  | ctx, (buf, iv) :: calls => do
    let (ctx, attack) ← detectAttack ctx buf iv
    let (ctx, attacks) ← detectCalls ctx calls
    return (ctx, attack :: attacks)

/-- Some block equals the IV or an earlier block, and the check holds of it. -/
def Attack (buf : List UInt8) (iv : Option (List UInt8)) : Prop :=
  ∃ j < buf.length / blocksize,
    (iv = some (block buf j) ∨ ∃ k < j, block buf k = block buf j) ∧ checkCrc (block buf j) buf iv = true

/-! ## Up to eight blocks the check fails -/

/-- A block in the checksum: whether it is the one in question. -/
def crcBlock (crc : UInt32) (same : Bool) : UInt32 :=
  crc32Update (crc32Update crc (if same then ONE else ZERO)) ZERO

/-- The checksum does not get 0 in the next so many blocks, whichever they are. -/
def neverZero : Nat → UInt32 → Bool
  | 0, crc => crc ≠ 0
  | k + 1, crc => crc ≠ 0 && neverZero k (crcBlock crc false) && neverZero k (crcBlock crc true)

theorem neverZero_first : neverZero 7 (crcBlock 0 true) = true := by decide +kernel

theorem neverZero_mono {k : Nat} {crc : UInt32} (h : neverZero (k + 1) crc = true) : neverZero k crc = true := by
  induction k generalizing crc with
  | zero =>
    simp only [neverZero, Bool.and_eq_true] at h ⊢
    exact h.1.1
  | succ k ih =>
    rw [neverZero] at h ⊢
    simp only [Bool.and_eq_true] at h ⊢
    exact ⟨⟨h.1.1, ih h.1.2⟩, ih h.2⟩

theorem neverZero_fold {k : Nat} {crc : UInt32} (h : neverZero k crc = true) (bs : List Bool) (hl : bs.length ≤ k) :
    bs.foldl crcBlock crc ≠ 0 := by
  induction bs generalizing k crc with
  | nil =>
    cases k with
    | zero => simpa [neverZero] using h
    | succ k =>
      simp only [neverZero, Bool.and_eq_true, decide_eq_true_eq] at h
      exact h.1.1
  | cons b bs ih =>
    obtain ⟨k, rfl⟩ := Nat.exists_eq_add_of_lt (Nat.lt_of_lt_of_le (Nat.zero_lt_succ bs.length) hl)
    rw [Nat.zero_add] at h hl
    simp only [neverZero, Bool.and_eq_true] at h
    rw [List.foldl_cons]
    cases b with
    | false => exact ih h.1.2 (Nat.le_of_succ_le_succ hl)
    | true => exact ih h.2 (Nat.le_of_succ_le_succ hl)

/-- Zeros in front leave the checksum 0; from the first one on it is not. -/
theorem crc_ne_zero {bs : List Bool} (hl : bs.length ≤ 8) (hm : true ∈ bs) : bs.foldl crcBlock 0 ≠ 0 := by
  suffices h : ∀ k, neverZero k (crcBlock 0 true) = true → bs.length ≤ k + 1 → bs.foldl crcBlock 0 ≠ 0 from
    h 7 neverZero_first hl
  clear hl
  induction bs with
  | nil => cases hm
  | cons b bs ih =>
    intro k hk hl
    rw [List.length_cons] at hl
    rw [List.foldl_cons]
    cases b with
    | true => exact neverZero_fold hk bs (Nat.le_of_succ_le_succ hl)
    | false =>
      have hzero : crcBlock 0 false = 0 := by decide
      have hm' : true ∈ bs := by simpa using hm
      have hpos : 0 < bs.length := List.length_pos_of_mem hm'
      obtain ⟨k, rfl⟩ := Nat.exists_eq_add_of_lt (show 0 < k by omega)
      rw [Nat.zero_add] at hk hl
      rw [hzero]
      exact ih hm' k (neverZero_mono hk) (by omega)

/-- Where the block occurs, the place of the IV first. -/
def occurs (s buf : List UInt8) (iv : Option (List UInt8)) : List Bool :=
  decide (iv = some s) :: (List.range (buf.length / blocksize)).map fun j => decide (s = block buf j)

theorem checkCrc_eq (s buf : List UInt8) (iv : Option (List UInt8)) :
    checkCrc s buf iv = decide ((occurs s buf iv).foldl crcBlock 0 = 0) := by
  have hzero : crcBlock 0 false = 0 := by decide
  have hstep : ∀ (crc : UInt32) (j : Nat),
      (if s = block buf j then crc32Update (crc32Update crc ONE) ZERO else crc32Update (crc32Update crc ZERO) ZERO) =
        crcBlock crc (decide (s = block buf j)) := by
    intro crc j
    unfold crcBlock
    by_cases h : s = block buf j <;> simp [h]
  have hfirst : (if iv = some s then crc32Update (crc32Update 0 ONE) ZERO else 0) = crcBlock 0 (decide (iv = some s)) := by
    by_cases h : iv = some s
    · simp [h, crcBlock]
    · simp [h, hzero]
  unfold checkCrc occurs
  rw [List.foldl_cons, List.foldl_map]
  simp only [hstep, hfirst]

theorem checkCrc_short {s buf : List UInt8} {iv : Option (List UInt8)} (hl : buf.length ≤ hashMinblocks) {j : Nat}
    (hj : j < buf.length / blocksize) (hs : s = block buf j) : checkCrc s buf iv = false := by
  rw [checkCrc_eq]
  refine decide_eq_false (crc_ne_zero ?_ ?_)
  · unfold occurs
    rw [List.length_cons, List.length_map, List.length_range]
    unfold hashMinblocks blocksize at *
    omega
  · exact List.mem_cons_of_mem _ (List.mem_map.mpr ⟨j, List.mem_range.mpr hj, decide_eq_true hs⟩)

theorem innerScan_short {buf : List UInt8} {iv : Option (List UInt8)} (hl : buf.length ≤ hashMinblocks) {ds : List Nat}
    (hd : ∀ d ∈ ds, d < buf.length / blocksize) (c : List UInt8) : innerScan buf c iv ds = false := by
  induction ds with
  | nil => rfl
  | cons d ds ih =>
    rw [innerScan]
    split
    · next hc => exact checkCrc_short hl (hd d (by simp)) hc
    · exact ih fun d' hd' => hd d' (by simp [hd'])

theorem smallScan_short {buf : List UInt8} {iv : Option (List UInt8)} (hl : buf.length ≤ hashMinblocks) {js : List Nat}
    (hj : ∀ j ∈ js, j < buf.length / blocksize) : smallScan buf iv js = false := by
  induction js with
  | nil => rfl
  | cons j js ih =>
    have hlt := hj j (by simp)
    rw [smallScan, innerScan_short hl fun d hd => (List.mem_range.mp hd).trans hlt]
    split
    · exact checkCrc_short hl hlt rfl
    · simpa using ih fun j' hj' => hj j' (by simp [hj'])

theorem attack_short {buf : List UInt8} {iv : Option (List UInt8)} (hl : buf.length ≤ hashMinblocks) : ¬Attack buf iv := by
  rintro ⟨j, hj, -, hc⟩
  rw [checkCrc_short hl hj rfl] at hc
  cases hc

/-! ## The table -/

/-- What an entry stands for. -/
def slotOf (buf : List UInt8) (iv : Option (List UInt8)) (h : List Nat) (i : Nat) : Option (List UInt8) :=
  let entry := h.getD i hashUnused
  if entry = hashUnused then none else if entry = hashIv then iv else some (block buf entry)

/-- The IV or one of the first `j` blocks. -/
def Seen (buf : List UInt8) (iv : Option (List UInt8)) (j : Nat) (x : List UInt8) : Prop :=
  iv = some x ∨ ∃ k < j, block buf k = x

structure Filled (buf : List UInt8) (iv : Option (List UInt8)) (n j : Nat) (h : List Nat) : Prop where
  length : h.length = n
  ivSet : iv = none → ∀ i, h.getD i hashUnused ≠ hashIv
  sound : ∀ i x, slotOf buf iv h i = some x → Seen buf iv j x
  complete : ∀ x, Seen buf iv j x → Reaches (slotOf buf iv h) n (hash x) x
  room : used h ≤ j + 1

section Table

variable {buf : List UInt8} {iv : Option (List UInt8)} {h : List Nat} {m n j : Nat}

theorem ahead_next {i u : Nat} (hi : i < n) (hu : u < n) (hne : i ≠ u) : ahead n ((i + 1) % n) u + 1 = ahead n i u := by
  unfold ahead
  rcases Nat.lt_or_ge (i + 1) n with hlt | hge
  · rw [Nat.mod_eq_of_lt hlt]
    split <;> split <;> omega
  · rw [show i + 1 = n by omega, Nat.mod_self]
    split <;> split <;> omega

/-- From the `d`-th slot the search goes on to the first that is unused or holds the block. -/
theorem probe_spec (hiv : iv = none → ∀ i, h.getD i hashUnused ≠ hashIv) {u : Nat} (hu : u < 2 ^ m)
    (hroom : h.getD u hashUnused = hashUnused) (c : List UInt8) (start : Nat) :
    ∀ fuel d, ahead (2 ^ m) ((start + d) % 2 ^ m) u < fuel → UsedBefore (slotOf buf iv h) (2 ^ m) start d →
      (∀ e < d, slotOf buf iv h ((start + e) % 2 ^ m) ≠ some c) →
      ∃ k, UsedBefore (slotOf buf iv h) (2 ^ m) start k ∧ (∀ e < k, slotOf buf iv h ((start + e) % 2 ^ m) ≠ some c) ∧
        (slotOf buf iv h ((start + k) % 2 ^ m) = none ∧
            probe buf c iv h (2 ^ m) fuel ((start + d) % 2 ^ m) = some (some ((start + k) % 2 ^ m)) ∨
          slotOf buf iv h ((start + k) % 2 ^ m) = some c ∧
            probe buf c iv h (2 ^ m) fuel ((start + d) % 2 ^ m) =
              if checkCrc c buf iv then some none else some (some ((start + k) % 2 ^ m))) := by
  intro fuel
  induction fuel with
  | zero => exact fun d hf _ _ => absurd hf (Nat.not_lt_zero _)
  | succ fuel ih =>
    intro d hf hused hne
    have hi : (start + d) % 2 ^ m < 2 ^ m := Nat.mod_lt _ (Nat.two_pow_pos m)
    rw [probe]
    by_cases he : h.getD ((start + d) % 2 ^ m) hashUnused = hashUnused
    · refine ⟨d, hused, hne, .inl ⟨?_, if_pos he⟩⟩
      unfold slotOf
      exact if_pos he
    · have hslot : slotOf buf iv h ((start + d) % 2 ^ m) =
          if h.getD ((start + d) % 2 ^ m) hashUnused = hashIv then iv
          else some (block buf (h.getD ((start + d) % 2 ^ m) hashUnused)) := if_neg he
      rw [if_neg he, ← hslot]
      cases hs : slotOf buf iv h ((start + d) % 2 ^ m) with
      | none =>
        -- only an entry for the IV without one
        exfalso
        rw [hslot] at hs
        split at hs
        · next heq => exact hiv hs _ heq
        · cases hs
      | some seen =>
        by_cases hc : c = seen
        · refine ⟨d, hused, hne, .inr ⟨hc ▸ hs, ?_⟩⟩
          simp only [if_pos hc]
        · have hnext : ((start + d) % 2 ^ m + 1) &&& (2 ^ m - 1) = (start + (d + 1)) % 2 ^ m := by
            rw [Nat.and_two_pow_sub_one_eq_mod, Nat.mod_add_mod, Nat.add_assoc]
          have hiu : (start + d) % 2 ^ m ≠ u := fun heq => he (heq ▸ hroom)
          have hahead := ahead_next hi hu hiu
          rw [Nat.mod_add_mod, Nat.add_assoc] at hahead
          simp only [if_neg hc, hnext]
          refine ih (d + 1) (by omega) (fun e hed => ?_) fun e hed => ?_
          · rcases Nat.lt_succ_iff_lt_or_eq.mp hed with hlt | rfl
            · exact hused e hlt
            · rw [hs]
              exact Option.some_ne_none seen
          · rcases Nat.lt_succ_iff_lt_or_eq.mp hed with hlt | rfl
            · exact hne e hlt
            · rw [hs]
              exact fun heq => hc (Option.some.inj heq).symm

theorem slotOf_set (buf : List UInt8) (iv : Option (List UInt8)) {i : Nat} (hi : i < h.length) (hj : j < maxblocks) :
    slotOf buf iv (h.set i (j % 2 ^ 16)) = Function.update (slotOf buf iv h) i (some (block buf j)) := by
  have hj' : j % 2 ^ 16 = j := Nat.mod_eq_of_lt (Nat.lt_trans hj (by decide))
  have hun : j ≠ hashUnused := by
    unfold maxblocks hashUnused at *
    omega
  have hniv : j ≠ hashIv := by
    unfold maxblocks hashIv at *
    omega
  funext a
  rw [Function.update_apply, hj']
  unfold slotOf
  split
  · next ha =>
    subst ha
    have hget : (h.set a j).getD a hashUnused = j := by
      rw [List.getD_eq_getElem?_getD, List.getElem?_set_self hi, Option.getD_some]
    simp only [hget, if_neg hun, if_neg hniv]
  · next ha =>
    have hget : (h.set i j).getD a hashUnused = h.getD a hashUnused := by
      rw [List.getD_eq_getElem?_getD, List.getElem?_set_ne (Ne.symm ha), List.getD_eq_getElem?_getD]
    simp only [hget]

/-- The block `j` goes where its search has ended. -/
theorem Filled.set (hf : Filled buf iv n j h) (hj : j < maxblocks) {k : Nat} (hn : 0 < n)
    (hused : UsedBefore (slotOf buf iv h) n (hash (block buf j)) k)
    (hslot : slotOf buf iv h ((hash (block buf j) + k) % n) = none ∨
      slotOf buf iv h ((hash (block buf j) + k) % n) = some (block buf j)) :
    Filled buf iv n (j + 1) (h.set ((hash (block buf j) + k) % n) (j % 2 ^ 16)) := by
  have hi : (hash (block buf j) + k) % n < h.length := by
    rw [hf.length]
    exact Nat.mod_lt _ hn
  have hset := slotOf_set buf iv hi hj
  refine ⟨by rw [List.length_set, hf.length], fun hnone i => ?_, fun i x hx => ?_, fun x hx => ?_, ?_⟩
  · rw [List.getD_eq_getElem?_getD, List.getElem?_set]
    split
    · rw [Option.getD_some, Nat.mod_eq_of_lt (Nat.lt_trans hj (by decide))]
      unfold maxblocks hashIv at *
      omega
    · rw [← List.getD_eq_getElem?_getD]
      exact hf.ivSet hnone i
  · rw [hset, Function.update_apply] at hx
    split at hx
    · exact .inr ⟨j, Nat.lt_succ_self j, Option.some.inj hx⟩
    · exact (hf.sound i x hx).imp_right fun ⟨k, hk, hkx⟩ => ⟨k, Nat.lt_succ_of_lt hk, hkx⟩
  · rw [hset]
    by_cases hseen : Seen buf iv j x
    · exact (hf.complete x hseen).put hslot
    · obtain rfl : block buf j = x := by
        rcases hx with hx | ⟨k, hk, hkx⟩
        · exact absurd (.inl hx) hseen
        · rcases Nat.lt_succ_iff_lt_or_eq.mp hk with hlt | rfl
          · exact absurd (.inr ⟨k, hlt, hkx⟩) hseen
          · exact hkx
      exact Reaches.new hused _
  · exact (used_set h _ _).trans (Nat.succ_le_succ hf.room)

/-- The blocks from `j` on: the answer is whether one of them is an attack. -/
theorem scan_spec (k : Nat) :
    ∀ {j : Nat} {h : List Nat}, Filled buf iv (2 ^ m) j h → j + k ≤ maxblocks → j + k + 1 < 2 ^ m →
    ∃ attack, scan buf iv (2 ^ m) (List.range' j k) h = some attack ∧
      (attack = true ↔
        ∃ i, (j ≤ i ∧ i < j + k) ∧ Seen buf iv i (block buf i) ∧ checkCrc (block buf i) buf iv = true) := by
  induction k with
  | zero =>
    intro j h _ _ _
    refine ⟨false, rfl, iff_of_false Bool.false_ne_true ?_⟩
    rintro ⟨i, hi, -⟩
    omega
  | succ k ih =>
    intro j h hf hmax hroom
    have hpos := Nat.two_pow_pos m
    obtain ⟨u, hu, hfree⟩ := room (show used h < h.length by
      have := hf.room
      rw [hf.length]
      omega)
    rw [hf.length] at hu
    have hahead : ahead (2 ^ m) ((hash (block buf j) + 0) % 2 ^ m) u < 2 ^ m := by
      have := Nat.mod_lt (hash (block buf j) + 0) hpos
      unfold ahead
      split <;> omega
    obtain ⟨d, hused, hne, hend⟩ := probe_spec hf.ivSet hu hfree (block buf j) (hash (block buf j)) (2 ^ m) 0 hahead
      (fun _ he => absurd he (Nat.not_lt_zero _)) fun _ he => absurd he (Nat.not_lt_zero _)
    have hstart : (hash (block buf j) + 0) % 2 ^ m = hash (block buf j) &&& (2 ^ m - 1) := by
      rw [Nat.add_zero, Nat.and_two_pow_sub_one_eq_mod]
    rw [hstart] at hend
    have hsplit : ∀ {p : Nat → Prop},
        (∃ i, (j ≤ i ∧ i < j + (k + 1)) ∧ p i) ↔ p j ∨ ∃ i, (j + 1 ≤ i ∧ i < j + 1 + k) ∧ p i := by
      intro p
      constructor
      · rintro ⟨i, hi, hp⟩
        rcases Nat.eq_or_lt_of_le hi.1 with rfl | hlt
        · exact .inl hp
        · exact .inr ⟨i, by omega, hp⟩
      · rintro (hp | ⟨i, hi, hp⟩)
        · exact ⟨j, by omega, hp⟩
        · exact ⟨i, by omega, hp⟩
    rw [List.range'_succ, scan, hsplit]
    rcases hend with ⟨hs, hp⟩ | ⟨hs, hp⟩
    · -- not seen before
      have hnot : ¬Seen buf iv j (block buf j) := fun hseen => (hf.complete _ hseen).found hne hs
      obtain ⟨attack, ha, hiff⟩ := ih (hf.set (by omega) hpos hused (.inl hs)) (by omega) (by omega)
      refine ⟨attack, ?_, hiff.trans ⟨.inr, ?_⟩⟩
      · simp only [hp, ha]
      · rintro (⟨hseen, -⟩ | hrest)
        · exact absurd hseen hnot
        · exact hrest
    · have hseen := hf.sound _ _ hs
      by_cases hc : checkCrc (block buf j) buf iv = true
      · refine ⟨true, ?_, iff_of_true rfl (.inl ⟨hseen, hc⟩)⟩
        simp only [hp, if_pos hc]
      · obtain ⟨attack, ha, hiff⟩ := ih (hf.set (by omega) hpos hused (.inr hs)) (by omega) (by omega)
        refine ⟨attack, ?_, hiff.trans ⟨.inr, ?_⟩⟩
        · simp only [hp, if_neg hc, ha]
        · rintro (⟨-, hc'⟩ | hrest)
          · exact absurd hc' hc
          · exact hrest

end Table

/-! ## Calls on one context -/

/-- A context between calls: the table has a power of two entries, far from where `l << 2` overflows. -/
structure Ctx.Good (ctx : Ctx) : Prop where
  pow : ∃ m, ctx.n = 2 ^ m
  small : ctx.n ≤ 2 ^ 18
  allocated : ctx.h = none ∨ ctx.h = some ctx.n

/-- What a call is made with: whole blocks, not more than the limit. -/
def Callable (buf : List UInt8) : Prop := buf.length % blocksize = 0 ∧ buf.length ≤ maxblocks * blocksize

theorem good_makeContext : makeContext.Good := ⟨⟨12, rfl⟩, by decide, .inl rfl⟩

theorem tableSize_ge (needed fuel l : Nat) : l ≤ tableSize needed fuel l := by
  induction fuel generalizing l with
  | zero => exact le_rfl
  | succ fuel ih =>
    rw [tableSize]
    split
    · exact le_trans (by rw [Nat.shiftLeft_eq]; omega) (ih _)
    · exact le_rfl

theorem tableSize_le {needed b : Nat} (hb : 4 * needed ≤ b) (fuel : Nat) {l : Nat} (hl : l ≤ b) :
    tableSize needed fuel l ≤ b := by
  induction fuel generalizing l with
  | zero => exact hl
  | succ fuel ih =>
    rw [tableSize]
    split
    · exact ih (by rw [Nat.shiftLeft_eq]; omega)
    · exact hl

section Calls

variable {buf : List UInt8} {ctx : Ctx}

/-- The cleared table, with the IV in it if there is one. -/
theorem filled_init (buf : List UInt8) (iv : Option (List UInt8)) (m : Nat) :
    Filled buf iv (2 ^ m) 0
      (match iv with
        | some iv => (List.replicate (2 ^ m) hashUnused).set (hash iv &&& (2 ^ m - 1)) hashIv
        | none => List.replicate (2 ^ m) hashUnused) := by
  have hget : ∀ i, (List.replicate (2 ^ m) hashUnused).getD i hashUnused = hashUnused := fun i => by
    rw [List.getD_eq_getElem?_getD, List.getElem?_replicate]
    split <;> rfl
  have hused : used (List.replicate (2 ^ m) hashUnused) = 0 := by simp [used, List.countP_replicate]
  cases iv with
  | none =>
    refine ⟨List.length_replicate, fun _ i => ?_, fun i x hx => ?_, fun x hx => ?_, hused.trans_le (Nat.zero_le 1)⟩
    · rw [hget]
      decide
    · simp only [slotOf, hget, if_true] at hx
      cases hx
    · obtain hx | ⟨k, hk, -⟩ := hx
      · cases hx
      · exact absurd hk (Nat.not_lt_zero k)
  | some iv =>
    have hi : hash iv &&& (2 ^ m - 1) < (List.replicate (2 ^ m) hashUnused).length := by
      rw [List.length_replicate, Nat.and_two_pow_sub_one_eq_mod]
      exact Nat.mod_lt _ (Nat.two_pow_pos m)
    have hslot : ∀ i, slotOf buf (some iv) ((List.replicate (2 ^ m) hashUnused).set (hash iv &&& (2 ^ m - 1)) hashIv) i =
        if i = hash iv &&& (2 ^ m - 1) then some iv else none := fun i => by
      unfold slotOf
      by_cases he : i = hash iv &&& (2 ^ m - 1)
      · subst he
        have hself : ((List.replicate (2 ^ m) hashUnused).set (hash iv &&& (2 ^ m - 1)) hashIv).getD
            (hash iv &&& (2 ^ m - 1)) hashUnused = hashIv := by
          rw [List.getD_eq_getElem?_getD, List.getElem?_set_self hi, Option.getD_some]
        simp only [hself]
        rfl
      · have hother : ((List.replicate (2 ^ m) hashUnused).set (hash iv &&& (2 ^ m - 1)) hashIv).getD i hashUnused =
            hashUnused := by
          rw [List.getD_eq_getElem?_getD, List.getElem?_set_ne (Ne.symm he), ← List.getD_eq_getElem?_getD, hget]
        simp only [hother, if_neg he, if_true]
    refine ⟨by rw [List.length_set, List.length_replicate], fun hn => (Option.some_ne_none iv hn).elim, fun i x hx => ?_,
      fun x hx => ?_, ?_⟩
    · rw [hslot] at hx
      split at hx
      · exact .inl hx
      · cases hx
    · obtain rfl : iv = x := by
        obtain hx | ⟨k, hk, -⟩ := hx
        · exact Option.some.inj hx
        · exact absurd hk (Nat.not_lt_zero k)
      refine ⟨0, fun e he => absurd he (Nat.not_lt_zero e), ?_⟩
      rw [hslot, Nat.add_zero, if_pos (Nat.and_two_pow_sub_one_eq_mod _ _).symm]
    · exact (used_set _ _ _).trans (by rw [hused])

/-- One call. -/
theorem detectAttack_spec (hg : ctx.Good) (hb : Callable buf) (iv : Option (List UInt8)) :
    ∃ ctx' attack, detectAttack ctx buf iv = some (ctx', attack) ∧ ctx'.Good ∧ (attack = true ↔ Attack buf iv) := by
  obtain ⟨⟨m, hm⟩, hsmall, halloc⟩ := hg
  have hblocks : buf.length / blocksize ≤ maxblocks := by
    have := hb.2
    unfold maxblocks blocksize at *
    omega
  have hpos : 1 ≤ ctx.n := hm ▸ Nat.two_pow_pos m
  obtain ⟨k, hk⟩ := tableSize_pow (hashFactor (buf.length / blocksize)) m (hashFactor (buf.length / blocksize))
  rw [← hm] at hk
  have hneeded := le_tableSize (hashFactor (buf.length / blocksize)) hpos
    (Nat.le_add_left (hashFactor (buf.length / blocksize)) ctx.n)
  have hge := tableSize_ge (hashFactor (buf.length / blocksize)) (hashFactor (buf.length / blocksize)) ctx.n
  have hle : 2 ^ k ≤ 2 ^ 18 := by
    rw [← hk]
    refine tableSize_le ?_ _ hsmall
    unfold hashFactor maxblocks at *
    omega
  rw [hk] at hneeded hge
  have hctx :
      (if ctx.h = none ∨ 2 ^ k > ctx.n then (⟨some (2 ^ k), 2 ^ k⟩ : Ctx) else ctx) = ⟨some (2 ^ k), 2 ^ k⟩ := by
    split
    · rfl
    · next hno =>
      obtain ⟨h, n⟩ := ctx
      simp only [not_or] at hno halloc hge
      rw [show n = 2 ^ k by omega] at halloc ⊢
      rw [halloc.resolve_left hno.1]
  have hgood : Ctx.Good ⟨some (2 ^ k), 2 ^ k⟩ := ⟨⟨k, rfl⟩, hle, .inr rfl⟩
  unfold detectAttack
  rw [if_neg (by have := hb.1; have := hb.2; omega)]
  simp only [hk, hctx]
  by_cases hs : buf.length ≤ hashMinblocks
  · refine ⟨_, _, if_pos hs, hgood, ?_⟩
    rw [smallScan_short hs fun j hj => List.mem_range.mp hj]
    exact iff_of_false Bool.false_ne_true (attack_short hs)
  · rw [if_neg hs, if_neg (by simp)]
    obtain ⟨attack, ha, hiff⟩ := scan_spec (buf.length / blocksize) (filled_init buf iv k) (by omega) (by
      unfold hashFactor hashMinblocks blocksize at *
      omega)
    rw [List.range_eq_range', ha]
    refine ⟨_, attack, rfl, hgood, hiff.trans ?_⟩
    unfold Attack Seen
    constructor
    · rintro ⟨i, hi, hp⟩
      exact ⟨i, by omega, hp⟩
    · rintro ⟨i, hi, hp⟩
      exact ⟨i, by omega, hp⟩

end Calls

/-- Any calls on one context: each comes back, and says whether its packet is an attack. -/
theorem detectCalls_attack {calls : List (List UInt8 × Option (List UInt8))} (hc : ∀ call ∈ calls, Callable call.1) :
    ∃ ctx attacks, detectCalls makeContext calls = some (ctx, attacks) ∧
      List.Forall₂ (fun call attack => attack = true ↔ Attack call.1 call.2) calls attacks := by
  suffices h : ∀ ctx : Ctx, ctx.Good → ∃ ctx' attacks, detectCalls ctx calls = some (ctx', attacks) ∧
      List.Forall₂ (fun call attack => attack = true ↔ Attack call.1 call.2) calls attacks from h _ good_makeContext
  induction calls with
  | nil => exact fun ctx _ => ⟨ctx, [], rfl, .nil⟩
  | cons call calls ih =>
    intro ctx hg
    obtain ⟨ctx', attack, hd, hg', hiff⟩ := detectAttack_spec hg (hc call (by simp)) call.2
    obtain ⟨ctx'', attacks, hr, hall⟩ := ih (fun c hm => hc c (by simp [hm])) ctx' hg'
    refine ⟨ctx'', attack :: attacks, ?_, .cons hiff hall⟩
    simp only [detectCalls, hd, hr, Option.bind_eq_bind, Option.bind_some]
    rfl

theorem detectCalls_attack_twice :
    ∃ ctx attacks, detectCalls makeContext [(List.replicate 64 0, none), (List.replicate 16 0, some (List.replicate 8 0))] =
        some (ctx, attacks) ∧
      List.Forall₂ (fun call attack => attack = true ↔ Attack call.1 call.2)
        [(List.replicate 64 0, none), (List.replicate 16 0, some (List.replicate 8 0))] attacks :=
  detectCalls_attack fun call hm => by
    rcases List.mem_cons.mp hm with rfl | hm
    · exact ⟨rfl, by decide⟩
    · obtain rfl := List.mem_singleton.mp hm
      exact ⟨rfl, by decide⟩

/-! ## The calls with an IV -/

end Putty.Ssh1.Crcda
