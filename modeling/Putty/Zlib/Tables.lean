/-
  Putty.Zlib.Tables — what the tables of `zlib_mktable` hold and what a lookup in them
  gives, for any code lengths: too few codes, too many, none at all.

  A slot is described by the low bits that lead to it: it is filled by the symbols whose
  codes agree with them (`fill_getElem`), keeps the last of these and the length of the
  longest. Proved, for every list of at most 288 lengths below 16:
  - `mktable_good`: the table is built.
  - `huflookup_sound`: a lookup ends, reads no entry outside its table, and finds a symbol
    of the list, in 1 to 15 bits; 15 bits are always enough.
  - `mkonetab_more`: what a lookup finds does not depend on the bits behind those that it
    had, although it takes the bits it does not have to be zeros.
-/

import Putty.Zlib.Code
import Putty.Lib.Canonical
import Mathlib.Data.List.Count
import Mathlib.Tactic.Ring

namespace Putty.Zlib

open Putty.Lib.Canonical

/-! ## Slots -/

/-- The symbol is looked up in the table of the codes longer than `pfxbits`, through the
    slot that the `width` low bits of `w` lead to. -/
def Hits (pfxbits width w : Nat) (sym : Nat × Nat) : Prop :=
  pfxbits < sym.1 ∧ sym.2 % 2 ^ min sym.1 width = w % 2 ^ min sym.1 width

instance (pfxbits width w : Nat) (sym : Nat × Nat) : Decidable (Hits pfxbits width w sym) := by
  unfold Hits; infer_instance

def putHit (pfxbits width w : Nat) (slot : Slot) (sym : (Nat × Nat) × Nat) : Slot :=
  if Hits pfxbits width w sym.1 then ⟨max slot.nbits (sym.1.1 - pfxbits), some sym.2⟩ else slot

def slotAt (syms : List (Nat × Nat)) (pfxbits width w : Nat) : Slot :=
  syms.zipIdx.foldl (putHit pfxbits width w) ⟨0, none⟩

/-- Code lengths below 16 and codes no longer than that. -/
structure Codes (syms : List (Nat × Nat)) : Prop where
  length_lt : ∀ sym ∈ syms, sym.1 < MAXCODELEN
  code_lt : ∀ sym ∈ syms, sym.2 < 2 ^ sym.1
  /-- A code longer than `n` bits begins like one that has only zeros after them. -/
  padded : ∀ sym ∈ syms, ∀ n < sym.1, ∃ sym' ∈ syms, n < sym'.1 ∧ sym'.2 = sym.2 % 2 ^ n

theorem mod_pow_iff {x y p m : Nat} (h : p ≤ m) :
    x % 2 ^ m = y % 2 ^ m ↔ x % 2 ^ p = y % 2 ^ p ∧ x / 2 ^ p % 2 ^ (m - p) = y / 2 ^ p % 2 ^ (m - p) := by
  have he : 2 ^ m = 2 ^ p * 2 ^ (m - p) := by rw [← Nat.pow_add]; congr 1; omega
  rw [he, Nat.mod_mul, Nat.mod_mul]
  constructor
  · intro h
    have h1 : x % 2 ^ p = y % 2 ^ p := by
      have := congrArg (· % 2 ^ p) h
      simpa using this
    rw [h1] at h
    exact ⟨h1, Nat.eq_of_mul_eq_mul_left (Nat.two_pow_pos p) (Nat.add_left_cancel h)⟩
  · rintro ⟨h1, h2⟩
    rw [h1, h2]

/-- The slots from `d`'s on in steps of `2 ^ m` are those whose low bits are `d`'s. -/
theorem stride_iff {d m bits j : Nat} (hd : d < 2 ^ m) (hj : j < 2 ^ bits) :
    d % 2 ^ bits ≤ j ∧ (j - d % 2 ^ bits) % 2 ^ m = 0 ↔ d % 2 ^ min m bits = j % 2 ^ min m bits := by
  rcases Nat.le_total m bits with hle | hle
  · have hsub : 2 ^ m ≤ 2 ^ bits := Nat.pow_le_pow_right (by omega) hle
    rw [Nat.min_eq_left hle, Nat.mod_eq_of_lt hd, Nat.mod_eq_of_lt (Nat.lt_of_lt_of_le hd hsub)]
    constructor
    · rintro ⟨h1, h2⟩
      have he : j = d + (j - d) := by omega
      rw [he, Nat.add_mod, h2, Nat.add_zero, Nat.mod_mod, Nat.mod_eq_of_lt hd]
    · intro h
      have hdj : d ≤ j := by rw [h]; exact Nat.mod_le _ _
      refine ⟨hdj, ?_⟩
      rw [h]
      exact Nat.mod_eq_zero_of_dvd (Nat.dvd_sub_mod j)
  · have hsub : 2 ^ bits ≤ 2 ^ m := Nat.pow_le_pow_right (by omega) hle
    rw [Nat.min_eq_right hle, Nat.mod_eq_of_lt hj]
    generalize d % 2 ^ bits = first
    constructor
    · rintro ⟨h1, h2⟩
      rw [Nat.mod_eq_of_lt (by omega)] at h2
      omega
    · intro h
      subst h
      rw [Nat.sub_self, Nat.zero_mod]
      omega

/-- The condition of the filling loop at one slot. -/
theorem hits_iff {pfx p bits j len code : Nat} (hc : code < 2 ^ len) (hp : pfx < 2 ^ p) (hj : j < 2 ^ bits) :
    Hits p (p + bits) (pfx + j * 2 ^ p) (len, code) ↔
      ¬ (len ≤ p ∨ code % 2 ^ p ≠ pfx) ∧ code / 2 ^ p % 2 ^ bits ≤ j ∧ (j - code / 2 ^ p % 2 ^ bits) % 2 ^ (len - p) = 0 := by
  unfold Hits
  by_cases hlen : p < len
  · have hd : code / 2 ^ p < 2 ^ (len - p) := by
      rw [Nat.div_lt_iff_lt_mul (Nat.two_pow_pos p), ← Nat.pow_add]
      rwa [show len - p + p = len by omega]
    have hwp : (pfx + j * 2 ^ p) % 2 ^ p = pfx := by rw [Nat.add_mul_mod_self_right, Nat.mod_eq_of_lt hp]
    have hwd : (pfx + j * 2 ^ p) / 2 ^ p = j := by
      rw [Nat.add_mul_div_right _ _ (Nat.two_pow_pos p), Nat.div_eq_of_lt hp, Nat.zero_add]
    rw [stride_iff hd hj, mod_pow_iff (show p ≤ min len (p + bits) by omega), hwp, hwd,
      show min len (p + bits) - p = min (len - p) bits by omega]
    constructor
    · rintro ⟨-, h1, h2⟩
      exact ⟨fun h => h.elim (by omega) fun h => h h1, h2⟩
    · rintro ⟨h1, h2⟩
      exact ⟨hlen, by_contra fun h => h1 (Or.inr h), h2⟩
  · constructor
    · intro h
      exact absurd h.1 hlen
    · intro h
      exact absurd (Nat.le_of_not_lt hlen) fun hle => h.1 (Or.inl hle)

theorem putSymbol_getElem {pfx p bits : Nat} {table : List Slot} {sym : (Nat × Nat) × Nat} {j : Nat}
    (hc : sym.1.2 < 2 ^ sym.1.1) (hp : pfx < 2 ^ p) (hj : j < 2 ^ bits) :
    (putSymbol pfx p bits table sym)[j]? = table[j]?.map fun slot => putHit p (p + bits) (pfx + j * 2 ^ p) slot sym := by
  obtain ⟨⟨len, code⟩, i⟩ := sym
  have hiff := hits_iff hc hp hj
  dsimp only at hiff
  by_cases hskip : len ≤ p ∨ code % 2 ^ p ≠ pfx
  · have hno : ¬ Hits p (p + bits) (pfx + j * 2 ^ p) (len, code) := fun h => (hiff.mp h).1 hskip
    simp [putSymbol, putHit, hno, hskip]
  · simp only [putSymbol, putHit, hskip, if_false, List.getElem?_map, List.getElem?_zipIdx, Option.map_map]
    congr 1
    funext slot
    simp only [Function.comp_apply, Nat.zero_add, hiff, hskip, not_false_eq_true, true_and]

theorem fold_putSymbol_getElem {pfx p bits : Nat} {syms : List ((Nat × Nat) × Nat)} {table : List Slot} {j : Nat}
    (hc : ∀ sym ∈ syms, sym.1.2 < 2 ^ sym.1.1) (hp : pfx < 2 ^ p) (hj : j < 2 ^ bits) :
    (syms.foldl (putSymbol pfx p bits) table)[j]? =
      table[j]?.map fun slot => syms.foldl (putHit p (p + bits) (pfx + j * 2 ^ p)) slot := by
  induction syms generalizing table with
  | nil => simp
  | cons sym syms ih =>
    simp only [List.foldl_cons]
    rw [ih fun s hs => hc s (List.mem_cons_of_mem _ hs), putSymbol_getElem (hc sym List.mem_cons_self) hp hj,
      Option.map_map]
    rfl

theorem putSymbol_length {pfx p bits : Nat} {table : List Slot} {sym : (Nat × Nat) × Nat} :
    (putSymbol pfx p bits table sym).length = table.length := by
  obtain ⟨⟨len, code⟩, i⟩ := sym
  simp only [putSymbol]
  split
  · rfl
  · simp

theorem fold_putSymbol_length {pfx p bits : Nat} {syms : List ((Nat × Nat) × Nat)} {table : List Slot} :
    (syms.foldl (putSymbol pfx p bits) table).length = table.length := by
  induction syms generalizing table with
  | nil => rfl
  | cons sym syms ih => rw [List.foldl_cons, ih, putSymbol_length]

theorem fill_length {codes lengths : List Nat} {pfx p bits : Nat} : (fill codes lengths pfx p bits).length = 2 ^ bits := by
  rw [fill, fold_putSymbol_length, List.length_replicate]

theorem mem_of_mem_zipIdx {α : Type*} {l : List α} {x : α × Nat} (h : x ∈ l.zipIdx) : x.1 ∈ l ∧ x.2 < l.length := by
  obtain ⟨a, i⟩ := x
  have := List.mem_zipIdx_iff_getElem?.mp h
  exact ⟨List.mem_of_getElem? this, (List.getElem?_eq_some_iff.mp this).1⟩

theorem fill_getElem {codes lengths : List Nat} {pfx p bits j : Nat} (h : Codes (lengths.zip codes)) (hp : pfx < 2 ^ p)
    (hj : j < 2 ^ bits) :
    (fill codes lengths pfx p bits)[j]? = some (slotAt (lengths.zip codes) p (p + bits) (pfx + j * 2 ^ p)) := by
  rw [fill, fold_putSymbol_getElem (fun sym hs => h.code_lt _ (mem_of_mem_zipIdx hs).1) hp hj,
    List.getElem?_replicate, if_pos hj]
  rfl

variable {p width w q m v : Nat} {slot : Slot} {syms : List ((Nat × Nat) × Nat)}

theorem fold_putHit_le {M : Nat} (hs : slot.nbits ≤ M) (h : ∀ sym ∈ syms, Hits p width w sym.1 → sym.1.1 - p ≤ M) :
    (syms.foldl (putHit p width w) slot).nbits ≤ M := by
  induction syms generalizing slot with
  | nil => exact hs
  | cons sym syms ih =>
    refine ih ?_ fun s hm => h s (List.mem_cons_of_mem _ hm)
    unfold putHit
    split
    · rename_i hh
      exact Nat.max_le.mpr ⟨hs, h sym List.mem_cons_self hh⟩
    · exact hs

theorem le_fold_putHit : slot.nbits ≤ (syms.foldl (putHit p width w) slot).nbits := by
  induction syms generalizing slot with
  | nil => exact Nat.le_refl _
  | cons sym syms ih =>
    refine Nat.le_trans ?_ ih
    unfold putHit
    split
    · exact Nat.le_max_left _ _
    · exact Nat.le_refl _

theorem hit_le_fold {sym : (Nat × Nat) × Nat} (hm : sym ∈ syms) (hh : Hits p width w sym.1) :
    sym.1.1 - p ≤ (syms.foldl (putHit p width w) slot).nbits := by
  induction syms generalizing slot with
  | nil => exact absurd hm List.not_mem_nil
  | cons s syms ih =>
    rcases List.mem_cons.mp hm with rfl | hm
    · rw [List.foldl_cons]
      refine Nat.le_trans ?_ le_fold_putHit
      simp only [putHit, hh, if_true]
      exact Nat.le_max_right _ _
    · exact ih hm

theorem fold_putHit_congr (h : ∀ sym ∈ syms, Hits p width w sym.1 ↔ Hits p width v sym.1) :
    syms.foldl (putHit p width w) slot = syms.foldl (putHit p width v) slot := by
  induction syms generalizing slot with
  | nil => rfl
  | cons sym syms ih =>
    rw [List.foldl_cons, List.foldl_cons, ih fun s hm => h s (List.mem_cons_of_mem _ hm)]
    simp only [putHit, h sym List.mem_cons_self]

theorem fold_putHit_code {i : Nat} (h : (syms.foldl (putHit p width w) slot).code = some i) :
    slot.code = some i ∨ ∃ sym ∈ syms, sym.2 = i ∧ Hits p width w sym.1 := by
  induction syms generalizing slot with
  | nil => exact Or.inl h
  | cons sym syms ih =>
    rcases ih h with h | ⟨s, hm, hs⟩
    · unfold putHit at h
      split at h
      · rename_i hh
        exact Or.inr ⟨sym, List.mem_cons_self, Option.some.inj h, hh⟩
      · exact Or.inl h
    · exact Or.inr ⟨s, List.mem_cons_of_mem _ hm, hs⟩

section

variable {syms : List (Nat × Nat)}

theorem slotAt_le {M : Nat} (h : ∀ sym ∈ syms, Hits p width w sym → sym.1 - p ≤ M) : (slotAt syms p width w).nbits ≤ M :=
  fold_putHit_le (Nat.zero_le _) fun _ hm => h _ (mem_of_mem_zipIdx hm).1

theorem hit_le_slotAt {sym : Nat × Nat} (hm : sym ∈ syms) (hh : Hits p width w sym) :
    sym.1 - p ≤ (slotAt syms p width w).nbits := by
  obtain ⟨i, hi⟩ := List.mem_iff_getElem?.mp hm
  have hm : (sym, i) ∈ syms.zipIdx := List.mem_zipIdx_iff_getElem?.mpr hi
  exact hit_le_fold hm hh

theorem slotAt_congr (h : ∀ sym ∈ syms, Hits p width w sym ↔ Hits p width v sym) :
    slotAt syms p width w = slotAt syms p width v :=
  fold_putHit_congr fun _ hm => h _ (mem_of_mem_zipIdx hm).1

/-- A slot's symbol is one of the list, and the slot takes a bit at least. -/
theorem slotAt_code {i : Nat} (h : (slotAt syms p width w).code = some i) :
    i < syms.length ∧ 0 < (slotAt syms p width w).nbits := by
  rcases fold_putHit_code h with h | ⟨sym, hm, rfl, hh⟩
  · cases h
  · have h1 := mem_of_mem_zipIdx hm
    have h2 := hit_le_slotAt h1.1 hh
    have h3 := hh.1
    exact ⟨h1.2, by omega⟩

theorem Codes.slotAt_lt (h : Codes syms) (hp : p < MAXCODELEN) (width : Nat) : (slotAt syms p width w).nbits + p < MAXCODELEN := by
  have : (slotAt syms p width w).nbits ≤ MAXCODELEN - 1 - p := slotAt_le fun sym hm hh => by
    have := h.length_lt sym hm
    omega
  omega

/-- The slot of the bits `w`, of which only the low `n` were read and the others are taken
    to be zeros, is also the slot of what they turn out to be, unless it takes more than
    `n` bits. -/
theorem Codes.slotAt_more (h : Codes syms) {n : Nat} (hnw : n < width) (hv : v % 2 ^ n = w)
    (hle : (slotAt syms p width w).nbits + p ≤ n) : slotAt syms p width v = slotAt syms p width w := by
  have hshort : ∀ sym ∈ syms, Hits p width w sym → sym.1 ≤ n := fun sym hm hh => by
    have := hit_le_slotAt hm hh
    have := hh.1
    omega
  have hlow : ∀ l ≤ n, v % 2 ^ l = w % 2 ^ l := fun l hl => by
    rw [← hv, Nat.mod_mod_of_dvd _ (Nat.pow_dvd_pow 2 hl)]
  refine slotAt_congr fun sym hm => ⟨fun hh => ?_, fun hh => ?_⟩
  · by_cases hl : sym.1 ≤ n
    · refine ⟨hh.1, hh.2.trans ?_⟩
      exact hlow _ (Nat.le_trans (Nat.min_le_left _ _) hl)
    · -- a longer code would make one with zeros behind the bits read, and that one is in the slot
      obtain ⟨sym', hm', hlt, hcode⟩ := h.padded sym hm n (by omega)
      have hpre : sym.2 % 2 ^ n = w := by
        have he := congrArg (· % 2 ^ n) hh.2
        simp only [Nat.mod_mod_of_dvd _ (Nat.pow_dvd_pow 2 (show n ≤ min sym.1 width by omega))] at he
        rw [he, hv]
      have hhit : Hits p width w sym' := by
        refine ⟨by omega, ?_⟩
        rw [hcode, hpre]
      exact absurd (hshort sym' hm' hhit) (by omega)
  · refine ⟨hh.1, hh.2.trans ?_⟩
    exact (hlow _ (Nat.le_trans (Nat.min_le_left _ _) (hshort sym hm hh))).symm

end

/-! ## Tables -/

theorem bind_mapM_total {α β γ : Type*} {f : α → Option β} {g : List β → γ} {l : List α} (h : ∀ x ∈ l, ∃ y, f x = some y) :
    ∃ z, ((l.mapM f).bind fun l' => some (g l')) = some z := by
  have hl : ∃ l', l.mapM f = some l' := by
    induction l with
    | nil => exact ⟨[], rfl⟩
    | cons x l ih =>
      obtain ⟨y, hy⟩ := h x List.mem_cons_self
      obtain ⟨l', hl⟩ := ih fun z hz => h z (List.mem_cons_of_mem _ hz)
      exact ⟨y :: l', by simp [List.mapM_cons, hy, hl]⟩
  obtain ⟨l', hl⟩ := hl
  exact ⟨g l', by rw [hl]; rfl⟩

theorem mapM_getElem {α β : Type*} {f : α → Option β} {l : List α} {l' : List β} (h : l.mapM f = some l') {i : Nat} {x : α}
    (hx : l[i]? = some x) : ∃ y, l'[i]? = some y ∧ f x = some y := by
  induction l generalizing l' i with
  | nil => simp at hx
  | cons z l ih =>
    rw [List.mapM_cons] at h
    obtain ⟨y, hy, h⟩ := Option.bind_eq_some_iff.mp h
    obtain ⟨l1, hl, h⟩ := Option.bind_eq_some_iff.mp h
    cases h
    cases i with
    | zero =>
      cases hx
      exact ⟨y, rfl, hy⟩
    | succ i => exact ih hl hx

variable {codes lengths : List Nat} {pfx bits f : Nat}

/-- A table has an entry for every value of its bits: a symbol's, or a table of the codes
    that begin with them. -/
theorem mkonetab_entry {tab : Table} (hc : Codes (lengths.zip codes)) (hp : pfx < 2 ^ p)
    (h : mkonetab (f + 1) codes lengths pfx p bits = some tab) :
    ∃ table, tab = .mk (2 ^ bits - 1) table ∧ ∀ j < 2 ^ bits,
      ∀ slot, slotAt (lengths.zip codes) p (p + bits) (pfx + j * 2 ^ p) = slot →
        (slot.nbits ≤ bits ∧ table[j]? = some (.mk slot.nbits slot.code none)) ∨
        (bits < slot.nbits ∧ ∃ sub,
          mkonetab f codes lengths (pfx + j * 2 ^ p) (p + bits) (min (slot.nbits - bits) 7) = some sub ∧
          table[j]? = some (.mk bits none (some sub))) := by
  rw [mkonetab] at h
  obtain ⟨table, ht, h⟩ := Option.bind_eq_some_iff.mp h
  cases h
  refine ⟨table, rfl, fun j hj slot hs => ?_⟩
  obtain ⟨entry, hj', he⟩ := mapM_getElem ht (i := j) (x := (slot, j)) (by
    rw [List.getElem?_zipIdx, fill_getElem hc hp hj, hs]
    simp)
  dsimp only at he
  by_cases hle : slot.nbits ≤ bits
  · rw [if_pos hle] at he
    cases he
    exact Or.inl ⟨hle, hj'⟩
  · rw [if_neg hle] at he
    obtain ⟨sub, hsub, he⟩ := Option.bind_eq_some_iff.mp he
    cases he
    exact Or.inr ⟨by omega, sub, hsub, hj'⟩

theorem pfx_lt {p bits pfx j : Nat} (hp : pfx < 2 ^ p) (hj : j < 2 ^ bits) : pfx + j * 2 ^ p < 2 ^ (p + bits) := by
  have h1 : (j + 1) * 2 ^ p ≤ 2 ^ bits * 2 ^ p := Nat.mul_le_mul_right _ hj
  have h2 : (j + 1) * 2 ^ p = j * 2 ^ p + 2 ^ p := by ring
  rw [Nat.pow_add, Nat.mul_comm (2 ^ p)]
  omega

theorem mkonetab_total (hc : Codes (lengths.zip codes)) (hp : pfx < 2 ^ p) (hf : MAXCODELEN ≤ f + p) (hlt : p < MAXCODELEN)
    (hbits : 0 < bits ∨ ∀ sym ∈ lengths.zip codes, sym.1 ≤ p) :
    ∃ tab, mkonetab f codes lengths pfx p bits = some tab := by
  induction f generalizing pfx p bits with
  | zero => omega
  | succ f ih =>
    rw [mkonetab]
    refine bind_mapM_total ?_
    rintro ⟨slot, j⟩ hx
    have hx := List.mem_zipIdx_iff_getElem?.mp hx
    have hj : j < 2 ^ bits := by
      have := (List.getElem?_eq_some_iff.mp hx).1
      rwa [fill_length] at this
    rw [fill_getElem hc hp hj] at hx
    obtain rfl := Option.some.inj hx
    have hs := hc.slotAt_lt (w := pfx + j * 2 ^ p) hlt (p + bits)
    have hzero : (∀ sym ∈ lengths.zip codes, sym.1 ≤ p) → (slotAt (lengths.zip codes) p (p + bits) (pfx + j * 2 ^ p)).nbits ≤ 0 :=
      fun hb => slotAt_le fun sym hm hh => absurd hh.1 (Nat.not_lt.mpr (hb sym hm))
    generalize slotAt (lengths.zip codes) p (p + bits) (pfx + j * 2 ^ p) = slot at *
    dsimp only
    split
    · exact ⟨_, rfl⟩
    · rename_i hgt
      have hpos : 0 < bits := hbits.elim id fun hb => by
        have := hzero hb
        omega
      obtain ⟨sub, hsub⟩ := ih (pfx_lt hp hj) (by omega) (by omega)
        (Or.inl (show 0 < min (slot.nbits - bits) 7 by omega))
      exact ⟨_, by rw [hsub]; rfl⟩

/-! ## Lookups -/

/-- What a lookup of `nbits` bits may answer in a table of `nsyms` symbols, `p` bits
    having been looked up before. -/
def Lookup.Sound (nsyms p bits nbits : Nat) : Lookup → Prop
  | .short => nbits + p + 1 < MAXCODELEN
  | .missing => True
  | .found code bits' nbits' =>
    code < nsyms ∧ ∃ l, 0 < l ∧ l ≤ nbits ∧ bits' = bits >>> l ∧ nbits' = nbits - l

/-- The same answer where `e` more bits, `x`, stand behind those that were there. -/
def Lookup.more (x e : Nat) : Lookup → Lookup
  | .found code bits nbits => .found code (bits + x * 2 ^ nbits) (nbits + e)
  | r => r

theorem index_eq {v p pfx : Nat} (hv : v % 2 ^ p = pfx) (bits : Nat) :
    v / 2 ^ p &&& (2 ^ bits - 1) < 2 ^ bits ∧ pfx + (v / 2 ^ p &&& (2 ^ bits - 1)) * 2 ^ p = v % 2 ^ (p + bits) := by
  rw [Nat.and_two_pow_sub_one_eq_mod]
  refine ⟨Nat.mod_lt _ (Nat.two_pow_pos bits), ?_⟩
  rw [Nat.pow_add, Nat.mod_mul, hv, Nat.mul_comm]

theorem div_shiftRight (v p bits : Nat) : (v / 2 ^ p) >>> bits = v / 2 ^ (p + bits) := by
  rw [Nat.shiftRight_eq_div_pow, Nat.div_div_eq_div_mul, Nat.pow_add]

theorem huflookup_sound {tab : Table} (hc : Codes (lengths.zip codes)) (hp : pfx < 2 ^ p) (hlt : p < MAXCODELEN)
    (h : mkonetab f codes lengths pfx p bits = some tab) (hv : v % 2 ^ p = pfx) (n : Nat) :
    ∃ r, huflookup f (v / 2 ^ p) n tab = some r ∧ r.Sound (lengths.zip codes).length p (v / 2 ^ p) n := by
  induction f generalizing pfx p bits tab n with
  | zero => cases h
  | succ f ih =>
    obtain ⟨table, rfl, hent⟩ := mkonetab_entry hc hp h
    obtain ⟨hj, hw⟩ := index_eq hv bits
    have hlim := hc.slotAt_lt (w := v % 2 ^ (p + bits)) hlt (p + bits)
    have hcode : ∀ i, (slotAt (lengths.zip codes) p (p + bits) (v % 2 ^ (p + bits))).code = some i →
        i < (lengths.zip codes).length ∧ 0 < (slotAt (lengths.zip codes) p (p + bits) (v % 2 ^ (p + bits))).nbits :=
      fun i hi => slotAt_code hi
    have hent := hent _ hj _ (congrArg _ hw)
    rw [hw] at hent
    generalize slotAt (lengths.zip codes) p (p + bits) (v % 2 ^ (p + bits)) = slot at *
    rw [huflookup]
    obtain ⟨hle, he⟩ | ⟨hgt, sub, hsub, he⟩ := hent
    · rw [he]
      dsimp only
      split
      · exact ⟨_, rfl, show n + p + 1 < MAXCODELEN by omega⟩
      · rename_i hn
        cases hcd : slot.code with
        | none => exact ⟨_, rfl, trivial⟩
        | some i =>
          obtain ⟨h1, h2⟩ := hcode i hcd
          exact ⟨_, rfl, h1, slot.nbits, h2, by omega, rfl, rfl⟩
    · rw [he]
      dsimp only
      split
      · exact ⟨_, rfl, show n + p + 1 < MAXCODELEN by omega⟩
      · rename_i hn
        have hpfx : v % 2 ^ (p + bits) < 2 ^ (p + bits) := Nat.mod_lt _ (Nat.two_pow_pos _)
        obtain ⟨r, hr, hs⟩ := ih hpfx (by omega) hsub rfl (n - bits)
        rw [div_shiftRight]
        refine ⟨r, hr, ?_⟩
        cases r with
        | short =>
          have hs : n - bits + (p + bits) + 1 < MAXCODELEN := hs
          exact show n + p + 1 < MAXCODELEN by omega
        | missing => trivial
        | found code b m =>
          obtain ⟨h1, l, h2, h3, rfl, rfl⟩ := hs
          refine ⟨h1, bits + l, by omega, by omega, ?_, by omega⟩
          rw [Nat.shiftRight_add, ← div_shiftRight v p bits]

theorem add_shiftRight {v x n l : Nat} (hl : l ≤ n) : (v + x * 2 ^ n) >>> l = v >>> l + x * 2 ^ (n - l) := by
  have he : x * 2 ^ n = 2 ^ l * (x * 2 ^ (n - l)) := by
    rw [Nat.mul_left_comm, ← Nat.pow_add]
    congr 2
    omega
  rw [Nat.shiftRight_eq_div_pow, Nat.shiftRight_eq_div_pow, he, Nat.add_mul_div_left _ _ (Nat.two_pow_pos l)]

/-- A lookup that has enough bits finds the same with more of them. -/
theorem mkonetab_more {tab : Table} (hc : Codes (lengths.zip codes)) (hp : pfx < 2 ^ p)
    (h : mkonetab f codes lengths pfx p bits = some tab) (hv : v % 2 ^ p = pfx) {n x e : Nat} (hn : v < 2 ^ (p + n))
    {r : Lookup} (hr : huflookup f (v / 2 ^ p) n tab = some r) (hs : r ≠ .short) :
    huflookup f ((v + x * 2 ^ (p + n)) / 2 ^ p) (n + e) tab = some (r.more x e) := by
  induction f generalizing pfx p bits tab n with
  | zero => cases h
  | succ f ih =>
    obtain ⟨table, rfl, hent⟩ := mkonetab_entry hc hp h
    have hv' : (v + x * 2 ^ (p + n)) % 2 ^ p = pfx := by
      rw [Nat.pow_add, Nat.mul_left_comm, Nat.add_mul_mod_self_left, hv]
    obtain ⟨hj, hw⟩ := index_eq hv bits
    obtain ⟨hj', hw'⟩ := index_eq hv' bits
    have hent1 := hent _ hj _ (congrArg _ hw)
    rw [huflookup] at hr ⊢
    -- the entry is the same: either all its bits were there, or the missing ones do not matter
    have hsame : table[(v + x * 2 ^ (p + n)) / 2 ^ p &&& (2 ^ bits - 1)]? = table[v / 2 ^ p &&& (2 ^ bits - 1)]? := by
      by_cases hbn : bits ≤ n
      · congr 1
        rw [Nat.and_two_pow_sub_one_eq_mod, Nat.and_two_pow_sub_one_eq_mod, ← Nat.shiftRight_eq_div_pow,
          add_shiftRight (by omega), Nat.shiftRight_eq_div_pow, Nat.add_sub_cancel_left]
        have he : x * 2 ^ n = 2 ^ bits * (x * 2 ^ (n - bits)) := by
          rw [Nat.mul_left_comm, ← Nat.pow_add]
          congr 2
          omega
        rw [he, Nat.add_mul_mod_self_left]
      · have hvw : v % 2 ^ (p + bits) = v :=
          Nat.mod_eq_of_lt (Nat.lt_of_lt_of_le hn (Nat.pow_le_pow_right (by omega) (by omega)))
        obtain ⟨hle, he⟩ | ⟨hgt, sub, -, he⟩ := hent1
        · by_cases hfit : n < (slotAt (lengths.zip codes) p (p + bits) (v % 2 ^ (p + bits))).nbits
          · rw [he] at hr
            dsimp only at hr
            rw [if_pos hfit] at hr
            exact absurd (Option.some.inj hr).symm hs
          · have hmod : (v + x * 2 ^ (p + n)) % 2 ^ (p + bits) % 2 ^ (p + n) = v % 2 ^ (p + bits) := by
              rw [Nat.mod_mod_of_dvd _ (Nat.pow_dvd_pow 2 (by omega)), Nat.add_mul_mod_self_right, hvw, Nat.mod_eq_of_lt hn]
            have hslot : slotAt (lengths.zip codes) p (p + bits) ((v + x * 2 ^ (p + n)) % 2 ^ (p + bits)) =
                slotAt (lengths.zip codes) p (p + bits) (v % 2 ^ (p + bits)) :=
              hc.slotAt_more (by omega) hmod (by omega)
            obtain ⟨-, he'⟩ | ⟨hgt, -⟩ := hent _ hj' _ ((congrArg _ hw').trans hslot)
            · rw [he, he']
            · omega
        · rw [he] at hr
          dsimp only at hr
          rw [if_pos (by omega)] at hr
          exact absurd (Option.some.inj hr).symm hs
    rw [hsame]
    obtain ⟨hle, he⟩ | ⟨hgt, sub, hsub, he⟩ := hent1
    · rw [he] at hr ⊢
      dsimp only at hr ⊢
      split at hr
      · exact absurd (Option.some.inj hr).symm hs
      · rename_i hfit
        rw [if_neg (by omega)]
        generalize slotAt (lengths.zip codes) p (p + bits) (v % 2 ^ (p + bits)) = slot at *
        cases hcd : slot.code with
        | none =>
          rw [hcd] at hr
          cases hr
          rfl
        | some i =>
          rw [hcd] at hr
          cases hr
          simp only [Lookup.more]
          congr 2
          · rw [← Nat.shiftRight_eq_div_pow _ p, add_shiftRight (by omega), Nat.add_sub_cancel_left,
              add_shiftRight (by omega), Nat.shiftRight_eq_div_pow _ p]
          · omega
    · rw [he] at hr ⊢
      dsimp only at hr ⊢
      split at hr
      · exact absurd (Option.some.inj hr).symm hs
      · rename_i hfit
        rw [if_neg (by omega), div_shiftRight, show n + e - bits = n - bits + e by omega]
        rw [div_shiftRight] at hr
        have hpn : p + bits + (n - bits) = p + n := by omega
        have := ih (by rw [hw]; exact Nat.mod_lt _ (Nat.two_pow_pos _)) hsub hw.symm (by rw [hpn]; exact hn) hr
        rwa [hpn] at this

/-! ## The codes of a list of lengths -/

theorem countLengths_fold (count : List Nat) (h : ∀ l ∈ lengths, l < MAXCODELEN) :
    ∃ r, lengths.foldlM (fun count len => if len < MAXCODELEN then some (count.modify len (· + 1)) else none) count = some r ∧
      ∀ m, r[m]? = count[m]?.map (· + lengths.count m) := by
  induction lengths generalizing count with
  | nil => exact ⟨count, rfl, fun m => by simp⟩
  | cons len lengths ih =>
    obtain ⟨r, hr, hget⟩ := ih (count.modify len (· + 1)) fun l hl => h l (List.mem_cons_of_mem _ hl)
    refine ⟨r, ?_, fun m => ?_⟩
    · rw [List.foldlM_cons, if_pos (h len List.mem_cons_self)]
      exact hr
    · rw [hget, List.getElem?_modify, List.count_cons]
      by_cases hm : len = m
      · subst hm
        cases count[len]? with
        | none => rfl
        | some c => simp; omega
      · simp [hm]

theorem countLengths_get (h : ∀ l ∈ lengths, l < MAXCODELEN) :
    ∃ count, countLengths lengths = some count ∧ ∀ m, count[m]? = if m < MAXCODELEN then some (lengths.count m) else none := by
  obtain ⟨count, hc, hget⟩ := countLengths_fold (List.replicate MAXCODELEN 0) h
  refine ⟨count, hc, fun m => ?_⟩
  rw [hget, List.getElem?_replicate]
  split <;> simp

theorem startcodes_get {k : Nat → Nat} (counts : List Nat) {n i : Nat} (hn : 0 < n)
    (h : ∀ i < counts.length, counts[i]? = some (k (n + i))) (hi : i < counts.length) :
    (startcodes counts (start k n))[i]? = some (start k (n + i)) := by
  induction counts generalizing n i with
  | nil => exact absurd hi (Nat.not_lt_zero _)
  | cons count counts ih =>
    cases i with
    | zero => rfl
    | succ i =>
      have hcount : count = k n := Option.some.inj (h 0 (Nat.zero_lt_succ _))
      have hnext : (start k n + count) <<< 1 = start k (n + 1) := by
        rw [start_succ hn, hcount, Nat.shiftLeft_eq, Nat.pow_one, Nat.mul_comm]
      rw [startcodes, hnext, List.getElem?_cons_succ]
      rw [ih (Nat.succ_pos n) (fun j hj => ?_) (Nat.lt_of_succ_lt_succ hi), Nat.succ_add, Nat.add_succ]
      have := h (j + 1) (Nat.succ_lt_succ hj)
      rw [List.getElem?_cons_succ] at this
      rw [this, Nat.succ_add, Nat.add_succ]

theorem mirrorLoop_eq (len code acc : Nat) : mirrorLoop len code acc = acc * 2 ^ len + mirror len code := by
  induction len generalizing code acc with
  | zero => simp [mirrorLoop, mirror]
  | succ len ih =>
    have hlt : code % 2 < 2 ^ 1 := Nat.mod_lt _ (by decide)
    rw [mirrorLoop, ih, ← Nat.shiftLeft_add_eq_or_of_lt hlt, Nat.shiftLeft_eq, Nat.shiftRight_eq_div_pow, mirror, Nat.pow_one]
    ring

/-- The symbols of each length get the codes from that length's first on, in order. -/
theorem assignCodes_spec {startcode : List Nat} {g : Nat → Nat} (hg : ∀ m < MAXCODELEN, startcode[m]? = some (g m))
    (h : ∀ l ∈ lengths, l < MAXCODELEN) :
    ∃ codes, assignCodes startcode lengths = some codes ∧ codes.length = lengths.length ∧
      (∀ sym ∈ lengths.zip codes, ∃ q, g sym.1 ≤ q ∧ q < g sym.1 + lengths.count sym.1 ∧ sym.2 = mirror sym.1 q) ∧
      ∀ m q, g m ≤ q → q < g m + lengths.count m → (m, mirror m q) ∈ lengths.zip codes := by
  induction lengths generalizing startcode g with
  | nil => exact ⟨[], rfl, rfl, fun _ hm => absurd hm List.not_mem_nil, fun m q h1 h2 => by simp at h2; omega⟩
  | cons len lengths ih =>
    have hlen := h len List.mem_cons_self
    have hstep : ∀ m < MAXCODELEN, (startcode.modify len (· + 1))[m]? = some (if len = m then g m + 1 else g m) := by
      intro m hm
      rw [List.getElem?_modify, hg m hm]
      split <;> rfl
    obtain ⟨codes, hcodes, hl, hfwd, hbwd⟩ := ih hstep fun l hm => h l (List.mem_cons_of_mem _ hm)
    refine ⟨mirror len (g len) :: codes, ?_, by simp [hl], fun sym hm => ?_, fun m q h1 h2 => ?_⟩
    · rw [assignCodes, hg len hlen, hcodes]
      simp [mirrorLoop_eq]
    · rw [List.zip_cons_cons] at hm
      rcases List.mem_cons.mp hm with rfl | hm
      · refine ⟨g len, Nat.le_refl _, ?_, rfl⟩
        show g len < g len + (len :: lengths).count len
        rw [List.count_cons_self]
        omega
      · obtain ⟨q, h1, h2, h3⟩ := hfwd sym hm
        refine ⟨q, ?_, ?_, h3⟩
        · split at h1 <;> omega
        · by_cases he : len = sym.1
          · rw [if_pos he] at h2
            rw [he, List.count_cons_self]
            omega
          · rw [if_neg he] at h2
            rwa [List.count_cons_of_ne he]
    · rw [List.zip_cons_cons]
      by_cases he : len = m
      · subst he
        rw [List.count_cons_self] at h2
        by_cases hq : q = g len
        · rw [hq]
          exact List.mem_cons_self
        · refine List.mem_cons_of_mem _ (hbwd len q ?_ ?_)
          · rw [if_pos rfl]
            omega
          · rw [if_pos rfl]
            omega
      · rw [List.count_cons_of_ne he] at h2
        refine List.mem_cons_of_mem _ (hbwd m q ?_ ?_)
        · rwa [if_neg he]
        · rwa [if_neg he]

theorem assigned_codes {startcode : List Nat} (h : ∀ l ∈ lengths, l < MAXCODELEN)
    (hs : ∀ m < MAXCODELEN, startcode[m]? = some (start (lengths.count ·) m)) :
    ∃ codes, assignCodes startcode lengths = some codes ∧ codes.length = lengths.length ∧ Codes (lengths.zip codes) := by
  obtain ⟨codes, hc, hl, hfwd, hbwd⟩ := assignCodes_spec hs h
  refine ⟨codes, hc, hl, ⟨fun sym hm => h _ (List.of_mem_zip hm).1, fun sym hm => ?_, fun sym hm n hn => ?_⟩⟩
  · obtain ⟨q, -, -, hq⟩ := hfwd sym hm
    rw [hq]
    exact mirror_lt _ _
  · obtain ⟨q, h1, h2, hq⟩ := hfwd sym hm
    have hpos : 0 < 2 ^ (sym.1 - n) := Nat.two_pow_pos _
    have hlo : q / 2 ^ (sym.1 - n) * 2 ^ (sym.1 - n) ≤ q := Nat.div_mul_le_self _ _
    have hhi : q < (q / 2 ^ (sym.1 - n) + 1) * 2 ^ (sym.1 - n) := 
      (Nat.div_lt_iff_lt_mul hpos).mp (Nat.lt_succ_self _)
    obtain ⟨m, hm1, hm2, h3, h4⟩ := padded_code hn (Nat.lt_of_le_of_lt h1 hhi) (Nat.lt_of_le_of_lt hlo h2)
    refine ⟨_, hbwd m _ h3 h4, hm1, ?_⟩
    dsimp only
    rw [mirror_padded (Nat.le_of_lt hm1), hq, mirror_mod (Nat.le_of_lt hn)]

/-! ## Whole tables -/

/-- Every lookup in the table is answered, soundly, and the answer stays when bits are
    added behind those that were there. -/
def Table.Good (nsyms : Nat) (tab : Table) : Prop :=
  ∀ bits nbits, bits < 2 ^ nbits → ∃ r, huflookup MAXCODELEN bits nbits tab = some r ∧ r.Sound nsyms 0 bits nbits ∧
    (r ≠ .short → ∀ x e, huflookup MAXCODELEN (bits + x * 2 ^ nbits) (nbits + e) tab = some (r.more x e))

theorem le_maxlen {l m : Nat} (h : l ∈ lengths) : l ≤ lengths.foldl max m := by
  induction lengths generalizing m with
  | nil => exact absurd h List.not_mem_nil
  | cons a lengths ih =>
    rcases List.mem_cons.mp h with rfl | h
    · have hle : ∀ (ls : List Nat) n, n ≤ ls.foldl max n := by
        intro ls
        induction ls with
        | nil => exact fun n => Nat.le_refl n
        | cons b ls ihl => exact fun n => Nat.le_trans (Nat.le_max_left n b) (ihl _)
      exact Nat.le_trans (Nat.le_max_right m l) (hle lengths _)
    · exact ih h

/-- The starting codes of every length. -/
theorem startcodes_spec {count : List Nat}
    (hget : ∀ m, count[m]? = if m < MAXCODELEN then some (lengths.count m) else none) :
    ∀ m < MAXCODELEN, (0 :: startcodes count.tail 0)[m]? = some (start (lengths.count ·) m) := by
  have hclen : count.length = MAXCODELEN := by
    have h1 := hget (MAXCODELEN - 1)
    have h2 := hget MAXCODELEN
    rw [if_pos (by decide)] at h1
    rw [if_neg (by decide)] at h2
    have := (List.getElem?_eq_some_iff.mp h1).1
    have := List.getElem?_eq_none_iff.mp h2
    unfold MAXCODELEN at *
    omega
  intro m hm
  cases m with
  | zero => rfl
  | succ m =>
    rw [List.getElem?_cons_succ]
    have := startcodes_get (k := (lengths.count ·)) count.tail (n := 1) (i := m) Nat.one_pos (fun i hi => by
      rw [List.length_tail, hclen] at hi
      rw [List.getElem?_tail, hget, if_pos (by omega), Nat.add_comm]) (by rw [List.length_tail, hclen]; omega)
    rw [Nat.add_comm] at this
    exact this

/-- A table is made of the codes that the lengths stand for. -/
theorem mktable_codes (h : ∀ l ∈ lengths, l < MAXCODELEN) (hn : lengths.length ≤ MAXSYMS) :
    ∃ codes tab, (countLengths lengths).bind (fun count => assignCodes (0 :: startcodes count.tail 0) lengths) = some codes ∧
      codes.length = lengths.length ∧ Codes (lengths.zip codes) ∧ mktable lengths = some tab ∧
      mkonetab MAXCODELEN codes lengths 0 0 (if lengths.foldl max 0 < 9 then lengths.foldl max 0 else 9) = some tab := by
  obtain ⟨count, hcount, hget⟩ := countLengths_get h
  have hstart := startcodes_spec hget
  obtain ⟨codes, hcodes, hl, hok⟩ := assigned_codes h hstart
  have hbits : 0 < (if lengths.foldl max 0 < 9 then lengths.foldl max 0 else 9) ∨ ∀ sym ∈ lengths.zip codes, sym.1 ≤ 0 := by
    by_cases hz : lengths.foldl max 0 = 0
    · refine Or.inr fun sym hm => ?_
      have := le_maxlen (m := 0) (List.of_mem_zip hm).1
      omega
    · left
      split <;> omega
  obtain ⟨tab, htab⟩ := mkonetab_total (f := MAXCODELEN) hok (Nat.one_pos : 0 < 2 ^ 0) (Nat.le_refl _) (by decide) hbits
  refine ⟨codes, tab, ?_, hl, hok, ?_, htab⟩
  · rw [hcount, Option.bind_some, hcodes]
  · simp only [mktable, hcount, hn, if_true, hcodes, Option.bind_eq_bind, Option.bind_some]
    exact htab

theorem mktable_good (h : ∀ l ∈ lengths, l < MAXCODELEN) (hn : lengths.length ≤ MAXSYMS) :
    ∃ tab, mktable lengths = some tab ∧ tab.Good lengths.length := by
  obtain ⟨codes, tab, -, hl, hok, hmk, htab⟩ := mktable_codes h hn
  refine ⟨tab, hmk, fun bits nbits hb => ?_⟩
  obtain ⟨r, hr, hs⟩ := huflookup_sound hok Nat.one_pos (by decide) htab (Nat.mod_one bits) nbits
  have hlen : (lengths.zip codes).length = lengths.length := by rw [List.length_zip, hl, Nat.min_self]
  rw [Nat.pow_zero, Nat.div_one] at hr hs
  rw [hlen] at hs
  refine ⟨r, hr, hs, fun hne x e => ?_⟩
  have := mkonetab_more (p := 0) (x := x) (e := e) hok Nat.one_pos htab (Nat.mod_one bits) (by rwa [Nat.zero_add])
    (by rwa [Nat.pow_zero, Nat.div_one]) hne
  rwa [Nat.zero_add, Nat.pow_zero, Nat.div_one] at this

/-- A symbol whose code fits the first table is found there. -/
theorem mktable_lookup {tab : Table} {codes : List Nat} {width bits nbits n sym : Nat} (h : ∀ l ∈ lengths, l < MAXCODELEN)
    (hn : lengths.length ≤ MAXSYMS) (htab : mktable lengths = some tab)
    (hcodes : (countLengths lengths).bind (fun count => assignCodes (0 :: startcodes count.tail 0) lengths) = some codes)
    (hwidth : (if lengths.foldl max 0 < 9 then lengths.foldl max 0 else 9) = width)
    (hslot : slotAt (lengths.zip codes) 0 width (bits % 2 ^ width) = ⟨n, some sym⟩) (hnw : n ≤ width) (hnb : n ≤ nbits) :
    huflookup MAXCODELEN bits nbits tab = some (.found sym (bits >>> n) (nbits - n)) := by
  obtain ⟨codes', tab', hc, -, hok, hmk, hone⟩ := mktable_codes h hn
  cases hcodes.symm.trans hc
  cases htab.symm.trans hmk
  rw [hwidth] at hone
  obtain ⟨table, rfl, hentry⟩ := mkonetab_entry (f := MAXCODELEN - 1) hok Nat.one_pos hone
  have hlt : bits % 2 ^ width < 2 ^ width := Nat.mod_lt _ (Nat.two_pow_pos _)
  rcases hentry _ hlt ⟨n, some sym⟩ (by simpa using hslot) with ⟨-, hj⟩ | ⟨hlt', -⟩
  · rw [show MAXCODELEN = 15 + 1 from rfl, huflookup, Nat.and_two_pow_sub_one_eq_mod, hj]
    simp only [Nat.not_lt.mpr hnb, if_false]
  · dsimp only at hlt'
    omega

end Putty.Zlib
