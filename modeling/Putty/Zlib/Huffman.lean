/-
  Putty.Zlib.Huffman — the lookups in a table of `zlib_mktable` decode the canonical
  Huffman code of its lengths, as RFC 1951 hands it out (`codeOf`).

  The code lengths are complete or leave codes over (Kraft's inequality); a length 0 is a
  symbol without a code. No code then begins another, so a slot of a table that leads to a
  symbol leads to this one only (`slotAt_unique`), and `huflookup_exact` follows a lookup
  down the nested tables. `mktable_decodes` is the verdict in terms of streams of bits.
-/

import Putty.Zlib.Tables

namespace Putty.Zlib

open Putty.Lib.Canonical

/-! ## Canonical codes -/

/-- The first code of each length: bl_count[0] is 0, `code = (code + bl_count[bits - 1]) << 1`. -/
def rfcNextCode (lengths : List Nat) : Nat → Nat
  | 0 => 0
  | bits + 1 => 2 * (rfcNextCode lengths bits + if bits = 0 then 0 else lengths.count bits)

/-- The bits of a code, which is packed starting from its most significant bit. -/
def codeBits : Nat → Nat → List Bool
  | 0, _ => []
  | len + 1, code => codeBits len (code / 2) ++ [code % 2 == 1]

/-- The code of a symbol: the symbols of one length have consecutive codes. -/
def codeOf (lengths : List Nat) (sym : Nat) : Option (List Bool) :=
  match lengths[sym]? with
  | none => none
  | some 0 => none
  | some (len + 1) => some (codeBits (len + 1) (rfcNextCode lengths (len + 1) + (lengths.take sym).count (len + 1)))

/-- The number whose lowest bit comes first. -/
def ofBits : List Bool → Nat
  | [] => 0
  | b :: bs => b.toNat + 2 * ofBits bs

/-- What the bits that are there decode to. -/
inductive Decodes (lengths : List Nat) (stream : List Bool) : Lookup → Prop
  | found {sym : Nat} {code rest : List Bool} (hc : codeOf lengths sym = some code) (hs : stream = code ++ rest) :
      Decodes lengths stream (.found sym (ofBits rest) rest.length)
  | short {sym : Nat} {code : List Bool} (hnone : ∀ sym code, codeOf lengths sym = some code → ¬code <+: stream)
      (hc : codeOf lengths sym = some code) (hs : stream <+: code) : Decodes lengths stream .short
  | missing (hnone : ∀ sym code, codeOf lengths sym = some code → ¬code <+: stream ∧ ¬stream <+: code) :
      Decodes lengths stream .missing

/-- Code lengths from 1 to 15, or 0 for no code, that are complete or leave codes over. -/
structure Subscribed (lengths : List Nat) : Prop where
  syms : lengths.length ≤ MAXSYMS
  length_lt : ∀ l ∈ lengths, l < MAXCODELEN
  kraft_le : kraft (MAXCODELEN - 1) lengths ≤ 2 ^ (MAXCODELEN - 1)

/-! ## The lookup in terms of numbers -/

/-- No code begins another. -/
def PrefixFree (syms : List (Nat × Nat)) : Prop :=
  ∀ (i j : Nat) (s t : Nat × Nat),
    syms[i]? = some s → syms[j]? = some t → 0 < s.1 → s.1 ≤ t.1 → t.2 % 2 ^ s.1 = s.2 → i = j

section Slots

variable {syms : List (Nat × Nat)} {p width w i : Nat} {sym : Nat × Nat}

theorem fold_putHit_isSome {l : List ((Nat × Nat) × Nat)} (slot : Slot) {x : (Nat × Nat) × Nat} (hm : x ∈ l)
    (hh : Hits p width w x.1) : (l.foldl (putHit p width w) slot).code.isSome := by
  have hkeep : ∀ (l : List ((Nat × Nat) × Nat)) (slot : Slot),
      slot.code.isSome → (l.foldl (putHit p width w) slot).code.isSome := by
    intro l
    induction l with
    | nil => exact fun _ h => h
    | cons y l ih =>
      intro slot h
      refine ih _ ?_
      unfold putHit
      split
      · rfl
      · exact h
  induction l generalizing slot with
  | nil => cases hm
  | cons y l ih =>
    rcases List.mem_cons.mp hm with rfl | hm
    · refine hkeep l _ ?_
      simp only [putHit, hh, if_true]
      rfl
    · exact ih _ hm

/-- A slot that one code only leads to. -/
theorem slotAt_unique (hs : syms[i]? = some sym) (hh : Hits p width w sym)
    (hu : ∀ (j : Nat) (t : Nat × Nat), syms[j]? = some t → Hits p width w t → j = i) :
    slotAt syms p width w = ⟨sym.1 - p, some i⟩ := by
  have hm : (sym, i) ∈ syms.zipIdx := List.mem_zipIdx_iff_getElem?.mpr hs
  have hle : (slotAt syms p width w).nbits ≤ sym.1 - p := by
    refine slotAt_le fun t ht hht => ?_
    obtain ⟨j, hj⟩ := List.mem_iff_getElem?.mp ht
    obtain rfl := hu j t hj hht
    rw [hs] at hj
    exact (Option.some.inj hj) ▸ le_rfl
  have hge := hit_le_slotAt (List.mem_of_getElem? hs) hh
  obtain ⟨k, hk⟩ := Option.isSome_iff_exists.mp (fold_putHit_isSome ⟨0, none⟩ hm hh)
  have hk' : (slotAt syms p width w).code = some k := hk
  rcases fold_putHit_code hk with h | ⟨⟨t, j⟩, ht, rfl, hht⟩
  · cases h
  · obtain rfl := hu j t (List.mem_zipIdx_iff_getElem?.mp ht) hht
    cases hslot : slotAt syms p width w with
    | mk nbits code =>
      rw [hslot] at hle hge hk'
      dsimp only at hle hge hk'
      rw [hk', Nat.le_antisymm hle hge]

theorem slotAt_nothing (p width w : Nat) (h : ∀ t ∈ syms, ¬Hits p width w t) : slotAt syms p width w = ⟨0, none⟩ := by
  have hle : (slotAt syms p width w).nbits ≤ 0 := slotAt_le fun t ht hh => absurd hh (h t ht)
  cases hc : (slotAt syms p width w).code with
  | none =>
    cases hslot : slotAt syms p width w with
    | mk nbits code =>
      rw [hslot] at hle hc
      dsimp only at hle hc
      rw [hc, Nat.le_zero.mp hle]
  | some k =>
    have := (slotAt_code hc).2
    omega

end Slots

/-- What a lookup of the `n` bits of `v` behind `p` bits looked up already has to give. -/
inductive Exact (syms : List (Nat × Nat)) (p n v : Nat) : Lookup → Prop
  | found {i : Nat} {sym : Nat × Nat} (hs : syms[i]? = some sym) (hp : p < sym.1) (hn : sym.1 ≤ p + n)
      (hv : v % 2 ^ sym.1 = sym.2) : Exact syms p n v (.found i (v / 2 ^ sym.1) (p + n - sym.1))
  | short {sym : Nat × Nat} (hs : sym ∈ syms) (hn : p + n < sym.1) (hv : sym.2 % 2 ^ (p + n) = v)
      (hnone : ∀ t ∈ syms, p < t.1 → t.1 ≤ p + n → v % 2 ^ t.1 ≠ t.2) : Exact syms p n v .short
  | missing (hnone : ∀ t ∈ syms, p < t.1 → if t.1 ≤ p + n then v % 2 ^ t.1 ≠ t.2 else t.2 % 2 ^ (p + n) ≠ v) :
      Exact syms p n v .missing

section Lookup

variable {codes lengths : List Nat} {syms : List (Nat × Nat)} {p bits n v pfx f : Nat} {r : Lookup}

theorem mod_mod_pow {x a b : Nat} (h : a ≤ b) : x % 2 ^ b % 2 ^ a = x % 2 ^ a := Nat.mod_mod_of_dvd _ (Nat.pow_dvd_pow 2 h)

/-- The same lookup, seen from a table further down. -/
theorem Exact.deeper (h : Exact syms p n v r) (hb : bits ≤ n)
    (hlong : ∀ sym ∈ syms, p < sym.1 → sym.1 ≤ p + n → v % 2 ^ sym.1 = sym.2 → p + bits < sym.1) :
    Exact syms (p + bits) (n - bits) v r := by
  have hsum : p + bits + (n - bits) = p + n := by omega
  cases h with
  | found hs hp hn hv =>
    rw [← hsum]
    exact .found hs (hlong _ (List.mem_of_getElem? hs) hp hn hv) (by omega) hv
  | short hs hn hv hnone =>
    exact .short hs (by omega) (by rw [hsum]; exact hv) fun t ht hpt htn => hnone t ht (by omega) (by omega)
  | missing hnone =>
    refine .missing fun t ht hpt => ?_
    rw [hsum]
    exact hnone t ht (by omega)

/-- A code that agrees with the bits beyond a complete one is that one. -/
theorem PrefixFree.not_longer (hfree : PrefixFree syms) {sym t : Nat × Nat} (hs : sym ∈ syms) (ht : t ∈ syms)
    (hpos : 0 < sym.1) (hlt : sym.1 < t.1) {m : Nat} (hm : sym.1 ≤ m) (hv : v % 2 ^ sym.1 = sym.2) : t.2 % 2 ^ m ≠ v % 2 ^ m := by
  intro he
  obtain ⟨i, hi⟩ := List.mem_iff_getElem?.mp hs
  obtain ⟨j, hj⟩ := List.mem_iff_getElem?.mp ht
  have hij : i = j := by
    refine hfree i j sym t hi hj hpos hlt.le ?_
    rw [← mod_mod_pow hm, he, mod_mod_pow hm, hv]
  subst hij
  rw [hi] at hj
  obtain rfl := Option.some.inj hj
  omega

theorem huflookup_exact {tab : Table} (hc : Codes (lengths.zip codes)) (hfree : PrefixFree (lengths.zip codes)) (hp : pfx < 2 ^ p)
    (h : mkonetab f codes lengths pfx p bits = some tab) (hv : v % 2 ^ p = pfx) (hn : v < 2 ^ (p + n))
    (hr : Exact (lengths.zip codes) p n v r) : huflookup f (v / 2 ^ p) n tab = some r := by
  induction f generalizing pfx p bits tab n with
  | zero => cases h
  | succ f ih =>
    obtain ⟨table, rfl, hent⟩ := mkonetab_entry hc hp h
    obtain ⟨hj, hw⟩ := index_eq hv bits
    have hent := hent _ hj _ (congrArg _ hw)
    rw [hw] at hent
    have hhit : ∀ t : Nat × Nat, Hits p (p + bits) (v % 2 ^ (p + bits)) t ↔
        p < t.1 ∧ t.2 % 2 ^ min t.1 (p + bits) = v % 2 ^ min t.1 (p + bits) := fun t => by
      unfold Hits
      rw [mod_mod_pow (Nat.min_le_right _ _)]
    rw [huflookup]
    obtain ⟨hle, he⟩ | ⟨hgt, sub, hsub, he⟩ := hent
    · -- an entry of a symbol, or of nothing
      rw [he]
      dsimp only
      have hshort : ∀ t ∈ lengths.zip codes, Hits p (p + bits) (v % 2 ^ (p + bits)) t → t.1 ≤ p + bits := by
        intro t ht hh
        have := hit_le_slotAt ht hh
        have := hh.1
        omega
      cases hr with
      | found hs hps hsn hvs =>
        rename_i i sym
        have hm := List.mem_of_getElem? hs
        have hlen : sym.1 ≤ p + bits := by
          by_contra hlong
          refine hlong (hshort sym hm ((hhit sym).mpr ⟨hps, ?_⟩))
          rw [← hvs, mod_mod_pow (Nat.min_le_left _ _)]
        have hself : Hits p (p + bits) (v % 2 ^ (p + bits)) sym := by
          rw [hhit, Nat.min_eq_left hlen, Nat.mod_eq_of_lt (hc.code_lt sym hm)]
          exact ⟨hps, hvs.symm⟩
        have hslot := slotAt_unique hs hself fun j t hj hht => by
          have htm := List.mem_of_getElem? hj
          have htlen := hshort t htm hht
          obtain ⟨hpt, htv⟩ := (hhit t).mp hht
          rw [Nat.min_eq_left htlen, Nat.mod_eq_of_lt (hc.code_lt t htm)] at htv
          rcases Nat.le_total sym.1 t.1 with hst | hts
          · exact (hfree i j sym t hs hj (by omega) hst (by rw [htv, mod_mod_pow hst, hvs])).symm
          · exact hfree j i t sym hj hs (by omega) hts (by rw [← hvs, mod_mod_pow hts, htv])
        rw [hslot, if_neg (by dsimp only; omega)]
        dsimp only
        rw [div_shiftRight, show p + (sym.1 - p) = sym.1 by omega, show n - (sym.1 - p) = p + n - sym.1 by omega]
      | short hs hsn hsv hnone =>
        obtain ⟨t, ht, hlt, hcode⟩ := hc.padded _ hs _ hsn
        rw [hsv] at hcode
        have hht : Hits p (p + bits) (v % 2 ^ (p + bits)) t := (hhit t).mpr ⟨by omega, by rw [hcode]⟩
        have := hit_le_slotAt ht hht
        rw [if_pos (by omega)]
      | missing hnone =>
        have hslot := slotAt_nothing p (p + bits) (v % 2 ^ (p + bits)) fun t ht hht => by
          have htlen := hshort t ht hht
          obtain ⟨hpt, htv⟩ := (hhit t).mp hht
          rw [Nat.min_eq_left htlen, Nat.mod_eq_of_lt (hc.code_lt t ht)] at htv
          have := hnone t ht hpt
          split at this
          · exact this htv.symm
          · next hgt =>
            refine this ?_
            rw [htv, mod_mod_pow (by omega), Nat.mod_eq_of_lt hn]
        rw [hslot]
        simp
    · -- an entry of a table further down
      obtain ⟨t, ht, hht, htlong⟩ :
          ∃ t ∈ lengths.zip codes, Hits p (p + bits) (v % 2 ^ (p + bits)) t ∧ p + bits < t.1 := by
        by_contra hno
        refine absurd (slotAt_le (M := bits) fun t ht hht => ?_) (Nat.not_le_of_lt hgt)
        have hpt := hht.1
        by_contra hlt
        exact hno ⟨t, ht, hht, by omega⟩
      obtain ⟨hpt, htv⟩ := (hhit t).mp hht
      rw [Nat.min_eq_right htlong.le] at htv
      have hlong : ∀ sym ∈ lengths.zip codes, p < sym.1 → v % 2 ^ sym.1 = sym.2 → p + bits < sym.1 := by
        intro sym hs hps hvs
        by_contra hle
        exact hfree.not_longer hs ht (by omega) (by omega) (by omega) hvs htv
      rw [he]
      dsimp only
      split
      · next hnb =>
        -- too few bits for the index, and a longer code begins with them
        have htn : t.2 % 2 ^ (p + n) = v := by
          rw [← mod_mod_pow (show p + n ≤ p + bits by omega), htv, mod_mod_pow (by omega), Nat.mod_eq_of_lt hn]
        cases hr with
        | found hs hps hsn hvs =>
          have := hlong _ (List.mem_of_getElem? hs) hps hvs
          omega
        | short => rfl
        | missing hnone =>
          have := hnone t ht hpt
          rw [if_neg (by omega)] at this
          exact absurd htn this
      · next hnb =>
        rw [div_shiftRight]
        refine ih (Nat.mod_lt _ (Nat.two_pow_pos _)) hsub rfl ?_ ?_
        · rwa [show p + bits + (n - bits) = p + n by omega]
        · exact hr.deeper (by omega) fun sym hs hps _ hvs => hlong sym hs hps hvs

end Lookup

/-! ## Bits and numbers -/

section Bits

theorem ofBits_append (a b : List Bool) : ofBits (a ++ b) = ofBits a + 2 ^ a.length * ofBits b := by
  induction a with
  | nil => simp [ofBits]
  | cons x a ih =>
    rw [List.cons_append, ofBits, ofBits, ih, List.length_cons, Nat.pow_succ]
    ring

theorem ofBits_lt (a : List Bool) : ofBits a < 2 ^ a.length := by
  induction a with
  | nil => exact Nat.one_pos
  | cons x a ih =>
    have := Bool.toNat_le x
    rw [ofBits, List.length_cons, Nat.pow_succ]
    omega

theorem ofBits_injective {a b : List Bool} (hl : a.length = b.length) (h : ofBits a = ofBits b) : a = b := by
  induction a generalizing b with
  | nil => exact (List.length_eq_zero_iff.mp hl.symm).symm
  | cons x a ih =>
    cases b with
    | nil => cases hl
    | cons y b =>
      rw [ofBits, ofBits] at h
      have hx := Bool.toNat_le x
      have hy := Bool.toNat_le y
      have hxy : x.toNat = y.toNat := by omega
      have hbit : x = y := by
        cases x <;> cases y <;> first | rfl | cases hxy
      rw [ih (Nat.succ.inj hl) (by omega), hbit]

theorem ofBits_prefix {a b : List Bool} (h : a.length ≤ b.length) : a <+: b ↔ ofBits b % 2 ^ a.length = ofBits a := by
  have hsplit : ofBits b % 2 ^ a.length = ofBits (b.take a.length) := by
    conv_lhs => rw [← List.take_append_drop a.length b, ofBits_append, List.length_take, Nat.min_eq_left h]
    have := ofBits_lt (b.take a.length)
    rw [List.length_take, Nat.min_eq_left h] at this
    rw [Nat.add_mul_mod_self_left, Nat.mod_eq_of_lt this]
  rw [hsplit, List.prefix_iff_eq_take]
  constructor
  · intro he
    rw [← he]
  · intro he
    exact ofBits_injective (by rw [List.length_take, Nat.min_eq_left h]) he.symm

@[simp] theorem codeBits_length (len code : Nat) : (codeBits len code).length = len := by
  induction len generalizing code with
  | zero => rfl
  | succ len ih => rw [codeBits, List.length_append, ih, List.length_singleton]

theorem ofBits_codeBits (len code : Nat) : ofBits (codeBits len code) = mirror len code := by
  induction len generalizing code with
  | zero => rfl
  | succ len ih =>
    have hbit : (code % 2 == 1).toNat = code % 2 := by
      rcases Nat.mod_two_eq_zero_or_one code with h | h <;> rw [h] <;> rfl
    rw [codeBits, ofBits_append, ih, codeBits_length, mirror]
    simp only [ofBits, hbit]
    ring

theorem rfcNextCode_eq (lengths : List Nat) (bits : Nat) : rfcNextCode lengths bits = start (lengths.count ·) bits := by
  induction bits with
  | zero => rfl
  | succ bits ih =>
    rw [rfcNextCode, ih]
    cases bits with
    | zero => rfl
    | succ bits =>
      rw [if_neg (Nat.succ_ne_zero bits)]
      rfl

end Bits

/-! ## The codes of the table are the canonical ones -/

section Canonical

variable {lengths codes : List Nat}

/-- Which of its length's codes a symbol gets. -/
theorem assignCodes_getElem {startcode : List Nat} {g : Nat → Nat} (hg : ∀ m < MAXCODELEN, startcode[m]? = some (g m))
    (h : ∀ l ∈ lengths, l < MAXCODELEN) (hc : assignCodes startcode lengths = some codes) {i l : Nat}
    (hi : lengths[i]? = some l) :
    codes[i]? = some (mirror l (g l + (lengths.take i).count l)) := by
  induction lengths generalizing startcode g codes i with
  | nil => cases hi
  | cons len lengths ih =>
    have hlen := h len List.mem_cons_self
    simp only [assignCodes, hg len hlen, Option.bind_eq_bind, Option.bind_some] at hc
    obtain ⟨rest, hrest, hc⟩ := Option.bind_eq_some_iff.mp hc
    obtain rfl := Option.some.inj hc
    cases i with
    | zero =>
      obtain rfl := Option.some.inj hi
      simp [mirrorLoop_eq]
    | succ i =>
      have hstep : ∀ m < MAXCODELEN, (startcode.modify len (· + 1))[m]? = some (if len = m then g m + 1 else g m) := by
        intro m hm
        rw [List.getElem?_modify, hg m hm]
        split <;> rfl
      rw [List.getElem?_cons_succ] at hi ⊢
      rw [ih hstep (fun l hm => h l (List.mem_cons_of_mem _ hm)) hrest hi, List.take_succ_cons, List.count_cons]
      congr 2
      by_cases he : len = l
      · subst he
        simp only [if_true, beq_self_eq_true]
        omega
      · simp only [he, if_false, beq_eq_false_iff_ne.mpr he, Bool.false_eq_true, Nat.add_zero]

/-- The number of a symbol's code. -/
def codeNumber (lengths : List Nat) (i l : Nat) : Nat := start (lengths.count ·) l + (lengths.take i).count l

/-- The symbols of the table are those of the list with their codes. -/
structure Canonical (lengths codes : List Nat) : Prop where
  length_eq : codes.length = lengths.length
  get : ∀ i l, lengths[i]? = some l → codes[i]? = some (mirror l (codeNumber lengths i l))

theorem Canonical.zip_get (h : Canonical lengths codes) {i : Nat} {t : Nat × Nat} :
    (lengths.zip codes)[i]? = some t ↔ lengths[i]? = some t.1 ∧ t.2 = mirror t.1 (codeNumber lengths i t.1) := by
  rw [List.getElem?_zip_eq_some]
  constructor
  · rintro ⟨h1, h2⟩
    rw [h.get i t.1 h1] at h2
    exact ⟨h1, (Option.some.inj h2).symm⟩
  · rintro ⟨h1, h2⟩
    rw [h.get i t.1 h1, h2]
    exact ⟨h1, rfl⟩

theorem codeNumber_lt {i l : Nat} (hi : lengths[i]? = some l) :
    codeNumber lengths i l < start (lengths.count ·) l + lengths.count l := by
  have hsplit := congrArg (List.count l) (List.take_append_drop i lengths)
  rw [List.count_append] at hsplit
  have hpos : 0 < (lengths.drop i).count l := by
    refine List.count_pos_iff.mpr (List.mem_of_getElem? (i := 0) ?_)
    rw [List.getElem?_drop, Nat.add_zero]
    exact hi
  unfold codeNumber
  omega

theorem codeNumber_inj {i j l : Nat} (hi : lengths[i]? = some l) (hj : lengths[j]? = some l)
    (h : codeNumber lengths i l = codeNumber lengths j l) : i = j := by
  have hstep : ∀ {a b : Nat}, lengths[a]? = some l → a < b → (lengths.take a).count l < (lengths.take b).count l := by
    intro a b ha hab
    have hpre : lengths.take (a + 1) <+: lengths.take b := List.take_prefix_take_left (by omega)
    have hle := hpre.sublist.count_le l
    rw [List.take_add_one, ha, List.count_append] at hle
    simp only [Option.toList_some, List.count_singleton, beq_self_eq_true, if_true] at hle
    omega
  unfold codeNumber at h
  rcases Nat.lt_trichotomy i j with hlt | heq | hgt
  · have := hstep hi hlt
    omega
  · exact heq
  · have := hstep hj hgt
    omega

/-- Codes that fit their lengths do not begin each other. -/
theorem Canonical.prefixFree (h : Canonical lengths codes) (hs : Subscribed lengths) : PrefixFree (lengths.zip codes) := by
  intro i j s t hi hj hpos hle hmod
  obtain ⟨hi, hsc⟩ := h.zip_get.mp hi
  obtain ⟨hj, htc⟩ := h.zip_get.mp hj
  have hmax : ∀ {k l : Nat}, lengths[k]? = some l → l ≤ MAXCODELEN - 1 := fun hk =>
    Nat.le_sub_one_of_lt (hs.length_lt _ (List.mem_of_getElem? hk))
  have hsfit := (codeNumber_lt hi).trans_le (fits hs.kraft_le hpos (hmax hi))
  have htfit := (codeNumber_lt hj).trans_le (fits hs.kraft_le (hpos.trans_le hle) (hmax hj))
  have hpow : 0 < 2 ^ (t.1 - s.1) := Nat.two_pow_pos _
  have hdiv : codeNumber lengths j t.1 / 2 ^ (t.1 - s.1) < 2 ^ s.1 := by
    rw [Nat.div_lt_iff_lt_mul hpow, ← Nat.pow_add, Nat.add_sub_cancel' hle]
    exact htfit
  have hsame : codeNumber lengths j t.1 / 2 ^ (t.1 - s.1) = codeNumber lengths i s.1 := by
    refine mirror_injective hdiv hsfit ?_
    rw [← mirror_mod hle, ← htc, hmod, hsc]
  rcases Nat.eq_or_lt_of_le hle with heq | hlt
  · rw [← heq, Nat.sub_self, Nat.pow_zero, Nat.div_one] at hsame
    rw [← heq] at hj
    exact (codeNumber_inj hj hi hsame).symm
  · -- the longer code comes after all that the shorter ones begin
    exfalso
    have hlater := later_codes (k := (lengths.count ·)) hpos hlt
    have hge : (start (lengths.count ·) s.1 + lengths.count s.1) * 2 ^ (t.1 - s.1) ≤ codeNumber lengths j t.1 :=
      hlater.trans (Nat.le_add_right _ _)
    have := (Nat.le_div_iff_mul_le hpow).mpr hge
    have := codeNumber_lt hi
    omega

end Canonical

/-! ## Streams -/

section Streams

variable {lengths codes : List Nat} {stream : List Bool} {r : Lookup}

theorem codeOf_eq (lengths : List Nat) (i : Nat) : codeOf lengths i =
    match lengths[i]? with
    | none => none
    | some 0 => none
    | some (len + 1) => some (codeBits (len + 1) (codeNumber lengths i (len + 1))) := by
  unfold codeOf codeNumber
  simp only [rfcNextCode_eq]

/-- The code of a symbol is what the table has for it. -/
theorem Canonical.symbol (h : Canonical lengths codes) {i : Nat} {code : List Bool} (hc : codeOf lengths i = some code) :
    ∃ t, (lengths.zip codes)[i]? = some t ∧ 0 < t.1 ∧ code.length = t.1 ∧ ofBits code = t.2 := by
  rw [codeOf_eq] at hc
  split at hc
  · cases hc
  · cases hc
  · next len hl =>
    obtain rfl := Option.some.inj hc
    exact ⟨(len + 1, mirror (len + 1) (codeNumber lengths i (len + 1))), h.zip_get.mpr ⟨hl, rfl⟩, Nat.succ_pos len,
      codeBits_length _ _, ofBits_codeBits _ _⟩

theorem Canonical.code (h : Canonical lengths codes) {t : Nat × Nat} (ht : t ∈ lengths.zip codes) (hpos : 0 < t.1) :
    ∃ i code, codeOf lengths i = some code ∧ code.length = t.1 ∧ ofBits code = t.2 := by
  obtain ⟨i, hi⟩ := List.mem_iff_getElem?.mp ht
  obtain ⟨hl, hc⟩ := h.zip_get.mp hi
  obtain ⟨len, hlen⟩ := Nat.exists_eq_succ_of_ne_zero hpos.ne'
  refine ⟨i, codeBits t.1 (codeNumber lengths i t.1), ?_, codeBits_length _ _, ?_⟩
  · rw [codeOf_eq, hl, hlen]
  · rw [ofBits_codeBits, hc]

/-- What a stream decodes to is what the lookup of its bits has to give. -/
theorem Decodes.exact (h : Canonical lengths codes) (hd : Decodes lengths stream r) :
    Exact (lengths.zip codes) 0 stream.length (ofBits stream) r := by
  cases hd with
  | found hc hs =>
    rename_i sym code rest
    obtain ⟨t, ht, hpos, hlen, hbits⟩ := h.symbol hc
    have hmod : ofBits stream % 2 ^ t.1 = t.2 := by
      rw [← hlen, ← hbits, ← ofBits_prefix (by rw [hs, List.length_append]; omega), hs]
      exact List.prefix_append _ _
    have hrest : ofBits rest = ofBits stream / 2 ^ t.1 := by
      have := ofBits_lt code
      rw [hs, ofBits_append, ← hlen, Nat.add_mul_div_left _ _ (Nat.two_pow_pos _), Nat.div_eq_of_lt this, Nat.zero_add]
    have hlast : rest.length = 0 + stream.length - t.1 := by
      rw [hs, List.length_append, hlen]
      omega
    rw [hrest, hlast]
    exact .found ht hpos (by rw [hs, List.length_append]; omega) hmod
  | short hnone hc hs =>
    rename_i sym code
    obtain ⟨t, ht, hpos, hlen, hbits⟩ := h.symbol hc
    have hlt : stream.length < code.length := by
      refine Nat.lt_of_le_of_ne hs.length_le fun he => hnone sym code hc ?_
      exact hs.eq_of_length he ▸ List.prefix_rfl
    refine .short (List.mem_of_getElem? ht) (by omega) ?_ fun u hu hu0 hun hmod => ?_
    · rw [Nat.zero_add, ← hbits]
      exact ( ofBits_prefix hlt.le).mp hs
    · obtain ⟨i, c, hci, hcl, hcb⟩ := h.code hu hu0
      refine hnone i c hci (( ofBits_prefix (by omega)).mpr ?_)
      rw [hcl, hmod, hcb]
  | missing hnone =>
    refine .missing fun u hu hu0 => ?_
    obtain ⟨i, c, hci, hcl, hcb⟩ := h.code hu hu0
    obtain ⟨h1, h2⟩ := hnone i c hci
    rw [Nat.zero_add]
    split
    · rwa [← hcl, ← hcb, ne_eq, ← ofBits_prefix (by omega)]
    · rwa [← hcb, ne_eq, ← ofBits_prefix (by omega)]

/-- Every stream decodes to something. -/
theorem decodes_total (lengths : List Nat) (stream : List Bool) : ∃ r, Decodes lengths stream r := by
  by_cases hfound : ∃ sym code, codeOf lengths sym = some code ∧ code <+: stream
  · obtain ⟨sym, code, hc, rest, hs⟩ := hfound
    exact ⟨_, .found hc hs.symm⟩
  · have hnone : ∀ sym code, codeOf lengths sym = some code → ¬code <+: stream := fun sym code hc hp =>
      hfound ⟨sym, code, hc, hp⟩
    by_cases hshort : ∃ sym code, codeOf lengths sym = some code ∧ stream <+: code
    · obtain ⟨sym, code, hc, hs⟩ := hshort
      exact ⟨_, .short hnone hc hs⟩
    · exact ⟨_, .missing fun sym code hc => ⟨hnone sym code hc, fun hp => hshort ⟨sym, code, hc, hp⟩⟩⟩

/-- The table of the lengths is built, and a lookup in it gives exactly what the stream decodes to. -/
theorem mktable_decodes (hs : Subscribed lengths) :
    ∃ tab, mktable lengths = some tab ∧
      ∀ (stream : List Bool) (r : Lookup),
        huflookup MAXCODELEN (ofBits stream) stream.length tab = some r ↔ Decodes lengths stream r := by
  obtain ⟨codes, tab, hcodes, hlen, hok, hmk, htab⟩ := mktable_codes hs.length_lt hs.syms
  obtain ⟨count, hcount, hassign⟩ := Option.bind_eq_some_iff.mp hcodes
  obtain ⟨count', hcount', hget⟩ := countLengths_get hs.length_lt
  obtain rfl := Option.some.inj (hcount.symm.trans hcount')
  have hcanon : Canonical lengths codes :=
    ⟨hlen, fun i l hi => assignCodes_getElem (startcodes_spec hget) hs.length_lt hassign hi⟩
  have hlookup : ∀ (stream : List Bool) (r : Lookup), Decodes lengths stream r →
      huflookup MAXCODELEN (ofBits stream) stream.length tab = some r := fun stream r hd => by
    have := huflookup_exact hok (hcanon.prefixFree hs) Nat.one_pos htab (Nat.mod_one (ofBits stream))
      (by rw [Nat.zero_add]; exact ofBits_lt stream) (hd.exact hcanon)
    rwa [Nat.pow_zero, Nat.div_one] at this
  refine ⟨tab, hmk, fun stream r => ⟨fun hr => ?_, hlookup stream r⟩⟩
  obtain ⟨r', hd⟩ := decodes_total lengths stream
  obtain rfl := Option.some.inj (hr.symm.trans (hlookup stream r' hd))
  exact hd

theorem mktable_decodes_three :
    ∃ tab, mktable [2, 1, 2] = some tab ∧
      ∀ (stream : List Bool) (r : Lookup),
        huflookup MAXCODELEN (ofBits stream) stream.length tab = some r ↔ Decodes [2, 1, 2] stream r :=
  mktable_decodes ⟨by decide, by decide, by decide⟩

end Streams

end Putty.Zlib
