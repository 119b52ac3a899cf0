/-
  Putty.Mpint.Digits — numerals as `mpint.c` writes them: a fixed number of digits and a
  zero byte in a buffer, from which `trim_leading_zeroes` shifts the leading zeroes out.

  The shift goes in passes, pass `logd` moving everything down by `2 ^ logd` when that bit
  of the shift count is set; the bytes shifted out end up above the string's zero byte.

  Proved: the string that is left is the digits without their leading zeroes, one digit
  being kept (`trimmed_string`); of the digits of a number that is its numeral
  (`stripZeros_fixedDigits`).
-/

import Mathlib.Data.Nat.Digits.Defs
import Mathlib.Data.List.GetD
import Mathlib.Data.List.Induction
import Mathlib.Tactic.Linarith

namespace Putty.Mpint

/-- SIZE_MAX, for a size_t of 64 bits. -/
def sizeMax : Nat := 2 ^ 64 - 1

/-- The digits of a number, the highest first, without leading zeroes. -/
def numeral (b v : Nat) : List Nat := if v = 0 then [0] else (Nat.digits b v).reverse

/-- The lowest `n` digits, the highest first. -/
def fixedDigits (b : Nat) : Nat → Nat → List Nat
  | 0, _ => []
  | n + 1, v => fixedDigits b n (v / b) ++ [v % b]

def stripZeros {α : Type} [DecidableEq α] (zero : α) : List α → List α
  | c :: d :: l => if c = zero then stripZeros zero (d :: l) else c :: d :: l
  | l => l

/-- The shift count, chosen by masks from the highest position down. -/
def trimCount (buf : List UInt8) (maxtrim : Nat) : Nat :=
  (List.range maxtrim).reverse.foldl (fun trim pos => if buf.getD pos 0 ^^^ 48 = 0 then trim else pos) maxtrim

/-- One exchange, made or not by the mask. -/
def maskedSwap (mask : UInt8) (d : Nat) (ubuf : List UInt8) (i : Nat) : List UInt8 :=
  let diff := mask &&& (ubuf.getD i 0 ^^^ ubuf.getD (i + d) 0)
  (ubuf.set i (ubuf.getD i 0 ^^^ diff)).set (i + d) (ubuf.getD (i + d) 0 ^^^ diff)

def shiftPass (mask : UInt8) (d : Nat) (ubuf : List UInt8) : List UInt8 := (List.range (ubuf.length - d)).foldl (maskedSwap mask d) ubuf

def trimLeadingZeroes (buf : List UInt8) (maxtrim : Nat) : List UInt8 :=
  let trim := trimCount buf maxtrim
  (List.range (Nat.log2 buf.length + 1)).foldl
    (fun ubuf logd => shiftPass (if (trim >>> logd) % 2 = 1 then 0xff else 0) (2 ^ logd) ubuf) buf

/-- The string that a char pointer gives. -/
def cString (buf : List UInt8) : List UInt8 := buf.takeWhile (· ≠ 0)

/-! ## The shift -/

theorem maskedSwap_off (d : Nat) (ubuf : List UInt8) (i : Nat) : maskedSwap 0 d ubuf i = ubuf := by
  have hset : ∀ (l : List UInt8) (k : Nat), l.set k (l.getD k 0) = l := by
    intro l k
    apply List.ext_getElem?
    intro j
    by_cases hk : k < l.length
    · rw [List.getD_eq_getElem _ _ hk]
      simp
    · rw [List.set_eq_of_length_le (by omega)]
  unfold maskedSwap
  dsimp only
  rw [UInt8.zero_and, UInt8.xor_zero, UInt8.xor_zero, hset, hset]

@[simp] theorem length_maskedSwap (mask : UInt8) (d : Nat) (ubuf : List UInt8) (i : Nat) :
    (maskedSwap mask d ubuf i).length = ubuf.length := by
  unfold maskedSwap
  rw [List.length_set, List.length_set]

/-- What an exchange puts in the lower place, and what it leaves alone above. -/
theorem maskedSwap_on {d : Nat} (hd : 0 < d) {ubuf : List UInt8} {i : Nat} (h : i + d < ubuf.length) (j : Nat) :
    (j = i → (maskedSwap 0xff d ubuf i)[j]? = ubuf[i + d]?) ∧
      (j ≠ i → j ≠ i + d → (maskedSwap 0xff d ubuf i)[j]? = ubuf[j]?) := by
  have hones : ∀ a b : UInt8, a ^^^ (0xff &&& (a ^^^ b)) = b := by
    intro a b
    have hff : (0xff : UInt8) &&& (a ^^^ b) = a ^^^ b := by
      rw [UInt8.and_comm]
      exact UInt8.and_neg_one
    rw [hff, ← UInt8.xor_assoc, UInt8.xor_self, UInt8.zero_xor]
  unfold maskedSwap
  dsimp only
  constructor
  · intro hj
    subst hj
    rw [List.getElem?_set_ne (by omega), List.getElem?_set_self (by omega), hones, List.getD_eq_getElem _ _ h, List.getElem?_eq_getElem h]
  · intro h1 h2
    rw [List.getElem?_set_ne (by omega), List.getElem?_set_ne (by omega)]

/-- A pass moves everything down by `d`, what was below `d` going up. -/
theorem shiftPass_on {d : Nat} (hd : 0 < d) (ubuf : List UInt8) :
    (shiftPass 0xff d ubuf).length = ubuf.length ∧ ∀ j, j + d < ubuf.length → (shiftPass 0xff d ubuf)[j]? = ubuf[j + d]? := by
  have hloop : ∀ k ≤ ubuf.length - d, ∀ l, l = (List.range k).foldl (maskedSwap 0xff d) ubuf →
      l.length = ubuf.length ∧ (∀ j < k, l[j]? = ubuf[j + d]?) ∧ ∀ j, k + d ≤ j → l[j]? = ubuf[j]? := by
    intro k
    induction k with
    | zero =>
      intro _ l hl
      subst hl
      exact ⟨rfl, fun j hj => absurd hj (Nat.not_lt_zero j), fun _ _ => rfl⟩
    | succ k ih =>
      intro hk l hl
      obtain ⟨hlen, hlow, hhigh⟩ := ih (by omega) _ rfl
      rw [List.range_succ, List.foldl_append, List.foldl_cons, List.foldl_nil] at hl
      generalize (List.range k).foldl _ _ = l0 at hlen hlow hhigh hl
      subst hl
      have hswap := maskedSwap_on hd (show k + d < l0.length by omega)
      refine ⟨by rw [length_maskedSwap, hlen], ?_, ?_⟩
      · intro j hj
        by_cases hjk : j = k
        · rw [(hswap j).1 hjk, hhigh _ (Nat.le_refl _), hjk]
        · rw [(hswap j).2 hjk (by omega), hlow j (by omega)]
      · intro j hj
        rw [(hswap j).2 (by omega) (by omega), hhigh j (by omega)]
  obtain ⟨hlen, hlow, -⟩ := hloop _ (Nat.le_refl _) _ rfl
  refine ⟨hlen, ?_⟩
  intro j hj
  exact hlow j (by omega)

theorem shiftPass_off (d : Nat) (ubuf : List UInt8) : shiftPass 0 d ubuf = ubuf := by
  unfold shiftPass
  generalize List.range (ubuf.length - d) = is
  induction is with
  | nil => rfl
  | cons i is ih => rw [List.foldl_cons, maskedSwap_off, ih]

/-- The passes together move everything down by the shift count. -/
theorem trimLeadingZeroes_spec {buf : List UInt8} {maxtrim : Nat} (h : trimCount buf maxtrim < buf.length) (j : Nat)
    (hj : j + trimCount buf maxtrim < buf.length) : (trimLeadingZeroes buf maxtrim)[j]? = buf[j + trimCount buf maxtrim]? := by
  unfold trimLeadingZeroes
  dsimp only
  generalize trimCount buf maxtrim = trim at *
  have hloop : ∀ k l, l = (List.range k).foldl
      (fun ubuf logd => shiftPass (if (trim >>> logd) % 2 = 1 then 0xff else 0) (2 ^ logd) ubuf) buf →
      l.length = buf.length ∧ ∀ j, j + trim % 2 ^ k < buf.length → l[j]? = buf[j + trim % 2 ^ k]? := by
    intro k
    induction k with
    | zero =>
      intro l hl
      subst hl
      refine ⟨rfl, ?_⟩
      intro j _
      rw [Nat.pow_zero, Nat.mod_one]
      rfl
    | succ k ih =>
      intro l hl
      obtain ⟨hlen, hget⟩ := ih _ rfl
      rw [List.range_succ, List.foldl_append, List.foldl_cons, List.foldl_nil] at hl
      generalize (List.range k).foldl _ _ = l0 at hlen hget hl
      rw [Nat.pow_succ, Nat.mod_mul]
      rw [Nat.shiftRight_eq_div_pow] at hl
      by_cases hbit : trim / 2 ^ k % 2 = 1
      · rw [if_pos hbit] at hl
        obtain ⟨hlen', hget'⟩ := shiftPass_on (Nat.two_pow_pos k) l0
        subst hl
        refine ⟨by rw [hlen', hlen], ?_⟩
        intro j hj
        rw [hbit, Nat.mul_one] at hj ⊢
        rw [hget' j (by omega), hget _ (by omega)]
        congr 1
        omega
      · rw [if_neg hbit, shiftPass_off] at hl
        subst hl
        refine ⟨hlen, ?_⟩
        rw [show trim / 2 ^ k % 2 = 0 by omega, Nat.mul_zero, Nat.add_zero]
        exact hget
  obtain ⟨-, hget⟩ := hloop (Nat.log2 buf.length + 1) _ rfl
  have hsmall : trim < 2 ^ (Nat.log2 buf.length + 1) := by
    have := (Nat.log2_lt (show buf.length ≠ 0 by omega)).mp (Nat.lt_succ_self _)
    omega
  rw [Nat.mod_eq_of_lt hsmall] at hget
  exact hget j hj

/-! ## The leading zeroes -/

/-- The shift count is the place of the first digit that is not a zero, or the last place. -/
theorem trimCount_spec (buf : List UInt8) (m : Nat) :
    trimCount buf m ≤ m ∧ (∀ pos < trimCount buf m, buf.getD pos 0 = 48) ∧
      (trimCount buf m < m → buf.getD (trimCount buf m) 0 ≠ 48) := by
  have hxor : ∀ c : UInt8, c ^^^ 48 = 0 ↔ c = 48 := fun c => UInt8.xor_eq_zero_iff
  have hloop : ∀ k ≤ m, ∀ t, t = ((List.range m).drop k).reverse.foldl (fun trim pos => if buf.getD pos 0 ^^^ 48 = 0 then trim else pos) m →
      t ≤ m ∧ k ≤ t ∧ (∀ pos < t, k ≤ pos → buf.getD pos 0 = 48) ∧ (t < m → buf.getD t 0 ≠ 48) := by
    intro k hk
    induction hk using Nat.decreasingInduction with
    | self =>
      intro t ht
      rw [List.drop_of_length_le (by rw [List.length_range])] at ht
      subst ht
      exact ⟨Nat.le_refl _, Nat.le_refl _, fun pos h1 h2 => absurd h1 (Nat.not_lt.mpr h2), fun h => absurd h (Nat.lt_irrefl _)⟩
    | of_succ k hk ih =>
      intro t ht
      obtain ⟨h1, h2, h3, h4⟩ := ih _ rfl
      rw [List.drop_eq_getElem_cons (by rw [List.length_range]; exact hk), List.getElem_range, List.reverse_cons, List.foldl_append,
        List.foldl_cons, List.foldl_nil] at ht
      generalize List.foldl _ m _ = t0 at h1 h2 h3 h4 ht
      by_cases hc : buf.getD k 0 = 48
      · rw [if_pos ((hxor _).mpr hc)] at ht
        subst ht
        refine ⟨h1, by omega, ?_, h4⟩
        intro pos hp hkp
        by_cases hpk : pos = k
        · rw [hpk, hc]
        · exact h3 pos hp (by omega)
      · rw [if_neg fun h => hc ((hxor _).mp h)] at ht
        subst ht
        exact ⟨Nat.le_of_lt hk, Nat.le_refl _, fun pos h1 h2 => absurd h1 (Nat.not_lt.mpr h2), fun _ => hc⟩
  obtain ⟨h1, -, h2, h3⟩ := hloop 0 (Nat.zero_le m) _ rfl
  exact ⟨h1, fun pos hp => h2 pos hp (Nat.zero_le pos), h3⟩

theorem stripZeros_drop {α : Type} [DecidableEq α] [Inhabited α] {zero : α} {l : List α} {t : Nat} (h : t < l.length)
    (hzeros : ∀ pos < t, l.getD pos default = zero) (hfirst : t + 1 < l.length → l.getD t default ≠ zero) : l.drop t = stripZeros zero l := by
  induction l generalizing t with
  | nil => exact absurd h (Nat.not_lt_zero t)
  | cons c l ih =>
    cases t with
    | zero =>
      cases l with
      | nil => rfl
      | cons d l =>
        have hc : c ≠ zero := hfirst (by simp)
        rw [List.drop_zero, stripZeros, if_neg hc]
    | succ t =>
      have hc : c = zero := hzeros 0 (Nat.succ_pos t)
      cases l with
      | nil => simp at h
      | cons d l =>
        rw [List.drop_succ_cons, stripZeros, if_pos hc]
        apply ih (Nat.lt_of_succ_lt_succ h)
        · intro pos hp
          exact hzeros (pos + 1) (Nat.succ_lt_succ hp)
        · intro ht
          exact hfirst (Nat.succ_lt_succ ht)

/-- The string in a trimmed buffer. -/
theorem trimmed_string {ds : List UInt8} (hne : ds ≠ []) (hdigits : ∀ c ∈ ds, c ≠ 0) :
    cString (trimLeadingZeroes (ds ++ [0]) (ds.length - 1)) = stripZeros 48 ds := by
  have hpos := List.length_pos_iff.mpr hne
  obtain ⟨hle, hzeros, hfirst⟩ := trimCount_spec (ds ++ [0]) (ds.length - 1)
  have hlen : (ds ++ [0]).length = ds.length + 1 := by rw [List.length_append, List.length_singleton]
  have hget := @trimLeadingZeroes_spec (ds ++ [0]) (ds.length - 1) (by rw [hlen]; omega)
  generalize trimCount (ds ++ [0]) (ds.length - 1) = t at *
  have hdrop : ds.drop t = stripZeros 48 ds := by
    apply stripZeros_drop (by omega)
    · intro pos hp
      have := hzeros pos hp
      rwa [List.getD_append _ _ _ _ (by omega)] at this
    · intro ht
      have := hfirst (by omega)
      rwa [List.getD_append _ _ _ _ (by omega)] at this
  rw [← hdrop]
  -- the buffer starts with the digits from the shift count on, and their zero byte
  have hprefix : ∃ rest, trimLeadingZeroes (ds ++ [0]) (ds.length - 1) = ds.drop t ++ 0 :: rest := by
    generalize trimLeadingZeroes (ds ++ [0]) (ds.length - 1) = out at hget
    rw [hlen] at hget
    have htake : out.take (ds.length + 1 - t) = ds.drop t ++ [0] := by
      apply List.ext_getElem?
      intro j
      rw [List.getElem?_take]
      by_cases hj : j < ds.length + 1 - t
      · rw [if_pos hj, hget j (by omega), Nat.add_comm j t, ← List.getElem?_drop, List.drop_append_of_le_length (by omega)]
      · rw [if_neg hj, List.getElem?_eq_none]
        rw [List.length_append, List.length_drop, List.length_singleton]
        omega
    refine ⟨out.drop (ds.length + 1 - t), ?_⟩
    conv_lhs => rw [← List.take_append_drop (ds.length + 1 - t) out, htake]
    simp
  obtain ⟨rest, hrest⟩ := hprefix
  unfold cString
  rw [hrest, List.takeWhile_append_of_pos]
  · simp
  · intro c hc
    simpa using hdigits c (List.mem_of_mem_drop hc)

/-! ## Numerals -/

@[simp] theorem length_fixedDigits (b n v : Nat) : (fixedDigits b n v).length = n := by
  induction n generalizing v with
  | zero => rfl
  | succ n ih => rw [fixedDigits, List.length_append, ih, List.length_singleton]

theorem fixedDigits_lt {b : Nat} (hb : 0 < b) {n v d : Nat} (h : d ∈ fixedDigits b n v) : d < b := by
  induction n generalizing v with
  | zero => cases h
  | succ n ih =>
    rw [fixedDigits, List.mem_append, List.mem_singleton] at h
    rcases h with h | rfl
    · exact ih h
    · exact Nat.mod_lt v hb

theorem stripZeros_append (l : List Nat) (d : Nat) :
    stripZeros 0 (l ++ [d]) = if ∀ x ∈ l, x = 0 then [d] else stripZeros 0 l ++ [d] := by
  induction l with
  | nil => simp [stripZeros]
  | cons c l ih =>
    obtain ⟨e, l', hl'⟩ : ∃ e l', l ++ [d] = e :: l' := List.exists_cons_of_ne_nil (by simp)
    rw [List.cons_append, hl', stripZeros, ← hl', ih]
    by_cases hc : c = 0
    · rw [if_pos hc]
      by_cases hl : ∀ x ∈ l, x = 0
      · rw [if_pos hl, if_pos]
        intro x hx
        rcases List.mem_cons.mp hx with rfl | hx
        · exact hc
        · exact hl x hx
      · rw [if_neg hl, if_neg fun h => hl fun x hx => h x (List.mem_cons_of_mem c hx)]
        cases l with
        | nil => exact absurd (fun x hx => (by cases hx)) hl
        | cons e l => rw [stripZeros, if_pos hc]
    · rw [if_neg hc, if_neg fun h => hc (h c List.mem_cons_self)]
      cases l with
      | nil => rfl
      | cons e l =>
        rw [stripZeros, if_neg hc]
        rfl

theorem fixedDigits_eq_zero_iff {b n v : Nat} (hv : v < b ^ n) : (∀ d ∈ fixedDigits b n v, d = 0) ↔ v = 0 := by
  induction n generalizing v with
  | zero =>
    rw [Nat.pow_zero] at hv
    simp [fixedDigits]
    omega
  | succ n ih =>
    rw [Nat.pow_succ] at hv
    have hdm := Nat.div_add_mod v b
    rw [fixedDigits, List.forall_mem_append, ih (Nat.div_lt_of_lt_mul (Nat.mul_comm _ _ ▸ hv)), List.forall_mem_singleton]
    constructor
    · intro h
      rw [h.1, h.2, Nat.mul_zero] at hdm
      exact hdm.symm
    · intro h
      rw [h]
      exact ⟨Nat.zero_div b, Nat.zero_mod b⟩

theorem numeral_of_lt {b v : Nat} (h : v < b) : numeral b v = [v] := by
  unfold numeral
  by_cases h0 : v = 0
  · rw [if_pos h0, h0]
  · rw [if_neg h0, Nat.digits_of_lt b v h0 h]
    rfl

/-- The last digit goes after the numeral of the rest. -/
theorem numeral_step {b v : Nat} (hb : 2 ≤ b) (h : v / b ≠ 0) : numeral b v = numeral b (v / b) ++ [v % b] := by
  have hpos : 0 < v := by
    apply Nat.pos_of_ne_zero
    intro h0
    rw [h0] at h
    exact h (Nat.zero_div b)
  unfold numeral
  rw [if_neg h, if_neg (by omega), Nat.digits_def' hb hpos, List.reverse_cons]

/-- Enough digits of a number, without leading zeroes, are its numeral. -/
theorem stripZeros_fixedDigits {b n v : Nat} (hb : 2 ≤ b) (hn : 1 ≤ n) (hv : v < b ^ n) : stripZeros 0 (fixedDigits b n v) = numeral b v := by
  induction n generalizing v with
  | zero => exact absurd hn (by decide)
  | succ n ih =>
    rw [Nat.pow_succ] at hv
    have hdiv := Nat.div_lt_of_lt_mul (Nat.mul_comm _ _ ▸ hv)
    rw [fixedDigits, stripZeros_append]
    by_cases h : v / b = 0
    · rw [if_pos (fixedDigits_eq_zero_iff hdiv |>.mpr h), Nat.mod_eq_of_lt ((Nat.div_eq_zero_iff_lt (by omega)).mp h)]
      exact (numeral_of_lt ((Nat.div_eq_zero_iff_lt (by omega)).mp h)).symm
    · have hn : 1 ≤ n := by
        by_contra h0
        rw [show n = 0 by omega, Nat.pow_zero] at hdiv
        exact h (Nat.lt_one_iff.mp hdiv)
      rw [if_neg fun h0 => h ((fixedDigits_eq_zero_iff hdiv).mp h0), ih hn hdiv, numeral_step hb h]

theorem length_stripZeros_le {α : Type} [DecidableEq α] (zero : α) (l : List α) : (stripZeros zero l).length ≤ l.length := by
  induction l with
  | nil => exact Nat.le_refl _
  | cons c l ih =>
    cases l with
    | nil => exact Nat.le_refl _
    | cons d l =>
      rw [stripZeros]
      by_cases h : c = zero
      · rw [if_pos h]
        exact Nat.le_succ_of_le ih
      · rw [if_neg h]

theorem length_numeral_le {b n v : Nat} (hb : 2 ≤ b) (hn : 1 ≤ n) (hv : v < b ^ n) : (numeral b v).length ≤ n := by
  have hle := length_stripZeros_le 0 (fixedDigits b n v)
  rwa [stripZeros_fixedDigits hb hn hv, length_fixedDigits] at hle

/-- The last character stays. -/
theorem getLast?_stripZeros {α : Type} [DecidableEq α] (zero : α) (l : List α) (c : α) :
    (stripZeros zero (l ++ [c])).getLast? = some c := by
  induction l with
  | nil => rfl
  | cons d l ih =>
    obtain ⟨e, l', hl'⟩ : ∃ e l', l ++ [c] = e :: l' := List.exists_cons_of_ne_nil (by simp)
    rw [List.cons_append, hl', stripZeros, ← hl']
    by_cases h : d = zero
    · rw [if_pos h, ih]
    · rw [if_neg h, ← List.cons_append, List.getLast?_append]
      rfl

/-- Writing the digits as characters, of which 48 stands for 0 alone. -/
theorem stripZeros_map {f : Nat → UInt8} {l : List Nat} (hf : ∀ d ∈ l, f d = 48 ↔ d = 0) :
    stripZeros 48 (l.map f) = (stripZeros 0 l).map f := by
  induction l with
  | nil => rfl
  | cons c l ih =>
    cases l with
    | nil => rfl
    | cons d l =>
      have hc := hf c List.mem_cons_self
      rw [List.map_cons, List.map_cons, stripZeros, stripZeros]
      by_cases h : c = 0
      · rw [if_pos h, if_pos (hc.mpr h), ← List.map_cons]
        exact ih fun e he => hf e (List.mem_cons_of_mem c he)
      · rw [if_neg h, if_neg fun h48 => h (hc.mp h48)]
        rfl

/-! ## The number of a digit string -/

def numberOf (b : Nat) (ds : List Nat) : Nat := ds.foldl (fun n d => n * b + d) 0

theorem numberOf_append (b : Nat) (ds : List Nat) (d : Nat) : numberOf b (ds ++ [d]) = numberOf b ds * b + d := by
  unfold numberOf
  rw [List.foldl_append]
  rfl

theorem numberOf_lt {b : Nat} {ds : List Nat} (h : ∀ d ∈ ds, d < b) : numberOf b ds < b ^ ds.length := by
  induction ds using List.reverseRecOn with
  | nil => simp [numberOf]
  | append_singleton ds d ih =>
    obtain ⟨hds, hd⟩ := List.forall_mem_append.mp h
    have hmul := Nat.mul_le_mul_right b (Nat.succ_le_of_lt (ih hds))
    have hlast := hd d List.mem_cons_self
    rw [Nat.succ_mul] at hmul
    rw [numberOf_append, List.length_append, List.length_singleton, Nat.pow_succ]
    omega

/-- Digit `i` from the end. -/
theorem numberOf_digit {b : Nat} {ds : List Nat} (h : ∀ d ∈ ds, d < b) {i : Nat} (hi : i < ds.length) :
    ds.getD (ds.length - 1 - i) 0 = numberOf b ds / b ^ i % b := by
  induction ds using List.reverseRecOn generalizing i with
  | nil => exact absurd hi (Nat.not_lt_zero i)
  | append_singleton ds d ih =>
    obtain ⟨hds, hd⟩ := List.forall_mem_append.mp h
    have hlast := hd d List.mem_cons_self
    rw [List.length_append, List.length_singleton] at hi
    rw [numberOf_append, List.length_append, List.length_singleton, Nat.add_sub_cancel]
    cases i with
    | zero =>
      rw [Nat.sub_zero, List.getD_append_right _ _ _ _ (Nat.le_refl _), Nat.sub_self, Nat.pow_zero, Nat.div_one, Nat.mul_comm,
        Nat.mul_add_mod, Nat.mod_eq_of_lt hlast]
      rfl
    | succ i =>
      rw [List.getD_append _ _ _ _ (by omega), show ds.length - (i + 1) = ds.length - 1 - i by omega, ih hds (by omega), Nat.pow_succ',
        ← Nat.div_div_eq_div_mul, Nat.mul_comm, Nat.mul_add_div (by omega), Nat.div_eq_of_lt hlast, Nat.add_zero]

theorem numberOf_numeral {b : Nat} (hb : 2 ≤ b) (v : Nat) : numberOf b (numeral b v) = v := by
  induction v using Nat.strong_induction_on with
  | _ v ih =>
    by_cases h : v / b = 0
    · rw [numeral_of_lt ((Nat.div_eq_zero_iff_lt (by omega)).mp h)]
      simp [numberOf]
    · have hlt : v / b < v := Nat.div_lt_self (by by_contra h0; rw [show v = 0 by omega, Nat.zero_div] at h; exact h rfl) hb
      rw [numeral_step hb h, numberOf_append, ih _ hlt, Nat.div_add_mod']

theorem numeral_lt {b : Nat} (hb : 2 ≤ b) {v d : Nat} (h : d ∈ numeral b v) : d < b := by
  unfold numeral at h
  by_cases h0 : v = 0
  · rw [if_pos h0, List.mem_singleton] at h
    omega
  · rw [if_neg h0, List.mem_reverse] at h
    exact Nat.digits_lt_base hb h

end Putty.Mpint
