/-
  Putty.Lib.Limbs — numbers as lists of words, the least significant first.

  `val` is the number that a list of words of `W` bits stands for. Cutting a list is
  taking a remainder or a quotient by a power of the base (`val_take`, `val_drop`), and
  a list is known from its length and its number (`val_inj`). A loop that writes one word
  and hands on a carry at each step is an `addc` or a `mulc`; what they compute is read
  off one step by division with remainder (`addc_spec`, `mulc_spec`).
-/

import Mathlib.Data.List.GetD
import Mathlib.Tactic.Linarith
import Mathlib.Tactic.Ring

namespace Putty.Lib

variable {W : Nat}

/-- The words of a number. -/
abbrev Limbs (W : Nat) := List (BitVec W)

namespace Limbs

def val : Limbs W → Nat
  | [] => 0
  | w :: ws => w.toNat + 2 ^ W * val ws

@[simp] theorem val_nil : val ([] : Limbs W) = 0 := rfl

@[simp] theorem val_cons (w : BitVec W) (ws : Limbs W) : val (w :: ws) = w.toNat + 2 ^ W * val ws := rfl

theorem base_pos : 0 < 2 ^ W := Nat.two_pow_pos W

theorem pow_base_pos (n : Nat) : 0 < (2 ^ W) ^ n := Nat.pow_pos base_pos

theorem val_lt (ws : Limbs W) : val ws < (2 ^ W) ^ ws.length := by
  induction ws with
  | nil => simp
  | cons w ws ih =>
    have hw := w.isLt
    rw [val_cons, List.length_cons, Nat.pow_succ']
    have := Nat.mul_le_mul_left (2 ^ W) ih
    rw [Nat.mul_succ] at this
    omega

theorem val_append (xs ys : Limbs W) : val (xs ++ ys) = val xs + (2 ^ W) ^ xs.length * val ys := by
  induction xs with
  | nil => simp
  | cons x xs ih =>
    rw [List.cons_append, val_cons, val_cons, ih, List.length_cons, Nat.pow_succ']
    ring

theorem val_replicate_zero (n : Nat) : val (List.replicate n (0 : BitVec W)) = 0 := by
  induction n with
  | zero => rfl
  | succ n ih => rw [List.replicate_succ, val_cons, ih]; rfl

theorem val_take_add_drop (xs : Limbs W) (n : Nat) (h : n ≤ xs.length) :
    val xs = val (xs.take n) + (2 ^ W) ^ n * val (xs.drop n) := by
  have happ := val_append (xs.take n) (xs.drop n)
  rwa [List.take_append_drop, List.length_take, Nat.min_eq_left h] at happ

/-- The low words. -/
theorem val_take (xs : Limbs W) (n : Nat) : val (xs.take n) = val xs % (2 ^ W) ^ n := by
  by_cases h : n ≤ xs.length
  · have hlt := val_lt (xs.take n)
    rw [List.length_take, Nat.min_eq_left h] at hlt
    rw [val_take_add_drop xs n h, Nat.add_mul_mod_self_left, Nat.mod_eq_of_lt hlt]
  · have hle : xs.length ≤ n := by omega
    have hlt := Nat.lt_of_lt_of_le (val_lt xs) (Nat.pow_le_pow_right base_pos hle)
    rw [List.take_of_length_le hle, Nat.mod_eq_of_lt hlt]

/-- The high words. -/
theorem val_drop (xs : Limbs W) (n : Nat) : val (xs.drop n) = val xs / (2 ^ W) ^ n := by
  by_cases h : n ≤ xs.length
  · have hlt := val_lt (xs.take n)
    rw [List.length_take, Nat.min_eq_left h] at hlt
    rw [val_take_add_drop xs n h, Nat.add_mul_div_left _ _ (pow_base_pos n), Nat.div_eq_of_lt hlt, Nat.zero_add]
  · have hle : xs.length ≤ n := by omega
    have hlt := Nat.lt_of_lt_of_le (val_lt xs) (Nat.pow_le_pow_right base_pos hle)
    rw [List.drop_of_length_le hle, Nat.div_eq_of_lt hlt]
    rfl

/-- One word, 0 beyond the last. -/
theorem toNat_getD (xs : Limbs W) (i : Nat) : (xs.getD i 0).toNat = val xs / (2 ^ W) ^ i % 2 ^ W := by
  rw [← val_drop]
  cases hd : xs.drop i with
  | nil =>
    have hle := List.drop_eq_nil_iff.mp hd
    rw [List.getD_eq_default _ _ hle]
    rfl
  | cons w ws =>
    have hget : xs.getD i 0 = w := by
      have h0 : (xs.drop i)[0]? = some w := by rw [hd]; rfl
      rw [List.getElem?_drop, Nat.add_zero] at h0
      rw [List.getD_eq_getElem?_getD, h0]
      rfl
    rw [hget, val_cons, Nat.add_mul_mod_self_left, Nat.mod_eq_of_lt w.isLt]

theorem val_inj {xs ys : Limbs W} (hlen : xs.length = ys.length) (h : val xs = val ys) : xs = ys := by
  apply List.ext_getElem hlen
  intro i h1 h2
  apply BitVec.eq_of_toNat_eq
  have hx := toNat_getD xs i
  have hy := toNat_getD ys i
  rw [List.getD_eq_getElem _ _ h1] at hx
  rw [List.getD_eq_getElem _ _ h2] at hy
  rw [hx, hy, h]

/-- The lowest word. -/
theorem toNat_headD (xs : Limbs W) : (xs.headD 0).toNat = val xs % 2 ^ W := by
  cases xs with
  | nil => rfl
  | cons x xs =>
    rw [val_cons, Nat.add_mul_mod_self_left, Nat.mod_eq_of_lt x.isLt]
    rfl

theorem val_tail (xs : Limbs W) : val xs.tail = val xs / 2 ^ W := by
  have h := val_drop xs 1
  rwa [Nat.pow_one, List.drop_one] at h

theorem val_mod_succ (v n : Nat) : v % (2 ^ W) ^ (n + 1) = v % 2 ^ W + 2 ^ W * (v / 2 ^ W % (2 ^ W) ^ n) := by
  rw [Nat.pow_succ', Nat.mod_mul]

/-- Words given one by one. -/
theorem val_map_range {n : Nat} {f : Nat → BitVec W} {v : Nat} (h : ∀ i < n, (f i).toNat = v / (2 ^ W) ^ i % 2 ^ W) :
    val ((List.range n).map f) = v % (2 ^ W) ^ n := by
  induction n with
  | zero => simp [Nat.mod_one]
  | succ n ih =>
    have hrest := ih fun i hi => h i (by omega)
    rw [List.range_succ, List.map_append, val_append, hrest, List.length_map, List.length_range, List.map_singleton, val_cons,
      val_nil, h n (by omega), Nat.pow_succ, Nat.mod_mul]
    ring

/-- One word put in place of another. -/
theorem val_set {xs : Limbs W} {k : Nat} (h : k < xs.length) (w : BitVec W) :
    val (xs.set k w) + (2 ^ W) ^ k * (xs.getD k 0).toNat = val xs + (2 ^ W) ^ k * w.toNat := by
  induction xs generalizing k with
  | nil => exact absurd h (Nat.not_lt_zero k)
  | cons x xs ih =>
    cases k with
    | zero =>
      rw [List.set_cons_zero, val_cons, val_cons, List.getD_cons_zero, Nat.pow_zero, Nat.one_mul, Nat.one_mul]
      omega
    | succ k =>
      have hrest := congrArg (2 ^ W * ·) (ih (Nat.lt_of_succ_lt_succ h))
      rw [List.set_cons_succ, val_cons, val_cons, List.getD_cons_succ, Nat.pow_succ', Nat.mul_assoc, Nat.mul_assoc]
      linarith [hrest]

/-! ## Numbers cut to a width -/

def ofNat (W n v : Nat) : Limbs W :=
  match n with
  | 0 => []
  | n + 1 => BitVec.ofNat W v :: ofNat W n (v / 2 ^ W)

@[simp] theorem length_ofNat (n v : Nat) : (ofNat W n v).length = n := by
  induction n generalizing v with
  | zero => rfl
  | succ n ih => rw [ofNat, List.length_cons, ih]

theorem val_ofNat (n v : Nat) : val (ofNat W n v) = v % (2 ^ W) ^ n := by
  induction n generalizing v with
  | zero => simp [ofNat, Nat.mod_one]
  | succ n ih => rw [ofNat, val_cons, ih, BitVec.toNat_ofNat, val_mod_succ]

/-- A list of this many words is known from its number. -/
theorem eq_ofNat {xs : Limbs W} {n v : Nat} (hlen : xs.length = n) (h : val xs = v % (2 ^ W) ^ n) : xs = ofNat W n v := by
  apply val_inj
  · rw [hlen, length_ofNat]
  · rw [h, val_ofNat]

/-! ## A word and a carry -/

/-- The low word and the rest of a sum. -/
def addc (a b : BitVec W) (carry : Nat) : BitVec W × Nat :=
  (BitVec.ofNat W (a.toNat + b.toNat + carry), (a.toNat + b.toNat + carry) / 2 ^ W)

theorem addc_spec (a b : BitVec W) (carry : Nat) :
    (addc a b carry).1.toNat + 2 ^ W * (addc a b carry).2 = a.toNat + b.toNat + carry := by
  unfold addc
  rw [BitVec.toNat_ofNat, Nat.mod_add_div]

theorem addc_carry_le {a b : BitVec W} {carry : Nat} (h : carry ≤ 1) : (addc a b carry).2 ≤ 1 := by
  have ha := a.isLt
  have hb := b.isLt
  unfold addc
  rw [Nat.div_le_iff_le_mul_add_pred base_pos]
  omega

/-- The low and the high word of a product with two addends. -/
def mulc (a b addend1 addend2 : BitVec W) : BitVec W × BitVec W :=
  (BitVec.ofNat W (a.toNat * b.toNat + addend1.toNat + addend2.toNat),
    BitVec.ofNat W ((a.toNat * b.toNat + addend1.toNat + addend2.toNat) / 2 ^ W))

/-- Two words hold a product with two addends. -/
theorem mulc_spec (a b addend1 addend2 : BitVec W) :
    (mulc a b addend1 addend2).1.toNat + 2 ^ W * (mulc a b addend1 addend2).2.toNat =
      a.toNat * b.toNat + addend1.toNat + addend2.toNat := by
  have ha := a.isLt
  have hb := b.isLt
  have h1 := addend1.isLt
  have h2 := addend2.isLt
  have hbound : a.toNat * b.toNat + addend1.toNat + addend2.toNat < 2 ^ W * 2 ^ W := by
    have hmul := Nat.mul_le_mul (show a.toNat ≤ 2 ^ W - 1 by omega) (show b.toNat ≤ 2 ^ W - 1 by omega)
    have hsq : (2 ^ W - 1) * (2 ^ W - 1) + 2 * (2 ^ W - 1) + 1 = 2 ^ W * 2 ^ W := by
      obtain ⟨c, hc⟩ : ∃ c, 2 ^ W = c + 1 := ⟨2 ^ W - 1, by omega⟩
      rw [hc, Nat.add_sub_cancel]
      ring
    omega
  unfold mulc
  rw [BitVec.toNat_ofNat, BitVec.toNat_ofNat, Nat.mod_eq_of_lt (Nat.div_lt_of_lt_mul hbound), Nat.mod_add_div]

end Limbs

end Putty.Lib
