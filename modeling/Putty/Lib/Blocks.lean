/-
  Putty.Lib.Blocks — a list cut into blocks of `n`.

  `whole` are the whole blocks and `rest` is what is left over, shorter than a block. A
  consumer that takes a list piece by piece, acts on each whole block and keeps what is
  left over sees the blocks of the list, however it was split (`whole_append`,
  `rest_append`). The blocks are known by their places (`blocks_eq`).
-/

import Mathlib.Data.List.Basic
import Mathlib.Tactic.Ring

namespace Putty.Lib

variable {α : Type*} {n : Nat}

/-- The whole blocks. -/
def whole (n : Nat) (xs : List α) : List (List α) :=
  if 0 < n ∧ n ≤ xs.length then xs.take n :: whole n (xs.drop n) else []
termination_by xs.length
decreasing_by
  rw [List.length_drop]
  omega

def rest (n : Nat) (xs : List α) : List α :=
  if 0 < n ∧ n ≤ xs.length then rest n (xs.drop n) else xs
termination_by xs.length
decreasing_by
  rw [List.length_drop]
  omega

/-- All blocks, the last of them perhaps a short one. -/
def blocks (n : Nat) (xs : List α) : List (List α) := whole n xs ++ if rest n xs = [] then [] else [rest n xs]

theorem whole_short {xs : List α} (h : xs.length < n) : whole n xs = [] := by
  rw [whole, if_neg (by omega)]

theorem rest_short {xs : List α} (h : xs.length < n) : rest n xs = xs := by
  rw [rest, if_neg (by omega)]

theorem whole_block {xs ys : List α} (hn : 0 < n) (h : xs.length = n) : whole n (xs ++ ys) = xs :: whole n ys := by
  rw [whole, if_pos ⟨hn, by rw [List.length_append]; omega⟩, List.take_left' h, List.drop_left' h]

theorem rest_block {xs ys : List α} (hn : 0 < n) (h : xs.length = n) : rest n (xs ++ ys) = rest n ys := by
  rw [rest, if_pos ⟨hn, by rw [List.length_append]; omega⟩, List.drop_left' h]

theorem length_rest_lt (hn : 0 < n) (xs : List α) : (rest n xs).length < n := by
  fun_induction rest n xs with
  | case1 xs _ ih => exact ih
  | case2 xs h => omega

theorem whole_append (hn : 0 < n) (xs ys : List α) : whole n (xs ++ ys) = whole n xs ++ whole n (rest n xs ++ ys) := by
  fun_induction rest n xs with
  | case1 xs h ih =>
    have hsplit : xs ++ ys = xs.take n ++ (xs.drop n ++ ys) := by rw [← List.append_assoc, List.take_append_drop]
    rw [hsplit, whole_block hn (List.length_take_of_le h.2), ih, whole.eq_def n xs, if_pos h, List.cons_append]
  | case2 xs h => rw [whole.eq_def n xs, if_neg h, List.nil_append]

theorem rest_append (hn : 0 < n) (xs ys : List α) : rest n (xs ++ ys) = rest n (rest n xs ++ ys) := by
  fun_induction rest n xs with
  | case1 xs h ih =>
    have hsplit : xs ++ ys = xs.take n ++ (xs.drop n ++ ys) := by rw [← List.append_assoc, List.take_append_drop]
    rw [hsplit, rest_block hn (List.length_take_of_le h.2), ih]
  | case2 xs h => rfl

/-- What is left over is filled up to a block. -/
theorem append_full (hn : 0 < n) {xs ys : List α} (h : (rest n xs ++ ys).length = n) :
    whole n (xs ++ ys) = whole n xs ++ [rest n xs ++ ys] ∧ rest n (xs ++ ys) = [] := by
  have hwhole := @whole_block α n _ [] hn h
  have hrest := @rest_block α n _ [] hn h
  rw [List.append_nil, whole_short (show ([] : List α).length < n from hn)] at hwhole
  rw [List.append_nil, rest_short (show ([] : List α).length < n from hn)] at hrest
  exact ⟨by rw [whole_append hn, hwhole], by rw [rest_append hn, hrest]⟩

/-- What is left over stays shorter than a block. -/
theorem append_short (hn : 0 < n) {xs ys : List α} (h : (rest n xs ++ ys).length < n) :
    whole n (xs ++ ys) = whole n xs ∧ rest n (xs ++ ys) = rest n xs ++ ys := by
  refine ⟨?_, by rw [rest_append hn, rest_short h]⟩
  rw [whole_append hn, whole_short h, List.append_nil]

theorem blocks_block {xs ys : List α} (hn : 0 < n) (h : xs.length = n) : blocks n (xs ++ ys) = xs :: blocks n ys := by
  unfold blocks
  rw [whole_block hn h, rest_block hn h, List.cons_append]

/-- The blocks by their places. -/
theorem blocks_eq (hn : 0 < n) (xs : List α) :
    blocks n xs = (List.range ((xs.length + (n - 1)) / n)).map fun i => (xs.drop (n * i)).take n := by
  fun_induction rest n xs with
  | case1 xs h ih =>
    have hcount : (xs.length + (n - 1)) / n = ((xs.drop n).length + (n - 1)) / n + 1 := by
      rw [List.length_drop, ← Nat.add_div_right _ hn]
      congr 1
      omega
    conv_lhs => rw [← List.take_append_drop n xs]
    rw [blocks_block hn (List.length_take_of_le h.2), ih, hcount, List.range_succ_eq_map, List.map_cons, List.map_map, Nat.mul_zero,
      List.drop_zero]
    congr 1
    apply List.map_congr_left
    intro i _
    rw [Function.comp_apply, List.drop_drop, Nat.mul_succ, Nat.add_comm]
  | case2 xs h =>
    have hlt : xs.length < n := by omega
    unfold blocks
    rw [whole_short hlt, rest_short hlt, List.nil_append]
    by_cases hxs : xs = []
    · rw [if_pos hxs, hxs, List.length_nil, Nat.zero_add, Nat.div_eq_of_lt (by omega)]
      rfl
    · have hpos := List.length_pos_of_ne_nil hxs
      have hone : (xs.length + (n - 1)) / n = 1 := by
        rw [Nat.div_eq_iff hn]
        omega
      rw [if_neg hxs, hone]
      show [xs] = [(xs.drop (n * 0)).take n]
      rw [Nat.mul_zero, List.drop_zero, List.take_of_length_le (Nat.le_of_lt hlt)]

end Putty.Lib
