/-
  Putty.Lib.Flip — reversing the runs of a list that are marked.

  `flip bs xs` reverses each maximal run of places marked true. It moves nothing across a
  place marked false, so it can be done piece by piece (`flip_append`), and a list that
  is constant on every marked run is left as it is (`flip_const`).

  `descend f k n` applies `f (k + n - 1)`, …, `f k`, the highest first.
-/

import Mathlib.Data.List.Perm.Basic
import Mathlib.Tactic.Linarith

namespace Putty.Lib.Flip

variable {α β : Type}

/-- `acc` is the run read so far, last place first. -/
def flipAux : List α → List Bool → List α → List α
  | acc, [], xs => acc ++ xs
  | acc, _ :: _, [] => acc
  | acc, true :: bs, x :: xs => flipAux (x :: acc) bs xs
  | acc, false :: bs, x :: xs => acc ++ x :: flipAux [] bs xs

def flip (bs : List Bool) (xs : List α) : List α := flipAux [] bs xs

theorem flipAux_nil (acc xs : List α) : flipAux acc [] xs = acc ++ xs := by rw [flipAux]

@[simp] theorem flip_none (xs : List α) : flip [] xs = xs := flipAux_nil [] xs

@[simp] theorem flip_nil (bs : List Bool) : flip bs ([] : List α) = [] := by
  cases bs <;> rfl

@[simp] theorem flip_false (bs : List Bool) (x : α) (xs : List α) : flip (false :: bs) (x :: xs) = x :: flip bs xs := rfl

theorem flipAux_perm (acc : List α) (bs : List Bool) (xs : List α) : (flipAux acc bs xs).Perm (acc ++ xs) := by
  induction bs generalizing acc xs with
  | nil => rw [flipAux]
  | cons b bs ih =>
    cases xs with
    | nil => rw [flipAux, List.append_nil]
    | cons x xs =>
      cases b with
      | true =>
        rw [flipAux]
        exact (ih (x :: acc) xs).trans List.perm_middle.symm
      | false =>
        rw [flipAux]
        exact ((ih [] xs).cons x).append_left acc

theorem flip_perm (bs : List Bool) (xs : List α) : (flip bs xs).Perm xs := flipAux_perm [] bs xs

@[simp] theorem flip_length (bs : List Bool) (xs : List α) : (flip bs xs).length = xs.length := (flip_perm bs xs).length_eq

theorem map_flipAux (g : α → β) (acc : List α) (bs : List Bool) (xs : List α) :
    (flipAux acc bs xs).map g = flipAux (acc.map g) bs (xs.map g) := by
  induction bs generalizing acc xs with
  | nil => rw [flipAux, flipAux, List.map_append]
  | cons b bs ih =>
    cases xs with
    | nil => rfl
    | cons x xs =>
      cases b with
      | true => rw [flipAux, ih]; rfl
      | false => rw [flipAux, List.map_append, List.map_cons, ih]; rfl

theorem map_flip (g : α → β) (bs : List Bool) (xs : List α) : (flip bs xs).map g = flip bs (xs.map g) := map_flipAux g [] bs xs

/-- A run that ends here. -/
theorem flipAux_stop (acc : List α) {bs : List Bool} (h : bs.head? ≠ some true) (xs : List α) :
    flipAux acc bs xs = acc ++ flip bs xs := by
  cases bs with
  | nil => rw [flipAux, flip_none]
  | cons b bs =>
    cases b with
    | true => exact absurd rfl h
    | false =>
      cases xs with
      | nil => simp [flipAux]
      | cons x xs => rfl

theorem flipAux_append (acc : List α) {bs bs' : List Bool} {xs : List α} (ys : List α) (hlen : xs.length = bs.length)
    (h : bs'.head? ≠ some true) : flipAux acc (bs ++ bs') (xs ++ ys) = flipAux acc bs xs ++ flip bs' ys := by
  induction bs generalizing acc xs with
  | nil =>
    obtain rfl := List.length_eq_zero_iff.mp hlen
    rw [List.nil_append, List.nil_append, flipAux_stop acc h, flipAux, List.append_nil]
  | cons b bs ih =>
    cases xs with
    | nil => simp at hlen
    | cons x xs =>
      have hlen' : xs.length = bs.length := Nat.succ.inj hlen
      cases b with
      | true =>
        show flipAux (x :: acc) (bs ++ bs') (xs ++ ys) = _
        rw [ih (x :: acc) hlen']
        rfl
      | false =>
        show acc ++ x :: flipAux [] (bs ++ bs') (xs ++ ys) = _
        rw [ih [] hlen', flipAux, List.append_assoc, List.cons_append]

/-- Between two places of which one is not marked. -/
theorem flip_append {bs bs' : List Bool} {xs : List α} (ys : List α) (hlen : xs.length = bs.length)
    (h : bs.getLast? ≠ some true ∨ bs'.head? ≠ some true) : flip (bs ++ bs') (xs ++ ys) = flip bs xs ++ flip bs' ys := by
  rcases h with h | h
  · rcases List.eq_nil_or_concat bs with rfl | ⟨bs, b, rfl⟩
    · obtain rfl := List.length_eq_zero_iff.mp hlen
      rfl
    · rw [List.concat_eq_append] at hlen h ⊢
      obtain rfl : b = false := by
        cases b with
        | true => simp at h
        | false => rfl
      obtain ⟨xs, x, rfl⟩ : ∃ zs z, xs = zs ++ [z] := by
        rcases List.eq_nil_or_concat xs with rfl | ⟨zs, z, rfl⟩
        · simp at hlen
        · exact ⟨zs, z, List.concat_eq_append⟩
      have hlen' : xs.length = bs.length := by simpa using hlen
      have hone : flip (bs ++ [false]) (xs ++ [x]) = flip bs xs ++ [x] := flipAux_append [] [x] hlen' (by simp)
      rw [List.append_assoc, List.append_assoc, flip, flipAux_append [] _ hlen' (by simp), hone, List.append_assoc]
      rfl
  · exact flipAux_append [] ys hlen h

theorem flipAux_true (acc : List α) {bs : List Bool} (h : ∀ b ∈ bs, b = true) {xs : List α} (hlen : xs.length = bs.length) :
    flipAux acc bs xs = xs.reverse ++ acc := by
  induction bs generalizing acc xs with
  | nil =>
    obtain rfl := List.length_eq_zero_iff.mp hlen
    rw [flipAux, List.append_nil, List.reverse_nil, List.nil_append]
  | cons b bs ih =>
    cases xs with
    | nil => simp at hlen
    | cons x xs =>
      obtain rfl := h b List.mem_cons_self
      rw [flipAux, ih (x :: acc) (fun b hb => h b (List.mem_cons_of_mem _ hb)) (Nat.succ.inj hlen), List.reverse_cons,
        List.append_assoc]
      rfl

theorem flip_true {bs : List Bool} (h : ∀ b ∈ bs, b = true) {xs : List α} (hlen : xs.length = bs.length) :
    flip bs xs = xs.reverse := by
  rw [flip, flipAux_true [] h hlen, List.append_nil]

theorem flip_all_false {bs : List Bool} (h : ∀ b ∈ bs, b = false) (xs : List α) : flip bs xs = xs := by
  induction bs generalizing xs with
  | nil => exact flip_none xs
  | cons b bs ih =>
    obtain rfl := h b List.mem_cons_self
    cases xs with
    | nil => rfl
    | cons x xs => rw [flip_false, ih fun b hb => h b (List.mem_cons_of_mem _ hb)]

/-- Nothing changes in a list that is true wherever a place is marked. -/
theorem flipAux_const (n : Nat) {bs cs : List Bool} (hlen : cs.length = bs.length)
    (h : ∀ p ∈ bs.zip cs, p.1 = true → p.2 = true) : flipAux (List.replicate n true) bs cs = List.replicate n true ++ cs := by
  induction bs generalizing n cs with
  | nil => rw [flipAux]
  | cons b bs ih =>
    cases cs with
    | nil => simp at hlen
    | cons c cs =>
      have hrest : ∀ p ∈ bs.zip cs, p.1 = true → p.2 = true := fun p hp => h p (List.mem_cons_of_mem _ hp)
      cases b with
      | true =>
        obtain rfl : c = true := h (true, c) List.mem_cons_self rfl
        rw [flipAux, ← List.replicate_succ, ih (n + 1) (Nat.succ.inj hlen) hrest, List.replicate_succ',
          List.append_assoc]
        rfl
      | false =>
        have := ih 0 (Nat.succ.inj hlen) hrest
        rw [List.replicate_zero, List.nil_append] at this
        rw [flipAux, this]

theorem flip_const {bs cs : List Bool} (hlen : cs.length = bs.length) (h : ∀ p ∈ bs.zip cs, p.1 = true → p.2 = true) :
    flip bs cs = cs := flipAux_const 0 hlen h

/-! ## From the highest number down -/

def descend (f : Nat → α → α) : Nat → Nat → α → α
  | _, 0, x => x
  | k, n + 1, x => f k (descend f (k + 1) n x)

theorem descend_top (f : Nat → α → α) (k n : Nat) (x : α) : descend f k (n + 1) x = descend f k n (f (k + n) x) := by
  induction n generalizing k with
  | zero => rfl
  | succ n ih =>
    rw [descend, ih (k + 1), descend]
    congr 2
    rw [show k + 1 + n = k + (n + 1) by omega]

end Putty.Lib.Flip
