/-
  Putty.Lib.Leads — a sequence in which some elements announce how many others follow.

  Each element is told apart as one that can follow or not, and each announces a number of
  followers. `cut` takes the sequence apart from the front: an element and the followers
  directly behind it, up to the number it announces. A piece that has fewer is cut short by
  an element that cannot follow, or by the end.

  Proved: the pieces are the sequence (`cut_flatten`); an element that cannot follow always
  begins one, so what stands before it is cut as if it ended there (`cut_append`); and a
  complete piece is a piece whatever comes behind it (`cut_complete`).
-/

import Mathlib.Data.List.Basic
import Mathlib.Data.List.TakeWhile
import Mathlib.Tactic.Linarith

namespace Putty.Lib.Leads

variable {α : Type} (follow : α → Nat) (cont : α → Bool)

/-- The followers at the head of `l`, at most `n`. -/
def run (n : Nat) (l : List α) : List α := (l.take n).takeWhile cont

theorem run_prefix (n : Nat) (l : List α) : run cont n l <+: l :=
  (List.takeWhile_prefix cont).trans (List.take_prefix n l)

theorem run_length_le (n : Nat) (l : List α) : (run cont n l).length ≤ l.length := ( run_prefix cont n l).length_le

theorem run_le (n : Nat) (l : List α) : (run cont n l).length ≤ n :=
  (List.takeWhile_prefix cont).length_le.trans (List.length_take_le n l)

theorem run_all (n : Nat) (l : List α) : ∀ c ∈ run cont n l, cont c = true := by
  intro c hc
  exact List.all_eq_true.mp List.all_takeWhile c hc

theorem run_append_drop (n : Nat) (l : List α) : run cont n l ++ l.drop (run cont n l).length = l :=
  List.prefix_iff_eq_append.mp ( run_prefix cont n l)

/-- What cannot follow ends the run, however many are still announced. -/
theorem run_append {post : List α} (hpost : ∀ c ∈ post.head?, cont c = false) (n : Nat) (l : List α) :
    run cont n (l ++ post) = run cont n l := by
  induction n generalizing l with
  | zero => rfl
  | succ n ih =>
    cases l with
    | nil =>
      cases post with
      | nil => rfl
      | cons c cs =>
        have hc : ¬ cont c = true := by simpa using hpost c rfl
        exact List.takeWhile_cons_of_neg hc
    | cons b bs =>
      by_cases hb : cont b = true
      · calc run cont (n + 1) (b :: bs ++ post) = b :: run cont n (bs ++ post) := List.takeWhile_cons_of_pos hb
          _ = b :: run cont n bs := by rw [ih]
          _ = run cont (n + 1) (b :: bs) := (List.takeWhile_cons_of_pos hb).symm
      · calc run cont (n + 1) (b :: bs ++ post) = [] := List.takeWhile_cons_of_neg hb
          _ = run cont (n + 1) (b :: bs) := (List.takeWhile_cons_of_neg hb).symm

/-- A run that is shorter than announced was ended by what stands behind it. -/
theorem run_next {n : Nat} {l : List α} (h : (run cont n l).length < n) :
    ∀ c ∈ (l.drop (run cont n l).length).head?, cont c = false := by
  induction n generalizing l with
  | zero => exact absurd h (Nat.not_lt_zero _)
  | succ n ih =>
    cases l with
    | nil => exact nofun
    | cons b bs =>
      by_cases hb : cont b = true
      · have hr : run cont (n + 1) (b :: bs) = b :: run cont n bs := List.takeWhile_cons_of_pos hb
        rw [hr, List.length_cons] at h
        rw [hr, List.length_cons, List.drop_succ_cons]
        exact ih (Nat.lt_of_succ_lt_succ h)
      · have hr : run cont (n + 1) (b :: bs) = [] := List.takeWhile_cons_of_neg hb
        rw [hr]
        rintro c ⟨⟩
        simpa using hb

/-- As many followers as are announced, and whatever comes behind. -/
theorem run_complete {cs : List α} (hcs : ∀ c ∈ cs, cont c = true) (post : List α) : run cont cs.length (cs ++ post) = cs := by
  rw [run, List.take_left]
  exact List.takeWhile_eq_self_iff.mpr hcs

/-- The pieces, from the front. -/
def cut : List α → List (List α)
  | [] => []
  | b :: bs => (b :: run cont (follow b) bs) :: cut (bs.drop (run cont (follow b) bs).length)
termination_by l => l.length
decreasing_by
  rw [List.length_drop, List.length_cons]
  omega

@[simp] theorem cut_nil : cut follow cont [] = [] := by rw [cut]

theorem cut_cons (b : α) (bs : List α) :
    cut follow cont (b :: bs) =
      (b :: run cont (follow b) bs) :: cut follow cont (bs.drop (run cont (follow b) bs).length) := by rw [cut]

theorem cut_eq_nil {l : List α} : cut follow cont l = [] ↔ l = [] := by
  cases l with
  | nil => simp
  | cons b bs => simp [cut_cons]

theorem cut_flatten (l : List α) : (cut follow cont l).flatten = l := by
  induction l using cut.induct follow cont with
  | case1 => rw [cut_nil]; rfl
  | case2 b bs ih => rw [cut_cons, List.flatten_cons, ih, List.cons_append, run_append_drop]

/-- Every piece is an element with followers, as many as it announces at most. -/
theorem cut_shape (l : List α) : ∀ p ∈ cut follow cont l,
    ∃ b cs, p = b :: cs ∧ cs.length ≤ follow b ∧ ∀ c ∈ cs, cont c = true := by
  induction l using cut.induct follow cont with
  | case1 =>
    intro p hp
    rw [cut_nil] at hp
    cases hp
  | case2 b bs ih =>
    intro p hp
    rw [cut_cons] at hp
    rcases List.mem_cons.mp hp with rfl | hp
    · exact ⟨b, _, rfl, run_le cont _ _, run_all cont _ _⟩
    · exact ih p hp

/-- What cannot follow begins a piece: everything before it is cut as if the sequence
    ended there. -/
theorem cut_append {post : List α} (hpost : ∀ c ∈ post.head?, cont c = false) (l : List α) :
    cut follow cont (l ++ post) = cut follow cont l ++ cut follow cont post := by
  induction l using cut.induct follow cont with
  | case1 => rw [cut_nil, List.nil_append, List.nil_append]
  | case2 b bs ih =>
    rw [List.cons_append, cut_cons, run_append cont hpost,
      List.drop_append_of_le_length (run_length_le cont _ _), ih, cut_cons, List.cons_append]

theorem cut_complete {b : α} {cs : List α} (hlen : cs.length = follow b) (hcs : ∀ c ∈ cs, cont c = true) (post : List α) :
    cut follow cont (b :: cs ++ post) = (b :: cs) :: cut follow cont post := by
  rw [List.cons_append, cut_cons, ← hlen, run_complete cont hcs, List.drop_left]

end Putty.Lib.Leads
