/-
  Putty.Ssh2.NameList — the comma-separated name lists of SSH-2 (`sshcommon.c`).

  `getCommasepWord` discards empty elements, so reading a list with it until it gives
  no more words visits the non-empty pieces between the commas (`words`), in order
  (`getCommasepWord_words`). Two nested readings of this kind find the first word of
  one list that also occurs in another (`findMatch_eq`).
-/

import Mathlib.Data.List.Basic

namespace Putty.Ssh2

def comma : UInt8 := 44

/-- The next word and the rest of the list, or `none` when only commas are left. -/
def getCommasepWord (list : List UInt8) : Option (List UInt8 × List UInt8) :=
  match list.dropWhile (· == comma) with
  | [] => none
  | b :: bs => some ((b :: bs).takeWhile (· != comma), ((b :: bs).dropWhile (· != comma)).drop 1)

/-- The non-empty elements of a list. -/
def words (list : List UInt8) : List (List UInt8) := (list.splitOn comma).filter (· ≠ [])

theorem words_nil : words [] = [] := by decide

theorem words_comma (l : List UInt8) : words (comma :: l) = words l := by
  have h : (comma :: l).splitOn comma = [[]] ++ l.splitOn comma :=
    List.splitOnP_append_cons [] l (by decide : (comma == comma) = true)
  rw [words, h]
  rfl

theorem words_dropWhile (l : List UInt8) : words (l.dropWhile (· == comma)) = words l := by
  induction l with
  | nil => rfl
  | cons b bs ih =>
    by_cases hb : b = comma
    · subst hb
      rw [List.dropWhile_cons_of_pos (by decide), ih, words_comma]
    · rw [List.dropWhile_cons_of_neg (by simpa using hb)]

theorem words_append {w : List UInt8} (hw : w ≠ []) (hall : ∀ x ∈ w, (x == comma) = false) (l : List UInt8) :
    words (w ++ comma :: l) = w :: words l := by
  rw [words, List.splitOn, List.splitOnP_append_cons_of_forall_mem hall comma (by decide),
    List.filter_cons_of_pos (by simpa using hw)]
  rfl

theorem words_single {w : List UInt8} (hw : w ≠ []) (hall : ∀ x ∈ w, (x == comma) = false) : words w = [w] := by
  rw [words, List.splitOn, List.splitOnP_eq_singleton hall, List.filter_cons_of_pos (by simpa using hw)]
  rfl

/-- A list that does not start with a comma starts with its first word. -/
theorem words_cons {b : UInt8} {bs : List UInt8} (hb : b ≠ comma) :
    words (b :: bs) = (b :: bs).takeWhile (· != comma) :: words (((b :: bs).dropWhile (· != comma)).drop 1) := by
  have hne : (b :: bs).takeWhile (· != comma) ≠ [] := by
    rw [List.takeWhile_cons_of_pos (by simpa using hb)]
    exact List.cons_ne_nil _ _
  have hall : ∀ x ∈ (b :: bs).takeWhile (· != comma), (x == comma) = false := by
    intro x hx
    simpa using List.all_eq_true.mp List.all_takeWhile x hx
  have hsplit := List.takeWhile_append_dropWhile (p := (· != comma)) (l := b :: bs)
  rcases hd : (b :: bs).dropWhile (· != comma) with _ | ⟨c, cs⟩
  · rw [hd, List.append_nil] at hsplit
    rw [hsplit] at hall ⊢
    exact words_single (List.cons_ne_nil _ _) hall
  · have hc : c = comma := by
      have := List.head_dropWhile_not (· != comma) (l := b :: bs) (by rw [hd]; exact List.cons_ne_nil _ _)
      simpa [hd] using this
    subst hc
    rw [hd] at hsplit
    calc words (b :: bs) = words ((b :: bs).takeWhile (· != comma) ++ comma :: cs) := by rw [hsplit]
      _ = _ := words_append hne hall cs

/-- One call takes the first word. -/
theorem getCommasepWord_words (l : List UInt8) :
    (getCommasepWord l = none ∧ words l = []) ∨
      ∃ w rest, getCommasepWord l = some (w, rest) ∧ words l = w :: words rest ∧ rest.length < l.length := by
  rw [← words_dropWhile l]
  rcases hd : l.dropWhile (· == comma) with _ | ⟨b, bs⟩
  · exact Or.inl ⟨by rw [getCommasepWord, hd], words_nil⟩
  · have hb : b ≠ comma := by
      have := List.head_dropWhile_not (· == comma) (l := l) (by rw [hd]; exact List.cons_ne_nil _ _)
      simp [hd] at this
      exact this
    have hlen : (b :: bs).length ≤ l.length := hd ▸ (List.dropWhile_sublist _).length_le
    have htail : ((b :: bs).dropWhile (· != comma)).length ≤ (b :: bs).length := (List.dropWhile_sublist _).length_le
    refine Or.inr ⟨_, _, by rw [getCommasepWord, hd], words_cons hb, ?_⟩
    rw [List.length_cons] at hlen htail
    rw [List.length_drop]
    omega

theorem getCommasepWord_shorter {l w rest : List UInt8} (h : getCommasepWord l = some (w, rest)) :
    rest.length < l.length := by
  rcases getCommasepWord_words l with ⟨h1, -⟩ | ⟨w1, rest1, h1, -, h2⟩
  · rw [h1] at h; cases h
  · rw [h1] at h; cases h; exact h2

/-! ## The first word of one list that is in another -/

/-- The inner loop: `sfirst` if the word is found at the head of the list. -/
def findWord (cword slist : List UInt8) (sfirst : Bool) : Option Bool :=
  match _h : getCommasepWord slist with
  | none => none
  | some (sword, rest) => if cword = sword then some sfirst else findWord cword rest false
termination_by slist.length
decreasing_by exact getCommasepWord_shorter ‹_›

/-- Both loops, up to `goto found_match`. -/
def findMatch (clist slist : List UInt8) (cfirst : Bool) : Option (List UInt8 × Bool × Bool) :=
  match _h : getCommasepWord clist with
  | none => none
  | some (cword, rest) =>
    match findWord cword slist true with
    | some sfirst => some (cword, cfirst, sfirst)
    | none => findMatch rest slist false
termination_by clist.length
decreasing_by exact getCommasepWord_shorter ‹_›

theorem findWord_end {slist : List UInt8} (h : getCommasepWord slist = none) (cword : List UInt8) (sfirst : Bool) :
    findWord cword slist sfirst = none := by
  rw [findWord]; split
  · rfl
  · next h1 => rw [h] at h1; cases h1

theorem findWord_step {slist sword rest : List UInt8} (h : getCommasepWord slist = some (sword, rest))
    (cword : List UInt8) (sfirst : Bool) :
    findWord cword slist sfirst = if cword = sword then some sfirst else findWord cword rest false := by
  rw [findWord]; split
  · next h1 => rw [h] at h1; cases h1
  · next h1 => rw [h] at h1; cases h1; rfl

theorem findMatch_end {clist : List UInt8} (h : getCommasepWord clist = none) (slist : List UInt8) (cfirst : Bool) :
    findMatch clist slist cfirst = none := by
  rw [findMatch]; split
  · rfl
  · next h1 => rw [h] at h1; cases h1

theorem findMatch_step {clist cword rest : List UInt8} (h : getCommasepWord clist = some (cword, rest))
    (slist : List UInt8) (cfirst : Bool) :
    findMatch clist slist cfirst = match findWord cword slist true with
      | some sfirst => some (cword, cfirst, sfirst)
      | none => findMatch rest slist false := by
  rw [findMatch]; split
  · next h1 => rw [h] at h1; cases h1
  · next h1 => rw [h] at h1; cases h1; rfl

theorem findWord_eq (cword slist : List UInt8) (sfirst : Bool) :
    findWord cword slist sfirst =
      if cword ∈ words slist then some (sfirst && (words slist).head? == some cword) else none := by
  induction hn : slist.length using Nat.strongRecOn generalizing slist sfirst with
  | _ n ih =>
    rcases getCommasepWord_words slist with ⟨hg, hw⟩ | ⟨sword, rest, hg, hw, hlen⟩
    · rw [findWord_end hg, hw, if_neg List.not_mem_nil]
    · rw [findWord_step hg, hw]
      by_cases hc : cword = sword
      · subst hc
        rw [if_pos rfl, if_pos List.mem_cons_self, List.head?_cons, beq_self_eq_true, Bool.and_true]
      · have hhd : ((sword :: words rest).head? == some cword) = false := by simpa using Ne.symm hc
        rw [if_neg hc, ih rest.length (hn ▸ hlen) rest false rfl, Bool.false_and, hhd, Bool.and_false]
        simp only [List.mem_cons, hc, false_or]

/-- The first word of the client's list that the server's list has, and whether it is
    the first word of each. -/
theorem findMatch_eq (clist slist : List UInt8) (cfirst : Bool) :
    findMatch clist slist cfirst = ((words clist).find? (· ∈ words slist)).map fun w =>
      (w, cfirst && (words clist).head? == some w, (words slist).head? == some w) := by
  induction hn : clist.length using Nat.strongRecOn generalizing clist cfirst with
  | _ n ih =>
    rcases getCommasepWord_words clist with ⟨hg, hw⟩ | ⟨cword, rest, hg, hw, hlen⟩
    · rw [findMatch_end hg, hw]; rfl
    · rw [findMatch_step hg, findWord_eq, hw]
      by_cases hm : cword ∈ words slist
      · rw [if_pos hm, List.find?_cons_of_pos (by simpa using hm)]
        simp
      · rw [if_neg hm, List.find?_cons_of_neg (by simpa using hm)]
        dsimp only
        rw [ih rest.length (hn ▸ hlen) rest false rfl]
        -- a word found further on is not the head of the client's list
        refine Option.map_congr fun w hf => ?_
        have hne : cword ≠ w := by
          rintro rfl
          exact hm (by simpa using List.find?_some hf)
        simp [hne]

end Putty.Ssh2
