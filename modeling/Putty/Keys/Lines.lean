/-
  Putty.Keys.Lines — text files read a line at a time (`utils.c`, fgetline and chomp).

  fgetline calls fgets again and again into a buffer that it makes larger, and takes what
  fgets left up to the first NUL. chomp cuts the line end off, in an int; `none` is a line
  that an int does not count.

  Proved (`nextLine_line`): a line with no NUL in it is read whole, whatever its length, and
  the line end of either platform is cut off.
-/

import Putty.Keys.RoundTrip

namespace Putty.Keys

open Putty.Utils

/-- The bytes that fgets takes, with room for `n`. -/
def fgetsLoop : Nat → Stream → Bytes × Stream
  | 0, fp => ([], fp)
  | _ + 1, [] => ([], [])
  | n + 1, c :: fp => if c = LF then ([c], fp) else (c :: (fgetsLoop n fp).1, (fgetsLoop n fp).2)

/-- fgets into `size` bytes, one of them for the NUL; `none` is NULL. -/
def fgets (size : Nat) (fp : Stream) : Option (Bytes × Stream) := if fp = [] then none else some (fgetsLoop (size - 1) fp)

/-- sgrowarrayn_nm of bytes, for 512 more than `len`. -/
def growBuffer (size len : Nat) : Nat :=
  if size > len + 512 then size
  else
    let increment := len + 512 - size
    let increment := if increment < 256 then 256 else increment
    size + if increment < size / 16 then size / 16 else increment

/-- The loop of fgetline; every fgets but the last takes a byte at least. -/
def fgetlineLoop : Nat → Nat → Bytes → Stream → Bytes × Stream
  | 0, _, ret, fp => (ret, fp)
  | fuel + 1, size, ret, fp =>
    match fgets (size - ret.length) fp with
    | none => (ret, fp)
    | some (buf, fp) =>
      let ret := ret ++ (cstr buf).bytes
      if ret.getLast? = some LF then (ret, fp) else fgetlineLoop fuel (growBuffer size ret.length) ret fp

/-- fgetline; `none` is NULL. -/
def fgetline (fp : Stream) : Option Bytes × Stream :=
  let (ret, fp) := fgetlineLoop (fp.length + 1) 512 [] fp
  (if ret.length = 0 then none else some ret, fp)

def chomp (str : Bytes) : Option Bytes :=
  if str.length < 2 ^ 31 then some (str.reverse.dropWhile fun c => c = CR ∨ c = LF).reverse else none

/-- chomp(fgetline(fp)). -/
def nextLine (fp : Stream) : Option (Option Bytes × Stream) :=
  match fgetline fp with
  | (none, fp) => some (none, fp)
  | (some line, fp) => (chomp line).map fun line => (some line, fp)

/-! ## A line of any length -/

theorem fgetsLoop_short (rest : Stream) : ∀ (s : Bytes) (n : Nat), LF ∉ s → s.length < n →
    fgetsLoop n (s ++ LF :: rest) = (s ++ [LF], rest)
  | [], n + 1, _, _ => by rw [List.nil_append, fgetsLoop, if_pos rfl, List.nil_append]
  | c :: s, n + 1, hs, hn => by
    have hc : c ≠ LF := fun he => hs (he ▸ List.mem_cons_self)
    have ih := fgetsLoop_short rest s n (fun h => hs (List.mem_cons_of_mem c h)) (Nat.lt_of_succ_lt_succ hn)
    rw [List.cons_append, fgetsLoop, if_neg hc, ih, List.cons_append]

theorem fgetsLoop_long (rest : Stream) : ∀ (s : Bytes) (n : Nat), LF ∉ s → n ≤ s.length →
    fgetsLoop n (s ++ LF :: rest) = (s.take n, s.drop n ++ LF :: rest)
  | s, 0, _, _ => by rw [fgetsLoop, List.take_zero, List.drop_zero]
  | c :: s, n + 1, hs, hn => by
    have hc : c ≠ LF := fun he => hs (he ▸ List.mem_cons_self)
    have ih := fgetsLoop_long rest s n (fun h => hs (List.mem_cons_of_mem c h)) (Nat.le_of_succ_le_succ hn)
    rw [List.cons_append, fgetsLoop, if_neg hc, ih, List.take_succ_cons, List.drop_succ_cons]

theorem growBuffer_room (size len : Nat) : len + 2 ≤ growBuffer size len := by
  unfold growBuffer
  split
  · omega
  · dsimp only
    split <;> split <;> omega

/-- What is left of a line without NULs is read, however often the buffer grows. -/
theorem fgetlineLoop_line (rest : Stream) (fuel : Nat) : ∀ (size : Nat) (ret s : Bytes), LF ∉ s → 0 ∉ s → LF ∉ ret →
    ret.length + 2 ≤ size → s.length < fuel → fgetlineLoop fuel size ret (s ++ LF :: rest) = (ret ++ s ++ [LF], rest) := by
  induction fuel with
  | zero => intro size ret s _ _ _ _ hfuel; omega
  | succ fuel ih =>
    intro size ret s hs h0 hret hsize hfuel
    have hne : s ++ LF :: rest ≠ [] := List.append_ne_nil_of_right_ne_nil _ (List.cons_ne_nil _ _)
    rw [fgetlineLoop, fgets, if_neg hne]
    dsimp only
    by_cases hn : s.length < size - ret.length - 1
    · rw [fgetsLoop_short rest s _ hs hn]
      dsimp only
      have hbytes : (cstr (s ++ [LF])).bytes = s ++ [LF] := cstr_bytes fun h => (List.mem_append.mp h).elim h0 (by decide)
      rw [hbytes, ← List.append_assoc, List.getLast?_concat, if_pos rfl]
    · rw [fgetsLoop_long rest s _ hs (Nat.le_of_not_lt hn)]
      dsimp only
      generalize hm : size - ret.length - 1 = m at hn
      have hbytes : (cstr (s.take m)).bytes = s.take m := cstr_bytes fun h => h0 (List.mem_of_mem_take h)
      have hsplit : ret ++ s.take m ++ s.drop m = ret ++ s := by rw [List.append_assoc, List.take_append_drop]
      have hclean : LF ∉ ret ++ s.take m := fun h => (List.mem_append.mp h).elim hret fun h => hs (List.mem_of_mem_take h)
      rw [hbytes, if_neg fun h => hclean (List.mem_of_getLast? h), ih _ _ _ (fun h => hs (List.mem_of_mem_drop h))
        (fun h => h0 (List.mem_of_mem_drop h)) hclean (growBuffer_room _ _) (by rw [List.length_drop]; omega), hsplit]

theorem fgetline_line {s : Bytes} (rest : Stream) (hs : LF ∉ s) (h0 : 0 ∉ s) :
    fgetline (s ++ LF :: rest) = (some (s ++ [LF]), rest) := by
  have hloop := fgetlineLoop_line rest ((s ++ LF :: rest).length + 1) 512 [] s hs h0 (by decide) (by decide)
    (by rw [List.length_append]; omega)
  unfold fgetline
  rw [hloop]
  dsimp only
  rw [List.nil_append, if_neg (by rw [List.length_append, List.length_singleton]; omega)]

/-- The line ends that are cut off. -/
theorem chomp_line {s eol : Bytes} (heol : ∀ c ∈ eol, c = CR ∨ c = LF) (hs : ∀ c, s.getLast? = some c → c ≠ CR ∧ c ≠ LF)
    (hlen : (s ++ eol).length < 2 ^ 31) : chomp (s ++ eol) = some s := by
  rw [chomp, if_pos hlen, List.reverse_append, List.dropWhile_append_of_pos fun c hc => by
    simpa using heol c (List.mem_reverse.mp hc)]
  cases hr : s.reverse with
  | nil => rw [List.reverse_eq_nil_iff.mp hr]; rfl
  | cons c t =>
    have hs' : s = t.reverse ++ [c] := by rw [← List.reverse_reverse s, hr, List.reverse_cons]
    have hc := hs c (by rw [hs', List.getLast?_concat])
    rw [List.dropWhile_cons_of_neg (by simpa using hc), hs', List.reverse_cons]

/-- What is in front of a character that stays, stays too. -/
theorem chomp_keeps {a more : Bytes} {c : UInt8} (hc : c ≠ CR ∧ c ≠ LF) (hlen : (a ++ c :: more).length < 2 ^ 31) :
    ∃ more', chomp (a ++ c :: more) = some (a ++ c :: more') := by
  rw [chomp, if_pos hlen, List.reverse_append, List.reverse_cons, List.append_assoc, List.singleton_append, List.dropWhile_append]
  split
  · refine ⟨[], ?_⟩
    rw [List.dropWhile_cons_of_neg (by simpa using hc), List.reverse_cons, List.reverse_reverse]
  · generalize more.reverse.dropWhile _ = kept
    exact ⟨kept.reverse, by rw [List.reverse_append, List.reverse_cons, List.reverse_reverse, List.append_assoc, List.singleton_append]⟩

theorem newline_eq (p : Platform) : ∃ cr, p.newline = cr ++ [LF] ∧ LF ∉ cr ∧ 0 ∉ cr ∧ cr.length ≤ 1 := by
  cases p with
  | unix => exact ⟨[], rfl, by simp, by simp, Nat.zero_le 1⟩
  | windows => exact ⟨[CR], rfl, by decide, by decide, Nat.le_refl 1⟩

theorem written_unbroken {p : Platform} : ∀ {s : Bytes}, LF ∉ s → p.written s = s
  | [], _ => rfl
  | c :: s, h => by
    have hc : p.fputc c = [c] := if_neg fun (he : c = LF) => h (he ▸ List.mem_cons_self)
    have ih := @written_unbroken p s fun hm => h (List.mem_cons_of_mem c hm)
    rw [Platform.written, List.flatMap_cons, hc]
    exact congrArg (c :: ·) ih

/-- The first line of a text that goes on after a character with whatever bytes. -/
theorem nextLine_first {p : Platform} {a more : Bytes} {c : UInt8} (ha : LF ∉ a) (hc : c ≠ CR ∧ c ≠ LF)
    (h0 : 0 ∉ a ++ c :: more) (hlen : (a ++ c :: more).length + 2 < 2 ^ 31) :
    ∃ more' rest, nextLine (p.written (a ++ c :: more ++ [LF])) = some (some (a ++ c :: more'), rest) := by
  obtain ⟨cr, hnewline, hcr, hcr0, hcrlen⟩ := newline_eq p
  obtain ⟨first, rest, hsplit, hfirst⟩ := List.eq_append_cons_of_mem (show LF ∈ more ++ [LF] by simp)
  have hlens := congrArg List.length hsplit
  simp only [List.length_append, List.length_cons, List.length_nil] at hlens hlen
  have hmem : ∀ b ∈ first, b ∈ more ∨ b = LF := fun b hb => by
    have : b ∈ more ++ [LF] := hsplit ▸ List.mem_append_left _ hb
    simpa using this
  have hclean : LF ∉ a ++ c :: (first ++ cr) := by
    simp only [List.mem_append, List.mem_cons, not_or]
    exact ⟨ha, hc.2.symm, hfirst, hcr⟩
  have hnul : 0 ∉ a ++ c :: (first ++ cr) := by
    simp only [List.mem_append, List.mem_cons, not_or] at h0 ⊢
    exact ⟨h0.1, h0.2.1, fun hb => (hmem 0 hb).elim h0.2.2 (by decide), hcr0⟩
  have htext : p.written (a ++ c :: more ++ [LF]) = (a ++ c :: (first ++ cr)) ++ LF :: p.written rest := by
    have hkeep : LF ∉ a ++ c :: first := fun h => hclean (by
      simp only [List.mem_append, List.mem_cons] at h ⊢
      rcases h with h | h | h
      · exact Or.inl h
      · exact Or.inr (Or.inl h)
      · exact Or.inr (Or.inr (Or.inl h)))
    rw [show a ++ c :: more ++ [LF] = (a ++ c :: first) ++ ([LF] ++ rest) by
      rw [List.append_assoc, List.cons_append, hsplit, List.append_assoc, List.cons_append]
      rfl]
    rw [written_append (a ++ c :: first), written_append [LF], written_newline, written_unbroken hkeep, hnewline]
    simp
  obtain ⟨more', hmore⟩ := @chomp_keeps a (first ++ cr ++ [LF]) c hc (by
    simp only [List.length_append, List.length_cons, List.length_nil]
    omega)
  refine ⟨more', p.written rest, ?_⟩
  rw [htext, nextLine, fgetline_line _ hclean hnul]
  dsimp only
  rw [show a ++ c :: (first ++ cr) ++ [LF] = a ++ c :: (first ++ cr ++ [LF]) by simp, hmore]
  rfl

/-- A line of text as it stands in a file. -/
theorem nextLine_line {p : Platform} {s : Bytes} (rest : Stream) (hs : OneLine s) (h0 : 0 ∉ s) (hlen : s.length + 2 < 2 ^ 31) :
    nextLine (s ++ p.newline ++ rest) = some (some s, rest) := by
  have hlast : ∀ c, s.getLast? = some c → c ≠ CR ∧ c ≠ LF := fun c hc => (hs c (List.mem_of_getLast? hc)).symm
  have hlf : LF ∉ s := fun h => (hs LF h).1 rfl
  cases p with
  | unix =>
    rw [Platform.newline, List.append_assoc, List.singleton_append, nextLine, fgetline_line rest hlf h0]
    dsimp only
    rw [chomp_line (by simp) hlast (by rw [List.length_append, List.length_singleton]; omega)]
    rfl
  | windows =>
    have hlf' : LF ∉ s ++ [CR] := fun h => (List.mem_append.mp h).elim hlf (by decide)
    have h0' : 0 ∉ s ++ [CR] := fun h => (List.mem_append.mp h).elim h0 (by decide)
    rw [Platform.newline, show s ++ [CR, LF] ++ rest = (s ++ [CR]) ++ LF :: rest by simp, nextLine, fgetline_line rest hlf' h0']
    dsimp only
    rw [show s ++ [CR] ++ [LF] = s ++ [CR, LF] by simp, chomp_line (by simp) hlast (by
      rw [List.length_append, List.length_cons, List.length_singleton]
      omega)]
    rfl

end Putty.Keys
