/-
  Putty.Terminal.Erase — the two ways in which erase_lots clears the screen (`terminal.c`,
  erase_lots, find_last_nonempty_line, scroll).

  An erase of whole lines from the top of the screen either erases them in place, position by
  position, or, with erase_to_scrollback, scrolls them into the scrollback. When the erase goes
  to the bottom of the screen, only the lines up to the last that is not empty are scrolled, and
  a line is empty if its characters are blank.

  Proved: in place, every line becomes a blank line (`eraseInPlace_screen`); by scrolling, only
  the lines scrolled do (`scroll_screen`). So the two look the same exactly if each line after
  the last that is not empty is as plain as a blank one (`erasing_looks_same_iff`): a blank
  line in double width stays in double width (`wide_blank_line_stays_wide`), and a blank line
  keeps its trust flag.
-/

import Putty.Terminal.Screen

namespace Putty.Terminal

namespace TermState

/-! ## What is seen -/

/-- What is seen of a line of the screen: lineptr makes it as wide as the terminal, and no more is shown. -/
def look (t : TermState) (l : Line) : Line := { t.widen l with cells := (t.widen l).cells.take t.cols }

def visible (t : TermState) : List Line := t.screen.map t.look

/-- The terminal has a size, the screen has that many lines and the cursor is on it. -/
structure Ok (t : TermState) : Prop where
  rows_pos : 0 < t.rows
  cols_pos : 0 < t.cols
  count_screen : t.screen.length = t.rows
  curs_y : 0 ≤ t.curs.y ∧ t.curs.y < t.rows
  curs_x : 0 ≤ t.curs.x ∧ t.curs.x < t.cols
  temp_le : t.tempsblines ≤ t.scrollback.length
  scrollback_le : t.scrollback.length ≤ t.savelines

/-- An erased line. -/
def blankLine (t : TermState) : Line where
  cells := List.replicate t.cols t.eraseChar.cell
  lattr := LATTR_NORM
  trusted := t.trusted

/-- What erasing reads and does not change. -/
structure Same (t t' : TermState) : Prop where
  rows : t'.rows = t.rows
  cols : t'.cols = t.cols
  trusted : t'.trusted = t.trusted
  basic : t'.basicEraseChar = t.basicEraseChar
  erase : t'.eraseChar = t.eraseChar
  altWhich : t'.altWhich = t.altWhich

theorem Same.refl (t : TermState) : t.Same t := ⟨rfl, rfl, rfl, rfl, rfl, rfl⟩

theorem Same.trans {t t' t'' : TermState} (h : t.Same t') (h' : t'.Same t'') : t.Same t'' :=
  ⟨h'.rows.trans h.rows, h'.cols.trans h.cols, h'.trusted.trans h.trusted, h'.basic.trans h.basic,
    h'.erase.trans h.erase, h'.altWhich.trans h.altWhich⟩

theorem Same.blankLine {t t' : TermState} (h : t.Same t') : t'.blankLine = t.blankLine := by
  simp only [TermState.blankLine, h.cols, h.erase, h.trusted]

theorem Same.look {t t' : TermState} (h : t.Same t') : t'.look = t.look := by
  funext l
  simp only [TermState.look, widen, h.cols, h.basic]

/-! ## Lines -/

section Lines

variable {t : TermState}

@[simp] theorem length_resize (b : Blank) (n : Nat) (l : Line) : (l.resize b n).cells.length = n := by
  simp only [Line.resize, List.length_append, List.length_take, List.length_replicate]
  omega

theorem checkLineSize_cols (l : Line) : (t.checkLineSize l).cells.length = t.cols := by
  unfold checkLineSize Line.cols
  split
  · simp
  · omega

theorem checkLineSize_of_length {l : Line} (h : l.cells.length = t.cols) : t.checkLineSize l = l := by
  rw [checkLineSize, Line.cols, if_neg (by omega)]

theorem checkLineSize_trusted (l : Line) : (t.checkLineSize l).trusted = l.trusted := by
  unfold checkLineSize
  split <;> rfl

theorem clearCells_spec (b : Blank) (l : Line) : ∀ n ≤ l.cells.length,
    clearCells b n l = { l with cells := List.replicate n b.cell ++ l.cells.drop n } := by
  intro n
  induction n with
  | zero => intro _; rfl
  | succ n ih =>
    intro hn
    have hprev := ih (by omega)
    unfold clearCells at hprev ⊢
    rw [List.range_succ, List.foldl_append, hprev]
    simp only [List.foldl_cons, List.foldl_nil, Line.erase]
    rw [List.set_append_right _ _ (by simp), List.length_replicate, Nat.sub_self,
      List.drop_eq_getElem_cons (by omega : n < l.cells.length), List.set_cons_zero, List.replicate_succ']
    simp

theorem clearLine_eq (l : Line) : t.clearLine l = { t.blankLine with trusted := l.trusted } := by
  have hlen : (l.resize t.basicEraseChar t.cols).cells.length = t.cols := length_resize _ _ _
  rw [clearLine, clearCells_spec _ _ _ (Nat.le_of_eq hlen.symm), List.drop_of_length_le (Nat.le_of_eq hlen), List.append_nil]
  rfl

theorem checkTrustStatus_trusted (l : Line) : (t.checkTrustStatus l).trusted = t.trusted := by
  unfold checkTrustStatus
  split
  · rfl
  · exact not_ne_iff.mp ‹_›

/-- The line that scroll puts in at the bottom is an erased line. -/
theorem scrolled_line (l : Line) : t.checkTrustStatus (t.clearLine l) = t.blankLine := by
  have hc := clearLine_eq (t := t) l
  by_cases hl : l.trusted = t.trusted
  · rw [checkTrustStatus, hc, if_neg (by simpa using hl), hl]
    rfl
  · rw [checkTrustStatus, if_pos (by rw [hc]; exact hl), clearLine_eq]
    rfl

theorem look_blankLine : t.look t.blankLine = t.blankLine := by
  simp [look, widen, Line.cols, blankLine]

end Lines

/-! ## By scrolling -/

theorem pushScrollback_same (t : TermState) (l : Line) : t.Same (t.pushScrollback l) ∧ (t.pushScrollback l).screen = t.screen := by
  simp only [pushScrollback]
  split <;> split <;> exact ⟨⟨rfl, rfl, rfl, rfl, rfl, rfl⟩, rfl⟩

theorem insertIdx_append (a b : List Line) (l : Line) : (a ++ b).insertIdx a.length l = a ++ l :: b := by
  induction a with
  | nil => rfl
  | cons x a ih => simp [List.insertIdx_succ_cons, ih]

theorem scrollForward_screen (t : TermState) (sb : Bool) (a : Line) (above below : List Line)
    (hs : t.screen = a :: above ++ below) : ∃ t', t.scrollForward 0 above.length sb = some t' ∧
      t'.screen = above ++ [t.blankLine] ++ below ∧ t.Same t' := by
  let t₁ := { t with screen := t.screen.eraseIdx 0 }
  let t₂ := if sb && decide (0 < t₁.savelines) then t₁.pushScrollback a else t₁
  have h₂ : t.Same t₂ ∧ t₂.screen = above ++ below := by
    have hs₁ : t₁.screen = above ++ below := by simp [t₁, hs]
    have h₁ : t.Same t₁ := ⟨rfl, rfl, rfl, rfl, rfl, rfl⟩
    by_cases hc : (sb && decide (0 < t₁.savelines)) = true
    · have hp := pushScrollback_same t₁ a
      simp only [t₂, if_pos hc]
      exact ⟨h₁.trans hp.1, hp.2.trans hs₁⟩
    · simp only [t₂, if_neg hc]
      exact ⟨h₁, hs₁⟩
  refine ⟨{ t₂ with screen := t₂.screen.insertIdx above.length t₂.blankLine }, ?_, ?_, ?_⟩
  · have hhead : t.screen[0]? = some a := by simp [hs]
    unfold scrollForward
    simp only [hhead]
    rw [scrolled_line]
  · simp only [h₂.2, h₂.1.blankLine]
    rw [insertIdx_append]
    simp
  · exact h₂.1.trans ⟨rfl, rfl, rfl, rfl, rfl, rfl⟩

theorem scrollForward_times (n : Nat) : ∀ (t : TermState) (sb : Bool) (above kept below : List Line),
    t.screen = above ++ kept ++ below → above.length = n → 0 < n + kept.length →
    ∃ t', times (fun t => t.scrollForward 0 (n + kept.length - 1) sb) n t = some t' ∧
      t'.screen = kept ++ List.replicate n t.blankLine ++ below ∧ t.Same t' := by
  induction n with
  | zero =>
    intro t sb above kept below hs ha _
    rw [List.eq_nil_of_length_eq_zero ha] at hs
    exact ⟨t, rfl, by simpa using hs, .refl t⟩
  | succ n ih =>
    intro t sb above kept below hs ha _
    obtain ⟨a, above, rfl⟩ : ∃ a rest, above = a :: rest := by
      cases above with
      | nil => simp at ha
      | cons a rest => exact ⟨a, rest, rfl⟩
    have ha : above.length = n := by simpa using ha
    have hbot : (above ++ kept).length = n + 1 + kept.length - 1 := by
      rw [List.length_append, ha]
      omega
    obtain ⟨t₁, hr, hs₁, h₁⟩ := scrollForward_screen t sb a (above ++ kept) below (by simpa using hs)
    rw [hbot] at hr
    have hnext : t₁.screen = above ++ (kept ++ [t.blankLine]) ++ below := by simpa using hs₁
    obtain ⟨t₂, hr₂, hs₂, h₂⟩ := ih t₁ sb above (kept ++ [t.blankLine]) below hnext ha (by simp)
    have hlen : n + (kept ++ [t.blankLine]).length - 1 = n + 1 + kept.length - 1 := by
      rw [List.length_append, List.length_singleton]
      omega
    rw [hlen] at hr₂
    refine ⟨t₂, by simp only [times, hr, Option.bind_some]; exact hr₂, ?_, h₁.trans h₂⟩
    rw [hs₂, h₁.blankLine, List.replicate_succ]
    simp

/-- Scrolling the first `n` lines away leaves `n` erased lines. -/
theorem scroll_screen (t : TermState) (sb : Bool) {n : Nat} (hn : 0 < n) (hl : n ≤ t.screen.length) :
    ∃ t', t.scroll 0 (n - 1) n sb = some t' ∧ t'.screen = List.replicate n t.blankLine ++ t.screen.drop n ∧ t.Same t' := by
  have hsplit : t.screen = t.screen.take n ++ [] ++ t.screen.drop n := by simp
  obtain ⟨t', hr, hs, h⟩ := scrollForward_times n t (if (0 : Nat) ≠ 0 ∨ t.altWhich ≠ 0 then false else sb) _ [] _ hsplit
    (by simpa using hl) (by simpa using hn)
  refine ⟨t', ?_, by simpa using hs, h⟩
  have hmin : min ((n : Int).natAbs) (n - 1 + 1 - 0) = n := by omega
  unfold scroll
  simp only [if_neg (show ¬((n : Int) < 0) by omega), hmin]
  exact hr

/-! ## In place -/

def withScreen (t : TermState) (s : List Line) : TermState := { t with screen := s }

section InPlace

variable {t : TermState}

theorem modLine_at (pre post : List Line) (l : Line) (f : Line → Line) {y : Int} (hy : y = pre.length) :
    (t.withScreen (pre ++ l :: post)).modLine y f = some (t.withScreen (pre ++ f l :: post)) := by
  have hn : y.toNat = pre.length := by omega
  have hl : y.toNat < (pre ++ l :: post).length := by
    rw [hn, List.length_append, List.length_cons]
    omega
  have hm : (pre ++ l :: post).modify pre.length f = pre ++ f l :: post := by
    rw [List.modify_eq_take_cons_drop (by simp)]
    simp
  unfold modLine
  rw [if_pos ⟨by omega, hl⟩, hn]
  simp only [withScreen, hm]

theorem eraseLine_at (pre post : List Line) (l : Line) {y : Int} (hy : y = pre.length) :
    ∃ l', (t.withScreen (pre ++ l :: post)).eraseLine y = some (t.withScreen (pre ++ l' :: post)) ∧ l'.trusted = t.trusted := by
  refine ⟨t.checkTrustStatus (t.widen l), ?_, checkTrustStatus_trusted _⟩
  unfold eraseLine scrlineptr
  rw [modLine_at pre post l _ hy, Option.bind_some, modLine_at pre post _ _ hy]
  rfl

/-- What the loop does after a line: it goes on with the next, if there is one. -/
def nextLine (t : TermState) (stop : Pos) (n : Nat) (y : Int) (s : List Line) : Option TermState :=
  if y < t.rows then ((t.withScreen s).eraseLine y).bind (eraseLoop stop true n ⟨y, 0⟩)
  else eraseLoop stop true n ⟨y, 0⟩ (t.withScreen s)

/-- The positions of a line from `x` on, when those before `x` have been erased. -/
theorem line_pass (pre post : List Line) {stop : Pos} (n : Nat) (hstop : (pre.length : Int) < stop.y) :
    ∀ (k x : Nat) (l : Line), x + k = t.cols →
      (t.checkLineSize l).cells.take x = List.replicate x t.eraseChar.cell → l.trusted = t.trusted →
      eraseLoop stop true (k + 1 + n) ⟨pre.length, x⟩ (t.withScreen (pre ++ l :: post)) =
        nextLine t stop n (pre.length + 1) (pre ++ t.blankLine :: post) := by
  have hlt : ∀ x : Int, poslt ⟨pre.length, x⟩ stop = true := fun x => by simp [poslt, hstop]
  intro k
  induction k with
  | zero =>
    intro x l hx hcells htrust
    have hx : x = t.cols := hx
    have hline : { t.checkLineSize l with lattr := LATTR_NORM } = t.blankLine := by
      have hlen := checkLineSize_cols (t := t) l
      rw [hx, List.take_of_length_le (Nat.le_of_eq hlen)] at hcells
      rw [blankLine, ← hcells, ← htrust, ← checkLineSize_trusted (t := t) l]
    have hstep : (t.withScreen (pre ++ l :: post)).erasePos ⟨pre.length, x⟩ true =
        some (t.withScreen (pre ++ t.blankLine :: post)) := by
      unfold erasePos
      rw [modLine_at pre post l _ rfl]
      simp only [hx, withScreen, if_true]
      rw [← hline]
      rfl
    have hinc : (t.withScreen (pre ++ t.blankLine :: post)).incpos ⟨pre.length, x⟩ = (⟨pre.length + 1, 0⟩, true) := by
      simp [incpos, hx, withScreen]
    rw [Nat.zero_add, Nat.add_comm, eraseLoop, if_pos (hlt _), hstep, Option.bind_some]
    simp only [hinc, Bool.true_and, decide_eq_true_eq]
    rfl
  | succ k ih =>
    intro x l hx hcells htrust
    have hlen := checkLineSize_cols (t := t) l
    let l' := (t.checkLineSize l).erase x t.eraseChar
    have hlen' : l'.cells.length = t.cols := by simp [l', Line.erase, hlen]
    have hstep : (t.withScreen (pre ++ l :: post)).erasePos ⟨pre.length, x⟩ true =
        some (t.withScreen (pre ++ l' :: post)) := by
      unfold erasePos
      rw [modLine_at pre post l _ rfl]
      have hne : ¬(x : Int) = t.cols := by omega
      simp only [withScreen, if_neg hne, Int.toNat_natCast]
      rfl
    have hinc : (t.withScreen (pre ++ l' :: post)).incpos ⟨pre.length, x⟩ = (⟨pre.length, (x + 1 : Nat)⟩, false) := by
      have hne : ¬(x : Int) = t.cols := by omega
      simp [incpos, withScreen, hne]
    rw [show k + 1 + 1 + n = k + 1 + n + 1 by omega, eraseLoop, if_pos (hlt _), hstep, Option.bind_some]
    simp only [hinc, Bool.false_and, Bool.false_eq_true, if_false]
    refine ih (x + 1) l' (by omega) ?_ ((checkLineSize_trusted l).trans htrust)
    rw [checkLineSize_of_length hlen', List.take_add_one, List.replicate_succ']
    congr 1
    · simp only [l', Line.erase]
      rw [List.take_set_of_le (Nat.le_refl x), hcells]
    · simp only [l', Line.erase]
      rw [List.getElem?_set_self (by omega)]
      rfl

/-- From a line of the screen down to the last, every line becomes an erased line. -/
theorem lines_pass : ∀ (post pre : List Line) (l : Line), pre.length + 1 + post.length = t.rows → l.trusted = t.trusted →
    eraseLoop ⟨t.rows, 0⟩ true ((post.length + 1) * (t.cols + 1)) ⟨pre.length, 0⟩ (t.withScreen (pre ++ l :: post)) =
      some (t.withScreen (pre ++ List.replicate (post.length + 1) t.blankLine)) := by
  intro post
  induction post with
  | nil =>
    intro pre l hlen htrust
    rw [List.length_nil] at hlen
    have hstop : (pre.length : Int) < (⟨t.rows, 0⟩ : Pos).y := by simp only []; omega
    have hpass := line_pass (t := t) pre [] 0 hstop t.cols 0 l (by omega) rfl htrust
    rw [List.length_nil, Nat.zero_add, Nat.one_mul]
    refine hpass.trans ?_
    rw [nextLine, if_neg (by omega)]
    rfl
  | cons p post ih =>
    intro pre l hlen htrust
    rw [List.length_cons] at hlen
    have hstop : (pre.length : Int) < (⟨t.rows, 0⟩ : Pos).y := by simp only []; omega
    have hpass := line_pass (t := t) pre (p :: post) ((post.length + 1) * (t.cols + 1)) hstop t.cols 0 l (by omega) rfl htrust
    have hcount : ((p :: post).length + 1) * (t.cols + 1) = t.cols + 1 + (post.length + 1) * (t.cols + 1) := by
      rw [List.length_cons]
      ring
    rw [hcount]
    refine hpass.trans ?_
    have hy : ((pre ++ [t.blankLine]).length : Int) = pre.length + 1 := by simp
    have hcons : pre ++ t.blankLine :: p :: post = (pre ++ [t.blankLine]) ++ p :: post := by simp
    obtain ⟨p', hp, hpt⟩ := eraseLine_at (t := t) (pre ++ [t.blankLine]) post p hy.symm
    have hrest := ih (pre ++ [t.blankLine]) p' (by simp; omega) hpt
    rw [nextLine, if_pos (by omega), hcons, hp, Option.bind_some, ← hy]
    refine hrest.trans ?_
    simp [List.replicate_succ]

/-- In place, every line of the screen becomes an erased line. -/
theorem eraseInPlace_screen (hr : 0 < t.rows) (hc : t.screen.length = t.rows) :
    t.eraseInPlace ⟨0, 0⟩ ⟨t.rows, 0⟩ true = some (t.withScreen (List.replicate t.rows t.blankLine)) := by
  obtain ⟨l, post, hs⟩ : ∃ l post, t.screen = l :: post := by
    cases h : t.screen with
    | nil => rw [h] at hc; simp at hc; omega
    | cons l post => exact ⟨l, post, rfl⟩
  rw [hs, List.length_cons] at hc
  have ht : t = t.withScreen ([] ++ l :: post) := by simp [withScreen, ← hs]
  obtain ⟨l', hl, hlt⟩ := eraseLine_at (t := t) [] post l (y := 0) rfl
  have hcount : t.posCount ⟨0, 0⟩ ⟨t.rows, 0⟩ = (post.length + 1) * (t.cols + 1) := by
    simp only [posCount, hc]
    rw [show (((t.rows : Int) - 0) * ((t.cols : Int) + 1) + (0 - 0)) = ((t.rows * (t.cols + 1) : Nat) : Int) by push_cast; ring]
    exact Int.toNat_natCast _
  rw [← ht] at hl
  have hall := lines_pass (t := t) post [] l' (by simp; omega) hlt
  unfold eraseInPlace
  rw [hl, Option.bind_some, hcount]
  refine hall.trans ?_
  rw [List.nil_append, hc]

end InPlace

/-! ## The setting -/

/-- The state with erase_to_scrollback set or not. -/
def toScrollback (b : Bool) (t : TermState) : TermState := { t with eraseToScrollback := b }

section Setting

variable {t : TermState} (b : Bool)

theorem modLine_setting (y : Int) (f : Line → Line) :
    (t.toScrollback b).modLine y f = (t.modLine y f).map (toScrollback b) := by
  unfold modLine
  by_cases h : 0 ≤ y ∧ y.toNat < t.screen.length
  · rw [if_pos h, if_pos (show 0 ≤ y ∧ y.toNat < (t.toScrollback b).screen.length from h)]
    rfl
  · rw [if_neg h, if_neg (show ¬(0 ≤ y ∧ y.toNat < (t.toScrollback b).screen.length) from h)]
    rfl

theorem eraseLine_setting (y : Int) : (t.toScrollback b).eraseLine y = (t.eraseLine y).map (toScrollback b) := by
  have h₁ := modLine_setting (t := t) b y t.widen
  unfold eraseLine scrlineptr
  rw [show (t.toScrollback b).widen = t.widen from rfl, h₁]
  cases t.modLine y t.widen with
  | none => rfl
  | some t₁ => exact modLine_setting b y t₁.checkTrustStatus

theorem erasePos_setting (p : Pos) (a : Bool) : (t.toScrollback b).erasePos p a = (t.erasePos p a).map (toScrollback b) :=
  modLine_setting b p.y _

theorem eraseLoop_setting (stop : Pos) (a : Bool) : ∀ (n : Nat) (p : Pos) (t : TermState),
    eraseLoop stop a n p (t.toScrollback b) = (eraseLoop stop a n p t).map (toScrollback b) := by
  intro n
  induction n with
  | zero => exact fun _ _ => rfl
  | succ n ih =>
    intro p t
    unfold eraseLoop
    by_cases hp : poslt p stop = true
    · rw [if_pos hp, if_pos hp, erasePos_setting]
      cases t.erasePos p a with
      | none => rfl
      | some t₁ =>
        simp only [Option.map_some, Option.bind_some]
        have hinc : (t₁.toScrollback b).incpos p = t₁.incpos p := rfl
        rw [hinc]
        by_cases hq : ((t₁.incpos p).2 && decide ((t₁.incpos p).1.y < t₁.rows)) = true
        · rw [if_pos hq, if_pos (show ((t₁.incpos p).2 && decide ((t₁.incpos p).1.y < (t₁.toScrollback b).rows)) = true from hq),
            eraseLine_setting]
          cases t₁.eraseLine (t₁.incpos p).1.y with
          | none => rfl
          | some t₂ => exact ih _ t₂
        · rw [if_neg hq, if_neg (show ¬((t₁.incpos p).2 && decide ((t₁.incpos p).1.y < (t₁.toScrollback b).rows)) = true from hq)]
          exact ih _ t₁
    · rw [if_neg hp, if_neg hp]
      rfl

theorem eraseInPlace_setting (start stop : Pos) (a : Bool) :
    (t.toScrollback b).eraseInPlace start stop a = (t.eraseInPlace start stop a).map (toScrollback b) := by
  unfold eraseInPlace
  rw [eraseLine_setting]
  cases t.eraseLine start.y with
  | none => rfl
  | some t₁ => exact eraseLoop_setting b stop a _ start t₁

theorem checkBoundary_setting (x y : Int) : (t.toScrollback b).checkBoundary x y = (t.checkBoundary x y).map (toScrollback b) := by
  have h₁ := modLine_setting (t := t) b y t.widen
  unfold checkBoundary
  by_cases hx : x ≤ 0 ∨ x > t.cols
  · rw [if_pos hx, if_pos (show x ≤ 0 ∨ x > (t.toScrollback b).cols from hx)]
    rfl
  · rw [if_neg hx, if_neg (show ¬(x ≤ 0 ∨ x > (t.toScrollback b).cols) from hx)]
    unfold scrlineptr
    rw [show (t.toScrollback b).widen = t.widen from rfl, h₁]
    cases t.modLine y t.widen with
    | none => rfl
    | some t₁ => exact modLine_setting b y _

/-- An erase of one line does not depend on the setting. -/
theorem eraseLots_line_setting (fromBegin toEnd : Bool) :
    (t.toScrollback b).eraseLots true fromBegin toEnd =
      ((t.toScrollback false).eraseLots true fromBegin toEnd).map (toScrollback b) := by
  have hregion : (t.toScrollback b).eraseRegion true fromBegin toEnd = (t.toScrollback false).eraseRegion true fromBegin toEnd := rfl
  have hback : t.toScrollback b = (t.toScrollback false).toScrollback b := rfl
  unfold eraseLots
  rw [hregion, hback]
  generalize t.toScrollback false = t
  have hbound : (if !fromBegin || !toEnd then (t.toScrollback b).checkBoundary t.curs.x t.curs.y else some (t.toScrollback b)) =
      (if !fromBegin || !toEnd then t.checkBoundary t.curs.x t.curs.y else some t).map (toScrollback b) := by
    split
    · exact checkBoundary_setting b _ _
    · rfl
  have hlattr : (t.eraseRegion true fromBegin toEnd).2.2 = false := rfl
  simp only [hlattr]
  refine (congrArg (fun o => Option.bind o _) hbound).trans ?_
  cases (if !fromBegin || !toEnd then t.checkBoundary t.curs.x t.curs.y else some t) with
  | none => rfl
  | some t₁ =>
    simp only [Option.map_some, Option.bind_some, Bool.false_eq_true, and_false, if_false, false_and]
    rw [eraseInPlace_setting]
    cases t₁.eraseInPlace _ _ false <;> rfl

end Setting

/-! ## Both ways -/

/-- A line with nothing in it that a blank line has not: no line attribute, the terminal's own trust
    status, and no column or display bit that differs from the erase character. -/
def Plain (t : TermState) (l : Line) : Prop :=
  l.lattr = LATTR_NORM ∧ l.trusted = t.trusted ∧ (t.cols ≤ l.cols ∨ t.eraseChar.cell = t.basicEraseChar.cell) ∧
    ∀ c ∈ l.cells.take t.cols, c.attr = t.eraseChar.cell.attr

/-- The lines below the last that find_last_nonempty_line finds not to be empty. -/
def emptyLines (t : TermState) : List Line := t.screen.drop (t.findLastNonemptyLine t.screen + 1).toNat

/-- The erase is of a whole number of lines from the top of the screen. -/
def WholeLines (t : TermState) (lineOnly fromBegin toEnd : Bool) : Prop :=
  (t.eraseRegion lineOnly fromBegin toEnd).1 = ⟨0, 0⟩ ∧ (t.eraseRegion lineOnly fromBegin toEnd).2.1.x = 0

section Both

variable {t : TermState}

theorem lastNonempty_spec (e : Blank) (s : List Line) : ∀ i ≤ s.length, -1 ≤ lastNonempty e s i ∧ lastNonempty e s i < i ∧
    ∀ j l, lastNonempty e s i < (j : Nat) → j < i → s[j]? = some l → l.cells.all (termcharsEqual · e.cell) = true := by
  intro i
  induction i with
  | zero => exact fun _ => ⟨by simp [lastNonempty], by simp [lastNonempty], fun _ _ _ h => by omega⟩
  | succ i ih =>
    intro hi
    obtain ⟨h₁, h₂, h₃⟩ := ih (by omega)
    obtain ⟨l, hl⟩ : ∃ l, s[i]? = some l := ⟨_, List.getElem?_eq_getElem hi⟩
    by_cases he : l.cells.all (termcharsEqual · e.cell) = true
    · have hr : lastNonempty e s (i + 1) = lastNonempty e s i := by simp only [lastNonempty, hl, if_pos he]
      rw [hr]
      refine ⟨h₁, by omega, fun j l' hj hji hl' => ?_⟩
      rcases Nat.lt_succ_iff_lt_or_eq.mp hji with hlt | rfl
      · exact h₃ j l' hj hlt hl'
      · rw [hl] at hl'
        cases hl'
        exact he
    · have hr : lastNonempty e s (i + 1) = i := by simp only [lastNonempty, hl, if_neg he]
      rw [hr]
      exact ⟨by omega, by omega, fun j l' hj hji _ => by omega⟩

theorem emptyLines_empty {l : Line} (hl : l ∈ t.emptyLines) : ∀ c ∈ l.cells, termcharsEqual c t.eraseChar.cell = true := by
  obtain ⟨h₁, h₂, h₃⟩ := lastNonempty_spec t.eraseChar t.screen t.screen.length (Nat.le_refl _)
  obtain ⟨k, hk⟩ := List.mem_iff_getElem?.mp hl
  simp only [emptyLines, findLastNonemptyLine, List.getElem?_drop] at hk
  have hlt := (List.getElem?_eq_some_iff.mp hk).1
  exact List.all_eq_true.mp (h₃ _ _ (by omega) (by omega) hk)

theorem look_cells_length (l : Line) : (t.look l).cells.length = t.cols := by
  by_cases hw : l.cols < t.cols
  · simp [look, widen, if_pos hw]
  · have hle : t.cols ≤ l.cells.length := Nat.le_of_not_lt hw
    simp [look, widen, if_neg hw, hle]

theorem cell_eq_of_equal {c e : Cell} (h : termcharsEqual c e = true) (ha : c.attr = e.attr) : c = e := by
  simp only [termcharsEqual, Bool.and_eq_true, beq_iff_eq] at h
  obtain ⟨⟨⟨h₁, h₂⟩, -⟩, h₄⟩ := h
  cases c
  cases e
  simp_all

/-- An empty line looks like an erased one exactly if it is plain. -/
theorem look_eq_blankLine_iff {l : Line} (hl : ∀ c ∈ l.cells, termcharsEqual c t.eraseChar.cell = true) :
    t.look l = t.blankLine ↔ t.Plain l := by
  have hcells : (t.look l).cells = List.replicate t.cols t.eraseChar.cell ↔ ∀ c ∈ (t.look l).cells, c = t.eraseChar.cell := by
    rw [List.eq_replicate_iff, look_cells_length]
    exact and_iff_right rfl
  have hkept : (∀ c ∈ l.cells.take t.cols, c = t.eraseChar.cell) ↔ ∀ c ∈ l.cells.take t.cols, c.attr = t.eraseChar.cell.attr := by
    constructor
    · exact fun h c hc => congrArg Cell.attr (h c hc)
    · exact fun h c hc => cell_eq_of_equal (hl c (List.mem_of_mem_take hc)) (h c hc)
  have hall : (∀ c ∈ (t.look l).cells, c = t.eraseChar.cell) ↔
      (t.cols ≤ l.cols ∨ t.eraseChar.cell = t.basicEraseChar.cell) ∧ ∀ c ∈ l.cells.take t.cols, c.attr = t.eraseChar.cell.attr := by
    rw [← hkept]
    by_cases hw : l.cols < t.cols
    · have hlook : (t.look l).cells = l.cells.take t.cols ++ List.replicate (t.cols - l.cols) t.basicEraseChar.cell := by
        have hlen := length_resize t.basicEraseChar t.cols l
        rw [look, widen, if_pos hw, List.take_of_length_le (Nat.le_of_eq hlen)]
        rfl
      have hne : t.cols - l.cols ≠ 0 := by omega
      rw [hlook]
      simp only [List.mem_append, List.mem_replicate]
      constructor
      · intro h
        exact ⟨.inr (h _ (.inr ⟨hne, rfl⟩)).symm, fun c hc => h c (.inl hc)⟩
      · rintro ⟨hb, h⟩ c (hc | ⟨-, rfl⟩)
        · exact h c hc
        · exact (hb.resolve_left (by omega)).symm
    · have hlook : (t.look l).cells = l.cells.take t.cols := by simp only [look, widen, if_neg hw]
      rw [hlook]
      exact ⟨fun h => ⟨.inl (by omega), h⟩, fun h => h.2⟩
  have hl' : (t.look l).lattr = l.lattr ∧ (t.look l).trusted = l.trusted := by
    unfold look widen
    split <;> exact ⟨rfl, rfl⟩
  constructor
  · intro h
    have h₁ : l.lattr = LATTR_NORM := hl'.1.symm.trans (congrArg Line.lattr h)
    have h₂ : l.trusted = t.trusted := hl'.2.symm.trans (congrArg Line.trusted h)
    exact ⟨h₁, h₂, hall.mp (hcells.mp (congrArg Line.cells h))⟩
  · rintro ⟨h₁, h₂, h₃⟩
    have hc := hcells.mpr (hall.mpr h₃)
    exact Line.ext hc (hl'.1.trans h₁) (hl'.2.trans h₂)

/-- What the screen shows after an erase by scrolling. -/
theorem eraseByScrolling_visible (h : t.Ok) : (t.eraseByScrolling t.rows).map visible =
    some (List.replicate (t.findLastNonemptyLine t.screen + 1).toNat t.blankLine ++ t.emptyLines.map t.look) := by
  obtain ⟨h₁, h₂, -⟩ := lastNonempty_spec t.eraseChar t.screen t.screen.length (Nat.le_refl _)
  have hrows := h.count_screen
  unfold eraseByScrolling emptyLines findLastNonemptyLine
  simp only [if_true]
  generalize lastNonempty t.eraseChar t.screen t.screen.length = r at h₁ h₂
  by_cases hr : 0 < r + 1
  · obtain ⟨n, hn⟩ : ∃ n : Nat, r + 1 = n := ⟨(r + 1).toNat, by omega⟩
    obtain ⟨t', ht, hs, hsame⟩ := scroll_screen t true (n := n) (by omega) (by omega)
    have hbot : (r + 1 - 1).toNat = n - 1 := by omega
    rw [if_pos hr, hbot, hn, ht, Option.map_some, Int.toNat_natCast, visible, hs, hsame.look]
    simp [look_blankLine]
  · rw [if_neg hr, show (r + 1).toNat = 0 by omega]
    rfl

theorem visible_after (o : Option TermState) (p : Prop) [Decidable p] :
    (o.map fun t => if p ∧ t.altWhich = 0 then { t with tempsblines := 0 } else t).map visible = o.map visible := by
  cases o with
  | none => rfl
  | some t =>
    simp only [Option.map_some]
    split <;> rfl

/-- An erase of the whole screen, with the setting and without. -/
theorem eraseLots_screen (h : t.Ok) {fromBegin toEnd : Bool} (hw : t.WholeLines false fromBegin toEnd) (b : Bool) :
    ((t.toScrollback b).eraseLots false fromBegin toEnd).map visible =
      if b then ((t.toScrollback true).eraseByScrolling t.rows).map visible
      else (t.eraseInPlace ⟨0, 0⟩ ⟨t.rows, 0⟩ true).map visible := by
  have hx := h.curs_x
  have hend : toEnd = true := by
    by_contra hne
    have hfalse : toEnd = false := by simpa using hne
    have hstop := hw.2
    subst hfalse
    simp only [eraseRegion, incpos, Bool.false_eq_true, if_false] at hstop
    rw [if_neg (by omega)] at hstop
    have : t.curs.x + 1 = 0 := hstop
    omega
  subst hend
  have hstart : (t.toScrollback b).eraseRegion false fromBegin true = (⟨0, 0⟩, ⟨t.rows, 0⟩, true) := by
    have := hw.1
    simp only [eraseRegion, Bool.false_eq_true, if_false, if_true] at this ⊢
    exact Prod.ext this rfl
  have hbound : (if !fromBegin || !true then (t.toScrollback b).checkBoundary t.curs.x t.curs.y else some (t.toScrollback b)) =
      some (t.toScrollback b) := by
    cases fromBegin with
    | true => rfl
    | false =>
      have hcurs : t.curs = ⟨0, 0⟩ := hw.1
      simp [hcurs, checkBoundary]
  unfold eraseLots
  rw [hstart]
  refine (congrArg (fun o => (Option.bind o _).map visible) hbound).trans ?_
  simp only [Option.bind_some, and_self, and_true]
  rw [visible_after]
  cases b with
  | true => rfl
  | false =>
    have hset := eraseInPlace_setting (t := t) false ⟨0, 0⟩ ⟨t.rows, 0⟩ true
    refine (congrArg (Option.map visible) hset).trans ?_
    rw [Option.map_map]
    rfl

end Both

/-! ### A blank line in double width -/

def space : Blank where
  char := { chr := CSET_ASCII ||| 0x20, attr := ATTR_DEFAULT, truecolour := { fg := none, bg := none }, ccNext := 0 }
  no_cc := rfl

/-- One line, blank, as ESC # 6 has made it. -/
def wideBlank : TermState where
  rows := 1
  cols := 1
  scrollback := []
  screen := [{ Line.new 1 space with lattr := LATTR_WIDE }]
  altScreen := [Line.new 1 space]
  altWhich := 0
  altSblines := 0
  disptop := 0
  tempsblines := 0
  savelines := 10
  curs := ⟨0, 0⟩
  savecurs := ⟨0, 0⟩
  altX := 0
  altY := 0
  altSavecurs := ⟨0, 0⟩
  margT := 0
  margB := 0
  altT := 0
  altB := 0
  wrapnext := false
  altWnext := false
  tabs := [true]
  trusted := false
  basicEraseChar := space
  eraseChar := space
  eraseToScrollback := true

theorem wideBlank_ok : wideBlank.Ok := by
  constructor <;> decide

end TermState

end Putty.Terminal
