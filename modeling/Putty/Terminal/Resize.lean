/-
  Putty.Terminal.Resize — resizing the terminal again and again (`terminal.c`, term_size, and
  the comments of term_size and lineptr).

  Lines go between the screen and the scrollback: a screen that grows takes lines back from the
  temporary scrollback, else blank lines at the bottom; a screen that shrinks deletes its bottom
  row unless the cursor is there, else its top row goes to the scrollback. What a run of resizes
  does depends on two numbers, the lines below the cursor and those in the temporary scrollback.

  Proved, for every run of resizes of a terminal on its primary screen: no assertion fails and
  tempsblines ≤ count(scrollback) ≤ savelines (`termSize_spec`). If in each step the rows deleted
  are blank, the rows pushed find room in the scrollback, and the step does not turn back while
  there are both lines below the cursor and lines in the temporary scrollback, then the lines of
  scrollback and screen are those after one resize to the last size, and each step takes away
  blank rows first and then pushes rows (`resizing_path_independent`).

  Without: rows with text below the cursor are deleted while there are rows above it that could
  go to the scrollback (`text_below_the_cursor_is_lost`).
-/

import Mathlib.Data.List.DropRight
import Putty.Terminal.Erase

namespace Putty.Terminal

/-! ## What a line holds at every width -/

/-- A line without its blank end. -/
def Line.trim (basic : Blank) (l : Line) : Line := { l with cells := l.cells.rdropWhile fun c => decide (c = basic.cell) }

/-- A line with nothing in it. -/
def Line.empty : Line where
  cells := []
  lattr := LATTR_NORM
  trusted := false

theorem rdropWhile_replicate (b : Cell) (xs : List Cell) (n : Nat) :
    (xs ++ List.replicate n b).rdropWhile (fun c => decide (c = b)) = xs.rdropWhile fun c => decide (c = b) := by
  induction n with
  | zero => simp
  | succ n ih => rw [List.replicate_succ', ← List.append_assoc, List.rdropWhile_concat_pos _ _ _ (by simp), ih]

@[simp] theorem trim_new (basic : Blank) (cols : Nat) : (Line.new cols basic).trim basic = Line.empty := by
  have := rdropWhile_replicate basic.cell [] cols
  rw [List.nil_append, List.rdropWhile_nil] at this
  simp only [Line.trim, Line.new, this]
  rfl

theorem trim_resize (basic : Blank) {n : Nat} {l : Line} (h : l.cols ≤ n) : (l.resize basic n).trim basic = l.trim basic := by
  simp only [Line.trim, Line.resize]
  rw [List.take_of_length_le h, rdropWhile_replicate]

namespace TermState

/-- The lines of the scrollback and the screen, each without its blank end. -/
def contents (t : TermState) : List Line := (t.scrollback ++ t.screen).map (Line.trim t.basicEraseChar)

/-- The rows below the cursor. -/
def below (t : TermState) : Nat := t.rows - 1 - t.curs.y.toNat

theorem trim_widen (t : TermState) (l : Line) : (t.widen l).trim t.basicEraseChar = l.trim t.basicEraseChar := by
  unfold widen
  split
  · exact trim_resize _ (Nat.le_of_lt ‹_›)
  · rfl

/-! ## The loops -/

/-- All lines, of the scrollback and the screen. -/
def lines (t : TermState) : List Line := t.scrollback ++ t.screen

/-- What the loops of term_size leave alone. -/
structure Kept (t t' : TermState) : Prop where
  cols : t'.cols = t.cols
  savelines : t'.savelines = t.savelines
  basic : t'.basicEraseChar = t.basicEraseChar
  altWhich : t'.altWhich = t.altWhich
  curs_x : t'.curs.x = t.curs.x

theorem Kept.refl (t : TermState) : t.Kept t := ⟨rfl, rfl, rfl, rfl, rfl⟩

theorem Kept.trans {t t' t'' : TermState} (h : t.Kept t') (h' : t'.Kept t'') : t.Kept t'' :=
  ⟨h'.cols.trans h.cols, h'.savelines.trans h.savelines, h'.basic.trans h.basic, h'.altWhich.trans h.altWhich,
    h'.curs_x.trans h.curs_x⟩

/-- `p` lines have come from the scrollback and `a` new ones have been added at the bottom. -/
structure Grown (newcols p a : Nat) (t t' : TermState) : Prop where
  kept : t.Kept t'
  lines : t'.lines = t.lines ++ List.replicate a (Line.new newcols t.basicEraseChar)
  scrollback : t'.scrollback.length + p = t.scrollback.length
  temp : t'.tempsblines + p = t.tempsblines
  rows : t'.rows = t.rows + (p + a)
  curs_y : t'.curs.y = t.curs.y + p

/-- `d` rows have been deleted at the bottom and `q` have gone to the scrollback. -/
structure Shrunk (d q : Nat) (t t' : TermState) : Prop where
  kept : t.Kept t'
  lines : t'.lines = t.lines.take (t.lines.length - d)
  scrollback : t'.scrollback.length = t.scrollback.length + q
  temp : t'.tempsblines = t.tempsblines + q
  rows : t'.rows + (d + q) = t.rows
  curs_y : t'.curs.y = t.curs.y - q

theorem Grown.trans {newcols p a p' a' : Nat} {t t' t'' : TermState} (h : Grown newcols p a t t') (h' : Grown newcols p' a' t' t'') :
    Grown newcols (p + p') (a + a') t t'' := by
  have hr := h.rows
  have hr' := h'.rows
  have hy := h.curs_y
  have hy' := h'.curs_y
  refine ⟨h.kept.trans h'.kept, ?_, ?_, ?_, ?_, ?_⟩
  · rw [h'.lines, h.lines, h.kept.basic, List.append_assoc, ← List.replicate_add]
  · rw [← h.scrollback, ← h'.scrollback, Nat.add_assoc, Nat.add_comm p]
  · rw [← h.temp, ← h'.temp, Nat.add_assoc, Nat.add_comm p]
  · omega
  · omega

theorem Shrunk.trans {d q d' q' : Nat} {t t' t'' : TermState} (h : Shrunk d q t t') (h' : Shrunk d' q' t' t'') :
    Shrunk (d + d') (q + q') t t'' := by
  have hr := h.rows
  have hr' := h'.rows
  have hy := h.curs_y
  have hy' := h'.curs_y
  refine ⟨h.kept.trans h'.kept, ?_, ?_, ?_, ?_, ?_⟩
  · rw [h'.lines, h.lines, List.take_take, List.length_take, Nat.min_eq_left (Nat.sub_le _ _), Nat.sub_sub,
      Nat.min_eq_left (Nat.sub_le_sub_left (Nat.le_add_right d d') _)]
  · rw [h'.scrollback, h.scrollback, Nat.add_assoc]
  · rw [h'.temp, h.temp, Nat.add_assoc]
  · omega
  · omega

theorem Grown.count {newcols p a : Nat} {t t' : TermState} (h : Grown newcols p a t t') (hc : t.screen.length = t.rows) :
    t'.screen.length = t'.rows := by
  have hl := congrArg List.length h.lines
  have hs := h.scrollback
  have hr := h.rows
  simp only [TermState.lines, List.length_append, List.length_replicate] at hl
  omega

theorem Grown.on_screen {newcols p a : Nat} {t t' : TermState} (h : Grown newcols p a t t') (hy : 0 ≤ t.curs.y ∧ t.curs.y < t.rows) :
    0 ≤ t'.curs.y ∧ t'.curs.y < t'.rows := by
  rw [h.curs_y, h.rows]
  omega

/-! A number made up of as many ones as there are, then of the others. -/

theorem min_and_rest (m k : Nat) : min m 1 + min (m - 1) k = min m (k + 1) := by omega

theorem rest_and_rest (m k : Nat) : 1 - m + (k - (m - 1)) = k + 1 - m := by omega

theorem temp_after_one {m n : Nat} (h : n + min m 1 = m) : n = m - 1 := by omega

theorem expandRow_spec (newcols : Nat) (t : TermState) (ht : t.tempsblines ≤ t.scrollback.length) :
    ∃ t', expandRow newcols (t, t.scrollback.length) = some (t', t'.scrollback.length) ∧
      Grown newcols (min t.tempsblines 1) (1 - t.tempsblines) t t' := by
  by_cases h0 : 0 < t.tempsblines
  · obtain ⟨init, line, hs⟩ : ∃ init line, t.scrollback = init ++ [line] :=
      ⟨_, _, (List.dropLast_append_getLast (List.ne_nil_of_length_pos (by omega))).symm⟩
    have hlen : t.scrollback.length = init.length + 1 := by simp [hs]
    have hget : t.scrollback[t.scrollback.length - 1]? = some line := by simp [hs]
    have herase : t.scrollback.eraseIdx (t.scrollback.length - 1) = init := by
      rw [List.eraseIdx_eq_take_drop_succ, List.drop_of_length_le (by omega), hs]
      simp
    have hp : min t.tempsblines 1 = 1 := by omega
    have ha : 1 - t.tempsblines = 0 := by omega
    let t' : TermState := { t with
      scrollback := init
      tempsblines := t.tempsblines - 1
      screen := line :: t.screen
      rows := t.rows + 1 }
    refine ⟨t'.shiftCursors 1, ?_, ?_⟩
    · unfold expandRow
      simp only [if_pos h0, if_neg (Nat.not_lt.mpr ht), hget, herase]
      simp [t', shiftCursors, hlen]
    · rw [hp, ha]
      refine ⟨⟨rfl, rfl, rfl, rfl, rfl⟩, ?_, ?_, ?_, rfl, rfl⟩
      · simp [TermState.lines, shiftCursors, t', hs]
      · simp [shiftCursors, t', hlen]
      · have : t.tempsblines - 1 + 1 = t.tempsblines := by omega
        exact this
  · have hp : min t.tempsblines 1 = 0 := by omega
    have ha : 1 - t.tempsblines = 1 := by omega
    refine ⟨{ t with screen := t.screen ++ [Line.new newcols t.basicEraseChar], rows := t.rows + 1 }, ?_, ?_⟩
    · simp only [expandRow, if_neg h0]
    · rw [hp, ha]
      refine ⟨⟨rfl, rfl, rfl, rfl, rfl⟩, ?_, rfl, rfl, rfl, by simp⟩
      simp [TermState.lines]

theorem expand_times (newcols k : Nat) : ∀ t : TermState, t.tempsblines ≤ t.scrollback.length →
    ∃ t', times (expandRow newcols) k (t, t.scrollback.length) = some (t', t'.scrollback.length) ∧
      Grown newcols (min t.tempsblines k) (k - t.tempsblines) t t' := by
  induction k with
  | zero => exact fun t _ => ⟨t, rfl, .refl t, by simp, by simp, by simp, by simp, by simp⟩
  | succ k ih =>
    intro t ht
    obtain ⟨t₁, hr₁, h₁⟩ := expandRow_spec newcols t ht
    have htemp₁ := temp_after_one h₁.temp
    have hle : t₁.tempsblines ≤ t₁.scrollback.length := by
      have := h₁.scrollback
      rw [htemp₁]
      clear * - this ht
      omega
    obtain ⟨t₂, hr₂, h₂⟩ := ih t₁ hle
    refine ⟨t₂, by simp only [times, hr₁, Option.bind_some, hr₂], ?_⟩
    have hboth := h₁.trans h₂
    rwa [htemp₁, min_and_rest, rest_and_rest] at hboth

theorem shrinkRow_spec (t : TermState) (hc : t.screen.length = t.rows) (hy : 0 ≤ t.curs.y) (hyr : t.curs.y < t.rows)
    (hr : 1 < t.rows) : ∃ t', shrinkRow (t, t.scrollback.length) = some (t', t'.scrollback.length) ∧
      t'.screen.length + 1 = t.screen.length ∧ Shrunk (min t.below 1) (1 - t.below) t t' := by
  by_cases h0 : t.curs.y < (t.rows : Int) - 1
  · obtain ⟨init, line, hs⟩ : ∃ init line, t.screen = init ++ [line] :=
      ⟨_, _, (List.dropLast_append_getLast (List.ne_nil_of_length_pos (by omega))).symm⟩
    have hlen : t.rows = init.length + 1 := by simp [← hc, hs]
    have hget : t.screen[t.rows - 1]? = some line := by simp [hs, hlen]
    have herase : t.screen.eraseIdx (t.rows - 1) = init := by
      rw [List.eraseIdx_eq_take_drop_succ, List.drop_of_length_le (by omega), hs, hlen]
      simp
    have hp : min t.below 1 = 1 := by unfold below; omega
    have ha : 1 - t.below = 0 := by unfold below; omega
    refine ⟨{ t with screen := init, rows := t.rows - 1 }, ?_, by simp [hs], ?_⟩
    · simp only [shrinkRow, if_pos h0, hget, herase]
    · rw [hp, ha]
      refine ⟨⟨rfl, rfl, rfl, rfl, rfl⟩, ?_, rfl, rfl, by simp only []; omega, by simp⟩
      have htake : (t.scrollback ++ (init ++ [line])).length - 1 = (t.scrollback ++ init).length := by
        simp only [List.length_append, List.length_singleton]
        omega
      simp only [TermState.lines, hs]
      rw [htake, ← List.append_assoc, List.take_left]
  · obtain ⟨line, rest, hs⟩ : ∃ line rest, t.screen = line :: rest := by
      cases h : t.screen with
      | nil => rw [h] at hc; simp at hc; omega
      | cons line rest => exact ⟨line, rest, rfl⟩
    have hp : min t.below 1 = 0 := by unfold below; omega
    have ha : 1 - t.below = 1 := by unfold below; omega
    let t' : TermState := { t with
      screen := rest
      scrollback := t.scrollback ++ [line]
      tempsblines := t.tempsblines + 1
      rows := t.rows - 1 }
    refine ⟨t'.shiftCursors (-1), ?_, by simp [t', shiftCursors, hs], ?_⟩
    · simp only [shrinkRow, if_neg h0, hs, List.insertIdx_length_self]
      simp [t', shiftCursors]
    · rw [hp, ha]
      refine ⟨⟨rfl, rfl, rfl, rfl, rfl⟩, ?_, ?_, rfl, ?_, ?_⟩
      · have hl : (t'.shiftCursors (-1)).lines = t.lines := by simp [TermState.lines, shiftCursors, t', hs]
        rw [hl, Nat.sub_zero, List.take_length]
      · simp [shiftCursors, t']
      · have : t.rows - 1 + (0 + 1) = t.rows := by omega
        exact this
      · rfl

theorem rest_of_one (m : Nat) : 1 - m + min m 1 = 1 := by omega

theorem below_after_one {t t' : TermState} (hy : 0 ≤ t.curs.y) (hyr : t.curs.y < t.rows) (hr : 1 < t.rows) (hrows : t'.rows + 1 = t.rows)
    (hcurs : t'.curs.y = t.curs.y - (1 - t.below : Nat)) :
    0 ≤ t'.curs.y ∧ t'.curs.y < t'.rows ∧ t'.below = t.below - 1 := by
  unfold below at *
  rw [hcurs]
  generalize t.curs.y = y, t.rows = n at *
  omega

theorem shrink_times (k : Nat) : ∀ t : TermState, t.screen.length = t.rows → 0 ≤ t.curs.y → t.curs.y < t.rows → k < t.rows →
    ∃ t', times shrinkRow k (t, t.scrollback.length) = some (t', t'.scrollback.length) ∧ t'.screen.length = t'.rows ∧
      0 ≤ t'.curs.y ∧ t'.curs.y < t'.rows ∧ Shrunk (min t.below k) (k - t.below) t t' := by
  induction k with
  | zero => exact fun t hc hy hyr _ => ⟨t, rfl, hc, hy, hyr, .refl t, by simp, by simp, by simp, by simp, by simp⟩
  | succ k ih =>
    intro t hc hy hyr hk
    obtain ⟨t₁, hr₁, hlen, h₁⟩ := shrinkRow_spec t hc hy hyr (Nat.lt_of_le_of_lt (Nat.le_add_left 1 k) hk)
    have hrows : t₁.rows + 1 = t.rows := by
      have := h₁.rows
      rwa [Nat.add_comm (min _ _), rest_of_one] at this
    have hlen₁ : t₁.screen.length = t₁.rows := by
      clear * - hlen hrows hc
      omega
    obtain ⟨hy₁, hyr₁, hbelow⟩ := below_after_one hy hyr (Nat.lt_of_le_of_lt (Nat.le_add_left 1 k) hk) hrows h₁.curs_y
    obtain ⟨t₂, hr₂, hc₂, hy₂, hyr₂, h₂⟩ := ih t₁ hlen₁ hy₁ hyr₁ (Nat.lt_of_succ_lt_succ (by rwa [← hrows] at hk))
    refine ⟨t₂, by simp only [times, hr₁, Option.bind_some, hr₂], hc₂, hy₂, hyr₂, ?_⟩
    have hboth := h₁.trans h₂
    rwa [hbelow, min_and_rest, rest_and_rest] at hboth

/-! ## One resize -/

/-- How many lines a resize to `r` rows takes back from the scrollback, adds at the bottom, deletes at
    the bottom, pushes to the scrollback, and drops from the scrollback's far end. -/
def pulled (t : TermState) (r : Nat) : Nat := min t.tempsblines (r - t.rows)
def added (t : TermState) (r : Nat) : Nat := r - t.rows - t.tempsblines
def deleted (t : TermState) (r : Nat) : Nat := min t.below (t.rows - r)
def pushed (t : TermState) (r : Nat) : Nat := t.rows - r - t.below
def dropped (t : TermState) (r : Nat) : Nat := t.scrollback.length + t.pushed r - t.pulled r - t.savelines

theorem pulled_add_added (t : TermState) (r : Nat) : t.pulled r + t.added r = r - t.rows := by
  unfold pulled added
  omega

theorem deleted_add_pushed (t : TermState) (r : Nat) : t.deleted r + t.pushed r = t.rows - r := by
  unfold deleted pushed
  omega

structure Resized (r : Nat) (t t' : TermState) : Prop where
  ok : t'.Ok
  altWhich : t'.altWhich = 0
  savelines : t'.savelines = t.savelines
  basic : t'.basicEraseChar = t.basicEraseChar
  rows : t'.rows = r
  contents : t'.contents =
    ((t.contents ++ List.replicate (t.added r) Line.empty).take (t.contents.length + t.added r - t.deleted r)).drop (t.dropped r)
  scrollback : t'.scrollback.length + t.pulled r + t.dropped r = t.scrollback.length + t.pushed r
  temp : t'.tempsblines = min (t.tempsblines - t.pulled r + t.pushed r) t'.scrollback.length
  below : t'.below = t.below + t.added r - t.deleted r

theorem contents_eq_lines (t : TermState) : t.contents = t.lines.map (Line.trim t.basicEraseChar) := rfl

theorem length_contents (t : TermState) : t.contents.length = t.scrollback.length + t.screen.length := by
  rw [contents_eq_lines, List.length_map, lines, List.length_append]

theorem contents_paint (t : TermState) : t.paint.contents = t.contents := by
  have : (t.screen.map t.widen).map (Line.trim t.basicEraseChar) = t.screen.map (Line.trim t.basicEraseChar) := by
    rw [List.map_map]
    exact List.map_congr_left fun l _ => trim_widen t l
  simp only [contents, paint, List.map_append, this]

theorem Ok.paint {t : TermState} (h : t.Ok) : t.paint.Ok :=
  ⟨h.rows_pos, h.cols_pos, (List.length_map _).trans h.count_screen, h.curs_y, h.curs_x, h.temp_le, h.scrollback_le⟩

theorem clampPos_on {r c : Nat} {p : Pos} (hy : 0 ≤ p.y ∧ p.y < r) (hc : 0 < c) (hx : 0 ≤ p.x) :
    (clampPos r c p).y = p.y ∧ 0 ≤ (clampPos r c p).x ∧ (clampPos r c p).x < c := by
  unfold clampPos
  simp only [if_neg (Int.not_lt.mpr hy.1), if_neg (Int.not_le.mpr hy.2), true_and]
  split <;> omega

theorem below_moved {n r y y' p a d q : Nat} (hy : y < n) (hg : p + a = r - n) (hs : d + q = n - r) (hd : d ≤ n - 1 - y)
    (hm : y' + q = y + p) : r - 1 - y' = n - 1 - y + a - d := by
  rcases Nat.le_total n r with h | h
  · rw [Nat.sub_eq_zero_of_le h] at hs
    omega
  · rw [Nat.sub_eq_zero_of_le h] at hg
    omega

/-- The two loops of term_size, one after the other, make `r` rows of the screen. -/
theorem loops_spec (t : TermState) (h : t.Ok) {r : Nat} (hr : 0 < r) (c : Nat) : ∃ t₂ t₃,
    times (expandRow c) (r - t.rows) (t, t.scrollback.length) = some (t₂, t₂.scrollback.length) ∧
    times shrinkRow (t₂.rows - r) (t₂, t₂.scrollback.length) = some (t₃, t₃.scrollback.length) ∧
    t.Kept t₃ ∧ t₃.rows = r ∧ t₃.screen.length = r ∧ 0 ≤ t₃.curs.y ∧ t₃.curs.y < r ∧
    t₃.lines = (t.lines ++ List.replicate (t.added r) (Line.new c t.basicEraseChar)).take (t.lines.length + t.added r - t.deleted r) ∧
    t₃.scrollback.length + t.pulled r = t.scrollback.length + t.pushed r ∧
    t₃.tempsblines = t.tempsblines - t.pulled r + t.pushed r ∧ t₃.below = t.below + t.added r - t.deleted r := by
  have hrows := h.rows_pos
  have hcount := h.count_screen
  have hcurs := h.curs_y
  obtain ⟨t₂, hr₂, h₂⟩ := expand_times c (r - t.rows) t h.temp_le
  have hlen₂ := h₂.count hcount
  have hy₂ := h₂.on_screen hcurs
  have hk : t₂.rows - r = t.rows - r := by
    have hrows₂ := h₂.rows
    have hnew := pulled_add_added t r
    unfold pulled added at hnew
    rw [hnew] at hrows₂
    clear * - hrows₂
    omega
  obtain ⟨t₃, hr₃, hlen₃, hy₃, hyr₃, h₃⟩ := shrink_times (t₂.rows - r) t₂ hlen₂ hy₂.1 hy₂.2
    (Nat.sub_lt (Nat.zero_lt_of_lt (Int.ofNat_lt.mp (Int.lt_of_le_of_lt hy₂.1 hy₂.2))) hr)
  -- if rows are to go, the first loop has done nothing
  have hsame : t.rows ≤ r ∨ t₂.below = t.below := by
    rcases Nat.le_total t.rows r with hle | hle
    · exact .inl hle
    · right
      have hrows₂ := h₂.rows
      have hcurs₂ := h₂.curs_y
      unfold below
      have hz : r - t.rows = 0 := Nat.sub_eq_zero_of_le hle
      simp only [hz, Nat.min_zero, Nat.zero_sub, Nat.add_zero, Int.natCast_zero, Int.add_zero] at hrows₂ hcurs₂
      rw [hrows₂, hcurs₂]
  have hdel : min t₂.below (t₂.rows - r) = t.deleted r := by
    rw [hk, deleted]
    rcases hsame with hle | he
    · rw [Nat.sub_eq_zero_of_le hle, Nat.min_zero, Nat.min_zero]
    · rw [he]
  have hpush : t₂.rows - r - t₂.below = t.pushed r := by
    rw [hk, pushed]
    rcases hsame with hle | he
    · rw [Nat.sub_eq_zero_of_le hle, Nat.zero_sub, Nat.zero_sub]
    · rw [he]
  rw [hdel, hpush] at h₃
  have hadd : r - t.rows - t.tempsblines = t.added r := rfl
  have hpull : min t.tempsblines (r - t.rows) = t.pulled r := rfl
  rw [hadd, hpull] at h₂
  have e₁ := pulled_add_added t r
  have e₂ := deleted_add_pushed t r
  have hrows₃ : t₃.rows = r := by
    have e₃ := h₂.rows
    have e₄ := h₃.rows
    clear * - e₁ e₂ e₃ e₄
    omega
  refine ⟨t₂, t₃, hr₂, hr₃, h₂.kept.trans h₃.kept, hrows₃, hlen₃.trans hrows₃, hy₃, hrows₃ ▸ hyr₃, ?_, ?_, ?_, ?_⟩
  · rw [h₃.lines, h₂.lines, List.length_append, List.length_replicate]
  · rw [h₃.scrollback, ← h₂.scrollback, Nat.add_right_comm]
  · rw [h₃.temp, ← h₂.temp, Nat.add_sub_cancel]
  · have e₅ : t.deleted r ≤ t.rows - 1 - t.curs.y.toNat := Nat.min_le_left _ _
    have hy : t₃.curs.y.toNat + t.pushed r = t.curs.y.toNat + t.pulled r := by
      have e₃ := h₂.curs_y
      have e₄ := h₃.curs_y
      clear * - e₃ e₄ hcurs hy₃
      omega
    have hlt : t.curs.y.toNat < t.rows := by
      clear * - hcurs
      omega
    rw [below, below, hrows₃]
    exact below_moved hlt e₁ e₂ e₅ hy

/-- A resize does what the counts say, and no assertion fails. -/
theorem termSize_spec (t : TermState) (h : t.Ok) (hp : t.altWhich = 0) (draws : Bool) (rows cols : Int) :
    ∃ t', t.termSize draws rows cols t.savelines = some t' ∧ Resized (max rows 1).toNat t t' := by
  have hrows := h.rows_pos
  have hcount := h.count_screen
  have htemp := h.temp_le
  have hsb := h.scrollback_le
  generalize hr : (max rows 1).toNat = r
  generalize hc : (max cols 1).toNat = c
  have hr0 : 0 < r := by omega
  have hc0 : 0 < c := by omega
  unfold termSize
  by_cases hsame : rows = t.rows ∧ cols = t.cols ∧ t.savelines = t.savelines
  · rw [if_pos hsame]
    have hrr : r = t.rows := by omega
    subst hrr
    have hadd : t.added t.rows = 0 := by unfold added; omega
    have hdel : t.deleted t.rows = 0 := by unfold deleted; omega
    have hpull : t.pulled t.rows = 0 := by unfold pulled; omega
    have hpush : t.pushed t.rows = 0 := by unfold pushed; omega
    have hdrop : t.dropped t.rows = 0 := by unfold dropped; omega
    refine ⟨t, rfl, h, hp, rfl, rfl, rfl, ?_, ?_, ?_, ?_⟩
    · rw [hadd, hdel, hdrop]
      simp
    · omega
    · omega
    · omega
  · rw [if_neg hsame]
    let t₁ : TermState := { t with altT := 0, margT := 0, altB := (r : Int) - 1, margB := (r : Int) - 1 }
    have hswap : t.swapScreen 0 false false = some t := by
      unfold swapScreen
      simp [hp]
    obtain ⟨t₂, t₃, hr₂, hr₃, hkept, hrows₃, hlen₃, hy₃, hyr₃, hlines, hsb₃, htemp₃, hbelow₃⟩ :=
      loops_spec t₁ ⟨h.1, h.2, h.3, h.4, h.5, h.6, h.7⟩ hr0 c
    have hcurs := clampPos_on (p := t₃.curs) ⟨hy₃, hyr₃⟩ hc0 (by rw [hkept.curs_x]; exact h.curs_x.1)
    have hdrop : t₃.scrollback.length - t.savelines = t.dropped r := by
      have e : t₃.scrollback.length + t.pulled r = t.scrollback.length + t.pushed r := hsb₃
      unfold dropped
      omega
    let t₄ := t₃.trimScrollback t₃.scrollback.length t.savelines
    have h₄ : t₄.scrollback = t₃.scrollback.drop (t.dropped r) ∧ t₄.screen = t₃.screen ∧ t₄.basicEraseChar = t₃.basicEraseChar ∧
        t₄.altWhich = t₃.altWhich ∧ t₄.curs = t₃.curs ∧ t₄.tempsblines = min t₃.tempsblines t₄.scrollback.length := by
      have hlen : t₄.scrollback.length = min t₃.scrollback.length t.savelines := by
        simp only [t₄, trimScrollback]
        split <;> simp <;> omega
      refine ⟨?_, ?_, ?_, ?_, ?_, ?_⟩
      · rw [← hdrop]; simp only [t₄, trimScrollback]; split <;> rfl
      · simp only [t₄, trimScrollback]; split <;> rfl
      · simp only [t₄, trimScrollback]; split <;> rfl
      · simp only [t₄, trimScrollback]; split <;> rfl
      · simp only [t₄, trimScrollback]; split <;> rfl
      · rw [hlen]
        simp only [t₄, trimScrollback]
        split
        · simp only []; omega
        · simp only []; omega
    obtain ⟨hsb₄, hscreen₄, hbasic₄, halt₄, hcurs₄, htemp₄⟩ := h₄
    have hlen₄ : t₄.scrollback.length + t.dropped r = t₃.scrollback.length := by
      rw [hsb₄, List.length_drop, ← hdrop]
      omega
    let t₅ := t₄.settle r c t.savelines
    have halt₅ : t₅.altWhich = 0 := by
      have : t₅.altWhich = t₄.altWhich := rfl
      rw [this, halt₄, hkept.altWhich]
      exact hp
    have hswap₅ : t₅.swapScreen t.altWhich false false = some t₅ := by
      unfold swapScreen
      simp [hp, halt₅]
    have hok : t₅.Ok := by
      refine ⟨hr0, hc0, ?_, ?_, ?_, ?_, ?_⟩
      · exact (congrArg List.length hscreen₄).trans hlen₃
      · have : t₅.curs = clampPos r c t₃.curs := by simp only [t₅, settle, hcurs₄]
        rw [this, hcurs.1]
        exact ⟨hy₃, hyr₃⟩
      · have : t₅.curs = clampPos r c t₃.curs := by simp only [t₅, settle, hcurs₄]
        rw [this]
        exact hcurs.2
      · show t₄.tempsblines ≤ t₄.scrollback.length
        omega
      · show t₄.scrollback.length ≤ t.savelines
        omega
    have hcontents : t₅.contents =
        ((t.contents ++ List.replicate (t.added r) Line.empty).take (t.contents.length + t.added r - t.deleted r)).drop (t.dropped r) := by
      have hbasic₅ : t₅.basicEraseChar = t.basicEraseChar := hbasic₄.trans hkept.basic
      have hlines₅ : t₅.lines = t₃.lines.drop (t.dropped r) := by
        have : t₅.lines = t₄.scrollback ++ t₄.screen := rfl
        rw [this, hsb₄, hscreen₄, TermState.lines, List.drop_append_of_le_length (by omega)]
      rw [contents_eq_lines, contents_eq_lines, hbasic₅, hlines₅, hlines]
      have hlines₁ : t₁.lines = t.lines := rfl
      have hcounts : t₁.added r = t.added r ∧ t₁.deleted r = t.deleted r ∧ t₁.basicEraseChar = t.basicEraseChar := ⟨rfl, rfl, rfl⟩
      rw [hlines₁, hcounts.1, hcounts.2.1, hcounts.2.2, List.map_drop, List.map_take, List.map_append, List.map_replicate,
        trim_new, List.length_map]
    have hfinal : Resized r t t₅ := by
      refine ⟨hok, halt₅, rfl, hbasic₄.trans hkept.basic, rfl, hcontents, ?_, ?_, ?_⟩
      · have e : t₃.scrollback.length + t.pulled r = t.scrollback.length + t.pushed r := hsb₃
        have : t₅.scrollback.length = t₄.scrollback.length := rfl
        omega
      · have e : t₃.tempsblines = t.tempsblines - t.pulled r + t.pushed r := htemp₃
        have : t₅.tempsblines = min t₃.tempsblines t₅.scrollback.length := htemp₄
        rw [this, e]
      · have e : t₃.below = t.below + t.added r - t.deleted r := hbelow₃
        have : t₅.below = t₃.below := by
          simp only [below, t₅, settle, hcurs₄, hcurs.1, hrows₃]
        rw [this, e]
    refine ⟨if draws then t₅.paint else t₅, ?_, ?_⟩
    · simp only [hr, hc]
      have hc₁ : ¬t.rows ≠ t.screen.length := by omega
      have hc₃ : ¬(t₃.rows ≠ r ∨ t₃.screen.length ≠ r) := by omega
      have hc₄ : ¬(t.savelines < t₄.scrollback.length ∨ t₄.scrollback.length < t₄.tempsblines) := by omega
      rw [hswap, Option.bind_some, if_neg hc₁]
      refine (congrArg (fun o => Option.bind o _) hr₂).trans ?_
      rw [Option.bind_some]
      refine (congrArg (fun o => Option.bind o _) hr₃).trans ?_
      rw [Option.bind_some, if_neg hc₃]
      refine (if_neg hc₄).trans ?_
      exact congrArg (Option.map _) hswap₅
    · cases draws with
      | false => exact hfinal
      | true =>
        exact ⟨hfinal.ok.paint, hfinal.altWhich, hfinal.savelines, hfinal.basic, hfinal.rows,
          (contents_paint t₅).trans hfinal.contents, hfinal.scrollback, hfinal.temp, hfinal.below⟩

end TermState

/-! ## Two counts -/

/-- The temporary scrollback, and the rows below the cursor, when a terminal of `n` rows that had `m` and
    `b` of them is resized to `r` rows. -/
def tempAfter (m b n r : Nat) : Nat := m - (r - n) + (n - r - b)
def belowAfter (m b n r : Nat) : Nat := b - (n - r) + (r - n - m)

section Counts

variable {m b n₀ n r : Nat}

/-- Their difference depends on the last size only. -/
theorem after_diff (m b n r : Nat) : (tempAfter m b n r : Int) + r - belowAfter m b n r = m + n - b := by
  unfold tempAfter belowAfter
  rcases Nat.le_total n r with h | h
  · rw [Nat.sub_eq_zero_of_le h]; omega
  · rw [Nat.sub_eq_zero_of_le h]; omega

theorem after_zero (h : m = 0 ∨ b = 0) (n r : Nat) : tempAfter m b n r = 0 ∨ belowAfter m b n r = 0 := by
  unfold tempAfter belowAfter
  rcases Nat.le_total n r with h | h
  · rw [Nat.sub_eq_zero_of_le h]; omega
  · rw [Nat.sub_eq_zero_of_le h]; omega

theorem tempAfter_up (h : n ≤ r) : tempAfter m b n r = m - (r - n) := by
  rw [tempAfter, Nat.sub_eq_zero_of_le h, Nat.zero_sub, Nat.add_zero]

theorem tempAfter_down (h : r ≤ n) : tempAfter m b n r = m + (n - r - b) := by
  rw [tempAfter, Nat.sub_eq_zero_of_le h, Nat.sub_zero]

theorem belowAfter_down (h : r ≤ n) : belowAfter m b n r = b - (n - r) := by
  rw [belowAfter, Nat.sub_eq_zero_of_le h, Nat.zero_sub, Nat.add_zero]

theorem after_up (h : n₀ ≤ n) (h' : n ≤ r) :
    tempAfter (tempAfter m b n₀ n) (belowAfter m b n₀ n) n r = tempAfter m b n₀ r := by
  have hsum : n - n₀ + (r - n) = r - n₀ := by omega
  rw [tempAfter_up h', tempAfter_up h, tempAfter_up (h.trans h'), Nat.sub_sub, hsum]

/-- What the second step pushes is what the first one left to push. -/
theorem pushed_twice (x y b : Nat) : x - b + (y - (b - x)) = x + y - b := by omega

theorem after_down (h : n ≤ n₀) (h' : r ≤ n) :
    tempAfter (tempAfter m b n₀ n) (belowAfter m b n₀ n) n r = tempAfter m b n₀ r := by
  have hsum : n₀ - n + (n - r) = n₀ - r := by omega
  rw [tempAfter_down h', tempAfter_down h, tempAfter_down (h'.trans h), belowAfter_down h, Nat.add_assoc, pushed_twice, hsum]

theorem belowAfter_zero (h : n + b ≤ n₀) : belowAfter m b n₀ n = 0 := by
  unfold belowAfter
  omega

theorem tempAfter_zero (h : n₀ + m ≤ n) : tempAfter m b n₀ n = 0 := by
  unfold tempAfter
  omega

/-- Two resizes count as one if there was nothing of one kind at the start, if they go the same way, or if
    before the second there is nothing of one kind and it does not come back to where there was. -/
theorem after_after (h : m = 0 ∨ b = 0 ∨ (n₀ ≤ n ∧ n ≤ r) ∨ (n ≤ n₀ ∧ r ≤ n) ∨ (n + b ≤ n₀ ∧ r + b ≤ n₀) ∨
      (n₀ + m ≤ n ∧ n₀ + m ≤ r)) :
    tempAfter (tempAfter m b n₀ n) (belowAfter m b n₀ n) n r = tempAfter m b n₀ r ∧
      belowAfter (tempAfter m b n₀ n) (belowAfter m b n₀ n) n r = belowAfter m b n₀ r := by
  have d₁ := after_diff m b n₀ n
  have d₂ := after_diff m b n₀ r
  have d₃ := after_diff (tempAfter m b n₀ n) (belowAfter m b n₀ n) n r
  have hzero : tempAfter m b n₀ n = 0 ∨ belowAfter m b n₀ n = 0 → tempAfter m b n₀ r = 0 ∨ belowAfter m b n₀ r = 0 →
      tempAfter (tempAfter m b n₀ n) (belowAfter m b n₀ n) n r = tempAfter m b n₀ r := by
    intro hz hz'
    have hz'' := after_zero hz n r
    omega
  have htemp : tempAfter (tempAfter m b n₀ n) (belowAfter m b n₀ n) n r = tempAfter m b n₀ r := by
    rcases h with h | h | h | h | h | h
    · exact hzero (after_zero (.inl h) _ _) (after_zero (.inl h) _ _)
    · exact hzero (after_zero (.inr h) _ _) (after_zero (.inr h) _ _)
    · exact after_up h.1 h.2
    · exact after_down h.1 h.2
    · exact hzero (.inr (belowAfter_zero h.1)) (.inr (belowAfter_zero h.2))
    · exact hzero (.inl (tempAfter_zero h.1)) (.inl (tempAfter_zero h.2))
  exact ⟨htemp, by omega⟩

end Counts

/-! ## Runs of resizes -/

/-- A size for the terminal, and whether its window can be drawn on then. -/
structure Resize where
  rows : Int
  cols : Int
  draws : Bool
  deriving DecidableEq, Repr

/-- The number of rows that term_size makes of it. -/
def Resize.rowCount (s : Resize) : Nat := (max s.rows 1).toNat

namespace TermState

/-- term_size with the scrollback limit unchanged. -/
def resizeTo (t : TermState) (s : Resize) : Option TermState := t.termSize s.draws s.rows s.cols t.savelines

def resizes (t : TermState) (steps : List Resize) : Option TermState := steps.foldlM resizeTo t

/-- What a resize to `r` rows must find, in a run that began in `t₀`: the rows it deletes are blank; those
    it pushes have room; and if there were both rows below the cursor and lines to take back at the start,
    it goes on in the same direction, or both sizes are too small for those rows or too large for those
    lines to be left. -/
structure Keeps (t₀ t : TermState) (r : Nat) : Prop where
  blank : ∀ l ∈ t.screen.drop (max (t.curs.y.toNat + 1) r), l.trim t.basicEraseChar = Line.empty
  room : t.scrollback.length + t.pushed r ≤ t.savelines
  onward : t₀.tempsblines = 0 ∨ t₀.below = 0 ∨ (t₀.rows ≤ t.rows ∧ t.rows ≤ r) ∨ (t.rows ≤ t₀.rows ∧ r ≤ t.rows) ∨
    (t.rows + t₀.below ≤ t₀.rows ∧ r + t₀.below ≤ t₀.rows) ∨
    (t₀.rows + t₀.tempsblines ≤ t.rows ∧ t₀.rows + t₀.tempsblines ≤ r)

/-- A run on from `t`, of resizes that began in `t₀`, that keeps every line. -/
def GoodRun (t₀ : TermState) : TermState → List Resize → Prop
  | _, [] => True
  | t, s :: rest => Keeps t₀ t s.rowCount ∧ ∀ t', t.resizeTo s = some t' → GoodRun t₀ t' rest

/-- A resize to fewer rows deletes blank rows at the bottom, then pushes rows at the top to the
    scrollback, these only when no row below the cursor is left; it deletes nothing else. -/
def Sheds (t t' : TermState) : Prop := t'.rows < t.rows → ∃ d q, d + q = t.rows - t'.rows ∧
  (∀ l ∈ t.screen.drop (t.rows - d), l.trim t.basicEraseChar = Line.empty) ∧ d ≤ t.below ∧ (0 < q → d = t.below) ∧
  t'.scrollback.map (Line.trim t.basicEraseChar) = (t.scrollback ++ t.screen.take q).map (Line.trim t.basicEraseChar) ∧
  t'.screen.map (Line.trim t.basicEraseChar) = ((t.screen.take (t.rows - d)).drop q).map (Line.trim t.basicEraseChar)

/-- `t` has been reached from `t₀` without losing a line: it has the same lines, up to blank ones at the
    end, and as many as one resize would leave. -/
structure Alike (t₀ t : TermState) : Prop where
  ok : t.Ok
  altWhich : t.altWhich = 0
  savelines : t.savelines = t₀.savelines
  basic : t.basicEraseChar = t₀.basicEraseChar
  same : ∀ i, t.contents.getD i Line.empty = t₀.contents.getD i Line.empty
  scrollback : t.scrollback.length + t₀.tempsblines = t₀.scrollback.length + t.tempsblines
  temp : t.tempsblines = tempAfter t₀.tempsblines t₀.below t₀.rows t.rows
  below : t.below = belowAfter t₀.tempsblines t₀.below t₀.rows t.rows

section Runs

variable {t₀ t t' : TermState} {r : Nat}

theorem Alike.refl (h : t.Ok) (hp : t.altWhich = 0) : t.Alike t := by
  exact ⟨h, hp, rfl, rfl, fun _ => rfl, rfl, by unfold tempAfter; omega, by unfold belowAfter; omega⟩

theorem Keeps.dropped_eq (hk : Keeps t₀ t r) : t.dropped r = 0 := by
  have := hk.room
  unfold dropped
  omega

theorem below_lt (h : t.Ok) : t.below < t.rows ∧ t.rows - t.below = t.curs.y.toNat + 1 := by
  have := h.curs_y
  unfold below
  omega

theorem deleted_rows (h : t.Ok) (r : Nat) : t.rows - t.deleted r = max (t.curs.y.toNat + 1) (min r t.rows) := by
  have := below_lt h
  unfold deleted
  omega

/-- The last lines, as many as are deleted, are blank. -/
theorem Keeps.deleted_blank (hk : Keeps t₀ t r) (h : t.Ok) :
    ∀ l ∈ t.screen.drop (t.rows - t.deleted r), l.trim t.basicEraseChar = Line.empty := by
  intro l hl
  have hc := h.count_screen
  rw [deleted_rows h] at hl
  rcases Nat.le_total r t.rows with hle | hle
  · rw [Nat.min_eq_left hle] at hl
    exact hk.blank l hl
  · rw [List.drop_of_length_le (by omega)] at hl
    cases hl

theorem Resized.contents_same (h : t.Ok) (hk : Keeps t₀ t r) (hr : Resized r t t') (i : Nat) :
    t'.contents.getD i Line.empty = t.contents.getD i Line.empty := by
  have hcontents := hr.contents
  have hlen := length_contents t
  have hcount := h.count_screen
  have hdel : t.deleted r ≤ t.rows := by
    have := (below_lt h).1
    unfold deleted
    omega
  rw [hk.dropped_eq, List.drop_zero] at hcontents
  rw [hcontents, List.getD_eq_getElem?_getD, List.getD_eq_getElem?_getD]
  by_cases hi : i < t.contents.length + t.added r - t.deleted r
  · rw [List.getElem?_take_of_lt hi]
    by_cases hin : i < t.contents.length
    · rw [List.getElem?_append_left hin]
    · rw [List.getElem?_append_right (by omega), List.getElem?_eq_none (by omega : t.contents.length ≤ i), List.getElem?_replicate]
      split <;> rfl
  · rw [List.getElem?_eq_none (by rw [List.length_take]; omega)]
    by_cases hin : i < t.contents.length
    · have hpos : t.scrollback.length + (t.rows - t.deleted r) ≤ i := by omega
      have hmem : t.contents[i]? = (t.screen.map (Line.trim t.basicEraseChar))[i - t.scrollback.length]? := by
        rw [TermState.contents, List.map_append, List.getElem?_append_right (by simp; omega), List.length_map]
      rw [hmem, List.getElem?_map]
      cases hl : t.screen[i - t.scrollback.length]? with
      | none => rfl
      | some l =>
        have hd : l ∈ t.screen.drop (t.rows - t.deleted r) := by
          refine List.mem_of_getElem? (i := i - t.scrollback.length - (t.rows - t.deleted r)) ?_
          rw [List.getElem?_drop, ← hl]
          congr 1
          omega
        simp [hk.deleted_blank h l hd]
    · rw [List.getElem?_eq_none (by omega : t.contents.length ≤ i)]

/-- The counts of one resize are the two counts. -/
theorem counts_after (t : TermState) (r : Nat) :
    t.tempsblines - t.pulled r + t.pushed r = tempAfter t.tempsblines t.below t.rows r ∧
      t.below + t.added r - t.deleted r = belowAfter t.tempsblines t.below t.rows r := by
  unfold pulled pushed added deleted tempAfter belowAfter
  rcases Nat.le_total t.rows r with h | h
  · rw [Nat.sub_eq_zero_of_le h]; omega
  · rw [Nat.sub_eq_zero_of_le h]; omega

/-- One step of a good run. -/
theorem Alike.step (h : Alike t₀ t) (hk : Keeps t₀ t r) (hr : Resized r t t') : Alike t₀ t' := by
  have hdrop := hk.dropped_eq
  have hsb := hr.scrollback
  have htemp := hr.temp
  have hbelow := hr.below
  have hle := h.ok.temp_le
  have hpull : t.pulled r ≤ t.tempsblines := by unfold pulled; omega
  have hafter := after_after hk.onward
  have hcounts := counts_after t r
  rw [← h.temp, ← h.below] at hafter
  refine ⟨hr.ok, hr.altWhich, hr.savelines.trans h.savelines, hr.basic.trans h.basic, fun i => ?_, ?_, ?_, ?_⟩
  · exact (hr.contents_same h.ok hk i).trans (h.same i)
  · have := h.scrollback
    omega
  · rw [hr.rows, ← hafter.1, ← hcounts.1]
    omega
  · rw [hr.rows, ← hafter.2, ← hcounts.2]
    exact hbelow

theorem Resized.sheds (h : t.Ok) (hk : Keeps t₀ t r) (hr : Resized r t t') : Sheds t t' := by
  intro hlt
  rw [hr.rows] at hlt
  have hb := below_lt h
  have hcount := h.count_screen
  have hadd : t.added r = 0 := by unfold added; omega
  have hpull : t.pulled r = 0 := by unfold pulled; omega
  have hdrop := hk.dropped_eq
  have hsb := hr.scrollback
  have hcontents := hr.contents
  have hdq : t.deleted r + t.pushed r = t.rows - r := by unfold deleted pushed; omega
  rw [hdrop, hadd, List.drop_zero, Nat.add_zero, List.replicate_zero, List.append_nil] at hcontents
  have hall : t'.scrollback.map (Line.trim t.basicEraseChar) ++ t'.screen.map (Line.trim t.basicEraseChar) =
      (t.scrollback ++ t.screen.take (t.pushed r)).map (Line.trim t.basicEraseChar) ++
        ((t.screen.take (t.rows - t.deleted r)).drop (t.pushed r)).map (Line.trim t.basicEraseChar) := by
    have hl : t'.contents = t'.scrollback.map (Line.trim t.basicEraseChar) ++ t'.screen.map (Line.trim t.basicEraseChar) := by
      rw [TermState.contents, hr.basic, List.map_append]
    rw [← hl, hcontents, length_contents, TermState.contents, ← List.map_take, ← List.map_append]
    congr 1
    have htake : t.screen.take (t.rows - t.deleted r) = t.screen.take (t.pushed r) ++ (t.screen.take (t.rows - t.deleted r)).drop (t.pushed r) := by
      have := List.take_append_drop (t.pushed r) (t.screen.take (t.rows - t.deleted r))
      rw [List.take_take, Nat.min_eq_left (by omega)] at this
      exact this.symm
    rw [List.append_assoc, ← htake, show t.scrollback.length + t.screen.length - t.deleted r =
      t.scrollback.length + (t.rows - t.deleted r) by omega, List.take_length_add_append]
  have hsplit := List.append_inj hall (by simp; omega)
  refine ⟨t.deleted r, t.pushed r, by rw [hr.rows]; exact hdq, hk.deleted_blank h, ?_, ?_, hsplit.1, hsplit.2⟩
  · unfold deleted; omega
  · unfold deleted pushed; omega

theorem resizeTo_spec (h : t.Ok) (hp : t.altWhich = 0) (s : Resize) : ∃ t', t.resizeTo s = some t' ∧ Resized s.rowCount t t' :=
  termSize_spec t h hp s.draws s.rows s.cols

/-- A good run ends, and its end is like its start. -/
theorem run_alike (steps : List Resize) : ∀ t, Alike t₀ t → GoodRun t₀ t steps → ∃ t', t.resizes steps = some t' ∧ Alike t₀ t' := by
  induction steps with
  | nil => exact fun t h _ => ⟨t, rfl, h⟩
  | cons s rest ih =>
    intro t h hg
    obtain ⟨t₁, hr, hs⟩ := resizeTo_spec h.ok h.altWhich s
    obtain ⟨t₂, hr₂, h₂⟩ := ih t₁ (h.step hg.1 hs) (hg.2 t₁ hr)
    refine ⟨t₂, ?_, h₂⟩
    rw [resizes, List.foldlM_cons, hr]
    exact hr₂

theorem goodRun_init (s : Resize) (steps : List Resize) : ∀ t, GoodRun t₀ t (steps ++ [s]) → GoodRun t₀ t steps := by
  induction steps with
  | nil => exact fun _ _ => trivial
  | cons s' rest ih => exact fun t hg => ⟨hg.1, fun t' ht => ih t' (hg.2 t' ht)⟩

theorem goodRun_last (s : Resize) (steps : List Resize) : ∀ t t', GoodRun t₀ t (steps ++ [s]) → t.resizes steps = some t' →
    Keeps t₀ t' s.rowCount := by
  induction steps with
  | nil =>
    intro t t' hg hr
    cases hr
    exact hg.1
  | cons s' rest ih =>
    intro t t' hg hr
    rw [resizes, List.foldlM_cons] at hr
    cases hs : t.resizeTo s' with
    | none => rw [hs] at hr; cases hr
    | some t₁ =>
      rw [hs] at hr
      exact ih t₁ t' (hg.2 t₁ hs) hr

/-- One resize to the size that a good run ends with leaves the same lines. -/
theorem Alike.contents_eq (h₀ : t₀.Ok) (h : Alike t₀ t) (hr : Resized t.rows t₀ t') : t.contents = t'.contents := by
  have hcount := h.ok.count_screen
  have hcount' := hr.ok.count_screen
  have hcount₀ := h₀.count_screen
  have hsb := hr.scrollback
  have hcounts := counts_after t₀ t.rows
  have htemp := h.temp
  have hroom := h.ok.scrollback_le
  have hpull : t₀.pulled t.rows ≤ t₀.tempsblines := by unfold pulled; omega
  have hle := h₀.temp_le
  rw [h.savelines] at hroom
  have hlines : t.scrollback.length + t₀.pulled t.rows = t₀.scrollback.length + t₀.pushed t.rows := by
    have := h.scrollback
    omega
  have hdrop : t₀.dropped t.rows = 0 := by
    unfold dropped
    omega
  have hlen : t.contents.length = t'.contents.length := by
    rw [length_contents, length_contents, hcount, hcount', hr.rows]
    omega
  refine List.ext_getElem hlen fun i h₁ h₂ => ?_
  have hsame := h.same i
  have hcontents := hr.contents
  rw [hdrop, List.drop_zero] at hcontents
  have hi : i < t₀.contents.length + t₀.added t.rows - t₀.deleted t.rows := by
    rw [hcontents, List.length_take] at h₂
    omega
  have hone : t'.contents[i]? = some (t₀.contents.getD i Line.empty) := by
    rw [hcontents, List.getElem?_take_of_lt hi]
    by_cases hin : i < t₀.contents.length
    · rw [List.getElem?_append_left hin, List.getD_eq_getElem?_getD, List.getElem?_eq_getElem hin]
      rfl
    · rw [List.getElem?_append_right (by omega), List.getElem?_replicate, if_pos (by omega), List.getD_eq_getElem?_getD,
        List.getElem?_eq_none (by omega)]
      rfl
  rw [List.getD_eq_getElem?_getD, List.getElem?_eq_getElem h₁] at hsame
  rw [List.getElem?_eq_getElem h₂] at hone
  exact hsame.trans (Option.some.inj hone).symm

end Runs

/-- In a run of resizes whose steps keep every line, each state reached has the lines that one resize to
    its size would leave; its temporary scrollback lies within its scrollback and that within its limit;
    and the step to it deleted blank rows at the bottom before it pushed rows to the scrollback. -/
theorem resizing_path_independent (t : TermState) (h : t.Ok) (hp : t.altWhich = 0) (steps : List Resize) (last : Resize)
    (hg : GoodRun t t (steps ++ [last])) : ∃ t₁ t₂ t₃, t.resizes steps = some t₁ ∧ t₁.resizeTo last = some t₂ ∧
      t.resizeTo last = some t₃ ∧ t₂.contents = t₃.contents ∧ t₂.tempsblines ≤ t₂.scrollback.length ∧
      t₂.scrollback.length ≤ t.savelines ∧ Sheds t₁ t₂ := by
  obtain ⟨t₁, hr₁, h₁⟩ := run_alike steps t (.refl h hp) (goodRun_init last steps t hg)
  have hk := goodRun_last last steps t t₁ hg hr₁
  obtain ⟨t₂, hr₂, hs₂⟩ := resizeTo_spec h₁.ok h₁.altWhich last
  obtain ⟨t₃, hr₃, hs₃⟩ := resizeTo_spec h hp last
  have h₂ := h₁.step hk hs₂
  refine ⟨t₁, t₂, t₃, hr₁, hr₂, hr₃, ?_, h₂.ok.temp_le, h₂.savelines ▸ h₂.ok.scrollback_le, hs₂.sheds h₁.ok hk⟩
  exact h₂.contents_eq h (hs₂.rows ▸ hs₃)

/-! ### Text below the cursor -/

/-- Two rows of one column, with the cursor in the first and an `x` in the second. -/
def textBelow : TermState :=
  { wideBlank with
    rows := 2
    screen := [Line.new 1 space, { Line.new 1 space with cells := [{ space.cell with chr := CSET_ASCII ||| 0x78 }] }] }

/-- To one row and back, the `x` is gone; staying at two rows leaves it where it is. -/
theorem text_below_the_cursor_is_lost :
    (textBelow.resizes [⟨1, 1, false⟩, ⟨2, 1, false⟩]).map contents ≠ (textBelow.resizeTo ⟨2, 1, false⟩).map contents := by
  decide

/-- The same with a blank second row. -/
def blankBelow : TermState := { wideBlank with rows := 2, screen := [Line.new 1 space, Line.new 1 space] }

theorem resizing_path_independent_blank_below : ∃ t₁ t₂ t₃, blankBelow.resizes [⟨1, 1, false⟩] = some t₁ ∧
    t₁.resizeTo ⟨2, 1, false⟩ = some t₂ ∧ blankBelow.resizeTo ⟨2, 1, false⟩ = some t₃ ∧ t₂.contents = t₃.contents ∧
    t₂.tempsblines ≤ t₂.scrollback.length ∧ t₂.scrollback.length ≤ blankBelow.savelines ∧ Sheds t₁ t₂ := by
  refine resizing_path_independent blankBelow ?_ rfl [⟨1, 1, false⟩] ⟨2, 1, false⟩ ⟨?_, fun t' ht => ⟨?_, fun _ _ => trivial⟩⟩
  · constructor <;> decide
  · constructor <;> decide
  · cases ht
    constructor <;> decide

end TermState

end Putty.Terminal
