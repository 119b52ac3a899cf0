/-
  Putty.Windows.Argv — a command line is split into arguments (`windows/winutils.c`,
  split_into_argv).

  The comment of the function ends in a model that goes character by character: what a quote
  does depends on the segment that it is in, on whether a segment has just been closed, and on
  the backslashes before it. The code takes whole runs of backslashes and of quotes, and
  counts the first modulo 2 and the second modulo 3.

  Proved: on every command line the code ends, stays within its three buffers and gives the
  arguments and the start positions of the model (`split_follows_model`).

  A pointer into the output line or the command line is its offset. A command line has less
  than 2^31 characters. `none` is a write outside a buffer, or a loop that does not end.
-/

import Mathlib.Data.List.Forall2
import Mathlib.Data.List.TakeWhile
import Putty.Utils.BinarySink

namespace Putty.Windows.Argv

open Putty.Utils

def BACKSLASH : UInt8 := 92
def QUOTE : UInt8 := 34

def isspace (c : UInt8) : Bool := c == 32 || (9 ≤ c && c ≤ 13)

/-- The characters before the NUL. -/
def cstring (s : List UInt8) : List UInt8 := s.takeWhile (· ≠ 0)

/-! ## The model in the comment -/

/-- Where the next quote finds itself: `closed` is directly behind the end of a segment. -/
inductive Segment where
  | outside
  | inside
  | closed
  deriving DecidableEq, Repr

/-- A character that is no quote comes between. -/
def Segment.settled : Segment → Segment
  | .inside => .inside
  | _ => .outside

/-- An argument as far as it has been read; of its last characters, `slashes` backslashes are not yet in the text. -/
structure Partial where
  text : List UInt8
  segment : Segment
  slashes : Nat
  deriving DecidableEq, Repr

namespace Partial

def empty : Partial := ⟨[], .outside, 0⟩

/-- The backslashes are not special. -/
def whole (a : Partial) : List UInt8 := a.text ++ List.replicate a.slashes BACKSLASH

/-- An unescaped quote ends a segment, is literal or begins a segment. -/
def unescaped (text : List UInt8) : Segment → Partial
  | .inside => ⟨text, .closed, 0⟩
  | .closed => ⟨text ++ [QUOTE], .outside, 0⟩
  | .outside => ⟨text, .inside, 0⟩

def read (a : Partial) (c : UInt8) : Partial :=
  if c = BACKSLASH then ⟨a.text, a.segment.settled, a.slashes + 1⟩
  else if c = QUOTE then
    let text := a.text ++ List.replicate (a.slashes / 2) BACKSLASH
    if a.slashes % 2 = 1 then ⟨text ++ [QUOTE], a.segment, 0⟩ else unescaped text a.segment
  else ⟨a.whole ++ [c], a.segment.settled, 0⟩

end Partial

/-- Between arguments, or within one that started at `start`. -/
inductive Reading where
  | between
  | within (start : Nat) (a : Partial)
  deriving DecidableEq, Repr

structure Model where
  pos : Nat
  args : List (Nat × List UInt8)
  reading : Reading
  deriving DecidableEq, Repr

namespace Model

def step (m : Model) (c : UInt8) : Model :=
  match m.reading with
  | .between => if isspace c then ⟨m.pos + 1, m.args, .between⟩ else ⟨m.pos + 1, m.args, .within m.pos (Partial.empty.read c)⟩
  | .within start a =>
    if isspace c = true ∧ a.segment ≠ .inside then ⟨m.pos + 1, m.args ++ [(start, a.whole)], .between⟩
    else ⟨m.pos + 1, m.args, .within start (a.read c)⟩

def finish (m : Model) : List (Nat × List UInt8) :=
  match m.reading with
  | .between => m.args
  | .within start a => m.args ++ [(start, a.whole)]

def result (m : Model) (cs : List UInt8) : List (Nat × List UInt8) := (cs.foldl step m).finish

end Model

/-- The arguments of a command line, each with its start position. -/
def arguments (cmdline : List UInt8) : List (Nat × List UInt8) := Model.result ⟨0, [], .between⟩ cmdline

/-! ## The code -/

/-- The output line up to `q`, and for each argument its offset there and in the command line. -/
structure Split where
  outputline : List UInt8
  outputargv : List Nat
  outputargstart : List Nat
  deriving DecidableEq, Repr

/-- Write at `q`, in a buffer of `size` characters. -/
def put (size : Nat) (s out : List UInt8) : Option (List UInt8) := if out.length + s.length ≤ size then some (out ++ s) else none

/-- `while (slashes >= 2)`: what is written, and the slashes left. -/
def slashPairs : Nat → List UInt8 × Nat
  | 0 => ([], 0)
  | 1 => ([], 1)
  | n + 2 => let (s, left) := slashPairs n; (BACKSLASH :: s, left)

/-- `for (i = 3; i <= limit; i += 3)`. -/
def literalQuotes : Nat → List UInt8
  | n + 3 => QUOTE :: literalQuotes n
  | _ => []

/-- What is written for a run of backslashes and quotes, and whether a segment is open then. -/
def run (quote : Bool) (slashes quotes : Nat) : List UInt8 × Bool :=
  if quotes = 0 then (List.replicate slashes BACKSLASH, quote)
  else
    let (s, left) := slashPairs slashes
    let (s, quotes) := if left ≠ 0 then (s ++ [QUOTE], quotes - 1) else (s, quotes)
    if 0 < quotes then
      let quotes := if quote then quotes else quotes - 1
      (s ++ literalQuotes (quotes + 1), quotes % 3 = 0)
    else (s, quote)

/-- Copy data into the argument until it is finished; what is left of the command line, and the output line. -/
def copyArg (size : Nat) : Nat → Bool → List UInt8 → List UInt8 → Option (List UInt8 × List UInt8)
  | 0, _, _, _ => none
  | _ + 1, _, [], out => some ([], out)
  | fuel + 1, quote, c :: p, out =>
    if !quote && isspace c then some (c :: p, out)
    else if c = QUOTE ∨ c = BACKSLASH then
      let slashes := ((c :: p).takeWhile (· = BACKSLASH)).length
      let p := (c :: p).dropWhile (· = BACKSLASH)
      let quotes := (p.takeWhile (· = QUOTE)).length
      let p := p.dropWhile (· = QUOTE)
      let (s, quote) := run quote slashes quotes
      (put size s out).bind (copyArg size fuel quote p)
    else (put size [c] out).bind (copyArg size fuel quote p)

/-- The loop over the arguments, for a command line of `len` characters. -/
def splitArgs (size slots len : Nat) : Nat → List UInt8 → Split → Option Split
  | 0, _, _ => none
  | fuel + 1, p, s =>
    match p.dropWhile isspace with
    | [] => some s
    | c :: p =>
      if s.outputargv.length < slots then
        (copyArg size (p.length + 2) false (c :: p) s.outputline).bind fun (rest, out) =>
          (put size [0] out).bind fun out =>
            splitArgs size slots len fuel rest
              ⟨out, s.outputargv ++ [s.outputline.length], s.outputargstart ++ [len - (p.length + 1)]⟩
      else none

/-- `strlen(cmdline)+1 / 2` is strlen(cmdline). -/
def splitIntoArgv (cmdline : List UInt8) : Option Split :=
  let line := cstring cmdline
  match line.dropWhile isspace with
  | [] => some ⟨[], [], []⟩
  | c :: p => splitArgs (1 + (p.length + 1)) (p.length + 1) line.length (p.length + 2) (c :: p) ⟨[], [], []⟩

/-- The arguments as a caller sees them: strings in the output line, each with its start position. -/
def Split.args (s : Split) : List (Nat × List UInt8) :=
  s.outputargstart.zip (s.outputargv.map fun off => cstring (s.outputline.drop off))

/-! ## Runs -/

def segmentOf (quote : Bool) : Segment := if quote then .inside else .outside

@[simp] theorem settled_segmentOf (quote : Bool) : (segmentOf quote).settled = segmentOf quote := by cases quote <;> rfl

theorem slashPairs_eq : ∀ n, slashPairs n = (List.replicate (n / 2) BACKSLASH, n % 2)
  | 0 => rfl
  | 1 => rfl
  | n + 2 => by
    have hdiv : (n + 2) / 2 = n / 2 + 1 := by omega
    rw [slashPairs, slashPairs_eq n, hdiv, List.replicate_succ, Nat.add_mod_right]

theorem length_literalQuotes : ∀ n, (literalQuotes n).length = n / 3
  | 0 | 1 | 2 => rfl
  | n + 3 => by
    rw [literalQuotes, List.length_cons, length_literalQuotes n]
    omega

/-- The segment `k` quotes after one was open. -/
def phase : Nat → Segment
  | 0 => .inside
  | 1 => .closed
  | 2 => .outside
  | k + 3 => phase k

theorem settled_phase : ∀ k, (phase k).settled = segmentOf (k % 3 = 0)
  | 0 | 1 | 2 => rfl
  | k + 3 => by rw [phase, settled_phase k, Nat.add_mod_right]

theorem read_quote (a : Partial) (h : a.slashes = 0) : a.read QUOTE = Partial.unescaped a.text a.segment := by
  simp [Partial.read, QUOTE, BACKSLASH, h]

/-- Quotes in a segment. -/
theorem read_quotes_inside : ∀ (k : Nat) (text : List UInt8),
    (List.replicate k QUOTE).foldl Partial.read ⟨text, .inside, 0⟩ = ⟨text ++ literalQuotes (k + 1), phase k, 0⟩
  | 0, text => by simp [literalQuotes, phase]
  | 1, text => by simp [read_quote, Partial.unescaped, literalQuotes, phase]
  | 2, text => by simp [List.replicate, read_quote, Partial.unescaped, literalQuotes, phase]
  | k + 3, text => by
    have hthree : List.replicate (k + 3) QUOTE = QUOTE :: QUOTE :: QUOTE :: List.replicate k QUOTE := rfl
    have hreads : ((Partial.read ⟨text, .inside, 0⟩ QUOTE).read QUOTE).read QUOTE = ⟨text ++ [QUOTE], .inside, 0⟩ := by
      simp [read_quote, Partial.unescaped]
    rw [hthree, List.foldl_cons, List.foldl_cons, List.foldl_cons, hreads, read_quotes_inside k]
    simp [literalQuotes, phase]

/-- Quotes that are left of a run. -/
theorem read_quotes (quote : Bool) {k : Nat} (hk : 0 < k) (text : List UInt8) :
    (List.replicate k QUOTE).foldl Partial.read ⟨text, segmentOf quote, 0⟩ =
      ⟨text ++ literalQuotes ((if quote then k else k - 1) + 1), phase (if quote then k else k - 1), 0⟩ := by
  cases quote with
  | true => exact read_quotes_inside k text
  | false =>
    obtain ⟨k, rfl⟩ : ∃ j, k = j + 1 := ⟨k - 1, by omega⟩
    have hopen : Partial.read ⟨text, segmentOf false, 0⟩ QUOTE = ⟨text, .inside, 0⟩ := by
      simp [read_quote, Partial.unescaped, segmentOf]
    rw [List.replicate_succ, List.foldl_cons, hopen]
    exact read_quotes_inside k text

theorem read_slashes (quote : Bool) (text : List UInt8) : ∀ n k : Nat,
    (List.replicate n BACKSLASH).foldl Partial.read ⟨text, segmentOf quote, k⟩ = ⟨text, segmentOf quote, k + n⟩ := by
  intro n
  induction n with
  | zero => exact fun _ => rfl
  | succ n ih =>
    intro k
    have hread : Partial.read ⟨text, segmentOf quote, k⟩ BACKSLASH = ⟨text, segmentOf quote, k + 1⟩ := by simp [Partial.read]
    rw [List.replicate_succ, List.foldl_cons, hread, ih (k + 1)]
    congr 1
    omega

/-- The first quote after backslashes. -/
theorem read_first_quote (quote : Bool) (text : List UInt8) (n : Nat) : Partial.read ⟨text, segmentOf quote, n⟩ QUOTE =
    if n % 2 = 1 then ⟨text ++ List.replicate (n / 2) BACKSLASH ++ [QUOTE], segmentOf quote, 0⟩
    else Partial.unescaped (text ++ List.replicate (n / 2) BACKSLASH) (segmentOf quote) := by
  simp [Partial.read, QUOTE, BACKSLASH]

/-- A whole run of backslashes and quotes: what the model has read then is what the code has written. -/
theorem read_run (quote : Bool) (slashes quotes : Nat) (text : List UInt8) :
    ((List.replicate slashes BACKSLASH ++ List.replicate quotes QUOTE).foldl Partial.read ⟨text, segmentOf quote, 0⟩).whole =
        text ++ (run quote slashes quotes).1 ∧
      ((List.replicate slashes BACKSLASH ++ List.replicate quotes QUOTE).foldl Partial.read
        ⟨text, segmentOf quote, 0⟩).segment.settled = segmentOf (run quote slashes quotes).2 ∧
      (quotes ≠ 0 → ((List.replicate slashes BACKSLASH ++ List.replicate quotes QUOTE).foldl Partial.read
        ⟨text, segmentOf quote, 0⟩).slashes = 0) := by
  rw [List.foldl_append, read_slashes, Nat.zero_add]
  cases quotes with
  | zero => exact ⟨by simp [Partial.whole, run], by simp [run], fun h => absurd rfl h⟩
  | succ quotes =>
    rw [List.replicate_succ, List.foldl_cons, read_first_quote]
    unfold run
    rw [if_neg (Nat.succ_ne_zero quotes), slashPairs_eq]
    rcases Nat.mod_two_eq_zero_or_one slashes with heven | hodd
    · rw [heven, if_neg (by decide)]
      have hunescaped : Partial.unescaped (text ++ List.replicate (slashes / 2) BACKSLASH) (segmentOf quote) =
          Partial.read ⟨text ++ List.replicate (slashes / 2) BACKSLASH, segmentOf quote, 0⟩ QUOTE :=
        (read_quote ⟨text ++ List.replicate (slashes / 2) BACKSLASH, segmentOf quote, 0⟩ rfl).symm
      rw [hunescaped, ← List.foldl_cons, ← List.replicate_succ, read_quotes quote (Nat.succ_pos quotes)]
      simp [Partial.whole, settled_phase]
    · rw [hodd, if_pos rfl]
      by_cases hq : quotes = 0
      · simp [hq, Partial.whole]
      · rw [read_quotes quote (Nat.pos_of_ne_zero hq)]
        simp [Partial.whole, settled_phase, Nat.pos_of_ne_zero hq]

/-! ## One argument -/

theorem length_run (quote : Bool) (slashes quotes : Nat) : (run quote slashes quotes).1.length ≤ slashes + quotes := by
  unfold run
  split
  · simp
  · rw [slashPairs_eq]
    rcases Nat.mod_two_eq_zero_or_one slashes with heven | hodd
    · simp only [heven, ne_eq, not_true_eq_false, if_false]
      split
      · simp only [List.length_append, List.length_replicate, length_literalQuotes]
        split <;> omega
      · simp only [List.length_replicate]
        omega
    · simp only [hodd, ne_eq, one_ne_zero, not_false_eq_true, if_true]
      split
      · simp only [List.length_append, List.length_replicate, length_literalQuotes, List.length_singleton]
        split <;> omega
      · simp only [List.length_append, List.length_replicate, List.length_singleton]
        omega

theorem mem_literalQuotes : ∀ (n : Nat), ∀ c ∈ literalQuotes n, c = QUOTE
  | 0 | 1 | 2 => by simp [literalQuotes]
  | n + 3 => by
    intro c hc
    rcases List.mem_cons.mp hc with rfl | hc
    · rfl
    · exact mem_literalQuotes n c hc

theorem zero_not_mem_run (quote : Bool) (slashes quotes : Nat) : (0 : UInt8) ∉ (run quote slashes quotes).1 := by
  have hslash : ∀ n, (0 : UInt8) ∉ List.replicate n BACKSLASH := fun n h => absurd (List.eq_of_mem_replicate h) (by decide)
  have hquote : ∀ n, (0 : UInt8) ∉ literalQuotes n := fun n h => absurd (mem_literalQuotes n 0 h) (by decide)
  have hone : (0 : UInt8) ∉ [QUOTE] := by decide
  unfold run
  rw [slashPairs_eq]
  split
  · exact hslash _
  · dsimp only
    split <;> split <;> simp only [List.mem_append, not_or] <;> first
      | exact ⟨⟨hslash _, hone⟩, hquote _⟩
      | exact ⟨hslash _, hone⟩
      | exact ⟨hslash _, hquote _⟩
      | exact hslash _

/-- Behind a run it does not matter how the model got there. -/
theorem result_settled (pos start : Nat) (args : List (Nat × List UInt8)) (a : Partial) {p : List UInt8}
    (h : ∀ c, p.head? = some c → c ≠ QUOTE ∧ (c = BACKSLASH → a.slashes = 0)) :
    Model.result ⟨pos, args, .within start a⟩ p = Model.result ⟨pos, args, .within start ⟨a.whole, a.segment.settled, 0⟩⟩ p := by
  have hwhole : (⟨a.whole, a.segment.settled, 0⟩ : Partial).whole = a.whole := by simp [Partial.whole]
  cases p with
  | nil => simp [Model.result, Model.finish, hwhole]
  | cons c p =>
    obtain ⟨hq, hb⟩ := h c rfl
    have hinside : a.segment.settled ≠ .inside ↔ a.segment ≠ .inside := by cases a.segment <;> simp [Segment.settled]
    have hsettled : a.segment.settled.settled = a.segment.settled := by cases a.segment <;> rfl
    have hread : a.read c = Partial.read ⟨a.whole, a.segment.settled, 0⟩ c := by
      by_cases hc : c = BACKSLASH
      · simp [Partial.read, hc, hsettled, Partial.whole, hb hc]
      · simp only [Partial.read, if_neg hc, if_neg hq, hwhole, hsettled]
    have hstep : Model.step ⟨pos, args, .within start a⟩ c =
        Model.step ⟨pos, args, .within start ⟨a.whole, a.segment.settled, 0⟩⟩ c := by
      simp only [Model.step, hinside, hwhole, hread]
    rw [Model.result, Model.result, List.foldl_cons, List.foldl_cons, hstep]

/-- Characters that are no white space, or are in a segment, are read into the argument. -/
theorem result_run (start : Nat) (args : List (Nat × List UInt8)) (p : List UInt8) : ∀ (cs : List UInt8) (pos : Nat) (a : Partial),
    (∀ c ∈ cs, isspace c = false) → Model.result ⟨pos, args, .within start a⟩ (cs ++ p) =
      Model.result ⟨pos + cs.length, args, .within start (cs.foldl Partial.read a)⟩ p := by
  intro cs
  induction cs with
  | nil => exact fun _ _ _ => rfl
  | cons c cs ih =>
    intro pos a h
    have hstep : Model.step ⟨pos, args, .within start a⟩ c = ⟨pos + 1, args, .within start (a.read c)⟩ := by
      simp [Model.step, h c (by simp)]
    have hrest := ih (pos + 1) (a.read c) fun d hd => h d (List.mem_cons_of_mem _ hd)
    rw [Model.result, List.cons_append, List.foldl_cons, hstep, ← Model.result, hrest, List.length_cons, List.foldl_cons]
    congr 2
    omega

theorem put_some {size : Nat} {s out : List UInt8} (h : out.length + s.length ≤ size) : put size s out = some (out ++ s) := if_pos h

/-- The code takes an argument off the command line as the model does, up to white space or the end. -/
theorem copyArg_spec (size : Nat) : ∀ (fuel : Nat) (quote : Bool) (p out : List UInt8), p.length < fuel →
    out.length + p.length ≤ size → (0 : UInt8) ∉ p →
    ∃ rest s, copyArg size fuel quote p out = some (rest, out ++ s) ∧ rest.length + s.length ≤ p.length ∧ rest <:+ p ∧
      (∀ c, rest.head? = some c → isspace c = true) ∧ (0 : UInt8) ∉ s ∧
      ∀ pos start args text, Model.result ⟨pos, args, .within start ⟨text, segmentOf quote, 0⟩⟩ p =
        Model.result ⟨pos + (p.length - rest.length), args ++ [(start, text ++ s)], .between⟩ rest := by
  intro fuel
  induction fuel with
  | zero => intro _ p _ h; omega
  | succ fuel ih =>
    intro quote p out hfuel hsize hzero
    cases p with
    | nil =>
      refine ⟨[], [], by simp [copyArg], by simp, List.suffix_refl _, by simp, by simp, fun pos start args text => ?_⟩
      simp [Model.result, Model.finish, Partial.whole]
    | cons c p =>
      rw [copyArg]
      by_cases hend : (!quote && isspace c) = true
      · rw [if_pos hend]
        have hq : quote = false ∧ isspace c = true := by simpa using hend
        refine ⟨c :: p, [], by simp, by simp, List.suffix_refl _, fun d hd => ?_, by simp, fun pos start args text => ?_⟩
        · obtain rfl := Option.some.inj hd
          exact hq.2
        · simp [Model.result, Model.step, hq.1, hq.2, segmentOf, Partial.whole]
      · rw [if_neg hend]
        by_cases hrun : c = QUOTE ∨ c = BACKSLASH
        · rw [if_pos hrun]
          -- the run, and what is behind it
          let slashes := ((c :: p).takeWhile (· = BACKSLASH)).length
          let mid := (c :: p).dropWhile (· = BACKSLASH)
          let quotes := (mid.takeWhile (· = QUOTE)).length
          let rest := mid.dropWhile (· = QUOTE)
          have hslashes : (c :: p).takeWhile (· = BACKSLASH) = List.replicate slashes BACKSLASH :=
            List.eq_replicate_of_mem fun d hd => by simpa using List.mem_takeWhile_imp hd
          have hquotes : mid.takeWhile (· = QUOTE) = List.replicate quotes QUOTE :=
            List.eq_replicate_of_mem fun d hd => by simpa using List.mem_takeWhile_imp hd
          have hsplit : c :: p = List.replicate slashes BACKSLASH ++ List.replicate quotes QUOTE ++ rest := by
            rw [List.append_assoc, ← hquotes, List.takeWhile_append_dropWhile, ← hslashes, List.takeWhile_append_dropWhile]
          have hcount : slashes + quotes + rest.length = p.length + 1 := by
            have hlen := congrArg List.length hsplit
            simp only [List.length_cons, List.length_append, List.length_replicate] at hlen
            omega
          have hpos : 0 < slashes + quotes := by
            by_contra h0
            have hzero' : slashes = 0 ∧ quotes = 0 := by omega
            have hrest : rest = c :: p := by rw [hsplit, hzero'.1, hzero'.2]; rfl
            rcases hrun with rfl | rfl
            · have hmid : mid = QUOTE :: p := by simp [mid, QUOTE, BACKSLASH]
              have : quotes ≠ 0 := by simp [quotes, hmid]
              exact this hzero'.2
            · have : slashes ≠ 0 := by simp [slashes]
              exact this hzero'.1
          have hends : ∀ d, rest.head? = some d → d ≠ QUOTE ∧ (d = BACKSLASH → quotes ≠ 0) := by
            intro d hd
            refine ⟨fun he => ?_, fun he hq => ?_⟩
            · have := List.head?_dropWhile_not (· = QUOTE) mid
              rw [show mid.dropWhile (· = QUOTE) = rest from rfl, hd, he] at this
              simp at this
            · have hrest : rest = mid := by
                have := List.takeWhile_append_dropWhile (p := (· = QUOTE)) (l := mid)
                rw [hquotes, hq] at this
                exact this
              have := List.head?_dropWhile_not (· = BACKSLASH) (c :: p)
              rw [show (c :: p).dropWhile (· = BACKSLASH) = mid from rfl, ← hrest, hd, he] at this
              simp at this
          have hwritten := length_run quote slashes quotes
          rw [List.length_cons] at hfuel hsize
          obtain ⟨rest', s, hr, hl, hsuf, hsp, hz, hres⟩ := ih (run quote slashes quotes).2 rest
            (out ++ (run quote slashes quotes).1) (by omega) (by rw [List.length_append]; omega)
            (fun h => hzero (hsplit ▸ List.mem_append_right _ h))
          refine ⟨rest', (run quote slashes quotes).1 ++ s, ?_, ?_, ?_, hsp, ?_, ?_⟩
          · show (put size (run quote slashes quotes).1 out).bind (copyArg size fuel (run quote slashes quotes).2 rest) = _
            rw [put_some (by omega), Option.bind_some, hr, List.append_assoc]
          · rw [List.length_append, List.length_cons]
            omega
          · rw [hsplit]
            exact hsuf.trans (List.suffix_append _ _)
          · exact fun h => (List.mem_append.mp h).elim (zero_not_mem_run _ _ _) hz
          · intro pos start args text
            have hread := read_run quote slashes quotes text
            have hchars : ∀ d ∈ List.replicate slashes BACKSLASH ++ List.replicate quotes QUOTE, isspace d = false := by
              intro d hd
              rcases List.mem_append.mp hd with hd | hd <;> rw [List.eq_of_mem_replicate hd] <;> decide
            rw [hsplit, result_run _ _ _ _ _ _ hchars, result_settled _ _ _ _ fun d hd =>
              ⟨(hends d hd).1, fun he => hread.2.2 ((hends d hd).2 he)⟩, hread.1, hread.2.1, hres]
            simp only [List.length_append, List.length_replicate, List.append_assoc]
            congr 2
            have := hsuf.length_le
            omega
        · rw [if_neg hrun]
          have hc := not_or.mp hrun
          rw [List.length_cons] at hfuel hsize
          obtain ⟨rest', s, hr, hl, hsuf, hsp, hz, hres⟩ := ih quote p (out ++ [c]) (by omega)
            (by rw [List.length_append, List.length_singleton]; omega) fun h => hzero (List.mem_cons_of_mem _ h)
          refine ⟨rest', c :: s, ?_, ?_, hsuf.trans (List.suffix_cons _ _), hsp, ?_, ?_⟩
          · rw [put_some (by rw [List.length_singleton]; omega), Option.bind_some, hr, List.append_assoc]
            rfl
          · rw [List.length_cons, List.length_cons]
            omega
          · exact fun h => (List.mem_cons.mp h).elim (fun he => hzero (he ▸ List.mem_cons_self)) hz
          · intro pos start args text
            have hseg : ¬ (isspace c = true ∧ segmentOf quote ≠ .inside) := fun h => hend (by
              cases quote
              · simp [h.1]
              · exact absurd rfl h.2)
            have hread : Partial.read ⟨text, segmentOf quote, 0⟩ c = ⟨text ++ [c], segmentOf quote, 0⟩ := by
              simp [Partial.read, hc.1, hc.2, Partial.whole]
            have hlen := hsuf.length_le
            rw [Model.result, List.foldl_cons, Model.step]
            dsimp only
            rw [if_neg hseg, hread, ← Model.result, hres, List.append_assoc, List.length_cons]
            congr 2
            omega

/-! ## All arguments -/

/-- The buffers hold these arguments, each a string that ends in a NUL. -/
structure Holds (s : Split) (args : List (Nat × List UInt8)) : Prop where
  starts : s.outputargstart = args.map (·.1)
  strings : List.Forall₂ (fun off arg => ∃ tail, s.outputline.drop off = arg.2 ++ 0 :: tail ∧ (0 : UInt8) ∉ arg.2) s.outputargv args

theorem cstring_append {s tail : List UInt8} (h : (0 : UInt8) ∉ s) : cstring (s ++ 0 :: tail) = s := by
  unfold cstring
  have hne : ∀ c ∈ s, decide (c ≠ 0) = true := fun c hc => decide_eq_true fun he : c = 0 => h (he ▸ hc)
  rw [List.takeWhile_append_of_pos hne]
  simp

theorem Holds.args_eq {s : Split} {args : List (Nat × List UInt8)} (h : Holds s args) : s.args = args := by
  obtain ⟨line, argv, argstart⟩ := s
  obtain ⟨hstarts, hstrings⟩ := h
  dsimp only at hstarts hstrings
  subst hstarts
  unfold Split.args
  dsimp only
  induction hstrings with
  | nil => rfl
  | cons hd _ ih =>
    obtain ⟨tail, hdrop, hz⟩ := hd
    rw [List.map_cons, List.map_cons, List.zip_cons_cons, ih, hdrop, cstring_append hz]

/-- One argument more. -/
theorem Holds.push {s : Split} {args : List (Nat × List UInt8)} (h : Holds s args) (start : Nat) {text : List UInt8}
    (hz : (0 : UInt8) ∉ text) : Holds ⟨s.outputline ++ text ++ [0], s.outputargv ++ [s.outputline.length], s.outputargstart ++ [start]⟩
      (args ++ [(start, text)]) := by
  refine ⟨by rw [h.starts, List.map_append]; rfl, List.rel_append (h.strings.imp ?_) (.cons ?_ .nil)⟩
  · rintro off arg ⟨tail, hd, hz⟩
    have hoff : off ≤ s.outputline.length := by
      by_contra hlt
      rw [List.drop_of_length_le (by omega)] at hd
      simp at hd
    refine ⟨tail ++ text ++ [0], ?_, hz⟩
    rw [List.append_assoc, List.drop_append_of_le_length hoff, hd]
    simp
  · refine ⟨[], ?_, hz⟩
    rw [List.append_assoc, List.drop_left]

/-- White space between arguments. -/
theorem result_between (args : List (Nat × List UInt8)) : ∀ (p : List UInt8) (pos : Nat), Model.result ⟨pos, args, .between⟩ p =
    Model.result ⟨pos + (p.length - (p.dropWhile isspace).length), args, .between⟩ (p.dropWhile isspace) := by
  intro p
  induction p with
  | nil => exact fun _ => rfl
  | cons c p ih =>
    intro pos
    by_cases hc : isspace c = true
    · have hstep : Model.step ⟨pos, args, .between⟩ c = ⟨pos + 1, args, .between⟩ := by simp [Model.step, hc]
      have hle := (List.dropWhile_suffix (p := isspace) (l := p)).length_le
      rw [List.dropWhile_cons_of_pos hc, Model.result, List.foldl_cons, hstep, ← Model.result, ih, List.length_cons]
      congr 2
      omega
    · rw [List.dropWhile_cons_of_neg hc, Nat.sub_self, Nat.add_zero]

/-- The first character of an argument. -/
theorem result_first (pos : Nat) (args : List (Nat × List UInt8)) {c : UInt8} {p : List UInt8} (hc : isspace c = false) :
    Model.result ⟨pos, args, .between⟩ (c :: p) = Model.result ⟨pos, args, .within pos Partial.empty⟩ (c :: p) := by
  have hstep : Model.step ⟨pos, args, .between⟩ c = Model.step ⟨pos, args, .within pos Partial.empty⟩ c := by
    simp [Model.step, hc]
  rw [Model.result, Model.result, List.foldl_cons, List.foldl_cons, hstep]

/-- From an argument on, which has room in the buffers. -/
theorem splitArgs_spec (size slots len : Nat) (hslots : slots < size) : ∀ (fuel : Nat) (p : List UInt8) (s : Split)
    (args : List (Nat × List UInt8)), p.length < fuel → p.length ≤ len → (0 : UInt8) ∉ p →
    (p.dropWhile isspace ≠ [] → s.outputline.length + (p.dropWhile isspace).length ≤ slots) → s.outputargv.length + p.length ≤ slots →
    Holds s args → ∃ s', splitArgs size slots len fuel p s = some s' ∧
      Holds s' (Model.result ⟨len - p.length, args, .between⟩ p) := by
  intro fuel
  induction fuel with
  | zero => intro p _ _ h; omega
  | succ fuel ih =>
    intro p s args hfuel hlen hzero hroom hcount h
    rw [splitArgs, result_between]
    have hsuf := List.dropWhile_suffix (p := isspace) (l := p)
    cases hp : p.dropWhile isspace with
    | nil => exact ⟨s, rfl, h⟩
    | cons c q =>
      have hspace : isspace c = false := by
        have := List.head?_dropWhile_not isspace p
        rw [hp] at this
        simpa using this
      rw [hp] at hroom hsuf
      have hq := hsuf.length_le
      have hroom := hroom (List.cons_ne_nil _ _)
      rw [List.length_cons] at hq hroom
      obtain ⟨rest, text, hr, hl, hrest, hsp, hz, hres⟩ := copyArg_spec size (q.length + 2) false (c :: q) s.outputline
        (by rw [List.length_cons]; omega) (by rw [List.length_cons]; omega) fun h0 => hzero (hsuf.subset h0)
      rw [List.length_cons] at hl
      have hlt : rest.length < (c :: q).length := by
        rcases Nat.lt_or_ge rest.length (c :: q).length with hlt | hge
        · exact hlt
        · have hall := hrest.eq_of_length_le hge
          have := hsp c (by rw [hall]; rfl)
          rw [hspace] at this
          cases this
      rw [List.length_cons] at hlt
      have hstart : len - p.length + (p.length - (c :: q).length) = len - (q.length + 1) := by
        rw [List.length_cons]
        omega
      have hafter : rest.dropWhile isspace ≠ [] → (s.outputline ++ text ++ [0]).length + (rest.dropWhile isspace).length ≤ slots := by
        intro hne
        cases hrc : rest with
        | nil => simp [hrc] at hne
        | cons d rest' =>
          have hd := hsp d (by rw [hrc]; rfl)
          have hle := (List.dropWhile_suffix (p := isspace) (l := rest')).length_le
          rw [hrc, List.length_cons] at hl
          rw [List.dropWhile_cons_of_pos hd]
          simp only [List.length_append, List.length_singleton]
          omega
      obtain ⟨s', hs', hh'⟩ := ih rest ⟨s.outputline ++ text ++ [0], s.outputargv ++ [s.outputline.length],
        s.outputargstart ++ [len - (q.length + 1)]⟩ _ (by omega) (by omega)
        (fun h0 => hzero (hsuf.subset (hrest.subset h0))) hafter (by simp only [List.length_append, List.length_singleton]; omega)
        (h.push (len - (q.length + 1)) hz)
      refine ⟨s', ?_, ?_⟩
      · have hnul : put size [0] (s.outputline ++ text) = some (s.outputline ++ text ++ [0]) :=
          put_some (by simp only [List.length_append, List.length_singleton]; omega)
        have hput : s.outputargv.length < slots := by omega
        simp only [if_pos hput, hr, Option.bind_some, hnul]
        exact hs'
      · have hpos : len - (q.length + 1) + ((c :: q).length - rest.length) = len - rest.length := by
          rw [List.length_cons]
          omega
        rw [hstart, result_first _ _ hspace]
        have hmodel := hres (len - (q.length + 1)) (len - (q.length + 1)) args []
        rw [hpos, List.nil_append] at hmodel
        rw [← hmodel] at hh'
        exact hh'

/-- split_into_argv gives the arguments of the model, each with its start position. -/
theorem split_follows_model (cmdline : List UInt8) :
    ∃ s, splitIntoArgv cmdline = some s ∧ s.args = arguments (cstring cmdline) := by
  have hzero : (0 : UInt8) ∉ cstring cmdline := fun h => by simpa using List.mem_takeWhile_imp h
  have hsuf := List.dropWhile_suffix (p := isspace) (l := cstring cmdline)
  unfold splitIntoArgv arguments
  rw [result_between]
  cases hp : (cstring cmdline).dropWhile isspace with
  | nil =>
    dsimp only
    rw [hp]
    exact ⟨⟨[], [], []⟩, rfl, rfl⟩
  | cons c p =>
    have hspace : isspace c = false := by
      have := List.head?_dropWhile_not isspace (cstring cmdline)
      rw [hp] at this
      simpa using this
    rw [hp] at hsuf
    obtain ⟨s, hs, hh⟩ := splitArgs_spec (1 + (p.length + 1)) (p.length + 1) (cstring cmdline).length (by omega) (p.length + 2) (c :: p) ⟨[], [], []⟩ [] (by simp) hsuf.length_le (fun h => hzero (hsuf.subset h))
      (fun _ => by rw [List.dropWhile_cons_of_neg (by simp [hspace])]; simp) (by simp) ⟨rfl, .nil⟩
    dsimp only
    rw [hp]
    refine ⟨s, hs, ?_⟩
    rw [hh.args_eq, Nat.zero_add]

/-- Tests of the source. -/
example : (splitIntoArgv (text "a\\\"\"\"\"b c\" d")).map (fun s => s.args.map (·.2)) = some [text "a\"\"b", text "c d"] := by
  decide +kernel

example : (splitIntoArgv (text "\"a\\\\\"\"\"b c\" d")).map (fun s => s.args.map (·.2)) = some [text "a\\\"b c", text "d"] := by
  decide +kernel

end Putty.Windows.Argv
