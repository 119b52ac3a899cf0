/-
  Putty.Mpint.Bezout — `mp_bezout_into` and `mp_invert`.

  The forward pass reduces copies of the two numbers by the steps of Stein's algorithm,
  as many as the two have bits, and records two bits for each: whether it subtracted and
  whether it swapped. The second pass reads the record backwards; it undoes each step on
  the numbers and builds their Bezout coefficients, the sign in a flag. The assertion in
  between the second pass and the result compares the recovered numbers with the inputs.
  An output that is not wanted has no words.

  Proved, for numbers of any widths:
  - `reduced_spec`: the forward pass ends with 0 and the gcd, unless it starts from two
    even numbers, which the code rules out: then the gcd has lost its factors of 2.
  - `mpBezoutInto_correct`: the assertion never fails; of coprime `a ≥ 1` and `b ≥ 2` the
    outputs are the coefficients in their ranges; mp_invert inverts.
  - `both_even_loses_a_factor`: 2 and 2 end in 1.
-/

import Putty.Lib.BinaryGcd
import Putty.Mpint.Words

namespace Putty.Mpint

open Putty.Lib Putty.Lib.Limbs Putty.Lib.BinaryGcd

variable {W : Nat}

/-- The numbers as they are reduced, and the record. -/
structure Reduction (W : Nat) where
  a : Limbs W
  b : Limbs W
  record : Limbs W

def reduceStep (nw : Nat) (s : Reduction W) (step : Nat) : Option (Reduction W) :=
  let swapIfBothOdd := mpCmpHs s.b s.a
  let swapIfOneEven := (mpWord s.a 0).getLsbD 0
  let bothOdd := (mpWord s.a 0 &&& mpWord s.b 0).getLsbD 0
  let swap := swapIfOneEven ^^ ((swapIfBothOdd ^^ swapIfOneEven) && bothOdd)
  (mpCondSwap s.a s.b swap).bind fun ab =>
    let a := mpCondSubInto nw ab.1 ab.2 bothOdd
    let a := mpRshiftFixedInto nw a 1
    (mpSetBit s.record (step * 2) bothOdd).bind fun record =>
      (mpSetBit record (step * 2 + 1) swap).bind fun record => some ⟨a, ab.2, record⟩

def reduceUpTo (nw : Nat) (start : Reduction W) : Nat → Option (Reduction W)
  | 0 => some start
  | step + 1 => (reduceUpTo nw start step).bind fun s => reduceStep nw s step

/-- The numbers as they are recovered, and the coefficients. -/
structure Unwinding (W : Nat) where
  a : Limbs W
  b : Limbs W
  ac : Limbs W
  bc : Limbs W
  minusOne : Bool

def unwindStep (nw : Nat) (record : Limbs W) (u : Unwinding W) (step : Nat) : Option (Unwinding W) :=
  let bothOdd := mpGetBit record (step * 2)
  let swap := mpGetBit record (step * 2 + 1)
  let adjust := (mpWord u.ac 0).getLsbD 0
  let ac := mpCondAddInto (nw + 1) u.ac u.b adjust
  let bc := mpCondAddInto (nw + 1) u.bc u.a adjust
  let ac := mpRshiftFixedInto (nw + 1) ac 1
  let bc := mpCondAddInto (nw + 1) bc ac bothOdd
  let a := mpLshiftFixedInto nw u.a 1
  let a := mpCondAddInto nw a u.b bothOdd
  (mpCondSwap a u.b swap).bind fun ab =>
    (mpCondSwap ac bc swap).bind fun c => some ⟨ab.1, ab.2, c.1, c.2, u.minusOne ^^ swap⟩

/-- The steps below `step`, the last first. -/
def unwindFrom (nw : Nat) (record : Limbs W) : Nat → Unwinding W → Option (Unwinding W)
  | 0, u => some u
  | step + 1, u => (unwindStep nw record u step).bind (unwindFrom nw record step)

/-- The number of words of the copies. -/
def bezoutWidth (aIn bIn : Limbs W) : Nat := max 1 (max aIn.length bIn.length)

def bezoutSteps (aIn bIn : Limbs W) : Nat := 2 * bezoutWidth aIn bIn * W

/-- The forward pass. -/
def reduced (aIn bIn : Limbs W) : Option (Reduction W) :=
  let nw := bezoutWidth aIn bIn
  let steps := bezoutSteps aIn bIn
  reduceUpTo nw ⟨mpCopyInto nw aIn, mpCopyInto nw bIn, List.replicate ((steps * 2 + W - 1) / W) 0⟩ steps

def mpBezoutInto (aw bw : Nat) (aIn bIn : Limbs W) : Option (Limbs W × Limbs W) :=
  let nw := bezoutWidth aIn bIn
  (reduced aIn bIn).bind fun s =>
    let minusOne := (mpWord s.b 0).getLsbD 0
    let ac := mpCopyInto (nw + 1) s.a
    let bc := mpCopyInto (nw + 1) s.b
    (unwindFrom nw s.record (bezoutSteps aIn bIn) ⟨s.a, s.b, ac, bc, minusOne⟩).bind fun u =>
      if mpCmpEq u.a aIn && mpCmpEq u.b bIn then
        let ac := mpSelectInto (nw + 1) u.ac (mpSubInto nw u.b u.ac) u.minusOne
        let bc := mpSelectInto (nw + 1) u.bc (mpSubInto nw u.a u.bc) u.minusOne
        some (mpCopyInto aw ac, mpCopyInto bw bc)
      else none

def mpInvert (x m : Limbs W) : Option (Limbs W) := (mpBezoutInto m.length 0 x m).map Prod.fst

/-! ## The forward pass -/

theorem low_bit (hW : 0 < W) (x : Limbs W) : (mpWord x 0).getLsbD 0 = decide (val x % 2 = 1) := by
  have h := mpWord_testBit x 0 0 hW
  rw [Nat.zero_mul, Nat.zero_add, BitVec.testBit_toNat] at h
  rw [h, Nat.testBit_zero]

/-- What the two flags of a step are. -/
theorem step_flags (hW : 0 < W) (a b : Limbs W) :
    (mpWord a 0 &&& mpWord b 0).getLsbD 0 = bothOdd (val a, val b) ∧
      ((mpWord a 0).getLsbD 0 ^^ ((mpCmpHs b a ^^ (mpWord a 0).getLsbD 0) && (mpWord a 0 &&& mpWord b 0).getLsbD 0)) =
        swaps (val a, val b) := by
  have hboth : (mpWord a 0 &&& mpWord b 0).getLsbD 0 = bothOdd (val a, val b) := by
    rw [BitVec.getLsbD_and, low_bit hW, low_bit hW]
    unfold bothOdd
    rw [Bool.decide_and]
  refine ⟨hboth, ?_⟩
  rw [hboth, mpCmpHs_eq, low_bit hW]
  unfold swaps
  by_cases hb : bothOdd (val a, val b) = true
  · rw [if_pos hb, hb, Bool.and_true, Bool.xor_comm, Bool.xor_assoc, Bool.xor_self, Bool.xor_false]
  · rw [if_neg hb, Bool.not_eq_true _ |>.mp hb, Bool.and_false, Bool.xor_false]

/-- The numbers and the record after some steps. -/
structure Reduced (nw rw : Nat) (p : Nat × Nat) (k : Nat) (s : Reduction W) : Prop where
  a_length : s.a.length = nw
  b_length : s.b.length = nw
  nums : (val s.a, val s.b) = next^[k] p
  record_length : s.record.length = rw
  bits : ∀ j < k, mpGetBit s.record (j * 2) = bothOdd (next^[j] p) ∧ mpGetBit s.record (j * 2 + 1) = swaps (next^[j] p)

theorem pair_lt {a b : Limbs W} {nw : Nat} (ha : a.length = nw) (hb : b.length = nw) : val a < (2 ^ W) ^ nw ∧ val b < (2 ^ W) ^ nw := by
  have h1 := val_lt a
  have h2 := val_lt b
  rw [ha] at h1
  rw [hb] at h2
  exact ⟨h1, h2⟩

theorem two_le_pow (hW : 0 < W) {nw : Nat} (hnw : 1 ≤ nw) : 2 ≤ (2 ^ W) ^ nw := by
  rw [← pow_mul]
  have := Nat.one_lt_two_pow (show W * nw ≠ 0 by exact Nat.mul_ne_zero (by omega) (by omega))
  omega

/-- The subtraction and the halving of a step, on the sorted numbers. -/
theorem subtract_and_halve {nw : Nat} (hW : 0 < W) {x y : Limbs W} (hx : x.length = nw) {p : Nat × Nat} (hp : (val x, val y) = sorted p) :
    val (mpRshiftFixedInto nw (mpCondSubInto nw x y (bothOdd p)) 1) = (next p).1 := by
  have hlt := val_lt x
  have hle := less_le p
  have h1 : val x = (sorted p).1 := congrArg Prod.fst hp
  have h2 : val y = (sorted p).2 := congrArg Prod.snd hp
  rw [hx] at hlt
  have hless : (if bothOdd p then val y else 0) = less p := by rw [h2]; rfl
  rw [val_mpRshiftFixedInto hW, val_mpCondSubInto (by
    intro hb
    unfold less at hle
    rw [if_pos hb] at hle
    rwa [h1, h2]), hless, h1]
  rw [h1] at hlt
  rw [Nat.mod_eq_of_lt (Nat.lt_of_le_of_lt (Nat.sub_le _ _) hlt), Nat.pow_one]
  exact Nat.mod_eq_of_lt (Nat.lt_of_le_of_lt (Nat.div_le_self _ _) (Nat.lt_of_le_of_lt (Nat.sub_le _ _) hlt))

theorem reduceStep_spec (hW : 0 < W) {nw rw k : Nat} {p : Nat × Nat} {s : Reduction W} (h : Reduced nw rw p k s)
    (hroom : k * 2 + 1 < W * rw) : ∃ s', reduceStep nw s k = some s' ∧ Reduced nw rw p (k + 1) s' := by
  obtain ⟨hboth, hswap⟩ := step_flags hW s.a s.b
  rw [h.nums] at hboth hswap
  have hlen : s.a.length = s.b.length := by rw [h.a_length, h.b_length]
  have hfirst : k * 2 / W < s.record.length := by
    rw [h.record_length]
    exact Nat.div_lt_of_lt_mul (by omega)
  obtain ⟨r1, hr1, hlen1, hget1⟩ := mpSetBit_spec hW hfirst (bothOdd (next^[k] p))
  have hsecond : (k * 2 + 1) / W < r1.length := by
    rw [hlen1, h.record_length]
    exact Nat.div_lt_of_lt_mul (by omega)
  obtain ⟨r2, hr2, hlen2, hget2⟩ := mpSetBit_spec hW hsecond (swaps (next^[k] p))
  unfold reduceStep
  dsimp only
  rw [hswap, hboth, mpCondSwap_eq hlen, Option.bind_some, hr1, Option.bind_some, hr2, Option.bind_some]
  refine ⟨_, rfl, ?_⟩
  -- the numbers sorted
  obtain ⟨ab, hab⟩ : ∃ ab, ab = if swaps (next^[k] p) then (s.b, s.a) else (s.a, s.b) := ⟨_, rfl⟩
  have hsorted : (val ab.1, val ab.2) = sorted (next^[k] p) ∧ ab.1.length = nw ∧ ab.2.length = nw := by
    unfold sorted
    rw [hab, ← h.nums]
    by_cases hs : swaps (val s.a, val s.b) = true
    · rw [if_pos hs, if_pos hs]
      exact ⟨rfl, h.b_length, h.a_length⟩
    · rw [if_neg hs, if_neg hs]
      exact ⟨rfl, h.a_length, h.b_length⟩
  rw [← hab]
  refine ⟨length_mpRshiftFixedInto _ _ _, hsorted.2.2, ?_, ?_, ?_⟩
  · have hsnd : val ab.2 = (next (next^[k] p)).2 := congrArg Prod.snd hsorted.1
    rw [Function.iterate_succ_apply', subtract_and_halve hW hsorted.2.1 hsorted.1]
    exact Prod.ext rfl hsnd
  · show r2.length = rw
    rw [hlen2, hlen1, h.record_length]
  · intro j hj
    show mpGetBit r2 (j * 2) = _ ∧ mpGetBit r2 (j * 2 + 1) = _
    rw [hget2, hget2, hget1, hget1, if_neg (by omega)]
    by_cases hjk : j = k
    · rw [hjk, if_pos rfl, if_pos rfl]
      exact ⟨rfl, rfl⟩
    · rw [if_neg (by omega), if_neg (by omega), if_neg (by omega)]
      exact h.bits j (by omega)

theorem reduceUpTo_spec (hW : 0 < W) {nw rw : Nat} {p : Nat × Nat} {start : Reduction W} (h : Reduced nw rw p 0 start) {k : Nat}
    (hroom : k * 2 ≤ W * rw) : ∃ s, reduceUpTo nw start k = some s ∧ Reduced nw rw p k s := by
  induction k with
  | zero => exact ⟨start, rfl, h⟩
  | succ k ih =>
    obtain ⟨s, hs, hred⟩ := ih (by omega)
    obtain ⟨s', hs', hred'⟩ := reduceStep_spec hW hred (by omega)
    refine ⟨s', ?_, hred'⟩
    rw [reduceUpTo, hs]
    exact hs'

/-- The whole pass over two numbers. -/
theorem reduced_some (hW : 0 < W) (aIn bIn : Limbs W) :
    ∃ s rw, reduced aIn bIn = some s ∧ Reduced (bezoutWidth aIn bIn) rw (val aIn, val bIn) (bezoutSteps aIn bIn) s := by
  have hwidth : ∀ x : Limbs W, x.length ≤ bezoutWidth aIn bIn → val (mpCopyInto (bezoutWidth aIn bIn) x) = val x := by
    intro x hx
    rw [val_mpCopyInto]
    exact Nat.mod_eq_of_lt (Nat.lt_of_lt_of_le (val_lt x) (Nat.pow_le_pow_right base_pos hx))
  have hstart : Reduced (bezoutWidth aIn bIn) ((bezoutSteps aIn bIn * 2 + W - 1) / W) (val aIn, val bIn) 0
      ⟨mpCopyInto (bezoutWidth aIn bIn) aIn, mpCopyInto (bezoutWidth aIn bIn) bIn,
        List.replicate ((bezoutSteps aIn bIn * 2 + W - 1) / W) 0⟩ := by
    refine ⟨length_mpCopyInto _ _, length_mpCopyInto _ _, ?_, List.length_replicate, ?_⟩
    · rw [hwidth aIn (by unfold bezoutWidth; omega), hwidth bIn (by unfold bezoutWidth; omega)]
      rfl
    · intro j hj
      omega
  have hroom : bezoutSteps aIn bIn * 2 ≤ W * ((bezoutSteps aIn bIn * 2 + W - 1) / W) := by
    have hdiv : bezoutSteps aIn bIn * 2 = W * (4 * bezoutWidth aIn bIn) := by
      unfold bezoutSteps
      ring
    rw [hdiv, Nat.add_sub_assoc (by omega), Nat.mul_add_div hW, Nat.div_eq_of_lt (by omega), Nat.add_zero]
  obtain ⟨s, hs, hred⟩ := reduceUpTo_spec hW hstart hroom
  exact ⟨s, _, hs, hred⟩

/-! ## The second pass -/

/-- The numbers of one pair, and coefficients with room to grow. -/
structure Recovered (nw : Nat) (p : Nat × Nat) (u : Unwinding W) : Prop where
  a_length : u.a.length = nw
  b_length : u.b.length = nw
  ac_length : u.ac.length = nw + 1
  bc_length : u.bc.length = nw + 1
  nums : (val u.a, val u.b) = p

/-- The doubling and the addition of a step. -/
theorem double_and_add {nw : Nat} (hW : 0 < W) {a b : Limbs W} {p : Nat × Nat} (h : (val a, val b) = next p)
    (hlt : (sorted p).1 < (2 ^ W) ^ nw) :
    val (mpCondAddInto nw (mpLshiftFixedInto nw a 1) b (bothOdd p)) = (sorted p).1 := by
  have h1 : val a = (next p).1 := congrArg Prod.fst h
  have h2 : val b = (sorted p).2 := congrArg Prod.snd h
  have hfst := sorted_fst p
  have hless : (if bothOdd p then val b else 0) = less p := by rw [h2]; rfl
  rw [val_mpCondAddInto, val_mpLshiftFixedInto hW, hless, Nat.mod_add_mod, h1, Nat.pow_one, Nat.mul_comm, ← hfst, Nat.mod_eq_of_lt hlt]

/-- The coefficients of a step before the swap, no word lost. -/
theorem coefficients_step {nw : Nat} (hW : 0 < W) (hnw : 1 ≤ nw) {u : Unwinding W} {p : Nat × Nat} (h : Recovered nw (next p) u)
    (hlt : (sorted p).1 < (2 ^ W) ^ nw) (hbound : Bounded (next p) (val u.ac) (val u.bc))
    {ac bc : Limbs W} (hac : ac = mpRshiftFixedInto (nw + 1) (mpCondAddInto (nw + 1) u.ac u.b ((mpWord u.ac 0).getLsbD 0)) 1)
    (hbc : bc = mpCondAddInto (nw + 1) (mpCondAddInto (nw + 1) u.bc u.a ((mpWord u.ac 0).getLsbD 0)) ac (bothOdd p)) :
    (val ac, val bc) = unsubtracted p (halved (next p) (val u.ac) (val u.bc)) := by
  obtain ⟨ha, hb⟩ := pair_lt h.a_length h.b_length
  have h1 : val u.a = (next p).1 := congrArg Prod.fst h.nums
  have h2 : val u.b = (next p).2 := congrArg Prod.snd h.nums
  have htwo := two_le_pow hW hnw
  have hwide : (2 ^ W) ^ nw * 2 ≤ (2 ^ W) ^ (nw + 1) := by
    rw [Nat.pow_succ]
    exact Nat.mul_le_mul_left _ (Nat.one_lt_two_pow (by omega))
  have hle := hbound.ac_le
  have hle' : val u.bc ≤ max (next p).1 (next p).2 := by
    rcases Nat.eq_zero_or_pos (next p).1 with hz | hz
    · have := (hbound.zero hz).2
      omega
    · have := hbound.bc_le (by omega)
      omega
  obtain ⟨hhalf, hsnd⟩ := hbound.halved_le
  rw [h1] at ha
  rw [h2] at hb
  have hacv : val ac = (halved (next p) (val u.ac) (val u.bc)).1 := by
    rw [hac, val_mpRshiftFixedInto hW, val_mpCondAddInto, low_bit hW, h2, Nat.pow_one]
    unfold halved
    by_cases hbit : val u.ac % 2 = 1
    · rw [if_pos (decide_eq_true hbit), if_pos hbit]
      rw [Nat.mod_eq_of_lt (by omega : val u.ac + (next p).2 < _)]
      exact Nat.mod_eq_of_lt (by omega)
    · rw [if_neg (by simpa using hbit), if_neg hbit]
      rw [Nat.mod_eq_of_lt (by omega : val u.ac + 0 < _)]
      exact Nat.mod_eq_of_lt (by omega)
  have hbc1 : val (mpCondAddInto (nw + 1) u.bc u.a ((mpWord u.ac 0).getLsbD 0)) = (halved (next p) (val u.ac) (val u.bc)).2 := by
    rw [val_mpCondAddInto, low_bit hW, h1]
    unfold halved
    dsimp only
    by_cases hbit : val u.ac % 2 = 1
    · rw [if_pos (decide_eq_true hbit), if_pos hbit]
      exact Nat.mod_eq_of_lt (by omega)
    · rw [if_neg (by simpa using hbit), if_neg hbit]
      exact Nat.mod_eq_of_lt (by omega)
  apply Prod.ext hacv
  show val bc = (unsubtracted p (halved (next p) (val u.ac) (val u.bc))).2
  rw [hbc, val_mpCondAddInto, hbc1, hacv]
  have hfst := sorted_fst p
  refine Nat.mod_eq_of_lt ?_
  split <;> omega

theorem unwindStep_spec (hW : 0 < W) {nw : Nat} (hnw : 1 ≤ nw) {record : Limbs W} {u : Unwinding W} {p : Nat × Nat} {step : Nat}
    (h : Recovered nw (next p) u) (hp : p.1 < (2 ^ W) ^ nw ∧ p.2 < (2 ^ W) ^ nw)
    (hbits : mpGetBit record (step * 2) = bothOdd p ∧ mpGetBit record (step * 2 + 1) = swaps p) :
    ∃ u', unwindStep nw record u step = some u' ∧ Recovered nw p u' ∧
      (Bounded (next p) (val u.ac) (val u.bc) →
        ((val u'.ac, val u'.bc), u'.minusOne) = (undone p (val u.ac) (val u.bc), u.minusOne ^^ swaps p)) := by
  have hlt : (sorted p).1 < (2 ^ W) ^ nw := by
    rcases sorted_cases p with hs | hs
    · rw [hs.1]
      exact hp.1
    · rw [hs.1]
      exact hp.2
  have hfst := double_and_add hW h.nums hlt
  have hsnd : val u.b = (sorted p).2 := congrArg Prod.snd h.nums
  have hcoef := coefficients_step hW hnw h hlt
  have hback := sorted_sorted p
  unfold unwindStep
  dsimp only
  rw [hbits.1, hbits.2]
  generalize hac : mpRshiftFixedInto (nw + 1) (mpCondAddInto (nw + 1) u.ac u.b ((mpWord u.ac 0).getLsbD 0)) 1 = ac at *
  generalize hbc : mpCondAddInto (nw + 1) (mpCondAddInto (nw + 1) u.bc u.a ((mpWord u.ac 0).getLsbD 0)) ac (bothOdd p) = bc at *
  generalize ha : mpCondAddInto nw (mpLshiftFixedInto nw u.a 1) u.b (bothOdd p) = a at *
  have halen : a.length = nw := by rw [← ha, length_mpCondAddInto]
  have haclen : ac.length = nw + 1 := by rw [← hac, length_mpRshiftFixedInto]
  have hbclen : bc.length = nw + 1 := by rw [← hbc, length_mpCondAddInto]
  rw [mpCondSwap_eq (by rw [halen, h.b_length]), Option.bind_some, mpCondSwap_eq (by rw [haclen, hbclen]), Option.bind_some]
  refine ⟨_, rfl, ?_, ?_⟩
  · by_cases hs : swaps p = true
    · rw [if_pos hs] at hback
      rw [if_pos hs, if_pos hs]
      refine ⟨h.b_length, halen, hbclen, haclen, ?_⟩
      rw [← hback, ← hfst, ← hsnd]
    · rw [if_neg hs] at hback
      rw [if_neg hs, if_neg hs]
      refine ⟨halen, h.b_length, haclen, hbclen, ?_⟩
      rw [← hback]
      exact Prod.ext hfst hsnd
  · intro hbound
    unfold undone
    rw [← hcoef hbound rfl hbc.symm]
    dsimp only
    by_cases hs : swaps p = true
    · rw [if_pos hs, if_pos hs]
    · rw [if_neg hs, if_neg hs]

theorem unwindFrom_spec (hW : 0 < W) {nw : Nat} (hnw : 1 ≤ nw) {record : Limbs W} {p : Nat × Nat} (hp : p.1 < (2 ^ W) ^ nw ∧ p.2 < (2 ^ W) ^ nw)
    {k : Nat} (hbits : ∀ j < k, mpGetBit record (j * 2) = bothOdd (next^[j] p) ∧ mpGetBit record (j * 2 + 1) = swaps (next^[j] p))
    {u : Unwinding W} (h : Recovered nw (next^[k] p) u) :
    ∃ u', unwindFrom nw record k u = some u' ∧ Recovered nw p u' ∧
      (p.2 ≠ 0 → Bounded (next^[k] p) (val u.ac) (val u.bc) →
        ((val u'.ac, val u'.bc), u'.minusOne) = unwound p k ((val u.ac, val u.bc), u.minusOne)) := by
  induction k generalizing u with
  | zero => exact ⟨u, rfl, h, fun _ _ => rfl⟩
  | succ k ih =>
    rw [Function.iterate_succ_apply'] at h
    obtain ⟨u1, hu1, hrec, hstep⟩ := unwindStep_spec hW hnw h (iterate_lt hp.1 hp.2 k) (hbits k (Nat.lt_succ_self k))
    obtain ⟨u', hu', hrec', hrest⟩ := ih (fun j hj => hbits j (by omega)) hrec
    refine ⟨u', ?_, hrec', ?_⟩
    · rw [unwindFrom, hu1]
      exact hu'
    · intro hp2 hbound
      rw [Function.iterate_succ_apply'] at hbound
      have hone := hstep hbound
      rw [unwound, ← hone]
      apply hrest hp2
      have hac : val u1.ac = (undone (next^[k] p) (val u.ac) (val u.bc)).1 := congrArg (fun c => c.1.1) hone
      have hbc : val u1.bc = (undone (next^[k] p) (val u.ac) (val u.bc)).2 := congrArg (fun c => c.1.2) hone
      rw [hac, hbc]
      exact hbound.undo (iterate_snd_pos hp2 k)

/-! ## The result -/

theorem bezoutWidth_pos (aIn bIn : Limbs W) : 1 ≤ bezoutWidth aIn bIn := Nat.le_max_left _ _

theorem inputs_lt (aIn bIn : Limbs W) :
    val aIn < (2 ^ W) ^ bezoutWidth aIn bIn ∧ val bIn < (2 ^ W) ^ bezoutWidth aIn bIn := by
  have hwidth : ∀ x : Limbs W, x.length ≤ bezoutWidth aIn bIn → val x < (2 ^ W) ^ bezoutWidth aIn bIn := by
    intro x hx
    exact Nat.lt_of_lt_of_le (val_lt x) (Nat.pow_le_pow_right base_pos hx)
  exact ⟨hwidth aIn (by unfold bezoutWidth; omega), hwidth bIn (by unfold bezoutWidth; omega)⟩

/-- What the forward pass ends with. -/
theorem reduced_spec (hW : 0 < W) (aIn bIn : Limbs W) :
    ∃ s, reduced aIn bIn = some s ∧ val s.a = 0 ∧
      (val aIn = 0 ∨ val aIn % 2 = 1 ∨ val bIn % 2 = 1 → val s.b = Nat.gcd (val aIn) (val bIn)) ∧
      (val aIn ≠ 0 → ∃ k, val s.b % 2 = 1 ∧ Nat.gcd (val aIn) (val bIn) = 2 ^ k * val s.b) := by
  obtain ⟨s, rw, hs, hred⟩ := reduced_some hW aIn bIn
  obtain ⟨ha, hb⟩ := inputs_lt aIn bIn
  rw [← pow_mul] at ha hb
  have hnums := hred.nums
  have hsteps : bezoutSteps aIn bIn = 2 * (W * bezoutWidth aIn bIn) := by
    unfold bezoutSteps
    ring
  rw [hsteps] at hnums
  have hzero := fst_iterate_eq_zero (p := (val aIn, val bIn)) ha hb
  rw [← hnums] at hzero
  refine ⟨s, hs, hzero, ?_, ?_⟩
  · intro h
    rw [gcd_reached ha hb h] at hnums
    exact congrArg Prod.snd hnums
  · intro h
    obtain ⟨g, k, hg, hodd, hgcd⟩ := odd_part_reached (p := (val aIn, val bIn)) ha hb h
    rw [hg] at hnums
    have hsnd : val s.b = g := congrArg Prod.snd hnums
    rw [hsnd]
    exact ⟨k, hodd, hgcd⟩

theorem not_both_even {a b : Nat} (h : Nat.Coprime a b) : a % 2 = 1 ∨ b % 2 = 1 := by
  by_contra hnot
  have htwo : 2 ∣ Nat.gcd a b := Nat.dvd_gcd (by omega) (by omega)
  rw [h] at htwo
  omega

/-- Both passes: the numbers are the inputs again, and the assertion holds. -/
theorem both_passes (hW : 2 ≤ W) (aIn bIn : Limbs W) :
    ∃ u, Recovered (bezoutWidth aIn bIn) (val aIn, val bIn) u ∧
      (∀ aw bw, mpBezoutInto aw bw aIn bIn = some
        (mpCopyInto aw (mpSelectInto (bezoutWidth aIn bIn + 1) u.ac (mpSubInto (bezoutWidth aIn bIn) u.b u.ac) u.minusOne),
          mpCopyInto bw (mpSelectInto (bezoutWidth aIn bIn + 1) u.bc (mpSubInto (bezoutWidth aIn bIn) u.a u.bc) u.minusOne))) ∧
      (val bIn ≠ 0 → ∃ g, next^[bezoutSteps aIn bIn] (val aIn, val bIn) = (0, g) ∧
        ((val u.ac, val u.bc), u.minusOne) = unwound (val aIn, val bIn) (bezoutSteps aIn bIn) ((0, g), decide (g % 2 = 1))) := by
  have hpos : 0 < W := by omega
  obtain ⟨s, rw, hs, hred⟩ := reduced_some hpos aIn bIn
  obtain ⟨s', hs', hzero, -⟩ := reduced_spec hpos aIn bIn
  obtain rfl : s = s' := Option.some_inj.mp (hs.symm.trans hs')
  have hnw := bezoutWidth_pos aIn bIn
  obtain ⟨u, hu, hrec, hcoef⟩ := unwindFrom_spec hpos hnw (inputs_lt aIn bIn) hred.bits
    (u := ⟨s.a, s.b, mpCopyInto (bezoutWidth aIn bIn + 1) s.a, mpCopyInto (bezoutWidth aIn bIn + 1) s.b, (mpWord s.b 0).getLsbD 0⟩)
    ⟨hred.a_length, hred.b_length, length_mpCopyInto _ _, length_mpCopyInto _ _, hred.nums⟩
  refine ⟨u, hrec, ?_, ?_⟩
  · intro aw bw
    have h1 : val u.a = val aIn := congrArg Prod.fst hrec.nums
    have h2 : val u.b = val bIn := congrArg Prod.snd hrec.nums
    have hassert : (mpCmpEq u.a aIn && mpCmpEq u.b bIn) = true := by
      rw [mpCmpEq_eq hW, mpCmpEq_eq hW, decide_eq_true h1, decide_eq_true h2]
      rfl
    unfold mpBezoutInto
    dsimp only
    rw [hs, Option.bind_some, hu, Option.bind_some, if_pos hassert]
  · intro hb
    have hlt := (pair_lt hred.a_length hred.b_length).2
    have hwide : (2 ^ W) ^ bezoutWidth aIn bIn ≤ (2 ^ W) ^ (bezoutWidth aIn bIn + 1) :=
      Nat.pow_le_pow_right base_pos (Nat.le_succ _)
    have hend : next^[bezoutSteps aIn bIn] (val aIn, val bIn) = (0, val s.b) := by rw [← hred.nums, hzero]
    have hcopies : val (mpCopyInto (bezoutWidth aIn bIn + 1) s.a) = 0 ∧ val (mpCopyInto (bezoutWidth aIn bIn + 1) s.b) = val s.b := by
      rw [val_mpCopyInto, val_mpCopyInto, hzero, Nat.zero_mod, Nat.mod_eq_of_lt (Nat.lt_of_lt_of_le hlt hwide)]
      exact ⟨rfl, rfl⟩
    have hcoef := hcoef hb
    dsimp only at hcoef
    rw [hend, hcopies.1, hcopies.2, low_bit hpos] at hcoef
    exact ⟨val s.b, hend, hcoef ⟨Nat.zero_le _, fun h => absurd rfl h, fun _ => ⟨rfl, rfl⟩⟩⟩

/-- What the second pass gives for coprime numbers. -/
theorem coprime_coefficients {aIn bIn : Limbs W} {g : Nat} (hcop : Nat.Coprime (val aIn) (val bIn)) (hb : val bIn ≠ 0)
    (hend : next^[bezoutSteps aIn bIn] (val aIn, val bIn) = (0, g)) {c : (Nat × Nat) × Bool}
    (hc : c = unwound (val aIn, val bIn) (bezoutSteps aIn bIn) ((0, g), decide (g % 2 = 1))) :
    Bezout (val aIn, val bIn) c.1.1 c.1.2 c.2 := by
  have hodd := not_both_even hcop
  obtain ⟨ha, hb'⟩ := inputs_lt aIn bIn
  rw [← pow_mul] at ha hb'
  have hgcd := gcd_reached (p := (val aIn, val bIn)) ha hb' (.inr hodd)
  have hsteps : bezoutSteps aIn bIn = 2 * (W * bezoutWidth aIn bIn) := by
    unfold bezoutSteps
    ring
  rw [hsteps, hgcd] at hend
  have hone : (val aIn, val bIn).1.gcd (val aIn, val bIn).2 = 1 := hcop
  obtain rfl : 1 = g := hone.symm.trans (congrArg Prod.snd hend)
  rw [hc]
  apply Bezout.unwound hodd hb
  rw [hsteps, hgcd, hone]
  exact bezout_end

/-- The coefficient that is left of `c`, and its number. -/
theorem chosen_coefficient {nw aw : Nat} {c x : Limbs W} {neg : Bool} (hle : val c ≤ val x) (hx : x.length = nw) :
    mpCopyInto aw (mpSelectInto (nw + 1) c (mpSubInto nw x c) neg) = ofNat W aw (if neg then val x - val c else val c) := by
  have hlt := val_lt x
  rw [hx] at hlt
  have hwide : (2 ^ W) ^ nw ≤ (2 ^ W) ^ (nw + 1) := Nat.pow_le_pow_right base_pos (Nat.le_succ nw)
  apply eq_ofNat (length_mpCopyInto _ _)
  rw [val_mpCopyInto, val_mpSelectInto, val_mpSubInto hle, Nat.mod_eq_of_lt (Nat.lt_of_le_of_lt (Nat.sub_le _ _) hlt)]
  congr 1
  apply Nat.mod_eq_of_lt
  split
  · omega
  · omega

theorem mpBezoutInto_coprime (hW : 2 ≤ W) {aIn bIn : Limbs W} (hcop : Nat.Coprime (val aIn) (val bIn)) (ha : 1 ≤ val aIn) (hb : 2 ≤ val bIn) :
    ∃ A B, A * val aIn = B * val bIn + 1 ∧ A < val bIn ∧ B < val aIn ∧
      ∀ aw bw, mpBezoutInto aw bw aIn bIn = some (ofNat W aw A, ofNat W bw B) := by
  obtain ⟨u, hrec, hout, hcoef⟩ := both_passes hW aIn bIn
  obtain ⟨g, hend, hcoef⟩ := hcoef (by omega)
  have hb' := coprime_coefficients hcop (by omega) hend hcoef
  have h1 : val u.a = val aIn := congrArg Prod.fst hrec.nums
  have h2 : val u.b = val bIn := congrArg Prod.snd hrec.nums
  obtain ⟨heq, hA, hB⟩ := hb'.positive ha hb
  refine ⟨_, _, heq, hA, hB, ?_⟩
  intro aw bw
  have hac := hb'.ac_le
  have hbc := hb'.bc_le
  dsimp only at hac hbc
  rw [hout, chosen_coefficient (by omega) hrec.b_length, chosen_coefficient (by omega) hrec.a_length, h1, h2]

theorem mpInvert_coprime (hW : 2 ≤ W) {x m : Limbs W} (hcop : Nat.Coprime (val x) (val m)) (hm : 1 ≤ val m) :
    ∃ r, mpInvert x m = some r ∧ r.length = m.length ∧ val r * val x ≡ 1 [MOD val m] ∧ (2 ≤ val m → val r < val m) := by
  by_cases h2 : 2 ≤ val m
  · have hx : 1 ≤ val x := by
      by_contra h0
      rw [show val x = 0 by omega, Nat.coprime_zero_left] at hcop
      omega
    obtain ⟨A, B, heq, hA, hB, hout⟩ := mpBezoutInto_coprime hW hcop hx h2
    have hAv : val (ofNat W m.length A) = A := by
      rw [val_ofNat]
      exact Nat.mod_eq_of_lt (Nat.lt_trans hA (val_lt m))
    refine ⟨ofNat W m.length A, ?_, length_ofNat _ _, ?_, ?_⟩
    · unfold mpInvert
      rw [hout]
      rfl
    · rw [hAv, heq, Nat.add_comm, Nat.mul_comm]
      exact Nat.add_mul_mod_self_left 1 (val m) B
    · intro _
      rw [hAv]
      exact hA
  · -- everything is the inverse of everything
    obtain ⟨u, -, hout, -⟩ := both_passes hW x m
    refine ⟨_, congrArg (Option.map Prod.fst) (hout m.length 0), length_mpCopyInto _ _, ?_, fun h => absurd h h2⟩
    rw [show val m = 1 by omega]
    exact Nat.modEq_one

/-- What mp_invert gives depends on the two numbers alone, not on how many words they have. -/
theorem mpInvert_congr (hW : 2 ≤ W) {x x' m m' : Limbs W} (hx : val x = val x') (hm : val m = val m') (h0 : val m ≠ 0) :
    ∃ v ≤ val m, mpInvert x m = some (ofNat W m.length v) ∧ mpInvert x' m' = some (ofNat W m'.length v) := by
  have hgives : ∀ {x m : Limbs W}, val m ≠ 0 → ∃ g c, next^[bezoutSteps x m] (val x, val m) = (0, g) ∧
      c = unwound (val x, val m) (bezoutSteps x m) ((0, g), decide (g % 2 = 1)) ∧ c.1.1 ≤ val m ∧
      mpInvert x m = some (ofNat W m.length (if c.2 then val m - c.1.1 else c.1.1)) := by
    intro x m h0
    obtain ⟨u, hrec, hout, hcoef⟩ := both_passes hW x m
    obtain ⟨g, hend, hcoef⟩ := hcoef h0
    have hzero : Bounded (0, g) 0 g := ⟨Nat.zero_le _, fun h => absurd rfl h, fun _ => ⟨rfl, rfl⟩⟩
    have hbound := Bounded.unwound (p := (val x, val m)) h0 (c := ((0, g), decide (g % 2 = 1))) (hend ▸ hzero)
    rw [← hcoef] at hbound
    have hle := hbound.ac_le
    have h2 : val u.b = val m := congrArg Prod.snd hrec.nums
    refine ⟨g, _, hend, hcoef, hle, ?_⟩
    rw [mpInvert, hout, Option.map_some, chosen_coefficient (by rw [h2]; exact hle) hrec.b_length, h2]
  obtain ⟨g, c, hend, hc, hle, hout⟩ := @hgives x m h0
  obtain ⟨g', c', hend', hc', -, hout'⟩ := @hgives x' m' (hm ▸ h0)
  rw [← hx, ← hm] at hend' hc'
  obtain ⟨rfl, hsame⟩ := unwound_steps hend hend'
  have hcc : c' = c := by rw [hc, hc', hsame]
  rw [hcc, ← hm] at hout'
  refine ⟨_, ?_, hout, hout'⟩
  split <;> omega

theorem mpBezoutInto_correct (hW : 2 ≤ W) (a b : Limbs W) :
    (∀ aw bw, (mpBezoutInto aw bw a b).isSome = true) ∧
    (∃ s, reduced a b = some s ∧ val s.a = 0 ∧
      (val a = 0 ∨ val a % 2 = 1 ∨ val b % 2 = 1 → val s.b = Nat.gcd (val a) (val b)) ∧
      (val a ≠ 0 → ∃ k, val s.b % 2 = 1 ∧ Nat.gcd (val a) (val b) = 2 ^ k * val s.b)) ∧
    (Nat.Coprime (val a) (val b) → 1 ≤ val a → 2 ≤ val b →
      ∃ A B, A * val a = B * val b + 1 ∧ A < val b ∧ B < val a ∧ ∀ aw bw, mpBezoutInto aw bw a b = some (ofNat W aw A, ofNat W bw B)) ∧
    (Nat.Coprime (val a) (val b) → 1 ≤ val b →
      ∃ r, mpInvert a b = some r ∧ r.length = b.length ∧ val r * val a ≡ 1 [MOD val b] ∧ (2 ≤ val b → val r < val b)) := by
  refine ⟨?_, reduced_spec (by omega) a b, mpBezoutInto_coprime hW, mpInvert_coprime hW⟩
  intro aw bw
  obtain ⟨u, -, hout, -⟩ := both_passes hW a b
  rw [hout]
  rfl

theorem mpBezoutInto_correct_three_seven : ∃ A B, A * val ([3] : Limbs 16) = B * val ([7] : Limbs 16) + 1 ∧
    A < val ([7] : Limbs 16) ∧ B < val ([3] : Limbs 16) ∧
      ∀ aw bw, mpBezoutInto aw bw ([3] : Limbs 16) [7] = some (ofNat 16 aw A, ofNat 16 bw B) :=
  (mpBezoutInto_correct (by decide) [3] [7]).2.2.1 (by decide) (by decide) (by decide)

/-- The gcd of 2 and 2 is not reached. -/
theorem both_even_loses_a_factor :
    Nat.gcd (val ([2] : Limbs 16)) (val ([2] : Limbs 16)) = 2 ∧
      ∃ s, reduced ([2] : Limbs 16) [2] = some s ∧ val s.a = 0 ∧ val s.b = 1 := by
  refine ⟨by decide, ?_⟩
  obtain ⟨s, hs, hzero, -, hodd⟩ := reduced_spec (by decide) ([2] : Limbs 16) [2]
  obtain ⟨k, hb, hg⟩ := hodd (by decide)
  have hdvd : val s.b ∣ 2 := Dvd.intro_left _ hg.symm
  have hle := Nat.le_of_dvd (by decide) hdvd
  exact ⟨s, hs, hzero, by omega⟩

end Putty.Mpint
