/-
  Putty.Mpint.Wire — mp_ints in SSH-1 and SSH-2 packets: `put_mp_ssh1`, `put_mp_ssh2`,
  `get_mp_ssh1`, `get_mp_ssh2`, on the words of the number.

  An SSH-1 number is its bit count in 16 bits and its bytes; writing asserts that the
  count fits. An SSH-2 number is a string of its bytes, of which the first has its top bit
  clear, with the shortest such string expected.

  Proved, for words of 16, 32 and 64 bits and numbers of any width:
  - `wire_round_trip`: what is written is read back, the whole of it and with no error: in
    SSH-1 if the assertion lets the number be written, in SSH-2 if it is not 0 and the byte
    count fits its field; and a string of SSH-2 that is accepted and is not empty is the
    one that writing the number gives.
  - `wide_number_not_written`: a number of 65536 bits has no SSH-1 form.
-/

import Putty.Mpint.Bytes
import Putty.Utils.BinarySink

namespace Putty.Mpint

open Putty.Lib Putty.Lib.Limbs
open Putty.Utils (BinarySource put16BitMsbFirst put32BitMsbFirst putString)

variable {W : Nat}

/-- put_byte of each byte, the highest first. -/
def putBytes (x : Limbs W) (bytes : Nat) : List UInt8 := (List.range bytes).reverse.map (mpGetByte x)

def putMpSsh1 (x : Limbs W) : Option (List UInt8) :=
  let bits := mpGetNbits x
  let bytes := (bits + 7) / 8
  if bits < 0x10000 then some (put16BitMsbFirst bits ++ putBytes x bytes) else none

def putMpSsh2 (x : Limbs W) : List UInt8 :=
  let bytes := (mpGetNbits x + 8) / 8
  put32BitMsbFirst bytes ++ putBytes x bytes

def getMpSsh1 (W : Nat) (src : BinarySource) : Limbs W × BinarySource :=
  let (bitc, src) := src.getUint16
  let (bytes, src) := src.getData ((bitc + 7) / 8)
  if src.err then (mpFromInteger W 0, src)
  else
    let toret := mpFromBytesBe W bytes
    if mpGetNbits toret > bitc then (mpFromInteger W 0, { src with err := true }) else (toret, src)

/-- A first byte with its sign bit set, or one that is not needed. -/
def invalidMp (p : List UInt8) : Bool :=
  p.length > 0 && (p.getD 0 0 &&& 0x80 != 0 || (p.getD 0 0 == 0 && (p.length ≤ 1 || !(p.getD 1 0 &&& 0x80 != 0))))

def getMpSsh2 (W : Nat) (src : BinarySource) : Limbs W × BinarySource :=
  let (bytes, src) := src.getString
  if src.err then (mpFromInteger W 0, src)
  else if invalidMp bytes then (mpFromInteger W 0, { src with err := true })
  else (mpFromBytesBe W bytes, src)

/-! ## Bytes written and read -/

theorem putBytes_eq (h : Supported W) (x : Limbs W) (n : Nat) : putBytes x n = (List.range n).reverse.map (Utils.mpGetByte (val x)) := by
  apply List.map_congr_left
  intro i _
  exact mpGetByte_eq h x i

@[simp] theorem length_putBytes (x : Limbs W) (n : Nat) : (putBytes x n).length = n := by
  rw [putBytes, List.length_map, List.length_reverse, List.length_range]

theorem val_mpFromBytesBe_putBytes (h : Supported W) {x : Limbs W} {n : Nat} (hx : val x < 256 ^ n) :
    val (mpFromBytesBe W (putBytes x n)) = val x := by
  rw [(mpFromBytesBe_spec h _).2, putBytes_eq h, Utils.mpFromBytesBe_bytes hx]

/-- A number of so many bits is below this power of 256. -/
theorem lt_pow_of_bits {v n : Nat} (h : Utils.mpGetNbits v ≤ 8 * n) : v < 256 ^ n := by
  have hlt := (Utils.mpGetNbits_le_iff v (8 * n)).mp h
  rwa [pow_mul] at hlt

/-- The byte `i` places from the first. -/
theorem getD_putBytes (h : Supported W) (x : Limbs W) {n i : Nat} (hi : i < n) :
    ((putBytes x n).getD i 0).toNat = val x / 256 ^ (n - 1 - i) % 256 := by
  rw [List.getD_eq_getElem _ _ (by rwa [length_putBytes]), ← Utils.mpGetByte_toNat]
  congr 1
  unfold putBytes
  rw [List.getElem_map, List.getElem_reverse, List.getElem_range, List.length_range, mpGetByte_eq h]

/-! ## SSH-1 -/

theorem getUint16_reads {src : BinarySource} {n : Nat} {l : List UInt8} (hn : n < 0x10000) (h : src.Reads (put16BitMsbFirst n ++ l)) :
    src.getUint16.1 = n ∧ src.getUint16.2.Reads l := by
  obtain ⟨h1, h2⟩ := BinarySource.consume_reads h
  have hlen : (put16BitMsbFirst n).length = 2 := rfl
  rw [hlen] at h1 h2
  unfold BinarySource.getUint16
  rcases hc : src.consume 2 with ⟨o, src'⟩
  rw [hc] at h1 h2
  obtain rfl : o = some (put16BitMsbFirst n) := h1
  refine ⟨?_, h2⟩
  show (0 * 256 + (UInt8.ofNat (n / 256)).toNat) * 256 + (UInt8.ofNat n).toNat = n
  rw [UInt8.toNat_ofNat', UInt8.toNat_ofNat']
  omega

theorem getMpSsh1_reads (h : Supported W) {x : Limbs W} (hbits : mpGetNbits x < 0x10000) {src : BinarySource} {l : List UInt8}
    (hsrc : src.Reads (put16BitMsbFirst (mpGetNbits x) ++ putBytes x ((mpGetNbits x + 7) / 8) ++ l)) :
    val (getMpSsh1 W src).1 = val x ∧ (getMpSsh1 W src).2.Reads l := by
  rw [List.append_assoc] at hsrc
  obtain ⟨hbitc, hrest⟩ := getUint16_reads hbits hsrc
  obtain ⟨hdata, hleft⟩ := BinarySource.getData_reads hrest
  rw [length_putBytes] at hdata hleft
  have hval : val (mpFromBytesBe W (putBytes x ((mpGetNbits x + 7) / 8))) = val x := by
    apply val_mpFromBytesBe_putBytes h
    apply lt_pow_of_bits
    rw [← mpGetNbits_eq h]
    omega
  unfold getMpSsh1
  dsimp only
  rw [hbitc, hleft.1, hdata, if_neg Bool.false_ne_true, if_neg (by rw [mpGetNbits_eq h, hval, ← mpGetNbits_eq h]; omega)]
  exact ⟨hval, hleft⟩

theorem putMpSsh1_wide {x : Limbs W} (h : ¬mpGetNbits x < 0x10000) : putMpSsh1 x = none := if_neg h

/-! ## SSH-2 -/

theorem sign_bit (p : UInt8) : (p &&& 0x80 != 0) = decide (128 ≤ p.toNat) := by
  have hlt := p.toNat_lt
  have hand : (p &&& 0x80).toNat = (p.toNat.testBit 7).toNat * 128 := (UInt8.toNat_and p 0x80).trans (Nat.and_two_pow p.toNat 7)
  rw [Nat.testBit_eq_decide_div_mod_eq] at hand
  by_cases h : 128 ≤ p.toNat
  · have hbit : p.toNat / 2 ^ 7 % 2 = 1 := by omega
    have hne : p &&& 0x80 ≠ 0 := by
      intro h0
      rw [h0, decide_eq_true hbit] at hand
      cases hand
    rw [decide_eq_true h]
    simpa using hne
  · have hbit : ¬p.toNat / 2 ^ 7 % 2 = 1 := by omega
    have hzero : p &&& 0x80 = 0 := by
      apply UInt8.toNat.inj
      rw [hand, decide_eq_false hbit]
      rfl
    rw [decide_eq_false h, hzero]
    rfl

/-- What a string that is not refused looks like. -/
theorem valid_iff {p : List UInt8} (hp : p ≠ []) :
    invalidMp p = false ↔ (p.getD 0 0).toNat < 128 ∧ ((p.getD 0 0).toNat = 0 → 2 ≤ p.length ∧ 128 ≤ (p.getD 1 0).toNat) := by
  have hlen := List.length_pos_iff.mpr hp
  have hzero : (p.getD 0 0 == 0) = decide ((p.getD 0 0).toNat = 0) := by
    rw [Bool.eq_iff_iff, beq_iff_eq, decide_eq_true_iff]
    constructor
    · intro h
      rw [h]
      rfl
    · intro h
      exact UInt8.toNat.inj h
  unfold invalidMp
  rw [sign_bit, sign_bit, hzero, decide_eq_true hlen]
  simp only [Bool.true_and, Bool.or_eq_false_iff, Bool.and_eq_false_iff, decide_eq_false_iff_not, Bool.not_eq_false', decide_eq_true_iff]
  omega

/-- The bit count of the number of a string that is not refused. -/
theorem bytes_of_valid {p : List UInt8} (hp : p ≠ []) (h : invalidMp p = false) : (Utils.mpGetNbits (Utils.mpFromBytesBe p) + 8) / 8 = p.length := by
  have hlen := List.length_pos_iff.mpr hp
  obtain ⟨hsign, hshort⟩ := (valid_iff hp).mp h
  have hlt := Utils.mpFromBytesBe_lt p
  have hfirst := Utils.mpFromBytesBe_digit (show p.length - 1 < p.length by omega)
  rw [Nat.sub_self] at hfirst
  have hget : ∀ k < p.length, (p.getD (p.length - 1 - k) 0).toNat = Utils.mpFromBytesBe p / 256 ^ k % 256 := fun k hk =>
    Utils.mpFromBytesBe_digit hk
  generalize Utils.mpFromBytesBe p = v at hlt hfirst hget ⊢
  obtain ⟨m, hm⟩ : ∃ m, p.length = m + 1 := ⟨p.length - 1, by omega⟩
  have hpos : 0 < 256 ^ m := Nat.pow_pos (by decide)
  have h256 : ∀ k, 256 ^ k = 2 ^ (8 * k) := by
    intro k
    rw [pow_mul]
    rfl
  rw [hm, Nat.pow_succ] at hlt
  rw [hm, Nat.add_sub_cancel, Nat.mod_eq_of_lt (Nat.div_lt_of_lt_mul hlt)] at hfirst
  rw [hfirst] at hsign hshort
  -- the sign bit is clear
  have hupper : Utils.mpGetNbits v ≤ 8 * m + 7 := by
    rw [Utils.mpGetNbits_le_iff, Nat.pow_add, ← h256, Nat.mul_comm]
    exact Nat.lt_mul_of_div_lt hsign hpos
  have hlower : 8 * m ≤ Utils.mpGetNbits v := by
    by_contra hlow
    by_cases hz : v / 256 ^ m = 0
    · -- the second byte has its top bit set
      obtain ⟨htwo, hsecond⟩ := hshort hz
      obtain ⟨k, rfl⟩ : ∃ k, m = k + 1 := ⟨m - 1, by omega⟩
      have hdigit := hget k (by omega)
      rw [show p.length - 1 - k = 1 by omega] at hdigit
      rw [hdigit] at hsecond
      have hsmall : v < 2 ^ (8 * k + 7) := by
        rw [← Utils.mpGetNbits_le_iff]
        omega
      rw [Nat.pow_add, ← h256] at hsmall
      have hdiv := Nat.div_lt_of_lt_mul hsmall
      have := Nat.mod_le (v / 256 ^ k) 256
      omega
    · have hsmall : v < 256 ^ m := by
        rw [h256, ← Utils.mpGetNbits_le_iff]
        omega
      exact hz (Nat.div_eq_of_lt hsmall)
  omega

/-- What is written is not refused. -/
theorem putBytes_valid (h : Supported W) {x : Limbs W} (hx : val x ≠ 0) : invalidMp (putBytes x ((mpGetNbits x + 8) / 8)) = false := by
  have hne : putBytes x ((mpGetNbits x + 8) / 8) ≠ [] := by
    rw [← List.length_pos_iff, length_putBytes]
    omega
  have hlt := Utils.lt_two_pow_mpGetNbits (val x)
  have hge : 2 ^ (Utils.mpGetNbits (val x) - 1) ≤ val x := by
    apply Utils.two_pow_le_of_lt_mpGetNbits
    have hpos : ¬Utils.mpGetNbits (val x) ≤ 0 := by
      rw [Utils.mpGetNbits_le_iff]
      omega
    omega
  have hfirst := getD_putBytes h x (show 0 < (mpGetNbits x + 8) / 8 by omega)
  have hbits := mpGetNbits_eq h x
  have h256 : ∀ k, 256 ^ k = 2 ^ (8 * k) := by
    intro k
    rw [pow_mul]
    rfl
  rw [valid_iff hne, length_putBytes, hfirst]
  rw [hbits] at *
  obtain ⟨m, r, hr, hnb⟩ : ∃ m r, r < 8 ∧ Utils.mpGetNbits (val x) = 8 * m + r :=
    ⟨_ / 8, _ % 8, Nat.mod_lt _ (by decide), (Nat.div_add_mod _ 8).symm⟩
  have hcount : (Utils.mpGetNbits (val x) + 8) / 8 = m + 1 := by omega
  rw [hcount]
  rw [hnb, Nat.pow_add, ← h256] at hlt
  have htop : val x / 256 ^ (m + 1 - 1 - 0) < 2 ^ r := Nat.div_lt_of_lt_mul hlt
  have hr7 : 2 ^ r ≤ 2 ^ 7 := Nat.pow_le_pow_right (by decide) (by omega)
  rw [Nat.mod_eq_of_lt (by omega)]
  refine ⟨by omega, ?_⟩
  intro hz
  rw [Nat.add_sub_cancel, Nat.sub_zero] at hz
  have hsmall : val x < 256 ^ m := by
    by_contra hbig
    have := (Nat.div_eq_zero_iff_lt (Nat.pow_pos (by decide))).mp hz
    omega
  -- the count is a multiple of 8, and the byte below has the top bit
  have hr0 : r = 0 := by
    have hle : Utils.mpGetNbits (val x) ≤ 8 * m := by rwa [Utils.mpGetNbits_le_iff, ← h256]
    omega
  have hm : m ≠ 0 := by
    intro h0
    rw [h0, Nat.pow_zero] at hsmall
    omega
  obtain ⟨k, rfl⟩ := Nat.exists_eq_succ_of_ne_zero hm
  have hsecond := getD_putBytes h x (show 1 < (Utils.mpGetNbits (val x) + 8) / 8 by omega)
  rw [hcount, show k.succ + 1 - 1 - 1 = k by omega] at hsecond
  rw [hsecond]
  rw [hnb, hr0, show 8 * k.succ + 0 - 1 = 8 * k + 7 by omega, Nat.pow_add, ← h256] at hge
  rw [Nat.succ_eq_add_one, Nat.pow_succ] at hsmall
  rw [Nat.mod_eq_of_lt (Nat.div_lt_of_lt_mul hsmall)]
  refine ⟨by omega, ?_⟩
  rw [Nat.le_div_iff_mul_le (Nat.pow_pos (by decide)), Nat.mul_comm]
  exact hge

theorem getMpSsh2_reads (h : Supported W) {x : Limbs W} (hx : val x ≠ 0) (hlen : (mpGetNbits x + 8) / 8 < 2 ^ 32) {src : BinarySource}
    {l : List UInt8} (hsrc : src.Reads (putMpSsh2 x ++ l)) : val (getMpSsh2 W src).1 = val x ∧ (getMpSsh2 W src).2.Reads l := by
  have hput : putMpSsh2 x = putString (putBytes x ((mpGetNbits x + 8) / 8)) := by
    unfold putString
    rw [length_putBytes]
    rfl
  rw [hput] at hsrc
  obtain ⟨hstring, hleft⟩ := BinarySource.getString_reads (by rwa [length_putBytes]) hsrc
  unfold getMpSsh2
  dsimp only
  rw [hleft.1, hstring, putBytes_valid h hx, if_neg Bool.false_ne_true, if_neg Bool.false_ne_true]
  refine ⟨?_, hleft⟩
  apply val_mpFromBytesBe_putBytes h
  apply lt_pow_of_bits
  rw [← mpGetNbits_eq h]
  omega

theorem put32_get32 {b : List UInt8} (hb : b.length = 4) : put32BitMsbFirst (BinarySource.get32BitMsbFirst b).toNat = b := by
  match b, hb with
  | [w, x, y, z], _ =>
    have hw := w.toNat_lt
    have hx := x.toNat_lt
    have hy := y.toNat_lt
    have hz := z.toNat_lt
    have hval : (BinarySource.get32BitMsbFirst [w, x, y, z]).toNat = ((w.toNat * 256 + x.toNat) * 256 + y.toNat) * 256 + z.toNat := by
      simp only [BinarySource.get32BitMsbFirst, List.foldl_cons, List.foldl_nil, UInt32.toNat_add, UInt32.toNat_mul, UInt8.toNat_toUInt32,
        UInt32.toNat_zero, UInt32.reduceToNat]
      omega
    have hbyte : ∀ (n : Nat) (c : UInt8), n % 256 = c.toNat → UInt8.ofNat n = c := by
      intro n c h
      apply UInt8.toNat.inj
      rw [UInt8.toNat_ofNat']
      exact h
    rw [hval]
    unfold put32BitMsbFirst
    rw [hbyte _ w (by omega), hbyte _ x (by omega), hbyte _ y (by omega), hbyte _ z (by omega)]

/-- A read that succeeds has its bytes in front of what is left. -/
theorem consume_some {src : BinarySource} {l b : List UInt8} {n : Nat} (hsrc : src.Reads l) (h : (src.consume n).1 = some b) :
    ∃ rest, b.length = n ∧ l = b ++ rest ∧ (src.consume n).2.Reads rest := by
  obtain ⟨herr, hdata⟩ := hsrc
  have hlen := BinarySource.consume_length h
  unfold BinarySource.consume at h ⊢
  rw [herr, if_neg Bool.false_ne_true] at h ⊢
  by_cases hn : n ≤ src.data.length - src.pos
  · rw [dif_pos hn] at h ⊢
    have hb : (src.data.drop src.pos).take n = b := Option.some_inj.mp h
    rw [hdata] at hb
    refine ⟨l.drop n, hlen, ?_, rfl, ?_⟩
    · rw [← hb, List.take_append_drop]
    · show src.data.drop (src.pos + n) = _
      rw [← List.drop_drop, hdata]
  · rw [dif_neg hn] at h
    cases h

/-- A string that was read stands after its length. -/
theorem getString_some {src : BinarySource} {l : List UInt8} (hsrc : src.Reads l) (h : src.getString.2.err = false) :
    ∃ rest, l = putString src.getString.1 ++ rest ∧ src.getString.2.Reads rest ∧ src.getString.1.length < 2 ^ 32 := by
  unfold BinarySource.getString at h ⊢
  rcases h1 : src.consume 4 with ⟨o, src1⟩
  rw [h1] at h
  cases o with
  | none =>
    have hshort := h1
    unfold BinarySource.consume at hshort
    rw [hsrc.1, if_neg Bool.false_ne_true] at hshort
    split at hshort
    · cases hshort
    · cases hshort
      cases h
  | some b =>
    obtain ⟨rest, hb, hl, hrest⟩ := consume_some hsrc (by rw [h1])
    rw [h1] at hrest
    dsimp only at h hrest ⊢
    rcases h2 : src1.consume (BinarySource.get32BitMsbFirst b).toNat with ⟨o, src2⟩
    rw [h2] at h
    cases o with
    | none =>
      have hshort := h2
      unfold BinarySource.consume at hshort
      rw [hrest.1, if_neg Bool.false_ne_true] at hshort
      split at hshort
      · cases hshort
      · cases hshort
        cases h
    | some s =>
      obtain ⟨rest2, hs, hl2, hrest2⟩ := consume_some hrest (by rw [h2])
      rw [h2] at hrest2
      dsimp only
      refine ⟨rest2, ?_, hrest2, by rw [hs]; exact UInt32.toNat_lt _⟩
      rw [hl, hl2, putString, hs, put32_get32 hb, List.append_assoc]

/-- An accepted string is the shortest, or has no bytes. -/
theorem getMpSsh2_accepts (h : Supported W) {src : BinarySource} {l : List UInt8} (hsrc : src.Reads l)
    (herr : (getMpSsh2 W src).2.err = false) :
    ∃ b rest, l = b ++ rest ∧ (getMpSsh2 W src).2.Reads rest ∧ (b ≠ put32BitMsbFirst 0 → putMpSsh2 (getMpSsh2 W src).1 = b) := by
  unfold getMpSsh2 at herr ⊢
  dsimp only at herr ⊢
  by_cases hfail : src.getString.2.err = true
  · rw [if_pos hfail, hfail] at herr
    cases herr
  · rw [if_neg hfail] at herr ⊢
    by_cases hinvalid : invalidMp src.getString.1 = true
    · rw [if_pos hinvalid] at herr
      cases herr
    · rw [if_neg hinvalid]
      obtain ⟨rest, hl, hrest, -⟩ := getString_some hsrc (Bool.not_eq_true _ |>.mp hfail)
      refine ⟨_, rest, hl, hrest, ?_⟩
      intro hne
      have hbytes : src.getString.1 ≠ [] := by
        intro h0
        rw [h0] at hne
        exact hne rfl
      have hcount := bytes_of_valid hbytes (Bool.not_eq_true _ |>.mp hinvalid)
      dsimp only
      rw [putMpSsh2, mpGetNbits_eq h, putBytes_eq h, (mpFromBytesBe_spec h _).2, hcount, Utils.bytes_mpFromBytesBe]
      rfl

/-! ## Round trips -/

theorem wire_round_trip (h : Supported W) (x : Limbs W) :
    (mpGetNbits x < 0x10000 → ∃ b, putMpSsh1 x = some b ∧ ∀ src l, BinarySource.Reads src (b ++ l) →
      val (getMpSsh1 W src).1 = val x ∧ (getMpSsh1 W src).2.Reads l) ∧
    (¬mpGetNbits x < 0x10000 → putMpSsh1 x = none) ∧
    (val x ≠ 0 → (mpGetNbits x + 8) / 8 < 2 ^ 32 → ∀ src l, BinarySource.Reads src (putMpSsh2 x ++ l) →
      val (getMpSsh2 W src).1 = val x ∧ (getMpSsh2 W src).2.Reads l) ∧
    ∀ src l, BinarySource.Reads src l → (getMpSsh2 W src).2.err = false →
      ∃ b rest, l = b ++ rest ∧ (getMpSsh2 W src).2.Reads rest ∧ (b ≠ put32BitMsbFirst 0 → putMpSsh2 (getMpSsh2 W src).1 = b) := by
  refine ⟨?_, ?_, ?_, ?_⟩
  · intro hbits
    refine ⟨_, if_pos hbits, ?_⟩
    intro src l hsrc
    exact getMpSsh1_reads h hbits hsrc
  · exact putMpSsh1_wide
  · intro hx hlen src l hsrc
    exact getMpSsh2_reads h hx hlen hsrc
  · intro src l hsrc herr
    exact getMpSsh2_accepts h hsrc herr

theorem wire_round_trip_128 :
    val (getMpSsh2 16 (BinarySource.ofData (putMpSsh2 ([128] : Limbs 16) ++ []))).1 = val ([128] : Limbs 16) ∧
      (getMpSsh2 16 (BinarySource.ofData (putMpSsh2 ([128] : Limbs 16) ++ []))).2.Reads [] :=
  (wire_round_trip (.inl rfl) ([128] : Limbs 16)).2.2.1 (by decide) (by decide) _ [] (BinarySource.ofData_reads _)

theorem mpGetNbits_top_word (h : Supported W) (n : Nat) {w : BitVec W} (hw : w.toNat ≠ 0) :
    mpGetNbits (List.replicate n 0 ++ [w]) = W * n + Nat.log2 w.toNat + 1 := by
  have hval : val (List.replicate n 0 ++ [w]) = 0 + 2 ^ (W * n) * w.toNat := by
    rw [val_append, val_replicate_zero, List.length_replicate, ← pow_mul, val_cons, val_nil, Nat.mul_zero, Nat.add_zero]
  have hpos := Nat.mul_pos (Nat.two_pow_pos (W * n)) (Nat.pos_of_ne_zero hw)
  rw [mpGetNbits_eq h, hval]
  unfold Utils.mpGetNbits
  rw [if_neg (by omega), log2_of_split hw (Nat.two_pow_pos _)]

/-- A number of 65536 bits has no SSH-1 form, and 0 written for SSH-2 is refused. -/
theorem wide_number_not_written :
    putMpSsh1 (List.replicate 4095 0 ++ [0x8000] : Limbs 16) = none ∧
      (getMpSsh2 16 (BinarySource.ofData (putMpSsh2 ([0] : Limbs 16)))).2.err = true := by
  refine ⟨putMpSsh1_wide ?_, by decide⟩
  rw [mpGetNbits_top_word (.inl rfl) 4095 (by decide)]
  decide

end Putty.Mpint
