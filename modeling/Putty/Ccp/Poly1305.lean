/-
  Putty.Ccp.Poly1305 — the Poly1305 MAC (`sshccp.c`, struct poly1305 and its functions).

  A message is fed in any pieces; what does not fill a block of 16 bytes waits in the
  buffer. The lengths are ints in the C code and natural numbers here.

  Proved: for every key, every message and every split of it, the result is the sum of the
  blocks times the powers of r, modulo 2^130-5, plus the nonce, modulo 2^128
  (`poly1305_tag`). The accumulator stays below 2^131 (`Holds`), so a block added to it is
  a number that bigval_mul_mod_p multiplies without losing a carry.
-/

import Mathlib.Algebra.BigOperators.Intervals
import Mathlib.Algebra.BigOperators.Ring.Finset
import Mathlib.Tactic.IntervalCases
import Putty.Ccp.Bigval
import Putty.Lib.Blocks

namespace Putty.Ccp

open Putty.Lib Putty.Lib.Limbs Putty.Mpint

variable {W : Nat}

/-- struct poly1305. -/
structure Poly1305 (W : Nat) where
  nonce : List UInt8
  r : Limbs W
  h : Limbs W
  buffer : List UInt8
  bufferIndex : Nat
  buffer_size : buffer.length = 16

def poly1305Init (ctx : Poly1305 W) : Poly1305 W :=
  { ctx with nonce := List.replicate 16 0, bufferIndex := 0, h := bigvalClear W }

/-- The bits of the key that r must have clear. -/
def clampKey (keyCopy : List UInt8) : List UInt8 :=
  let keyCopy := [3, 7, 11, 15].foldl (fun keyCopy i => keyCopy.modify i (· &&& 0x0f)) keyCopy
  [4, 8, 12].foldl (fun keyCopy i => keyCopy.modify i (· &&& 0xfc)) keyCopy

/-- none is the failed assertion. -/
def poly1305Key (ctx : Poly1305 W) (key : List UInt8) : Option (Poly1305 W) :=
  if key.length = 32 then
    some { ctx with r := bigvalImportLe W (clampKey (key.take 16)), nonce := (key.drop 16).take 16 }
  else none

def poly1305FeedChunk (ctx : Poly1305 W) (chunk : List UInt8) (len : Nat) : Poly1305 W :=
  let c := bigvalImportLe W (chunk.take len)
  let c := c.set (len / (W / 8)) (mpWord c (len / (W / 8)) ||| BitVec.ofNat W 1 <<< (8 * (len % (W / 8))))
  let c := bigvalAdd c ctx.h
  { ctx with h := bigvalMulModP c ctx.r }

/-- The loop that tries to fill the buffer, and what it leaves of the input. -/
def fillBuffer (ctx : Poly1305 W) : List UInt8 → Poly1305 W × List UInt8
  | [] => (ctx, [])
  | b :: buf =>
    if ctx.bufferIndex < 16 then
      fillBuffer
        { ctx with
          buffer := ctx.buffer.set ctx.bufferIndex b
          bufferIndex := ctx.bufferIndex + 1
          buffer_size := by rw [List.length_set, ctx.buffer_size] }
        buf
    else (ctx, b :: buf)

/-- The loop over the whole chunks of the input. -/
def wholeChunks (ctx : Poly1305 W) (buf : List UInt8) : Poly1305 W × List UInt8 :=
  if 16 ≤ buf.length then wholeChunks (poly1305FeedChunk ctx buf 16) (buf.drop 16) else (ctx, buf)
termination_by buf.length
decreasing_by
  rw [List.length_drop]
  omega

/-- memcpy to the start of the buffer, which has room for 16 bytes. -/
def cache (ctx : Poly1305 W) (buf : List UInt8) : Poly1305 W :=
  { ctx with
    buffer := buf.take 16 ++ ctx.buffer.drop buf.length
    bufferIndex := buf.length
    buffer_size := by
      rw [List.length_append, List.length_take, List.length_drop, ctx.buffer_size]
      omega }

def poly1305Feed (ctx : Poly1305 W) (buf : List UInt8) : Poly1305 W :=
  let (ctx, buf) :=
    if ctx.bufferIndex ≠ 0 then
      let (ctx, buf) := fillBuffer ctx buf
      if ctx.bufferIndex = 16 then ({ poly1305FeedChunk ctx ctx.buffer 16 with bufferIndex := 0 }, buf) else (ctx, buf)
    else (ctx, buf)
  let (ctx, buf) := wholeChunks ctx buf
  if buf.length ≠ 0 then cache ctx buf else ctx

/-- The context afterwards and the MAC. -/
def poly1305Finalise (ctx : Poly1305 W) : Poly1305 W × List UInt8 :=
  let ctx := if ctx.bufferIndex ≠ 0 then poly1305FeedChunk ctx ctx.buffer ctx.bufferIndex else ctx
  let tmp := bigvalImportLe W ctx.nonce
  let ctx := { ctx with h := bigvalFinalReduce ctx.h }
  (ctx, bigvalExportLe (bigvalAdd tmp ctx.h) 16)

/-- A message under a key, in pieces. -/
def poly1305 (ctx : Poly1305 W) (key : List UInt8) (bufs : List (List UInt8)) : Option (List UInt8) :=
  (poly1305Key (poly1305Init ctx) key).map fun ctx => (poly1305Finalise (bufs.foldl poly1305Feed ctx)).2

/-! ## What the MAC is -/

/-- The multiplier: the first half of the key, some of its bits cleared. -/
def clamped (key : List UInt8) : Nat := leNumber (key.take 16) &&& 0x0ffffffc0ffffffc0ffffffc0fffffff

/-- A block with a one bit after its last byte. -/
def blockNumber (block : List UInt8) : Nat := leNumber block + 256 ^ block.length

def tagNumber (key msg : List UInt8) : Nat :=
  let n := (msg.length + 15) / 16
  ((∑ i ∈ Finset.range n, blockNumber ((msg.drop (16 * i)).take 16) * clamped key ^ (n - i)) % p1305 + leNumber (key.drop 16)) % 2 ^ 128

/-- The blocks one after the other. -/
def accumulate (r acc : Nat) (cs : List (List UInt8)) : Nat := cs.foldl (fun acc c => (acc + blockNumber c) * r) acc

theorem accumulate_cons (r acc : Nat) (c : List UInt8) (cs : List (List UInt8)) :
    accumulate r acc (c :: cs) = accumulate r ((acc + blockNumber c) * r) cs := rfl

theorem accumulate_append (r acc : Nat) (cs ds : List (List UInt8)) :
    accumulate r acc (cs ++ ds) = accumulate r (accumulate r acc cs) ds := List.foldl_append

theorem accumulate_sum (r acc n : Nat) (f : Nat → List UInt8) :
    accumulate r acc ((List.range n).map f) = acc * r ^ n + ∑ i ∈ Finset.range n, blockNumber (f i) * r ^ (n - i) := by
  induction n with
  | zero => simp [accumulate]
  | succ n ih =>
    have hshift : ∑ i ∈ Finset.range n, blockNumber (f i) * r ^ (n + 1 - i) =
        (∑ i ∈ Finset.range n, blockNumber (f i) * r ^ (n - i)) * r := by
      rw [Finset.sum_mul]
      apply Finset.sum_congr rfl
      intro i hi
      rw [show n + 1 - i = n - i + 1 by have := Finset.mem_range.mp hi; omega, Nat.pow_succ, Nat.mul_assoc]
    rw [List.range_succ, List.map_append, accumulate_append, ih, Finset.sum_range_succ, hshift, show n + 1 - n = 1 by omega]
    show (_ + blockNumber (f n)) * r = _
    ring

theorem tagNumber_eq (key msg : List UInt8) :
    tagNumber key msg = (accumulate (clamped key) 0 (blocks 16 msg) % p1305 + leNumber (key.drop 16)) % 2 ^ 128 := by
  rw [blocks_eq (by decide), accumulate_sum, Nat.zero_mul, Nat.zero_add]
  rfl

/-! ## The key -/

/-- Bitwise and, a byte and the rest. -/
theorem byte_and {b m x y : Nat} (hb : b < 256) (hm : m < 256) : (b + 256 * x) &&& (m + 256 * y) = (b &&& m) + 256 * (x &&& y) := by
  have hmod : ((b + 256 * x) &&& (m + 256 * y)) % 2 ^ 8 = b &&& m := by
    rw [Nat.and_mod_two_pow, Nat.add_mul_mod_self_left, Nat.add_mul_mod_self_left, Nat.mod_eq_of_lt hb, Nat.mod_eq_of_lt hm]
  have hdiv : ((b + 256 * x) &&& (m + 256 * y)) / 2 ^ 8 = x &&& y := by
    rw [Nat.and_div_two_pow, Nat.add_mul_div_left _ _ (by decide), Nat.add_mul_div_left _ _ (by decide), Nat.div_eq_of_lt hb,
      Nat.div_eq_of_lt hm, Nat.zero_add, Nat.zero_add]
  rw [← hmod, ← hdiv]
  exact (Nat.mod_add_div _ _).symm

theorem leNumber_and {data mask : List UInt8} (h : data.length = mask.length) :
    leNumber (List.zipWith (· &&& ·) data mask) = leNumber data &&& leNumber mask := by
  induction data generalizing mask with
  | nil => simp
  | cons b data ih =>
    cases mask with
    | nil => exact absurd h (Nat.succ_ne_zero _)
    | cons m mask =>
      rw [List.zipWith_cons_cons, leNumber_cons, leNumber_cons, leNumber_cons, ih (Nat.succ.inj h), UInt8.toNat_and,
        byte_and b.toNat_lt m.toNat_lt]

/-- The bits that stay, byte by byte. -/
def clampMask : List UInt8 := [0xff, 0xff, 0xff, 0x0f, 0xfc, 0xff, 0xff, 0x0f, 0xfc, 0xff, 0xff, 0x0f, 0xfc, 0xff, 0xff, 0x0f]

theorem clampKey_eq {keyCopy : List UInt8} (h : keyCopy.length = 16) : clampKey keyCopy = List.zipWith (· &&& ·) keyCopy clampMask := by
  have hall : ∀ b : UInt8, b &&& 0xff = b := by
    intro b
    apply UInt8.toNat.inj
    rw [UInt8.toNat_and]
    exact (Nat.and_two_pow_sub_one_eq_mod b.toNat 8).trans (Nat.mod_eq_of_lt b.toNat_lt)
  apply List.ext_getElem
  · simp [clampKey, clampMask, h]
  · intro i h1 h2
    have hi : i < 16 := by
      rw [List.length_zipWith, h] at h2
      omega
    simp only [clampKey, List.foldl_cons, List.foldl_nil, List.getElem_modify, List.getElem_zipWith]
    interval_cases i <;> simp [clampMask, hall]

theorem leNumber_clampKey {key : List UInt8} (h : 16 ≤ key.length) : leNumber (clampKey (key.take 16)) = clamped key := by
  have hlen : (key.take 16).length = 16 := List.length_take_of_le h
  rw [clampKey_eq hlen, leNumber_and hlen]
  rfl

theorem clamped_lt (key : List UInt8) : clamped key < 2 ^ 124 := by
  apply Nat.lt_of_le_of_lt Nat.and_le_right
  decide

/-! ## The accumulator -/

/-- The context stands for the number `acc` under this key; the bound leaves room for the next block. -/
structure Holds (key : List UInt8) (acc : Nat) (ctx : Poly1305 W) : Prop where
  nonce_eq : ctx.nonce = key.drop 16
  r_val : val ctx.r = clamped key
  h_size : ctx.h.length = nwords W
  h_lt : val ctx.h < 2 ^ 131
  h_mod : val ctx.h ≡ acc [MOD p1305]

theorem folded_lt {n : Nat} (h : n < 2 ^ 256) : folded n < 2 ^ 131 := by
  unfold folded
  omega

theorem blockNumber_lt {block : List UInt8} (h : block.length ≤ 16) : blockNumber block < 2 ^ 129 := by
  have hlt := leNumber_lt block
  have hpow : 256 ^ block.length ≤ 256 ^ 16 := Nat.pow_le_pow_right (by decide) h
  unfold blockNumber
  omega

/-- The words of a block with the one bit put in. -/
theorem block_words (hW : Supported W) {block : List UInt8} (h : block.length ≤ 16) {c : Limbs W}
    (hc : c = (bigvalImportLe W block).set (block.length / (W / 8))
      (mpWord (bigvalImportLe W block) (block.length / (W / 8)) ||| BitVec.ofNat W 1 <<< (8 * (block.length % (W / 8))))) :
    c.length = nwords W ∧ val c = blockNumber block := by
  obtain ⟨hY, hpos⟩ := hW.bytes
  obtain ⟨hlen, hval⟩ := bigvalImportLe_spec hW h
  have hlt := leNumber_lt block
  have hone : 1 = blockNumber block / 256 ^ block.length % 256 := by
    rw [blockNumber, Nat.add_div_right _ (Nat.pow_pos (by decide)), Nat.div_eq_of_lt hlt]
  have hlow : val (bigvalImportLe W block) = blockNumber block % 256 ^ block.length := by
    rw [hval, blockNumber, Nat.add_mod_right, Nat.mod_eq_of_lt hlt]
  have hstore := store_part hY hpos (by rw [hlen]; exact words_room hW h) hlow hone
  have hfits : blockNumber block < 256 ^ (block.length + 1) := by
    rw [blockNumber, Nat.pow_succ]
    omega
  rw [hc, List.length_set, hlen]
  exact ⟨rfl, hstore.trans (Nat.mod_eq_of_lt hfits)⟩

theorem feedChunk_holds (hW : Supported W) {key : List UInt8} {acc : Nat} {ctx : Poly1305 W} (hctx : Holds key acc ctx)
    {chunk : List UInt8} {len : Nat} (hlen : len ≤ 16) (hchunk : len ≤ chunk.length) :
    Holds key ((acc + blockNumber (chunk.take len)) * clamped key) (poly1305FeedChunk ctx chunk len) := by
  have htake : (chunk.take len).length = len := List.length_take_of_le hchunk
  have hblock : (chunk.take len).length ≤ 16 := by omega
  have hb := blockNumber_lt hblock
  have hr := clamped_lt key
  have hh := hctx.h_lt
  obtain ⟨hclen, hc⟩ := block_words hW hblock rfl
  rw [htake] at hclen hc
  obtain ⟨hslen, hs⟩ := bigvalAdd_spec hW hclen hctx.h_size (by rw [hc]; omega)
  rw [hc] at hs
  obtain ⟨hmlen, hm⟩ := bigvalMulModP_spec hW (b := ctx.r) (by rw [hs]; omega) (by rw [hctx.r_val]; omega)
  rw [hs, hctx.r_val] at hm
  have hprod : (blockNumber (chunk.take len) + val ctx.h) * clamped key < 2 ^ 132 * 2 ^ 124 := Nat.mul_lt_mul'' (by omega) hr
  refine ⟨hctx.nonce_eq, hctx.r_val, hmlen, ?_, ?_⟩
  · rw [poly1305FeedChunk, hm]
    exact folded_lt (Nat.lt_of_lt_of_eq hprod (by decide))
  · rw [poly1305FeedChunk, hm, Nat.add_comm acc]
    exact (folded_modEq _).trans ((hctx.h_mod.add_left _).mul_right _)

theorem wholeChunks_spec (hW : Supported W) {key : List UInt8} {acc : Nat} {ctx : Poly1305 W} (hctx : Holds key acc ctx)
    (buf : List UInt8) :
    Holds key (accumulate (clamped key) acc (whole 16 buf)) (wholeChunks ctx buf).1 ∧ (wholeChunks ctx buf).2 = rest 16 buf ∧
      (wholeChunks ctx buf).1.bufferIndex = ctx.bufferIndex := by
  fun_induction wholeChunks ctx buf generalizing acc with
  | case1 ctx buf h ih =>
    obtain ⟨hholds, hrest, hindex⟩ := ih (feedChunk_holds hW hctx (Nat.le_refl 16) h)
    rw [whole.eq_def, if_pos ⟨by decide, h⟩, rest.eq_def, if_pos ⟨by decide, h⟩, accumulate_cons]
    exact ⟨hholds, hrest, hindex⟩
  | case2 ctx buf h => exact ⟨by rwa [whole_short (Nat.not_le.mp h)], (rest_short (Nat.not_le.mp h)).symm, rfl⟩

theorem wholeChunks_nil (ctx : Poly1305 W) : wholeChunks ctx [] = (ctx, []) := by
  rw [wholeChunks, if_neg (by decide)]

/-! ## Feeding -/

/-- What has been fed so far: its whole blocks are in the accumulator, the rest waits in the buffer. -/
structure Fed (key msg : List UInt8) (ctx : Poly1305 W) : Prop where
  holds : Holds key (accumulate (clamped key) 0 (whole 16 msg)) ctx
  held : ctx.buffer.take ctx.bufferIndex = rest 16 msg
  index : ctx.bufferIndex = (rest 16 msg).length

/-- The loop takes as many bytes as there is room for, or as there are. -/
theorem fillBuffer_spec {key : List UInt8} {acc : Nat} {ctx : Poly1305 W} (hctx : Holds key acc ctx) (hidx : ctx.bufferIndex ≤ 16)
    (buf : List UInt8) {t : Nat} (ht : t = min (16 - ctx.bufferIndex) buf.length) :
    Holds key acc (fillBuffer ctx buf).1 ∧ (fillBuffer ctx buf).2 = buf.drop t ∧
      (fillBuffer ctx buf).1.bufferIndex = ctx.bufferIndex + t ∧
      (fillBuffer ctx buf).1.buffer.take (ctx.bufferIndex + t) = ctx.buffer.take ctx.bufferIndex ++ buf.take t := by
  induction buf generalizing ctx t with
  | nil =>
    rw [List.length_nil, Nat.min_zero] at ht
    subst ht
    exact ⟨hctx, rfl, rfl, by simp [fillBuffer]⟩
  | cons b buf ih =>
    unfold fillBuffer
    by_cases hroom : ctx.bufferIndex < 16
    · rw [if_pos hroom]
      obtain ⟨u, rfl⟩ : ∃ u, t = u + 1 := ⟨t - 1, by rw [List.length_cons] at ht; omega⟩
      have hnext : Holds key acc
          { ctx with
            buffer := ctx.buffer.set ctx.bufferIndex b
            bufferIndex := ctx.bufferIndex + 1
            buffer_size := by rw [List.length_set, ctx.buffer_size] } :=
        ⟨hctx.nonce_eq, hctx.r_val, hctx.h_size, hctx.h_lt, hctx.h_mod⟩
      have hu : u = min (16 - (ctx.bufferIndex + 1)) buf.length := by
        rw [List.length_cons] at ht
        omega
      obtain ⟨hholds, hrest, hindex, htake⟩ := ih hnext hroom hu
      refine ⟨hholds, hrest, ?_, ?_⟩
      · rw [hindex]
        show ctx.bufferIndex + 1 + u = _
        omega
      · have hset : (ctx.buffer.set ctx.bufferIndex b).take (ctx.bufferIndex + 1) = ctx.buffer.take ctx.bufferIndex ++ [b] := by
          rw [List.take_succ_eq_append_getElem (by rw [List.length_set, ctx.buffer_size]; exact hroom), List.take_set_of_le (Nat.le_refl _),
            List.getElem_set_self]
        rw [show ctx.bufferIndex + (u + 1) = ctx.bufferIndex + 1 + u by omega, htake, hset, List.append_assoc]
        rfl
    · rw [if_neg hroom]
      have hzero : t = 0 := by omega
      subst hzero
      exact ⟨hctx, rfl, rfl, by simp⟩

/-- The second half of a feed, once the buffer is empty. -/
theorem chunks_fed (hW : Supported W) {key msg : List UInt8} {ctx : Poly1305 W} (hctx : Fed key msg ctx) (hempty : ctx.bufferIndex = 0)
    (buf : List UInt8) {next : Poly1305 W × List UInt8} (hnext : next = wholeChunks ctx buf) :
    Fed key (msg ++ buf) (if next.2.length ≠ 0 then cache next.1 next.2 else next.1) := by
  have hnil : rest 16 msg = [] := List.eq_nil_of_length_eq_zero (hctx.index.symm.trans hempty)
  have hwhole : whole 16 (msg ++ buf) = whole 16 msg ++ whole 16 buf := by rw [whole_append (by decide), hnil, List.nil_append]
  have hrest : rest 16 (msg ++ buf) = rest 16 buf := by rw [rest_append (by decide), hnil, List.nil_append]
  have hshort := length_rest_lt (n := 16) (by decide) buf
  obtain ⟨hholds, hleft, hindex⟩ := wholeChunks_spec hW hctx.holds buf
  rw [← accumulate_append, ← hwhole, ← hnext] at hholds
  rw [← hnext] at hleft hindex
  rw [hleft]
  by_cases hlen : (rest 16 buf).length = 0
  · rw [if_neg (not_not.mpr hlen)]
    refine ⟨hholds, ?_, by rw [hindex, hempty, hrest, hlen]⟩
    rw [hindex, hempty, hrest, List.take_zero, List.eq_nil_of_length_eq_zero hlen]
  · rw [if_pos hlen]
    refine ⟨⟨hholds.nonce_eq, hholds.r_val, hholds.h_size, hholds.h_lt, hholds.h_mod⟩, ?_, by rw [hrest]; rfl⟩
    show ((rest 16 buf).take 16 ++ next.1.buffer.drop (rest 16 buf).length).take (rest 16 buf).length = _
    rw [List.take_of_length_le (Nat.le_of_lt hshort), List.take_left' rfl, hrest]

/-- One call feeds what it is given. -/
theorem feed_fed (hW : Supported W) {key msg : List UInt8} {ctx : Poly1305 W} (hctx : Fed key msg ctx) (buf : List UInt8) :
    Fed key (msg ++ buf) (poly1305Feed ctx buf) := by
  have hshort := length_rest_lt (n := 16) (by decide) msg
  have hidx : ctx.bufferIndex < 16 := by rw [hctx.index]; exact hshort
  unfold poly1305Feed
  by_cases hempty : ctx.bufferIndex = 0
  · rw [if_neg (not_not.mpr hempty)]
    exact chunks_fed hW hctx hempty buf rfl
  · obtain ⟨hholds, hleft, hindex, htake⟩ := fillBuffer_spec hctx.holds (Nat.le_of_lt hidx) buf rfl
    rw [hctx.held] at htake
    rw [if_pos hempty]
    dsimp only
    by_cases hfull : 16 - ctx.bufferIndex ≤ buf.length
    · -- the buffer is a block: what it held and the start of the input
      rw [Nat.min_eq_left hfull] at hleft hindex htake
      rw [show ctx.bufferIndex + (16 - ctx.bufferIndex) = 16 by omega] at hindex htake
      have hblock : (rest 16 msg ++ buf.take (16 - ctx.bufferIndex)).length = 16 := by
        rw [List.length_append, ← hctx.index, List.length_take]
        omega
      obtain ⟨hwhole, hrest⟩ := append_full (by decide) hblock
      have hchunk := feedChunk_holds hW hholds (Nat.le_refl 16) (Nat.le_of_eq (fillBuffer ctx buf).1.buffer_size.symm)
      rw [htake] at hchunk
      have hfed : Fed key (msg ++ buf.take (16 - ctx.bufferIndex))
          { poly1305FeedChunk (fillBuffer ctx buf).1 (fillBuffer ctx buf).1.buffer 16 with bufferIndex := 0 } := by
        refine ⟨?_, by rw [hrest, List.take_zero], by rw [hrest]; rfl⟩
        rw [hwhole, accumulate_append]
        exact ⟨hchunk.nonce_eq, hchunk.r_val, hchunk.h_size, hchunk.h_lt, hchunk.h_mod⟩
      rw [if_pos hindex, hleft]
      have hnext := chunks_fed hW hfed rfl (buf.drop (16 - ctx.bufferIndex)) rfl
      rwa [List.append_assoc, List.take_append_drop] at hnext
    · -- all of the input fits in the buffer
      rw [Nat.min_eq_right (by omega)] at hleft hindex htake
      rw [List.drop_length] at hleft
      rw [List.take_length] at htake
      have hlen : (rest 16 msg ++ buf).length = ctx.bufferIndex + buf.length := by rw [List.length_append, ← hctx.index]
      obtain ⟨hwhole, hrest⟩ := append_short (by decide) (show (rest 16 msg ++ buf).length < 16 by omega)
      have hroom : (fillBuffer ctx buf).1.bufferIndex ≠ 16 := by omega
      rw [if_neg hroom, hleft, wholeChunks_nil]
      show Fed key (msg ++ buf) (fillBuffer ctx buf).1
      refine ⟨by rwa [hwhole], by rw [hindex, htake, hrest], by rw [hindex, hrest, hlen]⟩

theorem feeds_fed (hW : Supported W) {key msg : List UInt8} {ctx : Poly1305 W} (hctx : Fed key msg ctx) (bufs : List (List UInt8)) :
    Fed key (msg ++ bufs.flatten) (bufs.foldl poly1305Feed ctx) := by
  induction bufs generalizing msg ctx with
  | nil => rwa [List.flatten_nil, List.append_nil]
  | cons buf bufs ih =>
    have hnext := ih (feed_fed hW hctx buf)
    rwa [List.append_assoc] at hnext

theorem key_fed (hW : Supported W) (ctx : Poly1305 W) {key : List UInt8} (hkey : key.length = 32) :
    ∃ keyed, poly1305Key (poly1305Init ctx) key = some keyed ∧ Fed key [] keyed := by
  refine ⟨_, if_pos hkey, ⟨⟨?_, ?_, ?_, ?_, ?_⟩, ?_, ?_⟩⟩
  · apply List.take_of_length_le
    rw [List.length_drop]
    omega
  · have hlen : (clampKey (key.take 16)).length ≤ 16 := by
      simp [clampKey]
    exact (bigvalImportLe_spec hW hlen).2.trans (leNumber_clampKey (by omega))
  · exact length_bigvalClear
  · show val (bigvalClear W) < _
    rw [bigvalClear, val_replicate_zero]
    decide
  · show val (bigvalClear W) ≡ _ [MOD p1305]
    rw [bigvalClear, val_replicate_zero, whole_short (by decide)]
    rfl
  · rw [rest_short (by decide)]
    rfl
  · rw [rest_short (by decide)]
    rfl

/-- The result for what has been fed. -/
theorem finalise_fed (hW : Supported W) {key msg : List UInt8} (hkey : key.length = 32) {ctx : Poly1305 W} (hctx : Fed key msg ctx) :
    (poly1305Finalise ctx).2 = leBytes 16 (tagNumber key msg) := by
  have hshort := length_rest_lt (n := 16) (by decide) msg
  have hlast : Holds key (accumulate (clamped key) 0 (blocks 16 msg))
      (if ctx.bufferIndex ≠ 0 then poly1305FeedChunk ctx ctx.buffer ctx.bufferIndex else ctx) := by
    by_cases hempty : ctx.bufferIndex = 0
    · have hnil : rest 16 msg = [] := List.eq_nil_of_length_eq_zero (hctx.index.symm.trans hempty)
      rw [if_neg (not_not.mpr hempty), blocks, if_pos hnil, List.append_nil]
      exact hctx.holds
    · have hne : rest 16 msg ≠ [] := fun hnil => hempty (by rw [hctx.index, hnil]; rfl)
      have hlen : ctx.bufferIndex ≤ 16 := by
        rw [hctx.index]
        omega
      have hchunk := feedChunk_holds hW hctx.holds hlen (hlen.trans_eq ctx.buffer_size.symm)
      rw [hctx.held] at hchunk
      rw [if_pos hempty, blocks, if_neg hne, accumulate_append]
      exact hchunk
  unfold poly1305Finalise
  generalize (if ctx.bufferIndex ≠ 0 then poly1305FeedChunk ctx ctx.buffer ctx.bufferIndex else ctx) = last at hlast ⊢
  have hh := hlast.h_lt
  obtain ⟨hrlen, hr⟩ := bigvalFinalReduce_spec hW hlast.h_size (by omega)
  rw [hlast.h_mod] at hr
  have hnonce : last.nonce.length ≤ 16 := by
    rw [hlast.nonce_eq, List.length_drop]
    omega
  obtain ⟨hnlen, hn⟩ := bigvalImportLe_spec hW hnonce
  have hnlt := leNumber_lt last.nonce
  have hpow : 256 ^ last.nonce.length ≤ 256 ^ 16 := Nat.pow_le_pow_right (by decide) hnonce
  have hrlt := Nat.mod_lt (accumulate (clamped key) 0 (blocks 16 msg)) (show 0 < p1305 by decide)
  obtain ⟨-, hs⟩ := bigvalAdd_spec hW hnlen hrlen (by
    rw [hn, hr]
    unfold p1305 at *
    omega)
  show bigvalExportLe (bigvalAdd (bigvalImportLe W last.nonce) (bigvalFinalReduce last.h)) 16 = _
  rw [bigvalExportLe_eq hW, hs, hn, hr, tagNumber_eq, hlast.nonce_eq, Nat.add_comm, show 2 ^ 128 = 256 ^ 16 from rfl, leBytes_mod]

theorem poly1305_tag (hW : Supported W) (ctx : Poly1305 W) {key : List UInt8} (hkey : key.length = 32) (bufs : List (List UInt8)) :
    poly1305 ctx key bufs = some (leBytes 16 (tagNumber key bufs.flatten)) := by
  obtain ⟨keyed, hkeyed, hfed⟩ := key_fed hW ctx hkey
  rw [poly1305, hkeyed, Option.map_some, finalise_fed hW hkey (feeds_fed hW hfed bufs), List.nil_append]

def sampleKey : List UInt8 :=
  [0x85, 0xd6, 0xbe, 0x78, 0x57, 0x55, 0x6d, 0x33, 0x7f, 0x44, 0x52, 0xfe, 0x42, 0xd5, 0x06, 0xa8,
    0x01, 0x03, 0x80, 0x8a, 0xfb, 0x0d, 0xb2, 0xfd, 0x4a, 0xbf, 0xf6, 0xaf, 0x41, 0x49, 0xf5, 0x1b]

/-- "Cryptographic " and "Forum Research Group", fed one after the other. -/
theorem sample_tag :
    poly1305 (⟨[], [], [], List.replicate 16 0xcc, 7, rfl⟩ : Poly1305 64) sampleKey
      [[0x43, 0x72, 0x79, 0x70, 0x74, 0x6f, 0x67, 0x72, 0x61, 0x70, 0x68, 0x69, 0x63, 0x20],
        [0x46, 0x6f, 0x72, 0x75, 0x6d, 0x20, 0x52, 0x65, 0x73, 0x65, 0x61, 0x72, 0x63, 0x68, 0x20, 0x47, 0x72, 0x6f, 0x75, 0x70]] =
      some [0xa8, 0x06, 0x1d, 0xc1, 0x30, 0x51, 0x36, 0xc6, 0xc2, 0x2b, 0x8b, 0xaf, 0x0c, 0x01, 0x27, 0xa9] :=
  (poly1305_tag (.inr (.inr rfl)) _ rfl _).trans (by decide +kernel)

end Putty.Ccp
