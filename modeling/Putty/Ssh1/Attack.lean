/-
  Putty.Ssh1.Attack — the checksum of SSH-1 packets (`sshcrc.c`) and the detector of CRC
  compensation attacks (`sshcrcda.c`).

  A position in the hash table is an index, and its contents are rebuilt at each call, so
  that of a context there is only the size. `none` is a failed assertion, or a search that
  goes round the table for ever: `detectAttack_isSome` says that the length is all there
  is to assert.
-/

import Putty.Utils.BinarySink

namespace Putty.Ssh1

open Putty.Utils

/-! ## crc32_update -/

def crc32Shift4 (v : UInt32) : UInt32 :=
  let m := v &&& 0xF
  (v >>> 4) ^^^ (0x11111044 * m) ^^^ (0x08840020 * m) ^^^ (0x04220000 * m)

def crc32Shift8 (v : UInt32) : UInt32 := crc32Shift4 (crc32Shift4 v)

def crc32Update (crc : UInt32) (data : List UInt8) : UInt32 :=
  data.foldl (fun crc p => crc32Shift8 (crc ^^^ p.toUInt32)) crc

def crc32Ssh1 (data : List UInt8) : UInt32 := crc32Update 0 data

/-! ## detect_attack -/

def maxblocks : Nat := 32 * 1024
def blocksize : Nat := 8
def hashMinblocks : Nat := 7 * blocksize
def hashUnused : Nat := 0xffff
def hashIv : Nat := 0xfffe

/-- HASH_FACTOR. -/
def hashFactor (x : Nat) : Nat := x * 3 / 2

/-- HASH_MINSIZE / HASH_ENTRYSIZE. -/
def hashMinentries : Nat := 8 * 1024 / 2

/-- The block at `buf + j * SSH_BLOCKSIZE`. -/
def block (buf : List UInt8) (j : Nat) : List UInt8 := (buf.drop (blocksize * j)).take blocksize

/-- HASH. -/
def hash (x : List UInt8) : Nat := (BinarySource.get32BitMsbFirst (x.take 4)).toNat

def ONE : List UInt8 := [1, 0, 0, 0]
def ZERO : List UInt8 := [0, 0, 0, 0]

def checkCrc (s buf iv : List UInt8) : Bool :=
  let crc := if s = iv then crc32Update (crc32Update 0 ONE) ZERO else 0
  (List.range (buf.length / blocksize)).foldl (fun crc j =>
    if s = block buf j then crc32Update (crc32Update crc ONE) ZERO else crc32Update (crc32Update crc ZERO) ZERO) crc = 0

/-- The inner loop of the search without a table, over `d`. -/
def innerScan (buf iv c : List UInt8) : List Nat → Bool
  | [] => false
  | d :: ds => if c = block buf d then checkCrc c buf iv else innerScan buf iv c ds

/-- The search without a table, over `c`; a block that equals the IV ends it. -/
def smallScan (buf iv : List UInt8) : List Nat → Bool
  | [] => false
  | j :: js =>
    if block buf j = iv then checkCrc (block buf j) buf iv
    else if innerScan buf iv (block buf j) (List.range j) then true
    else smallScan buf iv js

/-- The loop over `i`: an attack (`none`), or the place for the block. -/
def probe (buf iv c : List UInt8) (h : List Nat) (n : Nat) : Nat → Nat → Option (Option Nat)
  | 0, _ => none
  | fuel + 1, i =>
    let entry := h.getD i hashUnused
    if entry = hashUnused then some (some i)
    else if c = (if entry = hashIv then iv else block buf entry) then
      if checkCrc c buf iv then some none else some (some i)
    else probe buf iv c h n fuel ((i + 1) &&& (n - 1))

/-- The loop over the blocks, `j` being what is put into a table of 16-bit entries. -/
def scan (buf iv : List UInt8) (n : Nat) : List Nat → List Nat → Option Bool
  | [], _ => some false
  | j :: js, h =>
    match probe buf iv (block buf j) h n n (hash (block buf j) &&& (n - 1)) with
    | none => none
    | some none => some true
    | some (some i) => scan buf iv n js (h.set i (j % 2 ^ 16))

/-- `for (l = n; l < needed; l = l << 2)`, in at most `fuel` turns. -/
def tableSize (needed : Nat) : Nat → Nat → Nat
  | 0, l => l
  | fuel + 1, l => if l < needed then tableSize needed fuel (l <<< 2) else l

/-- `n` is the size in the context, which is returned as it is then. -/
def detectAttack (n : Nat) (buf iv : List UInt8) : Option (Nat × Bool) :=
  if maxblocks * blocksize < buf.length ∨ buf.length % blocksize ≠ 0 then none
  else
    let blocks := buf.length / blocksize
    let n := tableSize (hashFactor blocks) (hashFactor blocks) n
    if buf.length ≤ hashMinblocks then some (n, smallScan buf iv (List.range blocks))
    else (scan buf iv n (List.range blocks) ((List.replicate n hashUnused).set (hash iv &&& (n - 1)) hashIv)).map (n, ·)

/-! ## The table always has room -/

theorem tableSize_pow (needed m fuel : Nat) : ∃ k, tableSize needed fuel (2 ^ m) = 2 ^ k := by
  induction fuel generalizing m with
  | zero => exact ⟨m, rfl⟩
  | succ fuel ih =>
    rw [tableSize]
    split
    · rw [Nat.shiftLeft_eq, ← Nat.pow_add]
      exact ih _
    · exact ⟨m, rfl⟩

theorem le_tableSize {needed l : Nat} (fuel : Nat) (hl : 1 ≤ l) (h : needed ≤ l + fuel) : needed ≤ tableSize needed fuel l := by
  induction fuel generalizing l with
  | zero => exact h
  | succ fuel ih =>
    rw [tableSize]
    split
    · rw [Nat.shiftLeft_eq]
      exact ih (by omega) (by omega)
    · omega

/-- How far `u` is from `i`, going round. -/
def ahead (n i u : Nat) : Nat := if i ≤ u then u - i else n + u - i

/-- The search ends at the latest where the table has room. -/
theorem probe_isSome (buf iv c : List UInt8) {h : List Nat} {m u : Nat} (hu : u < 2 ^ m) (hroom : h.getD u hashUnused = hashUnused)
    (fuel i : Nat) (hi : i < 2 ^ m) (hf : ahead (2 ^ m) i u < fuel) :
    ∃ r, probe buf iv c h (2 ^ m) fuel i = some r ∧ ∀ j, r = some j → j < 2 ^ m := by
  induction fuel generalizing i with
  | zero => omega
  | succ fuel ih =>
    rw [probe]
    by_cases he : h.getD i hashUnused = hashUnused
    · rw [if_pos he]
      exact ⟨_, rfl, fun j hj => by cases hj; exact hi⟩
    · rw [if_neg he]
      generalize (if h.getD i hashUnused = hashIv then iv else block buf (h.getD i hashUnused)) = seen
      by_cases hc : c = seen
      · rw [if_pos hc]
        split
        · exact ⟨_, rfl, fun j hj => by cases hj⟩
        · exact ⟨_, rfl, fun j hj => by cases hj; exact hi⟩
      · rw [if_neg hc]
        have hne : i ≠ u := fun heq => he (heq ▸ hroom)
        have hpos : 0 < 2 ^ m := Nat.two_pow_pos m
        rw [Nat.and_two_pow_sub_one_eq_mod]
        apply ih _ (Nat.mod_lt _ hpos)
        unfold ahead at hf ⊢
        rcases Nat.lt_or_ge (i + 1) (2 ^ m) with hlt | hge
        · rw [Nat.mod_eq_of_lt hlt]
          split at hf <;> split <;> omega
        · have hwrap : i + 1 = 2 ^ m := by omega
          rw [hwrap, Nat.mod_self]
          split at hf <;> split <;> omega

/-- The entries in use. -/
def used (h : List Nat) : Nat := h.countP (· ≠ hashUnused)

theorem used_set (h : List Nat) (i e : Nat) : used (h.set i e) ≤ used h + 1 := by
  unfold used
  by_cases hi : i < h.length
  · rw [List.countP_set hi]
    split <;> split <;> omega
  · rw [List.set_eq_of_length_le (by omega)]
    omega

theorem room {h : List Nat} (hlt : used h < h.length) : ∃ u, u < h.length ∧ h.getD u hashUnused = hashUnused := by
  by_contra hno
  have hall : used h = h.length := by
    refine List.countP_eq_length.mpr fun e he => ?_
    obtain ⟨u, hu, rfl⟩ := List.getElem_of_mem he
    refine decide_eq_true fun heq => hno ⟨u, hu, ?_⟩
    rw [List.getD_eq_getElem?_getD, List.getElem?_eq_getElem hu]
    exact heq
  omega

/-- As long as there is an entry for each block left and one more, the scan comes to its end. -/
theorem scan_isSome (buf iv : List UInt8) {m : Nat} (js : List Nat) {h : List Nat} (hlen : h.length = 2 ^ m)
    (hused : used h + js.length < 2 ^ m) : (scan buf iv (2 ^ m) js h).isSome := by
  induction js generalizing h with
  | nil => rfl
  | cons j js ih =>
    rw [List.length_cons] at hused
    obtain ⟨u, hu, hroom⟩ := room (show used h < h.length by omega)
    rw [hlen] at hu
    have hstart : hash (block buf j) &&& (2 ^ m - 1) < 2 ^ m := by
      rw [Nat.and_two_pow_sub_one_eq_mod]
      exact Nat.mod_lt _ (Nat.two_pow_pos m)
    have hahead : ahead (2 ^ m) (hash (block buf j) &&& (2 ^ m - 1)) u < 2 ^ m := by
      unfold ahead
      split <;> omega
    obtain ⟨r, hr, hlt⟩ := probe_isSome buf iv (block buf j) hu hroom (2 ^ m) _ hstart hahead
    rw [scan, hr]
    cases r with
    | none => rfl
    | some i =>
      have := used_set h i (j % 2 ^ 16)
      exact ih (by rw [List.length_set, hlen]) (by omega)

/-- detect_attack comes back on whole blocks, up to its limit. -/
theorem detectAttack_isSome {m : Nat} {buf : List UInt8} (iv : List UInt8) (hmax : buf.length ≤ maxblocks * blocksize)
    (hwhole : buf.length % blocksize = 0) : ∃ k attack, detectAttack (2 ^ m) buf iv = some (2 ^ k, attack) := by
  unfold detectAttack
  rw [if_neg (by omega)]
  dsimp only
  obtain ⟨k, hk⟩ := tableSize_pow (hashFactor (buf.length / blocksize)) m (hashFactor (buf.length / blocksize))
  have hle := le_tableSize (hashFactor (buf.length / blocksize)) (Nat.two_pow_pos m) (Nat.le_add_left (hashFactor (buf.length / blocksize)) _)
  rw [hk] at hle ⊢
  by_cases hsmall : buf.length ≤ hashMinblocks
  · rw [if_pos hsmall]
    exact ⟨k, _, rfl⟩
  · rw [if_neg hsmall]
    have hinit : used ((List.replicate (2 ^ k) hashUnused).set (hash iv &&& (2 ^ k - 1)) hashIv) ≤ 1 := by
      have h0 : used (List.replicate (2 ^ k) hashUnused) = 0 := by
        simp [used, List.countP_replicate]
      have := used_set (List.replicate (2 ^ k) hashUnused) (hash iv &&& (2 ^ k - 1)) hashIv
      omega
    have hroom : used ((List.replicate (2 ^ k) hashUnused).set (hash iv &&& (2 ^ k - 1)) hashIv) +
        (List.range (buf.length / blocksize)).length < 2 ^ k := by
      rw [List.length_range]
      unfold hashFactor hashMinblocks blocksize at *
      omega
    obtain ⟨attack, ha⟩ := Option.isSome_iff_exists.mp (scan_isSome buf iv _
      (by rw [List.length_set, List.length_replicate]) hroom)
    rw [ha]
    exact ⟨k, attack, rfl⟩

/-- And it comes back on nothing longer. -/
theorem detectAttack_none {n : Nat} {buf iv : List UInt8} (h : maxblocks * blocksize < buf.length) : detectAttack n buf iv = none :=
  if_pos (.inl h)

/-- The check value that the source gives for this variant. -/
example : crc32Ssh1 (text "123456789") = 0x2DFD2D88 := by decide +kernel

end Putty.Ssh1
