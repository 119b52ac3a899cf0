/-
  Putty.Sshcommon.TtyModes — terminal modes on the wire (`sshcommon.c`,
  `sshttymodes.h`).

  A set of modes is written as one opcode and one value for each mode present, and an
  end marker. The value takes four bytes, or one byte for opcodes 1 to 127 of SSH-1.
  The two terminal speeds have opcodes of their own inside the program, and on the wire
  128 and 129 in SSH-2, 192 and 193 in SSH-1. The reader maps them back, but before it
  does so it stops at every opcode from 160 on.

  Proved: in SSH-2 every set of known modes is read back whole, with the end marker
  (`readTtymodes_written`). In SSH-1 it is so exactly when the set has no terminal speed
  and every value fits in a byte (`ttymodes_round_trip_iff`); the modes made from a
  configuration always have both speeds, so none of them comes back in SSH-1
  (`conf_modes_round_trip_iff`).
-/

import Mathlib.Data.Fintype.Basic
import Mathlib.Data.List.FinRange
import Putty.Utils.BinarySink

namespace Putty.Sshcommon

open Putty.Utils Putty.Utils.BinarySource

def ttymodeIspeed : Nat := 256

def ttymodeOspeed : Nat := 257

def ttymodeLimit : Nat := 258

def ttymodeIspeedSsh1 : Nat := 192

def ttymodeOspeedSsh1 : Nat := 193

def ttymodeIspeedSsh2 : Nat := 128

def ttymodeOspeedSsh2 : Nat := 129

def ttymodeEndOfList : Nat := 0

structure SshTtymodes where
  haveMode : Fin ttymodeLimit → Bool
  modeVal : Fin ttymodeLimit → UInt32

namespace SshTtymodes

/-- The memset. -/
def none : SshTtymodes := ⟨fun _ => false, fun _ => 0⟩

def set (modes : SshTtymodes) (opcode : Fin ttymodeLimit) (val : UInt32) : SshTtymodes :=
  ⟨Function.update modes.haveMode opcode true, Function.update modes.modeVal opcode val⟩

end SshTtymodes

def realTtymodeOpcode (ourOpcode sshVersion : Nat) : Nat :=
  if ourOpcode = ttymodeIspeed then (if sshVersion = 1 then ttymodeIspeedSsh1 else ttymodeIspeedSsh2)
  else if ourOpcode = ttymodeOspeed then (if sshVersion = 1 then ttymodeOspeedSsh1 else ttymodeOspeedSsh2)
  else ourOpcode

def ourTtymodeOpcode (realOpcode sshVersion : Nat) : Nat :=
  if sshVersion = 1 then
    if realOpcode = ttymodeIspeedSsh1 then ttymodeIspeed
    else if realOpcode = ttymodeOspeedSsh1 then ttymodeOspeed
    else realOpcode
  else
    if realOpcode = ttymodeIspeedSsh2 then ttymodeIspeed
    else if realOpcode = ttymodeOspeedSsh2 then ttymodeOspeed
    else realOpcode

/-! ## Writing -/

/-- SSH-1 types the opcodes 1 to 127 as bytes. -/
def byteValued (sshVersion opcode : Nat) : Prop := sshVersion = 1 ∧ 1 ≤ opcode ∧ opcode ≤ 127

instance (sshVersion opcode : Nat) : Decidable (byteValued sshVersion opcode) :=
  inferInstanceAs (Decidable (_ ∧ _))

def putMode (sshVersion : Nat) (i : Fin ttymodeLimit) (val : UInt32) : List UInt8 :=
  let opcode := realTtymodeOpcode i sshVersion
  UInt8.ofNat opcode ::
    (if byteValued sshVersion opcode then [UInt8.ofNat val.toNat] else put32BitMsbFirst val.toNat)

/-- The body of the writer's loop. -/
def putModeIf (sshVersion : Nat) (modes : SshTtymodes) (i : Fin ttymodeLimit) : List UInt8 :=
  if modes.haveMode i then putMode sshVersion i (modes.modeVal i) else []

def writeTtymodesToPacket (sshVersion : Nat) (modes : SshTtymodes) : List UInt8 :=
  (List.finRange ttymodeLimit).flatMap (putModeIf sshVersion modes) ++ [UInt8.ofNat ttymodeEndOfList]

/-! ## Reading -/

theorem getByte_eq (src : BinarySource) :
    src.getByte.2 = (src.consume 1).2 := by
  unfold getByte
  rcases src.consume 1 with ⟨_ | b, src'⟩ <;> rfl

theorem getUint32_eq (src : BinarySource) : src.getUint32.2 = (src.consume 4).2 := by
  unfold getUint32
  rcases src.consume 4 with ⟨_ | b, src'⟩ <;> rfl

/-- A byte other than zero was there to be read. -/
theorem getByte_progress {src : BinarySource} (h : src.getByte.1 ≠ 0) : src.pos < src.getByte.2.pos := by
  unfold getByte at h ⊢
  unfold consume at h ⊢
  by_cases h1 : src.err = true
  · simp [h1] at h
  · rw [if_neg h1] at h ⊢
    by_cases h2 : 1 ≤ src.data.length - src.pos
    · rw [dif_pos h2]
      exact Nat.lt_succ_self _
    · rw [dif_neg h2] at h
      exact absurd rfl h

theorem consume_after_byte {src : BinarySource} (h : src.getByte.1 ≠ 0) (n : Nat) :
    (src.getByte.2.consume n).2.remaining < src.remaining := by
  apply remaining_lt
  · rw [consume_data, getByte_eq, consume_data]
  · rw [consume_pos]
    exact Nat.lt_of_lt_of_le (getByte_progress h) (Nat.le_add_right _ _)

/-- The reader's loop; the assertion's failure is `none`. -/
def readLoop (sshVersion : Nat) (src : BinarySource) (modes : SshTtymodes) : Option (SshTtymodes × BinarySource) :=
  if _h0 : src.getByte.1 = 0 then some (modes, src.getByte.2)
  else if 160 ≤ src.getByte.1.toNat then some (modes, src.getByte.2)
  else
    let realOpcode := src.getByte.1.toNat
    let ourOpcode := ourTtymodeOpcode realOpcode sshVersion
    if h : ourOpcode < ttymodeLimit then
      if byteValued sshVersion realOpcode then
        readLoop sshVersion src.getByte.2.getByte.2 (modes.set ⟨ourOpcode, h⟩ src.getByte.2.getByte.1.toUInt32)
      else readLoop sshVersion src.getByte.2.getUint32.2 (modes.set ⟨ourOpcode, h⟩ src.getByte.2.getUint32.1)
    else none
  termination_by src.remaining
  decreasing_by
    · rw [getByte_eq]; exact consume_after_byte _h0 1
    · rw [getUint32_eq]; exact consume_after_byte _h0 4

def readTtymodesFromPacket (sshVersion : Nat) (src : BinarySource) : Option (SshTtymodes × BinarySource) :=
  readLoop sshVersion src SshTtymodes.none

/-- The set that was written is read back, and nothing after its end marker is. -/
def RoundTrips (sshVersion : Nat) (modes : SshTtymodes) : Prop :=
  ∀ rest, ∃ src, readTtymodesFromPacket sshVersion (ofData (writeTtymodesToPacket sshVersion modes ++ rest)) =
    some (modes, src) ∧ src.Reads rest

/-! ## The modes a client sends -/

inductive ModeType where
  | typeChar
  | typeBool
  deriving DecidableEq

/-- sshttymodes.h. -/
def modesNamesTypes : List (String × Nat × ModeType) :=
  [("INTR", 1, .typeChar), ("QUIT", 2, .typeChar), ("ERASE", 3, .typeChar), ("KILL", 4, .typeChar),
   ("EOF", 5, .typeChar), ("EOL", 6, .typeChar), ("EOL2", 7, .typeChar), ("START", 8, .typeChar),
   ("STOP", 9, .typeChar), ("SUSP", 10, .typeChar), ("DSUSP", 11, .typeChar), ("REPRINT", 12, .typeChar),
   ("WERASE", 13, .typeChar), ("LNEXT", 14, .typeChar), ("FLUSH", 15, .typeChar), ("SWTCH", 16, .typeChar),
   ("STATUS", 17, .typeChar), ("DISCARD", 18, .typeChar), ("IGNPAR", 30, .typeBool), ("PARMRK", 31, .typeBool),
   ("INPCK", 32, .typeBool), ("ISTRIP", 33, .typeBool), ("INLCR", 34, .typeBool), ("IGNCR", 35, .typeBool),
   ("ICRNL", 36, .typeBool), ("IUCLC", 37, .typeBool), ("IXON", 38, .typeBool), ("IXANY", 39, .typeBool),
   ("IXOFF", 40, .typeBool), ("IMAXBEL", 41, .typeBool), ("IUTF8", 42, .typeBool), ("ISIG", 50, .typeBool),
   ("ICANON", 51, .typeBool), ("XCASE", 52, .typeBool), ("ECHO", 53, .typeBool), ("ECHOE", 54, .typeBool),
   ("ECHOK", 55, .typeBool), ("ECHONL", 56, .typeBool), ("NOFLSH", 57, .typeBool), ("TOSTOP", 58, .typeBool),
   ("IEXTEN", 59, .typeBool), ("ECHOCTL", 60, .typeBool), ("ECHOKE", 61, .typeBool), ("PENDIN", 62, .typeBool),
   ("OPOST", 70, .typeBool), ("OLCUC", 71, .typeBool), ("ONLCR", 72, .typeBool), ("OCRNL", 73, .typeBool),
   ("ONOCR", 74, .typeBool), ("ONLRET", 75, .typeBool), ("CS7", 90, .typeBool), ("CS8", 91, .typeBool),
   ("PARENB", 92, .typeBool), ("PARODD", 93, .typeBool)]

def knownOpcode (opcode : Nat) : Prop :=
  opcode ∈ modesNamesTypes.map (fun mode => mode.2.1) ∨ opcode = ttymodeIspeed ∨ opcode = ttymodeOspeed

/-- Only known modes are present, and an absent one has no value. -/
structure SshTtymodes.Known (modes : SshTtymodes) : Prop where
  known : ∀ i, modes.haveMode i = true → knownOpcode i
  absent : ∀ i, modes.haveMode i = false → modes.modeVal i = 0

theorem modes_opcodes : ∀ mode ∈ modesNamesTypes, 1 ≤ mode.2.1 ∧ mode.2.1 < 128 := by decide

theorem knownOpcode_cases {opcode : Nat} (h : knownOpcode opcode) :
    (1 ≤ opcode ∧ opcode < 128) ∨ opcode = ttymodeIspeed ∨ opcode = ttymodeOspeed := by
  refine h.imp_left fun hmem => ?_
  obtain ⟨mode, hmode, rfl⟩ := List.mem_map.mp hmem
  exact modes_opcodes mode hmode

/-! ## Reading what was written -/

/-- The value the reader sees where `val` was written. -/
def wireValue (sshVersion : Nat) (i : Fin ttymodeLimit) (val : UInt32) : UInt32 :=
  if byteValued sshVersion (realTtymodeOpcode i sshVersion) then (UInt8.ofNat val.toNat).toUInt32 else val

/-- The reader does not stop at this mode, and knows it again. -/
structure Readable (sshVersion : Nat) (i : Fin ttymodeLimit) : Prop where
  pos : 1 ≤ realTtymodeOpcode i sshVersion
  small : realTtymodeOpcode i sshVersion < 160
  back : ourTtymodeOpcode (realTtymodeOpcode i sshVersion) sshVersion = i

theorem readable_plain {sshVersion : Nat} {i : Fin ttymodeLimit} (h1 : 1 ≤ i.val) (h2 : i.val < 128) :
    Readable sshVersion i := by
  have hreal : realTtymodeOpcode i sshVersion = i := by
    unfold realTtymodeOpcode ttymodeIspeed ttymodeOspeed
    rw [if_neg (by omega), if_neg (by omega)]
  refine ⟨by rw [hreal]; exact h1, by rw [hreal]; omega, ?_⟩
  rw [hreal]
  unfold ourTtymodeOpcode ttymodeIspeedSsh1 ttymodeOspeedSsh1 ttymodeIspeedSsh2 ttymodeOspeedSsh2
  split <;> rw [if_neg (by omega), if_neg (by omega)]

theorem readable_ssh2 {sshVersion : Nat} (hv : sshVersion ≠ 1) {i : Fin ttymodeLimit} (h : knownOpcode i) :
    Readable sshVersion i := by
  rcases knownOpcode_cases h with ⟨h1, h2⟩ | h | h
  · exact readable_plain h1 h2
  · refine ⟨?_, ?_, ?_⟩ <;> simp [realTtymodeOpcode, ourTtymodeOpcode, h, hv, ttymodeIspeed, ttymodeIspeedSsh2]
  · refine ⟨?_, ?_, ?_⟩ <;>
      simp [realTtymodeOpcode, ourTtymodeOpcode, h, hv, ttymodeIspeed, ttymodeOspeed, ttymodeIspeedSsh2, ttymodeOspeedSsh2]

theorem readLoop_end {sshVersion : Nat} {src : BinarySource} {b : UInt8} {l : List UInt8} (modes : SshTtymodes)
    (hb : b = 0 ∨ 160 ≤ b.toNat) (h : src.Reads (b :: l)) :
    ∃ src', readLoop sshVersion src modes = some (modes, src') ∧ src'.Reads l := by
  obtain ⟨h1, h2⟩ := getByte_reads h
  refine ⟨_, ?_, h2⟩
  rw [readLoop, h1]
  rcases hb with h0 | h160
  · rw [dif_pos h0]
  · rw [dif_neg (by rintro rfl; simp at h160), if_pos h160]

theorem toNat_opcode {opcode : Nat} (h : opcode < 160) : (UInt8.ofNat opcode).toNat = opcode := by
  rw [UInt8.toNat_ofNat']
  omega

/-- One mode is read and the loop goes on behind it. -/
theorem readLoop_mode {sshVersion : Nat} {i : Fin ttymodeLimit} (hi : Readable sshVersion i) {val : UInt32}
    {src : BinarySource} {l : List UInt8} (modes : SshTtymodes) (h : src.Reads (putMode sshVersion i val ++ l)) :
    ∃ src', src'.Reads l ∧
      readLoop sshVersion src modes = readLoop sshVersion src' (modes.set i (wireValue sshVersion i val)) := by
  obtain ⟨h1, h2⟩ := getByte_reads (l := _ ++ l) h
  have hop := toNat_opcode hi.small
  have hlim : ourTtymodeOpcode (realTtymodeOpcode i sshVersion) sshVersion < ttymodeLimit := by
    rw [hi.back]
    exact i.isLt
  have hback : (⟨_, hlim⟩ : Fin ttymodeLimit) = i := Fin.ext hi.back
  have hne : UInt8.ofNat (realTtymodeOpcode i sshVersion) ≠ 0 := by
    intro h0
    have := congrArg UInt8.toNat h0
    rw [hop] at this
    exact absurd this (Nat.pos_iff_ne_zero.mp hi.pos)
  rw [readLoop, h1, dif_neg hne, hop, if_neg (Nat.not_le.mpr hi.small), dif_pos hlim, hback]
  by_cases hbyte : byteValued sshVersion (realTtymodeOpcode i sshVersion)
  · rw [if_pos hbyte] at h2 ⊢
    obtain ⟨h3, h4⟩ := getByte_reads h2
    refine ⟨_, h4, ?_⟩
    rw [h3, wireValue, if_pos hbyte]
  · rw [if_neg hbyte] at h2 ⊢
    obtain ⟨h3, h4⟩ := getUint32_reads val.toNat_lt h2
    refine ⟨_, h4, ?_⟩
    rw [UInt32.toNat.inj h3, wireValue, if_neg hbyte]

/-- One mode present or absent. -/
def setIf (sshVersion : Nat) (modes : SshTtymodes) (got : SshTtymodes) (i : Fin ttymodeLimit) : SshTtymodes :=
  if modes.haveMode i then got.set i (wireValue sshVersion i (modes.modeVal i)) else got

theorem readLoop_modes {sshVersion : Nat} {modes : SshTtymodes} (is : List (Fin ttymodeLimit))
    (his : ∀ i ∈ is, modes.haveMode i = true → Readable sshVersion i) {src : BinarySource} {l : List UInt8}
    (got : SshTtymodes) (h : src.Reads (is.flatMap (putModeIf sshVersion modes) ++ l)) :
    ∃ src', src'.Reads l ∧
      readLoop sshVersion src got = readLoop sshVersion src' (is.foldl (setIf sshVersion modes) got) := by
  induction is generalizing src got with
  | nil => exact ⟨src, h, rfl⟩
  | cons i is ih =>
    have his' : ∀ j ∈ is, modes.haveMode j = true → Readable sshVersion j := fun j hj => his j (List.mem_cons_of_mem i hj)
    rw [List.flatMap_cons, List.append_assoc] at h
    rw [List.foldl_cons]
    by_cases hi : modes.haveMode i = true
    · rw [putModeIf, if_pos hi] at h
      obtain ⟨src1, h1, hread⟩ := readLoop_mode (his i List.mem_cons_self hi) got h
      obtain ⟨src2, h2, hread'⟩ := ih his' _ h1
      exact ⟨src2, h2, by rw [hread, hread', setIf, if_pos hi]⟩
    · rw [putModeIf, if_neg hi, List.nil_append] at h
      obtain ⟨src2, h2, hread⟩ := ih his' got h
      exact ⟨src2, h2, by rw [hread, setIf, if_neg hi]⟩

theorem foldl_setIf_have (sshVersion : Nat) (modes : SshTtymodes) (is : List (Fin ttymodeLimit)) (got : SshTtymodes)
    (j : Fin ttymodeLimit) :
    (is.foldl (setIf sshVersion modes) got).haveMode j = (got.haveMode j || (decide (j ∈ is) && modes.haveMode j)) := by
  induction is generalizing got with
  | nil => simp
  | cons i is ih =>
    rw [List.foldl_cons, ih]
    by_cases hi : modes.haveMode i = true
    · by_cases hji : j = i
      · subst hji
        simp [setIf, hi, SshTtymodes.set]
      · simp [setIf, hi, SshTtymodes.set, hji]
    · by_cases hji : j = i
      · subst hji
        simp [setIf, hi]
      · simp [setIf, hi, hji]

theorem foldl_setIf_val (sshVersion : Nat) (modes : SshTtymodes) (is : List (Fin ttymodeLimit)) (got : SshTtymodes)
    (j : Fin ttymodeLimit) :
    (is.foldl (setIf sshVersion modes) got).modeVal j =
      if j ∈ is ∧ modes.haveMode j = true then wireValue sshVersion j (modes.modeVal j) else got.modeVal j := by
  induction is generalizing got with
  | nil => simp
  | cons i is ih =>
    rw [List.foldl_cons, ih]
    by_cases hi : modes.haveMode i = true
    · by_cases hji : j = i
      · subst hji
        simp [setIf, hi, SshTtymodes.set]
      · simp [setIf, hi, SshTtymodes.set, hji]
    · by_cases hji : j = i
      · subst hji
        simp [setIf, hi]
      · simp [setIf, hi, hji]

/-- What arrives when every mode of the set is readable. -/
theorem readTtymodes_written {sshVersion : Nat} {modes : SshTtymodes}
    (h : ∀ i, modes.haveMode i = true → Readable sshVersion i) (rest : List UInt8) :
    ∃ src, readTtymodesFromPacket sshVersion (ofData (writeTtymodesToPacket sshVersion modes ++ rest)) =
      some ((List.finRange ttymodeLimit).foldl (setIf sshVersion modes) SshTtymodes.none, src) ∧ src.Reads rest := by
  have hreads := ofData_reads (writeTtymodesToPacket sshVersion modes ++ rest)
  rw [show writeTtymodesToPacket sshVersion modes ++ rest =
    (List.finRange ttymodeLimit).flatMap (putModeIf sshVersion modes) ++ (UInt8.ofNat ttymodeEndOfList :: rest) by
      simp [writeTtymodesToPacket]] at hreads ⊢
  obtain ⟨src1, h1, hread⟩ := readLoop_modes _ (fun i _ => h i) SshTtymodes.none hreads
  obtain ⟨src2, hend, h2⟩ := readLoop_end ((List.finRange ttymodeLimit).foldl (setIf sshVersion modes) SshTtymodes.none)
    (.inl rfl) h1
  exact ⟨src2, by rw [readTtymodesFromPacket, hread, hend], h2⟩

theorem SshTtymodes.ext_iff_fields {a b : SshTtymodes} :
    a = b ↔ (∀ i, a.haveMode i = b.haveMode i) ∧ ∀ i, a.modeVal i = b.modeVal i := by
  constructor
  · rintro rfl
    exact ⟨fun _ => rfl, fun _ => rfl⟩
  · rintro ⟨h1, h2⟩
    cases a
    cases b
    simp only [SshTtymodes.mk.injEq]
    exact ⟨funext h1, funext h2⟩

theorem received_eq_iff {sshVersion : Nat} {modes : SshTtymodes} (h : modes.Known) :
    (List.finRange ttymodeLimit).foldl (setIf sshVersion modes) SshTtymodes.none = modes ↔
      ∀ i, modes.haveMode i = true → wireValue sshVersion i (modes.modeVal i) = modes.modeVal i := by
  rw [SshTtymodes.ext_iff_fields]
  constructor
  · rintro ⟨-, hval⟩ i hi
    have := hval i
    rwa [foldl_setIf_val, if_pos ⟨List.mem_finRange i, hi⟩] at this
  · intro hval
    refine ⟨fun i => ?_, fun i => ?_⟩
    · rw [foldl_setIf_have]
      simp [SshTtymodes.none]
    · rw [foldl_setIf_val]
      by_cases hi : modes.haveMode i = true
      · rw [if_pos ⟨List.mem_finRange i, hi⟩, hval i hi]
      · rw [if_neg fun hc => hi hc.2, h.absent i (by simpa using hi), SshTtymodes.none]

theorem roundTrips_iff_values {sshVersion : Nat} {modes : SshTtymodes} (h : modes.Known)
    (hread : ∀ i, modes.haveMode i = true → Readable sshVersion i) :
    RoundTrips sshVersion modes ↔
      ∀ i, modes.haveMode i = true → wireValue sshVersion i (modes.modeVal i) = modes.modeVal i := by
  rw [← received_eq_iff h]
  constructor
  · intro hround
    obtain ⟨src, hsrc, -⟩ := hround []
    obtain ⟨src', hsrc', -⟩ := readTtymodes_written hread []
    rw [hsrc'] at hsrc
    exact (Prod.mk.inj (Option.some.inj hsrc)).1
  · intro heq rest
    obtain ⟨src, hsrc, hrest⟩ := readTtymodes_written hread rest
    exact ⟨src, by rw [hsrc, heq], hrest⟩

theorem ssh2_round_trips {sshVersion : Nat} (hv : sshVersion ≠ 1) {modes : SshTtymodes} (h : modes.Known) :
    RoundTrips sshVersion modes := by
  apply (roundTrips_iff_values h fun i hi => readable_ssh2 hv (h.known i hi)).mpr
  intro i _
  rw [wireValue, if_neg fun hbyte => hv hbyte.1]

/-! ## SSH-1 -/

def ispeed : Fin ttymodeLimit := ⟨ttymodeIspeed, by decide⟩

def ospeed : Fin ttymodeLimit := ⟨ttymodeOspeed, by decide⟩

/-- The indices before the two speeds. -/
def plainOpcodes : List (Fin ttymodeLimit) := (List.finRange ttymodeLimit).take 256

theorem finRange_speeds : List.finRange ttymodeLimit = plainOpcodes ++ [ispeed, ospeed] := by decide +kernel

theorem speeds_not_plain : ispeed ∉ plainOpcodes ∧ ospeed ∉ plainOpcodes := by decide +kernel

/-- The reader stops where the first speed is written. -/
theorem ssh1_stops {modes : SshTtymodes} (h : modes.Known) {i : Fin ttymodeLimit} {l : List UInt8}
    (hmem : i = ispeed ∨ i = ospeed) (hi : modes.haveMode i = true)
    (hl : ∃ l', l = putMode 1 i (modes.modeVal i) ++ l')
    (hw : writeTtymodesToPacket 1 modes = plainOpcodes.flatMap (putModeIf 1 modes) ++ l) : ¬ RoundTrips 1 modes := by
  intro hround
  obtain ⟨src, hsrc, -⟩ := hround []
  obtain ⟨l', rfl⟩ := hl
  have hplain : i ∉ plainOpcodes := hmem.elim (fun h => h ▸ speeds_not_plain.1) (fun h => h ▸ speeds_not_plain.2)
  have hreadable : ∀ j ∈ plainOpcodes, modes.haveMode j = true → Readable 1 j := by
    intro j hj hhave
    rcases knownOpcode_cases (h.known j hhave) with ⟨h1, h2⟩ | hsp | hsp
    · exact readable_plain h1 h2
    · exact absurd (show ispeed ∈ plainOpcodes from (Fin.ext hsp : j = ispeed) ▸ hj) speeds_not_plain.1
    · exact absurd (show ospeed ∈ plainOpcodes from (Fin.ext hsp : j = ospeed) ▸ hj) speeds_not_plain.2
  have hreads := ofData_reads (writeTtymodesToPacket 1 modes ++ [])
  rw [hw, List.append_nil] at hreads hsrc
  obtain ⟨src1, h1, hread⟩ := readLoop_modes _ hreadable SshTtymodes.none hreads
  -- both speeds have opcodes from 160 on
  have hstop : 160 ≤ (UInt8.ofNat (realTtymodeOpcode i 1)).toNat := by
    rcases hmem with rfl | rfl <;> decide
  obtain ⟨src2, hend, -⟩ : ∃ src2, readLoop 1 src1 _ = some (_, src2) ∧ _ :=
    readLoop_end (plainOpcodes.foldl (setIf 1 modes) SshTtymodes.none) (.inr hstop) h1
  rw [readTtymodesFromPacket, hread, hend] at hsrc
  obtain ⟨hgot, -⟩ := Prod.mk.inj (Option.some.inj hsrc)
  have hlost := foldl_setIf_have 1 modes plainOpcodes SshTtymodes.none i
  rw [hgot, hi] at hlost
  simp [SshTtymodes.none, hplain] at hlost

theorem wireValue_ssh1 {i : Fin ttymodeLimit} (h1 : 1 ≤ i.val) (h2 : i.val < 128) (val : UInt32) :
    wireValue 1 i val = val ↔ val.toNat < 256 := by
  have hreal : realTtymodeOpcode i 1 = i := by
    unfold realTtymodeOpcode ttymodeIspeed ttymodeOspeed
    rw [if_neg (by omega), if_neg (by omega)]
  rw [wireValue, if_pos (by rw [hreal]; exact ⟨rfl, h1, by omega⟩), ← UInt32.toNat_inj, UInt8.toNat_toUInt32,
    UInt8.toNat_ofNat']
  omega

theorem ssh1_round_trips_iff {modes : SshTtymodes} (h : modes.Known) :
    RoundTrips 1 modes ↔ modes.haveMode ispeed = false ∧ modes.haveMode ospeed = false ∧
      ∀ i, modes.haveMode i = true → (modes.modeVal i).toNat < 256 := by
  have hwrite : writeTtymodesToPacket 1 modes = plainOpcodes.flatMap (putModeIf 1 modes) ++
      (putModeIf 1 modes ispeed ++ (putModeIf 1 modes ospeed ++ [UInt8.ofNat ttymodeEndOfList])) := by
    simp [writeTtymodesToPacket, finRange_speeds]
  by_cases hi : modes.haveMode ispeed = true
  · refine iff_of_false ?_ fun hc => by simp [hi] at hc
    exact ssh1_stops h (.inl rfl) hi ⟨_, by rw [putModeIf, if_pos hi]⟩ hwrite
  · by_cases ho : modes.haveMode ospeed = true
    · refine iff_of_false ?_ fun hc => by simp [ho] at hc
      exact ssh1_stops h (.inr rfl) ho ⟨_, by rw [putModeIf, if_neg hi, List.nil_append, putModeIf, if_pos ho]⟩ hwrite
    · have hplain : ∀ i, modes.haveMode i = true → 1 ≤ i.val ∧ i.val < 128 := by
        intro i hhave
        rcases knownOpcode_cases (h.known i hhave) with hp | hsp | hsp
        · exact hp
        · exact absurd ((Fin.ext hsp : i = ispeed) ▸ hhave) hi
        · exact absurd ((Fin.ext hsp : i = ospeed) ▸ hhave) ho
      rw [roundTrips_iff_values h fun i hhave => readable_plain (hplain i hhave).1 (hplain i hhave).2]
      constructor
      · intro hval
        exact ⟨by simpa using hi, by simpa using ho, fun i hhave =>
          (wireValue_ssh1 (hplain i hhave).1 (hplain i hhave).2 _).mp (hval i hhave)⟩
      · rintro ⟨-, -, hsmall⟩ i hhave
        exact (wireValue_ssh1 (hplain i hhave).1 (hplain i hhave).2 _).mpr (hsmall i hhave)

/-- SSH-1 loses the speeds, whatever comes with them, and all but the low byte of the other values. -/
theorem ttymodes_round_trip_iff (sshVersion : Nat) (modes : SshTtymodes) (h : modes.Known) :
    RoundTrips sshVersion modes ↔ (sshVersion = 1 → modes.haveMode ispeed = false ∧ modes.haveMode ospeed = false ∧
      ∀ i, modes.haveMode i = true → (modes.modeVal i).toNat < 256) := by
  by_cases hv : sshVersion = 1
  · subst hv
    rw [ssh1_round_trips_iff h]
    exact ⟨fun hc _ => hc, fun hc => hc rfl⟩
  · exact iff_of_true (ssh2_round_trips hv h) fun hc => absurd hc hv

/-- IUTF8 alone. -/
def utf8Mode : SshTtymodes := SshTtymodes.none.set ⟨42, by decide⟩ 1

theorem utf8Mode_known : utf8Mode.Known := by
  constructor
  · intro i hi
    by_cases h : i = ⟨42, by decide⟩
    · subst h
      exact .inl (by decide)
    · simp [utf8Mode, SshTtymodes.set, h, SshTtymodes.none] at hi
  · intro i hi
    by_cases h : i = ⟨42, by decide⟩
    · subst h
      simp [utf8Mode, SshTtymodes.set] at hi
    · simp [utf8Mode, SshTtymodes.set, h, SshTtymodes.none]

theorem utf8_mode_round_trips : utf8Mode.Known ∧ RoundTrips 1 utf8Mode := by
  refine ⟨utf8Mode_known, (ttymodes_round_trip_iff 1 utf8Mode utf8Mode_known).mpr fun _ => ⟨rfl, rfl, ?_⟩⟩
  intro i hi
  by_cases h : i = ⟨42, by decide⟩
  · subst h
    simp [utf8Mode, SshTtymodes.set]
  · simp [utf8Mode, SshTtymodes.set, h, SshTtymodes.none] at hi

/-! ## From a configuration -/

section Conf

-- valueOf parses a mode's value string, speeds is what sscanf left in ospeed and ispeed
variable (confGetStrStr seatGetTtymode : String → Option (List UInt8)) (valueOf : ModeType → List UInt8 → UInt32)
  (speeds : UInt32 × UInt32)

/-- The value to send for a mode; none is not sent. -/
def modeValue (mode : String × Nat × ModeType) : Option UInt32 :=
  let sval := (confGetStrStr mode.1).getD (text "N")
  if sval.head? = some 65 then (seatGetTtymode mode.1).map (valueOf mode.2.2)
  else if sval.head? = some 86 then some (valueOf mode.2.2 sval.tail)
  else none

def setMode (modes : SshTtymodes) (mode : String × Nat × ModeType) : SshTtymodes :=
  match modeValue confGetStrStr seatGetTtymode valueOf mode with
  | some ival => if h : mode.2.1 < ttymodeLimit then modes.set ⟨mode.2.1, h⟩ ival else modes
  | none => modes

def getTtymodesFromConf : SshTtymodes :=
  ((modesNamesTypes.foldl (setMode confGetStrStr seatGetTtymode valueOf) SshTtymodes.none).set ispeed speeds.2).set
    ospeed speeds.1

theorem SshTtymodes.Known.set {modes : SshTtymodes} (h : modes.Known) {i : Fin ttymodeLimit} (hi : knownOpcode i)
    (val : UInt32) : (modes.set i val).Known := by
  constructor
  · intro j hj
    by_cases hji : j = i
    · exact hji ▸ hi
    · exact h.known j (by simpa [SshTtymodes.set, hji] using hj)
  · intro j hj
    by_cases hji : j = i
    · subst hji
      simp [SshTtymodes.set] at hj
    · simpa [SshTtymodes.set, hji] using h.absent j (by simpa [SshTtymodes.set, hji] using hj)

theorem conf_modes_known : (getTtymodesFromConf confGetStrStr seatGetTtymode valueOf speeds).Known := by
  have hloop : ∀ (l : List (String × Nat × ModeType)), (∀ mode ∈ l, mode ∈ modesNamesTypes) →
      ∀ modes : SshTtymodes, modes.Known → (l.foldl (setMode confGetStrStr seatGetTtymode valueOf) modes).Known := by
    intro l
    induction l with
    | nil => exact fun _ modes h => h
    | cons mode l ih =>
      intro hl modes h
      rw [List.foldl_cons]
      apply ih fun m hm => hl m (List.mem_cons_of_mem _ hm)
      have hmem : knownOpcode mode.2.1 := .inl (List.mem_map.mpr ⟨mode, hl mode List.mem_cons_self, rfl⟩)
      unfold setMode
      split
      · split
        · exact h.set hmem _
        · exact h
      · exact h
  have hnone : SshTtymodes.none.Known := ⟨fun i hi => by simp [SshTtymodes.none] at hi, fun _ _ => rfl⟩
  exact ((hloop _ (fun _ h => h) _ hnone).set (.inr (.inl rfl)) _).set (.inr (.inr rfl)) _

end Conf

/-- A configuration without modes, at the default speed. -/
theorem ssh1_speeds_lost :
    (getTtymodesFromConf (fun _ => none) (fun _ => none) (fun _ _ => 0) (38400, 38400)).Known ∧
      ¬ RoundTrips 1 (getTtymodesFromConf (fun _ => none) (fun _ => none) (fun _ _ => 0) (38400, 38400)) := by
  have hknown := conf_modes_known (fun _ => none) (fun _ => none) (fun _ _ => 0) (38400, 38400)
  refine ⟨hknown, fun hround => ?_⟩
  have hspeeds := (ssh1_round_trips_iff hknown).mp hround
  simp [getTtymodesFromConf, SshTtymodes.set] at hspeeds

end Putty.Sshcommon
