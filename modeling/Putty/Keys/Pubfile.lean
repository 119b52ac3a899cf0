/-
  Putty.Keys.Pubfile — public keys alone, in a file as RFC 4716 has it or in OpenSSH's one
  line: ssh2_write_pubkey, rfc4716_loadpub and openssh_loadpub (`sshpubk.c`).

  The first form has the comment in quotes, with a backslash before what would end it, and
  base64 in lines of 64 characters; the second is algorithm, base64 and comment with spaces
  between. `none` is what the code leaves undefined: a line or a buffer that an int does not
  count, and a one-line file of no lines.

  Proved (`pubfile_round_trip`): blob, comment and algorithm name come back, whatever bytes
  the blob has after its algorithm name and whatever the comment holds but line ends. An
  algorithm name that a NUL or, in one line, a space or a line end is part of does not
  (`spaced_name_refused`).
-/

import Putty.Keys.Lines

namespace Putty.Keys

open Putty.Utils

def QUOTE : UInt8 := 34
def BACKSLASH : UInt8 := 92
def DASH : UInt8 := 45

def beginLine : Bytes := text "---- BEGIN SSH2 PUBLIC KEY ----"
def endLine : Bytes := text "---- END SSH2 PUBLIC KEY ----"

/-! ## Writing -/

def escapeComment (comment : Bytes) : Bytes := comment.flatMap fun c => if c = BACKSLASH ∨ c = QUOTE then [BACKSLASH, c] else [c]

/-- What follows an atom, and the column after it. -/
def nextColumn (column : Nat) : Bytes × Nat := if column + 1 ≥ 16 then ([LF], 0) else ([], column + 1)

/-- The loop over the blob, and the end of its last line. -/
def rfc4716Atoms : Bytes → Nat → Bytes
  | [], column => if column > 0 then [LF] else []
  | [a], column => base64EncodeAtom [a] 1 ++ (nextColumn column).1 ++ rfc4716Atoms [] (nextColumn column).2
  | [a, b], column => base64EncodeAtom [a, b] 2 ++ (nextColumn column).1 ++ rfc4716Atoms [] (nextColumn column).2
  | a :: b :: c :: blob, column =>
    base64EncodeAtom [a, b, c] 3 ++ (nextColumn column).1 ++ rfc4716Atoms blob (nextColumn column).2

def rfc4716Text (comment : Option CString) (pubBlob : Bytes) : Bytes :=
  beginLine ++ [LF] ++
  (match comment with
    | none => []
    | some comment => text "Comment: \"" ++ escapeComment comment.bytes ++ [QUOTE, LF]) ++
  rfc4716Atoms pubBlob 0 ++
  endLine ++ [LF]

/-- ssh2_pubkey_openssh_str_internal. -/
def ssh2PubkeyOpensshStr (comment : Option CString) (pubBlob : Bytes) : Option Bytes :=
  let (alg, src) := (BinarySource.ofData pubBlob).getString
  let alg := if src.err then text "INVALID-ALGORITHM" else alg
  -- the size of the base64 is an int
  if 4 * ((pubBlob.length + 2) / 3) < 2 ^ 31 then
    some ((cstr alg).bytes ++ SPACE :: atoms pubBlob ++ match comment with
      | none => []
      | some comment => SPACE :: comment.bytes)
  else none

inductive PubFormat
  | rfc4716
  | openssh
  deriving DecidableEq

/-- ssh2_write_pubkey: the file it leaves. -/
def ssh2WritePubkey (p : Platform) (comment : Option CString) (pubBlob : Bytes) : PubFormat → Option Stream
  | .rfc4716 => some (p.written (rfc4716Text comment pubBlob))
  | .openssh => (ssh2PubkeyOpensshStr comment pubBlob).map fun s => p.written (s ++ [LF])

/-! ## Reading -/

inductive PubError
  | beginInvalid
  | truncated
  | unknownHeader
  | endInvalid
  | notEnough
  | prefixInvalid
  | noBlob
  | lengthInvalid
  | mismatch
  deriving DecidableEq, Repr

def PubError.text : PubError → String
  | beginInvalid => "invalid begin line in SSH-2 public key file"
  | truncated => "truncated SSH-2 public key file"
  | unknownHeader => "unrecognised header in SSH-2 public key file"
  | endInvalid => "invalid end line in SSH-2 public key file"
  | notEnough => "not enough data in SSH-2 public key file"
  | prefixInvalid => "invalid algorithm prefix in SSH-2 public key file"
  | noBlob => "no key blob in OpenSSH public key file"
  | lengthInvalid => "invalid length for base64 data in OpenSSH public key file"
  | mismatch => "key algorithms do not match in OpenSSH public key file"

/-- What a loader gives; there may be no comment. -/
structure LoadedPub where
  algorithm : Bytes
  blob : Bytes
  comment : Option CString
  deriving DecidableEq

/-- strstr for the colon and the space of a header: the text before them and after. -/
def splitHeader : Bytes → Option (Bytes × Bytes)
  | [] => none
  | c :: s => if c = COLON ∧ s.head? = some SPACE then some ([], s.tail) else (splitHeader s).map fun r => (c :: r.1, r.2)

def unquote (value : Bytes) : Bytes :=
  if value.head? = some QUOTE ∧ value.getLast? = some QUOTE then value.dropLast.drop 1 else value

def unescape : Bytes → Bytes
  | [] => []
  | [c] => [c]
  | c :: c' :: s => if c = BACKSLASH then c' :: unescape s else c :: unescape (c' :: s)

/-- The header lines; the line after them is the first of the base64. -/
def rfc4716Headers : Nat → Option CString → Stream → Option (Except PubError (Bytes × Option CString × Stream))
  | 0, _, _ => none
  | fuel + 1, comment, fp => do
    let (line, fp) ← nextLine fp
    match line with
    | none => some (.error .truncated)
    | some line =>
      match splitHeader line with
      | none => some (.ok (line, comment, fp))
      | some (name, value) =>
        if name = text "Comment" then rfc4716Headers fuel (some (cstr (unescape (unquote value)))) fp
        else if name = text "Subject" ∨ name.take 2 = text "x-" then rfc4716Headers fuel comment fp
        else some (.error .unknownHeader)

/-- The characters of an atom so far, and the blob. -/
structure Decoding where
  base64in : Bytes
  pubblob : Bytes

def Decoding.read (d : Decoding) (c : UInt8) : Decoding :=
  match d.base64in with
  | [c₀, c₁, c₂] => ⟨[], d.pubblob ++ (base64DecodeAtom c₀ c₁ c₂ c).getD []⟩
  | cs => ⟨cs ++ [c], d.pubblob⟩

/-- The lines up to one that starts with a dash, and that line. -/
def rfc4716Body : Nat → Option Bytes → Decoding → Stream → Option (Option Bytes × Decoding)
  | 0, _, _, _ => none
  | _ + 1, none, d, _ => some (none, d)
  | fuel + 1, some line, d, fp =>
    if line.head? = some DASH then some (some line, d)
    else do
      let (next, fp) ← nextLine fp
      rfc4716Body fuel next (line.foldl Decoding.read d) fp

def rfc4716Loadpub (fp : Stream) : Option (Except PubError LoadedPub) := do
  let fuel := fp.length + 1
  let (line, fp) ← nextLine fp
  if line ≠ some beginLine then some (.error .beginInvalid)
  else
    match ← rfc4716Headers fuel none fp with
    | .error e => some (.error e)
    | .ok (line, comment, fp) =>
      let (line, d) ← rfc4716Body fuel (some line) ⟨[], []⟩ fp
      if line ≠ some endLine then some (.error .endInvalid)
      else if d.pubblob.length < 4 then some (.error .notEnough)
      else
        let alglen := (BinarySource.get32BitMsbFirst (d.pubblob.take 4)).toNat
        -- toint
        if alglen ≥ 2 ^ 31 ∨ alglen > d.pubblob.length - 4 then some (.error .prefixInvalid)
        else some (.ok ⟨(cstr ((d.pubblob.drop 4).take alglen)).bytes, d.pubblob, comment⟩)

/-- The atoms of a string, each with room for its three bytes, and what is left of it. -/
def decodeAtoms : Bytes → Bytes × Bytes
  | c₀ :: c₁ :: c₂ :: c₃ :: base64 => ((base64DecodeAtom c₀ c₁ c₂ c₃).getD [] ++ (decodeAtoms base64).1, (decodeAtoms base64).2)
  | base64 => ([], base64)

/-- strchr for a space: the text before it, and after it if it is there. -/
def splitSpace (s : Bytes) : Bytes × Option Bytes :=
  (s.takeWhile (· ≠ SPACE), match s.dropWhile (· ≠ SPACE) with
    | [] => none
    | _ :: after => some after)

def opensshLoadpub (fp : Stream) : Option (Except PubError LoadedPub) := do
  match ← nextLine fp with
  | (none, _) => none
  | (some line, _) =>
    let (line, base64) := splitSpace line
    match base64 with
    | none => some (.error .noBlob)
    | some base64 =>
      let (base64, comment) := splitSpace base64
      let (pubblob, base64) := decodeAtoms base64
      if base64 ≠ [] then some (.error .lengthInvalid)
      else if pubblob.length < line.length + 4 ∨ (BinarySource.get32BitMsbFirst (pubblob.take 4)).toNat ≠ line.length ∨
          (pubblob.drop 4).take line.length ≠ line then some (.error .mismatch)
      else some (.ok ⟨line, pubblob, comment.map cstr⟩)

/-- The reader of each form. -/
def loadpub : PubFormat → Stream → Option (Except PubError LoadedPub)
  | .rfc4716 => rfc4716Loadpub
  | .openssh => opensshLoadpub

variable {p : Platform}

/-! ## Lines of a file -/

/-- A line that is read as it was written. -/
structure Plain (s : Bytes) : Prop where
  oneLine : OneLine s
  no_nul : 0 ∉ s
  counted : s.length + 2 < 2 ^ 31

def fileLines (p : Platform) (ls : List Bytes) : Stream := ls.flatMap (· ++ p.newline)

theorem written_lines : ∀ {ls : List Bytes}, (∀ l ∈ ls, OneLine l) → p.written (ls.flatMap (· ++ [LF])) = fileLines p ls
  | [], _ => rfl
  | l :: ls, h => by
    rw [List.flatMap_cons, written_append, written_append, written_line (h l List.mem_cons_self), written_newline,
      written_lines fun m hm => h m (List.mem_cons_of_mem l hm)]
    rfl

theorem nextLine_cons {l : Bytes} (ls : List Bytes) (h : Plain l) :
    nextLine (fileLines p (l :: ls)) = some (some l, fileLines p ls) := by
  rw [fileLines, List.flatMap_cons]
  exact nextLine_line _ h.oneLine h.no_nul h.counted

theorem beginLine_plain : Plain beginLine := ⟨by decide +kernel, by decide +kernel, by decide +kernel⟩

theorem endLine_plain : Plain endLine := ⟨by decide +kernel, by decide +kernel, by decide +kernel⟩

theorem length_fileLines : ∀ ls : List Bytes, ls.length ≤ (fileLines p ls).length
  | [] => Nat.le_refl _
  | l :: ls => by
    have ih := length_fileLines ls
    have hnewline : 0 < p.newline.length := by cases p <;> decide
    unfold fileLines at ih ⊢
    rw [List.flatMap_cons, List.length_append, List.length_append, List.length_cons]
    omega

/-! ## Base64 in rows -/

/-- Characters in rows of at most 64, the first of them begun in this column. -/
def InRows (written : Bytes) (column : Nat) (chars : Bytes) : Prop :=
  ∃ (first : Bytes) (rows : List Bytes), written = (if column = 0 ∧ first = [] then [] else first ++ [LF]) ++ rows.flatMap (· ++ [LF]) ∧
    first ++ rows.flatten = chars ∧ first.length ≤ 4 * (16 - column) ∧ ∀ r ∈ rows, r ≠ [] ∧ r.length ≤ 64

theorem nextColumn_lt {column : Nat} (h : column < 16) : (nextColumn column).2 < 16 := by
  unfold nextColumn
  split
  · exact Nat.zero_lt_succ 15
  · dsimp only
    omega

theorem InRows.atom {written chars atom : Bytes} {column : Nat} (hatom : atom.length = 4) (hcol : column < 16)
    (h : InRows written (nextColumn column).2 chars) : InRows (atom ++ (nextColumn column).1 ++ written) column (atom ++ chars) := by
  have hne : atom ≠ [] := fun h0 => by rw [h0] at hatom; cases hatom
  obtain ⟨first, rows, hwritten, hchars, hfirst, hrows⟩ := h
  by_cases hfull : column + 1 ≥ 16
  · -- the atom ends the row, and the row that follows may be none
    rw [nextColumn, if_pos hfull] at hwritten hfirst ⊢
    refine ⟨atom, (if first = [] then [] else [first]) ++ rows, ?_, ?_, by omega, ?_⟩
    · rw [if_neg fun h0 => hne h0.2, hwritten]
      by_cases h0 : first = []
      · rw [if_pos ⟨rfl, h0⟩, if_pos h0, List.nil_append, List.nil_append]
      · rw [if_neg fun h => h0 h.2, if_neg h0, List.flatMap_append, List.flatMap_singleton]
    · rw [← hchars]
      by_cases h0 : first = []
      · rw [if_pos h0, h0, List.nil_append, List.nil_append]
      · rw [if_neg h0, List.singleton_append, List.flatten_cons]
    · intro r hr
      rcases List.mem_append.mp hr with hr | hr
      · by_cases h0 : first = []
        · rw [if_pos h0] at hr
          cases hr
        · rw [if_neg h0] at hr
          rw [List.mem_singleton.mp hr]
          exact ⟨h0, hfirst⟩
      · exact hrows r hr
  · rw [nextColumn, if_neg hfull] at hwritten hfirst ⊢
    dsimp only at hwritten hfirst
    refine ⟨atom ++ first, rows, ?_, ?_, ?_, hrows⟩
    · rw [if_neg fun h0 => hne (List.append_eq_nil_iff.mp h0.2).1, hwritten, if_neg fun h0 => Nat.succ_ne_zero column h0.1]
      simp only [List.append_nil, List.append_assoc]
    · rw [List.append_assoc, hchars]
    · rw [List.length_append]
      omega

theorem rfc4716Atoms_rows : ∀ (data : Bytes) {column : Nat}, column < 16 → InRows (rfc4716Atoms data column) column (atoms data)
  | [], column, _ => by
    refine ⟨[], [], ?_, rfl, Nat.zero_le _, by simp⟩
    rw [rfc4716Atoms]
    rcases Nat.eq_zero_or_pos column with rfl | hpos
    · rfl
    · rw [if_pos hpos, if_neg fun h0 => by omega]
      rfl
  | [a], column, h => by
    have hrest := rfc4716Atoms_rows [] (nextColumn_lt h)
    have hrow := @InRows.atom _ _ (base64EncodeAtom [a] 1) column rfl h hrest
    rwa [atoms, List.append_nil] at hrow
  | [a, b], column, h => by
    have hrest := rfc4716Atoms_rows [] (nextColumn_lt h)
    have hrow := @InRows.atom _ _ (base64EncodeAtom [a, b] 2) column rfl h hrest
    rwa [atoms, List.append_nil] at hrow
  | a :: b :: c :: data, column, h => (rfc4716Atoms_rows data (nextColumn_lt h)).atom rfl h

theorem rows_of_blob (blob : Bytes) :
    ∃ rows : List Bytes, rfc4716Atoms blob 0 = rows.flatMap (· ++ [LF]) ∧ rows.flatten = atoms blob ∧ ∀ r ∈ rows, r ≠ [] ∧ r.length ≤ 64 := by
  obtain ⟨first, rows, hwritten, hchars, hfirst, hrows⟩ := rfc4716Atoms_rows blob (Nat.zero_lt_succ 15)
  by_cases h0 : first = []
  · rw [if_pos ⟨rfl, h0⟩, List.nil_append] at hwritten
    rw [h0, List.nil_append] at hchars
    exact ⟨rows, hwritten, hchars, hrows⟩
  · rw [if_neg fun h => h0 h.2] at hwritten
    refine ⟨first :: rows, by rw [hwritten, List.flatMap_cons], by rw [List.flatten_cons, hchars], ?_⟩
    intro r hr
    rcases List.mem_cons.mp hr with rfl | hr
    · exact ⟨h0, hfirst⟩
    · exact hrows r hr

theorem atoms_marks {data : Bytes} {c : UInt8} (h : c ∈ atoms data) : c ≠ COLON ∧ c ≠ DASH ∧ c ≠ SPACE := by
  rcases mem_atoms h with h | rfl
  · exact ⟨base64Chars_ne h (by decide), base64Chars_ne h (by decide), base64Chars_ne h (by decide)⟩
  · decide

/-! ## Atoms decoded -/

theorem decode_line : ∀ {s out : Bytes}, decodeLine s = some out → s.length % 4 = 0 →
    decodeAtoms s = (out, []) ∧ ∀ b, s.foldl Decoding.read ⟨[], b⟩ = ⟨[], b ++ out⟩
  | [], out, h, _ => by
    obtain rfl : [] = out := Option.some.inj h
    exact ⟨rfl, fun b => by rw [List.append_nil]; rfl⟩
  | c₀ :: c₁ :: c₂ :: c₃ :: s, out, h, hlen => by
    rw [decodeLine] at h
    obtain ⟨atom, hatom, h⟩ := Option.bind_eq_some_iff.mp h
    obtain ⟨more, hmore, h⟩ := Option.bind_eq_some_iff.mp h
    obtain rfl : atom ++ more = out := Option.some.inj h
    simp only [List.length_cons] at hlen
    obtain ⟨hatoms, hread⟩ := decode_line hmore (by omega)
    refine ⟨?_, fun b => ?_⟩
    · rw [decodeAtoms, hatom, hatoms, Option.getD_some]
    · show s.foldl Decoding.read ⟨[], b ++ (base64DecodeAtom c₀ c₁ c₂ c₃).getD []⟩ = _
      rw [hatom, Option.getD_some, hread, List.append_assoc]

theorem decode_atoms (data : Bytes) : decodeAtoms (atoms data) = (data, []) ∧ (atoms data).foldl Decoding.read ⟨[], []⟩ = ⟨[], data⟩ := by
  obtain ⟨hatoms, hread⟩ := decode_line (decodeLine_atoms data) (by rw [length_atoms]; omega)
  exact ⟨hatoms, hread []⟩

/-! ## The comment -/

theorem unescape_escape : ∀ s : Bytes, unescape (escapeComment s) = s
  | [] => rfl
  | c :: s => by
    have ih := unescape_escape s
    rw [escapeComment, List.flatMap_cons]
    change unescape ((if c = BACKSLASH ∨ c = QUOTE then [BACKSLASH, c] else [c]) ++ escapeComment s) = c :: s
    by_cases hc : c = BACKSLASH ∨ c = QUOTE
    · rw [if_pos hc]
      show unescape (BACKSLASH :: c :: escapeComment s) = c :: s
      rw [unescape, if_pos rfl, ih]
    · rw [if_neg hc, List.singleton_append]
      have hb : c ≠ BACKSLASH := fun h => hc (Or.inl h)
      generalize escapeComment s = e at ih ⊢
      cases e with
      | nil => rw [unescape, ← ih]; rfl
      | cons c' e => rw [unescape, if_neg hb, ih]

theorem unquote_quoted (s : Bytes) : unquote (QUOTE :: (s ++ [QUOTE])) = s := by
  have hlast : (QUOTE :: (s ++ [QUOTE])).getLast? = some QUOTE := by rw [← List.cons_append, List.getLast?_concat]
  rw [unquote, if_pos ⟨rfl, hlast⟩, ← List.cons_append, List.dropLast_concat, List.drop_one, List.tail_cons]

theorem splitHeader_none : ∀ {s : Bytes}, COLON ∉ s → splitHeader s = none
  | [], _ => rfl
  | c :: s, h => by
    have hc : c ≠ COLON := fun he => h (he ▸ List.mem_cons_self)
    rw [splitHeader, if_neg fun hboth => hc hboth.1, splitHeader_none fun hm => h (List.mem_cons_of_mem c hm)]
    rfl

def commentLine (comment : Bytes) : Bytes := text "Comment: \"" ++ (escapeComment comment ++ [QUOTE])

theorem splitHeader_comment (comment : Bytes) :
    splitHeader (commentLine comment) = some (text "Comment", QUOTE :: (escapeComment comment ++ [QUOTE])) := rfl

theorem mem_escapeComment {c : UInt8} {comment : Bytes} (h : c ∈ escapeComment comment) : c ∈ comment ∨ c = BACKSLASH := by
  obtain ⟨d, hd, hc⟩ := List.mem_flatMap.mp h
  split at hc
  · simp only [List.mem_cons, List.not_mem_nil, or_false] at hc
    rcases hc with rfl | rfl
    · exact Or.inr rfl
    · exact Or.inl hd
  · rw [List.mem_singleton.mp hc]
    exact Or.inl hd

theorem commentLine_plain {comment : CString} (h : OneLine comment.bytes) (hlen : (commentLine comment.bytes).length + 2 < 2 ^ 31) :
    Plain (commentLine comment.bytes) := by
  have hname : OneLine (text "Comment: \"") ∧ 0 ∉ text "Comment: \"" := ⟨by decide +kernel, by decide +kernel⟩
  have hquote : OneLine [QUOTE] := by decide
  have hescaped : OneLine (escapeComment comment.bytes) := fun c hc => (mem_escapeComment hc).elim (h c) fun hb => by rw [hb]; decide
  refine ⟨hname.1.append (hescaped.append hquote), ?_, hlen⟩
  intro h0
  rcases List.mem_append.mp h0 with h0 | h0
  · exact hname.2 h0
  · rcases List.mem_append.mp h0 with h0 | h0
    · exact (mem_escapeComment h0).elim comment.no_nul (by decide)
    · exact absurd h0 (by decide)

/-! ## RFC 4716 -/

/-- A row of base64. -/
structure Row (r : Bytes) : Prop where
  plain : Plain r
  not_end : r.head? ≠ some DASH
  no_colon : COLON ∉ r

theorem row_of_atoms {data r : Bytes} (hlen : r.length ≤ 64) (h : ∀ c ∈ r, c ∈ atoms data) : Row r where
  plain := ⟨fun c hc => (atoms_clean (h c hc)).2, fun h0 => (atoms_clean (h 0 h0)).1 rfl, by omega⟩
  not_end := fun hd => (atoms_marks (h DASH (List.mem_of_mem_head? hd))).2.1 rfl
  no_colon := fun hc => (atoms_marks (h COLON hc)).1 rfl

theorem rfc4716Body_rows : ∀ (rows : List Bytes) {fuel : Nat} {line : Bytes} {more : List Bytes} (d : Decoding),
    rows ++ [endLine] = line :: more → rows.length < fuel → (∀ r ∈ rows, Row r) →
    rfc4716Body fuel (some line) d (fileLines p more) = some (some endLine, rows.flatten.foldl Decoding.read d)
  | [], fuel + 1, line, more, d, h, _, _ => by
    obtain ⟨rfl, rfl⟩ := List.cons.inj h
    rfl
  | r :: rows, fuel + 1, line, more, d, h, hfuel, hrows => by
    have hmore : more = rows ++ [endLine] := (List.cons.inj h).2.symm
    obtain rfl := (List.cons.inj h).1
    obtain ⟨next, after, hnext⟩ := List.exists_cons_of_ne_nil (List.append_ne_nil_of_right_ne_nil rows (List.cons_ne_nil endLine []))
    have hplain : Plain next := by
      cases rows with
      | nil =>
        obtain ⟨rfl, -⟩ := List.cons.inj hnext
        exact endLine_plain
      | cons r' rows =>
        obtain ⟨rfl, -⟩ := List.cons.inj hnext
        exact (hrows r' (List.mem_cons_of_mem r List.mem_cons_self)).plain
    rw [rfc4716Body, if_neg (hrows r List.mem_cons_self).not_end, hmore, hnext, nextLine_cons _ hplain, List.flatten_cons,
      List.foldl_append]
    exact rfc4716Body_rows rows _ hnext (Nat.lt_of_succ_lt_succ hfuel) fun r' hr' => hrows r' (List.mem_cons_of_mem r hr')

/-- The header of a file, or none, and what is then the first line of the base64. -/
theorem rfc4716Headers_lines {comment : Option CString} (hcomment : ∀ c ∈ comment, Plain (commentLine c.bytes)) {line : Bytes}
    (more : List Bytes) (hline : Plain line) (hcolon : COLON ∉ line) {fuel : Nat} (hfuel : 1 < fuel) :
    rfc4716Headers fuel none (fileLines p ((comment.map fun c => commentLine c.bytes).toList ++ line :: more)) =
      some (.ok (line, comment, fileLines p more)) := by
  obtain ⟨fuel, rfl⟩ : ∃ n, fuel = n + 2 := ⟨fuel - 2, by omega⟩
  have hlast : ∀ n c, rfc4716Headers (n + 1) c (fileLines p (line :: more)) = some (.ok (line, c, fileLines p more)) := by
    intro n c
    rw [rfc4716Headers, nextLine_cons more hline]
    simp only [Option.bind_eq_bind, Option.bind_some, splitHeader_none hcolon]
  cases comment with
  | none => exact hlast (fuel + 1) none
  | some c =>
    rw [Option.map_some, Option.toList_some, List.singleton_append, rfc4716Headers, nextLine_cons _ (hcomment c rfl)]
    simp only [Option.bind_eq_bind, Option.bind_some, splitHeader_comment, if_true, unquote_quoted, unescape_escape, cstr_self]
    exact hlast fuel (some c)

/-- The algorithm name that a blob starts with. -/
theorem blob_head {alg rest : Bytes} (hlen : (putString alg ++ rest).length < 2 ^ 31) :
    (BinarySource.get32BitMsbFirst ((putString alg ++ rest).take 4)).toNat = alg.length ∧
      ((putString alg ++ rest).drop 4).take alg.length = alg ∧ alg.length + 4 ≤ (putString alg ++ rest).length := by
  have hsize : (putString alg ++ rest).length = 4 + alg.length + rest.length := by
    rw [putString, List.length_append, List.length_append]
    rfl
  have htake : (putString alg ++ rest).take 4 = put32BitMsbFirst alg.length := by
    rw [putString, List.append_assoc]
    exact List.take_left' rfl
  have hdrop : (putString alg ++ rest).drop 4 = alg ++ rest := by
    rw [putString, List.append_assoc]
    exact List.drop_left' rfl
  rw [hsize] at hlen ⊢
  rw [htake, hdrop, List.take_left]
  exact ⟨get32_put32 (by omega), rfl, by omega⟩

theorem rfc4716Text_lines (comment : Option CString) (blob : Bytes) {rows : List Bytes}
    (hrows : rfc4716Atoms blob 0 = rows.flatMap (· ++ [LF])) :
    rfc4716Text comment blob =
      (beginLine :: ((comment.map fun c => commentLine c.bytes).toList ++ (rows ++ [endLine]))).flatMap (· ++ [LF]) := by
  cases comment with
  | none => simp [rfc4716Text, hrows]
  | some c => simp [rfc4716Text, hrows, commentLine]

theorem rfc4716_lines {alg rest : Bytes} (hnul : 0 ∉ alg) (hlen : (putString alg ++ rest).length < 2 ^ 31) {comment : Option CString}
    (hcomment : ∀ c ∈ comment, OneLine c.bytes) (hcount : ∀ c ∈ comment, (commentLine c.bytes).length + 2 < 2 ^ 31) :
    rfc4716Loadpub (p.written (rfc4716Text comment (putString alg ++ rest))) =
      some (.ok ⟨alg, putString alg ++ rest, comment⟩) := by
  obtain ⟨hget, htake, hroom⟩ := blob_head hlen
  generalize hblob : putString alg ++ rest = blob at *
  obtain ⟨rows, hwritten, hflat, hshort⟩ := rows_of_blob blob
  have hrow : ∀ r ∈ rows, Row r := fun r hr => row_of_atoms (hshort r hr).2 fun c hc => hflat ▸ List.mem_flatten.mpr ⟨r, hr, hc⟩
  have hheader : ∀ c ∈ comment, Plain (commentLine c.bytes) := fun c hc => commentLine_plain (hcomment c hc) (hcount c hc)
  have hplain : ∀ l ∈ beginLine :: ((comment.map fun c => commentLine c.bytes).toList ++ (rows ++ [endLine])), Plain l := by
    intro l hl
    simp only [List.mem_cons, List.mem_append, List.not_mem_nil, or_false, Option.mem_toList] at hl
    rcases hl with rfl | hl | hl | rfl
    · exact beginLine_plain
    · obtain ⟨c, hc, rfl⟩ := Option.map_eq_some_iff.mp hl
      exact hheader c hc
    · exact (hrow l hl).plain
    · exact endLine_plain
  rw [rfc4716Text_lines comment blob hwritten, written_lines fun l hl => (hplain l hl).oneLine]
  obtain ⟨line, more, hmore⟩ := List.exists_cons_of_ne_nil (List.append_ne_nil_of_right_ne_nil rows (List.cons_ne_nil endLine []))
  have hline : Plain line ∧ COLON ∉ line := by
    have hmem : line ∈ rows ++ [endLine] := by rw [hmore]; exact List.mem_cons_self
    rcases List.mem_append.mp hmem with hr | hr
    · exact ⟨(hrow line hr).plain, (hrow line hr).no_colon⟩
    · rw [List.mem_singleton.mp hr]
      exact ⟨endLine_plain, by decide +kernel⟩
  have hfuel := length_fileLines (p := p) (beginLine :: ((comment.map fun c => commentLine c.bytes).toList ++ (rows ++ [endLine])))
  simp only [List.length_cons, List.length_append, List.length_nil] at hfuel
  generalize hstart : (fileLines p (beginLine :: ((comment.map fun c => commentLine c.bytes).toList ++ (rows ++ [endLine])))).length = n at hfuel
  unfold rfc4716Loadpub
  simp only [hstart, nextLine_cons _ beginLine_plain, Option.bind_eq_bind, Option.bind_some, ne_eq, not_true_eq_false, if_false]
  rw [hmore, rfc4716Headers_lines hheader more hline.1 hline.2 (by omega)]
  simp only [Option.bind_some]
  rw [rfc4716Body_rows rows ⟨[], []⟩ hmore (by omega) hrow, hflat, (decode_atoms blob).2]
  simp only [Option.bind_some, not_true_eq_false, if_false, hget, htake]
  rw [if_neg (by omega), if_neg (by omega), cstr_bytes hnul]

/-! ## One line -/

theorem splitSpace_at {a : Bytes} (b : Bytes) (h : SPACE ∉ a) : splitSpace (a ++ SPACE :: b) = (a, some b) := by
  have hall : ∀ c ∈ a, decide (c ≠ SPACE) = true := fun c hc => decide_eq_true fun he => h (he ▸ hc)
  rw [splitSpace, List.takeWhile_append_of_pos hall, List.dropWhile_append_of_pos hall,
    List.takeWhile_cons_of_neg (by simp), List.dropWhile_cons_of_neg (by simp), List.append_nil]

theorem splitSpace_none {a : Bytes} (h : SPACE ∉ a) : splitSpace a = (a, none) := by
  have hall : ∀ c ∈ a, decide (c ≠ SPACE) = true := fun c hc => decide_eq_true fun he => h (he ▸ hc)
  have hsplit := splitSpace_at [] h
  rw [splitSpace, List.takeWhile_append_of_pos hall] at hsplit
  rw [splitSpace, List.takeWhile_eq_self_iff.mpr hall, List.dropWhile_eq_nil_iff.mpr hall]

/-- The rest of the line, after the algorithm. -/
def blobAndComment (blob : Bytes) (comment : Option CString) : Bytes :=
  atoms blob ++ match comment with
    | none => []
    | some comment => SPACE :: comment.bytes

theorem splitSpace_blob (blob : Bytes) (comment : Option CString) :
    splitSpace (blobAndComment blob comment) = (atoms blob, comment.map CString.bytes) := by
  have hspace : SPACE ∉ atoms blob := fun h => (atoms_marks h).2.2 rfl
  cases comment with
  | none =>
    rw [blobAndComment, List.append_nil]
    exact splitSpace_none hspace
  | some comment => exact splitSpace_at _ hspace

theorem opensshStr_eq {alg rest : Bytes} (hnul : 0 ∉ alg) (comment : Option CString)
    (hlen : 4 * (((putString alg ++ rest).length + 2) / 3) < 2 ^ 31) :
    ssh2PubkeyOpensshStr comment (putString alg ++ rest) = some (alg ++ SPACE :: blobAndComment (putString alg ++ rest) comment) := by
  have hsize : alg.length < 2 ^ 32 := by
    rw [putString, List.length_append, List.length_append] at hlen
    omega
  obtain ⟨halg, hreads⟩ := BinarySource.getString_reads hsize (BinarySource.ofData_reads (putString alg ++ rest))
  unfold ssh2PubkeyOpensshStr
  dsimp only
  rw [halg, hreads.1, if_neg Bool.false_ne_true, if_pos hlen, cstr_bytes hnul, List.append_assoc]
  rfl

theorem openssh_line {alg rest : Bytes} (hnul : 0 ∉ alg) (halg : OneLine alg) (hspace : SPACE ∉ alg) {comment : Option CString}
    (hcomment : ∀ c ∈ comment, OneLine c.bytes)
    (hlen : (alg ++ SPACE :: blobAndComment (putString alg ++ rest) comment).length + 2 < 2 ^ 31) :
    ∃ s, ssh2PubkeyOpensshStr comment (putString alg ++ rest) = some s ∧
      opensshLoadpub (p.written (s ++ [LF])) = some (.ok ⟨alg, putString alg ++ rest, comment⟩) := by
  have hsize : 4 * (((putString alg ++ rest).length + 2) / 3) ≤ (blobAndComment (putString alg ++ rest) comment).length := by
    have hatoms := length_atoms (putString alg ++ rest)
    generalize putString alg ++ rest = blob at hatoms
    unfold blobAndComment
    rw [List.length_append, hatoms]
    omega
  rw [List.length_append, List.length_cons] at hlen
  refine ⟨_, opensshStr_eq hnul comment (by omega), ?_⟩
  obtain ⟨hget, htake, hroom⟩ := @blob_head alg rest (by omega)
  generalize hblob : putString alg ++ rest = blob at *
  have hplain : Plain (alg ++ SPACE :: blobAndComment blob comment) := by
    have hrest : OneLine (blobAndComment blob comment) ∧ 0 ∉ blobAndComment blob comment := by
      refine ⟨fun c hc => ?_, fun h0 => ?_⟩
      · rcases List.mem_append.mp hc with hc | hc
        · exact (atoms_clean hc).2
        · cases comment with
          | none => cases hc
          | some comment =>
            rcases List.mem_cons.mp hc with rfl | hc
            · decide
            · exact hcomment comment rfl c hc
      · rcases List.mem_append.mp h0 with h0 | h0
        · exact (atoms_clean h0).1 rfl
        · cases comment with
          | none => cases h0
          | some comment =>
            rcases List.mem_cons.mp h0 with h0 | h0
            · cases h0
            · exact comment.no_nul h0
    refine ⟨halg.append fun c hc => ?_, fun h0 => ?_, by rw [List.length_append, List.length_cons]; omega⟩
    · rcases List.mem_cons.mp hc with rfl | hc
      · decide
      · exact hrest.1 c hc
    · rcases List.mem_append.mp h0 with h0 | h0
      · exact hnul h0
      · rcases List.mem_cons.mp h0 with h0 | h0
        · cases h0
        · exact hrest.2 h0
  have hwritten : p.written (alg ++ SPACE :: blobAndComment blob comment ++ [LF]) =
      fileLines p [alg ++ SPACE :: blobAndComment blob comment] := by
    rw [← written_lines (by simpa using hplain.oneLine)]
    simp
  rw [hwritten, opensshLoadpub, nextLine_cons [] hplain]
  simp only [Option.bind_eq_bind, Option.bind_some, splitSpace_at _ hspace, splitSpace_blob, (decode_atoms blob).1, ne_eq,
    not_true_eq_false, if_false, hget, htake]
  rw [if_neg (by simpa using hroom), Option.map_map]
  have hmap : comment.map (cstr ∘ CString.bytes) = comment := by
    cases comment with
    | none => rfl
    | some comment => exact congrArg some (cstr_self comment)
  rw [hmap]

/-! ## Both forms -/

/-- What is written of a blob and a comment is read back, with the algorithm name at the
    head of the blob, as far as an int counts the lines. -/
theorem pubfile_round_trip (p : Platform) {alg rest : Bytes} {comment : Option CString} (hnul : 0 ∉ alg)
    (hlen : (putString alg ++ rest).length < 2 ^ 31) (hcomment : ∀ c ∈ comment, OneLine c.bytes) :
    ((∀ c ∈ comment, (escapeComment c.bytes).length + 13 < 2 ^ 31) →
      ∃ file, ssh2WritePubkey p comment (putString alg ++ rest) .rfc4716 = some file ∧
        loadpub .rfc4716 file = some (.ok ⟨alg, putString alg ++ rest, comment⟩)) ∧
    (OneLine alg → SPACE ∉ alg → (alg ++ SPACE :: blobAndComment (putString alg ++ rest) comment).length + 2 < 2 ^ 31 →
      ∃ file, ssh2WritePubkey p comment (putString alg ++ rest) .openssh = some file ∧
        loadpub .openssh file = some (.ok ⟨alg, putString alg ++ rest, comment⟩)) := by
  refine ⟨fun hcount => ?_, fun halg hspace hcount => ?_⟩
  · refine ⟨_, rfl, rfc4716_lines hnul hlen hcomment fun c hc => ?_⟩
    have hname : (text "Comment: \"").length = 10 := rfl
    have := hcount c hc
    rw [commentLine, List.length_append, List.length_append, hname, List.length_singleton]
    omega
  · obtain ⟨s, hs, hload⟩ := openssh_line (p := p) hnul halg hspace hcomment hcount
    exact ⟨_, congrArg (Option.map _) hs, hload⟩

/-- A comment of quotes, a backslash and a space. -/
def quotedComment : CString := ⟨text "\"a\" \\ ", by decide +kernel⟩

theorem pubfile_quoted_comment :
    (∃ file, ssh2WritePubkey .windows (some quotedComment) (putString (text "ssh-ed25519") ++ [1, 2]) .rfc4716 = some file ∧
        loadpub .rfc4716 file = some (.ok ⟨text "ssh-ed25519", putString (text "ssh-ed25519") ++ [1, 2], some quotedComment⟩)) ∧
    ∃ file, ssh2WritePubkey .windows (some quotedComment) (putString (text "ssh-ed25519") ++ [1, 2]) .openssh = some file ∧
        loadpub .openssh file = some (.ok ⟨text "ssh-ed25519", putString (text "ssh-ed25519") ++ [1, 2], some quotedComment⟩) := by
  have hquoted : ∀ c ∈ some quotedComment, OneLine c.bytes ∧ (escapeComment c.bytes).length + 13 < 2 ^ 31 := by
    rintro c ⟨⟩
    exact ⟨by decide +kernel, by decide +kernel⟩
  have hboth := @pubfile_round_trip .windows (text "ssh-ed25519") [1, 2] (some quotedComment) (by decide +kernel)
    (by decide +kernel) fun c hc => (hquoted c hc).1
  exact ⟨hboth.1 fun c hc => (hquoted c hc).2, hboth.2 (by decide +kernel) (by decide +kernel) (by decide +kernel)⟩

/-- In one line, a name with a space ends at the space. -/
theorem spaced_name_refused :
    ¬ ∀ (p : Platform) (format : PubFormat) (alg rest : Bytes) (comment : CString), (putString alg ++ rest).length < 2 ^ 31 →
      OneLine comment.bytes → comment.bytes ≠ [] → ∃ file, ssh2WritePubkey p (some comment) (putString alg ++ rest) format = some file ∧
        loadpub format file = some (.ok ⟨alg, putString alg ++ rest, some comment⟩) := by
  intro hclaim
  obtain ⟨file, hfile, hload⟩ := hclaim .unix .openssh (text "a b") [] quotedComment (by decide +kernel) (by decide +kernel)
    (by decide +kernel)
  have hrefused : (ssh2WritePubkey .unix (some quotedComment) (putString (text "a b") ++ []) .openssh).bind (loadpub .openssh) =
      some (.error .lengthInvalid) := by rfl
  rw [hfile, Option.bind_some, hload] at hrefused
  cases hrefused

end Putty.Keys
