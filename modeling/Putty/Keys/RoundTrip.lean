/-
  Putty.Keys.RoundTrip — a key file is read back as it was written (`sshpubk.c`).

  Each reader is followed over what the writer put there: a line (`bodyLoop_line`), a header
  (`expectHeader_line`), a count (`parseLineCounter_decimal`), the lines of a blob
  (`readBlob_encode`), a counted blob (`readCounted_written`), and the whole file
  (`parse_written`, `loadpub_written`).
-/

import Mathlib.Data.List.TakeWhile
import Putty.Keys.Ppk

namespace Putty.Keys

open Putty.Utils

variable {p : Platform}

theorem ok_bind {ε α β : Type} (a : α) (f : α → Except ε β) : (Except.ok a >>= f) = f a := rfl

theorem error_bind {ε α β : Type} (e : ε) (f : α → Except ε β) : (Except.error e >>= f) = .error e := rfl

/-! ## Lines -/

/-- Nothing in it ends a line. -/
def OneLine (s : Bytes) : Prop := ∀ c ∈ s, c ≠ LF ∧ c ≠ CR

instance (s : Bytes) : Decidable (OneLine s) := List.decidableBAll (fun c => c ≠ LF ∧ c ≠ CR) s

/-- What follows a line is not taken for the second half of its ending. -/
def Follows (p : Platform) (rest : Stream) : Prop := p = .unix → ∀ c ∈ rest.head?, c ≠ LF ∧ c ≠ CR

theorem written_append (a b : Bytes) : p.written (a ++ b) = p.written a ++ p.written b := List.flatMap_append ..

theorem written_line {s : Bytes} (h : OneLine s) : p.written s = s := by
  induction s with
  | nil => rfl
  | cons c s ih =>
    have hc : p.fputc c = [c] := if_neg (h c List.mem_cons_self).1
    have hs := ih fun d hd => h d (List.mem_cons_of_mem _ hd)
    rw [Platform.written, List.flatMap_cons, hc]
    exact congrArg (c :: ·) hs

theorem written_newline : p.written [LF] = p.newline := by
  simp [Platform.written, Platform.fputc]

theorem OneLine.append {a b : Bytes} (ha : OneLine a) (hb : OneLine b) : OneLine (a ++ b) := fun c hc =>
  (List.mem_append.mp hc).elim (ha c) (hb c)

theorem header_written {name : String} {body : Bytes} (hn : OneLine (text name)) (hb : OneLine body) :
    p.written (header name body) = text name ++ (COLON :: SPACE :: (body ++ p.newline)) := by
  have hsep : OneLine [COLON, SPACE] := by decide
  rw [header, written_append, written_newline, written_line ((hn.append hsep).append hb)]
  simp

theorem bodyLoop_line {body rest : Bytes} (hb : OneLine body) (hr : Follows p rest) :
    bodyLoop (body ++ (p.newline ++ rest)) = (body, rest) := by
  induction body with
  | nil =>
    cases p with
    | windows => rfl
    | unix =>
      have hskip : skipEol rest = rest := by
        cases rest with
        | nil => rfl
        | cons c rest =>
          obtain ⟨h₁, h₂⟩ := hr rfl c rfl
          exact if_neg (not_or.mpr ⟨h₂, h₁⟩)
      show ([], skipEol rest) = _
      rw [hskip]
  | cons c body ih =>
    obtain ⟨h₁, h₂⟩ := hb c List.mem_cons_self
    have hrest := ih fun d hd => hb d (List.mem_cons_of_mem _ hd)
    rw [List.cons_append, bodyLoop, if_neg (not_or.mpr ⟨h₂, h₁⟩), hrest]

theorem cstr_bytes {s : Bytes} (h : 0 ∉ s) : (cstr s).bytes = s := by
  refine List.takeWhile_eq_self_iff.mpr fun c hc => ?_
  have hne : c ≠ 0 := fun e => h (e ▸ hc)
  simpa using hne

theorem CString.eq_of_bytes {s t : CString} (h : s.bytes = t.bytes) : s = t := by
  cases s
  cases t
  cases h
  rfl

theorem cstr_self (s : CString) : cstr s.bytes = s := CString.eq_of_bytes (cstr_bytes s.no_nul)

theorem readBody_line {body rest : Bytes} (hb : OneLine body) (hr : Follows p rest) :
    readBody (body ++ (p.newline ++ rest)) = (cstr body, rest) := by
  rw [readBody, bodyLoop_line hb hr]

/-! ## Headers -/

/-- A name that read_header takes whole. -/
def HeaderName (s : Bytes) : Prop := s ≠ [] ∧ s.length ≤ 39 ∧ ∀ c ∈ s, c ≠ LF ∧ c ≠ CR ∧ c ≠ COLON ∧ c ≠ 0

instance (s : Bytes) : Decidable (HeaderName s) :=
  have : Decidable (∀ c ∈ s, c ≠ LF ∧ c ≠ CR ∧ c ≠ COLON ∧ c ≠ 0) := List.decidableBAll _ s
  inferInstanceAs (Decidable (s ≠ [] ∧ s.length ≤ 39 ∧ ∀ c ∈ s, c ≠ LF ∧ c ≠ CR ∧ c ≠ COLON ∧ c ≠ 0))

theorem HeaderName.oneLine {s : Bytes} (h : HeaderName s) : OneLine s := fun c hc => ⟨(h.2.2 c hc).1, (h.2.2 c hc).2.1⟩

theorem headerLoop_name (rest : Stream) : ∀ (s : Bytes) (len : Nat) (buf : Bytes), s.length ≤ len →
    (∀ c ∈ s, c ≠ LF ∧ c ≠ CR ∧ c ≠ COLON) →
    headerLoop len buf (s ++ COLON :: SPACE :: rest) = .ok (cstr (buf ++ s), rest) := by
  intro s
  induction s with
  | nil =>
    intro len buf _ _
    rw [List.nil_append, List.append_nil, headerLoop.eq_def]
    rfl
  | cons c s ih =>
    intro len buf hlen hc
    obtain ⟨h₁, h₂, h₃⟩ := hc c List.mem_cons_self
    cases len with
    | zero => exact absurd hlen (Nat.not_succ_le_zero _)
    | succ len =>
      rw [List.cons_append, headerLoop.eq_def]
      dsimp only
      rw [if_neg (not_or.mpr ⟨h₁, h₂⟩), if_neg h₃]
      have hrest := ih len (buf ++ [c]) (Nat.le_of_succ_le_succ hlen) fun d hd => hc d (List.mem_cons_of_mem _ hd)
      rw [List.append_assoc, List.singleton_append] at hrest
      exact hrest

theorem readHeader_name {s : Bytes} (h : HeaderName s) (rest : Stream) :
    readHeader (s ++ COLON :: SPACE :: rest) = .ok (cstr s, rest) :=
  headerLoop_name rest s 39 [] h.2.1 fun c hc => ⟨(h.2.2 c hc).1, (h.2.2 c hc).2.1, (h.2.2 c hc).2.2.1⟩

theorem HeaderName.bytes {s : Bytes} (h : HeaderName s) : (cstr s).bytes = s :=
  cstr_bytes fun h0 => (h.2.2 0 h0).2.2.2 rfl

theorem expectHeader_line {name : String} (h : HeaderName (text name)) (rest : Stream) :
    expectHeader name (text name ++ COLON :: SPACE :: rest) = .ok rest := by
  rw [expectHeader, readHeader_name h]
  exact if_pos h.bytes

/-- A line ending is no header. -/
theorem expectHeader_newline (name : String) (rest : Stream) : expectHeader name (p.newline ++ rest) = .error .fileFormat := by
  cases p <;> rfl

/-! ## Numbers -/

theorem decimal_digits (n : Nat) : ∀ c ∈ decimal n, isdigit c = true := by
  have hdigit : ∀ d < 10, isdigit (UInt8.ofNat (48 + d)) = true := by decide
  fun_induction decimal n with
  | case1 n h =>
    intro c hc
    rw [List.mem_singleton.mp hc]
    exact hdigit n h
  | case2 n h ih =>
    intro c hc
    rcases List.mem_append.mp hc with hc | hc
    · exact ih c hc
    · rw [List.mem_singleton.mp hc]
      exact hdigit _ (Nat.mod_lt _ (by decide))

theorem decimal_ne_nil (n : Nat) : decimal n ≠ [] := by
  fun_cases decimal n <;> simp

theorem digitsValue_decimal (n : Nat) : digitsValue (decimal n) = n := by
  have hdigit : ∀ d < 10, (UInt8.ofNat (48 + d)).toNat - 48 = d := by decide
  fun_induction decimal n with
  | case1 n h =>
    rw [digitsValue, List.foldl_cons, List.foldl_nil, hdigit n h]
    omega
  | case2 n h ih =>
    have hd := hdigit (n % 10) (Nat.mod_lt _ (by decide))
    rw [digitsValue, List.foldl_append]
    rw [digitsValue] at ih
    rw [ih, List.foldl_cons, List.foldl_nil, hd]
    omega

theorem digit_plain {c : UInt8} (h : isdigit c = true) : c ≠ 0 ∧ c ≠ LF ∧ c ≠ CR ∧ c ≠ PLUS ∧ c ≠ MINUS ∧ isspace c = false := by
  have hn : ∀ n < 256, isdigit (UInt8.ofNat n) = true → UInt8.ofNat n ≠ 0 ∧ UInt8.ofNat n ≠ LF ∧ UInt8.ofNat n ≠ CR ∧
      UInt8.ofNat n ≠ PLUS ∧ UInt8.ofNat n ≠ MINUS ∧ isspace (UInt8.ofNat n) = false := by decide +kernel
  have hc := hn c.toNat c.toNat_lt
  rw [UInt8.ofNat_toNat] at hc
  exact hc h

theorem strtoul_decimal (n : Nat) : strtoul p (decimal n) = (if p.ulongMax < n then p.ulongMax else n, []) := by
  have hdigits := decimal_digits n
  obtain ⟨c, cs, hcs⟩ := List.exists_cons_of_ne_nil (decimal_ne_nil n)
  obtain ⟨-, -, -, hplus, hminus, hspace⟩ := digit_plain (hdigits c (hcs ▸ List.mem_cons_self))
  have htrim : (decimal n).dropWhile isspace = decimal n := by rw [hcs, List.dropWhile_cons_of_neg (by simp [hspace])]
  have hhead : (decimal n).head? = some c := by rw [hcs]; rfl
  have htake : (decimal n).takeWhile isdigit = decimal n := List.takeWhile_eq_self_iff.mpr hdigits
  have hdrop : (decimal n).dropWhile isdigit = [] := List.dropWhile_eq_nil_iff.mpr hdigits
  simp only [strtoul, htrim, hhead, Option.some.injEq, hplus, hminus, or_self, if_false, htake, hdrop,
    digitsValue_decimal, decimal_ne_nil]

theorem decimal_oneLine (n : Nat) : OneLine (decimal n) := fun c hc =>
  let h := digit_plain (decimal_digits n c hc)
  ⟨h.2.1, h.2.2.1⟩

/-- A count that is written is read back, unless it is too large for a blob. -/
theorem parseLineCounter_decimal (n : Nat) :
    userkeyParseLineCounter p (cstr (decimal n)) = if n < MAX_KEY_BLOB_LINES then some n else none := by
  have hnul : 0 ∉ decimal n := fun h => (digit_plain (decimal_digits n 0 h)).1 rfl
  have hmax : MAX_KEY_BLOB_LINES < p.ulongMax := by cases p <;> decide
  rw [userkeyParseLineCounter, cstr_bytes hnul, strtoul_decimal]
  by_cases hn : n < MAX_KEY_BLOB_LINES
  · rw [if_pos hn, if_neg (by omega)]
    exact if_pos ⟨decimal_ne_nil n, rfl, hn⟩
  · rw [if_neg hn]
    refine if_neg fun h => hn ?_
    have hlt := h.2.2
    split at hlt
    · exact absurd hlt (by omega)
    · exact hlt

/-! ## Blobs -/

theorem atoms_oneLine (data : Bytes) : OneLine (atoms data) := fun _ hc => (atoms_clean hc).2

theorem atoms_bytes (data : Bytes) : (cstr (atoms data)).bytes = atoms data := cstr_bytes fun h => (atoms_clean h).1 rfl

theorem encode_first (data : Bytes) : ∃ more, base64Encode data 64 = atoms (data.take 48) ++ LF :: more := by
  by_cases hlen : data.length ≤ 48
  · exact ⟨[], by rw [base64Encode_last hlen, List.take_of_length_le hlen]⟩
  · have hline : (data.take 48).length = 48 := by rw [List.length_take]; omega
    have hmore : data.drop 48 ≠ [] := List.ne_nil_of_length_pos (by rw [List.length_drop]; omega)
    have henc := base64Encode_line hline hmore
    rw [List.take_append_drop] at henc
    exact ⟨_, henc⟩

/-- The lines of a blob do not begin with a line ending. -/
theorem encode_follows {data : Bytes} (hd : data ≠ []) (rest : Stream) :
    Follows p (p.written (base64Encode data 64) ++ rest) := by
  intro _ c hc
  obtain ⟨more, hfirst⟩ := encode_first data
  have hlen := length_atoms (data.take 48)
  have hpos : 0 < data.length := List.length_pos_of_ne_nil hd
  rw [List.length_take] at hlen
  obtain ⟨a, as, has⟩ := List.exists_cons_of_length_pos (l := atoms (data.take 48)) (by omega)
  rw [hfirst, written_append, written_line (atoms_oneLine _), has] at hc
  have hca : a = c := by simpa using hc
  exact atoms_oneLine _ c (hca ▸ has ▸ List.mem_cons_self)

/-- One line of base64 is read back. -/
theorem readBlob_line {data : Bytes} (hlen : data.length ≤ 48) {rest : Stream} (hr : Follows p rest) (n : Nat) :
    readBlob (n + 1) (atoms data ++ (p.newline ++ rest)) = (readBlob n rest).map fun r => (data ++ r.1, r.2) := by
  have hatoms := length_atoms data
  rw [readBlob, readBody_line (atoms_oneLine data) hr]
  dsimp only
  rw [atoms_bytes, if_neg (by omega), decodeLine_atoms]
  cases readBlob n rest <;> rfl

/-- A blob is read back from as many lines as it was written on. -/
theorem readBlob_encode {rest : Stream} (hr : Follows p rest) (data : Bytes) (hd : data ≠ []) :
    readBlob (base64Lines data.length) (p.written (base64Encode data 64) ++ rest) = some (data, rest) := by
  induction hn : data.length using Nat.strong_induction_on generalizing data with
  | _ n ih =>
    subst hn
    have hpos : 0 < data.length := List.length_pos_of_ne_nil hd
    by_cases hlen : data.length ≤ 48
    · have hone : base64Lines data.length = 0 + 1 := by unfold base64Lines; omega
      rw [base64Encode_last hlen, written_append, written_newline, written_line (atoms_oneLine data), List.append_assoc, hone,
        readBlob_line hlen hr]
      simp [readBlob]
    · have hline : (data.take 48).length = 48 := by rw [List.length_take]; omega
      have hrest : (data.drop 48).length = data.length - 48 := List.length_drop
      have hmore : data.drop 48 ≠ [] := List.ne_nil_of_length_pos (by omega)
      have hcount : base64Lines data.length = base64Lines (data.drop 48).length + 1 := by unfold base64Lines; omega
      have hblob := ih (data.drop 48).length (by omega) (data.drop 48) hmore rfl
      have hsplit : p.written (base64Encode data 64) ++ rest = atoms (data.take 48) ++
          (p.newline ++ (p.written (base64Encode (data.drop 48) 64) ++ rest)) := by
        have henc := base64Encode_line hline hmore
        rw [List.take_append_drop] at henc
        rw [henc, ← List.singleton_append, ← List.append_assoc, written_append, written_append, written_newline,
          written_line (atoms_oneLine _)]
        simp only [List.append_assoc]
      rw [hcount, hsplit, readBlob_line (by omega) (encode_follows hmore rest), hblob, Option.map_some, List.take_append_drop]

/-! ## A counted blob -/

/-- A header that counts the lines of a blob, and the blob. -/
def counted (p : Platform) (name : String) (data : Bytes) : Bytes :=
  p.written (header name (decimal (base64Lines data.length)) ++ base64Encode data 64)

theorem counted_eq {name : String} (hn : HeaderName (text name)) (data : Bytes) (rest : Stream) :
    counted p name data ++ rest = text name ++ (COLON :: SPACE ::
      (decimal (base64Lines data.length) ++ (p.newline ++ (p.written (base64Encode data 64) ++ rest)))) := by
  rw [counted, written_append, header_written hn.oneLine (decimal_oneLine _)]
  simp only [List.append_assoc, List.cons_append]

theorem readCounted_written {name : String} (hn : HeaderName (text name)) {data : Bytes} (hd : data ≠ [])
    (hlines : base64Lines data.length < MAX_KEY_BLOB_LINES) {rest : Stream} (hr : Follows p rest) :
    readCounted p name (counted p name data ++ rest) = .ok (data, rest) := by
  rw [counted_eq hn, readCounted, expectHeader_line hn, ok_bind, readBody_line (decimal_oneLine _) (encode_follows hd rest)]
  dsimp only
  rw [parseLineCounter_decimal, if_pos hlines]
  dsimp only
  rw [readBlob_encode hr data hd]

/-- On a count of too many lines the reader gives up. -/
theorem readCounted_long {name : String} (hn : HeaderName (text name)) {data : Bytes} (hd : data ≠ [])
    (hlines : ¬ base64Lines data.length < MAX_KEY_BLOB_LINES) (rest : Stream) :
    readCounted p name (counted p name data ++ rest) = .error .fileFormat := by
  rw [counted_eq hn, readCounted, expectHeader_line hn, ok_bind, readBody_line (decimal_oneLine _) (encode_follows hd rest)]
  dsimp only
  rw [parseLineCounter_decimal, if_neg hlines]

/-- The empty line of an empty blob goes with the end of the line before it, if a line ends with one
    character; else it is left. -/
theorem readCounted_empty {name : String} (hn : HeaderName (text name)) (rest : Stream) :
    readCounted p name (counted p name [] ++ rest) = .ok ([], match p with
      | .unix => rest
      | .windows => p.newline ++ rest) := by
  have hzero : decimal (base64Lines ([] : Bytes).length) = [48] := by
    rw [decimal]
    rfl
  rw [counted_eq hn, readCounted, expectHeader_line hn, hzero]
  cases p <;> rfl

/-- A blob that the reader can count and whose end it can find. -/
def Fits (p : Platform) (data : Bytes) : Prop := base64Lines data.length < MAX_KEY_BLOB_LINES ∧ (p = .windows → data ≠ [])

theorem readCounted_fits {name : String} (hn : HeaderName (text name)) {data : Bytes} (h : Fits p data) {rest : Stream}
    (hr : Follows p rest) : readCounted p name (counted p name data ++ rest) = .ok (data, rest) := by
  by_cases hd : data = []
  · subst hd
    cases p with
    | unix => exact readCounted_empty hn rest
    | windows => exact absurd rfl (h.2 rfl)
  · exact readCounted_written hn hd h.1 hr

/-- Else reading fails, there or at the header that should come next. -/
theorem readCounted_unfit {name : String} (hn : HeaderName (text name)) {data : Bytes} (h : ¬ Fits p data) (rest : Stream) :
    readCounted p name (counted p name data ++ rest) = .error .fileFormat ∨
      readCounted p name (counted p name data ++ rest) = .ok ([], p.newline ++ rest) := by
  by_cases hd : data = []
  · subst hd
    cases p with
    | unix => exact absurd ⟨by decide, fun h => by cases h⟩ h
    | windows => exact .inr (readCounted_empty hn rest)
  · exact .inl (readCounted_long hn hd (fun hl => h ⟨hl, fun _ => hd⟩) rest)

/-! ## The file -/

/-- The text of a key file with these fields. -/
def fieldsText (alg : Alg) (cipher : Cipher) (comment publicBlob privateBlob mac : Bytes) : Bytes :=
  header "PuTTY-User-Key-File-2" alg.sshId ++
  header "Encryption" cipher.name ++
  header "Comment" comment ++
  header "Public-Lines" (decimal (base64Lines publicBlob.length)) ++
  base64Encode publicBlob 64 ++
  header "Private-Lines" (decimal (base64Lines privateBlob.length)) ++
  base64Encode privateBlob 64 ++
  header "Private-MAC" mac

/-- A header line that names a field, in a file. -/
def field (p : Platform) (name : String) (body rest : Bytes) : Bytes :=
  text name ++ (COLON :: SPACE :: (body ++ (p.newline ++ rest)))

theorem version_name : HeaderName (text "PuTTY-User-Key-File-2") := by decide
theorem encryption_name : HeaderName (text "Encryption") := by decide
theorem comment_name : HeaderName (text "Comment") := by decide
theorem public_name : HeaderName (text "Public-Lines") := by decide
theorem private_name : HeaderName (text "Private-Lines") := by decide
theorem mac_name : HeaderName (text "Private-MAC") := by decide

theorem sshId_plain (alg : Alg) : OneLine alg.sshId ∧ 0 ∉ alg.sshId ∧ findPubkeyAlgLen alg.sshId = some alg := by
  cases alg <;> decide +kernel

theorem cipher_plain (cipher : Cipher) : OneLine cipher.name ∧ 0 ∉ cipher.name ∧ findCipher cipher.name = some cipher := by
  cases cipher <;> decide +kernel

theorem written_fields (alg : Alg) (cipher : Cipher) {comment : Bytes} (publicBlob privateBlob : Bytes) {mac : Bytes}
    (hc : OneLine comment) (hm : OneLine mac) :
    p.written (fieldsText alg cipher comment publicBlob privateBlob mac) =
      field p "PuTTY-User-Key-File-2" alg.sshId (field p "Encryption" cipher.name (field p "Comment" comment
        (counted p "Public-Lines" publicBlob ++ (counted p "Private-Lines" privateBlob ++ field p "Private-MAC" mac [])))) := by
  simp only [fieldsText, written_append, header_written version_name.oneLine (sshId_plain alg).1,
    header_written encryption_name.oneLine (cipher_plain cipher).1, header_written comment_name.oneLine hc, header_written mac_name.oneLine hm, counted, field,
    List.append_assoc, List.cons_append, List.append_nil]

theorem field_follows {name : String} (hn : HeaderName (text name)) (body rest : Bytes) : Follows p (field p name body rest) := by
  intro _ c hc
  obtain ⟨a, as, has⟩ := List.exists_cons_of_ne_nil hn.1
  rw [field, has] at hc
  have hac : a = c := Option.some.inj hc
  exact hn.oneLine c (by rw [has, hac]; exact List.mem_cons_self)

theorem counted_follows {name : String} (hn : HeaderName (text name)) (data rest : Bytes) :
    Follows p (counted p name data ++ rest) := by
  rw [counted_eq hn]
  exact field_follows hn _ _

theorem comment_follows (comment rest : Bytes) : Follows p (field p "Comment" comment rest) :=
  field_follows comment_name _ _

theorem encryption_follows (cipher : Cipher) (rest : Bytes) : Follows p (field p "Encryption" cipher.name rest) :=
  field_follows encryption_name _ _

theorem readAlg_line (alg : Alg) {rest : Stream} (hr : Follows p rest) :
    readAlg (alg.sshId ++ (p.newline ++ rest)) = .ok (alg, rest) := by
  obtain ⟨halg, halg0, hfind⟩ := sshId_plain alg
  rw [readAlg, readBody_line halg hr]
  dsimp only
  rw [cstr_bytes halg0, hfind]

theorem expectHeader_field {name : String} (hn : HeaderName (text name)) (body rest : Bytes) :
    expectHeader name (field p name body rest) = .ok (body ++ (p.newline ++ rest)) := expectHeader_line hn _

theorem readCipher_line (cipher : Cipher) {rest : Stream} (hr : Follows p rest) :
    readCipher (field p "Encryption" cipher.name rest) = .ok (cipher, rest) := by
  obtain ⟨hcipher, hcipher0, hfind⟩ := cipher_plain cipher
  rw [readCipher, expectHeader_field encryption_name, ok_bind, readBody_line hcipher hr]
  dsimp only
  rw [cstr_bytes hcipher0, hfind]

/-- The fields as far as the comment are read whatever follows them. -/
theorem parse_head {alg : Alg} {cipher : Cipher} {comment : Bytes} (hc : OneLine comment) {rest : Stream}
    (hr : Follows p rest) :
    parseUserkey p (field p "PuTTY-User-Key-File-2" alg.sshId (field p "Encryption" cipher.name
      (field p "Comment" comment rest))) = (do
        let (publicBlob, fp) ← readCounted p "Public-Lines" rest
        let (privateBlob, fp) ← readCounted p "Private-Lines" fp
        let (isMac, mac) ← readMac false fp
        .ok { oldFmt := false, alg, cipher, comment := cstr comment, publicBlob, privateBlob, isMac, mac }) := by
  have hversion : ∀ rest, readVersion (field p "PuTTY-User-Key-File-2" alg.sshId rest) =
      .ok (false, alg.sshId ++ (p.newline ++ rest)) := fun rest => by
    rw [field, readVersion, readHeader_name version_name]
    exact if_pos version_name.bytes
  rw [parseUserkey, hversion, ok_bind]
  dsimp only
  rw [readAlg_line alg (encryption_follows _ _), ok_bind]
  dsimp only
  rw [readCipher_line cipher (comment_follows _ _), ok_bind]
  dsimp only
  rw [expectHeader_field comment_name, ok_bind, readBody_line hc hr]

/-- The reader of public halves skips the encryption and stops after the public blob. -/
theorem ppkLoadpub_head {alg : Alg} {cipher : Cipher} {comment : Bytes} (hc : OneLine comment) {rest : Stream}
    (hr : Follows p rest) :
    ppkLoadpub p (field p "PuTTY-User-Key-File-2" alg.sshId (field p "Encryption" cipher.name
      (field p "Comment" comment rest))) = (do
        let (blob, _) ← readCounted p "Public-Lines" rest
        .ok { algorithm := alg.sshId, blob, comment := cstr comment }) := by
  rw [ppkLoadpub, field, readHeader_name version_name]
  dsimp only
  rw [if_neg (fun h => h.1 version_name.bytes), readAlg_line alg (encryption_follows _ _), ok_bind]
  dsimp only
  rw [expectHeader_field encryption_name, ok_bind, readBody_line (cipher_plain cipher).1 (comment_follows _ _)]
  dsimp only
  rw [expectHeader_field comment_name, ok_bind, readBody_line hc hr]

theorem field_type {body rest : Bytes} (h : 32 ≤ (field p "PuTTY-User-Key-File-2" body rest).length) :
    keyTypeFp (field p "PuTTY-User-Key-File-2" body rest) = .ssh2 := by
  have hlen : ¬ ((field p "PuTTY-User-Key-File-2" body rest).take 1023).length < 32 := by
    rw [List.length_take]
    omega
  have htext : text "PuTTY-User-Key-File-2" = text "PuTTY-User-Key-File-" ++ [50] := by decide
  have hlong : (text "PuTTY-User-Key-File-").length = 20 := by decide
  obtain ⟨tail, htail⟩ : ∃ tail, (field p "PuTTY-User-Key-File-2" body rest).take 1023 = text "PuTTY-User-Key-File-" ++ tail :=
    ⟨_, by rw [field, htext, List.append_assoc, List.take_append, List.take_of_length_le (by omega)]⟩
  have hfirst : text "PuTTY-User-Key-File-" = 80 :: (text "PuTTY-User-Key-File-").tail := by decide
  have hno : ∀ sig : String, (text sig).head? = some 83 ∨ (text sig).head? = some 45 →
      (text sig).isPrefixOf (text "PuTTY-User-Key-File-" ++ tail) = false := fun sig hsig => by
    rw [hfirst]
    cases hs : text sig with
    | nil => simp [hs] at hsig
    | cons c cs =>
      rw [hs] at hsig
      have hc : (c == 80) = false := by
        rcases hsig with h | h
        · cases h
          rfl
        · cases h
          rfl
      rw [List.cons_append, List.isPrefixOf, hc]
      rfl
  have hyes : (text "PuTTY-User-Key-File-").isPrefixOf (text "PuTTY-User-Key-File-" ++ tail) = true :=
    List.isPrefixOf_iff_prefix.mpr (List.prefix_append _ _)
  unfold keyTypeFp
  dsimp only
  rw [if_neg hlen, htail, hno _ (.inl (by decide)), hno _ (.inr (by decide)), hyes]
  rfl

theorem readMac_line {mac : Bytes} (hm : OneLine mac) : readMac false (field p "Private-MAC" mac []) = .ok (true, cstr mac) := by
  rw [field, readMac, readHeader_name mac_name]
  dsimp only
  rw [if_pos mac_name.bytes, readBody_line hm (fun _ c hc => by cases hc)]

theorem readMac_newline (oldFmt : Bool) (rest : Stream) : readMac oldFmt (p.newline ++ rest) = .error .fileFormat := by
  cases p <;> rfl

/-- The fields are read as they were written. -/
theorem parse_written {alg : Alg} {cipher : Cipher} {comment publicBlob privateBlob mac : Bytes} (hc : OneLine comment)
    (hm : OneLine mac) (hpub : Fits p publicBlob) (hpriv : Fits p privateBlob) :
    parseUserkey p (p.written (fieldsText alg cipher comment publicBlob privateBlob mac)) =
      .ok { oldFmt := false, alg, cipher, comment := cstr comment, publicBlob, privateBlob, isMac := true, mac := cstr mac } := by
  have hmac : Follows p (field p "Private-MAC" mac []) := field_follows mac_name _ _
  have hrest : Follows p (counted p "Private-Lines" privateBlob ++ field p "Private-MAC" mac []) :=
    counted_follows private_name _ _
  rw [written_fields alg cipher publicBlob privateBlob hc hm,
    parse_head hc (counted_follows public_name _ _), readCounted_fits public_name hpub hrest, ok_bind]
  dsimp only
  rw [readCounted_fits private_name hpriv hmac, ok_bind]
  dsimp only
  rw [readMac_line hm, ok_bind]

/-- A blob that does not fit spoils the file. -/
theorem parse_unfit {alg : Alg} {cipher : Cipher} {comment publicBlob privateBlob mac : Bytes} (hc : OneLine comment)
    (hm : OneLine mac) (h : ¬ (Fits p publicBlob ∧ Fits p privateBlob)) :
    parseUserkey p (p.written (fieldsText alg cipher comment publicBlob privateBlob mac)) = .error .fileFormat := by
  have hrest : Follows p (counted p "Private-Lines" privateBlob ++ field p "Private-MAC" mac []) :=
    counted_follows private_name _ _
  rw [written_fields alg cipher publicBlob privateBlob hc hm,
    parse_head hc (counted_follows public_name _ _)]
  by_cases hpub : Fits p publicBlob
  · rw [readCounted_fits public_name hpub hrest, ok_bind]
    dsimp only
    rcases readCounted_unfit private_name (fun hp => h ⟨hpub, hp⟩) (field p "Private-MAC" mac []) with hr | hr
    · rw [hr, error_bind]
    · rw [hr, ok_bind]
      dsimp only
      rw [readMac_newline, error_bind]
  · rcases readCounted_unfit public_name hpub (counted p "Private-Lines" privateBlob ++ field p "Private-MAC" mac []) with hr | hr
    · rw [hr, error_bind]
    · rw [hr, ok_bind]
      dsimp only
      rw [readCounted, expectHeader_newline, error_bind, error_bind]

/-- The public half is read from the file alone. -/
theorem loadpub_written {alg : Alg} {cipher : Cipher} {comment publicBlob mac : Bytes} (privateBlob : Bytes) (hc : OneLine comment)
    (hm : OneLine mac) (hpub : Fits p publicBlob) (rfc4716Loadpub opensshLoadpub : Stream → Except LoadError PublicKey) :
    userkeyLoadpub p rfc4716Loadpub opensshLoadpub
      (some (p.written (fieldsText alg cipher comment publicBlob privateBlob mac))) =
        .ok { algorithm := alg.sshId, blob := publicBlob, comment := cstr comment } := by
  have hrest : Follows p (counted p "Private-Lines" privateBlob ++ field p "Private-MAC" mac []) :=
    counted_follows private_name _ _
  have hlong : ∀ rest, 32 ≤ (field p "PuTTY-User-Key-File-2" alg.sshId (field p "Encryption" cipher.name rest)).length := fun rest => by
    have h₁ : (text "PuTTY-User-Key-File-2").length = 21 := by decide
    have h₂ : (text "Encryption").length = 10 := by decide
    simp only [field, List.length_append, List.length_cons, h₁, h₂]
    omega
  rw [written_fields alg cipher publicBlob privateBlob hc hm, userkeyLoadpub, field_type (hlong _)]
  dsimp only
  rw [ppkLoadpub_head hc (counted_follows public_name _ _), readCounted_fits public_name hpub hrest, ok_bind]

end Putty.Keys
