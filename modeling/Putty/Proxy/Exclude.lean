/-
  Putty.Proxy.Exclude — which destinations are reached without the proxy (`proxy.c`,
  proxy_for_destination).

  A C string is the list of its characters before the NUL. `none` is a comparison outside
  the strings: the character before the list is read when the list begins with a character
  that no entry may contain, and a wildcard at the beginning of an entry goes that far back
  from the end of a name, however short that is. Moreover an entry is only read up to such
  a character and is taken for excluded when a name merely begins with it.
  `proxyForDestination_iff` says that the answer is right unless the first entry that is
  `Harmful` in one of these ways gets its turn; `address_prefix` is an input where it does.
-/

import Putty.Utils.BinarySink
import Mathlib.Data.List.TakeWhile

namespace Putty.Proxy

open Putty.Utils (text)

/-! ## The C library, in the C locale -/

def isspace (c : UInt8) : Bool := c == 32 || (9 ≤ c && c ≤ 13)

def isalnum (c : UInt8) : Bool := (48 ≤ c && c ≤ 57) || (65 ≤ c && c ≤ 90) || (97 ≤ c && c ≤ 122)

def tolower (c : UInt8) : UInt8 := if 65 ≤ c && c ≤ 90 then c + 32 else c

/-- `strnicmp(a, b, n) == 0` -/
def strnicmp : Nat → List UInt8 → List UInt8 → Bool
  | 0, _, _ => true
  | _ + 1, [], [] => true
  | n + 1, x :: a, y :: b => tolower x == tolower y && strnicmp n a b
  | _ + 1, _, _ => false

/-- `s + strlen(s) - k` -/
def fromEnd (s : List UInt8) (k : Nat) : Option (List UInt8) := if s.length < k then none else some (s.drop (s.length - k))

/-! ## proxy_for_destination -/

/-- An address: `sk_address_is_special_local`, `sk_address_is_local` and what `sk_getaddr` writes. -/
structure SockAddr where
  specialLocal : Bool
  isLocal : Bool
  hostip : List UInt8

/-- The settings, and `sk_hostname_is_local`. -/
structure Conf where
  evenProxyLocalhost : Bool
  proxyExcludeList : List UInt8
  hostnameIsLocal : List UInt8 → Bool

def isSeparator (c : UInt8) : Bool := isspace c || c == 44

def isInside (c : UInt8) : Bool := !isSeparator c

/-- A letter, a digit, `-`, `.` or `*`. -/
def isEntryChar (c : UInt8) : Bool := isalnum c || c == 45 || c == 46 || c == 42

/-- `while (exclude_list[s] && p(exclude_list[s])) s++`, with the character before `s`. -/
def skipWhile (p : UInt8 → Bool) : Option UInt8 → List UInt8 → Option UInt8 × List UInt8
  | before, [] => (before, [])
  | before, c :: rest => if p c then skipWhile p (some c) rest else (before, c :: rest)

/-- The comparisons with one entry: `rest` is `exclude_list + s`, `len` is `e - s` and `last` is `exclude_list[e - 1]`. -/
def compareEntry (addr : Option SockAddr) (hostname rest : List UInt8) (len : Nat) (last : Option UInt8) : Option Bool :=
  if rest.head? = some 42 then do
    let hit ← match addr with
      | some a => (fromEnd a.hostip (len - 1)).map fun p => strnicmp (len - 1) p (rest.drop 1)
      | none => some false
    if hit then some true else (fromEnd hostname (len - 1)).map fun p => strnicmp (len - 1) p (rest.drop 1)
  else do
    let n := if (← last) = 42 then len - 1 else len
    let hit := match addr with
      | some a => strnicmp n a.hostip rest
      | none => false
    return hit || strnicmp n hostname rest

/-- The loop over the list; the first argument bounds its turns. -/
def excludeLoop (addr : Option SockAddr) (hostname : List UInt8) : Nat → Option UInt8 → List UInt8 → Option Bool
  | 0, _, _ => none
  | fuel + 1, before, rest =>
    let (before, rest) := skipWhile isSeparator before rest
    if rest = [] then some true
    else
      let (last, after) := skipWhile isEntryChar before rest
      match compareEntry addr hostname rest (rest.length - after.length) last with
      | none => none
      | some true => some false
      | some false =>
        let (before, rest) := skipWhile isInside last after
        excludeLoop addr hostname fuel before rest

def proxyForDestination (conf : Conf) (addr : Option SockAddr) (hostname : List UInt8) : Option Bool :=
  if addr.any (·.specialLocal) then some false
  else if !conf.evenProxyLocalhost && (conf.hostnameIsLocal hostname || addr.any (·.isLocal)) then some false
  else excludeLoop addr hostname (conf.proxyExcludeList.length + 1) none conf.proxyExcludeList

/-! ## What the list says -/

def lower (s : List UInt8) : List UInt8 := s.map tolower

def entriesOf (list : List UInt8) : List (List UInt8) := (list.splitOnP isSeparator).filter (· ≠ [])

/-- The names that an entry is compared with. -/
def namesOf (addr : Option SockAddr) (hostname : List UInt8) : List (List UInt8) := (addr.map (·.hostip)).toList ++ [hostname]

def MatchesName (entry name : List UInt8) : Prop :=
  if entry.all isEntryChar then
    if entry.head? = some 42 then lower entry.tail <:+ lower name
    else if entry.getLast? = some 42 then lower entry.dropLast <+: lower name
    else lower entry = lower name
  else lower entry = lower name

instance (entry name : List UInt8) : Decidable (MatchesName entry name) := by
  unfold MatchesName
  infer_instance

def Matches (names : List (List UInt8)) (entry : List UInt8) : Prop := ∃ name ∈ names, MatchesName entry name

instance (names : List (List UInt8)) (entry : List UInt8) : Decidable (Matches names entry) :=
  inferInstanceAs (Decidable (∃ name ∈ names, MatchesName entry name))

/-- Neither the address nor the host name is that of this machine, as far as the settings care. -/
structure Remote (conf : Conf) (addr : Option SockAddr) (hostname : List UInt8) : Prop where
  notSpecial : addr.any (·.specialLocal) = false
  notLocal : conf.evenProxyLocalhost = true ∨ conf.hostnameIsLocal hostname = false ∧ addr.any (·.isLocal) = false

def Excluded (conf : Conf) (addr : Option SockAddr) (hostname : List UInt8) : Prop :=
  ∃ entry ∈ entriesOf conf.proxyExcludeList, Matches (namesOf addr hostname) entry

instance (conf : Conf) (addr : Option SockAddr) (hostname : List UInt8) : Decidable (Excluded conf addr hostname) :=
  inferInstanceAs (Decidable (∃ entry ∈ entriesOf conf.proxyExcludeList, Matches (namesOf addr hostname) entry))

/-! ## What the code does with an entry -/

/-- The part of an entry that is read. -/
def scanned (entry : List UInt8) : List UInt8 := entry.takeWhile isEntryChar

/-- Some name ends, or begins, with what is read of the entry less its wildcard. -/
def Takes (entry name : List UInt8) : Prop :=
  if (scanned entry).head? = some 42 then lower (scanned entry).tail <:+ lower name
  else if (scanned entry).getLast? = some 42 then lower (scanned entry).dropLast <+: lower name
  else lower (scanned entry) <+: lower name

instance (entry name : List UInt8) : Decidable (Takes entry name) := by
  unfold Takes
  infer_instance

def Taken (names : List (List UInt8)) (entry : List UInt8) : Prop := ∃ name ∈ names, Takes entry name

instance (names : List (List UInt8)) (entry : List UInt8) : Decidable (Taken names entry) :=
  inferInstanceAs (Decidable (∃ name ∈ names, Takes entry name))

/-- A name that comes to be compared is shorter than what follows the wildcard. -/
def ShortName (entry : List UInt8) : List (List UInt8) → Prop
  | [] => False
  | name :: names => name.length < (scanned entry).length - 1 ∨ ¬Takes entry name ∧ ShortName entry names

instance (entry : List UInt8) : (names : List (List UInt8)) → Decidable (ShortName entry names)
  | [] => isFalse id
  | _ :: names =>
    have := instDecidableShortName entry names
    inferInstanceAs (Decidable (_ ∨ _))

/-- At the very start of the list nothing can be read of the entry, or it goes back too far in a name. -/
def Strays (names : List (List UInt8)) (atStart : Bool) (entry : List UInt8) : Prop :=
  atStart = true ∧ scanned entry = [] ∨ (scanned entry).head? = some 42 ∧ ShortName entry names

instance (names : List (List UInt8)) (atStart : Bool) (entry : List UInt8) : Decidable (Strays names atStart entry) :=
  inferInstanceAs (Decidable (_ ∨ _))

/-- The answer, entry after entry; the flag is that the entry is at the very start of the list. -/
def answer (names : List (List UInt8)) : List (Bool × List UInt8) → Option Bool
  | [] => some true
  | (atStart, entry) :: entries =>
    if Strays names atStart entry then none else if Taken names entry then some false else answer names entries

theorem tolower_eq_iff (x y : UInt8) : (tolower x == tolower y) = true ↔ tolower x = tolower y := beq_iff_eq

theorem strnicmp_iff (n : Nat) (s r : List UInt8) (h : n ≤ r.length) :
    strnicmp n s r = true ↔ lower (r.take n) <+: lower s := by
  induction n generalizing s r with
  | zero => simp [strnicmp, lower]
  | succ n ih =>
    cases r with
    | nil => cases h
    | cons y r =>
      cases s with
      | nil => simp [strnicmp, lower]
      | cons x s =>
        rw [strnicmp, Bool.and_eq_true, tolower_eq_iff, ih s r (Nat.le_of_succ_le_succ h), List.take_succ_cons]
        unfold lower
        rw [List.map_cons, List.map_cons, List.cons_prefix_cons, eq_comm]

/-- The comparison at the end of a name that is long enough. -/
theorem strnicmp_end_iff (n : Nat) (s r : List UInt8) (h : n ≤ r.length) (hs : n ≤ s.length) :
    strnicmp n (s.drop (s.length - n)) r = true ↔ lower (r.take n) <:+ lower s := by
  have hlen : (lower (r.take n)).length = (lower (s.drop (s.length - n))).length := by
    simp only [lower, List.length_map, List.length_take, List.length_drop]
    omega
  have hdrop : lower (s.drop (s.length - n)) = (lower s).drop ((lower s).length - (lower (r.take n)).length) := by
    rw [hlen]
    simp only [lower, List.length_map, List.length_drop, List.map_drop]
    congr 1
    omega
  rw [strnicmp_iff n _ r h, List.suffix_iff_eq_drop, ← hdrop]
  exact ⟨fun hp => hp.eq_of_length hlen, fun he => he ▸ List.prefix_rfl⟩

section Compare

variable {entry rest : List UInt8}

/-- Comparing the end of one name. -/
theorem compareEnd_eq (hr : scanned entry <+: rest) (hstar : (scanned entry).head? = some 42) (name : List UInt8) :
    ((fromEnd name ((scanned entry).length - 1)).map fun p => strnicmp ((scanned entry).length - 1) p (rest.drop 1)) =
      if name.length < (scanned entry).length - 1 then none else some (decide (Takes entry name)) := by
  have htail : (rest.drop 1).take ((scanned entry).length - 1) = (scanned entry).tail := by
    obtain ⟨more, rfl⟩ := hr
    cases hs : scanned entry with
    | nil =>
      rw [hs] at hstar
      cases hstar
    | cons c t => simp
  have hlen : (scanned entry).length - 1 ≤ (rest.drop 1).length := by
    have := hr.length_le
    rw [List.length_drop]
    omega
  unfold fromEnd
  split
  · rfl
  · next hge =>
    have hiff := strnicmp_end_iff ((scanned entry).length - 1) name (rest.drop 1) hlen (Nat.le_of_not_lt hge)
    rw [htail] at hiff
    have htakes : Takes entry name ↔ lower (scanned entry).tail <:+ lower name := by
      unfold Takes
      rw [if_pos hstar]
    rw [Option.map_some, Option.some.injEq, Bool.eq_iff_iff, hiff, decide_eq_true_iff, htakes]

/-- Comparing the beginning of one name. -/
theorem compareStart_eq (hr : scanned entry <+: rest) (hstar : (scanned entry).head? ≠ some 42) (name : List UInt8) {n : Nat}
    (hn : n = if (scanned entry).getLast? = some 42 then (scanned entry).length - 1 else (scanned entry).length) :
    strnicmp n name rest = decide (Takes entry name) := by
  have hle : n ≤ (scanned entry).length := by
    rw [hn]
    split <;> omega
  have htake : rest.take n = (scanned entry).take n := by
    obtain ⟨more, rfl⟩ := hr
    exact List.take_append_of_le_length hle
  rw [Bool.eq_iff_iff, strnicmp_iff n name rest (hle.trans hr.length_le), htake, decide_eq_true_iff]
  unfold Takes
  rw [if_neg hstar]
  split
  · next hlast => rw [hn, if_pos hlast, ← List.dropLast_eq_take]
  · next hlast => rw [hn, if_neg hlast, List.take_length]

/-- What the character before `e` is. -/
def LastOf (atStart : Bool) (t : List UInt8) (last : Option UInt8) : Prop :=
  if t = [] then if atStart then last = none else ∃ c, last = some c ∧ c ≠ 42 else last = t.getLast?

@[simp] theorem taken_nil (entry : List UInt8) : ¬Taken [] entry := by simp [Taken]

@[simp] theorem taken_cons (name : List UInt8) (names : List (List UInt8)) (entry : List UInt8) :
    Taken (name :: names) entry ↔ Takes entry name ∨ Taken names entry := by
  simp [Taken]

theorem compareEntry_eq (addr : Option SockAddr) (hostname : List UInt8) {atStart : Bool} {last : Option UInt8}
    (hr : scanned entry <+: rest) (hhead : rest.head? = some 42 ↔ (scanned entry).head? = some 42)
    (hl : LastOf atStart (scanned entry) last) :
    compareEntry addr hostname rest (scanned entry).length last =
      if Strays (namesOf addr hostname) atStart entry then none else some (decide (Taken (namesOf addr hostname) entry)) := by
  unfold compareEntry
  by_cases hstar : (scanned entry).head? = some 42
  · have hne : scanned entry ≠ [] := fun he => by
      rw [he] at hstar
      cases hstar
    have hstrays : ∀ names, Strays names atStart entry ↔ ShortName entry names := fun names =>
      ⟨fun hs => hs.elim (fun hs => absurd hs.2 hne) And.right, fun hs => .inr ⟨hstar, hs⟩⟩
    have hcmp := compareEnd_eq hr hstar hostname
    rw [if_pos (hhead.mpr hstar)]
    cases addr with
    | none => simpa [hstrays, namesOf, ShortName] using hcmp
    | some a =>
      have hip := compareEnd_eq hr hstar a.hostip
      simp only [hip, Option.bind_eq_bind]
      by_cases hshort : a.hostip.length < (scanned entry).length - 1
      · simp [hstrays, namesOf, ShortName, hshort]
      · by_cases htakes : Takes entry a.hostip
        · simp [hstrays, namesOf, ShortName, hshort, htakes]
        · simp only [if_neg hshort, htakes, decide_false, Option.bind_some, Bool.false_eq_true, if_false, hcmp]
          simp [hstrays, namesOf, ShortName, hshort, htakes]
  · have hstrays : ∀ names, Strays names atStart entry ↔ atStart = true ∧ scanned entry = [] := fun names =>
      ⟨fun hs => hs.elim id fun hs => absurd hs.1 hstar, .inl⟩
    rw [if_neg fun hs => hstar (hhead.mp hs)]
    have hstart : ∀ name, strnicmp
        (if (scanned entry).getLast? = some 42 then (scanned entry).length - 1 else (scanned entry).length) name rest = decide (Takes entry name) := fun name => compareStart_eq hr hstar name rfl
    unfold LastOf at hl
    by_cases hnil : scanned entry = []
    · -- nothing is read of the entry
      rw [if_pos hnil] at hl
      rw [hnil] at hstart
      cases atStart with
      | true =>
        rw [if_pos rfl] at hl
        simp [hstrays, hl, hnil]
      | false =>
        rw [if_neg Bool.false_ne_true] at hl
        obtain ⟨c, rfl, hc⟩ := hl
        simp only [List.getLast?_nil, reduceCtorEq, if_false, List.length_nil] at hstart
        cases addr <;> simp [hstrays, namesOf, hnil, hstart]
    · rw [if_neg hnil] at hl
      subst hl
      rw [List.getLast?_eq_some_getLast hnil] at hstart ⊢
      simp only [Option.some.injEq] at hstart
      cases addr <;> simp [hstrays, namesOf, hnil, hstart]

end Compare

/-! ## The loop goes from entry to entry -/

section Loop

theorem skipWhile_eq (p : UInt8 → Bool) (before : Option UInt8) (l : List UInt8) :
    skipWhile p before l = ((l.takeWhile p).getLast?.or before, l.dropWhile p) := by
  induction l generalizing before with
  | nil => rfl
  | cons c l ih =>
    rw [skipWhile]
    by_cases hc : p c = true
    · rw [if_pos hc, ih, List.takeWhile_cons_of_pos hc, List.dropWhile_cons_of_pos hc, List.getLast?_cons]
      cases (l.takeWhile p).getLast? <;> rfl
    · rw [if_neg hc, List.takeWhile_cons_of_neg hc, List.dropWhile_cons_of_neg hc]
      rfl

theorem isSeparator_of_entryChar {c : UInt8} (h : isEntryChar c = true) : isSeparator c = false := by
  simp only [isEntryChar, isalnum, isSeparator, isspace, Bool.or_eq_true, Bool.and_eq_true, decide_eq_true_eq, beq_iff_eq,
    Bool.or_eq_false_iff, Bool.and_eq_false_iff, decide_eq_false_iff_not, beq_eq_false_iff_ne, ne_eq, UInt8.le_iff_toNat_le,
    ← UInt8.toNat_inj] at h ⊢
  simp only [UInt8.reduceToNat] at h ⊢
  omega

@[simp] theorem isInside_eq_true {c : UInt8} : isInside c = true ↔ isSeparator c = false := by simp [isInside]

@[simp] theorem isInside_eq_false {c : UInt8} : isInside c = false ↔ isSeparator c = true := by simp [isInside]

@[simp] theorem entriesOf_nil : entriesOf [] = [] := rfl

theorem entriesOf_cons {c : UInt8} (hc : isSeparator c = true) (l : List UInt8) : entriesOf (c :: l) = entriesOf l := by
  unfold entriesOf
  rw [List.splitOnP_cons_eq_if_modifyHead, if_pos hc, List.filter_cons, if_neg (by simp)]

theorem entriesOf_dropWhile (l : List UInt8) : entriesOf (l.dropWhile isSeparator) = entriesOf l := by
  induction l with
  | nil => rfl
  | cons c l ih =>
    by_cases hc : isSeparator c = true
    · rw [List.dropWhile_cons_of_pos hc, ih, entriesOf_cons hc]
    · rw [List.dropWhile_cons_of_neg hc]

/-- The rest of an entry, and what follows it. -/
abbrev entryAt (l : List UInt8) : List UInt8 := l.takeWhile isInside

abbrev afterEntry (l : List UInt8) : List UInt8 := l.dropWhile isInside

theorem entriesOf_entry {l : List UInt8} (hne : entryAt l ≠ []) : entriesOf l = entryAt l :: entriesOf (afterEntry l) := by
  have hw : ∀ c ∈ entryAt l, isSeparator c = false := fun c hm => by
    simpa using List.all_eq_true.mp List.all_takeWhile c hm
  have hsplit : entryAt l ++ afterEntry l = l := List.takeWhile_append_dropWhile
  cases hr : afterEntry l with
  | nil =>
    rw [hr, List.append_nil] at hsplit
    have hsingle : l.splitOnP isSeparator = [entryAt l] := by
      conv_lhs => rw [← hsplit]
      exact List.splitOnP_eq_singleton hw
    unfold entriesOf
    rw [hsingle, List.filter_cons, if_pos (by simpa using hne)]
    rfl
  | cons c more =>
    have hc : isSeparator c = true := by
      have := List.head?_dropWhile_not isInside l
      rw [show l.dropWhile isInside = c :: more from hr] at this
      simpa using this
    rw [entriesOf_cons hc]
    conv_lhs => rw [← hsplit, hr]
    unfold entriesOf
    rw [List.splitOnP_append_cons_of_forall_mem hw c hc, List.filter_cons, if_pos (by simpa using hne)]

/-- The entries, with the flag that the first stands at the very start of the list. -/
def flagged (l : List UInt8) : List (Bool × List UInt8) :=
  match entriesOf l with
  | [] => []
  | w :: ws => (l.head?.any isInside, w) :: ws.map (false, ·)

theorem flagged_map_snd (l : List UInt8) : (flagged l).map Prod.snd = entriesOf l := by
  unfold flagged
  cases entriesOf l with
  | nil => rfl
  | cons w ws => simp [List.map_map, Function.comp_def]

theorem flagged_afterEntry (l : List UInt8) : flagged (afterEntry l) = (entriesOf (afterEntry l)).map (false, ·) := by
  have hhead : (afterEntry l).head?.any isInside = false := by
    have := List.head?_dropWhile_not isInside l
    cases hr : (afterEntry l).head? with
    | none => rfl
    | some c =>
      rw [show (l.dropWhile isInside).head? = some c from hr] at this
      simpa using this
  unfold flagged
  rw [hhead]
  cases entriesOf (afterEntry l) <;> rfl

theorem flagged_entry {l rest : List UInt8} (hne : entryAt l ≠ []) (hl : rest.dropWhile isSeparator = l) :
    flagged rest = (rest.head?.any isInside, entryAt l) :: flagged (afterEntry l) := by
  have he : entriesOf rest = entryAt l :: entriesOf (afterEntry l) := by
    rw [← entriesOf_dropWhile, hl, entriesOf_entry hne]
  rw [flagged_afterEntry]
  unfold flagged
  rw [he]

theorem scanned_entryAt (l : List UInt8) : scanned (entryAt l) = l.takeWhile isEntryChar := by
  unfold scanned
  induction l with
  | nil => rfl
  | cons c l ih =>
    by_cases hc : isEntryChar c = true
    · have hs : isInside c = true := by rw [isInside, isSeparator_of_entryChar hc]; rfl
      rw [entryAt, List.takeWhile_cons_of_pos hs, List.takeWhile_cons_of_pos hc, List.takeWhile_cons_of_pos hc, ih]
    · rw [List.takeWhile_cons_of_neg hc, entryAt, List.takeWhile_cons]
      split
      · exact List.takeWhile_cons_of_neg hc
      · rfl

theorem afterEntry_dropWhile (l : List UInt8) : (l.dropWhile isEntryChar).dropWhile isInside = afterEntry l := by
  induction l with
  | nil => rfl
  | cons c l ih =>
    by_cases hc : isEntryChar c = true
    · have hs : isInside c = true := by rw [isInside, isSeparator_of_entryChar hc]; rfl
      rw [List.dropWhile_cons_of_pos hc, ih, afterEntry, afterEntry, List.dropWhile_cons_of_pos hs]
    · rw [List.dropWhile_cons_of_neg hc]

/-- The character before `e`, where an entry begins with `c`. -/
theorem lastOf_scanned {rest : List UInt8} {before : Option UInt8} (l : List UInt8)
    (hb : ∀ c, rest.head? = some c → isSeparator c = false → before = none) (hrest : rest ≠ [])  :
    LastOf (rest.head?.any isInside) (scanned (entryAt l))
      ((l.takeWhile isEntryChar).getLast?.or ((rest.takeWhile isSeparator).getLast?.or before)) := by
  unfold LastOf
  rw [scanned_entryAt]
  split
  · next hnil =>
    rw [hnil, List.getLast?_nil, Option.none_or]
    obtain ⟨c, more, rfl⟩ := List.exists_cons_of_ne_nil hrest
    by_cases hc : isSeparator c = true
    · have hne : (c :: more).takeWhile isSeparator ≠ [] := by simp [hc]
      rw [if_neg (by simp [hc]), List.getLast?_eq_some_getLast hne, Option.some_or]
      refine ⟨_, rfl, fun h42 => ?_⟩
      have hsep := List.all_eq_true.mp List.all_takeWhile _ (List.getLast_mem hne)
      rw [h42] at hsep
      exact absurd hsep (by decide)
    · have hc' : isSeparator c = false := by simpa using hc
      rw [if_pos (by simp [hc']), List.takeWhile_cons_of_neg hc, List.getLast?_nil, Option.none_or]
      exact hb c rfl hc'
  · next hne => rw [List.getLast?_eq_some_getLast hne, Option.some_or]

theorem excludeLoop_eq (addr : Option SockAddr) (hostname : List UInt8) :
    ∀ (fuel : Nat) (before : Option UInt8) (rest : List UInt8), rest.length < fuel →
      (∀ c, rest.head? = some c → isSeparator c = false → before = none) →
      excludeLoop addr hostname fuel before rest = answer (namesOf addr hostname) (flagged rest) := by
  intro fuel
  induction fuel with
  | zero => exact fun before rest h _ => absurd h (Nat.not_lt_zero _)
  | succ fuel ih =>
    intro before rest hf hb
    rw [excludeLoop]
    simp only [skipWhile_eq]
    have hsame := entriesOf_dropWhile rest
    generalize hl : rest.dropWhile isSeparator = l at hsame ⊢
    split
    · next hnil =>
      subst hnil
      unfold flagged
      rw [← hsame]
      rfl
    · next hne =>
      have hhead := List.head?_dropWhile_not isSeparator rest
      rw [hl] at hhead
      obtain ⟨c, more, rfl⟩ := List.exists_cons_of_ne_nil hne
      have hc : isInside c = true := by simpa using hhead
      have hentry : entryAt (c :: more) ≠ [] := by
        rw [entryAt, List.takeWhile_cons_of_pos hc]
        exact List.cons_ne_nil _ _
      have hrest : rest ≠ [] := by
        rintro rfl
        cases hl
      have hlen : (c :: more).length - ((c :: more).dropWhile isEntryChar).length = (scanned (entryAt (c :: more))).length := by
        have := congrArg List.length (List.takeWhile_append_dropWhile (p := isEntryChar) (l := c :: more))
        rw [List.length_append] at this
        rw [scanned_entryAt]
        omega
      have hstar : (c :: more).head? = some 42 ↔ (scanned (entryAt (c :: more))).head? = some 42 := by
        rw [scanned_entryAt]
        by_cases he : isEntryChar c = true
        · rw [List.takeWhile_cons_of_pos he]
          rfl
        · rw [List.takeWhile_cons_of_neg he]
          refine iff_of_false (fun h42 => ?_) (by simp)
          obtain rfl := Option.some.inj h42
          exact he (by decide)
      have hpre : scanned (entryAt (c :: more)) <+: c :: more := scanned_entryAt (c :: more) ▸ List.takeWhile_prefix _
      rw [hlen, compareEntry_eq addr hostname hpre hstar (lastOf_scanned (c :: more) hb hrest), flagged_entry hentry hl, answer]
      rw [afterEntry_dropWhile]
      have hshort : (afterEntry (c :: more)).length < rest.length := by
        have h1 := congrArg List.length (List.takeWhile_append_dropWhile (p := isInside) (l := c :: more))
        have h2 : 0 < (entryAt (c :: more)).length := List.length_pos_of_ne_nil hentry
        have h3 := (List.dropWhile_suffix isSeparator (l := rest)).length_le
        rw [hl] at h3
        rw [List.length_append] at h1
        unfold entryAt at h2
        unfold afterEntry
        omega
      by_cases hs : Strays (namesOf addr hostname) (rest.head?.any isInside) (entryAt (c :: more))
      · simp only [if_pos hs]
      · simp only [if_neg hs]
        by_cases ht : Taken (namesOf addr hostname) (entryAt (c :: more))
        · simp only [ht, decide_true, if_true]
        · simp only [ht, decide_false, if_false]
          refine ih _ _ (by omega) fun d hd hd' => ?_
          have := List.head?_dropWhile_not isInside (c :: more)
          rw [show ((c :: more).dropWhile isInside).head? = some d from hd] at this
          simp [hd'] at this

end Loop

/-! ## When the answer is right -/

section Harm

variable (names : List (List UInt8)) (e : Bool × List UInt8)

/-- It excludes a destination that it does not match. -/
def Overreaches : Prop := ¬Strays names e.1 e.2 ∧ Taken names e.2 ∧ ¬Matches names e.2

/-- It is passed over where it matches. -/
def Misses : Prop := ¬Strays names e.1 e.2 ∧ ¬Taken names e.2 ∧ Matches names e.2

def Harmful : Prop := Strays names e.1 e.2 ∨ Overreaches names e ∨ Misses names e

/-- An entry is taken before one strays. -/
def Stopped (entries : List (Bool × List UInt8)) : Prop :=
  ∃ before e after, entries = before ++ e :: after ∧ (Taken names e.2 ∧ ¬Strays names e.1 e.2) ∧
    ∀ v ∈ before, ¬Strays names v.1 v.2

/-- The first harmful entry, if there is one, comes after one that matches, or excludes before one that
    matches, or is passed over before one that is taken. -/
def Harmless (entries : List (Bool × List UInt8)) : Prop :=
  ∀ before e after, entries = before ++ e :: after → Harmful names e → (∀ v ∈ before, ¬Harmful names v) →
    (∃ v ∈ before, Matches names v.2) ∨ (Overreaches names e ∧ ∃ v ∈ after, Matches names v.2) ∨
      (Misses names e ∧ Stopped names after)

variable {names e}

theorem stopped_cons {entries : List (Bool × List UInt8)} :
    Stopped names (e :: entries) ↔ ¬Strays names e.1 e.2 ∧ (Taken names e.2 ∨ Stopped names entries) := by
  constructor
  · rintro ⟨before, x, after, he, ⟨ht, hs⟩, hb⟩
    cases before with
    | nil =>
      cases he
      exact ⟨hs, .inl ht⟩
    | cons v before =>
      cases he
      exact ⟨hb _ (by simp), .inr ⟨before, x, after, rfl, ⟨ht, hs⟩, fun v hv => hb v (by simp [hv])⟩⟩
  · rintro ⟨hs, ht | ⟨before, x, after, rfl, hx, hb⟩⟩
    · exact ⟨[], e, entries, rfl, ⟨ht, hs⟩, by simp⟩
    · refine ⟨e :: before, x, after, rfl, hx, fun v hv => ?_⟩
      rcases List.mem_cons.mp hv with rfl | hv
      · exact hs
      · exact hb v hv

theorem answer_false_iff (entries : List (Bool × List UInt8)) : answer names entries = some false ↔ Stopped names entries := by
  induction entries with
  | nil =>
    refine iff_of_false (by simp [answer]) ?_
    rintro ⟨before, e, after, he, -⟩
    cases before <;> cases he
  | cons e entries ih =>
    rw [stopped_cons, answer]
    split
    · next hs => exact iff_of_false (by simp) fun h => h.1 hs
    · next hs =>
      split
      · next ht => exact iff_of_true rfl ⟨hs, .inl ht⟩
      · next ht => rw [ih, and_iff_right hs, or_iff_right ht]

/-- A first entry that neither harms nor matches may be left out. -/
theorem harmless_cons {entries : List (Bool × List UInt8)} (hh : ¬Harmful names e) (hm : ¬Matches names e.2) :
    Harmless names (e :: entries) ↔ Harmless names entries := by
  constructor
  · intro h before x after he hx hb
    have := h (e :: before) x after (by rw [he]; rfl) hx fun v hv => by
      rcases List.mem_cons.mp hv with rfl | hv
      · exact hh
      · exact hb v hv
    simpa [hm] using this
  · intro h before x after he hx hb
    cases before with
    | nil =>
      cases he
      exact absurd hx hh
    | cons v before =>
      cases he
      have := h before x after rfl hx fun v hv => hb v (by simp [hv])
      simpa [hm] using this

/-- What decides where the first entry is harmful. -/
theorem harmless_harmful {entries : List (Bool × List UInt8)} (hh : Harmful names e) :
    Harmless names (e :: entries) ↔
      (Overreaches names e ∧ ∃ v ∈ entries, Matches names v.2) ∨ (Misses names e ∧ Stopped names entries) := by
  constructor
  · intro h
    simpa using h [] e entries rfl hh (by simp)
  · intro h before x after he hx hb
    cases before with
    | nil =>
      cases he
      exact .inr h
    | cons v before =>
      cases he
      exact absurd hh (hb _ (by simp))

theorem harmless_matching {entries : List (Bool × List UInt8)} (hh : ¬Harmful names e) (hm : Matches names e.2) :
    Harmless names (e :: entries) := by
  intro before x after he hx _
  cases before with
  | nil =>
    cases he
    exact absurd hx hh
  | cons v before =>
    cases he
    exact .inl ⟨_, by simp, hm⟩

theorem answer_iff (entries : List (Bool × List UInt8)) :
    answer names entries = some (!decide (∃ e ∈ entries, Matches names e.2)) ↔ Harmless names entries := by
  induction entries with
  | nil =>
    refine iff_of_true (by simp [answer]) fun before e after he => ?_
    cases before <;> cases he
  | cons e entries ih =>
    by_cases hs : Strays names e.1 e.2
    · rw [harmless_harmful (.inl hs), answer, if_pos hs]
      exact iff_of_false (by simp) (by rintro (⟨h, -⟩ | ⟨h, -⟩) <;> exact h.1 hs)
    by_cases ht : Taken names e.2
    · have hans : answer names (e :: entries) = some false := by rw [answer, if_neg hs, if_pos ht]
      have hmiss : ¬Misses names e := fun h => h.2.1 ht
      rw [hans]
      by_cases hm : Matches names e.2
      · refine iff_of_true (by simp [hm]) (harmless_matching ?_ hm)
        rintro (h | h | h)
        · exact hs h
        · exact h.2.2 hm
        · exact hmiss h
      · have hover : Overreaches names e := ⟨hs, ht, hm⟩
        rw [harmless_harmful (.inr (.inl hover))]
        simp [hm, hover, hmiss]
    · have hans : answer names (e :: entries) = answer names entries := by rw [answer, if_neg hs, if_neg ht]
      have hover : ¬Overreaches names e := fun h => ht h.2.1
      rw [hans]
      by_cases hm : Matches names e.2
      · have hmiss : Misses names e := ⟨hs, ht, hm⟩
        rw [harmless_harmful (.inr (.inr hmiss))]
        simp [hm, hover, hmiss, answer_false_iff]
      · have hh : ¬Harmful names e := by
          rintro (h | h | h)
          · exact hs h
          · exact hover h
          · exact hm h.2.2
        have hsame : (∃ x ∈ e :: entries, Matches names x.2) ↔ ∃ x ∈ entries, Matches names x.2 := by simp [hm]
        rw [harmless_cons hh hm, ← ih]
        simp only [hsame]

end Harm

section Verdict

variable {conf : Conf} {addr : Option SockAddr} {hostname : List UInt8}

/-- The loop comes back for every list; it goes outside the strings where an entry strays. -/
theorem proxyForDestination_eq (hr : Remote conf addr hostname) :
    proxyForDestination conf addr hostname = answer (namesOf addr hostname) (flagged conf.proxyExcludeList) := by
  have hlocal : (!conf.evenProxyLocalhost && (conf.hostnameIsLocal hostname || addr.any (·.isLocal))) = false := by
    rcases hr.notLocal with he | ⟨h1, h2⟩
    · rw [he]
      rfl
    · rw [h1, h2, Bool.or_false, Bool.and_false]
  unfold proxyForDestination
  rw [hr.notSpecial, hlocal, if_neg Bool.false_ne_true, if_neg Bool.false_ne_true]
  exact excludeLoop_eq addr hostname _ none _ (Nat.lt_succ_self _) fun _ _ _ => rfl

/-- The answer is that of the list if and only if no harmful entry makes it another. -/
theorem proxyForDestination_iff (hr : Remote conf addr hostname) :
    proxyForDestination conf addr hostname = some (!decide (Excluded conf addr hostname)) ↔
      Harmless (namesOf addr hostname) (flagged conf.proxyExcludeList) := by
  have hexcl : Excluded conf addr hostname ↔ ∃ e ∈ flagged conf.proxyExcludeList, Matches (namesOf addr hostname) e.2 := by
    unfold Excluded
    rw [← flagged_map_snd]
    simp only [List.mem_map]
    constructor
    · rintro ⟨_, ⟨e, he, rfl⟩, hm⟩
      exact ⟨e, he, hm⟩
    · rintro ⟨e, he, hm⟩
      exact ⟨e.2, ⟨e, he, rfl⟩, hm⟩
  rw [proxyForDestination_eq hr, ← answer_iff]
  simp only [hexcl]

theorem proxyForDestination_iff_suffix :
    proxyForDestination ⟨false, text "*.example.com", fun _ => false⟩ none (text "www.example.com") =
        some (!decide (Excluded ⟨false, text "*.example.com", fun _ => false⟩ none (text "www.example.com"))) ↔
      Harmless (namesOf none (text "www.example.com")) (flagged (text "*.example.com")) :=
  proxyForDestination_iff ⟨rfl, .inr ⟨rfl, rfl⟩⟩

/-- The entry 10.0.0.1 excludes 10.0.0.10 too. -/
theorem address_prefix :
    Remote ⟨false, text "10.0.0.1", fun _ => false⟩ none (text "10.0.0.10") ∧
      ¬Excluded ⟨false, text "10.0.0.1", fun _ => false⟩ none (text "10.0.0.10") ∧
      proxyForDestination ⟨false, text "10.0.0.1", fun _ => false⟩ none (text "10.0.0.10") = some false :=
  ⟨⟨rfl, .inr ⟨rfl, rfl⟩⟩, by decide +kernel, by decide +kernel⟩

end Verdict

end Putty.Proxy
