/-
  Putty.Ssh2.KexinitSafety — what the scan of `ssh2_scan_kexinits` leaves in its
  variables, for packets of any bytes.

  The scan reads eight strings from each packet, and nothing that it stores depends on
  more of them (`received`). It gets through its two loops if all eight are there, the
  table has every word agreed on, and a list without a common word is that of a MAC which
  comes with its cipher (`Reaches`).

  Two things then go wrong (`scan_safe_iff`, which says exactly when). The auxiliary pass
  records a host key algorithm every time the server names it: one that is named twice is
  recorded twice, and from the seventeenth record on `server_hostkeys` is written past its
  end (`repeated_name_overruns`). And the word "null", passed over because the key exchange
  is not a GSS one, leaves `hostkey_alg` as it was, which in the first exchange is NULL;
  the scan still succeeds.
-/

import Mathlib.Data.Fintype.Card
import Putty.Ssh2.Kexinit

namespace Putty.Ssh2.Kexinit

open Putty.Utils

/-! ## The lists of a raw packet -/

theorem getString_lt (src : BinarySource) : src.getString.1.length < 2 ^ 32 := by
  unfold BinarySource.getString
  rcases src.consume 4 with ⟨_ | b, src1⟩
  · exact Nat.two_pow_pos 32
  · dsimp only
    rcases h : src1.consume (BinarySource.get32BitMsbFirst b).toNat with ⟨_ | s, src2⟩
    · exact Nat.two_pow_pos 32
    · have hlen : s.length = (BinarySource.get32BitMsbFirst b).toNat := BinarySource.consume_length (by rw [h])
      rw [hlen]
      exact UInt32.toNat_lt _

/-- Once a read has failed, every later one does. -/
theorem getString_failed {src : BinarySource} (h : src.err = true) : src.getString.2.err = true := by
  unfold BinarySource.getString BinarySource.consume
  rw [if_pos h]
  exact h

/-- The strings of the lists, read one after the other. -/
def readStrings : List KexList → BinarySource → (KexList → List UInt8) × BinarySource
  | [], src => (fun _ => [], src)
  | i :: todo, src =>
    let (lists, rest) := readStrings todo src.getString.2
    (Function.update lists i src.getString.1, rest)

/-- Where the lists begin. -/
def afterCookie (kexinit : List UInt8) : BinarySource := ((BinarySource.ofData kexinit).getData (1 + 16)).2

/-- All eight strings are there. -/
def Complete (kexinit : List UInt8) : Prop := (readStrings kexListAll (afterCookie kexinit)).2.err = false

theorem readStrings_self (i : KexList) (todo : List KexList) (src : BinarySource) :
    (readStrings (i :: todo) src).1 i = src.getString.1 := Function.update_self ..

theorem readStrings_ne {i j : KexList} (h : j ≠ i) (todo : List KexList) (src : BinarySource) :
    (readStrings (i :: todo) src).1 j = (readStrings todo src.getString.2).1 j := Function.update_of_ne h ..

theorem readStrings_lt (todo : List KexList) (src : BinarySource) (i : KexList) :
    ((readStrings todo src).1 i).length < 2 ^ 32 := by
  induction todo generalizing src with
  | nil => exact Nat.two_pow_pos 32
  | cons j todo ih =>
    by_cases h : i = j
    · rw [h, readStrings_self]
      exact getString_lt src
    · rw [readStrings_ne h]
      exact ih _

theorem no_languages_lt : ([] : List UInt8).length < 2 ^ 32 := by decide

/-- A packet that has the lists of a raw one, and nothing else of it. -/
def received (kexinit : List UInt8) : KexinitPacket where
  cookie := List.replicate 16 0
  lists := (readStrings kexListAll (afterCookie kexinit)).1
  csLanguages := []
  scLanguages := []
  firstKexPacketFollows := 0
  reserved := []
  cookie_length := rfl
  lists_lt := readStrings_lt kexListAll (afterCookie kexinit)
  csLanguages_lt := no_languages_lt
  scLanguages_lt := no_languages_lt

/-! ## What is to hold, and when it does -/

/-- Everything that is negotiated is there; only a GSS key exchange does without a host key. -/
structure AllSet (o : Negotiated) : Prop where
  kex : o.kexAlg ≠ none
  csCipher : o.cs.cipher ≠ none
  scCipher : o.sc.cipher ≠ none
  csMac : o.cs.mac ≠ none
  scMac : o.sc.mac ≠ none
  csComp : o.cs.comp ≠ none
  scComp : o.sc.comp ≠ none
  hostkey : o.hostkeyAlg = none → o.kexAlg.map (·.mainType) = some .gss

/-- The array is not overrun, holds no algorithm twice, and a scan that succeeds has set
    everything. -/
structure Safe (wanted : Wanted) (result : Except Failure Negotiated) : Prop where
  inBounds : result ≠ .error .overrun
  hostkeys : ∀ o, result = .ok o → wanted.serverHostkeys = true →
    o.serverHostkeys.length ≤ MAXKEXLIST ∧ o.serverHostkeys.Nodup
  allSet : ∀ o, result = .ok o → AllSet o

section Condition

variable (c s : KexinitPacket) (T : Kexlists)

/-- Every list has what the two loops ask of it. -/
structure Agrees : Prop where
  known : ∀ i w, agreed c s i = some w → (T.lookup i w).isSome
  common : ∀ i, builtinMac c s T i = none → agreed c s i ≠ none

/-- The entry that decides about a list has NULL for an algorithm. -/
def PicksNull (i : KexList) : Prop := builtinMac c s T i = none ∧ (choice c s T i).map Prod.fst = some none

/-- A GSS key exchange was agreed on. -/
def PicksGss : Prop := ((choice c s T .kex).bind Prod.fst).map (·.mainType) = some .gss

/-- The server names no host key algorithm we know twice, and no NULL is picked from the
    table but "null" for a host key: in a GSS exchange, or where one is set already. -/
structure Harmless (wanted : Wanted) (old : Negotiated) : Prop where
  distinct : wanted.serverHostkeys = true → (knownHostkeys s).Nodup
  entries : ∀ i, i ≠ .hostkey → ¬ PicksNull c s T i
  hostkey : PicksNull c s T .hostkey → PicksGss c s T ∨ old.hostkeyAlg ≠ none

end Condition

/-- The scan of two raw packets gets through both of its loops. -/
structure Reaches (clientKexinit serverKexinit : List UInt8) (T : Kexlists) : Prop where
  client : Complete clientKexinit
  server : Complete serverKexinit
  agrees : Agrees (received clientKexinit) (received serverKexinit) T

/-! ## The first loop -/

variable {c s : KexinitPacket} {T : Kexlists}

theorem readStrings_failed (todo : List KexList) {src : BinarySource} (h : src.err = true) :
    (readStrings todo src).2.err = true := by
  induction todo generalizing src with
  | nil => exact h
  | cons i todo ih => exact ih (getString_failed h)

/-- The next strings of both packets are the lists `i` of `c` and `s`. -/
structure NextAre (c s : KexinitPacket) (i : KexList) (st : Scan) : Prop where
  client : st.client.getString.1 = c.lists i
  server : st.server.getString.1 = s.lists i

theorem matchList_next {i : KexList} {st : Scan} (h : NextAre c s i st) :
    match matchList T st i with
    | .error e => (e = .incomplete ∧ (st.client.getString.2.err = true ∨ st.server.getString.2.err = true)) ∨
        ∃ w, e = .unsupported i w ∧ agreed c s i = some w ∧ T.lookup i w = none
    | .ok st' => (st'.client = st.client.getString.2 ∧ st'.server = st.server.getString.2) ∧
        (st'.client.err = false ∧ st'.server.err = false) ∧
        st'.slists = Function.update st.slists i (s.lists i) ∧
        st'.selected = Function.update st.selected i ((agreed c s i).bind (T.lookup i)) ∧
        ∀ w, agreed c s i = some w → (T.lookup i w).isSome := by
  have hm := findMatch_eq (c.lists i) (s.lists i) true
  change _ = (agreed c s i).map _ at hm
  unfold matchList
  dsimp only
  rcases he : (st.client.getString.2.err || st.server.getString.2.err) with _ | _
  · have herr := Bool.or_eq_false_iff.mp he
    rw [if_neg Bool.false_ne_true, h.client, h.server, hm]
    rcases ha : agreed c s i with _ | w
    · exact ⟨⟨rfl, rfl⟩, herr, rfl, rfl, nofun⟩
    · rw [Option.map_some, Option.bind_some]
      dsimp only
      rcases hl : T.lookup i w with _ | alg
      · exact Or.inr ⟨w, rfl, rfl, hl⟩
      · refine ⟨⟨rfl, rfl⟩, herr, rfl, rfl, ?_⟩
        rintro _ ⟨⟩
        rw [hl]; rfl
  · rw [if_pos rfl]
    exact Or.inl ⟨rfl, Bool.or_eq_true_iff.mp he⟩

/-- The next strings are the lists of `todo`, in turn. -/
structure ReadsOn (c s : KexinitPacket) (todo : List KexList) (st : Scan) : Prop where
  client : ∀ i ∈ todo, (readStrings todo st.client).1 i = c.lists i
  server : ∀ i ∈ todo, (readStrings todo st.server).1 i = s.lists i

theorem ReadsOn.head {i : KexList} {todo : List KexList} {st : Scan} (h : ReadsOn c s (i :: todo) st) :
    NextAre c s i st := by
  refine ⟨?_, ?_⟩
  · rw [← h.client i List.mem_cons_self, readStrings_self]
  · rw [← h.server i List.mem_cons_self, readStrings_self]

theorem ReadsOn.tail {i : KexList} {todo : List KexList} {st st' : Scan} (h : ReadsOn c s (i :: todo) st) (hi : i ∉ todo)
    (hc : st'.client = st.client.getString.2) (hs : st'.server = st.server.getString.2) : ReadsOn c s todo st' := by
  refine ⟨fun j hj => ?_, fun j hj => ?_⟩
  · rw [hc, ← h.client j (List.mem_cons_of_mem _ hj), readStrings_ne (ne_of_mem_of_not_mem hj hi)]
  · rw [hs, ← h.server j (List.mem_cons_of_mem _ hj), readStrings_ne (ne_of_mem_of_not_mem hj hi)]

/-- The first loop over any bytes: what it hands over, or why it stops. -/
theorem matchLists_next {todo : List KexList} {st : Scan} (hn : todo.Nodup) (h : ReadsOn c s todo st) :
    match todo.foldlM (matchList T) st with
    | .error e => (e = .incomplete ∧
          ((readStrings todo st.client).2.err = true ∨ (readStrings todo st.server).2.err = true)) ∨
        ∃ i w, e = .unsupported i w ∧ agreed c s i = some w ∧ T.lookup i w = none
    | .ok st' => (todo = [] ∨
          ((readStrings todo st.client).2.err = false ∧ (readStrings todo st.server).2.err = false)) ∧
        (∀ i ∈ todo, st'.slists i = s.lists i ∧ st'.selected i = (agreed c s i).bind (T.lookup i) ∧
          ∀ w, agreed c s i = some w → (T.lookup i w).isSome) ∧
        ∀ i ∉ todo, st'.slists i = st.slists i ∧ st'.selected i = st.selected i := by
  induction todo generalizing st with
  | nil => exact ⟨Or.inl rfl, nofun, fun _ _ => ⟨rfl, rfl⟩⟩
  | cons i todo ih =>
    obtain ⟨hi, hn⟩ := List.nodup_cons.mp hn
    have h1 := matchList_next (T := T) h.head
    rw [List.foldlM_cons]
    rcases hm : matchList T st i with e | st1
    · rw [hm] at h1
      rcases h1 with ⟨rfl, he⟩ | ⟨w, hw⟩
      · refine Or.inl ⟨rfl, he.imp (fun he => ?_) fun he => ?_⟩
        · exact readStrings_failed todo he
        · exact readStrings_failed todo he
      · exact Or.inr ⟨i, w, hw⟩
    · rw [hm] at h1
      obtain ⟨⟨hc, hs⟩, hgood1, hsl, hse, hk⟩ := h1
      have h2 := ih hn (h.tail hi hc hs)
      rw [hc, hs] at h2 hgood1
      show match todo.foldlM (matchList T) st1 with | .error e => _ | .ok st' => _
      rcases hf : todo.foldlM (matchList T) st1 with e | st2
      · rw [hf] at h2; exact h2
      · rw [hf] at h2
        obtain ⟨hdone, hin, hout⟩ := h2
        refine ⟨Or.inr ?_, fun j hj => ?_, fun j hj => ?_⟩
        · rcases hdone with rfl | hdone
          · exact hgood1
          · exact hdone
        · rcases List.mem_cons.mp hj with rfl | hj
          · obtain ⟨o1, o2⟩ := hout j hi
            exact ⟨by rw [o1, hsl, Function.update_self], by rw [o2, hse, Function.update_self], hk⟩
          · exact hin j hj
        · obtain ⟨hji, hj⟩ := List.ne_and_not_mem_of_not_mem_cons hj
          obtain ⟨o1, o2⟩ := hout j hj
          exact ⟨by rw [o1, hsl, Function.update_of_ne hji], by rw [o2, hse, Function.update_of_ne hji]⟩

/-! ## The whole scan -/

theorem field_readGuesses (wanted : Wanted) (st : Scan) (o : Negotiated) (i : KexList) :
    field (readGuesses wanted st o) i = field o i := by
  unfold readGuesses
  dsimp only
  split <;> split <;> cases i <;> rfl

theorem expected_readGuesses (wanted : Wanted) (st : Scan) (o : Negotiated) (i : KexList) :
    expected c s T (readGuesses wanted st o) i = expected c s T o i := by
  simp only [expected, field_readGuesses]

/-- What a scan of any bytes ends in. -/
def Ended (clientKexinit serverKexinit : List UInt8) (T : Kexlists) (wanted : Wanted) (old : Negotiated) :
    Except Failure Negotiated → Prop
  | .ok o => Reaches clientKexinit serverKexinit T ∧
      (∀ i, some (field o i) = expected (received clientKexinit) (received serverKexinit) T old i) ∧
      (wanted.serverHostkeys = true → o.serverHostkeys = knownHostkeys (received serverKexinit) ∧
        o.serverHostkeys.length ≤ MAXKEXLIST)
  | .error .overrun => Reaches clientKexinit serverKexinit T ∧ wanted.serverHostkeys = true ∧
      MAXKEXLIST < (knownHostkeys (received serverKexinit)).length
  | .error _ => ¬ Reaches clientKexinit serverKexinit T

theorem init_readsOn (clientKexinit serverKexinit : List UInt8) :
    ReadsOn (received clientKexinit) (received serverKexinit) kexListAll (Scan.init clientKexinit serverKexinit) :=
  ⟨fun _ _ => rfl, fun _ _ => rfl⟩

/-- The scan gets through its loops exactly when every list has what they ask of it. -/
theorem scan_ended (clientKexinit serverKexinit : List UInt8) (T : Kexlists) (wanted : Wanted) (old : Negotiated) :
    Ended clientKexinit serverKexinit T wanted old (ssh2ScanKexinits clientKexinit serverKexinit T wanted old) := by
  have h1 := matchLists_next (T := T) (by decide) (init_readsOn clientKexinit serverKexinit)
  unfold ssh2ScanKexinits
  rcases hm : kexListAll.foldlM (matchList T) (Scan.init clientKexinit serverKexinit) with e | st
  · rw [hm] at h1
    rcases h1 with ⟨rfl, he⟩ | ⟨i, w, rfl, ha, hl⟩
    · rintro ⟨hc, hs, -⟩
      rcases he with he | he
      · exact Bool.false_ne_true (hc.symm.trans he)
      · exact Bool.false_ne_true (hs.symm.trans he)
    · rintro ⟨-, -, hk⟩
      have := hk.known i w ha
      rw [hl] at this
      cases this
  · rw [hm] at h1
    obtain ⟨hdone, hin, -⟩ := h1
    obtain ⟨hc, hs⟩ := hdone.resolve_left (by decide)
    have hmatched : Matched (received clientKexinit) (received serverKexinit) T st :=
      ⟨fun i => (hin i (mem_kexListAll i)).1, fun i => (hin i (mem_kexListAll i)).2.1,
        fun i => (hin i (mem_kexListAll i)).2.2⟩
    have hstart : Stored (received clientKexinit) (received serverKexinit) T (readGuesses wanted st old) []
        (readGuesses wanted st old) := ⟨fun _ h => absurd h List.not_mem_nil, fun _ _ => rfl, rfl, rfl, rfl⟩
    have h2 := transcribeAll_ok hmatched hstart all_ready
    show Ended _ _ T wanted old ((kexListAll.foldlM (transcribe st) (readGuesses wanted st old)).bind _)
    rcases ht : kexListAll.foldlM (transcribe st) (readGuesses wanted st old) with e | o
    · rw [ht] at h2
      obtain ⟨i, rfl, ha, hb⟩ := h2
      exact fun hr => hr.agrees.common i hb ha
    · rw [ht, List.append_nil] at h2
      have hchosen : ∀ i, some (field o i) = expected (received clientKexinit) (received serverKexinit) T old i := by
        intro i
        rw [h2.stored i (List.mem_reverse.mpr (mem_kexListAll i)), expected_readGuesses]
      have hreach : Reaches clientKexinit serverKexinit T := by
        refine ⟨hc, hs, hmatched.known, fun i hb ha => ?_⟩
        have := hchosen i
        rw [expected, hb, choice, ha] at this
        cases this
      rcases wanted with ⟨wc, ws, _ | _⟩
      · exact ⟨hreach, hchosen, fun h => absurd h Bool.false_ne_true⟩
      · show Ended _ _ T ⟨wc, ws, true⟩ old ((scanHostkeys (st.slists .hostkey) []).bind _)
        have hscan : scanHostkeys (st.slists .hostkey) [] =
            if (knownHostkeys (received serverKexinit)).length ≤ MAXKEXLIST then
              .ok (knownHostkeys (received serverKexinit))
            else .error .overrun := by
          rw [hmatched.slists]
          exact scanHostkeys_eq _ [] (Nat.zero_le _)
        rw [hscan]
        by_cases hlen : (knownHostkeys (received serverKexinit)).length ≤ MAXKEXLIST
        · rw [if_pos hlen]
          refine ⟨hreach, fun i => ?_, fun _ => ⟨rfl, hlen⟩⟩
          rw [← hchosen i]
          cases i <;> rfl
        · rw [if_neg hlen]
          exact ⟨hreach, rfl, Nat.lt_of_not_le hlen⟩

/-! ## What is NULL afterwards -/

theorem builtinMac_some {i : KexList} {v : Option i.Alg × Bool} (h : builtinMac c s T i = some v) : v.1 ≠ none := by
  have key : ∀ (x : Option (Option SshCipheralg × Bool)) (m : Option Ssh2Macalg × Bool), macOf x = some m → m.1 ≠ none := by
    intro x m hm
    obtain ⟨mac, -, rfl⟩ := Option.map_eq_some_iff.mp hm
    exact Option.some_ne_none mac
  cases i with
  | csmac => exact key _ _ h
  | scmac => exact key _ _ h
  | _ => cases h

theorem nullIgnored_of_ne {i : KexList} (h : i ≠ .hostkey) (v : Option i.Alg × Bool) : nullIgnored c s T i v = false := by
  cases i with
  | hostkey => exact absurd rfl h
  | _ => rfl

/-- A variable holds NULL exactly when NULL was picked for it. -/
theorem field_null {old o : Negotiated} {i : KexList} (hi : i ≠ .hostkey)
    (h : some (field o i) = expected c s T old i) : (field o i).1 = none ↔ PicksNull c s T i := by
  rcases hb : builtinMac c s T i with _ | v
  · rw [expected, hb] at h
    obtain ⟨v, hv, he⟩ := Option.map_eq_some_iff.mp h.symm
    rw [nullIgnored_of_ne hi, if_neg Bool.false_ne_true] at he
    rw [← he, PicksNull, hb, hv]
    simp
  · rw [expected, hb] at h
    rw [Option.some.inj h, PicksNull, hb]
    exact iff_of_false (builtinMac_some hb) fun h => by cases h.1

/-- The host key algorithm is NULL when "null" was picked, and either it counts or there
    was none before. -/
theorem hostkey_null {old o : Negotiated} (h : some (field o .hostkey) = expected c s T old .hostkey) :
    o.hostkeyAlg = none ↔ PicksNull c s T .hostkey ∧ (PicksGss c s T ∨ old.hostkeyAlg = none) := by
  obtain ⟨v, hv, he⟩ := Option.map_eq_some_iff.mp (show some (field o .hostkey) =
    (choice c s T .hostkey).map fun v => if nullIgnored c s T .hostkey v then field old .hostkey else v from h).symm
  have hfield : o.hostkeyAlg = (field o .hostkey).1 := rfl
  rw [hfield, ← he, PicksNull, hv]
  have hn : nullIgnored c s T .hostkey v = true ↔ v.1 = none ∧ ¬ PicksGss c s T := by
    simp [nullIgnored, PicksGss]
  have hb : builtinMac c s T .hostkey = none := rfl
  by_cases hg : nullIgnored c s T .hostkey v = true
  · obtain ⟨h1, h2⟩ := hn.mp hg
    rw [if_pos hg]
    simp [h1, h2, hb, field]
  · rw [if_neg hg]
    by_cases h1 : v.1 = none
    · have h2 : PicksGss c s T := by
        by_contra h2
        exact hg (hn.mpr ⟨h1, h2⟩)
      simp [h1, h2, hb]
    · simp [h1, hb]

theorem kex_gss {old o : Negotiated} (h : some (field o .kex) = expected c s T old .kex) :
    o.kexAlg.map (·.mainType) = some .gss ↔ PicksGss c s T := by
  obtain ⟨v, hv, he⟩ := Option.map_eq_some_iff.mp (show some (field o .kex) =
    (choice c s T .kex).map fun v => if nullIgnored c s T .kex v then field old .kex else v from h).symm
  have hkex : o.kexAlg = v.1 := congrArg Prod.fst he.symm
  rw [PicksGss, hv, hkex]
  rfl

theorem allSet_iff (o : Negotiated) :
    AllSet o ↔ (∀ i, i ≠ .hostkey → (field o i).1 ≠ none) ∧
      (o.hostkeyAlg = none → o.kexAlg.map (·.mainType) = some .gss) := by
  refine ⟨fun h => ⟨fun i hi => ?_, h.hostkey⟩, fun ⟨h, hk⟩ => ?_⟩
  · cases i with
    | kex => exact h.kex
    | hostkey => exact absurd rfl hi
    | cscipher => exact h.csCipher
    | sccipher => exact h.scCipher
    | csmac => exact h.csMac
    | scmac => exact h.scMac
    | cscomp => exact h.csComp
    | sccomp => exact h.scComp
  · exact ⟨h .kex nofun, h .cscipher nofun, h .sccipher nofun, h .csmac nofun, h .scmac nofun, h .cscomp nofun,
      h .sccomp nofun, hk⟩

/-- A scan that succeeds sets everything exactly when no NULL was picked that counts. -/
theorem allSet_chosen {old o : Negotiated} (h : ∀ i, some (field o i) = expected c s T old i) :
    AllSet o ↔ (∀ i, i ≠ .hostkey → ¬ PicksNull c s T i) ∧
      (PicksNull c s T .hostkey → PicksGss c s T ∨ old.hostkeyAlg ≠ none) := by
  rw [allSet_iff, hostkey_null (h .hostkey), kex_gss (h .kex)]
  refine and_congr ?_ ?_
  · refine forall_congr' fun i => forall_congr' fun hi => ?_
    exact not_congr (field_null hi (h i))
  · refine ⟨fun hset hp => ?_, fun hset ⟨hp, hor⟩ => ?_⟩
    · by_cases hold : old.hostkeyAlg = none
      · exact Or.inl (hset ⟨hp, Or.inr hold⟩)
      · exact Or.inr hold
    · rcases hset hp with hg | hold
      · exact hg
      · exact hor.resolve_right hold

/-! ## The host key algorithms recorded -/

theorem hostkeyIndex_lt {word : List UInt8} {i : Nat} (h : hostkeyIndex word = some i) : i < ssh2HostkeyAlgs.length :=
  (List.findIdx?_eq_some_iff_findIdx_eq.mp h).1

/-- There are fewer algorithms than places. -/
theorem knownHostkeys_le (h : (knownHostkeys s).Nodup) : (knownHostkeys s).length ≤ MAXKEXLIST := by
  have hsub : knownHostkeys s ⊆ List.range ssh2HostkeyAlgs.length := by
    intro i hi
    obtain ⟨w, -, hw⟩ := List.mem_filterMap.mp hi
    exact List.mem_range.mpr (hostkeyIndex_lt hw)
  calc (knownHostkeys s).length ≤ (List.range ssh2HostkeyAlgs.length).length := (h.subperm hsub).length_le
    _ ≤ MAXKEXLIST := by decide

/-- For packets of any bytes and every table: the scan is safe exactly when, if it gets
    through its loops, the server names no algorithm we know twice and the entries picked
    are not NULL but for a "null" that counts or changes nothing. -/
theorem scan_safe_iff (clientKexinit serverKexinit : List UInt8) (T : Kexlists) (wanted : Wanted) (old : Negotiated) :
    Safe wanted (ssh2ScanKexinits clientKexinit serverKexinit T wanted old) ↔
      (Reaches clientKexinit serverKexinit T →
        Harmless (received clientKexinit) (received serverKexinit) T wanted old) := by
  have hend := scan_ended clientKexinit serverKexinit T wanted old
  rcases hr : ssh2ScanKexinits clientKexinit serverKexinit T wanted old with e | o
  · rw [hr] at hend
    by_cases hover : e = .overrun
    · -- past the end of the array: some name must be there twice
      subst hover
      obtain ⟨hreach, hw, hlen⟩ := hend
      refine iff_of_false (fun h => h.inBounds rfl) fun h => ?_
      exact Nat.not_le_of_lt hlen (knownHostkeys_le ((h hreach).distinct hw))
    · have hnot : ¬ Reaches clientKexinit serverKexinit T := by
        cases e <;> first | exact absurd rfl hover | exact hend
      refine iff_of_true ⟨fun he => hover (Except.error.inj he), ?_, ?_⟩ fun h => absurd h hnot
      · rintro o ho
        cases ho
      · rintro o ho
        cases ho
  · rw [hr] at hend
    obtain ⟨hreach, hchosen, hhk⟩ := hend
    have hset := allSet_chosen hchosen
    refine ⟨fun h _ => ?_, fun h => ?_⟩
    · obtain ⟨hentries, hhostkey⟩ := hset.mp (h.allSet o rfl)
      refine ⟨fun hw => ?_, hentries, hhostkey⟩
      rw [← (hhk hw).1]
      exact (h.hostkeys o rfl hw).2
    · have hq := h hreach
      refine ⟨fun he => (nomatch he), ?_, ?_⟩
      · rintro _ ⟨⟩ hw
        exact ⟨(hhk hw).2, (hhk hw).1 ▸ hq.distinct hw⟩
      · rintro _ ⟨⟩
        exact hset.mpr ⟨hq.entries, hq.hostkey⟩

/-! ## A name seventeen times, and "null" without GSS -/

/-- A KEXINIT with these host key algorithms. -/
def naming (hostkeys : List UInt8) (hostkeys_lt : hostkeys.length < 2 ^ 32) : KexinitPacket :=
  { ourKexinit with
    lists := Function.update ourKexinit.lists .hostkey hostkeys
    lists_lt := fun i => by
      by_cases h : i = .hostkey
      · rw [h, Function.update_self]; exact hostkeys_lt
      · rw [Function.update_of_ne h]; exact ourKexinit.lists_lt i }

/-- What we offer when we are willing to use GSS key exchange too. -/
def offeredNull : Kexlists :=
  Function.update (offered false) .hostkey
    [⟨text "ssh-ed25519", ⟨some ⟨text "ssh-ed25519"⟩, false⟩⟩, ⟨text "null", ⟨none, false⟩⟩]

def ourNull : KexinitPacket := naming (text "ssh-ed25519,null") (by decide)

def theirNull : KexinitPacket := naming (text "null") (by decide)

def theirRepeated : KexinitPacket :=
  naming (List.replicate 17 (text "ssh-ed25519,")).flatten (by decide +kernel)

/-- Each server packet alone breaks the scan's safety. -/
theorem repeated_name_overruns :
    ssh2ScanKexinits ourKexinit.encode theirRepeated.encode (offered false) transportWanted fresh = .error .overrun ∧
      (ssh2ScanKexinits ourNull.encode theirNull.encode offeredNull transportWanted fresh).toOption.map
        (fun o => (o.hostkeyAlg, o.kexAlg.map (·.mainType))) = some (none, some .ecdh) ∧
      ¬ Safe transportWanted
        (ssh2ScanKexinits ourKexinit.encode theirRepeated.encode (offered false) transportWanted fresh) := by
  have h : ssh2ScanKexinits ourKexinit.encode theirRepeated.encode (offered false) transportWanted fresh =
      .error .overrun := by decide +kernel
  refine ⟨h, by decide +kernel, fun hs => ?_⟩
  exact hs.inBounds h

end Putty.Ssh2.Kexinit
