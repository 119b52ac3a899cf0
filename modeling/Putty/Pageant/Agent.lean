/-
  Putty.Pageant.Agent — the agent as a map from public keys to keys, and what it does with
  a message, against that map.

  `Keys.next` says which messages change the map and are answered with success. Proved:
  `handle_spec`, one message is as it should be or not by the condition `Good`. Its bad
  cases: an SSH-1 challenge for a key with an even factor and a key or signature whose
  algorithm fails an assertion; an SSH-1 key that is present with another exponent (the
  tree compares moduli only); a list of 4 GiB.
-/

import Putty.Pageant.Messages

namespace Putty.Pageant

open Putty.Lib Putty.Utils

variable {K : Type} {c : Crypto K}

/-! ## The map -/

structure Keys (K : Type) where
  rsa : Nat × Nat → Option RSAKey
  ssh2 : List UInt8 → Option (Userkey K)

def view (s : Store c) : Keys K := ⟨s.rsakeys.lookup RSAKey.pub, s.ssh2keys.lookup fun key => c.publicBlob key.key⟩

/-- What a message asks for; `other` is all that changes nothing and lists nothing. -/
inductive Request (K : Type) where
  | listRsa
  | list
  | addRsa (key : RSAKey)
  | add (key : Userkey K)
  | removeRsa (pub : Nat × Nat)
  | remove (blob : List UInt8)
  | removeAllRsa
  | removeAll
  | other

def request (c : Crypto K) (msgdata : List UInt8) : Request K :=
  let (type, msg) := (BinarySource.ofData msgdata).getByte
  if msg.err then .other
  else
    match agentMsg type with
    | .requestRsaIdentities => .listRsa
    | .requestIdentities => .list
    | .addRsaIdentity =>
      if (getRsaIdentity msg).2 then .other
      else
        match rsaVerify c (getRsaIdentity msg).1 with
        | some (true, key) => .addRsa key
        | _ => .other
    | .addIdentity =>
      match getIdentity c msg with
      | some (some key) => .add key
      | _ => .other
    | .removeRsaIdentity =>
      let r := getRsaSsh1PubExponentFirst msg
      if r.2.err then .other else .removeRsa r.1
    | .removeIdentity => if msg.getString.2.err then .other else .remove msg.getString.1
    | .removeAllRsaIdentities => .removeAllRsa
    | .removeAllIdentities => .removeAll
    | .rsaChallenge => .other
    | .signRequest => .other
    | .unrecognised => .other

/-- The map after a request, and whether the answer is success. -/
def Keys.next (c : Crypto K) (a : Keys K) : Request K → Keys K × Bool
  | .addRsa key => if (a.rsa key.pub).isSome then (a, false) else ({ a with rsa := Function.update a.rsa key.pub (some key) }, true)
  | .add key =>
    if (a.ssh2 (c.publicBlob key.key)).isSome then (a, false)
    else ({ a with ssh2 := Function.update a.ssh2 (c.publicBlob key.key) (some key) }, true)
  | .removeRsa pub => if (a.rsa pub).isSome then ({ a with rsa := Function.update a.rsa pub none }, true) else (a, false)
  | .remove blob => if (a.ssh2 blob).isSome then ({ a with ssh2 := Function.update a.ssh2 blob none }, true) else (a, false)
  | .removeAllRsa => ({ a with rsa := fun _ => none }, true)
  | .removeAll => ({ a with ssh2 := fun _ => none }, true)
  | .listRsa => (a, false)
  | .list => (a, false)
  | .other => (a, false)

/-- All keys of the map, each once. -/
structure AllRsa (a : Keys K) (keys : List RSAKey) : Prop where
  once : (keys.map RSAKey.pub).Nodup
  all : ∀ pub key, a.rsa pub = some key ↔ key ∈ keys ∧ key.pub = pub

structure AllSsh2 (c : Crypto K) (a : Keys K) (keys : List (Userkey K)) : Prop where
  once : (keys.map fun key => c.publicBlob key.key).Nodup
  all : ∀ blob key, a.ssh2 blob = some key ↔ key ∈ keys ∧ c.publicBlob key.key = blob

/-- The body of a reply is right: its length fits its field, it is success where the map
    says so, and a list has every key once. -/
structure Fits (c : Crypto K) (a : Keys K) (r : Request K) (reply : List UInt8) : Prop where
  nonempty : reply ≠ []
  length : reply.length < 2 ^ 32
  success : reply = [sshAgentSuccess] ↔ (a.next c r).2 = true
  listRsa : r = .listRsa → ∃ keys entries, AllRsa a keys ∧ keys.mapM keylist1Entry = some entries ∧
    reply = ssh1AgentRsaIdentitiesAnswer :: (put32BitMsbFirst keys.length ++ entries.flatten)
  list : r = .list → ∃ keys, AllSsh2 c a keys ∧
    reply = ssh2AgentIdentitiesAnswer :: (put32BitMsbFirst keys.length ++ keys.flatMap (keylist2Entry c))

/-! ## The condition -/

/-- The length of a number in a message. -/
def mpSize (x : Nat) : Nat := 2 + (mpGetNbits x + 7) / 8

def keylist1Size (s : Store c) : Nat :=
  5 + (s.rsakeys.list.map fun key => 8 + mpSize key.exponent + mpSize key.modulus + (key.comment.takeWhile (· ≠ 0)).length).sum

def keylist2Size (s : Store c) : Nat :=
  5 + (s.ssh2keys.list.map fun key => 8 + (c.publicBlob key.key).length + (key.comment.takeWhile (· ≠ 0)).length).sum

/-- Every present key with this modulus has this exponent. -/
def SameExponent (s : Store c) (pub : Nat × Nat) : Prop := ∀ key ∈ s.rsakeys.list, key.modulus = pub.2 → key.exponent = pub.1

def Good (s : Store c) (msgdata : List UInt8) : Prop :=
  let (type, msg) := (BinarySource.ofData msgdata).getByte
  msg.err = false →
    match agentMsg type with
    | .requestRsaIdentities => keylist1Size s < 2 ^ 32
    | .requestIdentities => keylist2Size s < 2 ^ 32
    | .rsaChallenge => (getChallenge msg).err = false → (getChallenge msg).responseType = 1 →
      ∀ key ∈ s.rsakeys.list, key.modulus = (getChallenge msg).reqkey.2 → key.Usable
    | .signRequest => (getSigning msg).err = false → ∀ key ∈ s.ssh2keys.list,
      c.publicBlob key.key = (getSigning msg).keyblob → (getSigning msg).flags &&& ~~~(c.supportedFlags key.key) = 0 →
        c.invalid key.key (getSigning msg).flags = false → c.sign key.key (getSigning msg).sigdata (getSigning msg).flags ≠ none
    | .addRsaIdentity => (getRsaIdentity msg).2 = false → ∀ key, rsaVerify c (getRsaIdentity msg).1 = some (true, key) →
      SameExponent s key.pub
    | .addIdentity => getIdentity c msg ≠ none
    | .removeRsaIdentity => (getRsaSsh1PubExponentFirst msg).2.err = false → SameExponent s (getRsaSsh1PubExponentFirst msg).1
    | _ => True

/-! ## The trees as the map -/

theorem cmp_of_pub (x y : RSAKey) (h : x.pub = y.pub) : cmpkeysRsa x y = 0 := cmpkeysRsa_eq_zero.mpr (congrArg Prod.snd h)

theorem cmp_of_blob (x y : Userkey K) (h : c.publicBlob x.key = c.publicBlob y.key) : cmpkeysSsh2 c x y = 0 :=
  (cmpkeysSsh2_eq_zero c).mpr h

theorem view_rsa {s : Store c} {pub : Nat × Nat} {key : RSAKey} :
    (view s).rsa pub = some key ↔ key ∈ s.rsakeys.list ∧ key.pub = pub := Ordered.lookup_eq_some cmp_of_pub

theorem view_ssh2 {s : Store c} {blob : List UInt8} {key : Userkey K} :
    (view s).ssh2 blob = some key ↔ key ∈ s.ssh2keys.list ∧ c.publicBlob key.key = blob := Ordered.lookup_eq_some cmp_of_blob

theorem allRsa_view (s : Store c) : AllRsa (view s) s.rsakeys.list :=
  ⟨Ordered.keys_nodup cmp_of_pub _, fun _ _ => view_rsa⟩

theorem allSsh2_view (s : Store c) : AllSsh2 c (view s) s.ssh2keys.list :=
  ⟨Ordered.keys_nodup cmp_of_blob _, fun _ _ => view_ssh2⟩

theorem fits_failure {a : Keys K} {r : Request K} (h : (a.next c r).2 = false) (h1 : r ≠ .listRsa) (h2 : r ≠ .list) :
    Fits c a r pageantFailureMsg := by
  refine ⟨by decide, by decide, ?_, fun h => absurd h h1, fun h => absurd h h2⟩
  rw [h]
  exact ⟨fun h => absurd h (by decide), fun h => by cases h⟩

theorem fits_success {a : Keys K} {r : Request K} (h : (a.next c r).2 = true) : Fits c a r [sshAgentSuccess] := by
  refine ⟨by decide, by decide, ⟨fun _ => h, fun _ => rfl⟩, ?_, ?_⟩
  · rintro rfl
    cases h
  · rintro rfl
    cases h

/-- A message that asks for nothing, with any answer but success. -/
theorem fits_other {a : Keys K} {reply : List UInt8} (h0 : reply ≠ []) (hlen : reply.length < 2 ^ 32) (h : reply ≠ [sshAgentSuccess]) :
    Fits c a .other reply :=
  ⟨h0, hlen, ⟨fun h' => absurd h' h, fun h' => Bool.noConfusion h'⟩, fun h' => (by cases h'), fun h' => (by cases h')⟩

/-! ## One message -/

/-- The numbers of the SSH-1 keys fit in messages. -/
def Small (s : Store c) : Prop := ∀ key ∈ s.rsakeys.list, mpGetNbits key.exponent < 0x10000 ∧ mpGetNbits key.modulus < 0x10000

/-- A message was handled as the map says. -/
def Done (s : Store c) (r : Request K) (o : Option (Store c × List UInt8)) : Prop :=
  ∃ s' reply, o = some (s', reply) ∧ Small s' ∧ view s' = ((view s).next c r).1 ∧ Fits c (view s) r reply

/-- It was not. -/
def Wrong (s : Store c) (r : Request K) (o : Option (Store c × List UInt8)) : Prop :=
  ∀ s' reply, o = some (s', reply) → ¬ Fits c (view s) r reply

theorem done_failure {s : Store c} (hs : Small s) {r : Request K} (h : (view s).next c r = (view s, false)) (h1 : r ≠ .listRsa)
    (h2 : r ≠ .list) : Done s r (some (s, pageantFailureMsg)) :=
  ⟨s, _, rfl, hs, by rw [h], fits_failure (by rw [h]) h1 h2⟩

theorem done_other {s : Store c} (hs : Small s) : Done s .other (some (s, pageantFailureMsg)) :=
  done_failure hs rfl (fun h => by cases h) (fun h => by cases h)

/-! ### Lists -/

theorem putString_length (data : List UInt8) : (putString data).length = 4 + data.length := by
  rw [putString, List.length_append]
  rfl

theorem putMpSsh1_spec {x : Nat} (h : mpGetNbits x < 0x10000) : ∃ b, putMpSsh1 x = some b ∧ b.length = mpSize x := by
  refine ⟨_, by rw [putMpSsh1, if_pos h], ?_⟩
  rw [List.length_append, List.length_map, List.length_reverse, List.length_range]
  rfl

theorem keylist1Entry_spec {key : RSAKey} (he : mpGetNbits key.exponent < 0x10000) (hm : mpGetNbits key.modulus < 0x10000) :
    ∃ b, keylist1Entry key = some b ∧
      b.length = 8 + mpSize key.exponent + mpSize key.modulus + (key.comment.takeWhile (· ≠ 0)).length := by
  obtain ⟨e, he, hel⟩ := putMpSsh1_spec he
  obtain ⟨m, hm, hml⟩ := putMpSsh1_spec hm
  refine ⟨_, by rw [keylist1Entry, rsaSsh1PublicBlob, he, hm]; rfl, ?_⟩
  rw [List.length_append, List.length_append, List.length_append, putStringz, putString_length, hel, hml]
  show 4 + _ + _ + _ = _
  omega

theorem keylist1Entries_spec : ∀ {keys : List RSAKey},
    (∀ key ∈ keys, mpGetNbits key.exponent < 0x10000 ∧ mpGetNbits key.modulus < 0x10000) →
    ∃ entries, keys.mapM keylist1Entry = some entries ∧ entries.flatten.length =
      (keys.map fun key => 8 + mpSize key.exponent + mpSize key.modulus + (key.comment.takeWhile (· ≠ 0)).length).sum
  | [], _ => ⟨[], rfl, rfl⟩
  | key :: keys, h => by
    obtain ⟨hkey, hkeys⟩ := List.forall_mem_cons.mp h
    obtain ⟨b, hb, hbl⟩ := keylist1Entry_spec hkey.1 hkey.2
    obtain ⟨entries, he, hel⟩ := keylist1Entries_spec hkeys
    refine ⟨b :: entries, by rw [List.mapM_cons, hb, he]; rfl, ?_⟩
    rw [List.flatten_cons, List.length_append, hbl, hel, List.map_cons, List.sum_cons]

theorem requestRsaIdentities_spec {s : Store c} (hs : Small s) :
    keylist1Size s < 2 ^ 32 ∧ Done s .listRsa (requestRsaIdentities s) ∨
      ¬ keylist1Size s < 2 ^ 32 ∧ Wrong s .listRsa (requestRsaIdentities s) := by
  obtain ⟨entries, he, hlen⟩ := keylist1Entries_spec hs
  have hr : requestRsaIdentities s =
      some (s, ssh1AgentRsaIdentitiesAnswer :: (put32BitMsbFirst s.rsakeys.list.length ++ entries.flatten)) := by
    rw [requestRsaIdentities, pageantMakeKeylist1, he]
    rfl
  have hsize : (ssh1AgentRsaIdentitiesAnswer :: (put32BitMsbFirst s.rsakeys.list.length ++ entries.flatten)).length =
      keylist1Size s := by
    rw [List.length_cons, List.length_append, hlen, put32_length, keylist1Size]
    omega
  rw [hr]
  by_cases hlt : keylist1Size s < 2 ^ 32
  · refine .inl ⟨hlt, s, _, rfl, hs, rfl, List.cons_ne_nil _ _, hsize ▸ hlt, ?_, fun _ => ?_, fun h => by cases h⟩
    · exact ⟨fun h => absurd (List.cons.inj h).1 (by decide), fun h => by cases h⟩
    · exact ⟨_, entries, allRsa_view s, he, rfl⟩
  · refine .inr ⟨hlt, fun s' reply h hfits => ?_⟩
    cases h
    exact hlt (hsize ▸ hfits.length)

theorem requestIdentities_spec {s : Store c} (hs : Small s) :
    keylist2Size s < 2 ^ 32 ∧ Done s .list (requestIdentities s) ∨
      ¬ keylist2Size s < 2 ^ 32 ∧ Wrong s .list (requestIdentities s) := by
  have hentry : ∀ key : Userkey K, (keylist2Entry c key).length =
      8 + (c.publicBlob key.key).length + (key.comment.takeWhile (· ≠ 0)).length := by
    intro key
    rw [keylist2Entry, List.length_append, putStringz, putString_length, putString_length]
    omega
  have hsize : (ssh2AgentIdentitiesAnswer :: pageantMakeKeylist2 s).length = keylist2Size s := by
    rw [List.length_cons, pageantMakeKeylist2, List.length_append, List.length_flatMap, put32_length, keylist2Size]
    simp only [hentry]
    omega
  by_cases hlt : keylist2Size s < 2 ^ 32
  · refine .inl ⟨hlt, s, _, rfl, hs, rfl, List.cons_ne_nil _ _, hsize ▸ hlt, ?_, fun h => (by cases h), fun _ => ?_⟩
    · exact ⟨fun h => absurd (List.cons.inj h).1 (by decide), fun h => by cases h⟩
    · exact ⟨_, allSsh2_view s, rfl⟩
  · refine .inr ⟨hlt, fun s' reply h hfits => ?_⟩
    cases h
    exact hlt (hsize ▸ hfits.length)

/-! ### Using a key -/

theorem find_rsa (s : Store c) (pub : Nat × Nat) :
    s.rsakeys.find (cmpkeysRsa (.ofPub pub)) = none ∧ (∀ key ∈ s.rsakeys.list, key.modulus ≠ pub.2) ∨
      ∃ key, s.rsakeys.find (cmpkeysRsa (.ofPub pub)) = some key ∧ key ∈ s.rsakeys.list ∧ key.modulus = pub.2 ∧
        ∀ key' ∈ s.rsakeys.list, key'.modulus = pub.2 → key' = key := by
  cases hf : s.rsakeys.find (cmpkeysRsa (.ofPub pub)) with
  | none =>
    refine .inl ⟨rfl, fun key hk hm => ?_⟩
    exact Ordered.find_eq_none.mp hf key hk (cmpkeysRsa_eq_zero.mpr hm.symm)
  | some key =>
    obtain ⟨hk, h0⟩ := Ordered.find_eq_some hf
    have hm : key.modulus = pub.2 := (cmpkeysRsa_eq_zero.mp h0).symm
    exact .inr ⟨key, rfl, hk, hm, fun key' hk' hm' => s.rsakeys.unique hk' hk (cmpkeysRsa_eq_zero.mpr (hm'.trans hm.symm))⟩

theorem find_ssh2 (s : Store c) (blob : List UInt8) :
    s.ssh2keys.find (cmpkeysSsh2Asymm c blob) = none ∧ (∀ key ∈ s.ssh2keys.list, c.publicBlob key.key ≠ blob) ∨
      ∃ key, s.ssh2keys.find (cmpkeysSsh2Asymm c blob) = some key ∧ key ∈ s.ssh2keys.list ∧ c.publicBlob key.key = blob ∧
        ∀ key' ∈ s.ssh2keys.list, c.publicBlob key'.key = blob → key' = key := by
  cases hf : s.ssh2keys.find (cmpkeysSsh2Asymm c blob) with
  | none =>
    refine .inl ⟨rfl, fun key hk hm => ?_⟩
    exact Ordered.find_eq_none.mp hf key hk (cmpBlobs_eq_zero.mpr hm.symm)
  | some key =>
    obtain ⟨hk, h0⟩ := Ordered.find_eq_some hf
    have hm : c.publicBlob key.key = blob := (cmpBlobs_eq_zero.mp h0).symm
    exact .inr ⟨key, rfl, hk, hm, fun key' hk' hm' => s.ssh2keys.unique hk' hk (cmp_of_blob _ _ (hm'.trans hm.symm))⟩

theorem rsaChallenge_spec {s : Store c} (hs : Small s) (msg : BinarySource) :
    let P := (getChallenge msg).err = false → (getChallenge msg).responseType = 1 →
      ∀ key ∈ s.rsakeys.list, key.modulus = (getChallenge msg).reqkey.2 → key.Usable
    P ∧ Done s .other (rsaChallenge s msg) ∨ ¬ P ∧ Wrong s .other (rsaChallenge s msg) := by
  intro P
  unfold rsaChallenge
  dsimp only
  by_cases he : (getChallenge msg).err = true
  · rw [if_pos he]
    exact .inl ⟨fun h => absurd (he.symm.trans h) (by decide), done_other hs⟩
  rw [if_neg he]
  by_cases ht : (getChallenge msg).responseType = 1
  · rw [if_neg (not_not.mpr ht)]
    rcases find_rsa s (getChallenge msg).reqkey with ⟨hf, hno⟩ | ⟨key, hf, hk, hm, huniq⟩
    · rw [hf]
      exact .inl ⟨fun _ _ key hk hm => absurd hm (hno key hk), done_other hs⟩
    · rw [hf]
      dsimp only
      by_cases hu : key.Usable
      · refine .inl ⟨fun _ _ key' hk' hm' => huniq key' hk' hm' ▸ hu, ?_⟩
        cases hd : rsaSsh1Decrypt (getChallenge msg).challenge key with
        | none => exact absurd hu (rsaSsh1Decrypt_eq_none.mp hd)
        | some response =>
          refine ⟨s, _, rfl, hs, rfl, fits_other (List.cons_ne_nil _ _) ?_ fun h => absurd (List.cons.inj h).1 (by decide)⟩
          rw [List.length_cons, (c.md5 _).property]
          decide
      · refine .inr ⟨fun h => hu (h (Bool.eq_false_iff.mpr he) ht key hk hm), fun s' reply h => ?_⟩
        rw [rsaSsh1Decrypt_eq_none.mpr hu] at h
        cases h
  · rw [if_pos ht]
    exact .inl ⟨fun _ h => absurd h ht, done_other hs⟩

theorem signRequest_spec {s : Store c} (hs : Small s) (msg : BinarySource) :
    let P := (getSigning msg).err = false → ∀ key ∈ s.ssh2keys.list,
      c.publicBlob key.key = (getSigning msg).keyblob → (getSigning msg).flags &&& ~~~(c.supportedFlags key.key) = 0 →
        c.invalid key.key (getSigning msg).flags = false → c.sign key.key (getSigning msg).sigdata (getSigning msg).flags ≠ none
    P ∧ Done s .other (signRequest s msg) ∨ ¬ P ∧ Wrong s .other (signRequest s msg) := by
  intro P
  unfold signRequest
  dsimp only
  by_cases he : (getSigning msg).err = true
  · rw [if_pos he]
    exact .inl ⟨fun h => absurd (he.symm.trans h) (by decide), done_other hs⟩
  rw [if_neg he]
  rcases find_ssh2 s (getSigning msg).keyblob with ⟨hf, hno⟩ | ⟨key, hf, hk, hm, huniq⟩
  · rw [hf]
    exact .inl ⟨fun _ key hk hm => absurd hm (hno key hk), done_other hs⟩
  rw [hf]
  dsimp only
  by_cases hflags : (getSigning msg).flags &&& ~~~(c.supportedFlags key.key) = 0
  · rw [if_neg (not_not.mpr hflags)]
    by_cases hinv : c.invalid key.key (getSigning msg).flags = true
    · rw [if_pos hinv]
      refine .inl ⟨fun _ key' hk' hm' _ hval => ?_, done_other hs⟩
      rw [huniq key' hk' hm', hinv] at hval
      cases hval
    · rw [if_neg hinv]
      cases hsig : c.sign key.key (getSigning msg).sigdata (getSigning msg).flags with
      | none =>
        refine .inr ⟨fun h => h (Bool.eq_false_iff.mpr he) key hk hm hflags (Bool.eq_false_iff.mpr hinv) hsig, fun s' reply h => ?_⟩
        cases h
      | some signature =>
        refine .inl ⟨fun _ key' hk' hm' _ _ => ?_, s, _, rfl, hs, rfl, fits_other (List.cons_ne_nil _ _) ?_ fun h =>
          absurd (List.cons.inj h).1 (by decide)⟩
        · rw [huniq key' hk' hm', hsig]
          exact Option.some_ne_none _
        · have := signature.property
          rw [List.length_cons, putString_length]
          omega
  · rw [if_pos hflags]
    refine .inl ⟨fun _ key' hk' hm' hfl => ?_, done_other hs⟩
    rw [huniq key' hk' hm'] at hfl
    exact absurd hfl hflags

/-! ### Changing the trees -/

theorem getRsaSsh1PubModulusFirst_small (src : BinarySource) :
    mpGetNbits (getRsaSsh1PubModulusFirst src).1.1 < 0x10000 ∧ mpGetNbits (getRsaSsh1PubModulusFirst src).1.2 < 0x10000 := by
  unfold getRsaSsh1PubModulusFirst
  exact ⟨BinarySource.getMpSsh1_small _, BinarySource.getMpSsh1_small _⟩

theorem getRsaIdentity_pub (msg : BinarySource) : (getRsaIdentity msg).1.pub = (getRsaSsh1PubModulusFirst msg).1 := by
  unfold getRsaIdentity RSAKey.pub
  dsimp only

/-- A key that was read from a message, and verified, is small. -/
theorem getRsaIdentity_small {msg : BinarySource} {key : RSAKey} {ok : Bool} (h : rsaVerify c (getRsaIdentity msg).1 = some (ok, key)) :
    mpGetNbits key.exponent < 0x10000 ∧ mpGetNbits key.modulus < 0x10000 := by
  have hpub : key.pub = (getRsaSsh1PubModulusFirst msg).1 := (rsaVerify_pub c h).1.trans (getRsaIdentity_pub msg)
  have he : key.exponent = (getRsaSsh1PubModulusFirst msg).1.1 := congrArg Prod.fst hpub
  have hm : key.modulus = (getRsaSsh1PubModulusFirst msg).1.2 := congrArg Prod.snd hpub
  rw [he, hm]
  exact getRsaSsh1PubModulusFirst_small msg

theorem Small.add {s : Store c} (hs : Small s) {key : RSAKey} {t : Ordered cmpkeysRsa} (ht : s.rsakeys.add key = some t)
    (hkey : mpGetNbits key.exponent < 0x10000 ∧ mpGetNbits key.modulus < 0x10000) : Small { s with rsakeys := t } := by
  intro x hx
  rcases (Ordered.mem_add ht x).mp hx with rfl | hx
  · exact hkey
  · exact hs x hx

/-- Keys with one modulus are one key, or have other exponents. -/
theorem view_rsa_of_mem {s : Store c} {key : RSAKey} (pub : Nat × Nat) (hk : key ∈ s.rsakeys.list) (hm : key.modulus = pub.2) :
    (SameExponent s pub ∧ (view s).rsa pub = some key) ∨ (¬ SameExponent s pub ∧ (view s).rsa pub = none) := by
  by_cases he : key.exponent = pub.1
  · refine .inl ⟨fun key' hk' hm' => ?_, view_rsa.mpr ⟨hk, Prod.ext he hm⟩⟩
    rw [s.rsakeys.unique hk' hk (cmpkeysRsa_eq_zero.mpr (hm'.trans hm.symm))]
    exact he
  · refine .inr ⟨fun h => he (h key hk hm), ?_⟩
    cases hv : (view s).rsa pub with
    | none => rfl
    | some key' =>
      obtain ⟨hk', hp⟩ := view_rsa.mp hv
      rw [s.rsakeys.unique hk' hk (cmpkeysRsa_eq_zero.mpr ((congrArg Prod.snd hp).trans hm.symm))] at hp
      exact absurd (congrArg Prod.fst hp) he

theorem view_rsa_none {s : Store c} (pub : Nat × Nat) (h : ∀ key ∈ s.rsakeys.list, key.modulus ≠ pub.2) :
    SameExponent s pub ∧ (view s).rsa pub = none := by
  refine ⟨fun key hk hm => absurd hm (h key hk), ?_⟩
  cases hv : (view s).rsa pub with
  | none => rfl
  | some key' =>
    obtain ⟨hk', hp⟩ := view_rsa.mp hv
    exact absurd (congrArg Prod.snd hp) (h key' hk')

theorem addRsa_spec {s : Store c} (hs : Small s) {key : RSAKey}
    (hkey : mpGetNbits key.exponent < 0x10000 ∧ mpGetNbits key.modulus < 0x10000) :
    let o : Option (Store c × List UInt8) := some (match s.rsakeys.add key with
      | some rsakeys => ({ s with rsakeys }, [sshAgentSuccess])
      | none => (s, pageantFailureMsg))
    SameExponent s key.pub ∧ Done s (.addRsa key) o ∨ ¬ SameExponent s key.pub ∧ Wrong s (.addRsa key) o := by
  intro o
  cases ht : s.rsakeys.add key with
  | some t =>
    have ho : o = some ({ s with rsakeys := t }, [sshAgentSuccess]) := congrArg some (by rw [ht])
    have hno : ∀ x ∈ s.rsakeys.list, x.modulus ≠ key.modulus := by
      intro x hx hm
      rw [Ordered.add_eq_none.mpr ⟨x, hx, cmpkeysRsa_eq_zero.mpr hm.symm⟩] at ht
      cases ht
    obtain ⟨hsame, hnone⟩ := view_rsa_none key.pub hno
    have hnext : (view s).next c (.addRsa key) =
        ({ view s with rsa := Function.update (view s).rsa key.pub (some key) }, true) := by
      rw [Keys.next, hnone]
      rfl
    refine .inl ⟨hsame, _, _, ho, hs.add ht hkey, ?_, fits_success (by rw [hnext])⟩
    rw [hnext]
    exact congrArg (Keys.mk · (view s).ssh2) (Ordered.lookup_add cmp_of_pub ht)
  | none =>
    have ho : o = some (s, pageantFailureMsg) := congrArg some (by rw [ht])
    obtain ⟨x, hx, h0⟩ := Ordered.add_eq_none.mp ht
    rw [ho]
    rcases view_rsa_of_mem key.pub hx (cmpkeysRsa_eq_zero.mp h0).symm with ⟨hsame, hv⟩ | ⟨hsame, hv⟩
    · refine .inl ⟨hsame, done_failure hs ?_ (fun h => by cases h) fun h => by cases h⟩
      rw [Keys.next, hv]
      rfl
    · refine .inr ⟨hsame, fun s' reply h hfits => ?_⟩
      cases h
      have hsucc := hfits.success.mpr (by rw [Keys.next, hv]; rfl)
      exact absurd hsucc (by decide)

theorem addRsaIdentity_spec {s : Store c} (hs : Small s) (msg : BinarySource) :
    let r : Request K := if (getRsaIdentity msg).2 then .other
      else match rsaVerify c (getRsaIdentity msg).1 with
        | some (true, key) => .addRsa key
        | _ => .other
    let P := (getRsaIdentity msg).2 = false → ∀ key, rsaVerify c (getRsaIdentity msg).1 = some (true, key) →
      SameExponent s key.pub
    P ∧ Done s r (addRsaIdentity s msg) ∨ ¬ P ∧ Wrong s r (addRsaIdentity s msg) := by
  intro r P
  unfold addRsaIdentity
  dsimp only
  by_cases he : (getRsaIdentity msg).2 = true
  · have hr : r = .other := if_pos he
    rw [if_pos he, hr]
    exact .inl ⟨fun h => absurd (he.symm.trans h) (by decide), done_other hs⟩
  rw [if_neg he]
  obtain ⟨⟨ok, key⟩, hv⟩ := rsaVerify_returns c (getRsaIdentity msg).1
  rw [hv, Option.map_some]
  dsimp only
  cases ok with
  | false =>
    have hr : r = .other := by
      show (if _ then _ else _) = _
      rw [if_neg he, hv]
    rw [if_pos (by decide), hr]
    refine .inl ⟨fun _ key' hv' => ?_, done_other hs⟩
    rw [hv] at hv'
    cases hv'
  | true =>
    have hr : r = .addRsa key := by
      show (if _ then _ else _) = _
      rw [if_neg he, hv]
    have hP : P ↔ SameExponent s key.pub := by
      refine ⟨fun h => h (Bool.eq_false_iff.mpr he) key hv, fun h _ key' hv' => ?_⟩
      rw [hv] at hv'
      cases hv'
      exact h
    rw [if_neg (by decide), hr, hP]
    exact addRsa_spec hs (getRsaIdentity_small hv)

theorem addIdentity_spec {s : Store c} (hs : Small s) (msg : BinarySource) :
    let r : Request K := match getIdentity c msg with
      | some (some key) => .add key
      | _ => .other
    getIdentity c msg ≠ none ∧ Done s r (addIdentity s msg) ∨ ¬ getIdentity c msg ≠ none ∧ Wrong s r (addIdentity s msg) := by
  intro r
  unfold addIdentity
  rcases hg : getIdentity c msg with _ | _ | key
  · exact .inr ⟨fun h => h rfl, fun s' reply h => by cases h⟩
  · have hr : r = .other := by simp only [r, hg]
    rw [hr]
    exact .inl ⟨Option.some_ne_none _, done_other hs⟩
  · have hr : r = .add key := by simp only [r, hg]
    rw [hr, Option.map_some]
    refine .inl ⟨Option.some_ne_none _, ?_⟩
    dsimp only
    cases ht : s.ssh2keys.add key with
    | some t =>
      have hnone : (view s).ssh2 (c.publicBlob key.key) = none := by
        cases hv : (view s).ssh2 (c.publicBlob key.key) with
        | none => rfl
        | some x =>
          obtain ⟨hx, hb⟩ := view_ssh2.mp hv
          rw [Ordered.add_eq_none.mpr ⟨x, hx, cmp_of_blob _ _ hb.symm⟩] at ht
          cases ht
      have hnext : (view s).next c (.add key) =
          ({ view s with ssh2 := Function.update (view s).ssh2 (c.publicBlob key.key) (some key) }, true) := by
        rw [Keys.next, hnone]
        rfl
      refine ⟨_, _, rfl, hs, ?_, fits_success (by rw [hnext])⟩
      rw [hnext]
      exact congrArg (Keys.mk (view s).rsa) (Ordered.lookup_add cmp_of_blob ht)
    | none =>
      obtain ⟨x, hx, h0⟩ := Ordered.add_eq_none.mp ht
      refine done_failure hs ?_ (fun h => by cases h) fun h => by cases h
      rw [Keys.next, view_ssh2.mpr ⟨hx, ((cmpkeysSsh2_eq_zero c).mp h0).symm⟩]
      rfl

theorem removeRsaIdentity_spec {s : Store c} (hs : Small s) (msg : BinarySource) :
    let g := getRsaSsh1PubExponentFirst msg
    let r : Request K := if g.2.err then .other else .removeRsa g.1
    let P := g.2.err = false → SameExponent s g.1
    P ∧ Done s r (removeRsaIdentity s msg) ∨ ¬ P ∧ Wrong s r (removeRsaIdentity s msg) := by
  intro g r P
  unfold removeRsaIdentity
  dsimp only
  by_cases he : g.2.err = true
  · have hr : r = .other := if_pos he
    rw [if_pos he, hr]
    exact .inl ⟨fun h => absurd (he.symm.trans h) (by decide), done_other hs⟩
  have hr : r = .removeRsa g.1 := if_neg he
  have hP : P ↔ SameExponent s g.1 := ⟨fun h => h (Bool.eq_false_iff.mpr he), fun h _ => h⟩
  rw [if_neg he, hr, hP]
  rcases find_rsa s g.1 with ⟨hf, hno⟩ | ⟨key, hf, hk, hm, -⟩
  · rw [hf]
    obtain ⟨hsame, hnone⟩ := view_rsa_none g.1 hno
    refine .inl ⟨hsame, done_failure hs ?_ (fun h => by cases h) fun h => by cases h⟩
    rw [Keys.next, hnone]
    rfl
  · rw [hf]
    dsimp only
    rcases view_rsa_of_mem g.1 hk hm with ⟨hsame, hv⟩ | ⟨hsame, hv⟩
    · have hnext : (view s).next c (.removeRsa g.1) = ({ view s with rsa := Function.update (view s).rsa g.1 none }, true) := by
        rw [Keys.next, hv]
        rfl
      refine .inl ⟨hsame, _, _, rfl, fun x hx => hs x (Ordered.mem_del.mp hx).1, ?_, fits_success (by rw [hnext])⟩
      rw [hnext, ← (view_rsa.mp hv).2]
      exact congrArg (Keys.mk · (view s).ssh2) (Ordered.lookup_del cmp_of_pub hk)
    · refine .inr ⟨hsame, fun s' reply h hfits => ?_⟩
      cases h
      have hsucc := hfits.success.mp rfl
      rw [Keys.next, hv] at hsucc
      cases hsucc

theorem removeIdentity_spec {s : Store c} (hs : Small s) (msg : BinarySource) :
    Done s (if msg.getString.2.err then .other else .remove msg.getString.1) (removeIdentity s msg) := by
  unfold removeIdentity
  dsimp only
  by_cases he : msg.getString.2.err = true
  · rw [if_pos he, if_pos he]
    exact done_other hs
  rw [if_neg he, if_neg he]
  rcases find_ssh2 s msg.getString.1 with ⟨hf, hno⟩ | ⟨key, hf, hk, hm, -⟩
  · rw [hf]
    refine done_failure hs ?_ (fun h => by cases h) fun h => by cases h
    have hnone : (view s).ssh2 msg.getString.1 = none := by
      cases hv : (view s).ssh2 msg.getString.1 with
      | none => rfl
      | some x => exact absurd (view_ssh2.mp hv).2 (hno x (view_ssh2.mp hv).1)
    rw [Keys.next, hnone]
    rfl
  · rw [hf]
    have hnext : (view s).next c (.remove msg.getString.1) =
        ({ view s with ssh2 := Function.update (view s).ssh2 msg.getString.1 none }, true) := by
      rw [Keys.next, view_ssh2.mpr ⟨hk, hm⟩]
      rfl
    refine ⟨_, _, rfl, hs, ?_, fits_success (by rw [hnext])⟩
    rw [hnext, ← hm]
    exact congrArg (Keys.mk (view s).rsa) (Ordered.lookup_del cmp_of_blob hk)

/-- Every turn of the loop takes the first key out. -/
theorem delAll_nil {E : Type} (cmp : E → E → Int) (hself : ∀ x, cmp x x = 0) :
    ∀ {fuel : Nat} {t : Ordered cmp}, t.list.length ≤ fuel → (delAll fuel t).list = []
  | 0, t, h => List.length_eq_zero_iff.mp (Nat.le_zero.mp h)
  | fuel + 1, t, h => by
    unfold delAll
    cases hh : t.list.head? with
    | none => exact List.head?_eq_none_iff.mp hh
    | some x =>
      refine delAll_nil cmp hself ?_
      obtain ⟨l, hl⟩ := List.head?_eq_some_iff.mp hh
      have hlt : (t.del x).list.length ≤ l.length := by
        show (t.list.filter fun y => cmp x y ≠ 0).length ≤ _
        rw [hl, List.filter_cons_of_neg (by rw [hself]; decide)]
        exact List.length_filter_le _ _
      rw [hl, List.length_cons] at h
      omega

theorem removeAllRsaIdentities_spec {s : Store c} : Done s .removeAllRsa (removeAllRsaIdentities s) := by
  have hnil := delAll_nil cmpkeysRsa (fun x => cmp_of_pub x x rfl) (Nat.le_refl s.rsakeys.list.length)
  refine ⟨_, _, rfl, fun x hx => ?_, ?_, fits_success rfl⟩
  · have hx' : x ∈ (delAll s.rsakeys.list.length s.rsakeys).list := hx
    rw [hnil] at hx'
    cases hx'
  · refine congrArg (Keys.mk · (view s).ssh2) (funext fun pub => ?_)
    show (delAll s.rsakeys.list.length s.rsakeys).list.find? _ = none
    rw [hnil]
    rfl

theorem removeAllIdentities_spec {s : Store c} (hs : Small s) : Done s .removeAll (removeAllIdentities s) := by
  have hnil := delAll_nil (cmpkeysSsh2 c) (fun x => cmp_of_blob x x rfl) (Nat.le_refl s.ssh2keys.list.length)
  refine ⟨_, _, rfl, hs, ?_, fits_success rfl⟩
  refine congrArg (Keys.mk (view s).rsa) (funext fun blob => ?_)
  show (delAll s.ssh2keys.list.length s.ssh2keys).list.find? _ = none
  rw [hnil]
  rfl

/-- A message is handled as the map says, or not, by the condition. -/
theorem handle_spec {s : Store c} (hs : Small s) (msgdata : List UInt8) :
    Good s msgdata ∧ Done s (request c msgdata) (pageantHandleMsg s msgdata) ∨
      ¬ Good s msgdata ∧ Wrong s (request c msgdata) (pageantHandleMsg s msgdata) := by
  unfold Good request pageantHandleMsg
  dsimp only
  by_cases he : (BinarySource.ofData msgdata).getByte.2.err = true
  · rw [if_pos he, if_pos he]
    exact .inl ⟨fun h => absurd (he.symm.trans h) (by decide), done_other hs⟩
  rw [if_neg he, if_neg he, Bool.not_eq_true] at *
  simp only [he, forall_const]
  generalize (BinarySource.ofData msgdata).getByte.2 = msg
  cases agentMsg (BinarySource.ofData msgdata).getByte.1 with
  | requestRsaIdentities => exact requestRsaIdentities_spec hs
  | requestIdentities => exact requestIdentities_spec hs
  | rsaChallenge => exact rsaChallenge_spec hs msg
  | signRequest => exact signRequest_spec hs msg
  | addRsaIdentity => exact addRsaIdentity_spec hs msg
  | addIdentity => exact addIdentity_spec hs msg
  | removeRsaIdentity => exact removeRsaIdentity_spec hs msg
  | removeIdentity => exact .inl ⟨trivial, removeIdentity_spec hs msg⟩
  | removeAllRsaIdentities => exact .inl ⟨trivial, removeAllRsaIdentities_spec⟩
  | removeAllIdentities => exact .inl ⟨trivial, removeAllIdentities_spec hs⟩
  | unrecognised => exact .inl ⟨trivial, done_other hs⟩

end Putty.Pageant
