/-
  Putty.Sftp.Reassembly — the blocks of a download put together again.

  Over every run: requests are sent, packets arrive in any order and of any kind, blocks
  are taken and the caller gives up. While no offset passes 2^64, blocks come back in
  increasing order; until an error is reported there is no gap between them; a download
  that ends without an error has the file up to its first end; data behind a short reply
  is reported (`download_reassembles`). After the report blocks still come, with gaps, and
  past 2^64 the order is lost (`blocks_with_gaps_are_released`).
-/

import Putty.Sftp.Replies

namespace Putty.Sftp

open Putty.Lib Putty.Utils

/-! ## Runs -/

/-- What the SFTP client may still be waiting for when a download begins: nothing of a download. -/
structure Idle (f : Fxp) : Prop where
  ids : ∀ r ∈ f.sftpRequests.list, 256 ≤ r.id.toNat
  userdata : ∀ r ∈ f.sftpRequests.list, r.userdata = none
  /-- count234 gives an int. -/
  room : f.sftpRequests.list.length + 32 < 2 ^ 31

theorem beforeInit_inv {f : Fxp} (hf : Idle f) (fh : List UInt8) (start : UInt64) :
    Inv start fh f.sftpRequests.list.length (beforeInit f fh start) := by
  have hno : ∀ k, (beforeInit f fh start).server.answer k = none := fun _ => rfl
  refine { wire := ⟨List.nodup_nil, by simp [beforeInit], ?_⟩, table := ⟨hf.ids, ?_, ?_, Nat.le_refl _⟩,
           sent := ?_, fh := rfl, nextReq := rfl, queued := ⟨Nat.le_refl _, rfl, ?_, ?_, rfl⟩, offset := ?_, total := rfl,
           max := rfl, few := Nat.zero_le _, bounds := ⟨?_, ?_, ?_, ?_⟩, unreported := ?_ }
  · intro k hk
    exact absurd (hno k) hk
  · intro r hr hu
    exact absurd (hf.userdata r hr) hu
  · intro id k
    constructor
    · intro h
      exact absurd h List.not_mem_nil
    · intro h
      obtain ⟨r, hr, -, hk⟩ := h
      rw [hf.userdata r hr] at hk
      cases hk
  · intro k p hp
    cases hp
  · intro r hr
    exact absurd hr List.not_mem_nil
  · intro k hk
    exact absurd hk (Nat.not_lt_zero k)
  · simp [beforeInit, xferInit, offsetOf]
  · intro k bytes hk
    cases hk
  · intro k r n hk
    cases hk
  · constructor
    · intro h
      cases h
    · intro h
      obtain ⟨k, r, hk, -⟩ := h
      cases hk
  · intro k bytes hk
    cases hk
  · intro _
    refine ⟨?_, UInt64.le_iff_toNat_le.mpr (Nat.zero_le _)⟩
    intro k hk
    cases hk

/-- The state after the calls `evs`. -/
structure RunInv (start : UInt64) (fh : List UInt8) (spare : Nat) (evs : List Ev) (s : St) : Prop where
  inv : Inv start fh spare s
  err : s.xfer.err = true ↔ .setError ∈ evs ∨ -1 ∈ s.results

theorem step_inv {start : UInt64} {fh : List UInt8} {spare : Nat} (hspare : spare + 32 < 2 ^ 31) {evs : List Ev} {s : St}
    (h : RunInv start fh spare evs s) (e : Ev) :
    ∃ s', step s e = some s' ∧ RunInv start fh spare (evs ++ [e]) s' := by
  have hi := h.inv
  cases e with
  | queue =>
    obtain ⟨s', hs, hi', hsame⟩ := queue_inv hi hspare
    refine ⟨s', hs, hi', ?_⟩
    rw [hsame.err, hsame.results, h.err]
    simp
  | gotpkt pktin =>
    obtain ⟨s', ret, hs, hi', hres, herr⟩ := gotpkt_inv hi pktin
    refine ⟨s', hs, hi', ?_⟩
    rw [herr, hres, h.err]
    simp only [List.mem_append, List.mem_singleton, reduceCtorEq, or_false, eq_comm (a := ret)]
    tauto
  | data =>
    refine ⟨_, rfl, data_inv hi rfl, ?_⟩
    dsimp only [xferDownloadData]
    rw [h.err]
    simp
  | setError =>
    refine ⟨_, rfl, ?_, by simp [xferSetError]⟩
    have hq := hi.queued
    have hb := hi.bounds
    exact { hi with
      queued := ⟨hq.le, hq.tags, hq.entry, hq.before, hq.returned⟩
      bounds := ⟨hb.furthest, hb.filesize, hb.eof, hb.fits⟩ }

theorem run_inv {start : UInt64} {fh : List UInt8} {spare : Nat} (hspare : spare + 32 < 2 ^ 31) {s : St}
    (h : RunInv start fh spare [] s) (evs : List Ev) : ∃ s', run step s evs = some s' ∧ RunInv start fh spare evs s' := by
  induction evs using List.reverseRecOn with
  | nil => exact ⟨s, rfl, h⟩
  | append_singleton evs e ih =>
    obtain ⟨s1, h1, hi1⟩ := ih
    obtain ⟨s2, h2, hi2⟩ := step_inv hspare hi1 e
    exact ⟨s2, by rw [run_snoc, h1]; exact h2, hi2⟩

theorem download_inv {f : Fxp} (hf : Idle f) (fh : List UInt8) (start : UInt64) (evs : List Ev) :
    ∃ s, download f fh start evs = some s ∧ RunInv start fh f.sftpRequests.list.length evs s := by
  obtain ⟨s0, h0, hi0, hsame⟩ := queue_inv (beforeInit_inv hf fh start) hf.room
  obtain ⟨s, hs, hi⟩ := run_inv hf.room ⟨hi0, by rw [hsame.err, hsame.results]; simp [beforeInit, xferInit]⟩ evs
  exact ⟨s, by rw [download, h0]; exact hs, hi⟩

/-! ## The reassembled file -/

/-- The data in a reply. -/
def bytesOf : Option Reply → List UInt8
  | some (.data bytes) => bytes
  | some .eof => []
  | some .error => []
  | none => []

/-- Each block with data begins where the bytes before it end. -/
def NoGaps (pos : Nat) : List (UInt64 × List UInt8) → Prop
  | [] => True
  | (offset, bytes) :: rest => (bytes ≠ [] → offset.toNat = pos) ∧ NoGaps (pos + bytes.length) rest

instance decidableNoGaps : ∀ pos blocks, Decidable (NoGaps pos blocks)
  | _, [] => isTrue trivial
  | pos, (offset, bytes) :: rest =>
    have := decidableNoGaps (pos + bytes.length) rest
    inferInstanceAs (Decidable ((bytes ≠ [] → offset.toNat = pos) ∧ NoGaps (pos + bytes.length) rest))

/-- In increasing order of their offsets, and none reaches into a later one. -/
def InOrder (blocks : List (UInt64 × List UInt8)) : Prop :=
  blocks.Pairwise fun a b => a.1.toNat < b.1.toNat ∧ a.1.toNat + a.2.length ≤ b.1.toNat

instance (blocks : List (UInt64 × List UInt8)) : Decidable (InOrder blocks) :=
  inferInstanceAs (Decidable (blocks.Pairwise fun a b => a.1.toNat < b.1.toNat ∧ a.1.toNat + a.2.length ≤ b.1.toNat))

/-- What the server returned up to the request `k`, the first one that met the end of the file. -/
structure FirstEnd (v : Server) (k : Nat) : Prop where
  ends : ∃ r, v.answer k = some r ∧ Ends r
  data : ∀ j < k, ∃ bytes, v.answer j = some (.data bytes) ∧ bytes ≠ []
  full : ∀ j, j + 1 < k → (bytesOf (v.answer j)).length = 32768

structure Reassembled (start : UInt64) (evs : List Ev) (s : St) : Prop where
  inOrder : InOrder s.returned
  asked : ∀ k p, s.server.sent[k]? = some p → p.offset.toNat = start.toNat + 32768 * k ∧ p.len = 32768
  served : ∀ b ∈ s.returned, ∃ k r, s.server.answer k = some r ∧ r ≠ .error ∧
    b.1.toNat = start.toNat + 32768 * k ∧ b.2 = bytesOf (some r)
  noGaps : -1 ∉ s.results → NoGaps start.toNat s.returned
  complete : xferDone s.xfer = true → -1 ∉ s.results → .setError ∉ evs →
    ∃ k, FirstEnd s.server k ∧
      (s.returned.map (·.2)).flatten = (List.range k).flatMap fun j => bytesOf (s.server.answer j)
  /-- A short reply with data behind it is reported. -/
  short : ∀ j k r n bytes, j < k → s.server.answer j = some r → shortLen r = some n →
    s.server.answer k = some (.data bytes) → bytes ≠ [] → -1 ∈ s.results
  reported : s.xfer.err = true ↔ .setError ∈ evs ∨ -1 ∈ s.results

theorem offsetOf_toNat {start : UInt64} {k n : Nat} (h : start.toNat + 32768 * n ≤ 2 ^ 64) (hk : k < n) :
    (offsetOf start k).toNat = start.toNat + 32768 * k := by
  rw [offsetOf, UInt64.toNat_add, UInt64.toNat_ofNat']
  omega

theorem noGaps_append (pos : Nat) (blocks : List (UInt64 × List UInt8)) (offset : UInt64) (bytes : List UInt8) :
    NoGaps pos (blocks ++ [(offset, bytes)]) ↔
      NoGaps pos blocks ∧ (bytes ≠ [] → offset.toNat = pos + (blocks.map (·.2)).flatten.length) := by
  induction blocks generalizing pos with
  | nil => simp [NoGaps]
  | cons b blocks ih =>
    obtain ⟨o, bs⟩ := b
    simp only [List.cons_append, NoGaps, ih, List.map_cons, List.flatten_cons, List.length_append, Nat.add_assoc]
    tauto

section Final

variable {start : UInt64} {fh : List UInt8} {spare : Nat} {s : St}

/-- Data behind a reply that was short shows in the bookkeeping. -/
theorem Inv.short_reported (hi : Inv start fh spare s) (hroom : start.toNat + 32768 * s.server.sent.length ≤ 2 ^ 64)
    {j k n : Nat} {r : Reply} {bytes : List UInt8} (hjk : j < k) (hj : s.server.answer j = some r) (hn : shortLen r = some n)
    (hk : s.server.answer k = some (.data bytes)) (hne : bytes ≠ []) : -1 ∈ s.results := by
  by_contra hno
  have hlt : n < 32768 := by
    cases r with
    | data b =>
      rw [shortLen] at hn
      split at hn
      · cases hn
        assumption
      · cases hn
    | eof =>
      cases hn
      decide
    | error => cases hn
  have hksent := hi.wire.answered k (by rw [hk]; exact Option.some_ne_none _)
  have h1 := UInt64.le_iff_toNat_le.mp (hi.bounds.furthest k bytes hk hne)
  have h2 := UInt64.le_iff_toNat_le.mp (hi.bounds.filesize j r n hj hn)
  have h3 := UInt64.le_iff_toNat_le.mp (hi.unreported hno).2
  rw [UInt64.toNat_add, UInt64.toNat_ofNat', offsetOf_toNat hroom (hjk.trans hksent)] at h2
  rw [offsetOf_toNat hroom hksent] at h1
  omega

/-- Until an error is reported, the requests before one with data were answered in full. -/
theorem Inv.full_before (hi : Inv start fh spare s) (hroom : start.toNat + 32768 * s.server.sent.length ≤ 2 ^ 64)
    (hno : -1 ∉ s.results) {j k : Nat} {bytes : List UInt8} (hjk : j < k) (hj : s.server.answer j ≠ none)
    (hk : s.server.answer k = some (.data bytes)) (hne : bytes ≠ []) : (bytesOf (s.server.answer j)).length = 32768 := by
  obtain ⟨r, hr⟩ := Option.ne_none_iff_exists'.mp hj
  rw [hr]
  cases r with
  | data b =>
    have hle := hi.bounds.fits j b hr
    by_contra hlen
    have hlt : b.length < 32768 := Nat.lt_of_le_of_ne hle hlen
    exact hno (hi.short_reported hroom hjk hr (by rw [shortLen, if_pos hlt]) hk hne)
  | eof => exact absurd (hi.short_reported hroom hjk hr rfl hk hne) hno
  | error => exact absurd hr ((hi.unreported hno).1 j)

theorem Inv.returned_eq (hi : Inv start fh spare s) (hno : -1 ∉ s.results) :
    s.returned = (List.range (s.server.sent.length - s.xfer.queue.length)).map fun k =>
      (offsetOf start k, bytesOf (s.server.answer k)) := by
  rw [hi.queued.returned, ← List.filterMap_eq_map]
  apply List.filterMap_congr
  intro k hk
  have hans := hi.queued.before k (List.mem_range.mp hk)
  obtain ⟨r, hr⟩ := Option.ne_none_iff_exists'.mp hans
  cases r with
  | data b => simp [hr, blockOf, bytesOf]
  | eof => simp [hr, blockOf, bytesOf]
  | error => exact absurd hr ((hi.unreported hno).1 k)

theorem Inv.noGaps (hi : Inv start fh spare s) (hroom : start.toNat + 32768 * s.server.sent.length ≤ 2 ^ 64)
    (hno : -1 ∉ s.results) : NoGaps start.toNat s.returned := by
  rw [hi.returned_eq hno]
  have hpre : ∀ n ≤ s.server.sent.length - s.xfer.queue.length,
      NoGaps start.toNat ((List.range n).map fun k => (offsetOf start k, bytesOf (s.server.answer k))) := by
    intro n
    induction n with
    | zero => exact fun _ => trivial
    | succ n ih =>
      intro hn
      rw [List.range_succ, List.map_append, List.map_singleton, noGaps_append]
      refine ⟨ih (by omega), fun hne => ?_⟩
      have hlens : ∀ m ≤ n, (((List.range m).map fun k => (offsetOf start k, bytesOf (s.server.answer k))).map
          (·.2)).flatten.length = 32768 * m := by
        obtain ⟨r, hr⟩ := Option.ne_none_iff_exists'.mp (hi.queued.before n (by omega))
        cases r with
        | error => simp [hr, bytesOf] at hne
        | eof => simp [hr, bytesOf] at hne
        | data b =>
          have hb : b ≠ [] := by simpa [hr, bytesOf] using hne
          intro m
          induction m with
          | zero => exact fun _ => rfl
          | succ m ihm =>
            intro hm
            have hfull := hi.full_before hroom hno (j := m) (by omega) (hi.queued.before m (by omega)) hr hb
            rw [List.range_succ, List.map_append, List.map_append, List.flatten_append, List.length_append, ihm (by omega),
              List.map_singleton, List.map_singleton, List.flatten_singleton, hfull]
            omega
      rw [hlens n (Nat.le_refl n), offsetOf_toNat hroom (by omega)]
  exact hpre _ (Nat.le_refl _)

theorem Inv.inOrder (hi : Inv start fh spare s) (hroom : start.toNat + 32768 * s.server.sent.length ≤ 2 ^ 64) :
    InOrder s.returned := by
  have hblock : ∀ {k : Nat} {o : UInt64} {b : List UInt8}, k < s.server.sent.length →
      blockOf start k (s.server.answer k) = some (o, b) → o.toNat = start.toNat + 32768 * k ∧ b.length ≤ 32768 := by
    intro k o b hk hb
    cases hr : s.server.answer k with
    | none =>
      rw [hr] at hb
      cases hb
    | some r =>
      rw [hr] at hb
      cases r with
      | data bytes =>
        cases hb
        exact ⟨offsetOf_toNat hroom hk, hi.bounds.fits k _ hr⟩
      | eof =>
        cases hb
        exact ⟨offsetOf_toNat hroom hk, Nat.zero_le _⟩
      | error => cases hb
  rw [InOrder, hi.queued.returned, List.pairwise_filterMap]
  refine (List.pairwise_lt_range (n := _)).imp_of_mem ?_
  intro j k hj hk hjk a ha b hb
  rw [List.mem_range] at hj hk
  obtain ⟨h1, h2⟩ := hblock (by omega) ha
  obtain ⟨h3, -⟩ := hblock (by omega) hb
  rw [h1, h3]
  omega

theorem Inv.complete (hi : Inv start fh spare s) (hroom : start.toNat + 32768 * s.server.sent.length ≤ 2 ^ 64)
    (hno : -1 ∉ s.results) (hdone : s.xfer.queue = []) (heof : s.xfer.eof = true) :
    ∃ k, FirstEnd s.server k ∧
      (s.returned.map (·.2)).flatten = (List.range k).flatMap fun j => bytesOf (s.server.answer j) := by
  have hends : ∃ k, ∃ r, s.server.answer k = some r ∧ Ends r := hi.bounds.eof.mp heof
  classical
  obtain ⟨r, hr, hrend⟩ := Nat.find_spec hends
  have hmin : ∀ j < Nat.find hends, ∀ r, s.server.answer j = some r → ¬ Ends r := fun j hj r hjr hre =>
    Nat.find_min hends hj ⟨r, hjr, hre⟩
  generalize Nat.find hends = k at hr hmin
  have hksent := hi.wire.answered k (by rw [hr]; exact Option.some_ne_none _)
  have hbefore := hi.queued.before
  have hret := hi.returned_eq hno
  rw [hdone, List.length_nil, Nat.sub_zero] at hbefore hret
  have hdata : ∀ j < k, ∃ bytes, s.server.answer j = some (.data bytes) ∧ bytes ≠ [] := by
    intro j hj
    obtain ⟨q, hq⟩ := Option.ne_none_iff_exists'.mp (hbefore j (by omega))
    cases q with
    | data b => exact ⟨b, hq, hmin j hj _ hq⟩
    | eof => exact absurd trivial (hmin j hj _ hq)
    | error => exact absurd hq ((hi.unreported hno).1 j)
  have hafter : ∀ j, k ≤ j → j < s.server.sent.length → bytesOf (s.server.answer j) = [] := by
    intro j hkj hj
    obtain ⟨q, hq⟩ := Option.ne_none_iff_exists'.mp (hbefore j hj)
    rw [hq]
    cases q with
    | eof => rfl
    | error => rfl
    | data b =>
      by_contra hne
      have hshort : shortLen r = some 0 := by
        cases r with
        | data c =>
          rw [show c = [] from hrend]
          rfl
        | eof => rfl
        | error => exact absurd hrend id
      rcases Nat.eq_or_lt_of_le hkj with rfl | hlt
      · rw [hr] at hq
        cases hq
        exact hne hrend
      · exact hno (hi.short_reported hroom hlt hr hshort hq hne)
  refine ⟨k, ⟨⟨r, hr, hrend⟩, hdata, ?_⟩, ?_⟩
  · intro j hj
    obtain ⟨b, hb, hne⟩ := hdata (j + 1) hj
    exact hi.full_before hroom hno (Nat.lt_succ_self j) (hbefore j (by omega)) hb hne
  · have hrest : ((List.range' k (s.server.sent.length - k)).flatMap fun j => bytesOf (s.server.answer j)) = [] := by
      rw [List.flatMap_eq_nil_iff]
      intro j hj
      rw [List.mem_range'_1] at hj
      exact hafter j hj.1 (by omega)
    have hsplit : List.range s.server.sent.length = List.range k ++ List.range' k (s.server.sent.length - k) := by
      rw [← range_split]
      congr 1
      omega
    have hmap : s.returned.map (·.2) = (List.range s.server.sent.length).map fun j => bytesOf (s.server.answer j) := by
      rw [hret, List.map_map]
      rfl
    rw [hmap, ← List.flatMap_def, hsplit, List.flatMap_append, hrest, List.append_nil]

end Final

/-- Blocks come back in the order of their offsets, each with the bytes the server
    returned for it. Until an error is reported there is no gap between them, a download
    that ends without an error has the data up to the first end of the file, and data
    behind a short reply is an error. -/
theorem download_reassembles {f : Fxp} (hf : Idle f) (fh : List UInt8) (start : UInt64) (evs : List Ev) :
    ∃ s, download f fh start evs = some s ∧
      (start.toNat + 32768 * s.server.sent.length ≤ 2 ^ 64 → Reassembled start evs s) := by
  obtain ⟨s, hs, hi, herr⟩ := download_inv hf fh start evs
  refine ⟨s, hs, fun hroom => ⟨hi.inOrder hroom, ?_, ?_, hi.noGaps hroom, ?_, ?_, herr⟩⟩
  · intro k p hp
    obtain ⟨-, hoff, hlen⟩ := hi.sent k p hp
    obtain ⟨hk, -⟩ := List.getElem?_eq_some_iff.mp hp
    exact ⟨by rw [hoff, offsetOf_toNat hroom hk], hlen⟩
  · intro b hb
    rw [hi.queued.returned, List.mem_filterMap] at hb
    obtain ⟨k, hk, hb⟩ := hb
    rw [List.mem_range] at hk
    obtain ⟨r, hr⟩ := Option.ne_none_iff_exists'.mp (hi.queued.before k hk)
    rw [hr] at hb
    have hoff := offsetOf_toNat hroom (k := k) (by omega)
    cases r with
    | data bytes =>
      cases hb
      exact ⟨k, _, hr, by simp, hoff, rfl⟩
    | eof =>
      cases hb
      exact ⟨k, _, hr, by simp, hoff, rfl⟩
    | error => cases hb
  · intro hdone hno hset
    rw [xferDone, Bool.and_eq_true, Bool.or_eq_true, List.isEmpty_iff] at hdone
    obtain ⟨heof | he, hq⟩ := hdone
    · exact hi.complete hroom hno hq heof
    · rcases herr.mp he with h | h
      · exact absurd h hset
      · exact absurd h hno
  · intro j k r n bytes hjk hj hn hk hne
    exact hi.short_reported hroom hjk hj hn hk hne

/-- A client with no request outstanding. -/
def noRequests : Fxp := ⟨Requests.empty, "", 0⟩

/-- SSH_FXP_DATA in reply to the request with id 256 + `id`; the bytes of its length are given. -/
def dataReply (id : UInt8) (length bytes : List UInt8) : Option SftpPacket :=
  some ⟨sshFxpData, .ofData ([0, 0, 1, id] ++ length ++ bytes)⟩

theorem noRequests_idle : Idle noRequests := ⟨by simp [noRequests, Requests.empty], by simp [noRequests, Requests.empty], by decide⟩

theorem download_reassembles_nothing_yet : ∃ s, download noRequests [] 0 [.data] = some s ∧ Reassembled 0 [.data] s := by
  obtain ⟨s, hs, h⟩ := download_reassembles noRequests_idle [] 0 [.data]
  have hsent : (download noRequests [] 0 [.data]).map (fun s => s.server.sent.length) = some 32 := by decide +kernel
  rw [hs, Option.map_some, Option.some.injEq] at hsent
  exact ⟨s, hs, h (by rw [hsent]; decide)⟩

/-- The second block is handed out behind a first one that was cut short, after the error;
    near the end of the 64-bit offsets the second block is the start of the file, without an error. -/
theorem blocks_with_gaps_are_released :
    ((download noRequests [] 0 [.gotpkt (dataReply 0 [0, 0, 0, 1] [7]), .gotpkt (dataReply 1 [0, 0, 0, 1] [8]), .data,
        .data]).map fun s => (s.results, s.returned, decide (NoGaps 0 s.returned))) =
        some ([1, -1], [(0, [7]), (32768, [8])], false) ∧
      ((download noRequests [] (18446744073709551615 - 32767) [.gotpkt (dataReply 0 [0, 0, 0, 1] [7]),
        .gotpkt (dataReply 1 [0, 0, 128, 0] (List.replicate 32768 0)), .data, .data]).map fun s =>
        (s.results, s.returned.map (·.1), decide (InOrder s.returned))) =
        some ([1, 1], [18446744073709518848, 0], false) := by
  constructor <;> decide +kernel

end Putty.Sftp
