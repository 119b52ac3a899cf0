/-
  Putty.Sftp.Queue — the invariant of a download, its requests and its blocks.

  The requests still queued are the last ones sent, in the order they were sent, and each
  says in its fields how the server answered it. The ids in the client's tree are those
  outstanding at the server. `furthestdata` bounds from above where data was, `filesize`
  from below where a reply ended early.

  Proved: sending requests (`queue_inv`) and releasing blocks (`data_inv`) keep it.
-/

import Mathlib.Data.List.Perm.Subperm
import Putty.Sftp.Download

namespace Putty.Sftp

open Putty.Lib Putty.Utils

/-! ## The blocks of the file -/

/-- The offset that the request sent `k`-th asks for. -/
def offsetOf (start : UInt64) (k : Nat) : UInt64 := start + UInt64.ofNat (32768 * k)

theorem offsetOf_succ (start : UInt64) (k : Nat) : offsetOf start k + UInt64.ofNat 32768 = offsetOf start (k + 1) := by
  simp only [offsetOf, UInt64.add_assoc, ← UInt64.ofNat_add]
  congr 2

/-- What is released for a request, by its reply. -/
def blockOf (start : UInt64) (k : Nat) : Option Reply → Option (UInt64 × List UInt8)
  | some (.data bytes) => some (offsetOf start k, bytes)
  | some .eof => some (offsetOf start k, [])
  | some .error => none
  | none => none

/-- The length of a reply that ends before its request does. -/
def shortLen : Reply → Option Nat
  | .data bytes => if bytes.length < 32768 then some bytes.length else none
  | .eof => some 0
  | .error => none

/-- The end of the file, by a status or by data without bytes. -/
def Ends : Reply → Prop
  | .data bytes => bytes = []
  | .eof => True
  | .error => False

/-- The fields of a queued request, by its reply. -/
def Status (r : Req) : Option Reply → Prop
  | none => r.complete = 0
  | some (.data bytes) => r.complete = 1 ∧ r.retlen = bytes.length ∧ r.buffer.take bytes.length = bytes
  | some .eof => r.complete = 1 ∧ r.retlen = 0
  | some .error => r.complete = -1

structure Entry (start : UInt64) (v : Server) (r : Req) : Prop where
  offset : r.offset = offsetOf start r.tag
  len : r.len = 32768
  status : Status r (v.answer r.tag)

/-! ## The invariant -/

/-- The other end: a request is outstanding until its reply. -/
structure Wire (v : Server) : Prop where
  nodup : (v.outstanding.map (·.2)).Nodup
  outstanding : ∀ k, k ∈ v.outstanding.map (·.2) ↔ k < v.sent.length ∧ v.answer k = none
  answered : ∀ k, v.answer k ≠ none → k < v.sent.length

/-- The ids in use here are those outstanding there. -/
structure Table (t : Requests) (v : Server) (spare : Nat) : Prop where
  ids : ∀ r ∈ t.list, 256 ≤ r.id.toNat
  registered : ∀ r ∈ t.list, r.userdata ≠ none → r.registered = true
  outstanding : ∀ id k, (id, k) ∈ v.outstanding ↔ ∃ r ∈ t.list, r.id = id ∧ r.userdata = some k
  room : t.list.length ≤ spare + v.outstanding.length

/-- The requests still queued are the last ones sent; what was released are the blocks before. -/
structure Queued (start : UInt64) (s : St) : Prop where
  le : s.xfer.queue.length ≤ s.server.sent.length
  tags : s.xfer.queue.map (·.tag) = List.range' (s.server.sent.length - s.xfer.queue.length) s.xfer.queue.length
  entry : ∀ r ∈ s.xfer.queue, Entry start s.server r
  before : ∀ k < s.server.sent.length - s.xfer.queue.length, s.server.answer k ≠ none
  returned : s.returned = (List.range (s.server.sent.length - s.xfer.queue.length)).filterMap fun k =>
    blockOf start k (s.server.answer k)

/-- What `furthestdata`, `filesize` and `eof` say of the replies so far. -/
structure Bounds (start : UInt64) (v : Server) (x : FxpXfer) : Prop where
  furthest : ∀ k bytes, v.answer k = some (.data bytes) → bytes ≠ [] → offsetOf start k ≤ x.furthestdata
  filesize : ∀ k r n, v.answer k = some r → shortLen r = some n → x.filesize ≤ offsetOf start k + UInt64.ofNat n
  eof : x.eof = true ↔ ∃ k r, v.answer k = some r ∧ Ends r
  fits : ∀ k bytes, v.answer k = some (.data bytes) → bytes.length ≤ 32768

structure Inv (start : UInt64) (fh : List UInt8) (spare : Nat) (s : St) : Prop where
  wire : Wire s.server
  table : Table s.fxp.sftpRequests s.server spare
  sent : ∀ k p, s.server.sent[k]? = some p → p.handle = fh ∧ p.offset = offsetOf start k ∧ p.len = 32768
  fh : s.xfer.fh = fh
  nextReq : s.nextReq = s.server.sent.length
  queued : Queued start s
  offset : s.xfer.offset = offsetOf start s.server.sent.length
  total : s.xfer.reqTotalsize = 32768 * s.xfer.queue.length
  max : s.xfer.reqMaxsize = 1048576
  few : s.xfer.queue.length ≤ 32
  bounds : Bounds start s.server s.xfer
  unreported : -1 ∉ s.results → (∀ k, s.server.answer k ≠ some .error) ∧ s.xfer.furthestdata ≤ s.xfer.filesize

/-- A request is sent under a new id, and is found by it until its reply. -/
theorem send_spec {f : Fxp} (hn : f.sftpRequests.list.length < 2 ^ 31) (h256 : ∀ r ∈ f.sftpRequests.list, 256 ≤ r.id.toNat)
    (fh : List UInt8) (offset : UInt64) (len tag : Nat) :
    ∃ id f', fxpReadSend f fh offset len = some (⟨id, fh, offset, len⟩, f') ∧ 256 ≤ id.toNat ∧
      (∀ r ∈ f.sftpRequests.list, r.id ≠ id) ∧
      (fxpSetUserdata (sftpRegister f' id) id tag).sftpRequests.list.length = f.sftpRequests.list.length + 1 ∧
      ∀ x, x ∈ (fxpSetUserdata (sftpRegister f' id) id tag).sftpRequests.list ↔
        x = ⟨id, true, some tag⟩ ∨ x ∈ f.sftpRequests.list := by
  obtain ⟨id, halloc, hid, hnew⟩ := sftpAllocRequest_spec hn h256
  obtain ⟨hlen, hmem⟩ := Requests.mem_add (r := ⟨id, false, none⟩) hnew
  have hids := Requests.find_eq_none.mp hnew
  refine ⟨id, _, by rw [fxpReadSend, halloc]; rfl, hid, hids, ?_⟩
  generalize f.sftpRequests.add ⟨id, false, none⟩ = t at hlen hmem
  have hreg : sftpRegister { f with sftpRequests := t } id =
      { f with sftpRequests := t.update id true none } := by
    have hfind := Requests.find_of_mem ((hmem ⟨id, false, none⟩).mpr (.inl rfl))
    rw [sftpRegister]
    dsimp only at hfind ⊢
    rw [hfind]
  have hupd : ∀ x, x ∈ (t.update id true none).list ↔ x = ⟨id, true, none⟩ ∨ x ∈ f.sftpRequests.list := by
    intro x
    simp only [Requests.update, List.mem_map]
    constructor
    · intro h
      obtain ⟨y, hy, rfl⟩ := h
      rcases (hmem y).mp hy with rfl | hy
      · exact .inl (by simp)
      · exact .inr (by rw [if_neg (hids y hy)]; exact hy)
    · intro h
      rcases h with rfl | h
      · exact ⟨⟨id, false, none⟩, (hmem _).mpr (.inl rfl), by simp⟩
      · exact ⟨x, (hmem x).mpr (.inr h), if_neg (hids x h)⟩
  have hset : fxpSetUserdata { f with sftpRequests := t.update id true none } id tag =
      { f with sftpRequests := (t.update id true none).update id true (some tag) } := by
    have hfind := Requests.find_of_mem ((hupd ⟨id, true, none⟩).mpr (.inl rfl))
    rw [fxpSetUserdata]
    dsimp only at hfind ⊢
    rw [hfind]
  rw [hreg, hset]
  refine ⟨?_, fun x => ?_⟩
  · simp only [Requests.update, List.length_map]
    exact hlen
  · have hmap : x ∈ ((t.update id true none).update id true (some tag)).list ↔
        ∃ y ∈ (t.update id true none).list, (if y.id = id then ⟨y.id, true, some tag⟩ else y) = x := by
      rw [Requests.update, List.mem_map]
    dsimp only
    rw [hmap]
    constructor
    · intro h
      obtain ⟨y, hy, rfl⟩ := h
      rcases (hupd y).mp hy with rfl | hy
      · exact .inl (by simp)
      · exact .inr (by rw [if_neg (hids y hy)]; exact hy)
    · intro h
      rcases h with rfl | h
      · exact ⟨⟨id, true, none⟩, (hupd _).mpr (.inl rfl), by simp⟩
      · exact ⟨x, (hupd x).mpr (.inr h), if_neg (hids x h)⟩

/-! ## Sending requests -/

theorem answer_request (v : Server) (p : ReadPacket) (k : Nat) : (v.request p).answer k = v.answer k := rfl

@[simp] theorem sent_request (v : Server) (p : ReadPacket) : (v.request p).sent.length = v.sent.length + 1 := by
  simp [Server.request]

theorem Wire.unanswered {v : Server} (hw : Wire v) : v.answer v.sent.length = none := by
  by_contra h
  exact Nat.lt_irrefl _ (hw.answered _ h)

theorem Wire.request_inv {v : Server} (hw : Wire v) (p : ReadPacket) : Wire (v.request p) := by
  refine ⟨?_, fun k => ?_, fun k hk => ?_⟩
  · simp only [Server.request, List.map_append, List.map_cons, List.map_nil]
    rw [List.nodup_append]
    refine ⟨hw.nodup, List.nodup_singleton _, ?_⟩
    intro k hk m hm
    rw [List.mem_singleton.mp hm]
    have := ((hw.outstanding k).mp hk).1
    omega
  · rw [sent_request, answer_request]
    simp only [Server.request, List.map_append, List.map_cons, List.map_nil, List.mem_append, List.mem_singleton,
      hw.outstanding k]
    constructor
    · intro h
      rcases h with ⟨h1, h2⟩ | rfl
      · exact ⟨by omega, h2⟩
      · exact ⟨by omega, hw.unanswered⟩
    · intro ⟨h1, h2⟩
      rcases Nat.lt_succ_iff_lt_or_eq.mp h1 with h | h
      · exact .inl ⟨h, h2⟩
      · exact .inr h
  · rw [sent_request]
    have := hw.answered k hk
    omega

theorem Table.request_inv {t t' : Requests} {v : Server} {spare : Nat} (ht : Table t v spare) {p : ReadPacket}
    (hid : 256 ≤ p.id.toNat) (hlen : t'.list.length = t.list.length + 1)
    (hmem : ∀ r, r ∈ t'.list ↔ r = ⟨p.id, true, some v.sent.length⟩ ∨ r ∈ t.list) : Table t' (v.request p) spare := by
  refine ⟨fun r hr => ?_, fun r hr hu => ?_, fun i k => ?_, ?_⟩
  · rcases (hmem r).mp hr with rfl | hr
    · exact hid
    · exact ht.ids r hr
  · rcases (hmem r).mp hr with rfl | hr
    · rfl
    · exact ht.registered r hr hu
  · simp only [Server.request, List.mem_append, List.mem_singleton, ht.outstanding i k, Prod.mk.injEq, hmem]
    constructor
    · intro h
      rcases h with ⟨r, hr, h1, h2⟩ | ⟨rfl, rfl⟩
      · exact ⟨r, .inr hr, h1, h2⟩
      · exact ⟨_, .inl rfl, rfl, rfl⟩
    · intro ⟨r, hr, h1, h2⟩
      rcases hr with rfl | hr
      · cases h2
        exact .inr ⟨h1.symm, rfl⟩
      · exact .inl ⟨r, hr, h1, h2⟩
  · have := ht.room
    simp only [Server.request, List.length_append, List.length_singleton, hlen]
    omega

/-- The new request goes to the end of the queue. -/
theorem Queued.request_inv {start : UInt64} {s s' : St} (hq : Queued start s) (hw : Wire s.server) {p : ReadPacket} {rr : Req}
    (hserver : s'.server = s.server.request p) (hqueue : s'.xfer.queue = s.xfer.queue ++ [rr]) (hret : s'.returned = s.returned)
    (htag : rr.tag = s.server.sent.length) (hoff : rr.offset = offsetOf start rr.tag) (hlen : rr.len = 32768)
    (hcomplete : rr.complete = 0) : Queued start s' := by
  have hle := hq.le
  have hn : s'.server.sent.length - s'.xfer.queue.length = s.server.sent.length - s.xfer.queue.length := by
    rw [hserver, hqueue, sent_request, List.length_append, List.length_singleton]
    omega
  have hq' : s'.xfer.queue.length = s.xfer.queue.length + 1 := by rw [hqueue, List.length_append, List.length_singleton]
  refine ⟨?_, ?_, ?_, ?_, ?_⟩
  · rw [hserver, sent_request, hq']
    omega
  · rw [hn, hq', hqueue, List.map_append, hq.tags, List.range'_concat, List.map_singleton, htag]
    congr 2
    omega
  · intro r hr
    rw [hqueue] at hr
    rw [hserver]
    rcases List.mem_append.mp hr with hr | hr
    · have he := hq.entry r hr
      exact ⟨he.offset, he.len, he.status⟩
    · rw [List.mem_singleton.mp hr]
      refine ⟨hoff, hlen, ?_⟩
      rw [answer_request, htag, hw.unanswered]
      exact hcomplete
  · intro k hk
    rw [hn] at hk
    rw [hserver]
    exact hq.before k hk
  · rw [hn, hret, hserver]
    exact hq.returned

/-- Fewer requests are outstanding than are queued. -/
theorem Inv.outstanding_le {start : UInt64} {fh : List UInt8} {spare : Nat} {s : St} (hi : Inv start fh spare s) :
    s.server.outstanding.length ≤ s.xfer.queue.length := by
  have hle := hi.queued.le
  have hsub : s.server.outstanding.map (·.2) ⊆ s.xfer.queue.map (·.tag) := by
    intro k hk
    obtain ⟨hlt, hnone⟩ := (hi.wire.outstanding k).mp hk
    rw [hi.queued.tags, List.mem_range'_1]
    refine ⟨?_, by omega⟩
    by_contra hlow
    exact hi.queued.before k (by omega) hnone
  have := (List.subperm_of_subset hi.wire.nodup hsub).length_le
  simpa using this

/-- What a call that sends requests leaves as it was. -/
structure SameReplies (s s' : St) : Prop where
  results : s'.results = s.results
  err : s'.xfer.err = s.xfer.err
  answers : s'.server.answers = s.server.answers

/-- What a transfer with one more request keeps. -/
theorem advance_bounds (x : FxpXfer) (queue : List Req) (offset : UInt64) (total : Nat) :
    { x with queue := queue, offset := offset, reqTotalsize := total }.furthestdata = x.furthestdata ∧
      { x with queue := queue, offset := offset, reqTotalsize := total }.filesize = x.filesize := ⟨rfl, rfl⟩

theorem queueRequest_inv {start : UInt64} {fh : List UInt8} {spare : Nat} {s : St} (hi : Inv start fh spare s)
    (hspare : spare + 32 < 2 ^ 31) (hfew : s.xfer.queue.length < 32) :
    ∃ s', queueRequest s = some s' ∧ Inv start fh spare s' ∧ s'.xfer.queue.length = s.xfer.queue.length + 1 ∧
      SameReplies s s' := by
  have hout := hi.outstanding_le
  have hroom := hi.table.room
  obtain ⟨id, f', hsend, hid, -, hlen, hmem⟩ := send_spec (by omega) hi.table.ids s.xfer.fh s.xfer.offset 32768 s.nextReq
  rw [hi.nextReq] at hlen hmem
  obtain ⟨offset, hoff, hq⟩ : ∃ offset, offset = s.xfer.offset + UInt64.ofNat 32768 ∧ queueRequest s = some { s with
      fxp := fxpSetUserdata (sftpRegister f' id) id s.nextReq
      nextReq := s.nextReq + 1
      server := s.server.request ⟨id, s.xfer.fh, s.xfer.offset, 32768⟩
      xfer := { s.xfer with
        queue := s.xfer.queue ++ [⟨s.nextReq, [], 32768, 0, 0, s.xfer.offset⟩]
        offset := offset
        reqTotalsize := s.xfer.reqTotalsize + 32768 } } := by
    unfold queueRequest
    exact ⟨_, rfl, Option.bind_eq_some_iff.mpr ⟨_, hsend, rfl⟩⟩
  refine ⟨_, hq, ?_, List.length_append, rfl, rfl, rfl⟩
  refine { hi with
    wire := hi.wire.request_inv _
    table := ?_
    sent := ?_
    nextReq := ?_
    queued := hi.queued.request_inv hi.wire rfl rfl rfl hi.nextReq ?_ rfl rfl
    offset := ?_
    total := ?_
    few := ?_
    bounds := ⟨hi.bounds.furthest, hi.bounds.filesize, hi.bounds.eof, hi.bounds.fits⟩ }
  · dsimp only
    rw [hi.nextReq]
    exact hi.table.request_inv hid hlen hmem
  · intro k p hp
    simp only [Server.request] at hp
    rw [List.getElem?_append] at hp
    split at hp
    · exact hi.sent k p hp
    · next hk =>
      rw [List.getElem?_singleton] at hp
      split at hp
      · cases hp
        obtain rfl : k = s.server.sent.length := by omega
        exact ⟨hi.fh, hi.offset, rfl⟩
      · cases hp
  · dsimp only
    rw [sent_request, hi.nextReq]
  · dsimp only
    rw [hi.offset, hi.nextReq]
  · dsimp only
    rw [hoff, sent_request, hi.offset, offsetOf_succ]
  · dsimp only
    rw [hi.total, List.length_append, List.length_singleton]
    omega
  · dsimp only
    rw [List.length_append, List.length_singleton]
    omega

theorem queueLoop_inv {start : UInt64} {fh : List UInt8} {spare : Nat} (hspare : spare + 32 < 2 ^ 31) :
    ∀ {fuel : Nat} {s : St}, Inv start fh spare s → s.xfer.reqMaxsize - s.xfer.reqTotalsize ≤ fuel →
      ∃ s', queueLoop fuel s = some s' ∧ Inv start fh spare s' ∧ SameReplies s s' := by
  intro fuel
  induction fuel with
  | zero =>
    intro s hi hfuel
    have hno : wantsMore s.xfer = false := by
      simp only [wantsMore, Bool.and_eq_false_imp, Bool.and_eq_true, decide_eq_true_eq]
      omega
    exact ⟨s, by simp [queueLoop, hno], hi, rfl, rfl, rfl⟩
  | succ fuel ih =>
    intro s hi hfuel
    rw [queueLoop]
    by_cases hmore : wantsMore s.xfer = true
    · have hroom : s.xfer.reqTotalsize < s.xfer.reqMaxsize := by
        simp only [wantsMore, Bool.and_eq_true, decide_eq_true_eq] at hmore
        exact hmore.1.1
      have htotal := hi.total
      have hmax := hi.max
      obtain ⟨s1, h1, hi1, hlen, hsame1⟩ := queueRequest_inv hi hspare (by omega)
      have htotal1 := hi1.total
      have hmax1 := hi1.max
      obtain ⟨s2, h2, hi2, hsame⟩ := ih hi1 (by omega)
      rw [if_pos hmore, h1]
      exact ⟨s2, h2, hi2, hsame.results.trans hsame1.results, hsame.err.trans hsame1.err, hsame.answers.trans hsame1.answers⟩
    · rw [if_neg hmore]
      exact ⟨s, rfl, hi, rfl, rfl, rfl⟩

theorem queue_inv {start : UInt64} {fh : List UInt8} {spare : Nat} {s : St} (hi : Inv start fh spare s)
    (hspare : spare + 32 < 2 ^ 31) :
    ∃ s', xferDownloadQueue s = some s' ∧ Inv start fh spare s' ∧ SameReplies s s' :=
  queueLoop_inv hspare hi (Nat.le_refl _)

/-! ## Releasing blocks -/

theorem releaseHead_spec {start : UInt64} {v : Server} : ∀ {queue : List Req} (total : Nat),
    (∀ r ∈ queue, Entry start v r) → 32768 * queue.length ≤ total →
    ∃ gone, queue = gone ++ (releaseHead total queue).2.1 ∧
      (releaseHead total queue).2.2 = total - 32768 * gone.length ∧ (∀ r ∈ gone, v.answer r.tag ≠ none) ∧
      (releaseHead total queue).1.toList.map (fun rr => (rr.offset, rr.buffer.take rr.retlen.toNat)) =
        gone.filterMap fun r => blockOf start r.tag (v.answer r.tag) := by
  intro queue
  induction queue with
  | nil => exact fun _ _ _ => ⟨[], rfl, rfl, by simp, rfl⟩
  | cons r rest ih =>
    intro total hentry htotal
    obtain ⟨hoff, hlen, hstatus⟩ := hentry r List.mem_cons_self
    rw [List.length_cons] at htotal
    unfold releaseHead
    cases ha : v.answer r.tag with
    | none =>
      rw [ha] at hstatus
      have hc : r.complete = 0 := hstatus
      rw [if_pos hc]
      exact ⟨[], rfl, rfl, by simp, rfl⟩
    | some reply =>
      rw [ha] at hstatus
      cases reply with
      | error =>
        have hc : r.complete = -1 := hstatus
        obtain ⟨gone, h1, h2, h3, h4⟩ := ih (total - r.len)
          (fun x hx => hentry x (List.mem_cons_of_mem _ hx)) (by rw [hlen]; omega)
        rw [if_neg (by rw [hc]; decide), if_neg (by rw [hc]; decide)]
        refine ⟨r :: gone, by rw [List.cons_append, ← h1], ?_, ?_, ?_⟩
        · rw [h2, List.length_cons, hlen]
          omega
        · intro x hx
          rcases List.mem_cons.mp hx with rfl | hx
          · rw [ha]
            exact Option.some_ne_none _
          · exact h3 x hx
        · rw [h4, List.filterMap_cons, ha]
          rfl
      | data bytes =>
        obtain ⟨hc, hret, hbuf⟩ := hstatus
        rw [if_neg (by rw [hc]; decide), if_pos (by rw [hc]; decide)]
        refine ⟨[r], rfl, by rw [hlen]; rfl, ?_, ?_⟩
        · simp [ha]
        · simp [ha, blockOf, hoff, hret, hbuf]
      | eof =>
        obtain ⟨hc, hret⟩ := hstatus
        rw [if_neg (by rw [hc]; decide), if_pos (by rw [hc]; decide)]
        refine ⟨[r], rfl, by rw [hlen]; rfl, ?_, ?_⟩
        · simp [ha]
        · simp [ha, blockOf, hoff, hret]

theorem range_split (n d : Nat) : List.range (n + d) = List.range n ++ List.range' n d := by
  rw [List.range_eq_range', List.range_eq_range', ← List.range'_append_1, Nat.zero_add]

theorem data_inv {start : UInt64} {fh : List UInt8} {spare : Nat} {s s' : St} (hi : Inv start fh spare s)
    (hs : step s .data = some s') : Inv start fh spare s' := by
  cases hs
  obtain ⟨gone, hq, htotal, hgone, hblocks⟩ := releaseHead_spec s.xfer.reqTotalsize hi.queued.entry
    (Nat.le_of_eq hi.total.symm)
  have hle := hi.queued.le
  have htags := hi.queued.tags
  generalize hr : releaseHead s.xfer.reqTotalsize s.xfer.queue = res at hq htotal hblocks
  obtain ⟨rr, rest, total⟩ := res
  dsimp only at hq htotal hblocks
  have hx : xferDownloadData s.xfer = (rr, { s.xfer with queue := rest, reqTotalsize := total }) := by
    rw [xferDownloadData, hr]
  have hlen : s.xfer.queue.length = gone.length + rest.length := by rw [hq, List.length_append]
  have hn : s.server.sent.length - rest.length = s.server.sent.length - s.xfer.queue.length + gone.length := by omega
  rw [hq, List.map_append, ← hq, hlen, ← List.range'_append_1] at htags
  obtain ⟨htg, htr⟩ := List.append_inj htags (by simp)
  have hgoneBlocks : gone.filterMap (fun r => blockOf start r.tag (s.server.answer r.tag)) =
      (List.range' (s.server.sent.length - s.xfer.queue.length) gone.length).filterMap fun k =>
        blockOf start k (s.server.answer k) := by
    rw [hlen, ← htg, List.filterMap_map]
    rfl
  rw [hx]
  refine { hi with
    queued := ⟨by dsimp only; omega, ?_, ?_, ?_, ?_⟩
    total := ?_
    few := by have := hi.few; dsimp only; omega
    bounds := ⟨hi.bounds.furthest, hi.bounds.filesize, hi.bounds.eof, hi.bounds.fits⟩
    unreported := hi.unreported }
  · dsimp only
    rw [hn, hlen]
    exact htr
  · intro r hr
    exact hi.queued.entry r (by rw [hq]; exact List.mem_append_right _ hr)
  · intro k hk
    dsimp only at hk ⊢
    rw [hn] at hk
    rcases Nat.lt_or_ge k (s.server.sent.length - s.xfer.queue.length) with h | h
    · exact hi.queued.before k h
    · have hmem : k ∈ gone.map (·.tag) := by
        rw [htg, List.mem_range'_1]
        omega
      obtain ⟨r, hr, rfl⟩ := List.mem_map.mp hmem
      exact hgone r hr
  · dsimp only
    rw [hn, range_split, List.filterMap_append, ← hgoneBlocks, ← hblocks, hi.queued.returned]
  · dsimp only
    rw [htotal, hi.total, hlen]
    omega

end Putty.Sftp
