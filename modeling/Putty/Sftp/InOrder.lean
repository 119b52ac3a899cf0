/-
  Putty.Sftp.InOrder — a download whose caller takes one block after each reply.

  What sending requests leaves alone (`Asked`), which replies the bounds are from
  (`Sources`), and what the head of the queue gives.
-/

import Putty.Sftp.Reassembly

namespace Putty.Sftp

open Putty.Lib Putty.Utils

/-! ## Sending requests -/

/-- The blocks that were released: the requests sent that are not queued any more. -/
def released (s : St) : Nat := s.server.sent.length - s.xfer.queue.length

structure Asked (s s' : St) : Prop where
  more : ∃ m, s'.server.sent.length = s.server.sent.length + m ∧ s'.xfer.queue.length = s.xfer.queue.length + m
  answers : s'.server.answers = s.server.answers
  furthestdata : s'.xfer.furthestdata = s.xfer.furthestdata
  filesize : s'.xfer.filesize = s.xfer.filesize
  results : s'.results = s.results

theorem Asked.refl (s : St) : Asked s s := ⟨⟨0, rfl, rfl⟩, rfl, rfl, rfl, rfl⟩

theorem Asked.trans {s1 s2 s3 : St} (h : Asked s1 s2) (h' : Asked s2 s3) : Asked s1 s3 := by
  obtain ⟨m, hs, hq⟩ := h.more
  obtain ⟨m', hs', hq'⟩ := h'.more
  exact ⟨⟨m + m', by omega, by omega⟩, h'.answers.trans h.answers, h'.furthestdata.trans h.furthestdata,
    h'.filesize.trans h.filesize, h'.results.trans h.results⟩

theorem queueRequest_asked {s s' : St} (h : queueRequest s = some s') : Asked s s' := by
  unfold queueRequest at h
  obtain ⟨r, -, hr⟩ := Option.bind_eq_some_iff.mp h
  obtain rfl := Option.some.inj hr
  exact ⟨⟨1, List.length_append, List.length_append⟩, rfl, (advance_bounds ..).1, (advance_bounds ..).2, rfl⟩

theorem queueLoop_asked {fuel : Nat} {s s' : St} (h : queueLoop fuel s = some s') : Asked s s' ∧ wantsMore s'.xfer = false := by
  induction fuel generalizing s with
  | zero =>
    rw [queueLoop] at h
    split at h
    · cases h
    · next hno => cases h; exact ⟨.refl _, Bool.eq_false_iff.mpr hno⟩
  | succ fuel ih =>
    rw [queueLoop] at h
    split at h
    · obtain ⟨s1, h1, h2⟩ := Option.bind_eq_some_iff.mp h
      obtain ⟨hasked, hno⟩ := ih h2
      exact ⟨(queueRequest_asked h1).trans hasked, hno⟩
    · next hno => cases h; exact ⟨.refl _, Bool.eq_false_iff.mpr hno⟩

theorem xferDownloadQueue_asked {s s' : St} (h : xferDownloadQueue s = some s') : Asked s s' := (queueLoop_asked h).1

theorem Asked.released {start : UInt64} {s s' : St} (h : Asked s s') (hq : Queued start s) : released s' = released s := by
  obtain ⟨m, hs, hm⟩ := h.more
  have := hq.le
  unfold Sftp.released
  omega

theorem Asked.answer {s s' : St} (h : Asked s s') (k : Nat) : s'.server.answer k = s.server.answer k := by
  rw [Server.answer, Server.answer, h.answers]

/-! ## Where the bounds are from -/

/-- Data was returned beyond a block that ended early. -/
def Gap (start : UInt64) (v : Server) : Prop :=
  ∃ j k r n bytes, v.answer j = some r ∧ shortLen r = some n ∧ v.answer k = some (.data bytes) ∧ bytes ≠ [] ∧
    offsetOf start j + UInt64.ofNat n < offsetOf start k

structure Sources (start : UInt64) (v : Server) (x : FxpXfer) : Prop where
  furthest : x.furthestdata = 0 ∨ ∃ k bytes, v.answer k = some (.data bytes) ∧ bytes ≠ [] ∧ x.furthestdata = offsetOf start k
  filesize : x.filesize = 18446744073709551615 ∨
    ∃ j r n, v.answer j = some r ∧ shortLen r = some n ∧ x.filesize = offsetOf start j + UInt64.ofNat n

theorem Sources.gap {start : UInt64} {v : Server} {x : FxpXfer} (h : Sources start v x) (hlt : x.filesize < x.furthestdata) :
    Gap start v := by
  have hlt' := UInt64.lt_iff_toNat_lt.mp hlt
  rcases h.furthest with hf | ⟨k, bytes, hk, hne, hf⟩
  · rw [hf] at hlt'
    exact absurd hlt' (Nat.not_lt_zero _)
  · rcases h.filesize with hs | ⟨j, r, n, hj, hn, hs⟩
    · rw [hs] at hlt'
      have := x.furthestdata.toNat_lt
      have hmax : (18446744073709551615 : UInt64).toNat = 18446744073709551615 := rfl
      omega
    · rw [hs, hf] at hlt
      exact ⟨j, k, r, n, bytes, hj, hn, hk, hne, hlt⟩

/-- The bounds meet as soon as there is a gap. -/
theorem Bounds.gap {start : UInt64} {v : Server} {x : FxpXfer} (h : Bounds start v x) (hgap : Gap start v) :
    ¬ x.furthestdata ≤ x.filesize := by
  obtain ⟨j, k, r, n, bytes, hj, hn, hk, hne, hlt⟩ := hgap
  have h1 := UInt64.le_iff_toNat_le.mp (h.furthest k bytes hk hne)
  have h2 := UInt64.le_iff_toNat_le.mp (h.filesize j r n hj hn)
  have h3 := UInt64.lt_iff_toNat_lt.mp hlt
  intro hle
  have h4 := UInt64.le_iff_toNat_le.mp hle
  omega

theorem sources_init (start : UInt64) (f : Fxp) (fh : List UInt8) :
    Sources start (beforeInit f fh start).server (beforeInit f fh start).xfer := ⟨.inl rfl, .inl rfl⟩

theorem Sources.congr {start : UInt64} {v v' : Server} {x x' : FxpXfer} (h : Sources start v x)
    (ha : ∀ k, v'.answer k = v.answer k) (hf : x'.furthestdata = x.furthestdata) (hs : x'.filesize = x.filesize) :
    Sources start v' x' := by
  refine ⟨?_, ?_⟩
  · rw [hf]
    rcases h.furthest with h | ⟨k, bytes, hk, hne, h⟩
    · exact .inl h
    · exact .inr ⟨k, bytes, (ha k).trans hk, hne, h⟩
  · rw [hs]
    rcases h.filesize with h | ⟨j, r, n, hj, hn, h⟩
    · exact .inl h
    · exact .inr ⟨j, r, n, (ha j).trans hj, hn, h⟩

/-- A reply keeps the replies before it. -/
theorem Wire.kept {v : Server} (hw : Wire v) {x : UInt32 × Nat} (hx : x ∈ v.outstanding) (reply : Reply) {k : Nat} {r : Reply}
    (h : v.answer k = some r) : (v.answered x reply).answer k = some r := by
  rw [answer_kept hw hx reply (by rw [h]; exact Option.some_ne_none _)]
  exact h

theorem Sources.answered {start : UInt64} {v : Server} {x x' : FxpXfer} (h : Sources start v x) (hw : Wire v)
    {y : UInt32 × Nat} (hy : y ∈ v.outstanding) {rr : Req} {reply : Reply} {ret : Int} (hoff : rr.offset = offsetOf start y.2)
    (ht : Tight x x' rr reply ret) : Sources start (v.answered y reply) x' := by
  have hself : (v.answered y reply).answer y.2 = some reply := by
    rw [answer_answered]
    exact if_pos rfl
  refine ⟨?_, ?_⟩
  · rcases ht.furthest with hf | ⟨bytes, hb, hne, hf⟩
    · rcases h.furthest with h | ⟨k, bytes, hk, hne, h⟩
      · exact .inl (hf.trans h)
      · exact .inr ⟨k, bytes, hw.kept hy reply hk, hne, hf.trans h⟩
    · exact .inr ⟨y.2, bytes, hself.trans (congrArg some hb), hne, hf.trans hoff⟩
  · rcases ht.filesize with hs | ⟨n, hn, hs⟩
    · rcases h.filesize with h | ⟨j, r, n, hj, hn, h⟩
      · exact .inl (hs.trans h)
      · exact .inr ⟨j, r, n, hw.kept hy reply hj, hn, hs.trans h⟩
    · exact .inr ⟨y.2, reply, n, hself, hn, hs.trans (by rw [hoff])⟩

/-! ## The head of the queue -/

/-- The queue starts with the first request that was not released. -/
theorem Queued.head {start : UInt64} {s : St} (h : Queued start s) {r : Req} {rest : List Req} (hq : s.xfer.queue = r :: rest) :
    r.tag = released s ∧ Entry start s.server r := by
  have htags := h.tags
  rw [hq, List.map_cons, List.length_cons, List.range'_succ] at htags
  refine ⟨?_, h.entry r (by rw [hq]; exact List.mem_cons_self)⟩
  rw [released, hq, List.length_cons]
  exact (List.cons.inj htags).1

theorem releaseHead_unanswered {start : UInt64} {s : St} (h : Queued start s) (hno : s.server.answer (released s) = none) (total : Nat) :
    releaseHead total s.xfer.queue = (none, s.xfer.queue, total) := by
  cases hq : s.xfer.queue with
  | nil => rfl
  | cons r rest =>
    obtain ⟨htag, hentry⟩ := h.head hq
    have hstatus := hentry.status
    rw [htag, hno] at hstatus
    have hc : r.complete = 0 := hstatus
    rw [releaseHead, if_pos hc]

/-- An answer that is not an error releases the head, with its data. -/
theorem releaseHead_answered {start : UInt64} {s : St} (h : Queued start s) {reply : Reply}
    (hans : s.server.answer (released s) = some reply) (hne : reply ≠ .error) (hpos : s.xfer.queue ≠ []) (total : Nat) :
    ∃ rr rest, s.xfer.queue.length = rest.length + 1 ∧ releaseHead total s.xfer.queue = (some rr, rest, total - rr.len) ∧
      rr.retlen = (bytesOf (some reply)).length ∧ rr.buffer.take rr.retlen.toNat = bytesOf (some reply) := by
  cases hq : s.xfer.queue with
  | nil => exact absurd hq hpos
  | cons r rest =>
    obtain ⟨htag, hentry⟩ := h.head hq
    have hstatus := hentry.status
    rw [htag, hans] at hstatus
    cases reply with
    | error => exact absurd rfl hne
    | data bytes =>
      obtain ⟨hc, hret, hbuf⟩ := hstatus
      refine ⟨r, rest, rfl, ?_, hret, ?_⟩
      · rw [releaseHead, if_neg (by omega), if_pos (by omega)]
      · rw [hret]
        exact hbuf
    | eof =>
      obtain ⟨hc, hret⟩ := hstatus
      refine ⟨r, rest, rfl, ?_, hret, ?_⟩
      · rw [releaseHead, if_neg (by omega), if_pos (by omega)]
      · rw [hret]
        rfl

end Putty.Sftp
