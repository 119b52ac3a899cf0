/-
  Putty.Pscp.Whole — whether a file that PSCP takes by SFTP comes whole, over every run of
  replies.

  Proved: `transfer_correct_iff`. The loop is written for a stream: a reply that is not to
  the oldest read, an end of the file with no size announced and a block that goes beyond
  the announced size end the program (`second_block_first`).
-/

import Putty.Pscp.Transfer

namespace Putty.Pscp.Transfer

open Putty.Utils Putty.Sftp

/-! ## What is claimed of a transfer -/

/-- The data of the first `n` blocks. -/
def bytesUpTo (v : Server) (n : Nat) : List UInt8 := (List.range n).flatMap fun j => bytesOf (v.answer j)

/-- The first `n` reads gave data, all but the last as much as was asked for. -/
structure Whole (v : Server) (n : Nat) : Prop where
  data : ∀ j < n, ∃ bytes, v.answer j = some (.data bytes) ∧ bytes ≠ []
  full : 32768 * v.sent.length ≤ 2 ^ 64 → ∀ j, j + 1 < n → (bytesOf (v.answer j)).length = 32768

/-- The reasons for a connection to be lost: a packet that answers no read, an error, a
    read that was cut short though there was data after it, and an end of the file before
    the size that was announced. -/
inductive Excused (announced : Option UInt64) (t : St) : Prop where
  | stray (h : intMin ∈ t.sftp.results) : Excused announced t
  | error (k : Nat) (h : t.sftp.server.answer k = some .error) : Excused announced t
  | gap (h : Gap 0 t.sftp.server) : Excused announced t
  | short (k : Nat) (r : Reply) (hsize : announced ≠ none) (hw : Whole t.sftp.server k) (hk : t.sftp.server.answer k = some r)
      (hr : Ends r) (hfile : t.wrerror = false → t.file = bytesUpTo t.sftp.server k) : Excused announced t

/-- The file has what was returned from its beginning on, and all of the announced size
    when the loop is done; and nothing is lost for no reason. -/
structure Correct (announced : Option UInt64) (t : St) : Prop where
  file : t.wrerror = false → ∃ n, Whole t.sftp.server n ∧ t.file = bytesUpTo t.sftp.server n
  size : t.file.length ≤ actSize announced
  done : t.wrerror = false → t.phase = .finishing ∨ t.phase = .closed → t.file.length = actSize announced
  lost : t.phase = .lost → Excused announced t

/-- The packet answers the oldest read, does not go beyond the size, and ends the file only
    when a size was announced; or it reports a failure. -/
def Sound (announced : Option UInt64) (t : St) (e : Ev) : Prop :=
  t.phase = .receiving → ∀ s k reply, xferDownloadQueue t.sftp = some s →
    (s.server.reply e.pktin).answers = (k, reply) :: s.server.answers →
    reply = .error ∨ Gap 0 (s.server.reply e.pktin) ∨
      k = released t.sftp ∧ (Ends reply → announced ≠ none) ∧
        (bytesOf (some reply)).length ≤ actSize announced - t.received

/-! ## A reply -/

variable {fh : List UInt8} {spare : Nat}

/-- What taking a packet comes to. -/
structure Got (s s' : Sftp.St) (ret : Int) : Prop where
  results : s'.results = s.results ++ [ret]
  sent : s'.server.sent = s.server.sent
  queue : s'.xfer.queue.length = s.xfer.queue.length
  sources : Sources 0 s'.server s'.xfer
  kept : ∀ k r, s.server.answer k = some r → s'.server.answer k = some r
  reply : ret = intMin ∧ s'.server = s.server ∨
    ∃ k reply, s.server.answer k = none ∧ s'.server.answers = (k, reply) :: s.server.answers ∧ s'.server.answer k = some reply ∧
      (∀ j, j ≠ k → s'.server.answer j = s.server.answer j) ∧
      (ret = -1 ∧ (reply = .error ∨ Gap 0 s'.server) ∨ ret = 1 ∧ reply ≠ .error ∧ ¬ Gap 0 s'.server)

theorem gotpkt_spec {s : Sftp.St} (hi : Inv 0 fh spare s) (hsrc : Sources 0 s.server s.xfer) (pktin : Option SftpPacket) :
    ∃ ret s', gotpkt s pktin = some (ret, s') ∧ Sftp.step s (.gotpkt pktin) = some s' ∧ s'.server = s.server.reply pktin ∧
      Got s s' ret := by
  obtain ⟨s1, ret1, hs1, hi1, -, -⟩ := gotpkt_inv hi pktin
  rcases gotpkt_cases hi pktin with ⟨f', hg, hserver, htable⟩ |
    ⟨r, k, rr, reply, f', ret, x', hr, hu, hrr, htag, hg, hserver, hf, hreact, htight⟩
  · refine ⟨intMin, { s with fxp := f', server := s.server.reply pktin, results := s.results ++ [intMin] }, by rw [gotpkt, hg]; rfl,
      by rw [Sftp.step, hg]; rfl, rfl, rfl, ?_, rfl, ?_, ?_, .inl ⟨rfl, hserver⟩⟩
    · exact congrArg Server.sent hserver
    · exact hsrc.congr (fun k => congrArg (Server.answer · k) hserver) rfl rfl
    · intro k r hk
      show (s.server.reply pktin).answer k = some r
      rw [hserver]
      exact hk
  · have hmem : (r.id, k) ∈ s.server.outstanding := (hi.table.outstanding r.id k).mpr ⟨r, hr, rfl, hu⟩
    obtain ⟨hlt, hnone⟩ := (hi.wire.outstanding k).mp (List.mem_map_of_mem hmem)
    have hoff : rr.offset = offsetOf 0 k := htag ▸ (hi.queued.entry rr hrr).offset
    have hsrc' := hsrc.answered hi.wire hmem hoff htight
    have hlen : x'.queue.length = s.xfer.queue.length := by
      obtain ⟨rr', -, -, -, -, hqueue⟩ := hreact.queue
      rw [hqueue, List.length_map]
    have hs1' : s1 = { s with fxp := f', xfer := x', server := s.server.reply pktin, results := s.results ++ [ret] } := by
      rw [Sftp.step, hg] at hs1
      cases hs1
      rfl
    subst hs1'
    refine ⟨ret, { s with fxp := f', xfer := x', server := s.server.reply pktin, results := s.results ++ [ret] },
      by rw [gotpkt, hg]; rfl, hs1, rfl, rfl, ?_, hlen, ?_, ?_, .inr ⟨k, reply, hnone, ?_, ?_, ?_, ?_⟩⟩
    · show (s.server.reply pktin).sent = _
      rw [hserver]
      rfl
    · show Sources 0 (s.server.reply pktin) x'
      rw [hserver]
      exact hsrc'
    · intro j r' hj
      show (s.server.reply pktin).answer j = some r'
      rw [hserver]
      exact hi.wire.kept hmem reply hj
    · show (s.server.reply pktin).answers = _
      rw [hserver]
      rfl
    · show (s.server.reply pktin).answer k = some reply
      rw [hserver, answer_answered]
      exact if_pos rfl
    · intro j hj
      show (s.server.reply pktin).answer j = s.server.answer j
      rw [hserver, answer_answered]
      exact if_neg hj
    · rcases htight.ret with ⟨hret, hwhy⟩ | hret
      · refine .inl ⟨hret, hwhy.imp id fun hlt => ?_⟩
        show Gap 0 (s.server.reply pktin)
        rw [hserver]
        exact hsrc'.gap hlt
      · obtain ⟨hne, hle⟩ := hreact.checked (by rw [hret]; decide)
        exact .inr ⟨hret, hne, fun hgap => hi1.bounds.gap hgap hle⟩

/-! ## The invariant of the loop -/

/-- The loop's state between two turns, up to the test of the size. -/
structure Loaded (announced : Option UInt64) (fh : List UInt8) (spare : Nat) (t : St) : Prop where
  run : ∃ evs, RunInv 0 fh spare evs t.sftp
  sources : Sources 0 t.sftp.server t.sftp.xfer
  results : ∀ r ∈ t.sftp.results, r = 1
  err : t.sftp.xfer.err = false
  answered : ∀ k, t.sftp.server.answer k ≠ none → k < released t.sftp
  data : ∀ k < released t.sftp, ∃ bytes, t.sftp.server.answer k = some (.data bytes) ∧ bytes ≠ []
  received : t.received = (bytesUpTo t.sftp.server (released t.sftp)).length
  bound : t.received ≤ actSize announced
  length : t.file.length ≤ t.received
  file : t.wrerror = false → t.file = bytesUpTo t.sftp.server (released t.sftp)

theorem Loaded.whole {announced : Option UInt64} {t : St} (h : Loaded announced fh spare t) :
    Whole t.sftp.server (released t.sftp) := by
  obtain ⟨evs, hrun⟩ := h.run
  refine ⟨h.data, fun hroom j hj => ?_⟩
  obtain ⟨bytes, hk, hne⟩ := h.data (j + 1) hj
  obtain ⟨b, hb, -⟩ := h.data j (by omega)
  refine hrun.inv.full_before (j := j) (k := j + 1) ?_ (fun hmem => absurd (h.results _ hmem) (by decide)) (Nat.lt_succ_self j)
    (by rw [hb]; exact Option.some_ne_none _) hk hne
  rw [UInt64.toNat_zero]
  omega

theorem Loaded.correct {announced : Option UInt64} {t : St} (h : Loaded announced fh spare t)
    (hdone : t.wrerror = false → t.phase = .finishing ∨ t.phase = .closed → t.received = actSize announced)
    (hlost : t.phase ≠ .lost) : Correct announced t := by
  refine ⟨fun hw => ⟨_, h.whole, h.file hw⟩, Nat.le_trans h.length h.bound, fun hw hp => ?_, fun hp => absurd hp hlost⟩
  rw [h.file hw, ← h.received]
  exact hdone hw hp

/-- Where a transfer is. -/
inductive Phased (announced : Option UInt64) (fh : List UInt8) (spare : Nat) (t : St) : Prop where
  | receiving (hp : t.phase = .receiving) (h : Loaded announced fh spare t) (hlt : t.received < actSize announced) :
      Phased announced fh spare t
  | settled (hp : t.phase ≠ .receiving) (hrun : ∃ evs, RunInv 0 fh spare evs t.sftp) (hsrc : Sources 0 t.sftp.server t.sftp.xfer)
      (h : Correct announced t) : Phased announced fh spare t

theorem Phased.correct {announced : Option UInt64} {t : St} (h : Phased announced fh spare t) : Correct announced t := by
  cases h with
  | receiving hp h hlt => exact h.correct (fun _ hd => by rw [hp] at hd; rcases hd with hd | hd <;> cases hd) (by rw [hp]; decide)
  | settled hp hrun hsrc h => exact h

/-! ## A turn of the loop -/

theorem bytesUpTo_succ (v : Server) (n : Nat) : bytesUpTo v (n + 1) = bytesUpTo v n ++ bytesOf (v.answer n) := by
  rw [bytesUpTo, List.range_succ, List.flatMap_append]
  exact congrArg _ (List.append_nil _)

theorem bytesUpTo_congr {v v' : Server} {n : Nat} (h : ∀ j < n, v'.answer j = v.answer j) : bytesUpTo v' n = bytesUpTo v n := by
  unfold bytesUpTo
  rw [List.flatMap_def, List.flatMap_def]
  congr 1
  exact List.map_congr_left fun j hj => congrArg bytesOf (h j (List.mem_range.mp hj))

theorem Whole.congr {v v' : Server} {n : Nat} (h : Whole v n) (ha : ∀ j < n, v'.answer j = v.answer j) (hs : v.sent.length ≤ v'.sent.length) :
    Whole v' n := by
  refine ⟨fun j hj => ?_, fun hroom j hj => ?_⟩
  · rw [ha j hj]
    exact h.data j hj
  · rw [ha j (by omega)]
    exact h.full (by omega) j hj

/-- Going on to finish, or being done. -/
theorem finishing_spec {announced : Option UInt64} {t : St} (hrun : ∃ evs, RunInv 0 fh spare evs t.sftp)
    (hsrc : Sources 0 t.sftp.server t.sftp.xfer) (hfile : t.wrerror = false → ∃ n, Whole t.sftp.server n ∧ t.file = bytesUpTo t.sftp.server n)
    (hsize : t.file.length ≤ actSize announced) (hdone : t.wrerror = false → t.file.length = actSize announced) :
    Phased announced fh spare (finishing t) := by
  unfold finishing
  split
  · exact .settled (fun h => by cases h) hrun hsrc ⟨hfile, hsize, fun hw _ => hdone hw, fun h => by cases h⟩
  · exact .settled (fun h => by cases h) hrun hsrc ⟨hfile, hsize, fun hw _ => hdone hw, fun h => by cases h⟩

theorem again_spec {announced : Option UInt64} {t : St} (hspare : spare + 32 < 2 ^ 31) (h : Loaded announced fh spare t)
    (hp : t.phase = .receiving) : Phased announced fh spare (again (actSize announced) t) := by
  unfold again
  by_cases hlt : t.received < actSize announced
  · rw [if_pos hlt]
    exact .receiving hp h hlt
  · rw [if_neg hlt]
    have heq : t.received = actSize announced := Nat.le_antisymm h.bound (Nat.le_of_not_lt hlt)
    by_cases hw : t.wrerror = true
    · rw [if_pos hw]
      refine .settled (fun h => by cases h) h.run h.sources ⟨fun hw' => ?_, Nat.le_trans h.length h.bound, fun hw' _ => ?_,
        fun h => by cases h⟩
      · cases hw.symm.trans hw'
      · cases hw.symm.trans hw'
    · rw [if_neg hw]
      obtain ⟨evs, hrun⟩ := h.run
      obtain ⟨s', hs', hrun'⟩ := Sftp.step_inv hspare hrun .setError
      cases hs'
      refine finishing_spec ⟨_, hrun'⟩ (h.sources.congr (fun _ => rfl) rfl rfl) (fun hw' => ⟨_, h.whole, h.file hw'⟩)
        (Nat.le_trans h.length h.bound) fun hw' => ?_
      rw [h.file hw', ← h.received]
      exact heq

/-- No reason to be lost is there while the loop goes on. -/
theorem Loaded.no_excuse {announced : Option UInt64} {t : St} (h : Loaded announced fh spare t) :
    -1 ∉ t.sftp.results ∧ intMin ∉ t.sftp.results :=
  ⟨fun hm => absurd (h.results _ hm) (by decide), fun hm => absurd (h.results _ hm) (by decide)⟩

/-- A turn up to xfer_download_gotpkt, against the loop's state before. -/
structure Turned (fh : List UInt8) (spare : Nat) (t : St) (pktin : Option SftpPacket) (s1 s2 : Sftp.St) (ret : Int) : Prop where
  queue : xferDownloadQueue t.sftp = some s1
  got : gotpkt s1 pktin = some (ret, s2)
  server : s2.server = s1.server.reply pktin
  answers : s1.server.answers = t.sftp.server.answers
  run : ∃ evs, RunInv 0 fh spare evs s2 ∧ .setError ∉ evs
  sources : Sources 0 s2.server s2.xfer
  results : s2.results = t.sftp.results ++ [ret]
  sent : t.sftp.server.sent.length ≤ s2.server.sent.length
  released : released s2 = released t.sftp
  more : s2.xfer.queue ≠ []
  reply : ret = intMin ∧ s2.server.answers = t.sftp.server.answers ∨
    ∃ k reply, t.sftp.server.answer k = none ∧ s2.server.answers = (k, reply) :: t.sftp.server.answers ∧
      s2.server.answer k = some reply ∧ (∀ j, j ≠ k → s2.server.answer j = t.sftp.server.answer j) ∧
      (ret = -1 ∧ (reply = .error ∨ Gap 0 s2.server) ∨ ret = 1 ∧ reply ≠ .error ∧ ¬ Gap 0 s2.server)

theorem Loaded.turn {announced : Option UInt64} {t : St} (hspare : spare + 32 < 2 ^ 31) (h : Loaded announced fh spare t)
    (pktin : Option SftpPacket) : ∃ s1 s2 ret, Turned fh spare t pktin s1 s2 ret := by
  obtain ⟨evs, hrun⟩ := h.run
  have hset : .setError ∉ evs := fun hm => by
    have := hrun.err.mpr (.inl hm)
    rw [h.err] at this
    cases this
  obtain ⟨s1, hs1, hrun1⟩ := Sftp.step_inv hspare hrun .queue
  have hq1 : xferDownloadQueue t.sftp = some s1 := hs1
  obtain ⟨hasked, hmore⟩ := queueLoop_asked hq1
  have hanswer := hasked.answer
  have hres1 : s1.results = t.sftp.results := hasked.results
  have heof : s1.xfer.eof = false := by
    rw [← Bool.not_eq_true]
    intro heof
    obtain ⟨k, r, hk, hends⟩ := hrun1.inv.bounds.eof.mp heof
    rw [hanswer] at hk
    obtain ⟨bytes, hb, hne⟩ := h.data k (h.answered k (by rw [hk]; exact Option.some_ne_none _))
    rw [hk] at hb
    cases hb
    exact hne hends
  have herr : s1.xfer.err = false := by
    rw [← Bool.not_eq_true]
    intro herr
    rcases hrun1.err.mp herr with hm | hm
    · rcases List.mem_append.mp hm with hm | hm
      · exact hset hm
      · cases List.mem_singleton.mp hm
    · rw [hres1] at hm
      exact h.no_excuse.1 hm
  have hpos : 0 < s1.xfer.queue.length := by
    have htotal := hrun1.inv.total
    have hmax := hrun1.inv.max
    rw [wantsMore, heof, herr, hmax] at hmore
    simp only [Bool.not_false, Bool.and_true, decide_eq_false_iff_not] at hmore
    omega
  have hsrc1 : Sources 0 s1.server s1.xfer := h.sources.congr hanswer hasked.furthestdata hasked.filesize
  obtain ⟨ret, s2, hgot, hstep2, hserver, hG⟩ := gotpkt_spec hrun1.inv hsrc1 pktin
  obtain ⟨s2', hs2', hrun2⟩ := Sftp.step_inv hspare hrun1 (.gotpkt pktin)
  rw [hstep2] at hs2'
  cases hs2'
  refine ⟨s1, s2, ret, hq1, hgot, hserver, hasked.answers, ⟨_, hrun2, ?_⟩, hG.sources, by rw [hG.results, hres1], ?_, ?_, ?_, ?_⟩
  · simp only [List.mem_append, List.mem_singleton, reduceCtorEq, or_false]
    exact hset
  · obtain ⟨m, hm, -⟩ := hasked.more
    rw [hG.sent, hm]
    exact Nat.le_add_right _ _
  · rw [← hasked.released hrun.inv.queued, Sftp.released, Sftp.released, hG.sent, hG.queue]
  · intro hnil
    rw [← hG.queue, hnil] at hpos
    exact Nat.lt_irrefl 0 hpos
  · rcases hG.reply with ⟨hret, hsame⟩ | ⟨k, reply, hno, hans, hself, hothers, hret⟩
    · exact .inl ⟨hret, by rw [hsame, hasked.answers]⟩
    · exact .inr ⟨k, reply, by rw [← hanswer]; exact hno, by rw [hans, hasked.answers], hself,
        fun j hj => (hothers j hj).trans (hanswer j), hret⟩

/-- What Sound says of a turn, once the packet's request is known. -/
theorem Turned.sound {announced : Option UInt64} {t : St} {e : Ev} {s1 s2 : Sftp.St} {ret : Int} (h : Turned fh spare t e.pktin s1 s2 ret)
    (hp : t.phase = .receiving) {k : Nat} {reply : Reply} (hans : s2.server.answers = (k, reply) :: t.sftp.server.answers) :
    Sound announced t e ↔ reply = .error ∨ Gap 0 s2.server ∨
      k = Sftp.released t.sftp ∧ (Ends reply → announced ≠ none) ∧
        (bytesOf (some reply)).length ≤ actSize announced - t.received := by
  constructor
  · intro hs
    have := hs hp s1 k reply h.queue (by rw [← h.server, hans, h.answers])
    rwa [← h.server] at this
  · intro hs hp' s k' reply' hq hans'
    rw [h.queue] at hq
    cases hq
    rw [← h.server, hans, h.answers] at hans'
    cases hans'
    rwa [← h.server]

theorem Turned.sound_stray {announced : Option UInt64} {t : St} {e : Ev} {s1 s2 : Sftp.St} {ret : Int}
    (h : Turned fh spare t e.pktin s1 s2 ret) (hans : s2.server.answers = t.sftp.server.answers) : Sound announced t e := by
  intro hp s k reply hq hans'
  rw [h.queue] at hq
  cases hq
  rw [← h.server, hans, h.answers] at hans'
  exact absurd (congrArg List.length hans') (by rw [List.length_cons]; omega)

/-- The blocks released so far are answered as before. -/
theorem Turned.before {announced : Option UInt64} {t : St} {pktin : Option SftpPacket} {s1 s2 : Sftp.St} {ret : Int}
    (h : Turned fh spare t pktin s1 s2 ret) (hl : Loaded announced fh spare t) {j : Nat} (hj : j < Sftp.released t.sftp) :
    s2.server.answer j = t.sftp.server.answer j := by
  rcases h.reply with ⟨-, hans⟩ | ⟨k, reply, hno, -, -, hothers, -⟩
  · rw [Server.answer, Server.answer, hans]
  · refine hothers j fun hjk => ?_
    obtain ⟨bytes, hb, -⟩ := hl.data j hj
    rw [hjk, hno] at hb
    cases hb

/-- A state that is lost has what was written before. -/
theorem Turned.lost {announced : Option UInt64} {t : St} {pktin : Option SftpPacket} {s1 s2 s3 : Sftp.St} {ret : Int}
    (h : Turned fh spare t pktin s1 s2 ret) (hl : Loaded announced fh spare t) (hrun : ∃ evs, RunInv 0 fh spare evs s3)
    (hserver : s3.server = s2.server) (hf : s3.xfer.furthestdata = s2.xfer.furthestdata) (hs : s3.xfer.filesize = s2.xfer.filesize)
    (hexc : Excused announced { t with sftp := s3, phase := .lost }) :
    Phased announced fh spare { t with sftp := s3, phase := .lost } := by
  refine .settled (fun h => by cases h) hrun (h.sources.congr (fun k => by rw [hserver]) hf hs) ⟨fun hw => ?_,
    Nat.le_trans hl.length hl.bound, fun _ hp => ?_, fun _ => hexc⟩
  · refine ⟨Sftp.released t.sftp, hl.whole.congr ?_ ?_, ?_⟩
    · intro j hj
      show s3.server.answer j = _
      rw [hserver, h.before hl hj]
    · show _ ≤ s3.server.sent.length
      rw [hserver]
      exact h.sent
    · show t.file = bytesUpTo s3.server _
      rw [hl.file hw]
      exact (bytesUpTo_congr fun j hj => by rw [hserver, h.before hl hj]).symm
  · rcases hp with hp | hp <;> cases hp

theorem scpRecvFiledata_eq {t : St} {pktin : Option SftpPacket} {s1 s2 : Sftp.St} {ret : Int}
    (h : Turned fh spare t pktin s1 s2 ret) (len : Nat) :
    scpRecvFiledata t.sftp pktin len =
      if ret ≤ 0 then some (-1, [], s2)
      else
        match data s2 with
        | (some rr, s) =>
          if rr.retlen ≤ 0 then some (-1, [], s)
          else if (len : Int) < rr.retlen then none
          else some (rr.retlen, rr.buffer.take rr.retlen.toNat, s)
        | (none, s) => some (0, [], s) := by
  unfold scpRecvFiledata
  rw [h.queue]
  exact congrArg (fun o => Option.bind o _) h.got

/-- The state after a failed read. -/
theorem receive_failed {size : Nat} {t : St} {pktin : Option SftpPacket} {wrote : Bool} {s : Sftp.St} {ret : Int}
    (h : scpRecvFiledata t.sftp pktin (min 32768 (size - t.received)) = some (ret, [], s)) (hret : ret ≤ 0) :
    receive size t pktin wrote = some { t with sftp := s, phase := .lost } := by
  rw [receive, h, Option.map_some]
  dsimp only
  rw [if_pos hret]

/-- The head of the queue after a reply that is not to it. -/
theorem Turned.early {t : St} {pktin : Option SftpPacket} {s1 s2 : Sftp.St} {ret : Int} (h : Turned fh spare t pktin s1 s2 ret)
    (hno : s2.server.answer (Sftp.released t.sftp) = none) : data s2 = (none, s2) := by
  obtain ⟨evs, hrun, -⟩ := h.run
  have hr := releaseHead_unanswered hrun.inv.queued (by rw [h.released]; exact hno) s2.xfer.reqTotalsize
  rw [data, xferDownloadData, hr]
  show (none, { s2 with xfer := s2.xfer, returned := s2.returned ++ [] }) = _
  rw [List.append_nil]

/-- The head of the queue after the reply to it. -/
theorem Turned.first {t : St} {pktin : Option SftpPacket} {s1 s2 : Sftp.St} {ret : Int} (hspare : spare + 32 < 2 ^ 31)
    (h : Turned fh spare t pktin s1 s2 ret) {reply : Reply} (hans : s2.server.answer (Sftp.released t.sftp) = some reply)
    (hne : reply ≠ .error) :
    ∃ rr s3, data s2 = (some rr, s3) ∧ rr.retlen = (bytesOf (some reply)).length ∧
      rr.buffer.take rr.retlen.toNat = bytesOf (some reply) ∧ s3.server = s2.server ∧ s3.results = s2.results ∧
      s3.xfer.furthestdata = s2.xfer.furthestdata ∧ s3.xfer.filesize = s2.xfer.filesize ∧ s3.xfer.err = s2.xfer.err ∧
      Sftp.released s3 = Sftp.released t.sftp + 1 ∧ ∃ evs, RunInv 0 fh spare evs s3 ∧ .setError ∉ evs := by
  obtain ⟨evs, hrun, hset⟩ := h.run
  obtain ⟨rr, rest, hlen, hr, hret, hbuf⟩ := releaseHead_answered hrun.inv.queued (by rw [h.released]; exact hans) hne h.more
    s2.xfer.reqTotalsize
  obtain ⟨s3, hs3, hrun3⟩ := Sftp.step_inv hspare hrun .data
  have hdata : (data s2).2 = s3 := Option.some.inj hs3
  have heq : data s2 = (some rr, s3) := by
    rw [← hdata, data, xferDownloadData, hr]
  refine ⟨rr, s3, heq, hret, hbuf, by rw [← hdata]; rfl, by rw [← hdata]; rfl, by rw [← hdata]; rfl, by rw [← hdata]; rfl,
    by rw [← hdata]; rfl, ?_, _, hrun3, ?_⟩
  · have hle := hrun.inv.queued.le
    have hqueue : s3.xfer.queue = rest := by
      rw [← hdata]
      show (xferDownloadData s2.xfer).2.queue = rest
      rw [xferDownloadData, hr]
    have hsent : s3.server.sent = s2.server.sent := by rw [← hdata]; rfl
    rw [← h.released, Sftp.released, Sftp.released, hqueue, hsent]
    omega
  · simp only [List.mem_append, List.mem_singleton, reduceCtorEq, or_false]
    exact hset

/-- A transfer that is lost after a reply that is no failure, and not for the end of a file
    whose size was announced. -/
theorem Turned.not_excused {announced : Option UInt64} {t : St} {pktin : Option SftpPacket} {s1 s2 s3 : Sftp.St}
    (h : Turned fh spare t pktin s1 s2 1) (hl : Loaded announced fh spare t) (hserver : s3.server = s2.server)
    (hres : s3.results = s2.results) (hgap : ¬ Gap 0 s2.server)
    (hshort : announced ≠ none → s2.server.answer (Sftp.released t.sftp) = none) :
    ¬ Correct announced { t with sftp := s3, phase := .lost } := by
  intro hcorrect
  obtain ⟨evs, hrun, -⟩ := h.run
  have hall : ∀ r ∈ s2.results, r = 1 := by
    intro r hr
    rw [h.results] at hr
    rcases List.mem_append.mp hr with hr | hr
    · exact hl.results r hr
    · exact List.mem_singleton.mp hr
  cases hcorrect.lost rfl with
  | stray hs =>
    have hm : intMin ∈ s3.results := hs
    rw [hres] at hm
    exact absurd (hall _ hm) (by decide)
  | error k hk =>
    have hk' : s3.server.answer k = some .error := hk
    rw [hserver] at hk'
    exact (hrun.inv.unreported fun hm => absurd (hall _ hm) (by decide)).1 k hk'
  | gap hg =>
    have hg' : Gap 0 s3.server := hg
    rw [hserver] at hg'
    exact hgap hg'
  | short k r hsize hw hk hr hfile =>
    have hno := hshort hsize
    have hk' : s3.server.answer k = some r := hk
    have hw' : Whole s3.server k := hw
    rw [hserver] at hk' hw'
    rcases Nat.lt_trichotomy k (Sftp.released t.sftp) with hlt | heq | hgt
    · obtain ⟨bytes, hb, hne⟩ := hl.data k hlt
      rw [← h.before hl hlt, hk'] at hb
      cases hb
      exact hne hr
    · rw [heq, hno] at hk'
      cases hk'
    · obtain ⟨bytes, hb, -⟩ := hw'.data _ hgt
      rw [hno] at hb
      cases hb

theorem bytesOf_ends {r : Reply} (h : Ends r) : bytesOf (some r) = [] := by
  cases r with
  | data bytes => exact h
  | eof => rfl
  | error => rfl

theorem not_ends {r : Reply} (hne : r ≠ .error) (h : ¬ Ends r) : ∃ bytes, r = .data bytes ∧ bytes ≠ [] := by
  cases r with
  | data bytes => exact ⟨bytes, rfl, h⟩
  | eof => exact absurd trivial h
  | error => exact absurd rfl hne

/-- The loop's state after a block was taken. -/
theorem Turned.loaded {announced : Option UInt64} {t t' : St} {pktin : Option SftpPacket} {s1 s2 s3 : Sftp.St}
    (h : Turned fh spare t pktin s1 s2 1) (hl : Loaded announced fh spare t) {bytes : List UInt8}
    (hans : s2.server.answer (Sftp.released t.sftp) = some (.data bytes)) (hne : bytes ≠ [])
    (hfit : bytes.length ≤ actSize announced - t.received)
    (hserver : s3.server = s2.server) (hres : s3.results = s2.results) (hf : s3.xfer.furthestdata = s2.xfer.furthestdata)
    (hs : s3.xfer.filesize = s2.xfer.filesize) (hrel : Sftp.released s3 = Sftp.released t.sftp + 1)
    (hrun : ∃ evs, RunInv 0 fh spare evs s3 ∧ .setError ∉ evs) (hothers : ∀ j, j ≠ Sftp.released t.sftp →
      s2.server.answer j = t.sftp.server.answer j)
    (hsftp : t'.sftp = s3) (hrec : t'.received = t.received + bytes.length) (hlen : t'.file.length ≤ t'.received)
    (hfile : t'.wrerror = false → t.wrerror = false ∧ t'.file = t.file ++ bytes) : Loaded announced fh spare t' := by
  subst hsftp
  obtain ⟨evs, hr3, hset⟩ := hrun
  have hall : ∀ r ∈ t'.sftp.results, r = 1 := by
    intro r hr
    rw [hres, h.results] at hr
    rcases List.mem_append.mp hr with hr | hr
    · exact hl.results r hr
    · exact List.mem_singleton.mp hr
  have hupto : bytesUpTo t'.sftp.server (Sftp.released t.sftp + 1) = bytesUpTo t.sftp.server (Sftp.released t.sftp) ++ bytes := by
    rw [bytesUpTo_succ, hserver, hans, bytesUpTo_congr fun j hj => h.before hl hj]
    rfl
  have hbound := hl.bound
  refine ⟨⟨evs, hr3⟩, h.sources.congr (fun k => by rw [hserver]) hf hs, hall, ?_, ?_, ?_, ?_, ?_, hlen, ?_⟩
  · rw [← Bool.not_eq_true]
    intro herr
    rcases hr3.err.mp herr with hm | hm
    · exact hset hm
    · exact absurd (hall _ hm) (by decide)
  · intro k hk
    rw [hserver] at hk
    rw [hrel]
    by_cases heq : k = Sftp.released t.sftp
    · omega
    · rw [hothers k heq] at hk
      exact Nat.lt_succ_of_lt (hl.answered k hk)
  · intro k hk
    rw [hrel] at hk
    rw [hserver]
    by_cases heq : k = Sftp.released t.sftp
    · exact ⟨bytes, heq ▸ hans, hne⟩
    · rw [hothers k heq]
      exact hl.data k (by omega)
  · rw [hrel, hupto, List.length_append, hrec, hl.received]
  · omega
  · intro hw
    obtain ⟨hw0, hf'⟩ := hfile hw
    rw [hrel, hupto, hf', hl.file hw0]

/-- A turn is as it should be, or breaks what is claimed, by the condition. -/
theorem receive_spec {announced : Option UInt64} {t : St} (hspare : spare + 32 < 2 ^ 31) (hp : t.phase = .receiving)
    (hl : Loaded announced fh spare t) (e : Ev) :
    (Sound announced t e ∧ ∃ t', receive (actSize announced) t e.pktin e.wrote = some t' ∧ Phased announced fh spare t') ∨
      (¬ Sound announced t e ∧ ∀ t', receive (actSize announced) t e.pktin e.wrote = some t' → ¬ Correct announced t') := by
  obtain ⟨s1, s2, ret, h⟩ := hl.turn hspare e.pktin
  have hrecv := scpRecvFiledata_eq h (min 32768 (actSize announced - t.received))
  obtain ⟨evs, hrun, hset⟩ := h.run
  rcases h.reply with ⟨hret, hans⟩ | ⟨k, reply, hno, hans, hself, hothers, ⟨hret, hwhy⟩ | ⟨hret, hne, hgap⟩⟩
  · -- no read is answered
    rw [hret, if_pos (by decide)] at hrecv
    refine .inl ⟨h.sound_stray hans, _, receive_failed hrecv (by decide),
      h.lost hl ⟨_, hrun⟩ rfl rfl rfl (.stray ?_)⟩
    show intMin ∈ s2.results
    rw [h.results, hret]
    exact List.mem_append_right _ List.mem_cons_self
  · -- an error, or data after a short block
    rw [hret, if_pos (by decide)] at hrecv
    refine .inl ⟨(h.sound hp hans).mpr (hwhy.imp id .inl), _, receive_failed hrecv (by decide),
      h.lost hl ⟨_, hrun⟩ rfl rfl rfl ?_⟩
    rcases hwhy with rfl | hg
    · exact .error k hself
    · exact .gap hg
  · subst hret
    rw [if_neg (by decide)] at hrecv
    have hsound : Sound announced t e ↔ _ := h.sound hp hans
    by_cases hk : k = Sftp.released t.sftp
    · subst hk
      obtain ⟨rr, s3, hdata, hlen, hbuf, hserver, hres, hf, hs, herr, hrel, hrun3⟩ := h.first hspare hself hne
      rw [hdata] at hrecv
      dsimp only at hrecv
      by_cases hends : Ends reply
      · -- the end of the file
        have hret : rr.retlen ≤ 0 := by
          rw [hlen, bytesOf_ends hends]
          exact Int.le_refl 0
        rw [if_pos hret] at hrecv
        by_cases hann : announced = none
        · refine .inr ⟨fun hS => ?_, fun t' ht' => ?_⟩
          · rcases hsound.mp hS with h1 | h1 | h1
            · exact hne h1
            · exact hgap h1
            · exact h1.2.1 hends hann
          · rw [receive_failed hrecv (by decide)] at ht'
            cases ht'
            exact h.not_excused hl hserver hres hgap fun hsome => absurd hann hsome
        · refine .inl ⟨hsound.mpr (.inr (.inr ⟨rfl, fun _ => hann, ?_⟩)), _, receive_failed hrecv (by decide),
            h.lost hl (hrun3.imp fun _ => And.left) hserver hf hs ?_⟩
          · rw [bytesOf_ends hends]
            exact Nat.zero_le _
          · refine .short (Sftp.released t.sftp) reply hann (hl.whole.congr ?_ ?_) ?_ hends fun hw => ?_
            · intro j hj
              show s3.server.answer j = _
              rw [hserver, h.before hl hj]
            · show _ ≤ s3.server.sent.length
              rw [hserver]
              exact h.sent
            · show s3.server.answer _ = _
              rw [hserver]
              exact hself
            · show t.file = bytesUpTo s3.server _
              rw [hl.file hw]
              exact (bytesUpTo_congr fun j hj => by rw [hserver, h.before hl hj]).symm
      · obtain ⟨bytes, rfl, hbytes⟩ := not_ends hne hends
        have hpos : 0 < bytes.length := List.length_pos_of_ne_nil hbytes
        have hmax : bytes.length ≤ 32768 := hrun.inv.bounds.fits _ _ hself
        have hlen' : rr.retlen = bytes.length := hlen
        have hbuf' : rr.buffer.take rr.retlen.toNat = bytes := hbuf
        rw [if_neg (by omega)] at hrecv
        by_cases hfit : bytes.length ≤ actSize announced - t.received
        · rw [if_neg (by omega)] at hrecv
          refine .inl ⟨hsound.mpr (.inr (.inr ⟨rfl, fun he => absurd he hends, hfit⟩)), ?_⟩
          have hnat : rr.retlen.toNat = bytes.length := by omega
          rw [receive, hrecv, Option.map_some]
          dsimp only
          rw [if_neg (by omega), hnat]
          have hlen0 := hl.length
          by_cases hw : t.wrerror = true
          · rw [if_pos hw]
            exact ⟨_, rfl, again_spec hspare (h.loaded hl hself hbytes hfit hserver hres hf hs hrel hrun3 hothers rfl rfl
              (Nat.le_trans hlen0 (Nat.le_add_right _ _)) fun hw' => absurd (hw.symm.trans hw') (by decide)) hp⟩
          · rw [if_neg hw]
            by_cases hwrote : e.wrote = true
            · rw [if_pos hwrote]
              rw [hnat] at hbuf'
              refine ⟨_, rfl, again_spec hspare (h.loaded hl hself hbytes hfit hserver hres hf hs hrel hrun3 hothers rfl rfl
                ?_ fun hw' => ⟨hw', ?_⟩) hp⟩
              · show (t.file ++ rr.buffer.take bytes.length).length ≤ _
                rw [hbuf', List.length_append]
                exact Nat.add_le_add_right hlen0 _
              · show t.file ++ rr.buffer.take bytes.length = _
                rw [hbuf']
            · rw [if_neg hwrote]
              exact ⟨_, rfl, again_spec hspare (h.loaded hl hself hbytes hfit hserver hres hf hs hrel hrun3 hothers rfl rfl
                (Nat.le_trans hlen0 (Nat.le_add_right _ _)) fun hw' => Bool.noConfusion hw') hp⟩
        · -- a block beyond the size
          refine .inr ⟨fun hS => ?_, fun t' ht' => ?_⟩
          · rcases hsound.mp hS with h1 | h1 | h1
            · exact hne h1
            · exact hgap h1
            · exact hfit h1.2.2
          · rw [if_pos (by omega)] at hrecv
            rw [receive, hrecv] at ht'
            cases ht'
    · -- a reply that comes early
      have hfirst : s2.server.answer (Sftp.released t.sftp) = none := by
        rw [hothers _ (Ne.symm hk)]
        cases ha : t.sftp.server.answer (Sftp.released t.sftp) with
        | none => rfl
        | some r => exact absurd (hl.answered _ (by rw [ha]; exact Option.some_ne_none _)) (Nat.lt_irrefl _)
      rw [h.early hfirst] at hrecv
      refine .inr ⟨fun hS => ?_, fun t' ht' => ?_⟩
      · rcases hsound.mp hS with h1 | h1 | h1
        · exact hne h1
        · exact hgap h1
        · exact hk h1.1
      · rw [receive_failed hrecv (by decide)] at ht'
        cases ht'
        exact h.not_excused hl rfl rfl hgap fun _ => hfirst

/-! ## The loop over what is still queued -/

/-- What a reply, and a block taken after it, leave of a transfer. -/
theorem Correct.kept {announced : Option UInt64} {t : St} {s : Sftp.St} (h : Correct announced t) (hp : t.phase = .finishing)
    (hkept : ∀ k r, t.sftp.server.answer k = some r → s.server.answer k = some r) (hsent : s.server.sent = t.sftp.server.sent) :
    (t.wrerror = false → ∃ n, Whole s.server n ∧ t.file = bytesUpTo s.server n) ∧
      (t.wrerror = false → t.file.length = actSize announced) := by
  refine ⟨fun hw => ?_, fun hw => h.done hw (.inl hp)⟩
  obtain ⟨n, hn, hfile⟩ := h.file hw
  have hsame : ∀ j < n, s.server.answer j = t.sftp.server.answer j := by
    intro j hj
    obtain ⟨bytes, hb, -⟩ := hn.data j hj
    rw [hb, hkept j _ hb]
  exact ⟨n, hn.congr hsame (Nat.le_of_eq (congrArg List.length hsent.symm)), by rw [hfile, bytesUpTo_congr hsame]⟩

theorem finish_spec {announced : Option UInt64} {t : St} (hspare : spare + 32 < 2 ^ 31) (hp : t.phase = .finishing)
    (hrun : ∃ evs, RunInv 0 fh spare evs t.sftp) (hsrc : Sources 0 t.sftp.server t.sftp.xfer) (h : Correct announced t)
    (pktin : Option SftpPacket) : ∃ t', finish t pktin = some t' ∧ Phased announced fh spare t' := by
  obtain ⟨evs, hr⟩ := hrun
  obtain ⟨ret, s1, hgot, hstep, -, hG⟩ := gotpkt_spec hr.inv hsrc pktin
  obtain ⟨s1', hs1', hr1⟩ := Sftp.step_inv hspare hr (.gotpkt pktin)
  rw [hstep] at hs1'
  cases hs1'
  obtain ⟨s2, hs2, hr2⟩ := Sftp.step_inv hspare hr1 .data
  obtain rfl : (data s1).2 = s2 := Option.some.inj hs2
  rw [finish, hgot, Option.map_some]
  refine ⟨_, rfl, ?_⟩
  dsimp only
  split
  · obtain ⟨hfile, hdone⟩ := h.kept hp hG.kept hG.sent
    exact .settled (fun h => by cases h) ⟨_, hr1⟩ hG.sources ⟨hfile, h.size, fun hw _ => hdone hw, fun h => by cases h⟩
  · obtain ⟨hfile, hdone⟩ := h.kept (s := (data s1).2) hp hG.kept hG.sent
    exact finishing_spec ⟨_, hr2⟩ (hG.sources.congr (fun _ => rfl) rfl rfl) hfile h.size hdone

/-! ## Whole runs -/

theorem start_spec {f : Fxp} (hf : Idle f) (fh : List UInt8) (announced : Option UInt64) :
    ∃ t0, start (actSize announced) f fh = some t0 ∧ Phased announced fh f.sftpRequests.list.length t0 := by
  have hi := beforeInit_inv hf fh 0
  have hr : RunInv 0 fh f.sftpRequests.list.length [] (beforeInit f fh 0) := by
    refine ⟨hi, ?_⟩
    simp [beforeInit, xferInit]
  obtain ⟨s, hs, hr1⟩ := Sftp.step_inv hf.room hr .queue
  have hs' : xferDownloadQueue (beforeInit f fh 0) = some s := hs
  have hasked := xferDownloadQueue_asked hs'
  have hrel : released s = 0 := hasked.released hi.queued
  have hno : ∀ k, s.server.answer k = none := fun k => hasked.answer k
  have hres : s.results = [] := hasked.results
  rw [start, hs', Option.map_some]
  refine ⟨_, rfl, again_spec hf.room ?_ rfl⟩
  refine ⟨⟨_, hr1⟩, (sources_init 0 f fh).congr hasked.answer hasked.furthestdata hasked.filesize, ?_, ?_, ?_, ?_, ?_, ?_,
    Nat.le_refl 0, ?_⟩
  · intro r hm
    rw [hres] at hm
    cases hm
  · rw [← Bool.not_eq_true, hr1.err, hres]
    simp
  · exact fun k hk => absurd (hno k) hk
  · intro k hk
    rw [hrel] at hk
    cases hk
  · rw [hrel]
    rfl
  · exact Nat.zero_le _
  · intro _
    rw [hrel]
    rfl

theorem step_spec {announced : Option UInt64} {t : St} (hspare : spare + 32 < 2 ^ 31) (h : Phased announced fh spare t) (e : Ev) :
    (Sound announced t e ∧ ∃ t', step (actSize announced) t e = some t' ∧ Phased announced fh spare t') ∨
      (¬ Sound announced t e ∧ ∀ t', step (actSize announced) t e = some t' → ¬ Correct announced t') := by
  cases h with
  | receiving hp h hlt =>
    rw [step, hp]
    exact receive_spec hspare hp h e
  | settled hp hrun hsrc h =>
    refine .inl ⟨fun hp' => absurd hp' hp, ?_⟩
    unfold step
    split
    · next hp' => exact absurd hp' hp
    · next hp' => exact finish_spec hspare hp' hrun hsrc h e.pktin
    · exact ⟨t, rfl, .settled hp hrun hsrc h⟩
    · exact ⟨t, rfl, .settled hp hrun hsrc h⟩

end Putty.Pscp.Transfer
