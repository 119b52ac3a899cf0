/-
  Putty.Sftp.Replies — a reply arrives (xfer_download_gotpkt).

  A packet that answers no request of the download leaves the transfer as it was; one that
  does completes its request, whatever its place in the queue (`gotpkt_cases`). What it
  does to the bookkeeping is one `Reaction`, from which the invariant follows
  (`gotpkt_inv`).
-/

import Putty.Sftp.Queue

namespace Putty.Sftp

open Putty.Lib Putty.Utils

/-! ## Taking a reply -/

/-- What the reply to `rr` does to the transfer. -/
structure Reaction (x x' : FxpXfer) (rr : Req) (reply : Reply) (ret : Int) : Prop where
  queue : ∃ rr', rr'.tag = rr.tag ∧ rr'.offset = rr.offset ∧ rr'.len = rr.len ∧ Status rr' (some reply) ∧
    x'.queue = x.queue.map fun r => if r.tag = rr.tag then rr' else r
  offset : x'.offset = x.offset
  total : x'.reqTotalsize = x.reqTotalsize
  max : x'.reqMaxsize = x.reqMaxsize
  fh : x'.fh = x.fh
  further : x.furthestdata ≤ x'.furthestdata
  smaller : x'.filesize ≤ x.filesize
  furthest : ∀ bytes, reply = .data bytes → bytes ≠ [] → rr.offset ≤ x'.furthestdata
  filesize : ∀ n, shortLen reply = some n → x'.filesize ≤ rr.offset + UInt64.ofNat n
  eof : x'.eof = true ↔ x.eof = true ∨ Ends reply
  err : x'.err = true ↔ x.err = true ∨ ret = -1
  fits : ∀ bytes, reply = .data bytes → bytes.length ≤ 32768
  checked : ret ≠ -1 → reply ≠ .error ∧ x'.furthestdata ≤ x'.filesize

/-- `furthestdata` and `filesize` after a reply of `retlen` bytes. -/
structure Measured (x x' : FxpXfer) (rr : Req) : Prop where
  further : x.furthestdata ≤ x'.furthestdata
  smaller : x'.filesize ≤ x.filesize
  furthest : 0 < rr.retlen → rr.offset ≤ x'.furthestdata
  filesize : rr.retlen < rr.len → x'.filesize ≤ rr.offset + UInt64.ofNat rr.retlen.toNat

/-- The bounds after an accepted reply, and what comes of them. -/
theorem accept_eq (f : Fxp) (x : FxpXfer) (rr : Req) (h0 : 0 ≤ rr.retlen) :
    ∃ fd fs, (fd = x.furthestdata ∨ 0 < rr.retlen ∧ fd = rr.offset) ∧
      (fs = x.filesize ∨ rr.retlen < rr.len ∧ fs = rr.offset + UInt64.ofNat rr.retlen.toNat) ∧
      (x.furthestdata ≤ fd ∧ (0 < rr.retlen → rr.offset ≤ fd)) ∧
      (fs ≤ x.filesize ∧ (rr.retlen < rr.len → fs ≤ rr.offset + UInt64.ofNat rr.retlen.toNat)) ∧
      accept f x rr =
        if fd > fs then
          (-1, fxpInternalError f "received a short buffer from FXP_READ, but not at EOF",
            { setReq x { rr with complete := 1 } with furthestdata := fd, filesize := fs, err := true })
        else (1, f, { setReq x { rr with complete := 1 } with furthestdata := fd, filesize := fs }) := by
  have hneg : ¬ rr.retlen < 0 := by omega
  let fd := if rr.retlen > 0 ∧ x.furthestdata < rr.offset then rr.offset else x.furthestdata
  let fs := if rr.retlen < rr.len ∧ x.filesize > rr.offset + UInt64.ofNat rr.retlen.toNat then
    rr.offset + UInt64.ofNat rr.retlen.toNat else x.filesize
  refine ⟨fd, fs, ?_, ?_, ?_, ?_, ?_⟩
  · dsimp only [fd]
    split
    · next h => exact .inr ⟨h.1, rfl⟩
    · exact .inl rfl
  · dsimp only [fs]
    split
    · next h => exact .inr ⟨h.1, rfl⟩
    · exact .inl rfl
  · dsimp only [fd]
    split
    · next h => exact ⟨UInt64.le_of_lt h.2, fun _ => UInt64.le_refl _⟩
    · next h => exact ⟨UInt64.le_refl _, fun hp => UInt64.not_lt.mp fun hl => h ⟨hp, hl⟩⟩
  · dsimp only [fs]
    split
    · next h => exact ⟨UInt64.le_of_lt h.2, fun _ => UInt64.le_refl _⟩
    · next h => exact ⟨UInt64.le_refl _, fun hp => UInt64.not_lt.mp fun hl => h ⟨hp, hl⟩⟩
  · unfold accept
    by_cases h1 : rr.retlen > 0 ∧ x.furthestdata < rr.offset
    · by_cases h2 : rr.retlen < rr.len
      · by_cases h3 : x.filesize > rr.offset + UInt64.ofNat rr.retlen.toNat
        · simp [h1, h2, h3, hneg, setReq, xferSetError, fd, fs]
        · simp [h1, h2, h3, hneg, setReq, xferSetError, fd, fs]
      · simp [h1, h2, setReq, xferSetError, fd, fs]
    · by_cases h2 : rr.retlen < rr.len
      · by_cases h3 : x.filesize > rr.offset + UInt64.ofNat rr.retlen.toNat
        · simp [h1, h2, h3, hneg, setReq, xferSetError, fd, fs]
        · simp [h1, h2, h3, hneg, setReq, xferSetError, fd, fs]
      · simp [h1, h2, setReq, xferSetError, fd, fs]

theorem accept_spec (f : Fxp) (x : FxpXfer) (rr : Req) (h0 : 0 ≤ rr.retlen) :
    (accept f x rr).2.1.sftpRequests = f.sftpRequests ∧
      (∃ fd fs e, (accept f x rr).2.2 =
        { setReq x { rr with complete := 1 } with furthestdata := fd, filesize := fs, err := e }) ∧
      Measured x (accept f x rr).2.2 rr ∧
      ((accept f x rr).1 = -1 ∧ (accept f x rr).2.2.err = true ∨
        (accept f x rr).1 = 1 ∧ (accept f x rr).2.2.err = x.err ∧
          (accept f x rr).2.2.furthestdata ≤ (accept f x rr).2.2.filesize) := by
  obtain ⟨fd, fs, -, -, hfd, hfs, hx⟩ := accept_eq f x rr h0
  rw [hx]
  split
  · exact ⟨rfl, ⟨_, _, _, rfl⟩, ⟨hfd.1, hfs.1, hfd.2, hfs.2⟩, .inl ⟨rfl, rfl⟩⟩
  · next hle => exact ⟨rfl, ⟨_, _, _, rfl⟩, ⟨hfd.1, hfs.1, hfd.2, hfs.2⟩, .inr ⟨rfl, rfl, UInt64.not_lt.mp hle⟩⟩

/-- A reply that is accepted: data, or the end of the file. -/
theorem reaction_of_accept {f : Fxp} {x : FxpXfer} {rr rr0 : Req} {reply : Reply} (eof : Bool) (h0 : 0 ≤ rr.retlen)
    (htag : rr.tag = rr0.tag) (hoff : rr.offset = rr0.offset) (hlen : rr.len = rr0.len)
    (hstatus : Status { rr with complete := 1 } (some reply))
    (hdata : ∀ bytes, reply = .data bytes → bytes ≠ [] → 0 < rr.retlen)
    (hshort : ∀ n, shortLen reply = some n → rr.retlen < rr.len ∧ rr.retlen.toNat = n)
    (hfits : ∀ bytes, reply = .data bytes → bytes.length ≤ 32768) (herr : reply ≠ .error)
    (heof : eof = true ↔ x.eof = true ∨ Ends reply) :
    (accept f { x with eof := eof } rr).2.1.sftpRequests = f.sftpRequests ∧
      Reaction x (accept f { x with eof := eof } rr).2.2 rr0 reply (accept f { x with eof := eof } rr).1 := by
  obtain ⟨hreq, hshape, hm, hret⟩ := accept_spec f { x with eof := eof } rr h0
  obtain ⟨fd, fs, e, hx'⟩ := hshape
  refine ⟨hreq, ?_⟩
  generalize accept f { x with eof := eof } rr = res at hm hret hx'
  obtain ⟨ret, f', x'⟩ := res
  dsimp only at hm hret hx' ⊢
  have hqueue : x'.queue = x.queue.map fun r => if r.tag = rr0.tag then { rr with complete := 1 } else r := by
    rw [hx', ← htag]
    rfl
  refine { queue := ⟨{ rr with complete := 1 }, htag, hoff, hlen, hstatus, hqueue⟩, offset := by rw [hx']; rfl, total := by rw [hx']; rfl,
           max := by rw [hx']; rfl, fh := by rw [hx']; rfl, further := hm.further, smaller := hm.smaller,
           furthest := ?_, filesize := ?_, eof := ?_, err := ?_, fits := hfits, checked := ?_ }
  · intro bytes hb hne
    exact hoff ▸ hm.furthest (hdata bytes hb hne)
  · intro n hn
    obtain ⟨hlt, rfl⟩ := hshort n hn
    exact hoff ▸ hm.filesize hlt
  · have : x'.eof = eof := by rw [hx']; rfl
    rw [this]
    exact heof
  · rcases hret with ⟨h1, h2⟩ | ⟨h1, h2, -⟩
    · simp [h1, h2]
    · simp [h1, h2]
  · intro he
    rcases hret with ⟨h1, -⟩ | ⟨-, -, h3⟩
    · exact absurd h1 he
    · exact ⟨herr, h3⟩

theorem takeReply_spec (f : Fxp) (x : FxpXfer) {rr : Req} (hlen : rr.len = 32768) (pktin : SftpPacket) :
    (takeReply f x rr pktin).2.1.sftpRequests = f.sftpRequests ∧
      Reaction x (takeReply f x rr pktin).2.2 rr (replyIn pktin 32768) (takeReply f x rr pktin).1 := by
  unfold takeReply
  dsimp only
  cases hr : replyIn pktin rr.len with
  | data bytes =>
    obtain ⟨hgot, hle⟩ := fxpReadRecv_data (f := f) hr
    rw [hlen] at hr
    rw [hgot, hr]
    dsimp only
    by_cases hempty : bytes = []
    · subst hempty
      rw [if_pos (.inr rfl)]
      refine reaction_of_accept true (Int.le_refl 0) rfl rfl rfl ⟨rfl, rfl, rfl⟩ ?_ ?_ ?_ (by simp) (by simp [Ends])
      · intro b hb hne
        cases hb
        exact absurd rfl hne
      · intro n hn
        cases hn
        exact ⟨by dsimp only; omega, rfl⟩
      · intro b hb
        cases hb
        exact Nat.zero_le _
    · have hpos : 0 < bytes.length := List.length_pos_of_ne_nil hempty
      rw [if_neg (by omega), if_neg (by omega)]
      refine reaction_of_accept x.eof (Int.natCast_nonneg _) rfl rfl rfl ⟨rfl, rfl, by simp⟩ ?_ ?_ ?_ (by simp)
        (by simp [Ends, hempty])
      · intro b hb hne
        exact Int.natCast_pos.mpr hpos
      · intro n hn
        rw [shortLen] at hn
        split at hn
        · cases hn
          exact ⟨by dsimp only; omega, rfl⟩
        · cases hn
      · intro b hb
        cases hb
        exact hlen ▸ hle
  | eof =>
    obtain ⟨hret, hty⟩ := fxpReadRecv_eof (f := f) hr
    have hreq := fxpReadRecv_requests f pktin rr.len
    rw [hlen] at hr
    rw [hr, if_pos (.inl ⟨by rw [hret]; decide, hty⟩), ← hreq]
    refine reaction_of_accept true (Int.le_refl 0) rfl rfl rfl ⟨rfl, rfl⟩ ?_ ?_ ?_ (by simp) (by simp [Ends])
    · intro b hb
      cases hb
    · intro n hn
      cases hn
      exact ⟨by dsimp only; omega, rfl⟩
    · intro b hb
      cases hb
  | error =>
    obtain ⟨hret, hty⟩ := fxpReadRecv_error (f := f) hr
    have hreq := fxpReadRecv_requests f pktin rr.len
    rw [hlen] at hr
    rw [hr, hret, if_neg (by
      intro h
      rcases h with ⟨-, h⟩ | h
      · exact hty h
      · cases h), if_pos (by decide)]
    refine ⟨hreq, { queue := ⟨{ rr with retlen := -1, complete := -1, buffer := _ }, rfl, rfl, rfl, rfl, rfl⟩, offset := rfl,
                    total := rfl, max := rfl, fh := rfl, further := UInt64.le_refl _, smaller := UInt64.le_refl _,
                    furthest := ?_, filesize := ?_, eof := by simp [xferSetError, setReq, Ends],
                    err := by simp [xferSetError], fits := ?_, checked := ?_ }⟩
    · intro b hb
      cases hb
    · intro n hn
      cases hn
    · intro b hb
      cases hb
    · intro he
      exact absurd rfl he

/-- Where the bounds after a reply are from, and why an error is reported. -/
structure Tight (x x' : FxpXfer) (rr : Req) (reply : Reply) (ret : Int) : Prop where
  furthest : x'.furthestdata = x.furthestdata ∨ ∃ bytes, reply = .data bytes ∧ bytes ≠ [] ∧ x'.furthestdata = rr.offset
  filesize : x'.filesize = x.filesize ∨ ∃ n, shortLen reply = some n ∧ x'.filesize = rr.offset + UInt64.ofNat n
  ret : ret = -1 ∧ (reply = .error ∨ x'.filesize < x'.furthestdata) ∨ ret = 1

theorem tight_of_accept {f : Fxp} {x : FxpXfer} {rr rr0 : Req} {reply : Reply} (eof : Bool) (h0 : 0 ≤ rr.retlen)
    (hoff : rr.offset = rr0.offset) (hdata : 0 < rr.retlen → ∃ bytes, reply = .data bytes ∧ bytes ≠ [])
    (hshort : rr.retlen < rr.len → shortLen reply = some rr.retlen.toNat) :
    Tight x (accept f { x with eof := eof } rr).2.2 rr0 reply (accept f { x with eof := eof } rr).1 := by
  obtain ⟨fd, fs, hfd, hfs, -, -, hx⟩ := accept_eq f { x with eof := eof } rr h0
  have h1 : fd = x.furthestdata ∨ ∃ bytes, reply = .data bytes ∧ bytes ≠ [] ∧ fd = rr0.offset := by
    rcases hfd with h | ⟨hpos, h⟩
    · exact .inl h
    · obtain ⟨bytes, hb, hne⟩ := hdata hpos
      exact .inr ⟨bytes, hb, hne, h.trans hoff⟩
  have h2 : fs = x.filesize ∨ ∃ n, shortLen reply = some n ∧ fs = rr0.offset + UInt64.ofNat n := by
    rcases hfs with h | ⟨hlt, h⟩
    · exact .inl h
    · exact .inr ⟨_, hshort hlt, h.trans (by rw [hoff])⟩
  rw [hx]
  split
  · next hgt => exact ⟨h1, h2, .inl ⟨rfl, .inr hgt⟩⟩
  · exact ⟨h1, h2, .inr rfl⟩

theorem takeReply_tight (f : Fxp) (x : FxpXfer) {rr : Req} (hlen : rr.len = 32768) (pktin : SftpPacket) :
    Tight x (takeReply f x rr pktin).2.2 rr (replyIn pktin 32768) (takeReply f x rr pktin).1 := by
  unfold takeReply
  dsimp only
  cases hr : replyIn pktin rr.len with
  | data bytes =>
    obtain ⟨hgot, hle⟩ := fxpReadRecv_data (f := f) hr
    rw [hlen] at hr
    rw [hgot, hr]
    dsimp only
    by_cases hempty : bytes = []
    · subst hempty
      rw [if_pos (.inr rfl)]
      exact tight_of_accept true (Int.le_refl 0) rfl (fun hpos => absurd hpos (Int.lt_irrefl 0)) fun _ => rfl
    · have hpos : 0 < bytes.length := List.length_pos_of_ne_nil hempty
      rw [if_neg (by omega), if_neg (by omega)]
      refine tight_of_accept x.eof (Int.natCast_nonneg _) rfl (fun _ => ⟨bytes, rfl, hempty⟩) fun hlt => ?_
      rw [shortLen, if_pos (by dsimp only at hlt; omega)]
      rfl
  | eof =>
    obtain ⟨hret, hty⟩ := fxpReadRecv_eof (f := f) hr
    rw [hlen] at hr
    rw [hr, if_pos (.inl ⟨by rw [hret]; decide, hty⟩)]
    exact tight_of_accept true (Int.le_refl 0) rfl (fun hpos => absurd hpos (Int.lt_irrefl 0)) fun _ => rfl
  | error =>
    obtain ⟨hret, hty⟩ := fxpReadRecv_error (f := f) hr
    rw [hlen] at hr
    rw [hr, hret, if_neg (by
      intro h
      rcases h with ⟨-, h⟩ | h
      · exact hty h
      · cases h), if_pos (by decide)]
    exact ⟨.inl rfl, .inl rfl, .inl ⟨rfl, .inl rfl⟩⟩

/-- The other end after the reply to an outstanding request. -/
def Server.answered (v : Server) (x : UInt32 × Nat) (reply : Reply) : Server :=
  { v with outstanding := v.outstanding.erase x, answers := (x.2, reply) :: v.answers }

theorem answer_answered (v : Server) (x : UInt32 × Nat) (reply : Reply) (k : Nat) :
    (v.answered x reply).answer k = if k = x.2 then some reply else v.answer k := by
  simp only [Server.answer, Server.answered, List.lookup_cons]
  by_cases h : k = x.2
  · simp [h]
  · simp [h, beq_false_of_ne h]

/-- An answer is never replaced. -/
theorem answer_kept {v : Server} (hw : Wire v) {x : UInt32 × Nat} (hx : x ∈ v.outstanding) (reply : Reply) {k : Nat}
    (h : v.answer k ≠ none) : (v.answered x reply).answer k = v.answer k := by
  rw [answer_answered, if_neg]
  intro hk
  exact h (hk ▸ ((hw.outstanding x.2).mp (List.mem_map_of_mem hx)).2)

theorem Wire.answered_inv {v : Server} (hw : Wire v) {x : UInt32 × Nat} (hx : x ∈ v.outstanding) (reply : Reply) :
    Wire (v.answered x reply) := by
  have hnd : v.outstanding.Nodup := List.Nodup.of_map _ hw.nodup
  refine ⟨hw.nodup.sublist (List.erase_sublist.map _), fun k => ?_, fun k hk => ?_⟩
  · rw [answer_answered]
    simp only [Server.answered, List.mem_map, List.Nodup.mem_erase_iff hnd]
    constructor
    · intro ⟨y, ⟨hne, hy⟩, hk⟩
      have hkx : k ≠ x.2 := fun h => hne (List.inj_on_of_nodup_map hw.nodup hy hx (hk.trans h))
      rw [if_neg hkx]
      exact (hw.outstanding k).mp (List.mem_map.mpr ⟨y, hy, hk⟩)
    · intro ⟨hlt, hnone⟩
      have hkx : k ≠ x.2 := by
        intro h
        rw [if_pos h] at hnone
        cases hnone
      rw [if_neg hkx] at hnone
      obtain ⟨y, hy, hk⟩ := List.mem_map.mp ((hw.outstanding k).mpr ⟨hlt, hnone⟩)
      exact ⟨y, ⟨fun h => hkx (by rw [← hk, h]), hy⟩, hk⟩
  · rw [answer_answered] at hk
    split at hk
    · next h => exact h ▸ ((hw.outstanding x.2).mp (List.mem_map_of_mem hx)).1
    · exact hw.answered k hk

theorem Table.answered_inv {t : Requests} {v : Server} {spare : Nat} (ht : Table t v spare) {r : SftpRequest} {k : Nat}
    (hr : r ∈ t.list) (hk : r.userdata = some k) (hnd : v.outstanding.Nodup) (reply : Reply) :
    Table (t.del r.id) (v.answered (r.id, k) reply) spare := by
  have hmem : (r.id, k) ∈ v.outstanding := (ht.outstanding r.id k).mpr ⟨r, hr, rfl, hk⟩
  refine ⟨fun a ha => ht.ids a (Requests.mem_del.mp ha).1, fun a ha => ht.registered a (Requests.mem_del.mp ha).1,
    fun i j => ?_, ?_⟩
  · simp only [Server.answered, List.Nodup.mem_erase_iff hnd, ht.outstanding i j, Requests.mem_del]
    constructor
    · intro ⟨hne, a, ha, hi, hj⟩
      refine ⟨a, ⟨ha, fun h => hne ?_⟩, hi, hj⟩
      have har := Requests.eq_of_id ha hr h
      rw [har] at hi hj
      rw [hk] at hj
      cases hj
      rw [hi]
    · intro ⟨a, ⟨ha, hne⟩, hi, hj⟩
      refine ⟨fun h => ?_, a, ha, hi, hj⟩
      cases h
      exact hne hi
  · have h1 := Requests.length_del hr
    have h2 := List.length_erase_of_mem hmem
    have h3 := List.length_pos_of_mem hmem
    have h4 := ht.room
    simp only [Server.answered]
    omega

/-- A request that is not of this download leaves the tree. -/
theorem Table.other_inv {t : Requests} {v : Server} {spare : Nat} (ht : Table t v spare) {r : SftpRequest}
    (hr : r ∈ t.list) (hk : r.userdata = none) : Table (t.del r.id) v spare := by
  refine ⟨fun a ha => ht.ids a (Requests.mem_del.mp ha).1, fun a ha => ht.registered a (Requests.mem_del.mp ha).1,
    fun i j => ?_, ?_⟩
  · simp only [ht.outstanding i j, Requests.mem_del]
    constructor
    · intro ⟨a, ha, hi, hj⟩
      refine ⟨a, ⟨ha, fun h => ?_⟩, hi, hj⟩
      rw [Requests.eq_of_id ha hr h, hk] at hj
      cases hj
    · intro ⟨a, ⟨ha, _⟩, hi, hj⟩
      exact ⟨a, ha, hi, hj⟩
  · have h1 := Requests.length_del hr
    have h4 := ht.room
    omega

theorem Queued.answered_inv {start : UInt64} {s : St} (hq : Queued start s) (hw : Wire s.server) {x : UInt32 × Nat}
    (hx : x ∈ s.server.outstanding) {rr : Req} (hrr : rr ∈ s.xfer.queue) (htag : rr.tag = x.2) {reply : Reply} {ret : Int}
    {x' : FxpXfer} (h : Reaction s.xfer x' rr reply ret) (f' : Fxp) (results : List Int) :
    Queued start { s with fxp := f', xfer := x', server := s.server.answered x reply, results := results } := by
  obtain ⟨rr', ht, ho, hl, hst, hqueue⟩ := h.queue
  have hlen : x'.queue.length = s.xfer.queue.length := by rw [hqueue, List.length_map]
  refine ⟨?_, ?_, ?_, ?_, ?_⟩
  · dsimp only
    rw [hlen]
    exact hq.le
  · have htags : x'.queue.map (·.tag) = s.xfer.queue.map (·.tag) := by
      rw [hqueue, List.map_map]
      apply List.map_congr_left
      intro r _
      dsimp only [Function.comp]
      split
      · next h => rw [ht, h]
      · rfl
    dsimp only
    rw [htags, hlen]
    exact hq.tags
  · intro r hr
    dsimp only at hr
    rw [hqueue] at hr
    obtain ⟨r0, hr0, rfl⟩ := List.mem_map.mp hr
    have hentry := hq.entry r0 hr0
    split
    · refine ⟨?_, ?_, ?_⟩
      · rw [ho, ht]
        exact (hq.entry rr hrr).offset
      · rw [hl]
        exact (hq.entry rr hrr).len
      · rw [answer_answered, if_pos (by rw [ht, htag])]
        exact hst
    · next hne =>
      refine ⟨hentry.offset, hentry.len, ?_⟩
      rw [answer_answered, if_neg fun h => hne (h.trans htag.symm)]
      exact hentry.status
  · intro k hk
    dsimp only at hk ⊢
    rw [hlen] at hk
    have hans := hq.before k hk
    rw [answer_kept hw hx reply hans]
    exact hans
  · dsimp only
    rw [hlen, hq.returned]
    apply List.filterMap_congr
    intro k hk
    rw [answer_kept hw hx reply (hq.before k (List.mem_range.mp hk))]

theorem Bounds.answered_inv {start : UInt64} {v : Server} {x x' : FxpXfer} (hb : Bounds start v x) (hw : Wire v)
    {y : UInt32 × Nat} (hy : y ∈ v.outstanding) {rr : Req} (hoff : rr.offset = offsetOf start y.2) {reply : Reply} {ret : Int}
    (h : Reaction x x' rr reply ret) : Bounds start (v.answered y reply) x' := by
  have hold : ∀ k r, (v.answered y reply).answer k = some r → k = y.2 ∧ r = reply ∨ v.answer k = some r := by
    intro k r hk
    rw [answer_answered] at hk
    split at hk
    · next h => exact .inl ⟨h, (Option.some.inj hk).symm⟩
    · exact .inr hk
  have hnew : (v.answered y reply).answer y.2 = some reply := by rw [answer_answered, if_pos rfl]
  refine ⟨?_, ?_, ?_, ?_⟩
  · intro k bytes hk hne
    rcases hold k _ hk with ⟨rfl, hr⟩ | hk
    · exact hoff ▸ h.furthest bytes hr.symm hne
    · exact UInt64.le_trans (hb.furthest k bytes hk hne) h.further
  · intro k r n hk hn
    rcases hold k r hk with ⟨rfl, rfl⟩ | hk
    · exact hoff ▸ h.filesize n hn
    · exact UInt64.le_trans h.smaller (hb.filesize k r n hk hn)
  · rw [h.eof, hb.eof]
    constructor
    · intro hor
      rcases hor with ⟨k, r, hk, hr⟩ | hr
      · exact ⟨k, r, by rw [answer_kept hw hy reply (by rw [hk]; exact Option.some_ne_none _), hk], hr⟩
      · exact ⟨y.2, reply, hnew, hr⟩
    · intro ⟨k, r, hk, hr⟩
      rcases hold k r hk with ⟨rfl, rfl⟩ | hk
      · exact .inr hr
      · exact .inl ⟨k, r, hk, hr⟩
  · intro k bytes hk
    rcases hold k _ hk with ⟨-, hr⟩ | hk
    · exact h.fits bytes hr.symm
    · exact hb.fits k bytes hk

/-- Without an error so far, this reply is none and leaves no data behind a short one. -/
theorem unreported_answered {v : Server} {x x' : FxpXfer} {results : List Int} {y : UInt32 × Nat} {rr : Req} {reply : Reply}
    {ret : Int} (hu : -1 ∉ results → (∀ k, v.answer k ≠ some .error) ∧ x.furthestdata ≤ x.filesize)
    (h : Reaction x x' rr reply ret) (hno : -1 ∉ results ++ [ret]) :
    (∀ k, (v.answered y reply).answer k ≠ some .error) ∧ x'.furthestdata ≤ x'.filesize := by
  rw [List.mem_append, List.mem_singleton, not_or] at hno
  obtain ⟨hne, hle⟩ := h.checked fun hr => hno.2 hr.symm
  refine ⟨fun k => ?_, hle⟩
  rw [answer_answered]
  split
  · intro hr
    exact hne (Option.some.inj hr)
  · exact (hu hno.1).1 k

/-- Either the packet answers no request of the download, and the transfer is as it was,
    or it answers one that was outstanding. -/
theorem gotpkt_cases {start : UInt64} {fh : List UInt8} {spare : Nat} {s : St} (hi : Inv start fh spare s)
    (pktin : Option SftpPacket) :
    (∃ f', xferDownloadGotpkt s.fxp s.xfer pktin = some (intMin, f', s.xfer) ∧ s.server.reply pktin = s.server ∧
        Table f'.sftpRequests s.server spare) ∨
      ∃ r k rr reply f' ret x', r ∈ s.fxp.sftpRequests.list ∧ r.userdata = some k ∧ rr ∈ s.xfer.queue ∧ rr.tag = k ∧
        xferDownloadGotpkt s.fxp s.xfer pktin = some (ret, f', x') ∧ s.server.reply pktin = s.server.answered (r.id, k) reply ∧
        f'.sftpRequests = s.fxp.sftpRequests.del r.id ∧ Reaction s.xfer x' rr reply ret ∧ Tight s.xfer x' rr reply ret := by
  cases pktin with
  | none => exact .inl ⟨_, rfl, rfl, hi.table⟩
  | some p =>
    unfold xferDownloadGotpkt sftpFindRequest Server.reply
    dsimp only
    by_cases herr : p.src.getUint32.2.err = true
    · rw [if_pos herr, if_pos herr]
      exact .inl ⟨_, rfl, rfl, hi.table⟩
    rw [if_neg herr, if_neg herr]
    have hunknown : (∀ r ∈ s.fxp.sftpRequests.list, r.id = p.src.getUint32.1 → r.userdata = none) →
        s.server.outstanding.find? (fun x => x.1 == p.src.getUint32.1) = none := by
      intro h
      rw [List.find?_eq_none]
      intro x hx hid
      obtain ⟨r, hr, hri, hru⟩ := (hi.table.outstanding x.1 x.2).mp hx
      rw [h r hr (hri.trans (by simpa using hid))] at hru
      cases hru
    cases hf : s.fxp.sftpRequests.find p.src.getUint32.1 with
    | none =>
      have hno := Requests.find_eq_none.mp hf
      rw [hunknown fun r hr h => absurd h (hno r hr)]
      exact .inl ⟨_, rfl, rfl, hi.table⟩
    | some r =>
      have hr : r ∈ s.fxp.sftpRequests.list := List.mem_of_find?_eq_some hf
      have hid : r.id = p.src.getUint32.1 := by simpa using List.find?_some hf
      have honly : ∀ a ∈ s.fxp.sftpRequests.list, a.id = p.src.getUint32.1 → a = r := fun a ha h =>
        Requests.eq_of_id ha hr (h.trans hid.symm)
      dsimp only
      cases hu : r.userdata with
      | none =>
        rw [hunknown fun a ha h => (honly a ha h) ▸ hu]
        left
        by_cases hreg : r.registered = true
        · rw [if_pos hreg]
          dsimp only
          rw [hu]
          refine ⟨_, rfl, rfl, ?_⟩
          dsimp only [fxpInternalError]
          rw [← hid]
          exact hi.table.other_inv hr hu
        · rw [if_neg hreg]
          exact ⟨_, rfl, rfl, hi.table⟩
      | some k =>
        right
        have hmem : (r.id, k) ∈ s.server.outstanding := (hi.table.outstanding r.id k).mpr ⟨r, hr, rfl, hu⟩
        obtain ⟨hlt, hnone⟩ := (hi.wire.outstanding k).mp (List.mem_map_of_mem hmem)
        have hfind : s.server.outstanding.find? (fun x => x.1 == p.src.getUint32.1) = some (r.id, k) := by
          cases hx : s.server.outstanding.find? (fun x => x.1 == p.src.getUint32.1) with
          | none => exact absurd (List.find?_eq_none.mp hx _ hmem) (by simp [hid])
          | some x =>
            have hxid : x.1 = p.src.getUint32.1 := by simpa using List.find?_some hx
            obtain ⟨a, ha, hai, hau⟩ := (hi.table.outstanding x.1 x.2).mp (List.mem_of_find?_eq_some hx)
            rw [honly a ha (hai.trans hxid), hu] at hau
            rw [← hid] at hxid
            cases hau
            rw [← hxid]
        have hlen : (s.server.sent[k]?.map ReadPacket.len).getD 0 = 32768 := by
          rw [List.getElem?_eq_getElem hlt]
          exact (hi.sent k _ (List.getElem?_eq_getElem hlt)).2.2
        have htag : k ∈ s.xfer.queue.map (·.tag) := by
          have hle := hi.queued.le
          rw [hi.queued.tags, List.mem_range'_1]
          refine ⟨?_, by omega⟩
          by_contra hlow
          exact hi.queued.before k (by omega) hnone
        obtain ⟨r0, hr0, hr0k⟩ := List.mem_map.mp htag
        obtain ⟨rr, hrr⟩ := Option.isSome_iff_exists.mp (List.find?_isSome.mpr ⟨r0, hr0, by simpa using hr0k⟩ :
          (s.xfer.queue.find? fun r => r.tag == k).isSome = true)
        have hrrq := List.mem_of_find?_eq_some hrr
        have hrrk : rr.tag = k := by simpa using List.find?_some hrr
        obtain ⟨hreq, hreact⟩ := takeReply_spec { s.fxp with sftpRequests := s.fxp.sftpRequests.del p.src.getUint32.1 }
          s.xfer (hi.queued.entry rr hrrq).len { p with src := p.src.getUint32.2 }
        have htight := takeReply_tight { s.fxp with sftpRequests := s.fxp.sftpRequests.del p.src.getUint32.1 }
          s.xfer (hi.queued.entry rr hrrq).len { p with src := p.src.getUint32.2 }
        rw [if_pos (hi.table.registered r hr (by rw [hu]; exact Option.some_ne_none _))]
        dsimp only
        rw [hu, hfind]
        dsimp only
        rw [hrr, hlen]
        exact ⟨r, k, rr, _, _, _, _, hr, hu, hrrq, hrrk, rfl, by rw [hid]; rfl, hreq.trans (by rw [hid]), hreact, htight⟩

theorem gotpkt_inv {start : UInt64} {fh : List UInt8} {spare : Nat} {s : St} (hi : Inv start fh spare s)
    (pktin : Option SftpPacket) :
    ∃ s' ret, step s (.gotpkt pktin) = some s' ∧ Inv start fh spare s' ∧ s'.results = s.results ++ [ret] ∧
      (s'.xfer.err = true ↔ s.xfer.err = true ∨ ret = -1) := by
  rcases gotpkt_cases hi pktin with ⟨f', hg, hserver, htable⟩ | ⟨r, k, rr, reply, f', ret, x', hr, hu, hrr, htag, hg, hserver, hf, hreact, -⟩
  · refine ⟨_, intMin, by rw [step, hg]; rfl, ?_, rfl, by simp [intMin]⟩
    dsimp only
    rw [hserver]
    have hq := hi.queued
    exact { hi with
      table := htable
      queued := ⟨hq.le, hq.tags, hq.entry, hq.before, hq.returned⟩
      unreported := fun hno => hi.unreported fun h => hno (List.mem_append_left _ h) }
  · refine ⟨_, ret, by rw [step, hg]; rfl, ?_, rfl, hreact.err⟩
    have hmem : (r.id, k) ∈ s.server.outstanding := (hi.table.outstanding r.id k).mpr ⟨r, hr, rfl, hu⟩
    have hlen : x'.queue.length = s.xfer.queue.length := by
      obtain ⟨rr', -, -, -, -, hqueue⟩ := hreact.queue
      rw [hqueue, List.length_map]
    dsimp only
    rw [hserver]
    exact {
      wire := hi.wire.answered_inv hmem reply
      table := by
        dsimp only
        rw [hf]
        exact hi.table.answered_inv hr hu (List.Nodup.of_map _ hi.wire.nodup) reply
      sent := hi.sent
      fh := hreact.fh.trans hi.fh
      nextReq := hi.nextReq
      queued := hi.queued.answered_inv hi.wire hmem hrr htag hreact f' _
      offset := hreact.offset.trans hi.offset
      total := by
        dsimp only
        rw [hreact.total, hlen]
        exact hi.total
      max := hreact.max.trans hi.max
      few := by
        dsimp only
        rw [hlen]
        exact hi.few
      bounds := hi.bounds.answered_inv hi.wire hmem (by rw [(hi.queued.entry rr hrr).offset, htag]) hreact
      unreported := unreported_answered hi.unreported hreact }

end Putty.Sftp
