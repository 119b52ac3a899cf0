/-
  Putty.Sftp.Requests — the request ids of the SFTP client and the reply to a read
  (`sftp.c`, sftp_alloc_request, sftp_find_request, fxp_got_status, fxp_read_send and
  fxp_read_recv).

  The outstanding requests are a counted tree in the order of their ids; here they are
  the list of its elements, which is sorted by construction. An id is the lowest that is
  not in use: a binary search finds how far the ids from 256 on are all taken.

  Proved: the search ends, its assertion holds, and the id it gives is new
  (`sftpAllocRequest_spec`); a reply is data, the end of the file or an error, by its
  bytes alone (`fxpReadRecv_data`, `fxpReadRecv_eof`, `fxpReadRecv_error`).
-/

import Mathlib.Tactic.Ring
import Putty.Lib.Sorted
import Putty.Utils.BinarySource

namespace Putty.Sftp

open Putty.Lib Putty.Utils

def requestIdOffset : UInt32 := 256

structure SftpRequest where
  id : UInt32
  registered : Bool
  /-- The `struct req` it stands for, by the order they were allocated in. -/
  userdata : Option Nat
  deriving DecidableEq, Repr

def sftpReqcmp (a b : SftpRequest) : Int :=
  if a.id < b.id then -1
  else if a.id > b.id then 1
  else 0

/-- The elements of `sftp_requests`, in the tree's order. -/
structure Requests where
  list : List SftpRequest
  sorted : (list.map fun r => r.id.toNat).Pairwise (· < ·)
  deriving DecidableEq

namespace Requests

def empty : Requests := ⟨[], List.Pairwise.nil⟩

def find (t : Requests) (id : UInt32) : Option SftpRequest := t.list.find? fun r => r.id == id

theorem sorted_add {l : List SftpRequest} (h : (l.map fun r => r.id.toNat).Pairwise (· < ·)) (r : SftpRequest) :
    ((addSorted sftpReqcmp r l).2.map fun r => r.id.toNat).Pairwise (· < ·) := by
  have hlt : ∀ x, 0 < sftpReqcmp r x → x.id.toNat < r.id.toNat := by
    intro x hx
    unfold sftpReqcmp at hx
    split at hx
    · omega
    · split at hx
      · next hg => exact UInt32.lt_iff_toNat_lt.mp hg
      · omega
  rcases addSorted_cases sftpReqcmp r l with ⟨as, x, bs, rfl, -, -, he⟩ | ⟨as, bs, rfl, has, hbs, he⟩
  · rw [he]
    exact h
  · rw [he]
    rw [List.map_append, List.pairwise_append] at h
    obtain ⟨h1, h2, h3⟩ := h
    have hfirst : ∀ b ∈ bs, r.id.toNat < b.id.toNat := by
      cases bs with
      | nil => simp
      | cons b bs =>
        have hb : r.id.toNat < b.id.toNat := by
          have hb := hbs b rfl
          unfold sftpReqcmp at hb
          split at hb
          · next hl => exact UInt32.lt_iff_toNat_lt.mp hl
          · split at hb <;> omega
        intro c hc
        rcases List.mem_cons.mp hc with rfl | hc
        · exact hb
        · exact hb.trans ((List.pairwise_cons.mp h2).1 _ (List.mem_map_of_mem hc))
    rw [List.map_append, List.map_cons, List.pairwise_append, List.pairwise_cons]
    refine ⟨h1, ⟨?_, h2⟩, ?_⟩
    · intro n hn
      obtain ⟨b, hb, rfl⟩ := List.mem_map.mp hn
      exact hfirst b hb
    · intro n hn m hm
      obtain ⟨a, ha, rfl⟩ := List.mem_map.mp hn
      rcases List.mem_cons.mp hm with rfl | hm
      · exact hlt a (has a ha)
      · exact h3 _ hn _ hm

/-- add234. -/
def add (t : Requests) (r : SftpRequest) : Requests := ⟨(addSorted sftpReqcmp r t.list).2, sorted_add t.sorted r⟩

/-- del234. -/
def del (t : Requests) (id : UInt32) : Requests where
  list := t.list.filter fun r => r.id != id
  sorted := t.sorted.sublist ((List.filter_sublist).map _)

/-- A write to the fields of the element with this id. -/
def update (t : Requests) (id : UInt32) (registered : Bool) (userdata : Option Nat) : Requests where
  list := t.list.map fun r => if r.id = id then ⟨r.id, registered, userdata⟩ else r
  sorted := by
    have : (fun r : SftpRequest => r.id.toNat) ∘ (fun r => if r.id = id then ⟨r.id, registered, userdata⟩ else r) =
        fun r => r.id.toNat := by
      funext r
      dsimp only [Function.comp]
      split <;> rfl
    rw [List.map_map, this]
    exact t.sorted

end Requests

/-- sftp.c's file-scope variables. -/
structure Fxp where
  sftpRequests : Requests
  fxpErrorMessage : String
  fxpErrtype : Int32
  deriving DecidableEq

structure SftpPacket where
  type : UInt8
  src : BinarySource
  deriving DecidableEq

def fxpInternalError (f : Fxp) (msg : String) : Fxp := { f with fxpErrorMessage := msg, fxpErrtype := -1 }

/-! ## Allocating an id -/

/-- The binary search; `none` when it runs out of its bound or index234 gives NULL. -/
def searchIds (t : Requests) : Nat → UInt32 → UInt32 → Option UInt32
  | 0, low, high => if high - low > 1 then none else some low
  | fuel + 1, low, high =>
    if high - low > 1 then
      let mid := (high + low) / 2
      match t.list[mid.toNat]? with
      | none => none
      | some r =>
        if r.id = mid + requestIdOffset then searchIds t fuel mid high
        else searchIds t fuel low mid
    else some low

/-- The request it adds, or `none` for a failed assertion. -/
def sftpAllocRequest (f : Fxp) : Option (UInt32 × Fxp) :=
  let tsize := f.sftpRequests.list.length
  match searchIds f.sftpRequests tsize (-1) (UInt32.ofNat tsize) with
  | none => none
  | some low =>
    let i := low + 1 + requestIdOffset
    if f.sftpRequests.find i = none then
      some (i, { f with sftpRequests := f.sftpRequests.add ⟨i, false, none⟩ })
    else none

def sftpRegister (f : Fxp) (id : UInt32) : Fxp :=
  match f.sftpRequests.find id with
  | none => f
  | some r => { f with sftpRequests := f.sftpRequests.update id true r.userdata }

def fxpSetUserdata (f : Fxp) (id : UInt32) (data : Nat) : Fxp :=
  match f.sftpRequests.find id with
  | none => f
  | some r => { f with sftpRequests := f.sftpRequests.update id r.registered (some data) }

/-! ## The reply -/

def sshFxpStatus : UInt8 := 101
def sshFxpData : UInt8 := 103
def sshFxOk : Int32 := 0
def sshFxEof : Int32 := 1

def sftpFindRequest (f : Fxp) : Option SftpPacket → Option (SftpRequest × SftpPacket) × Fxp
  | none => (none, fxpInternalError f "did not receive a valid SFTP packet\n")
  | some pktin =>
    let r := pktin.src.getUint32
    if r.2.err then (none, fxpInternalError f "did not receive a valid SFTP packet\n")
    else
      match f.sftpRequests.find r.1 with
      | none => (none, fxpInternalError f "request ID mismatch\n")
      | some req =>
        if req.registered then
          (some (req, { pktin with src := r.2 }), { f with sftpRequests := f.sftpRequests.del r.1 })
        else (none, fxpInternalError f "request ID mismatch\n")

def messages : List String :=
  ["unexpected OK response", "end of file", "no such file or directory", "permission denied", "failure",
    "bad message", "no connection", "connection lost", "operation unsupported"]

def fxpGotStatus (f : Fxp) (pktin : SftpPacket) : Int × Fxp :=
  let f :=
    if pktin.type ≠ sshFxpStatus then
      { f with fxpErrorMessage := "expected FXP_STATUS packet", fxpErrtype := -1 }
    else
      let r := pktin.src.getUint32
      if r.2.err then { f with fxpErrorMessage := "malformed FXP_STATUS packet", fxpErrtype := -1 }
      else { f with fxpErrorMessage := messages[r.1.toNat]?.getD "unknown error code", fxpErrtype := r.1.toInt32 }
  if f.fxpErrtype = sshFxOk then (1, f)
  else if f.fxpErrtype = sshFxEof then (0, f)
  else (-1, f)

/-- The return value, and the bytes written to the start of the buffer. -/
def fxpReadRecv (f : Fxp) (pktin : SftpPacket) (len : Nat) : Int × List UInt8 × Fxp :=
  if pktin.type = sshFxpData then
    let data := pktin.src.getString
    if data.2.err then (-1, [], fxpInternalError f "READ returned malformed SSH_FXP_DATA packet")
    else if data.1.length > len then (-1, [], fxpInternalError f "READ returned more bytes than requested")
    else (data.1.length, data.1, f)
  else (-1, [], (fxpGotStatus f pktin).2)

/-! ## The lowest id not in use -/

theorem toNat_pred {n : Nat} : (UInt32.ofNat n - 1).toNat = (n + (2 ^ 32 - 1)) % 2 ^ 32 := by
  rw [UInt32.toNat_sub, UInt32.toNat_ofNat']
  simp only [UInt32.reduceToNat]
  omega

theorem gap_iff {low high : Nat} (h1 : low ≤ high) (h2 : high < 2 ^ 31) :
    UInt32.ofNat high - (UInt32.ofNat low - 1) > 1 ↔ low < high := by
  rw [gt_iff_lt, UInt32.lt_iff_toNat_lt, UInt32.toNat_sub, toNat_pred, UInt32.toNat_ofNat']
  simp only [UInt32.reduceToNat]
  omega

theorem mid_eq {low high : Nat} (h1 : low < high) (h2 : high < 2 ^ 31) :
    (UInt32.ofNat high + (UInt32.ofNat low - 1)) / 2 = UInt32.ofNat ((high + low - 1) / 2) := by
  apply UInt32.toNat.inj
  rw [UInt32.toNat_div, UInt32.toNat_add, toNat_pred, UInt32.toNat_ofNat', UInt32.toNat_ofNat']
  simp only [UInt32.reduceToNat]
  omega

theorem toNat_ofNat_of_lt {n : Nat} (h : n < 2 ^ 32) : (UInt32.ofNat n).toNat = n := by
  rw [UInt32.toNat_ofNat']
  omega

theorem id_eq_iff {id : UInt32} {n : Nat} (h : n < 2 ^ 31) :
    id = UInt32.ofNat n + requestIdOffset ↔ id.toNat = n + 256 := by
  have hn : (UInt32.ofNat n + requestIdOffset).toNat = n + 256 := by
    rw [UInt32.toNat_add, toNat_ofNat_of_lt (by omega)]
    simp only [requestIdOffset, UInt32.reduceToNat]
    omega
  rw [← UInt32.toNat_inj, hn]

def TakenBelow (t : Requests) (m : Nat) : Prop := m = 0 ∨ ∃ r, t.list[m - 1]? = some r ∧ r.id.toNat = m - 1 + 256

def PastAt (t : Requests) (m : Nat) : Prop := m = t.list.length ∨ ∃ r, t.list[m]? = some r ∧ r.id.toNat ≠ m + 256

/-- The ids below position `m` are taken, and the one at `m` is past it. -/
structure FirstGap (t : Requests) (m : Nat) : Prop where
  bound : m ≤ t.list.length
  below : TakenBelow t m
  above : PastAt t m

theorem searchIds_spec {t : Requests} (hn : t.list.length < 2 ^ 31) :
    ∀ (fuel low high : Nat), low ≤ high → high ≤ t.list.length → high - low ≤ fuel →
      TakenBelow t low → PastAt t high →
      ∃ m, FirstGap t m ∧ searchIds t fuel (UInt32.ofNat low - 1) (UInt32.ofNat high) = some (UInt32.ofNat m - 1) := by
  intro fuel
  induction fuel with
  | zero =>
    intro low high hle hhigh hfuel hbelow habove
    obtain rfl : low = high := Nat.le_antisymm hle (Nat.sub_eq_zero_iff_le.mp (Nat.le_zero.mp hfuel))
    have hgap : ¬ UInt32.ofNat low - (UInt32.ofNat low - 1) > 1 := fun h =>
      Nat.lt_irrefl _ ((gap_iff hle (hhigh.trans_lt hn)).mp h)
    exact ⟨low, ⟨hhigh, hbelow, habove⟩, by rw [searchIds, if_neg hgap]⟩
  | succ fuel ih =>
    intro low high hle hhigh hfuel hbelow habove
    have hgap := gap_iff hle (hhigh.trans_lt hn)
    rw [searchIds]
    by_cases hlt : low < high
    · have hmid : (high + low - 1) / 2 < t.list.length := by omega
      have hlow : UInt32.ofNat ((high + low - 1) / 2) = UInt32.ofNat ((high + low - 1) / 2 + 1) - 1 := by
        apply UInt32.toNat.inj
        rw [toNat_pred, UInt32.toNat_ofNat']
        omega
      rw [if_pos (hgap.mpr hlt), mid_eq hlt (by omega)]
      dsimp only
      rw [toNat_ofNat_of_lt (by omega), List.getElem?_eq_getElem hmid]
      dsimp only
      by_cases hid : t.list[(high + low - 1) / 2].id.toNat = (high + low - 1) / 2 + 256
      · rw [if_pos ((id_eq_iff (by omega)).mpr hid), hlow]
        exact ih _ _ (by omega) hhigh (by omega) (.inr ⟨_, List.getElem?_eq_getElem hmid, hid⟩) habove
      · rw [if_neg fun h => hid ((id_eq_iff (by omega)).mp h)]
        exact ih _ _ (by omega) (by omega) (by omega) hbelow (.inr ⟨_, List.getElem?_eq_getElem hmid, hid⟩)
    · obtain rfl : low = high := Nat.le_antisymm hle (Nat.le_of_not_lt hlt)
      rw [if_neg fun h => hlt (hgap.mp h)]
      exact ⟨low, ⟨hhigh, hbelow, habove⟩, rfl⟩

namespace Requests

theorem ids_lt {t : Requests} {i j : Nat} {a b : SftpRequest} (hij : i < j) (ha : t.list[i]? = some a)
    (hb : t.list[j]? = some b) : a.id.toNat < b.id.toNat := by
  obtain ⟨hi, rfl⟩ := List.getElem?_eq_some_iff.mp ha
  obtain ⟨hj, rfl⟩ := List.getElem?_eq_some_iff.mp hb
  have := List.pairwise_iff_getElem.mp t.sorted i j (by simpa using hi) (by simpa using hj) hij
  simpa using this

/-- From 256 on, ids are at least as far along as their positions. -/
theorem id_ge {t : Requests} (h : ∀ r ∈ t.list, 256 ≤ r.id.toNat) :
    ∀ {i : Nat} {r : SftpRequest}, t.list[i]? = some r → i + 256 ≤ r.id.toNat := by
  intro i
  induction i with
  | zero =>
    intro r hr
    have := h r (List.mem_of_getElem? hr)
    omega
  | succ i ih =>
    intro r hr
    obtain ⟨hi, -⟩ := List.getElem?_eq_some_iff.mp hr
    have hprev := List.getElem?_eq_getElem (Nat.lt_of_succ_lt hi)
    have h1 := ih hprev
    have h2 := ids_lt (Nat.lt_succ_self i) hprev hr
    omega

theorem find_eq_none {t : Requests} {id : UInt32} : t.find id = none ↔ ∀ r ∈ t.list, r.id ≠ id := by
  simp [find]

end Requests

/-- No request has the id of the first gap. -/
theorem FirstGap.unused {t : Requests} {m : Nat} (h : FirstGap t m) (h256 : ∀ r ∈ t.list, 256 ≤ r.id.toNat) :
    ∀ r ∈ t.list, r.id.toNat ≠ m + 256 := by
  intro r hr heq
  obtain ⟨i, hi⟩ := List.mem_iff_getElem?.mp hr
  have hb := h.bound
  rcases Nat.lt_or_ge i m with him | him
  · rcases h.below with rfl | ⟨b, hb, hbid⟩
    · omega
    · rcases Nat.lt_or_ge i (m - 1) with hlt | hge
      · have := Requests.ids_lt hlt hi hb
        omega
      · obtain rfl : i = m - 1 := by omega
        rw [hi] at hb
        cases hb
        omega
  · rcases h.above with rfl | ⟨b, hb, hbid⟩
    · obtain ⟨hlt, -⟩ := List.getElem?_eq_some_iff.mp hi
      omega
    · have hge := Requests.id_ge h256 hb
      rcases Nat.eq_or_lt_of_le him with rfl | hlt
      · rw [hi] at hb
        cases hb
        omega
      · have := Requests.ids_lt hlt hb hi
        omega

theorem sftpAllocRequest_spec {f : Fxp} (hn : f.sftpRequests.list.length < 2 ^ 31)
    (h256 : ∀ r ∈ f.sftpRequests.list, 256 ≤ r.id.toNat) :
    ∃ id, sftpAllocRequest f = some (id, { f with sftpRequests := f.sftpRequests.add ⟨id, false, none⟩ }) ∧
      256 ≤ id.toNat ∧ f.sftpRequests.find id = none := by
  obtain ⟨m, hm, he⟩ := searchIds_spec hn f.sftpRequests.list.length 0 f.sftpRequests.list.length (Nat.zero_le _)
    (Nat.le_refl _) (Nat.sub_le _ _) (.inl rfl) (.inl rfl)
  have hb := hm.bound
  have hid : (UInt32.ofNat m - 1 + 1 + requestIdOffset).toNat = m + 256 := by
    rw [UInt32.toNat_add, UInt32.toNat_add, toNat_pred]
    simp only [requestIdOffset, UInt32.reduceToNat]
    omega
  have hfind : f.sftpRequests.find (UInt32.ofNat m - 1 + 1 + requestIdOffset) = none := by
    rw [Requests.find_eq_none]
    intro r hr heq
    exact hm.unused h256 r hr (by rw [heq, hid])
  refine ⟨UInt32.ofNat m - 1 + 1 + requestIdOffset, ?_, by omega, hfind⟩
  have he' : searchIds f.sftpRequests f.sftpRequests.list.length (-1) (UInt32.ofNat f.sftpRequests.list.length) =
      some (UInt32.ofNat m - 1) := he
  unfold sftpAllocRequest
  dsimp only
  rw [he']
  dsimp only
  rw [if_pos hfind]

/-! ## Adding and removing a request -/

namespace Requests

theorem mem_add {t : Requests} {r : SftpRequest} (h : t.find r.id = none) :
    (t.add r).list.length = t.list.length + 1 ∧ ∀ x, x ∈ (t.add r).list ↔ x = r ∨ x ∈ t.list := by
  rw [find_eq_none] at h
  unfold add
  rcases addSorted_cases sftpReqcmp r t.list with ⟨as, x, bs, hl, -, hx, -⟩ | ⟨as, bs, hl, -, -, he⟩
  · exfalso
    apply h x (by rw [hl]; exact List.mem_append_right _ List.mem_cons_self)
    unfold sftpReqcmp at hx
    split at hx
    · omega
    · split at hx
      · omega
      · next h1 h2 => exact UInt32.le_antisymm (UInt32.not_lt.mp h1) (UInt32.not_lt.mp h2)
  · dsimp only
    rw [he, hl]
    refine ⟨by simp only [List.length_append, List.length_cons]; omega, fun x => ?_⟩
    simp only [List.mem_append, List.mem_cons]
    tauto

theorem find_of_mem {t : Requests} {r : SftpRequest} (h : r ∈ t.list) : t.find r.id = some r := by
  obtain ⟨i, hi⟩ := List.mem_iff_getElem?.mp h
  cases hf : t.find r.id with
  | none => exact absurd rfl (find_eq_none.mp hf r h)
  | some x =>
    obtain ⟨j, hj⟩ := List.mem_iff_getElem?.mp (List.mem_of_find?_eq_some hf)
    have hid : x.id = r.id := by simpa using List.find?_some hf
    have hnat := congrArg UInt32.toNat hid
    rcases Nat.lt_trichotomy i j with hlt | rfl | hlt
    · have := ids_lt hlt hi hj
      omega
    · rw [hj] at hi
      exact hi
    · have := ids_lt hlt hj hi
      omega

theorem eq_of_id {t : Requests} {r x : SftpRequest} (hr : r ∈ t.list) (hx : x ∈ t.list) (h : r.id = x.id) : r = x := by
  have h1 := find_of_mem hr
  have h2 := find_of_mem hx
  rw [h, h2] at h1
  exact (Option.some.inj h1).symm

theorem mem_del {t : Requests} {id : UInt32} {x : SftpRequest} : x ∈ (t.del id).list ↔ x ∈ t.list ∧ x.id ≠ id := by
  simp [del]

theorem length_del {t : Requests} {r : SftpRequest} (h : r ∈ t.list) : (t.del r.id).list.length < t.list.length :=
  List.length_filter_lt_length_iff_exists.mpr ⟨r, h, by simp⟩

end Requests

/-! ## What a reply says -/

inductive Reply where
  | data (bytes : List UInt8)
  | eof
  | error
  deriving DecidableEq, Repr

/-- The reply in a packet whose id has been read, to a request for `len` bytes. -/
def replyIn (pktin : SftpPacket) (len : Nat) : Reply :=
  if pktin.type = sshFxpData then
    if pktin.src.getString.2.err = false ∧ pktin.src.getString.1.length ≤ len then .data pktin.src.getString.1
    else .error
  else if pktin.type = sshFxpStatus ∧ pktin.src.getUint32.2.err = false ∧ pktin.src.getUint32.1 = 1 then .eof
  else .error

theorem toInt32_eq_eof (n : UInt32) : n.toInt32 = sshFxEof ↔ n = 1 := by
  constructor
  · intro h
    exact congrArg Int32.toUInt32 h
  · rintro rfl
    rfl

theorem fxpGotStatus_requests (f : Fxp) (pktin : SftpPacket) : (fxpGotStatus f pktin).2.sftpRequests = f.sftpRequests := by
  unfold fxpGotStatus
  dsimp only
  repeat' split
  all_goals rfl

/-- The error type of a status packet is the end of the file exactly for SSH_FX_EOF. -/
theorem fxpGotStatus_eof (f : Fxp) (pktin : SftpPacket) : (fxpGotStatus f pktin).2.fxpErrtype = sshFxEof ↔
    pktin.type = sshFxpStatus ∧ pktin.src.getUint32.2.err = false ∧ pktin.src.getUint32.1 = 1 := by
  have hlast : ∀ g : Fxp, (if g.fxpErrtype = sshFxOk then ((1 : Int), g) else if g.fxpErrtype = sshFxEof then (0, g)
      else (-1, g)).2 = g := by
    intro g
    repeat' split
    all_goals rfl
  unfold fxpGotStatus
  dsimp only
  rw [hlast]
  by_cases ht : pktin.type = sshFxpStatus
  · rw [if_neg (not_not_intro ht)]
    by_cases he : pktin.src.getUint32.2.err = true
    · rw [if_pos he]
      simp [he, sshFxEof]
    · rw [if_neg he]
      simp [ht, he, toInt32_eq_eof]
  · rw [if_pos ht]
    simp [ht, sshFxEof]

theorem fxpReadRecv_requests (f : Fxp) (pktin : SftpPacket) (len : Nat) :
    (fxpReadRecv f pktin len).2.2.sftpRequests = f.sftpRequests := by
  unfold fxpReadRecv
  dsimp only
  repeat' split
  · rfl
  · rfl
  · rfl
  · exact fxpGotStatus_requests f pktin

theorem fxpReadRecv_data {f : Fxp} {pktin : SftpPacket} {len : Nat} {bytes : List UInt8}
    (h : replyIn pktin len = .data bytes) : fxpReadRecv f pktin len = ((bytes.length : Int), bytes, f) ∧ bytes.length ≤ len := by
  unfold replyIn at h
  unfold fxpReadRecv
  split at h
  · next ht =>
    split at h
    · next hd =>
      cases h
      rw [if_pos ht]
      dsimp only
      rw [if_neg (by simp [hd.1]), if_neg (by omega)]
      exact ⟨rfl, hd.2⟩
    · cases h
  · split at h <;> cases h

theorem fxpReadRecv_eof {f : Fxp} {pktin : SftpPacket} {len : Nat} (h : replyIn pktin len = .eof) :
    (fxpReadRecv f pktin len).1 = -1 ∧ (fxpReadRecv f pktin len).2.2.fxpErrtype = sshFxEof := by
  unfold replyIn at h
  unfold fxpReadRecv
  split at h
  · split at h <;> cases h
  · next ht =>
    split at h
    · next hs =>
      rw [if_neg ht]
      exact ⟨rfl, (fxpGotStatus_eof f pktin).mpr hs⟩
    · cases h

theorem fxpReadRecv_error {f : Fxp} {pktin : SftpPacket} {len : Nat} (h : replyIn pktin len = .error) :
    (fxpReadRecv f pktin len).1 = -1 ∧ (fxpReadRecv f pktin len).2.2.fxpErrtype ≠ sshFxEof := by
  unfold replyIn at h
  unfold fxpReadRecv
  split at h
  · next ht =>
    rw [if_pos ht]
    dsimp only
    split at h
    · cases h
    · next hd =>
      split
      · exact ⟨rfl, by simp [fxpInternalError, sshFxEof]⟩
      · next he =>
        rw [if_pos (by
          by_contra hl
          exact hd ⟨by simpa using he, by omega⟩)]
        exact ⟨rfl, by simp [fxpInternalError, sshFxEof]⟩
  · next ht =>
    rw [if_neg ht]
    split at h
    · cases h
    · next hs => exact ⟨rfl, fun he => hs ((fxpGotStatus_eof f pktin).mp he)⟩

end Putty.Sftp
