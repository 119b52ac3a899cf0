/-
  Putty.X11.Verify — the fake authorisations of forwarded X11 connections (`x11fwd.c`,
  x11_authcmp, x11_verify and x11_make_greeting).

  The tree of authorisations is its elements in order: find234 gives the one that
  compares equal to what is looked up, and compares with some of the elements on the way.
  Comparing with an XDM-AUTHORIZATION-1 element reads eight bytes of the client's data:
  `overread` says that it had declared fewer. DES is a parameter (`Des`).
-/

import Putty.Utils.BinarySink

namespace Putty.X11

open Putty.Utils

/-- des_encrypt_xdmauth and des_decrypt_xdmauth, by key and data. -/
structure Des where
  encrypt : List UInt8 → List UInt8 → List UInt8
  decrypt : List UInt8 → List UInt8 → List UInt8

structure XdmSeen where
  time : UInt32
  clientid : List UInt8
  deriving DecidableEq, Repr

/-- What an authorisation has by its protocol: X11_XDM has the first cipher block and the
    authorisations seen, in order. -/
inductive Proto where
  | mit
  | xdm (xa1Firstblock : List UInt8) (xdmseen : List XdmSeen)
  deriving DecidableEq, Repr

structure X11Display where
  port : Nat
  localauthproto : Nat
  localauthdata : List UInt8
  deriving DecidableEq, Repr

/-- `share` is the downstream and its channel, if it is theirs. -/
structure X11FakeAuth where
  proto : Proto
  data : List UInt8
  disp : X11Display
  share : Option (Nat × Nat)
  deriving DecidableEq, Repr

def x11Mit : Nat := 1
def x11Xdm : Nat := 2

/-- x11_authnames. -/
def x11Authname (proto : Nat) : List UInt8 :=
  if proto = x11Mit then text "MIT-MAGIC-COOKIE-1" else if proto = x11Xdm then text "XDM-AUTHORIZATION-1" else []

/-- The C string in a buffer. -/
def cstring (s : List UInt8) : List UInt8 := s.takeWhile (· ≠ 0)

/-- GET_16BIT_X11. -/
def get16BitX11 (endian : UInt8) (p : List UInt8) : Nat :=
  if endian = 66 then (p.getD 0 0).toNat * 256 + (p.getD 1 0).toNat else (p.getD 1 0).toNat * 256 + (p.getD 0 0).toNat

/-- PUT_16BIT_X11. -/
def put16BitX11 (endian : UInt8) (value : Nat) : List UInt8 :=
  if endian = 66 then [UInt8.ofNat (value / 256), UInt8.ofNat value] else [UInt8.ofNat value, UInt8.ofNat (value / 256)]

def get16BitMsbFirst (p : List UInt8) : Nat := (p.getD 0 0).toNat * 256 + (p.getD 1 0).toNat

def put16BitMsbFirst (n : Nat) : List UInt8 := [UInt8.ofNat (n / 256), UInt8.ofNat n]

/-! ## Looking an authorisation up -/

/-- x11_authcmp gives 0 for a cookie of this data. -/
def mitMatches (data : List UInt8) (auth : X11FakeAuth) : Bool :=
  match auth.proto with
  | .mit => auth.data.length = data.length && auth.data = data
  | .xdm _ _ => false

/-- x11_authcmp gives 0 for this first block. -/
def xdmMatches (firstblock : List UInt8) (auth : X11FakeAuth) : Bool :=
  match auth.proto with
  | .mit => false
  | .xdm block _ => block = firstblock

def isXdm (auth : X11FakeAuth) : Bool :=
  match auth.proto with
  | .mit => false
  | .xdm _ _ => true

/-! ## Verifying -/

def xdmMaxskew : Nat := 20 * 60

/-- A number as an unsigned long of this many bits. -/
def ulong (bits : Nat) (n : Int) : Nat := (n % 2 ^ bits).toNat

def badXdm : List UInt8 := text "XDM-AUTHORIZATION-1 data failed check"

/-- add234 into xdmseen, in the order of xdmseen_cmp (time, then client). -/
def addSeen (seen : XdmSeen) : List XdmSeen → List XdmSeen
  | [] => [seen]
  | x :: xs => if x.time < seen.time ∨ (x.time = seen.time ∧ x.clientid < seen.clientid) then x :: addSeen seen xs else seen :: x :: xs

/-- Purge the entries too old to be replayed; running out of entries fails an assertion. -/
def purge (bits : Nat) (t : UInt32) : List XdmSeen → Option (List XdmSeen)
  | [] => none
  | seen :: rest =>
    if ulong bits ((t.toNat : Int) - seen.time.toNat) ≤ xdmMaxskew then some (seen :: rest) else purge bits t rest

/-- The width of a long, and the time. -/
structure Setting where
  longBits : Nat
  time : Int
  deriving DecidableEq, Repr

/-- The peer's address and port, with port -1 when there is no address. -/
structure Peer where
  ip : Nat
  port : Int
  deriving DecidableEq, Repr

/-- The rest of the check of XDM-AUTHORIZATION-1, on the decrypted data: the error, or
    the entries seen then. -/
def xdmCheck (env : Setting) (peer : Peer) (auth : X11FakeAuth) (seen : List XdmSeen) (data : List UInt8) :
    Option (Except (List UInt8) (List XdmSeen)) :=
  let t := BinarySource.get32BitMsbFirst ((data.drop 14).take 4)
  let tag := ⟨t, (data.drop 8).take 6⟩
  if auth.data.take 8 ≠ data.take 8 then some (.error badXdm)
  else if (BinarySource.get32BitMsbFirst ((data.drop 8).take 4)).toNat ≠ peer.ip then some (.error badXdm)
  else if (get16BitMsbFirst (data.drop 12) : Int) ≠ peer.port then some (.error badXdm)
  else if ¬ ((data.drop 18).take 6).all (· = 0) then some (.error badXdm)
  else if ulong env.longBits ((t.toNat : Int) - env.time + xdmMaxskew) > 2 * 20 * 60 then
    some (.error (text "XDM-AUTHORIZATION-1 time stamp was too far out"))
  else if tag ∈ seen then some (.error (text "XDM-AUTHORIZATION-1 data replayed"))
  else (purge env.longBits t (addSeen tag seen)).map .ok

/-- What x11_verify gives: the error or the authorisation, the data as it leaves it, and
    whether data was read beyond its length. -/
structure Verified where
  ret : Except (List UInt8) X11FakeAuth
  data : List UInt8
  overread : Bool

/-- x11_verify; `beyond` is what lies in memory after the data. -/
def x11Verify (des : Des) (env : Setting) (peer : Peer) (authtree : List X11FakeAuth) (proto data : List UInt8) (dlen : Nat)
    (beyond : List UInt8) : Option Verified :=
  if proto = x11Authname x11Mit then
    match authtree.find? (mitMatches (data.take dlen)) with
    | none => some ⟨.error (text "Authorisation not recognised"), data, false⟩
    | some auth => some ⟨.ok auth, data, false⟩
  else if proto = x11Authname x11Xdm then
    let overread := authtree.any isXdm && dlen < 8
    match authtree.find? (xdmMatches ((data ++ beyond).take 8)) with
    | none => some ⟨.error (text "Authorisation not recognised"), data, overread⟩
    | some auth =>
      match auth.proto with
      | .mit => some ⟨.ok auth, data, overread⟩
      | .xdm block seen =>
        if dlen ≠ 24 then some ⟨.error (text "XDM-AUTHORIZATION-1 data was wrong length"), data, overread⟩
        else if peer.port = -1 then
          some ⟨.error (text "cannot do XDM-AUTHORIZATION-1 without remote address data"), data, overread⟩
        else
          let data := des.decrypt (auth.data.drop 9) (data.take 24)
          (xdmCheck env peer auth seen data).map fun r =>
            ⟨r.map fun seen => { auth with proto := .xdm block seen }, data, overread⟩
  else some ⟨.error (text "Unsupported authorisation protocol"), data, false⟩

/-! ## The rewritten greeting -/

def pad4 (n : Nat) : Nat := (n + 3) / 4 * 4

def padded (s : List UInt8) : List UInt8 := s ++ List.replicate (pad4 s.length - s.length) 0

/-- x11_make_greeting; the peer's address is its four bytes. -/
def x11MakeGreeting (des : Des) (env : Setting) (endian : UInt8) (protomajor protominor authProto : Nat)
    (authData peerAddr : List UInt8) (peerPort : Nat) : List UInt8 :=
  let authname := x11Authname authProto
  let authdata :=
    if authProto = x11Mit then authData
    else if authProto = x11Xdm ∧ authData.length = 16 then
      des.encrypt (authData.drop 9)
        (authData.take 8 ++ peerAddr ++ put16BitMsbFirst peerPort ++
          put32BitMsbFirst (ulong 32 env.time) ++ List.replicate 6 0)
    else []
  [endian, 0] ++ put16BitX11 endian protomajor ++ put16BitX11 endian protominor ++ put16BitX11 endian authname.length ++
    put16BitX11 endian authdata.length ++ [0, 0] ++ padded authname ++ padded authdata

/-! ## What an accepted packet carries -/

/-- The authorisation that a packet with this protocol name and this data carries. -/
inductive Carries (des : Des) (peer : Peer) (proto data : List UInt8) (auth : X11FakeAuth) : Prop where
  | mit (hp : proto = x11Authname x11Mit) (hk : auth.proto = .mit) (hd : data = auth.data) : Carries des peer proto data auth
  | xdm (block : List UInt8) (seen : List XdmSeen) (hp : proto = x11Authname x11Xdm) (hk : auth.proto = .xdm block seen)
      (hlen : data.length = 24) (hb : data.take 8 = block)
      (hcookie : (des.decrypt (auth.data.drop 9) data).take 8 = auth.data.take 8)
      (hip : peer.ip = (BinarySource.get32BitMsbFirst (((des.decrypt (auth.data.drop 9) data).drop 8).take 4)).toNat)
      (hport : peer.port = get16BitMsbFirst ((des.decrypt (auth.data.drop 9) data).drop 12))
      (hseen : ∀ x ∈ seen, x ≠ ⟨BinarySource.get32BitMsbFirst (((des.decrypt (auth.data.drop 9) data).drop 14).take 4),
        ((des.decrypt (auth.data.drop 9) data).drop 8).take 6⟩) : Carries des peer proto data auth

theorem mem_addSeen (seen : XdmSeen) (xs : List XdmSeen) : seen ∈ addSeen seen xs := by
  induction xs with
  | nil => exact List.mem_cons_self
  | cons x xs ih =>
    rw [addSeen]
    split
    · exact List.mem_cons_of_mem _ ih
    · exact List.mem_cons_self

/-- The entry of the time itself stops the purge. -/
theorem purge_isSome (bits : Nat) {t : UInt32} {clientid : List UInt8} {xs : List XdmSeen} (h : ⟨t, clientid⟩ ∈ xs) :
    (purge bits t xs).isSome := by
  induction xs with
  | nil => cases h
  | cons x xs ih =>
    rw [purge]
    split
    · rfl
    · next hx =>
      rcases List.mem_cons.mp h with rfl | h
      · exact absurd (by simp [ulong]) hx
      · exact ih h

theorem xdmCheck_isSome (env : Setting) (peer : Peer) (auth : X11FakeAuth) (seen : List XdmSeen) (data : List UInt8) :
    (xdmCheck env peer auth seen data).isSome := by
  have hpurge := purge_isSome env.longBits (mem_addSeen ⟨BinarySource.get32BitMsbFirst ((data.drop 14).take 4),
    (data.drop 8).take 6⟩ seen)
  unfold xdmCheck
  dsimp only
  repeat' split
  all_goals first
    | rfl
    | rwa [Option.isSome_map]

/-- x11_verify fails no assertion. -/
theorem x11Verify_isSome (des : Des) (env : Setting) (peer : Peer) (authtree : List X11FakeAuth) (proto data : List UInt8)
    (dlen : Nat) (beyond : List UInt8) : (x11Verify des env peer authtree proto data dlen beyond).isSome := by
  unfold x11Verify
  dsimp only
  repeat' split
  all_goals first
    | rfl
    | (rw [Option.isSome_map]; exact xdmCheck_isSome _ _ _ _ _)

/-- The checks that a decrypted authorisation passes. -/
theorem xdmCheck_ok {env : Setting} {peer : Peer} {auth : X11FakeAuth} {seen seen' : List XdmSeen} {data : List UInt8}
    (h : xdmCheck env peer auth seen data = some (.ok seen')) :
    data.take 8 = auth.data.take 8 ∧ peer.ip = (BinarySource.get32BitMsbFirst ((data.drop 8).take 4)).toNat ∧
      peer.port = get16BitMsbFirst (data.drop 12) ∧
      ⟨BinarySource.get32BitMsbFirst ((data.drop 14).take 4), (data.drop 8).take 6⟩ ∉ seen := by
  unfold xdmCheck at h
  dsimp only at h
  by_cases h1 : auth.data.take 8 ≠ data.take 8
  · rw [if_pos h1] at h; cases h
  rw [if_neg h1] at h
  by_cases h2 : (BinarySource.get32BitMsbFirst ((data.drop 8).take 4)).toNat ≠ peer.ip
  · rw [if_pos h2] at h; cases h
  rw [if_neg h2] at h
  by_cases h3 : (get16BitMsbFirst (data.drop 12) : Int) ≠ peer.port
  · rw [if_pos h3] at h; cases h
  rw [if_neg h3] at h
  split at h
  · cases h
  split at h
  · cases h
  split at h
  · cases h
  next hseen => exact ⟨(not_not.mp h1).symm, (not_not.mp h2).symm, (not_not.mp h3).symm, hseen⟩

/-- What x11_verify accepts carries an authorisation of the tree. -/
theorem x11Verify_carries {des : Des} {env : Setting} {peer : Peer} {authtree : List X11FakeAuth} {proto data : List UInt8}
    {dlen : Nat} {beyond : List UInt8} (hlen : dlen ≤ data.length) {v : Verified} {auth : X11FakeAuth}
    (h : x11Verify des env peer authtree proto data dlen beyond = some v) (hv : v.ret = .ok auth) :
    ∃ a ∈ authtree, Carries des peer proto (data.take dlen) a ∧ auth.disp = a.disp ∧ auth.share = a.share := by
  unfold x11Verify at h
  by_cases hp : proto = x11Authname x11Mit
  · rw [if_pos hp] at h
    cases hf : authtree.find? (mitMatches (data.take dlen)) with
    | none => rw [hf] at h; cases h; cases hv
    | some a =>
      rw [hf] at h
      cases h
      cases hv
      have hm := List.find?_some hf
      refine ⟨auth, List.mem_of_find?_eq_some hf, ?_, rfl, rfl⟩
      unfold mitMatches at hm
      cases hk : auth.proto with
      | mit =>
        rw [hk] at hm
        simp only [Bool.and_eq_true, decide_eq_true_eq] at hm
        exact .mit hp hk hm.2.symm
      | xdm block seen => rw [hk] at hm; cases hm
  · rw [if_neg hp] at h
    by_cases hx : proto = x11Authname x11Xdm
    · rw [if_pos hx] at h
      cases hf : authtree.find? (xdmMatches ((data ++ beyond).take 8)) with
      | none => simp only [hf] at h; cases h; cases hv
      | some a =>
        simp only [hf] at h
        have hm := List.find?_some hf
        refine ⟨a, List.mem_of_find?_eq_some hf, ?_⟩
        unfold xdmMatches at hm
        cases hk : a.proto with
        | mit => rw [hk] at hm; cases hm
        | xdm block seen =>
          rw [hk] at hm
          simp only [hk] at h
          by_cases h24 : dlen ≠ 24
          · rw [if_pos h24] at h; cases h; cases hv
          rw [if_neg h24] at h
          by_cases hport : peer.port = -1
          · rw [if_pos hport] at h; cases h; cases hv
          rw [if_neg hport] at h
          rw [not_not] at h24
          subst h24
          obtain ⟨r, hr, rfl⟩ := Option.map_eq_some_iff.mp h
          cases r with
          | error e => cases hv
          | ok seen' =>
            cases hv
            obtain ⟨h1, h2, h3, h4⟩ := xdmCheck_ok hr
            refine ⟨.xdm block seen hx hk (List.length_take_of_le hlen) ?_ h1 h2 h3 fun x hx he => h4 (he ▸ hx), rfl, rfl⟩
            have hblock : block = (data ++ beyond).take 8 := by simpa using hm
            rw [hblock, List.take_take, List.take_append_of_le_length (by omega)]
            rfl
    · rw [if_neg hx] at h
      cases h
      cases hv

/-- Data is read beyond its length when it is too short for a first block to be compared
    with. -/
theorem x11Verify_overread {des : Des} {env : Setting} {peer : Peer} {authtree : List X11FakeAuth} {proto data : List UInt8}
    {dlen : Nat} {beyond : List UInt8} {v : Verified} (h : x11Verify des env peer authtree proto data dlen beyond = some v) :
    v.overread = true ↔ proto = x11Authname x11Xdm ∧ dlen < 8 ∧ authtree.any isXdm = true := by
  unfold x11Verify at h
  by_cases hp : proto = x11Authname x11Mit
  · have hne : proto ≠ x11Authname x11Xdm := fun hx => absurd (hp.symm.trans hx) (by decide)
    have hv : v.overread = false := by
      rw [if_pos hp] at h
      split at h <;> (cases h; rfl)
    rw [hv]
    exact ⟨fun hf => Bool.noConfusion hf, fun ⟨hx, _⟩ => absurd hx hne⟩
  · rw [if_neg hp] at h
    by_cases hx : proto = x11Authname x11Xdm
    · have hv : v.overread = (authtree.any isXdm && decide (dlen < 8)) := by
        rw [if_pos hx] at h
        dsimp only at h
        repeat' split at h
        all_goals first
          | (cases h; rfl)
          | (obtain ⟨r, -, rfl⟩ := Option.map_eq_some_iff.mp h; rfl)
      rw [hv, Bool.and_eq_true, decide_eq_true_eq]
      exact ⟨fun ⟨h1, h2⟩ => ⟨hx, h2, h1⟩, fun ⟨_, h2, h1⟩ => ⟨h1, h2⟩⟩
    · rw [if_neg hx] at h
      cases h
      exact ⟨fun hf => Bool.noConfusion hf, fun ⟨hx', _⟩ => absurd hx' hx⟩

end Putty.X11
