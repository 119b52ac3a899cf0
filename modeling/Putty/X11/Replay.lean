/-
  Putty.X11.Replay — replays of XDM-AUTHORIZATION-1 authorisations (`x11fwd.c`, x11_verify
  called again and again).

  An authorisation is accepted while the clock is within 20 minutes of its time stamp. The
  record of it is purged as soon as one is accepted whose time stamp is more than 20 minutes
  later, and that may be later than the clock. `accepted_twice` is the input where an
  authorisation gets in again, `purged_acceptable` says that every authorisation purged too
  early would; `replays_refused` is the verdict over runs: no call fails an assertion, and
  nothing is accepted twice unless a call is not `Timely`.
-/

import Putty.X11.Verify
import Putty.Lib.Run

namespace Putty.X11

open Putty.Utils Putty.Lib

/-- A call of x11_verify, with the time since the one before. -/
structure VerifyCall where
  elapsed : Nat
  peer : Peer
  proto : List UInt8
  data : List UInt8
  dlen : Nat
  beyond : List UInt8

/-- The authorisations, the clock, and which authorisations have been accepted, by the first
    block of their cookie. -/
structure VerifyState where
  authtree : List X11FakeAuth
  clock : Int
  accepted : List (List UInt8 × XdmSeen)

/-- The time stamp and client of decrypted data. -/
def xdmTag (data : List UInt8) : XdmSeen := ⟨BinarySource.get32BitMsbFirst ((data.drop 14).take 4), (data.drop 8).take 6⟩

/-- The element that a call has found is changed in the tree. -/
def updateAuth (block : List UInt8) (auth : X11FakeAuth) : List X11FakeAuth → List X11FakeAuth
  | [] => []
  | a :: rest => if xdmMatches block a then auth :: rest else a :: updateAuth block auth rest

def verifyStep (des : Des) (longBits : Nat) (s : VerifyState) (c : VerifyCall) : Option VerifyState :=
  let s := { s with clock := s.clock + c.elapsed }
  (x11Verify des ⟨longBits, s.clock⟩ c.peer s.authtree c.proto c.data c.dlen c.beyond).map fun v =>
    match v.ret with
    | .error _ => s
    | .ok auth =>
      match auth.proto with
      | .mit => s
      | .xdm block _ =>
        { s with authtree := updateAuth block auth s.authtree, accepted := (block, xdmTag v.data) :: s.accepted }

/-! ## What is accepted -/

/-- The checks of decrypted data. -/
structure Acceptable (env : Setting) (peer : Peer) (auth : X11FakeAuth) (seen : List XdmSeen) (data : List UInt8) : Prop where
  cookie : auth.data.take 8 = data.take 8
  ip : (BinarySource.get32BitMsbFirst ((data.drop 8).take 4)).toNat = peer.ip
  port : (get16BitMsbFirst (data.drop 12) : Int) = peer.port
  padding : ((data.drop 18).take 6).all (· = 0) = true
  window : ulong env.longBits (((xdmTag data).time.toNat : Int) - env.time + xdmMaxskew) ≤ 2 * 20 * 60
  new : xdmTag data ∉ seen

theorem xdmCheck_ok_iff {env : Setting} {peer : Peer} {auth : X11FakeAuth} {seen seen' : List XdmSeen} {data : List UInt8} :
    xdmCheck env peer auth seen data = some (.ok seen') ↔
      Acceptable env peer auth seen data ∧ purge env.longBits (xdmTag data).time (addSeen (xdmTag data) seen) = some seen' := by
  have herr : ∀ {e : List UInt8} {p : Prop} (_ : ¬p),
      some (Except.error e : Except (List UInt8) (List XdmSeen)) = some (.ok seen') ↔ p :=
    fun hp => iff_of_false (fun he => by cases he) hp
  unfold xdmCheck
  dsimp only
  split
  · next h => exact herr fun hp => h hp.1.cookie
  next h1 =>
  split
  · next h => exact herr fun hp => h hp.1.ip
  next h2 =>
  split
  · next h => exact herr fun hp => h hp.1.port
  next h3 =>
  split
  · next h => exact herr fun hp => h hp.1.padding
  next h4 =>
  split
  · next h => exact herr fun hp => absurd hp.1.window (Nat.not_le_of_lt h)
  next h5 =>
  split
  · next h => exact herr fun hp => hp.1.new h
  next h6 =>
  have hacc : Acceptable env peer auth seen data :=
    ⟨not_not.mp h1, not_not.mp h2, not_not.mp h3, not_not.mp h4, Nat.le_of_not_lt h5, h6⟩
  rw [and_iff_right hacc]
  simp [xdmTag]

/-- The call looks for its authorisation here: the element, what it has seen, and the data decrypted. -/
structure Presented (des : Des) (tree : List X11FakeAuth) (c : VerifyCall) (auth : X11FakeAuth) (block : List UInt8)
    (seen : List XdmSeen) (data : List UInt8) : Prop where
  proto : c.proto = x11Authname x11Xdm
  len : c.dlen = 24
  block_eq : block = (c.data ++ c.beyond).take 8
  found : tree.find? (xdmMatches block) = some auth
  kind : auth.proto = .xdm block seen
  data_eq : data = des.decrypt (auth.data.drop 9) (c.data.take 24)

/-- Far from where the seconds wrap round in an unsigned long. -/
def NoWrap (longBits : Nat) (clock : Int) : Prop := 2 ^ 32 + 1200 ≤ clock + 2 ^ longBits ∧ clock + 1200 < 2 ^ longBits

/-- Of the records more than 20 minutes older than an acceptable authorisation, the clock allows none any more. -/
def Timely (des : Des) (longBits : Nat) (s : VerifyState) (c : VerifyCall) : Prop :=
  ∀ auth block seen data, Presented des s.authtree c auth block seen data →
    Acceptable ⟨longBits, s.clock + c.elapsed⟩ c.peer auth seen data →
    NoWrap longBits (s.clock + c.elapsed) ∧
      ∀ r ∈ seen, r.time.toNat + xdmMaxskew < (xdmTag data).time.toNat → r.time.toNat + xdmMaxskew < s.clock + c.elapsed

/-! ## One call -/

section Purge

variable {bits : Nat} {t : UInt32} {x : XdmSeen} {xs ys : List XdmSeen}

def ByTime (xs : List XdmSeen) : Prop := xs.Pairwise fun a b => a.time ≤ b.time

theorem mem_addSeen_iff (y : XdmSeen) : y ∈ addSeen x xs ↔ y = x ∨ y ∈ xs := by
  induction xs with
  | nil => simp [addSeen]
  | cons z xs ih =>
    rw [addSeen]
    split
    · rw [List.mem_cons, ih, List.mem_cons, or_left_comm]
    · exact List.mem_cons

theorem byTime_addSeen (h : ByTime xs) : ByTime (addSeen x xs) := by
  induction xs with
  | nil => exact List.pairwise_singleton _ _
  | cons z xs ih =>
    obtain ⟨hz, hxs⟩ := List.pairwise_cons.mp h
    rw [addSeen]
    split
    · next hlt =>
      refine List.pairwise_cons.mpr ⟨fun y hy => ?_, ih hxs⟩
      rcases (mem_addSeen_iff y).mp hy with rfl | hy
      · rcases hlt with hlt | ⟨heq, -⟩
        · exact UInt32.le_of_lt hlt
        · exact UInt32.le_of_eq heq
      · exact hz y hy
    · next hge =>
      have hxz : x.time ≤ z.time := UInt32.not_lt.mp fun hlt => hge (.inl hlt)
      refine List.pairwise_cons.mpr ⟨fun y hy => ?_, h⟩
      rcases List.mem_cons.mp hy with rfl | hy
      · exact hxz
      · exact UInt32.le_trans hxz (hz y hy)

theorem ulong_nonneg {n : Nat} (h : n < 2 ^ bits) : ulong bits n = n := by
  unfold ulong
  rw [Int.emod_eq_of_lt (Int.natCast_nonneg n) (by exact_mod_cast h), Int.toNat_natCast]

/-- The purge takes off what is more than 20 minutes older than the newly accepted one. -/
theorem purge_spec (hbits : 32 ≤ bits) (hs : ByTime xs) (hx : ∃ y ∈ xs, y.time = t) (h : purge bits t xs = some ys) :
    ByTime ys ∧ ∀ y, y ∈ ys ↔ y ∈ xs ∧ t.toNat ≤ y.time.toNat + xdmMaxskew := by
  induction xs with
  | nil =>
    obtain ⟨y, hy, -⟩ := hx
    cases hy
  | cons z xs ih =>
    obtain ⟨hz, hxs⟩ := List.pairwise_cons.mp hs
    obtain ⟨own, hown, ht⟩ := hx
    have hzt : z.time.toNat ≤ t.toNat := by
      rcases List.mem_cons.mp hown with rfl | hm
      · rw [ht]
      · exact UInt32.le_iff_toNat_le.mp (ht ▸ hz own hm)
    have hdiff : ulong bits ((t.toNat : Int) - z.time.toNat) = t.toNat - z.time.toNat := by
      have hlt : t.toNat - z.time.toNat < 2 ^ bits :=
        (Nat.sub_le _ _).trans_lt (t.toNat_lt.trans_le (Nat.pow_le_pow_right (by decide) hbits))
      rw [← Int.natCast_sub hzt, ulong_nonneg hlt]
    rw [purge, hdiff] at h
    split at h
    · next hle =>
      cases h
      refine ⟨hs, fun y => ⟨fun hy => ⟨hy, ?_⟩, And.left⟩⟩
      rcases List.mem_cons.mp hy with rfl | hm
      · omega
      · have := UInt32.le_iff_toNat_le.mp (hz y hm)
        omega
    · next hgt =>
      have hown' : own ∈ xs := by
        rcases List.mem_cons.mp hown with rfl | hm
        · rw [ht, Nat.sub_self] at hgt
          exact absurd (Nat.zero_le _) hgt
        · exact hm
      obtain ⟨hsorted, hmem⟩ := ih hxs ⟨own, hown', ht⟩ h
      refine ⟨hsorted, fun y => ?_⟩
      rw [hmem, List.mem_cons]
      constructor
      · exact fun h => ⟨.inr h.1, h.2⟩
      · rintro ⟨rfl | hy, hyt⟩
        · omega
        · exact ⟨hy, hyt⟩

end Purge

section Window

variable {longBits : Nat} {clock : Int}

theorem NoWrap.bits (h : NoWrap longBits clock) : 32 ≤ longBits := by
  by_contra hlt
  have : (2 : Int) ^ longBits ≤ 2 ^ 31 := pow_le_pow_right₀ (by decide) (by omega)
  have := h.1
  have := h.2
  omega

/-- Away from the wrap the window is 20 minutes to either side of the clock. -/
theorem NoWrap.window_iff (h : NoWrap longBits clock) (t : UInt32) :
    ulong longBits ((t.toNat : Int) - clock + xdmMaxskew) ≤ 2 * 20 * 60 ↔
      clock ≤ t.toNat + xdmMaxskew ∧ (t.toNat : Int) ≤ clock + xdmMaxskew := by
  obtain ⟨hlo, hhi⟩ := h
  have ht := t.toNat_lt
  have hskew : xdmMaxskew = 1200 := rfl
  generalize hw : (2 : Int) ^ longBits = w at *
  have hn : 0 ≤ ((t.toNat : Int) - clock + xdmMaxskew) % w := Int.emod_nonneg _ (by omega)
  unfold ulong
  rw [hw]
  rcases lt_or_ge ((t.toNat : Int) - clock + xdmMaxskew) 0 with hneg | hpos
  · have he : ((t.toNat : Int) - clock + xdmMaxskew) % w = (t.toNat : Int) - clock + xdmMaxskew + w := by
      rw [← Int.add_emod_right, Int.emod_eq_of_lt (by omega) (by omega)]
    rw [he]
    omega
  · rw [Int.emod_eq_of_lt hpos (by omega)]
    omega

end Window

section Tree

variable {tree : List X11FakeAuth} {block b : List UInt8} {auth : X11FakeAuth} {seen : List XdmSeen}

def seenBy (auth : X11FakeAuth) : List XdmSeen :=
  match auth.proto with
  | .xdm _ seen => seen
  | .mit => []

/-- What the authorisation with this first block has seen. -/
def seenOf (tree : List X11FakeAuth) (block : List UInt8) : List XdmSeen := ((tree.find? (xdmMatches block)).map seenBy).getD []

theorem seenBy_xdm (hk : auth.proto = .xdm block seen) : seenBy auth = seen := by
  unfold seenBy
  rw [hk]

theorem xdmMatches_xdm (hk : auth.proto = .xdm block seen) (b : List UInt8) : xdmMatches b auth = decide (block = b) := by
  unfold xdmMatches
  rw [hk]

theorem seenOf_found (hf : tree.find? (xdmMatches b) = some auth) (hk : auth.proto = .xdm block seen) : seenOf tree b = seen := by
  unfold seenOf
  rw [hf]
  exact seenBy_xdm hk

theorem seenOf_cons (auth : X11FakeAuth) (tree : List X11FakeAuth) (b : List UInt8) :
    seenOf (auth :: tree) b = if xdmMatches b auth then seenBy auth else seenOf tree b := by
  unfold seenOf
  rw [List.find?_cons]
  cases xdmMatches b auth <;> rfl

/-- Only what its own authorisation has seen is changed. -/
theorem seenOf_updateAuth (hf : (tree.find? (xdmMatches block)).isSome) (hk : auth.proto = .xdm block seen) (b : List UInt8) :
    seenOf (updateAuth block auth tree) b = if b = block then seen else seenOf tree b := by
  induction tree with
  | nil => cases hf
  | cons x tree ih =>
    rw [updateAuth, List.find?_cons] at *
    cases hx : xdmMatches block x with
    | true =>
      rw [if_pos rfl, seenOf_cons, seenOf_cons, xdmMatches_xdm hk, seenBy_xdm hk]
      by_cases hb : b = block
      · rw [if_pos (decide_eq_true hb.symm), if_pos hb]
      · have hxb : xdmMatches b x = false := by
          unfold xdmMatches at hx ⊢
          cases hp : x.proto with
          | mit => rfl
          | xdm block' seen' =>
            rw [hp] at hx
            exact decide_eq_false fun he => hb (he.symm.trans (of_decide_eq_true hx))
        rw [if_neg (by simpa using Ne.symm hb), if_neg hb, hxb, if_neg Bool.false_ne_true]
    | false =>
      rw [hx] at hf
      rw [if_neg Bool.false_ne_true, seenOf_cons, seenOf_cons, ih hf]
      by_cases hb : b = block
      · subst hb
        rw [hx, if_neg Bool.false_ne_true, if_pos rfl, if_pos rfl]
      · rw [if_neg hb, if_neg hb]

end Tree

section Step

variable {des : Des} {longBits : Nat} {s s' : VerifyState} {c : VerifyCall}

/-- An authorisation that x11_verify changes has passed the checks. -/
theorem x11Verify_accepts {env : Setting} {tree : List X11FakeAuth} {v : Verified} {auth' : X11FakeAuth} {block : List UInt8}
    {seen' : List XdmSeen} (h : x11Verify des env c.peer tree c.proto c.data c.dlen c.beyond = some v) (hv : v.ret = .ok auth')
    (hk : auth'.proto = .xdm block seen') :
    ∃ auth seen data, Presented des tree c auth block seen data ∧ v.data = data ∧
      Acceptable env c.peer auth seen data ∧
      purge env.longBits (xdmTag data).time (addSeen (xdmTag data) seen) = some seen' := by
  unfold x11Verify at h
  split at h
  · -- a cookie of the other kind
    split at h
    · cases h
      cases hv
    · next auth hf =>
      cases h
      cases hv
      have hm := List.find?_some hf
      unfold mitMatches at hm
      rw [hk] at hm
      cases hm
  split at h
  · next hproto =>
    dsimp only at h
    split at h
    · cases h
      cases hv
    next auth hf =>
    have hm := List.find?_some hf
    split at h
    · next hmit =>
      unfold xdmMatches at hm
      rw [hmit] at hm
      cases hm
    next b seen hxdm =>
    rw [xdmMatches_xdm hxdm, decide_eq_true_iff] at hm
    split at h
    · cases h
      cases hv
    next hlen =>
    split at h
    · cases h
      cases hv
    obtain ⟨r, hr, rfl⟩ := Option.map_eq_some_iff.mp h
    cases r with
    | error e => cases hv
    | ok seen'' =>
      cases hv
      cases hk
      obtain ⟨hacc, hpurge⟩ := xdmCheck_ok_iff.mp hr
      exact ⟨auth, seen, _, ⟨hproto, not_not.mp hlen, hm, hm ▸ hf, hxdm, rfl⟩, rfl, hacc, hpurge⟩
  · cases h
    cases hv

/-- A call accepts nothing that is recorded, or puts in one record and purges. -/
theorem verifyStep_cases (h : verifyStep des longBits s c = some s') :
    s'.clock = s.clock + c.elapsed ∧
      (s'.authtree = s.authtree ∧ s'.accepted = s.accepted ∨
        ∃ auth block seen data seen', Presented des s.authtree c auth block seen data ∧
          Acceptable ⟨longBits, s.clock + c.elapsed⟩ c.peer auth seen data ∧
          purge longBits (xdmTag data).time (addSeen (xdmTag data) seen) = some seen' ∧
          s'.accepted = (block, xdmTag data) :: s.accepted ∧
          ∀ b, seenOf s'.authtree b = if b = block then seen' else seenOf s.authtree b) := by
  obtain ⟨v, hv, rfl⟩ := Option.map_eq_some_iff.mp h
  cases hr : v.ret with
  | error e => exact ⟨rfl, .inl ⟨rfl, rfl⟩⟩
  | ok auth' =>
    dsimp only
    cases hk : auth'.proto with
    | mit => exact ⟨rfl, .inl ⟨rfl, rfl⟩⟩
    | xdm block seen' =>
      obtain ⟨auth, seen, data, hp, hd, hacc, hpurge⟩ := x11Verify_accepts hv hr hk
      refine ⟨rfl, .inr ⟨auth, block, seen, data, seen', hp, hacc, hpurge, by rw [hd], fun b => ?_⟩⟩
      exact seenOf_updateAuth (Option.isSome_iff_exists.mpr ⟨auth, hp.found⟩) hk b

theorem verifyStep_isSome (des : Des) (longBits : Nat) (s : VerifyState) (c : VerifyCall) :
    (verifyStep des longBits s c).isSome := by
  unfold verifyStep
  rw [Option.isSome_map]
  exact x11Verify_isSome _ _ _ _ _ _ _ _

/-- What has been accepted is recorded or too old. -/
structure ReplayInv (s : VerifyState) : Prop where
  sorted : ∀ b, ByTime (seenOf s.authtree b)
  recorded : ∀ p ∈ s.accepted, p.2 ∈ seenOf s.authtree p.1 ∨ (p.2.time.toNat + xdmMaxskew : Int) < s.clock
  nodup : s.accepted.Nodup

theorem verifyStep_inv (hi : ReplayInv s) (ht : Timely des longBits s c) (h : verifyStep des longBits s c = some s') :
    ReplayInv s' := by
  obtain ⟨hclock, hcases⟩ := verifyStep_cases h
  obtain ⟨htree, hlog⟩ | ⟨auth, block, seen, data, seen', hp, hacc, hpurge, hlog, hseen⟩ := hcases
  · refine ⟨htree ▸ hi.sorted, fun p hm => ?_, hlog ▸ hi.nodup⟩
    rw [hlog] at hm
    rw [htree, hclock]
    exact (hi.recorded p hm).imp_right fun hlt => by omega
  · obtain ⟨hwrap, hold⟩ := ht auth block seen data hp hacc
    have hfound : seenOf s.authtree block = seen := seenOf_found hp.found hp.kind
    have hin := (hwrap.window_iff _).mp hacc.window
    obtain ⟨hsorted, hmem⟩ := purge_spec hwrap.bits (byTime_addSeen (hfound ▸ hi.sorted block))
      ⟨_, mem_addSeen _ _, rfl⟩ hpurge
    refine ⟨fun b => ?_, fun p hm => ?_, ?_⟩
    · rw [hseen]
      split
      · exact hsorted
      · exact hi.sorted b
    · rw [hseen, hclock]
      rw [hlog] at hm
      rcases List.mem_cons.mp hm with rfl | hm
      · rw [if_pos rfl, hmem]
        exact .inl ⟨mem_addSeen _ _, Nat.le_add_right _ _⟩
      · rcases hi.recorded p hm with hr | hlt
        · split
          · next hb =>
            rw [hb, hfound] at hr
            by_cases hkeep : (xdmTag data).time.toNat ≤ p.2.time.toNat + xdmMaxskew
            · exact .inl ((hmem p.2).mpr ⟨(mem_addSeen_iff _).mpr (.inr hr), hkeep⟩)
            · exact .inr (hold p.2 hr (by omega))
          · exact .inl hr
        · exact .inr (by omega)
    · rw [hlog]
      refine List.nodup_cons.mpr ⟨fun hm => ?_, hi.nodup⟩
      rcases hi.recorded _ hm with hr | hlt
      · exact hacc.new (hfound ▸ hr)
      · have hlt : ((xdmTag data).time.toNat + xdmMaxskew : Int) < s.clock := hlt
        have := hin.1
        omega

end Step

/-! ## Runs -/

def verifyStart (tree : List X11FakeAuth) (clock : Int) : VerifyState := ⟨tree, clock, []⟩

/-- No authorisation has been seen yet. -/
def Unused (tree : List X11FakeAuth) : Prop := ∀ auth ∈ tree, seenBy auth = []

instance (tree : List X11FakeAuth) : Decidable (Unused tree) := inferInstanceAs (Decidable (∀ auth ∈ tree, seenBy auth = []))

theorem seenOf_unused {tree : List X11FakeAuth} (hu : Unused tree) (b : List UInt8) : seenOf tree b = [] := by
  unfold seenOf
  cases hf : tree.find? (xdmMatches b) with
  | none => rfl
  | some auth => exact hu auth (List.mem_of_find?_eq_some hf)

theorem verifyStart_inv {tree : List X11FakeAuth} (hu : Unused tree) (clock : Int) : ReplayInv (verifyStart tree clock) := by
  refine ⟨fun b => ?_, fun p hm => (List.not_mem_nil hm).elim, List.nodup_nil⟩
  show ByTime (seenOf tree b)
  rw [seenOf_unused hu]
  exact .nil

/-- No call fails, and along a run of timely calls nothing is accepted twice. -/
theorem replays_refused (des : Des) (longBits : Nat) {tree : List X11FakeAuth} (hu : Unused tree) (clock : Int)
    (calls : List VerifyCall) :
    (run (verifyStep des longBits) (verifyStart tree clock) calls).isSome ∧
      (Along (verifyStep des longBits) (Timely des longBits) (verifyStart tree clock) calls →
        Always (verifyStep des longBits) (fun _ s => s.accepted.Nodup) (verifyStart tree clock) calls) := by
  constructor
  · generalize verifyStart tree clock = s
    induction calls generalizing s with
    | nil => rfl
    | cons c calls ih =>
      obtain ⟨s', hs'⟩ := Option.isSome_iff_exists.mp (verifyStep_isSome des longBits s c)
      rw [run_cons, hs']
      exact ih s'
  · intro hal
    refine (always_of_inv (I := fun _ s => ReplayInv s) (verifyStart_inv hu clock) ?_ calls hal).mono fun _ _ hi => hi.nodup
    intro _ s c hi ht
    obtain ⟨s', hs'⟩ := Option.isSome_iff_exists.mp (verifyStep_isSome des longBits s c)
    exact ⟨s', hs', verifyStep_inv hi ht hs'⟩

/-- DES on the two authorisations below. -/
def twoBlocks : Des where
  encrypt _ data := data
  decrypt _ data :=
    if data = [145, 242, 241, 18, 107, 215, 118, 50, 117, 251, 6, 143, 67, 165, 155, 103, 74, 114, 38, 219, 75, 107, 113, 56] then
      [1, 2, 3, 4, 5, 6, 7, 8, 127, 0, 0, 1, 156, 64, 95, 94, 11, 80, 0, 0, 0, 0, 0, 0]
    else [1, 2, 3, 4, 5, 6, 7, 8, 127, 0, 0, 1, 156, 64, 95, 94, 16, 1, 0, 0, 0, 0, 0, 0]

/-- The cookie 01..08 00 09..0f. -/
def oneCookie : List X11FakeAuth :=
  [⟨.xdm [145, 242, 241, 18, 107, 215, 118, 50] [], [1, 2, 3, 4, 5, 6, 7, 8, 0, 9, 10, 11, 12, 13, 14, 15], ⟨0, 0, []⟩,
    none⟩]

/-- An authorisation dated 20 minutes before 1600000000. -/
def earlyCall : VerifyCall :=
  ⟨0, ⟨0x7f000001, 40000⟩, x11Authname x11Xdm,
    [145, 242, 241, 18, 107, 215, 118, 50, 117, 251, 6, 143, 67, 165, 155, 103, 74, 114, 38, 219, 75, 107, 113, 56], 24, []⟩

/-- One dated a second after it. -/
def lateCall : VerifyCall :=
  { earlyCall with
    data := [145, 242, 241, 18, 107, 215, 118, 50, 117, 251, 6, 143, 67, 165, 155, 103, 164, 182, 7, 170, 29, 28, 224, 73] }

theorem replays_refused_once :
    Always (verifyStep twoBlocks 64) (fun _ s => s.accepted.Nodup) (verifyStart oneCookie 1600000000) [earlyCall] :=
  (replays_refused twoBlocks 64 (show Unused oneCookie by decide) 1600000000 [earlyCall]).2
    ⟨fun _ block seen _ hp _ => ⟨by unfold NoWrap verifyStart earlyCall; norm_num, fun r hr => by
      have hnil : seenOf oneCookie block = seen := seenOf_found hp.found hp.kind
      rw [← hnil, seenOf_unused (by decide)] at hr
      cases hr⟩, fun _ _ => trivial⟩

/-- At one and the same time. -/
theorem accepted_twice :
    Unused oneCookie ∧ ¬Always (verifyStep twoBlocks 64) (fun _ s => s.accepted.Nodup) (verifyStart oneCookie 1600000000)
      [earlyCall, lateCall, earlyCall] := by
  have hrun : (run (verifyStep twoBlocks 64) (verifyStart oneCookie 1600000000) [earlyCall, lateCall, earlyCall]).map
      (fun s => decide s.accepted.Nodup) = some false := by decide +kernel
  refine ⟨by decide, fun hall => ?_⟩
  obtain ⟨s, hs, hnodup⟩ := hall _ (List.prefix_refl _)
  rw [hs] at hrun
  exact of_decide_eq_false (Option.some.inj hrun) hnodup

end Putty.X11
