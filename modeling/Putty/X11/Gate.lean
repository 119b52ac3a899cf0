/-
  Putty.X11.Gate — what a forwarded X11 channel lets through, against the stream that
  arrived on it.

  The first packet and what it comes to are read from the stream at once; x11_send reads
  them in whatever pieces they come.
-/

import Putty.X11.Send

namespace Putty.X11

open Putty.Utils

/-! ## The first packet of a stream -/

def plenOf (r : List UInt8) : Nat := get16BitX11 (r.getD 0 0) (r.drop 6)
def dlenOf (r : List UInt8) : Nat := get16BitX11 (r.getD 0 0) (r.drop 8)

/-- Where the authorisation data begins, and where the packet ends. -/
def dataAt (r : List UInt8) : Nat := 12 + pad4 (plenOf r)
def total (r : List UInt8) : Nat := dataAt r + pad4 (dlenOf r)

def protocolOf (r : List UInt8) : List UInt8 := (r.drop 12).take (plenOf r)

/-- The declared authorisation data, and with its padding. -/
def authOf (r : List UInt8) : List UInt8 := (r.drop (dataAt r)).take (dlenOf r)
def paddedAuthOf (r : List UInt8) : List UInt8 := (r.drop (dataAt r)).take (pad4 (dlenOf r))

/-- What a packet comes to. -/
inductive Outcome where
  | refused (err : List UInt8)
  | handedOver (share : Nat × Nat)
  | unreachable (err : List UInt8)
  | accepted (greeting : List UInt8)

/-- The verdict on a packet where it is met. -/
def verdict (p : Params) (env : Env) (r : List UInt8) : Option Outcome :=
  (x11Verify p.des env.setting p.peer env.authtree (cstring (protocolOf r)) (paddedAuthOf r) (dlenOf r) env.beyond).map fun v =>
    match v.ret with
    | .error err => .refused err
    | .ok auth =>
      match auth.share with
      | some share => .handedOver share
      | none =>
        match env.connect with
        | .error err => .unreachable (text "unable to connect to forwarded X server: " ++ err)
        | .ok socketdata => .accepted (greeting p env (r.take 12) auth.disp socketdata)

/-- The packet carries an authorisation of the tree. -/
def Authorised (p : Params) (env : Env) (r : List UInt8) : Prop :=
  ∃ auth ∈ env.authtree, Carries p.des p.peer (cstring (protocolOf r)) (authOf r) auth

/-- The comparison with the first blocks reads more than there is. -/
def Overreads (env : Env) (r : List UInt8) : Prop :=
  cstring (protocolOf r) = x11Authname x11Xdm ∧ dlenOf r < 8 ∧ env.authtree.any isXdm

/-! ## What is claimed of a channel -/

/-- The bytes of a run. -/
def stream (evs : List Ev) : List UInt8 :=
  evs.flatMap fun
    | .send data _ => data
    | .flush => []

/-- Nothing has gone anywhere. -/
structure Silent (t : St) : Prop where
  toServer : t.toServer = []
  replies : t.replies = []
  eofs : t.eofs = 0
  handover : t.handover = none

/-- What has gone where, once the packet has this outcome. -/
def Shows (p : Params) (t : St) : Outcome → Prop
  | .refused err => t.toServer = [] ∧ t.replies = [errorReply p (t.received.take 12) err] ∧ t.eofs = 1 ∧ t.handover = none
  | .unreachable err => t.toServer = [] ∧ t.replies = [errorReply p (t.received.take 12) err] ∧ t.eofs = 1 ∧ t.handover = none
  | .handedOver share => t.toServer = [] ∧ t.replies = [] ∧ t.eofs = 0 ∧
      ∃ endian major minor, t.handover = some ⟨share, endian, major, minor, t.received.drop (total t.received)⟩
  | .accepted greeting => t.toServer = greeting ++ t.received.drop (total t.received) ∧ t.replies = [] ∧ t.eofs = 0 ∧
      t.handover = none

/-- The gate after a run: it waits for the first packet, and then shows what the packet
    comes to, and lets nothing pass that is not authorised. -/
structure GateHolds (p : Params) (evs : List Ev) (t : St) : Prop where
  received : t.handover = none → t.received = stream evs
  waits : ¬ Complete t.received → Silent t
  shows : Complete t.received → ∃ env o, t.decidedIn = some env ∧ verdict p env t.received = some o ∧ Shows p t o
  gate : t.toServer ≠ [] ∨ t.handover.isSome → ∃ env, t.decidedIn = some env ∧ Authorised p env t.received
  inBounds : t.overread = false

/-- No data comes once the channel has been answered, and none is compared with a first
    block that it is too short for. -/
def Sound (t : St) : Ev → Prop
  | .send data env => t.handover.isSome ∨ (Complete t.received → t.verified) ∧
      (¬ Complete t.received → Complete (t.received ++ data) → ¬ Overreads env (t.received ++ data))
  | .flush => True

/-! ## Streams that grow -/

theorem get16_congr {l m : List UInt8} (endian : UInt8) {k : Nat} (h0 : l.getD k 0 = m.getD k 0)
    (h1 : l.getD (k + 1) 0 = m.getD (k + 1) 0) : get16BitX11 endian (l.drop k) = get16BitX11 endian (m.drop k) := by
  have hd : ∀ (x : List UInt8) (i : Nat), (x.drop k).getD i 0 = x.getD (k + i) 0 := fun x i => by
    rw [List.getD_eq_getElem?_getD, List.getElem?_drop, ← List.getD_eq_getElem?_getD]
  simp only [get16BitX11, hd, Nat.add_zero, h0, h1]

theorem getD_take {l : List UInt8} {n k : Nat} (h : k < n) : (l.take n).getD k 0 = l.getD k 0 := by
  simp only [List.getD_eq_getElem?_getD, List.getElem?_take_of_lt h]

theorem getD_grow {r : List UInt8} (d : List UInt8) {k : Nat} (h : k < r.length) : (r ++ d).getD k 0 = r.getD k 0 := by
  simp only [List.getD_eq_getElem?_getD, List.getElem?_append_left h]

theorem plenOf_grow {r : List UInt8} (h : 12 ≤ r.length) (d : List UInt8) : plenOf (r ++ d) = plenOf r := by
  rw [plenOf, plenOf, getD_grow d (by omega)]
  exact get16_congr _ (getD_grow d (by omega)) (getD_grow d (by omega))

theorem dlenOf_grow {r : List UInt8} (h : 12 ≤ r.length) (d : List UInt8) : dlenOf (r ++ d) = dlenOf r := by
  rw [dlenOf, dlenOf, getD_grow d (by omega)]
  exact get16_congr _ (getD_grow d (by omega)) (getD_grow d (by omega))

theorem dataAt_grow {r : List UInt8} (h : 12 ≤ r.length) (d : List UInt8) : dataAt (r ++ d) = dataAt r := by
  rw [dataAt, dataAt, plenOf_grow h]

theorem total_grow {r : List UInt8} (h : 12 ≤ r.length) (d : List UInt8) : total (r ++ d) = total r := by
  rw [total, total, dataAt_grow h, dlenOf_grow h]

theorem le_pad4 (n : Nat) : n ≤ pad4 n := by
  unfold pad4
  omega

theorem le_total (r : List UInt8) : 12 ≤ total r := by
  unfold total dataAt
  omega

theorem complete_iff (r : List UInt8) : Complete r ↔ 12 ≤ r.length ∧ total r ≤ r.length :=
  Iff.rfl

theorem Complete.grow {r : List UInt8} (h : Complete r) (d : List UInt8) : Complete (r ++ d) := by
  rw [complete_iff, total_grow h.1, List.length_append]
  have := (complete_iff r).mp h
  omega

theorem take_drop_grow {r : List UInt8} (d : List UInt8) {a n : Nat} (h : a + n ≤ r.length) :
    ((r ++ d).drop a).take n = (r.drop a).take n := by
  rw [List.drop_append_of_le_length (by omega), List.take_append_of_le_length (by rw [List.length_drop]; omega)]

/-- A complete packet is not changed by what follows it. -/
theorem verdict_grow (p : Params) (env : Env) {r : List UInt8} (h : Complete r) (d : List UInt8) :
    verdict p env (r ++ d) = verdict p env r := by
  have hlen := (complete_iff r).mp h
  have hp := le_pad4 (plenOf r)
  have htot : total r = 12 + pad4 (plenOf r) + pad4 (dlenOf r) := rfl
  have hproto : protocolOf (r ++ d) = protocolOf r := by
    rw [protocolOf, plenOf_grow h.1]
    exact take_drop_grow d (by omega)
  have hauth : paddedAuthOf (r ++ d) = paddedAuthOf r := by
    rw [paddedAuthOf, dataAt_grow h.1, dlenOf_grow h.1]
    exact take_drop_grow d (show dataAt r + _ ≤ _ from hlen.2)
  have hfirst : (r ++ d).take 12 = r.take 12 := List.take_append_of_le_length h.1
  rw [verdict, hproto, hauth, hfirst, dlenOf_grow h.1, verdict]

/-! ## Reading the first packet -/

/-- The channel has read this much of the stream, of which the last data is not yet read,
    and has done nothing else. -/
structure Reading (t : St) (r : List UInt8) : Prop where
  le : t.dataRead ≤ r.length
  firstpkt : t.firstpkt = r.take (min t.dataRead 12)
  authProtocol : t.authProtocol = (r.drop 12).take (min t.dataRead (dataAt r) - 12)
  authData : t.authData = (r.drop (dataAt r)).take (min t.dataRead (total r) - dataAt r)
  sizes : t.allocated = true → 12 ≤ t.dataRead ∧ t.authPlen = plenOf r ∧ t.authDlen = dlenOf r ∧
    t.authPsize = pad4 (plenOf r) ∧ t.authDsize = pad4 (dlenOf r)
  silent : Silent t
  verified : t.verified = false
  s : t.s = false
  pendingEof : t.pendingEof = false
  sentEof : t.sentEof = false
  overread : t.overread = false

theorem Silent.congr {t t' : St} (h : Silent t)
    (he : (t'.toServer, t'.replies, t'.eofs, t'.handover) = (t.toServer, t.replies, t.eofs, t.handover)) : Silent t' := by
  simp only [Prod.mk.injEq] at he
  obtain ⟨h1, h2, h3, h4⟩ := he
  exact ⟨h1.trans h.toServer, h2.trans h.replies, h3.trans h.eofs, h4.trans h.handover⟩

theorem take_upto {r : List UInt8} {a b q : Nat} (hq : q ≤ r.length) (h : a ≤ q ∨ q = r.length) :
    (r.drop a).take (min q b - a) ++ (r.drop q).take (b - q) =
      (r.drop a).take (min (q + ((r.drop q).take (b - q)).length) b - a) := by
  rcases Nat.lt_or_ge q b with hlt | hge
  · rw [List.length_take, List.length_drop, Nat.min_eq_left (Nat.le_of_lt hlt)]
    rcases h with h | h
    · have hmin : min (q + min (b - q) (r.length - q)) b - a = (q - a) + min (b - q) (r.length - q) := by omega
      rw [hmin, List.take_add, List.drop_drop, show a + (q - a) = q by omega, ← List.length_drop, ← List.take_eq_take_min]
    · subst h
      rw [List.drop_length, List.take_nil, List.append_nil, Nat.sub_self, Nat.min_zero, Nat.add_zero, Nat.min_eq_left (Nat.le_of_lt hlt)]
  · rw [show b - q = 0 by omega, List.take_zero, List.append_nil]
    rfl

theorem drop_upto {r : List UInt8} {b q : Nat} (hq : q ≤ r.length) :
    (r.drop q).drop (b - q) = r.drop (q + ((r.drop q).take (b - q)).length) := by
  rw [List.drop_drop, List.length_take, List.length_drop]
  rcases Nat.le_total (b - q) (r.length - q) with h | h
  · rw [Nat.min_eq_left h]
  · rw [Nat.min_eq_right h, List.drop_eq_nil_of_le (by omega), List.drop_eq_nil_of_le (by omega)]

/-- How far a loop up to `b` gets: to `b`, or to the end. -/
theorem upto_length {r : List UInt8} {b q : Nat} (hq : q ≤ r.length) :
    q + ((r.drop q).take (b - q)).length = max q (min b r.length) := by
  rw [List.length_take, List.length_drop]
  omega

theorem Reading.readFirst {t : St} {r : List UInt8} (h : Reading t r) :
    Reading (readFirst t (r.drop t.dataRead)).1 r ∧
      (readFirst t (r.drop t.dataRead)).1.dataRead = max t.dataRead (min 12 r.length) ∧
      (readFirst t (r.drop t.dataRead)).2 = r.drop (readFirst t (r.drop t.dataRead)).1.dataRead := by
  have hle := h.le
  have hdata : 12 ≤ dataAt r := Nat.le_add_right _ _
  have htot := le_total r
  have hq := upto_length (b := 12) hle
  refine ⟨⟨?_, ?_, ?_, ?_, ?_, h.silent.congr rfl, h.verified, h.s, h.pendingEof, h.sentEof, h.overread⟩, hq, drop_upto hle⟩
  · show t.dataRead + _ ≤ _
    omega
  · have := take_upto (a := 0) (b := 12) hle (.inl (Nat.zero_le _))
    rw [List.drop_zero, Nat.sub_zero, Nat.sub_zero, ← h.firstpkt] at this
    exact this
  · show t.authProtocol = (r.drop 12).take (min (t.dataRead + _) _ - 12)
    rw [h.authProtocol, hq]
    congr 1
    omega
  · show t.authData = (r.drop (dataAt r)).take (min (t.dataRead + _) _ - dataAt r)
    rw [h.authData, hq]
    congr 1
    omega
  · intro ha
    obtain ⟨h12, hs⟩ := h.sizes ha
    exact ⟨show 12 ≤ t.dataRead + _ by omega, hs⟩

theorem Reading.allocate {t : St} {r : List UInt8} (h : Reading t r) (h12 : 12 ≤ t.dataRead) :
    Reading (allocate t) r ∧ (allocate t).allocated = true ∧ (allocate t).dataRead = t.dataRead := by
  unfold X11.allocate
  by_cases ha : t.allocated = true
  · rw [if_pos ha]
    exact ⟨h, ha, rfl⟩
  · rw [if_neg ha]
    have hfirst : t.firstpkt = r.take 12 := by rw [h.firstpkt, Nat.min_eq_right h12]
    have h0 : t.firstpkt.getD 0 0 = r.getD 0 0 := by rw [hfirst, getD_take (by decide)]
    have hp : get16BitX11 (t.firstpkt.getD 0 0) (t.firstpkt.drop 6) = plenOf r := by
      rw [h0, hfirst]
      exact get16_congr _ (getD_take (by decide)) (getD_take (by decide))
    have hd : get16BitX11 (t.firstpkt.getD 0 0) (t.firstpkt.drop 8) = dlenOf r := by
      rw [h0, hfirst]
      exact get16_congr _ (getD_take (by decide)) (getD_take (by decide))
    refine ⟨⟨h.le, h.firstpkt, h.authProtocol, h.authData, fun _ => ⟨h12, hp, hd, congrArg pad4 hp, congrArg pad4 hd⟩, h.silent.congr rfl,
      h.verified, h.s, h.pendingEof, h.sentEof, h.overread⟩, rfl, rfl⟩

theorem Reading.readProtocol {t : St} {r : List UInt8} (h : Reading t r) (ha : t.allocated = true) :
    Reading (readProtocol t (r.drop t.dataRead)).1 r ∧ (readProtocol t (r.drop t.dataRead)).1.allocated = true ∧
      (readProtocol t (r.drop t.dataRead)).1.dataRead = max t.dataRead (min (dataAt r) r.length) ∧
      (readProtocol t (r.drop t.dataRead)).2 = r.drop (readProtocol t (r.drop t.dataRead)).1.dataRead := by
  have hle := h.le
  obtain ⟨h12, hplen, hdlen, hpsize, hdsize⟩ := h.sizes ha
  have hdata : 12 ≤ dataAt r := Nat.le_add_right _ _
  have htot : dataAt r ≤ total r := Nat.le_add_right _ _
  have hb : 12 + t.authPsize = dataAt r := by rw [hpsize]; rfl
  have hq := upto_length (b := dataAt r) hle
  unfold X11.readProtocol
  rw [hb]
  refine ⟨⟨?_, ?_, ?_, ?_, ?_, h.silent.congr rfl, h.verified, h.s, h.pendingEof, h.sentEof, h.overread⟩, ha, hq, drop_upto hle⟩
  · show t.dataRead + _ ≤ _
    omega
  · show t.firstpkt = r.take (min (t.dataRead + _) 12)
    rw [h.firstpkt]
    congr 1
    omega
  · show t.authProtocol ++ _ = _
    rw [h.authProtocol]
    exact take_upto hle (.inl h12)
  · show t.authData = (r.drop (dataAt r)).take (min (t.dataRead + _) _ - dataAt r)
    rw [h.authData, hq]
    congr 1
    omega
  · intro _
    exact ⟨show 12 ≤ t.dataRead + _ by omega, hplen, hdlen, hpsize, hdsize⟩

theorem Reading.readData {t : St} {r : List UInt8} (h : Reading t r) (ha : t.allocated = true)
    (hat : dataAt r ≤ t.dataRead ∨ t.dataRead = r.length) :
    Reading (readData t (r.drop t.dataRead)).1 r ∧ (readData t (r.drop t.dataRead)).1.allocated = true ∧
      (readData t (r.drop t.dataRead)).1.dataRead = max t.dataRead (min (total r) r.length) ∧
      (readData t (r.drop t.dataRead)).2 = r.drop (readData t (r.drop t.dataRead)).1.dataRead := by
  have hle := h.le
  obtain ⟨h12, hplen, hdlen, hpsize, hdsize⟩ := h.sizes ha
  have htot : total r = dataAt r + pad4 (dlenOf r) := rfl
  have hb : 12 + t.authPsize + t.authDsize = total r := by rw [hpsize, hdsize]; rfl
  have hq := upto_length (b := total r) hle
  unfold X11.readData
  rw [hb]
  refine ⟨⟨?_, ?_, ?_, ?_, ?_, h.silent.congr rfl, h.verified, h.s, h.pendingEof, h.sentEof, h.overread⟩, ha, hq, drop_upto hle⟩
  · show t.dataRead + _ ≤ _
    omega
  · show t.firstpkt = r.take (min (t.dataRead + _) 12)
    rw [h.firstpkt]
    congr 1
    omega
  · show t.authProtocol = (r.drop 12).take (min (t.dataRead + _) _ - 12)
    rw [h.authProtocol, hq]
    rcases hat with hat | hat
    · congr 1
      omega
    · congr 1
      omega
  · show t.authData ++ _ = _
    rw [h.authData]
    exact take_upto hle hat
  · intro _
    exact ⟨show 12 ≤ t.dataRead + _ by omega, hplen, hdlen, hpsize, hdsize⟩

/-- What has been read of a stream is read of every longer one. -/
theorem Reading.grow {t : St} {r : List UInt8} (h : Reading t r) (hall : t.dataRead = r.length) (d : List UInt8) :
    Reading t (r ++ d) := by
  have hlen : (r ++ d).length = r.length + d.length := List.length_append
  have hfirst : t.firstpkt = (r ++ d).take (min t.dataRead 12) := by
    rw [h.firstpkt, List.take_append_of_le_length (by omega)]
  rcases Nat.lt_or_ge r.length 12 with h12 | h12
  · have hdata : ∀ x, 12 ≤ dataAt x := fun _ => Nat.le_add_right _ _
    have htot : ∀ x, dataAt x ≤ total x := fun _ => Nat.le_add_right _ _
    have h0 : ∀ x, min t.dataRead (dataAt x) - 12 = 0 := fun x => by omega
    have h1 : ∀ x, min t.dataRead (total x) - dataAt x = 0 := fun x => by have := hdata x; omega
    refine ⟨by omega, hfirst, ?_, ?_, fun ha => ?_, h.silent, h.verified, h.s, h.pendingEof, h.sentEof, h.overread⟩
    · rw [h.authProtocol, h0, h0, List.take_zero, List.take_zero]
    · rw [h.authData, h1, h1, List.take_zero, List.take_zero]
    · have := (h.sizes ha).1
      omega
  · have hp := plenOf_grow h12 d
    have hd := dlenOf_grow h12 d
    refine ⟨by omega, hfirst, ?_, ?_, fun ha => ?_, h.silent, h.verified, h.s, h.pendingEof, h.sentEof, h.overread⟩
    · rw [h.authProtocol, dataAt_grow h12, take_drop_grow d (by omega)]
    · rw [h.authData, dataAt_grow h12, total_grow h12]
      rcases Nat.lt_or_ge (dataAt r) r.length with hlt | hge
      · exact (take_drop_grow d (by omega)).symm
      · rw [show min t.dataRead (total r) - dataAt r = 0 by omega, List.take_zero, List.take_zero]
    · rw [hp, hd]
      exact h.sizes ha

/-- A call reads on through the first packet, and verifies it when it is there. -/
theorem Reading.send {t : St} {r : List UInt8} (h : Reading t r) (hbound : t.dataRead ≤ total r) (p : Params) (env : Env) :
    ∃ t', Reading t' r ∧ t'.dataRead = min r.length (total r) ∧ t'.received = t.received ∧ t'.decidedIn = t.decidedIn ∧
      (Complete r → t'.allocated = true) ∧
      x11Send p t (r.drop t.dataRead) env = if Complete r then verify p t' (r.drop (total r)) env else some t' := by
  have hdata : 12 ≤ dataAt r := Nat.le_add_right _ _
  have htot : dataAt r ≤ total r := Nat.le_add_right _ _
  have hle := h.le
  obtain ⟨h1, hq1, hr1⟩ := h.readFirst
  have hrec1 : (X11.readFirst t (r.drop t.dataRead)).1.received = t.received := rfl
  have hdec1 : (X11.readFirst t (r.drop t.dataRead)).1.decidedIn = t.decidedIn := rfl
  rw [x11Send]
  generalize X11.readFirst t (r.drop t.dataRead) = r1 at h1 hq1 hr1 hrec1 hdec1
  by_cases h12 : r1.1.dataRead < 12
  · have hnot : ¬ Complete r := fun hc => by have := hc.1; omega
    refine ⟨r1.1, h1, by omega, hrec1, hdec1, fun hc => absurd hc hnot, ?_⟩
    dsimp only
    rw [if_pos h12, if_neg hnot]
  · obtain ⟨h2, ha2, hq2⟩ := h1.allocate (by omega)
    have hrec2 : (X11.allocate r1.1).received = t.received := by rw [← hrec1, X11.allocate]; split <;> rfl
    have hdec2 : (X11.allocate r1.1).decidedIn = t.decidedIn := by rw [← hdec1, X11.allocate]; split <;> rfl
    rw [← hq2] at hr1
    obtain ⟨h3, ha3, hq3, hr3⟩ := h2.readProtocol ha2
    rw [← hr1] at h3 ha3 hq3 hr3
    have hrec3 : (X11.readProtocol (X11.allocate r1.1) r1.2).1.received = t.received := hrec2
    have hdec3 : (X11.readProtocol (X11.allocate r1.1) r1.2).1.decidedIn = t.decidedIn := hdec2
    dsimp only
    rw [if_neg h12]
    generalize X11.readProtocol (X11.allocate r1.1) r1.2 = r3 at h3 ha3 hq3 hr3 hrec3 hdec3
    obtain ⟨h4, ha4, hq4, hr4⟩ := h3.readData ha3 (by omega)
    rw [← hr3] at h4 ha4 hq4 hr4
    have hrec4 : (X11.readData r3.1 r3.2).1.received = t.received := hrec3
    have hdec4 : (X11.readData r3.1 r3.2).1.decidedIn = t.decidedIn := hdec3
    generalize X11.readData r3.1 r3.2 = r4 at h4 ha4 hq4 hr4 hrec4 hdec4
    obtain ⟨-, -, -, hpsize, hdsize⟩ := h4.sizes ha4
    have hb : 12 + r4.1.authPsize + r4.1.authDsize = total r := by rw [hpsize, hdsize]; rfl
    have hq : r4.1.dataRead = min r.length (total r) := by omega
    refine ⟨r4.1, h4, hq, hrec4, hdec4, fun _ => ha4, ?_⟩
    rw [hb]
    by_cases hc : Complete r
    · have := (complete_iff r).mp hc
      rw [if_neg (by omega), if_neg (by simp [h4.verified]), if_pos hc, hr4, hq, Nat.min_eq_right this.2]
    · have : ¬ total r ≤ r.length := fun ht => hc ⟨by have := h4.le; omega, ht⟩
      rw [if_pos (by omega), if_neg hc]

/-! ## The verdict -/

/-- The outcomes that let the stream through. -/
def Outcome.passes : Outcome → Bool
  | .refused _ => false
  | .handedOver _ => true
  | .unreachable _ => false
  | .accepted _ => true

/-- Only a packet that carries an authorisation of the tree passes. -/
theorem verdict_authorised {p : Params} {env : Env} {r : List UInt8} (hc : Complete r) {o : Outcome}
    (h : verdict p env r = some o) (ho : o.passes) : Authorised p env r := by
  obtain ⟨v, hv, rfl⟩ := Option.map_eq_some_iff.mp h
  have hlen : dlenOf r ≤ (paddedAuthOf r).length := by
    have := (complete_iff r).mp hc
    have htot : total r = dataAt r + pad4 (dlenOf r) := rfl
    have hd := le_pad4 (dlenOf r)
    rw [paddedAuthOf, List.length_take, List.length_drop]
    omega
  have htake : (paddedAuthOf r).take (dlenOf r) = authOf r := by
    rw [paddedAuthOf, List.take_take, Nat.min_eq_left (le_pad4 _), authOf]
  cases hret : v.ret with
  | error err => rw [hret] at ho; cases ho
  | ok auth =>
    obtain ⟨a, ha, hcarries, -⟩ := x11Verify_carries hlen hv hret
    rw [htake] at hcarries
    exact ⟨a, ha, hcarries⟩

/-- The channel after its first packet was verified there, with this outcome. -/
structure Settled (p : Params) (t : St) (env : Env) (o : Outcome) : Prop where
  decided : t.decidedIn = some env
  complete : Complete t.received
  verdict : verdict p env t.received = some o
  shows : Shows p t o
  dataRead : t.dataRead = total t.received
  sizes : t.allocated = true ∧ 12 + t.authPsize + t.authDsize = total t.received
  verified : t.verified = true ↔ ∃ greeting, o = .accepted greeting
  s : ∀ err, o = .unreachable err → t.s = true

/-- The failure reply on a channel that has written nothing. -/
theorem x11SendInitError_silent (p : Params) {t : St} (h : Silent t) (hp : t.pendingEof = false) (hs : t.sentEof = false)
    (err : List UInt8) (room : Bool) :
    ∃ t', x11SendInitError p t err room = some t' ∧ t'.toServer = [] ∧ t'.replies = [errorReply p t.firstpkt err] ∧ t'.eofs = 1 ∧
      t'.handover = none ∧ t'.received = t.received ∧ t'.decidedIn = t.decidedIn ∧ t'.dataRead = t.dataRead ∧
      t'.allocated = t.allocated ∧ t'.authPsize = t.authPsize ∧ t'.authDsize = t.authDsize ∧ t'.verified = t.verified ∧
      t'.s = t.s ∧ t'.overread = t.overread := by
  have hrep : t.replies ++ [errorReply p t.firstpkt err] = [errorReply p t.firstpkt err] := by rw [h.replies, List.nil_append]
  have heof : t.eofs + 1 = 1 := by rw [h.eofs]
  rw [x11SendInitError, sshfwdWrite, if_neg (by simp [hs])]
  dsimp only
  rw [if_neg (by simp [hp])]
  cases room <;>
  · simp only [Option.map_some, sshfwdWriteEof, tryEof, hs, Bool.false_eq_true, if_false, Bool.not_true, Bool.not_false, if_true]
    exact ⟨_, rfl, h.toServer, hrep, heof, h.handover, rfl, rfl, rfl, rfl, rfl, rfl, rfl, rfl, rfl⟩

/-- The failure reply settles a channel as refused, or as unreachable. -/
theorem settled_initError {p : Params} {t : St} {env : Env} {o : Outcome} {err : List UInt8} (hsilent : Silent t)
    (hp : t.pendingEof = false) (hs : t.sentEof = false) (hv : t.verified = false) (hdec : t.decidedIn = some env)
    (hc : Complete t.received) (hq : t.dataRead = total t.received)
    (hsizes : t.allocated = true ∧ 12 + t.authPsize + t.authDsize = total t.received)
    (hfirst : t.firstpkt = t.received.take 12) (hverdict : verdict p env t.received = some o)
    (ho : o = .refused err ∨ o = .unreachable err ∧ t.s = true) :
    ∃ t', x11SendInitError p t err env.room = some t' ∧ t'.received = t.received ∧ Settled p t' env o ∧
      t'.overread = t.overread := by
  obtain ⟨t', ht', h1, h2, h3, h4, h5, h6, h7, h8, h9, h10, h11, h12, h13⟩ :=
    x11SendInitError_silent p hsilent hp hs err env.room
  rw [hfirst, ← h5] at h2
  have hshows : Shows p t' o := by
    rcases ho with rfl | ⟨rfl, -⟩
    · exact ⟨h1, h2, h3, h4⟩
    · exact ⟨h1, h2, h3, h4⟩
  refine ⟨t', ht', h5, ⟨h6.trans hdec, h5 ▸ hc, h5 ▸ hverdict, hshows, ?_, ⟨h8.trans hsizes.1, ?_⟩, ?_, ?_⟩, h13⟩
  · rw [h7, h5]
    exact hq
  · rw [h9, h10, h5]
    exact hsizes.2
  · rw [h11, hv]
    refine ⟨fun hf => Bool.noConfusion hf, fun ⟨_, hg⟩ => ?_⟩
    subst hg
    rcases ho with ho | ⟨ho, -⟩
    · cases ho
    · cases ho
  · intro err' he
    subst he
    rcases ho with ho | ⟨-, ho⟩
    · cases ho
    · rw [h12]
      exact ho

/-- Verifying settles the channel. -/
theorem Reading.verify {t : St} (h : Reading t t.received) (hc : Complete t.received) (hq : t.dataRead = total t.received)
    (ha : t.allocated = true) (p : Params) (env : Env) (hdec : t.decidedIn = some env) :
    ∃ t' o, verify p t (t.received.drop (total t.received)) env = some t' ∧ t'.received = t.received ∧ Settled p t' env o ∧
      (t'.overread = true ↔ Overreads env t.received) := by
  obtain ⟨-, hplen, hdlen, hpsize, hdsize⟩ := h.sizes ha
  have htot : total t.received = dataAt t.received + pad4 (dlenOf t.received) := rfl
  have hdata : dataAt t.received = 12 + pad4 (plenOf t.received) := rfl
  have hsizes : 12 + t.authPsize + t.authDsize = total t.received := by rw [hpsize, hdsize]; rfl
  have hfirst : t.firstpkt = t.received.take 12 := by
    rw [h.firstpkt, hq, Nat.min_eq_right (le_total _)]
  have hproto : cstring (t.authProtocol.take t.authPlen) = cstring (protocolOf t.received) := by
    rw [h.authProtocol, hplen, List.take_take, protocolOf]
    congr 2
    have := le_pad4 (plenOf t.received)
    omega
  have hauth : t.authData = paddedAuthOf t.received := by
    rw [h.authData, paddedAuthOf]
    congr 1
    omega
  have hover := h.overread
  have hsome := x11Verify_isSome p.des env.setting p.peer env.authtree (cstring (protocolOf t.received))
    (paddedAuthOf t.received) (dlenOf t.received) env.beyond
  obtain ⟨v, hv⟩ := Option.isSome_iff_exists.mp hsome
  have hread := x11Verify_overread hv
  have hverdict : X11.verdict p env t.received = some _ := congrArg (Option.map _) hv
  rw [← hproto, ← hauth, ← hdlen] at hv
  rw [X11.verify, if_neg (by simp [h.s]), hv, Option.bind_some]
  dsimp only [Option.map_some] at hverdict ⊢
  rw [hover, Bool.false_or]
  cases hret : v.ret with
  | error err =>
    simp only [hret] at hverdict ⊢
    obtain ⟨t', ht', hrec, hset, hov⟩ := settled_initError (t := { t with authData := v.data, overread := v.overread })
      (h.silent.congr rfl) h.pendingEof h.sentEof h.verified hdec hc hq ⟨ha, hsizes⟩ hfirst hverdict (.inl rfl)
    exact ⟨t', _, ht', hrec, hset, hov ▸ hread⟩
  | ok auth =>
    simp only [hret] at hverdict ⊢
    cases hshare : auth.share with
    | some share =>
      simp only [hshare] at hverdict ⊢
      refine ⟨_, _, rfl, rfl, ⟨hdec, hc, hverdict, ⟨h.silent.toServer, h.silent.replies, h.silent.eofs, _, _, _, rfl⟩, hq,
        ⟨ha, hsizes⟩, ?_, ?_⟩, hread⟩
      · rw [h.verified]
        constructor
        · intro hf
          exact Bool.noConfusion hf
        · intro hg
          obtain ⟨_, hg⟩ := hg
          cases hg
      · intro _ hg
        cases hg
    | none =>
      simp only [hshare] at hverdict ⊢
      cases hconn : env.connect with
      | error err =>
        simp only [hconn] at hverdict ⊢
        obtain ⟨t', ht', hrec, hset, hov⟩ := settled_initError
          (t := { t with authData := v.data, overread := v.overread, s := true })
          (h.silent.congr rfl) h.pendingEof h.sentEof h.verified hdec hc hq ⟨ha, hsizes⟩ hfirst hverdict (.inr ⟨rfl, rfl⟩)
        exact ⟨t', _, ht', hrec, hset, hov ▸ hread⟩
      | ok socketdata =>
        simp only [hconn] at hverdict ⊢
        refine ⟨_, _, rfl, rfl, ⟨hdec, hc, hverdict, ⟨?_, h.silent.replies, h.silent.eofs, h.silent.handover⟩, hq,
          ⟨ha, hsizes⟩, ⟨fun _ => ⟨_, rfl⟩, fun _ => rfl⟩, ?_⟩, hread⟩
        · show (t.toServer ++ greeting p env t.firstpkt auth.disp socketdata) ++ _ = _
          rw [h.silent.toServer, List.nil_append, hfirst]
          rfl
        · intro _ hg
          cases hg

/-! ## Calls on a settled channel -/

theorem readFirst_past {t : St} (h : 12 ≤ t.dataRead) (data : List UInt8) : readFirst t data = (t, data) := by
  simp only [readFirst, Nat.sub_eq_zero_of_le h, List.take_zero, List.append_nil, List.length_nil, Nat.add_zero, List.drop_zero]

theorem readProtocol_past {t : St} (h : 12 + t.authPsize ≤ t.dataRead) (data : List UInt8) : readProtocol t data = (t, data) := by
  simp only [readProtocol, Nat.sub_eq_zero_of_le h, List.take_zero, List.append_nil, List.length_nil, Nat.add_zero, List.drop_zero]

theorem readData_past {t : St} (h : 12 + t.authPsize + t.authDsize ≤ t.dataRead) (data : List UInt8) :
    readData t data = (t, data) := by
  simp only [readData, Nat.sub_eq_zero_of_le h, List.take_zero, List.append_nil, List.length_nil, Nat.add_zero, List.drop_zero]

/-- A later call reads nothing: it copies, or it verifies once more. -/
theorem x11Send_past {t : St} (ha : t.allocated = true) (hq : 12 + t.authPsize + t.authDsize = t.dataRead) (p : Params)
    (data : List UInt8) (env : Env) :
    x11Send p t data env = if t.verified then some (skWrite t data) else verify p t data env := by
  have h12 : ¬ t.dataRead < 12 := by omega
  have hb : ¬ t.dataRead < 12 + t.authPsize + t.authDsize := by omega
  rw [x11Send, readFirst_past (by omega)]
  dsimp only
  rw [if_neg h12, X11.allocate, if_pos ha, readProtocol_past (by omega)]
  dsimp only
  rw [readData_past (by omega)]
  dsimp only
  rw [if_neg hb]

theorem tryEof_frame (t : St) :
    (tryEof t).replies = t.replies ∧ (tryEof t).received = t.received ∧ (tryEof t).decidedIn = t.decidedIn := by
  rw [tryEof]
  split <;> exact ⟨rfl, rfl, rfl⟩

theorem sshfwdWriteEof_frame (t : St) : (sshfwdWriteEof t).replies = t.replies ∧ (sshfwdWriteEof t).received = t.received ∧
    (sshfwdWriteEof t).decidedIn = t.decidedIn := by
  rw [sshfwdWriteEof]
  dsimp only
  split
  · exact ⟨rfl, rfl, rfl⟩
  · exact tryEof_frame _

theorem sshfwdWrite_frame {t t' : St} {buf : List UInt8} {room : Bool} (h : sshfwdWrite t buf room = some t') :
    t'.replies = t.replies ++ [buf] ∧ t'.received = t.received ∧ t'.decidedIn = t.decidedIn := by
  rw [sshfwdWrite] at h
  split at h
  · cases h
  · cases h
    dsimp only
    split
    · exact tryEof_frame _
    · exact ⟨rfl, rfl, rfl⟩

theorem x11SendInitError_frame {p : Params} {t t' : St} {err : List UInt8} {room : Bool}
    (h : x11SendInitError p t err room = some t') : t'.replies = t.replies ++ [errorReply p t.firstpkt err] ∧
      t'.received = t.received ∧ t'.decidedIn = t.decidedIn := by
  obtain ⟨u, hu, rfl⟩ := Option.map_eq_some_iff.mp h
  obtain ⟨h1, h2, h3⟩ := sshfwdWriteEof_frame u
  obtain ⟨g1, g2, g3⟩ := sshfwdWrite_frame hu
  exact ⟨h1.trans g1, h2.trans g2, h3.trans g3⟩

/-- Every verification leaves a mark, and takes nothing from the stream. -/
theorem verify_marks {p : Params} {t t' : St} {data : List UInt8} {env : Env} (h : verify p t data env = some t') :
    (t'.received = t.received ∧ t'.decidedIn = t.decidedIn) ∧
      (t'.replies.length = t.replies.length + 1 ∨ t'.handover.isSome ∨ t'.toServer ≠ []) := by
  have hreply : ∀ {u : St} {err : List UInt8}, x11SendInitError p u err env.room = some t' →
      u.replies = t.replies ∧ u.received = t.received ∧ u.decidedIn = t.decidedIn →
      (t'.received = t.received ∧ t'.decidedIn = t.decidedIn) ∧
        (t'.replies.length = t.replies.length + 1 ∨ t'.handover.isSome ∨ t'.toServer ≠ []) := fun he ⟨hu1, hu2, hu3⟩ => by
    obtain ⟨h1, h2, h3⟩ := x11SendInitError_frame he
    refine ⟨⟨h2.trans hu2, h3.trans hu3⟩, .inl ?_⟩
    rw [h1, hu1, List.length_append]
    rfl
  rw [verify] at h
  split at h
  · cases h
  obtain ⟨v, -, hv⟩ := Option.bind_eq_some_iff.mp h
  dsimp only at hv
  cases hret : v.ret with
  | error err =>
    simp only [hret] at hv
    exact hreply hv ⟨rfl, rfl, rfl⟩
  | ok auth =>
    simp only [hret] at hv
    cases hshare : auth.share with
    | some share =>
      simp only [hshare] at hv
      cases hv
      exact ⟨⟨rfl, rfl⟩, .inr (.inl rfl)⟩
    | none =>
      simp only [hshare] at hv
      cases hconn : env.connect with
      | error err =>
        simp only [hconn] at hv
        exact hreply hv ⟨rfl, rfl, rfl⟩
      | ok socketdata =>
        simp only [hconn] at hv
        cases hv
        refine ⟨⟨rfl, rfl⟩, .inr (.inr fun he => ?_)⟩
        have hlen := congrArg List.length he
        simp [skWrite, greeting, x11MakeGreeting] at hlen

/-! ## Runs -/

/-- Where a channel is. -/
inductive Phase (p : Params) (t : St) : Prop where
  | reading (h : Reading t t.received) (hq : t.dataRead = t.received.length) (hn : ¬ Complete t.received)
      (hdec : t.decidedIn = none) : Phase p t
  | settled (env : Env) (o : Outcome) (h : Settled p t env o) (hov : t.overread = false) : Phase p t

theorem phase_new (p : Params) : Phase p x11NewChannel :=
  .reading ⟨Nat.le_refl _, rfl, rfl, rfl, fun h => Bool.noConfusion h, ⟨rfl, rfl, rfl, rfl⟩, rfl, rfl, rfl, rfl, rfl⟩ rfl
    (by decide) rfl

theorem Phase.gateHolds {p : Params} {t : St} (h : Phase p t) {evs : List Ev} (hr : t.handover = none → t.received = stream evs) :
    GateHolds p evs t := by
  cases h with
  | reading h hq hn hdec =>
    refine ⟨hr, fun _ => h.silent, fun hc => absurd hc hn, fun hgate => ?_, h.overread⟩
    rw [h.silent.toServer, h.silent.handover] at hgate
    rcases hgate with hgate | hgate
    · exact absurd rfl hgate
    · exact Bool.noConfusion hgate
  | settled env o h hov =>
    refine ⟨hr, fun hn => absurd h.complete hn, fun _ => ⟨env, o, h.decided, h.verdict, h.shows⟩, fun hgate => ?_, hov⟩
    have hshows := h.shows
    refine ⟨env, h.decided, verdict_authorised h.complete h.verdict ?_⟩
    cases o with
    | refused err =>
      rw [hshows.1, hshows.2.2.2] at hgate
      simp at hgate
    | unreachable err =>
      rw [hshows.1, hshows.2.2.2] at hgate
      simp at hgate
    | handedOver share => rfl
    | accepted greeting => rfl

theorem stream_snoc (evs : List Ev) (e : Ev) : stream (evs ++ [e]) = stream evs ++ stream [e] := List.flatMap_append

/-- Room for what is buffered changes nothing else. -/
theorem step_flush (p : Params) (t : St) : ∃ t', step p t .flush = some t' ∧ (Phase p t → Phase p t') ∧
    t'.received = t.received ∧ t'.handover = t.handover := by
  by_cases hp : t.pendingEof = true
  · refine ⟨{ t with buffered := false, pendingEof := false, sentEof := true }, ?_, fun h => ?_, rfl, rfl⟩
    · simp only [step, hp, if_true, tryEof, Bool.false_eq_true, if_false]
    · cases h with
      | reading h _ _ _ => rw [h.pendingEof] at hp; cases hp
      | settled env o h hov =>
        refine .settled env o ⟨h.decided, h.complete, h.verdict, ?_, h.dataRead, h.sizes, h.verified, h.s⟩ hov
        cases o <;> exact h.shows
  · refine ⟨{ t with buffered := false }, ?_, fun h => ?_, rfl, rfl⟩
    · exact congrArg some (if_neg hp)
    · cases h with
      | reading h hq hn hdec =>
        exact .reading ⟨h.le, h.firstpkt, h.authProtocol, h.authData, h.sizes, h.silent.congr rfl, h.verified, h.s,
          h.pendingEof, h.sentEof, h.overread⟩ hq hn hdec
      | settled env o h hov =>
        refine .settled env o ⟨h.decided, h.complete, h.verdict, ?_, h.dataRead, h.sizes, h.verified, h.s⟩ hov
        cases o <;> exact h.shows

/-- A call while the first packet is read. -/
theorem step_reading {p : Params} {t : St} (h : Reading t t.received) (hq : t.dataRead = t.received.length)
    (hn : ¬ Complete t.received) (hdec : t.decidedIn = none) (data : List UInt8) (env : Env) :
    ∃ t', step p t (.send data env) = some t' ∧ t'.received = t.received ++ data ∧
      (t'.overread = true ↔ Complete (t.received ++ data) ∧ Overreads env (t.received ++ data)) ∧
      (t'.overread = false → Phase p t') := by
  have hgrow := h.grow hq data
  have hnoted : Reading (noted t data env) (t.received ++ data) :=
    ⟨hgrow.le, hgrow.firstpkt, hgrow.authProtocol, hgrow.authData, hgrow.sizes, hgrow.silent.congr rfl, hgrow.verified, hgrow.s,
      hgrow.pendingEof, hgrow.sentEof, hgrow.overread⟩
  have hbound : t.dataRead ≤ total (t.received ++ data) := by
    rw [hq]
    rcases Nat.lt_or_ge t.received.length 12 with h12 | h12
    · exact Nat.le_trans (Nat.le_of_lt h12) (le_total _)
    · rw [total_grow h12]
      have : ¬ total t.received ≤ t.received.length := fun ht => hn ⟨h12, ht⟩
      omega
  obtain ⟨u, hu, huq, hurec, hudec, hua, hsend⟩ := hnoted.send hbound p env
  have hdrop : (t.received ++ data).drop (noted t data env).dataRead = data := by
    rw [show (noted t data env).dataRead = t.received.length from hq, List.drop_left]
  rw [hdrop] at hsend
  have hno : ¬ t.handover.isSome := by rw [h.silent.handover]; decide
  rw [step, if_neg hno, hsend]
  have hurec' : u.received = t.received ++ data := hurec
  by_cases hc : Complete (t.received ++ data)
  · rw [if_pos hc]
    have hudec' : u.decidedIn = some env := by rw [hudec]; exact if_pos ⟨hc, hn⟩
    rw [← hurec'] at hu hc huq ⊢
    rw [Nat.min_eq_right ((complete_iff _).mp hc).2] at huq
    obtain ⟨t', o, ht', hrec, hset, hov⟩ := hu.verify hc huq (hua (hurec' ▸ hc)) p env hudec'
    exact ⟨t', ht', hrec, hov.trans ⟨fun hr => ⟨hc, hr⟩, And.right⟩, .settled env o hset⟩
  · rw [if_neg hc]
    refine ⟨u, rfl, hurec', ?_, fun _ => .reading (hurec' ▸ hu) ?_ (hurec' ▸ hc) ?_⟩
    · rw [hu.overread]
      exact ⟨fun hf => Bool.noConfusion hf, fun hf => absurd hf.1 hc⟩
    · rw [hurec', huq]
      have hle := hu.le
      by_cases h12 : 12 ≤ (t.received ++ data).length
      · have : ¬ total (t.received ++ data) ≤ (t.received ++ data).length := fun ht => hc ⟨h12, ht⟩
        omega
      · have := le_total (t.received ++ data)
        omega
    · rw [hudec]
      exact (if_neg fun hf => hc hf.1).trans hdec

theorem noted_settled {p : Params} {t : St} {env : Env} {o : Outcome} (h : Settled p t env o) (data : List UInt8) (env' : Env) :
    (noted t data env').decidedIn = some env :=
  (if_neg fun hf => hf.2 h.complete).trans h.decided

/-- A call after the packet was accepted. -/
theorem step_accepted {p : Params} {t : St} {env : Env} {o : Outcome} (h : Settled p t env o) (hv : t.verified = true)
    (hno : t.handover = none) (data : List UInt8) (env' : Env) :
    ∃ t', step p t (.send data env') = some t' ∧ t'.received = t.received ++ data ∧ t'.overread = t.overread ∧
      Settled p t' env o := by
  obtain ⟨greeting, rfl⟩ := h.verified.mp hv
  have htot := total_grow h.complete.1 data
  have hlen := ((complete_iff _).mp h.complete).2
  refine ⟨skWrite (noted t data env') data, ?_, rfl, rfl, noted_settled h data env', h.complete.grow data, ?_, ?_, ?_, ?_, h.verified, h.s⟩
  · rw [step, if_neg (by simp [hno]), x11Send_past (t := noted t data env') h.sizes.1 (h.sizes.2.trans h.dataRead.symm)]
    exact if_pos hv
  · exact (verdict_grow p env h.complete data).trans h.verdict
  · have hshows := h.shows
    refine ⟨?_, hshows.2.1, hshows.2.2.1, hshows.2.2.2⟩
    show t.toServer ++ data = greeting ++ (t.received ++ data).drop (total (t.received ++ data))
    rw [hshows.1, htot, List.drop_append_of_le_length hlen, List.append_assoc]
  · exact h.dataRead.trans htot.symm
  · exact ⟨h.sizes.1, h.sizes.2.trans htot.symm⟩

/-- A call after the packet was answered: it fails an assertion, or answers again. -/
theorem step_answered {p : Params} {t t' : St} {env : Env} {o : Outcome} (h : Settled p t env o) (hv : ¬ t.verified = true)
    (hno : t.handover = none) {data : List UInt8} {env' : Env} (hs : step p t (.send data env') = some t') (evs : List Ev) :
    ¬ GateHolds p evs t' := by
  rw [step, if_neg (by simp [hno]), x11Send_past (t := noted t data env') h.sizes.1 (h.sizes.2.trans h.dataRead.symm),
    if_neg (show ¬ (noted t data env').verified = true from hv)] at hs
  have hanswer : t.replies.length = 1 := by
    have hshows := h.shows
    cases o with
    | refused err => rw [hshows.2.1]; rfl
    | unreachable err => rw [hshows.2.1]; rfl
    | handedOver share =>
      obtain ⟨_, _, _, hh⟩ := hshows.2.2.2
      rw [hno] at hh
      cases hh
    | accepted greeting => exact absurd (h.verified.mpr ⟨greeting, rfl⟩) hv
  intro hgate
  obtain ⟨hframe, hmarks⟩ := verify_marks hs
  have hrec : t'.received = t.received ++ data ∧ t'.decidedIn = some env :=
    ⟨hframe.1, hframe.2.trans (noted_settled h data env')⟩
  obtain ⟨env1, o1, hd1, hv1, hshows1⟩ := hgate.shows (hrec.1 ▸ h.complete.grow data)
  rw [hrec.2] at hd1
  cases hd1
  rw [hrec.1, verdict_grow p env h.complete data, h.verdict] at hv1
  cases hv1
  have hreplies : (noted t data env').replies.length = 1 := hanswer
  rw [hreplies] at hmarks
  cases o with
  | refused err =>
    rw [hshows1.1, hshows1.2.1, hshows1.2.2.2] at hmarks
    simp at hmarks
  | unreachable err =>
    rw [hshows1.1, hshows1.2.1, hshows1.2.2.2] at hmarks
    simp at hmarks
  | handedOver share =>
    obtain ⟨_, _, _, hh⟩ := h.shows.2.2.2
    rw [hno] at hh
    cases hh
  | accepted greeting => exact hv (h.verified.mpr ⟨greeting, rfl⟩)

/-- The gate holds at every point of a channel's life just when no data comes for a
    channel that has been answered, and no first block is compared with data shorter
    than one. -/
theorem gate_holds_iff (p : Params) (evs : List Ev) :
    Lib.Always (step p) (GateHolds p) x11NewChannel evs ↔ Lib.Along (step p) Sound x11NewChannel evs := by
  refine Lib.always_iff_along (I := fun pre t => Phase p t ∧ (t.handover = none → t.received = stream pre))
    ⟨phase_new p, fun _ => rfl⟩ (fun pre t h => h.1.gateHolds h.2) ?_ ?_ evs
  · intro pre t e ⟨hphase, hrec⟩ hok
    cases e with
    | flush =>
      obtain ⟨t', ht', hph, hr, hh⟩ := step_flush p t
      refine ⟨t', ht', hph hphase, fun hno => ?_⟩
      rw [hr, hrec (hh ▸ hno), stream_snoc]
      exact (List.append_nil _).symm
    | send data env =>
      by_cases hhand : t.handover.isSome
      · refine ⟨t, if_pos hhand, hphase, fun hno => ?_⟩
        rw [hno] at hhand
        cases hhand
      · have hnone : t.handover = none := Option.not_isSome_iff_eq_none.mp hhand
        obtain ⟨hver, hshort⟩ := hok.resolve_left hhand
        have hstream : t.received ++ data = stream (pre ++ [.send data env]) := by
          rw [stream_snoc, hrec hnone]
          exact congrArg _ (List.append_nil data).symm
        cases hphase with
        | reading h hq hn hdec =>
          obtain ⟨t', ht', hr, hov, hph⟩ := step_reading (p := p) h hq hn hdec data env
          have hfalse : t'.overread = false := Bool.not_eq_true _ ▸ fun ht => hshort hn (hov.mp ht).1 (hov.mp ht).2
          exact ⟨t', ht', hph hfalse, fun _ => hr.trans hstream⟩
        | settled env0 o h hov =>
          obtain ⟨t', ht', hr, hov', hset⟩ := step_accepted h (hver h.complete) hnone data env
          exact ⟨t', ht', .settled env0 o hset (hov'.trans hov), fun _ => hr.trans hstream⟩
  · intro pre t e t' ⟨hphase, hrec⟩ hno hs hgate
    cases e with
    | flush => exact hno trivial
    | send data env =>
      rw [Sound, not_or] at hno
      obtain ⟨hhand, hno⟩ := hno
      have hnone : t.handover = none := Option.not_isSome_iff_eq_none.mp hhand
      cases hphase with
      | reading h hq hn hdec =>
        obtain ⟨u, hu, -, hov, -⟩ := step_reading (p := p) h hq hn hdec data env
        rw [hs] at hu
        cases hu
        refine hno ⟨fun hc => absurd hc hn, fun _ hc hover => ?_⟩
        have := hov.mpr ⟨hc, hover⟩
        rw [hgate.inBounds] at this
        cases this
      | settled env0 o h hov =>
        have hv : ¬ t.verified = true := fun hv => hno ⟨fun _ => hv, fun hn => absurd h.complete hn⟩
        exact step_answered h hv hnone hs _ hgate

/-- No authorisations, and no cipher. -/
def closed : Env := ⟨⟨32, 0⟩, [], [], .ok none, true⟩
def plain : Params := ⟨⟨fun _ data => data, fun _ data => data⟩, text "PuTTY", ⟨0, -1⟩⟩

def noAuth : Ev := .send [108, 0, 11, 0, 0, 0, 0, 0, 0, 0, 0, 0] closed

/-- A first packet without authorisation is refused, and after one more byte the refusal
    is written again, where the channel's EOF was sent. -/
theorem byte_after_refusal :
    (Lib.run (step plain) x11NewChannel [noAuth]).map (fun t => (t.replies.length, t.eofs, t.sentEof)) = some (1, 1, true) ∧
      Lib.run (step plain) x11NewChannel [noAuth, .send [0] closed] = none ∧
      ¬ Lib.Always (step plain) (GateHolds plain) x11NewChannel [noAuth, .send [0] closed] := by
  refine ⟨rfl, rfl, fun h => ?_⟩
  obtain ⟨t, ht, -⟩ := h _ (List.prefix_refl _)
  cases ht

end Putty.X11
