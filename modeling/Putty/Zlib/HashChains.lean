/-
  Putty.Zlib.HashChains — the hash chains of the compressor's window.

  The slot of a position of the input is its remainder by `WINSIZE`. After `n` bytes the
  chain of a hash value runs through the slots of the positions among the last `WINSIZE`
  whose three bytes have it, the newest first (`ChainsExact`). `lz77_advance` takes the
  oldest position off the end of its chain before its slot is used again (`removeOldest`)
  and puts the new one in front (`addNewest`). `chains_exact` is the verdict over runs: any
  calls with any data, every state that `lz77_advance` leaves behind.
-/

import Putty.Lib.Dlist
import Putty.Zlib.Lz77
import Mathlib.Data.List.Nodup

namespace Putty.Zlib.Lz77

open Putty.Lib

/-- The positions from `lo` up to `hi` with the hash value `h`, the newest first. -/
def positions (κ : Nat → Option Nat) (lo hi h : Nat) : List Nat :=
  ((List.range' lo (hi - lo)).filter fun p => κ p == some h).reverse

def slots (κ : Nat → Option Nat) (lo hi h : Nat) : List Nat := (positions κ lo hi h).map (· % WINSIZE)

def InternalContext.links (st : InternalContext) : Links Nat := ⟨fun a => (st.win a).next, fun a => (st.win a).prev⟩

/-- The hash of the three bytes at a position. -/
def hashAt (input : List UInt8) (p : Nat) : Option Nat := lz77Hash (input.drop p)

/-! ## Positions and slots -/

section Positions

variable {κ : Nat → Option Nat} {lo hi h h' p s : Nat}

theorem mem_positions : p ∈ positions κ lo hi h ↔ (lo ≤ p ∧ p < hi) ∧ κ p = some h := by
  simp only [positions, List.mem_reverse, List.mem_filter, List.mem_range'_1, beq_iff_eq]
  constructor
  · exact fun ⟨hr, hk⟩ => ⟨by omega, hk⟩
  · exact fun ⟨hr, hk⟩ => ⟨by omega, hk⟩

theorem positions_nodup : (positions κ lo hi h).Nodup :=
  List.nodup_reverse.mpr ((List.nodup_range' 1).filter _)

/-- The newest position comes in front. -/
theorem positions_push (hl : lo ≤ hi) :
    positions κ lo (hi + 1) h = if κ hi = some h then hi :: positions κ lo hi h else positions κ lo hi h := by
  have hr : List.range' lo (hi + 1 - lo) = List.range' lo (hi - lo) ++ [hi] := by
    rw [show hi + 1 - lo = (hi - lo) + 1 from by omega, List.range'_1_concat, show lo + (hi - lo) = hi from by omega]
  unfold positions
  rw [hr, List.filter_append]
  by_cases hk : κ hi = some h <;> simp [hk]

/-- The oldest position is at the end. -/
theorem positions_pop (hl : lo < hi) :
    positions κ lo hi h = if κ lo = some h then positions κ (lo + 1) hi h ++ [lo] else positions κ (lo + 1) hi h := by
  have hr : List.range' lo (hi - lo) = lo :: List.range' (lo + 1) (hi - (lo + 1)) := by
    rw [show hi - lo = (hi - (lo + 1)) + 1 from by omega, List.range'_succ]
  unfold positions
  rw [hr, List.filter_cons]
  by_cases hk : κ lo = some h <;> simp [hk]

theorem slot_inj {q : Nat} (top : Nat) (hw : top ≤ lo + WINSIZE) (hp : lo ≤ p ∧ p < top) (hq : lo ≤ q ∧ q < top)
    (he : p % WINSIZE = q % WINSIZE) : p = q := by
  unfold WINSIZE at *
  omega

theorem mem_slots : s ∈ slots κ lo hi h ↔ ∃ p, ((lo ≤ p ∧ p < hi) ∧ κ p = some h) ∧ p % WINSIZE = s := by
  simp only [slots, List.mem_map, mem_positions]

theorem slots_nodup (hw : hi ≤ lo + WINSIZE) : (slots κ lo hi h).Nodup :=
  List.Nodup.map_on (fun _ hp _ hq he => slot_inj hi hw (mem_positions.mp hp).1 (mem_positions.mp hq).1 he) positions_nodup

theorem slots_disjoint (hw : hi ≤ lo + WINSIZE) (hs : s ∈ slots κ lo hi h) (hs' : s ∈ slots κ lo hi h') : h = h' := by
  obtain ⟨p, ⟨hp, hkp⟩, rfl⟩ := mem_slots.mp hs
  obtain ⟨q, ⟨hq, hkq⟩, he⟩ := mem_slots.mp hs'
  obtain rfl := slot_inj hi hw hq hp he
  exact Option.some.inj (hkp.symm.trans hkq)

theorem slots_push (hl : lo ≤ hi) :
    slots κ lo (hi + 1) h = if κ hi = some h then hi % WINSIZE :: slots κ lo hi h else slots κ lo hi h := by
  unfold slots
  rw [positions_push hl]
  split <;> rfl

theorem slots_pop (hl : lo < hi) :
    slots κ lo hi h = if κ lo = some h then slots κ (lo + 1) hi h ++ [lo % WINSIZE] else slots κ (lo + 1) hi h := by
  unfold slots
  rw [positions_pop hl]
  split
  · exact List.map_append
  · rfl

/-- The slot of a position outside the window is in no chain. -/
theorem slot_notMem (hp : hi ≤ p) (hw : p < lo + WINSIZE) : p % WINSIZE ∉ slots κ lo hi h := by
  intro hm
  obtain ⟨q, ⟨hq, -⟩, he⟩ := mem_slots.mp hm
  unfold WINSIZE at *
  omega

end Positions

/-! ## One step -/

/-- The chains hold the positions from `lo` up to `hi`. -/
structure Chained (κ : Nat → Option Nat) (lo hi : Nat) (st : InternalContext) : Prop where
  chain : ∀ h, Dlist st.links (st.hashtab h) (slots κ lo hi h)
  hashed : ∀ p, lo ≤ p → p < hi → ∃ h, κ p = some h ∧ (st.win (p % WINSIZE)).hashval = some h
  unused : ∀ s, hi ≤ s → s < WINSIZE → st.win s = ⟨none, none, none⟩

section Step

variable {κ : Nat → Option Nat} {lo n hash : Nat} {st : InternalContext}

theorem removeOldest_fresh (hc : Chained κ 0 n st) (hn : n < WINSIZE) (hw : st.winpos = n % WINSIZE) : removeOldest st = st := by
  have hu := hc.unused n le_rfl hn
  rw [Nat.mod_eq_of_lt hn] at hw
  simp only [removeOldest, hw, hu]

@[simp] theorem removeOldest_winpos : (removeOldest st).winpos = st.winpos := by
  unfold removeOldest
  split
  · rfl
  · split <;> rfl

theorem removeOldest_chained (hc : Chained κ n (n + WINSIZE) st) (hw : st.winpos = (n + WINSIZE) % WINSIZE) :
    Chained κ (n + 1) (n + WINSIZE) (removeOldest st) := by
  have hws : st.winpos = n % WINSIZE := hw.trans (Nat.add_mod_right n WINSIZE)
  have hlt : n < n + WINSIZE := by unfold WINSIZE; omega
  obtain ⟨h, hk, hv⟩ := hc.hashed n le_rfl hlt
  have hslots : slots κ n (n + WINSIZE) h = slots κ (n + 1) (n + WINSIZE) h ++ [n % WINSIZE] := by
    rw [slots_pop hlt, if_pos hk]
  have hother : ∀ h', h' ≠ h → slots κ n (n + WINSIZE) h' = slots κ (n + 1) (n + WINSIZE) h' := fun h' hne => by
    rw [slots_pop hlt, if_neg fun hk' => hne (Option.some.inj (hk'.symm.trans hk))]
  have hd := hc.chain h
  have hnd : (slots κ n (n + WINSIZE) h).Nodup := slots_nodup le_rfl
  rw [hslots] at hd hnd
  have hprev : (st.win (n % WINSIZE)).prev = (slots κ (n + 1) (n + WINSIZE) h).getLast? := hd.prev_last
  cases hl : (slots κ (n + 1) (n + WINSIZE) h).getLast? with
  | none =>
    -- the only entry of its chain
    have hnil := List.getLast?_eq_none_iff.mp hl
    have he : removeOldest st = { st with hashtab := Function.update st.hashtab h none } := by
      simp only [removeOldest, hws, hprev, hl, hv]
    rw [he]
    refine ⟨fun h' => ?_, fun p hp hp' => hc.hashed p (by omega) hp', hc.unused⟩
    show Dlist st.links (Function.update st.hashtab h none h') _
    by_cases hh : h' = h
    · subst hh
      rw [hnil, Function.update_self]
      exact Dlist.nil _
    · rw [← hother h' hh, Function.update_of_ne hh]
      exact hc.chain h'
  | some q =>
    have hq := List.mem_of_getLast? hl
    have hne : slots κ (n + 1) (n + WINSIZE) h ≠ [] := List.ne_nil_of_mem hq
    have he : removeOldest st = { st with win := Function.update st.win q { st.win q with next := none } } := by
      simp only [removeOldest, hws, hprev, hl]
    have hnext : ∀ a, (removeOldest st).links.next a = if a = q then none else st.links.next a := fun a => by
      simp only [he, InternalContext.links, Function.update_apply]
      split <;> rfl
    have hprev' : ∀ a, (removeOldest st).links.prev a = st.links.prev a := fun a => by
      simp only [he, InternalContext.links, Function.update_apply]
      split
      · next ha => rw [ha]
      · rfl
    have htab : (removeOldest st).hashtab = st.hashtab := by rw [he]
    refine ⟨fun h' => ?_, fun p hp hp' => ?_, fun s hs hs' => ?_⟩
    · rw [htab]
      by_cases hh : h' = h
      · subst hh
        refine hd.dropLast hnd (by rw [if_neg hne]) (fun a ha => ?_) (fun a _ ha => ?_) fun a _ => hprev' a
        · rw [hnext, if_pos (Option.some.inj (ha.symm.trans hl))]
        · rw [hnext, if_neg fun haq : a = q => ha (haq ▸ hl)]
      · rw [← hother h' hh]
        refine (hc.chain h').frame (fun a ha => ?_) fun a _ => hprev' a
        have haq : a ≠ q := fun haq => by
          subst haq
          exact hh (slots_disjoint le_rfl ha (hslots ▸ List.mem_append_left _ hq))
        rw [hnext, if_neg haq]
    · obtain ⟨v, hkv, hvv⟩ := hc.hashed p (by omega) hp'
      refine ⟨v, hkv, ?_⟩
      simp only [he, Function.update_apply]
      split
      · next hpq => rw [← hpq, hvv]
      · exact hvv
    · exfalso
      omega

theorem addNewest_win (off : Option Nat) (hoff : st.hashtab hash = off) (a : Nat) :
    (addNewest st hash).win a =
      if off = some a then { (if a = st.winpos then ⟨off, none, some hash⟩ else st.win a) with prev := some st.winpos }
      else if a = st.winpos then ⟨off, none, some hash⟩ else st.win a := by
  subst hoff
  unfold addNewest
  cases ho : st.hashtab hash with
  | none => simp [Function.update_apply]
  | some o =>
    simp only [Function.update_apply, Option.some.injEq]
    by_cases hoa : o = a
    · subst hoa
      simp only [if_pos]
    · rw [if_neg (Ne.symm hoa), if_neg hoa]

theorem addNewest_chained (hc : Chained κ lo n st) (hl : lo ≤ n) (hn : n < lo + WINSIZE) (hw : st.winpos = n % WINSIZE)
    (hk : κ n = some hash) : Chained κ lo (n + 1) (addNewest st hash) := by
  have hout : ∀ h, st.winpos ∉ slots κ lo n h := fun h => hw ▸ slot_notMem le_rfl hn
  have hhead : ∀ a, st.hashtab hash = some a → a ∈ slots κ lo n hash := fun a ha =>
    List.mem_of_head? ((hc.chain hash).first_eq.symm.trans ha)
  have hwo : st.hashtab hash ≠ some st.winpos := fun ho => hout hash (hhead _ ho)
  have hwin := addNewest_win _ (rfl : st.hashtab hash = _)
  have htab : (addNewest st hash).hashtab = Function.update st.hashtab hash (some st.winpos) := rfl
  have hnext : ∀ a, a ≠ st.winpos → (addNewest st hash).links.next a = st.links.next a := fun a ha => by
    simp only [InternalContext.links, hwin, if_neg ha]
    split <;> rfl
  have hprev : ∀ a, a ≠ st.winpos → st.hashtab hash ≠ some a → (addNewest st hash).links.prev a = st.links.prev a :=
    fun a ha ho => by simp only [InternalContext.links, hwin, if_neg ha, if_neg ho]
  have hval : ∀ a, a ≠ st.winpos → ((addNewest st hash).win a).hashval = (st.win a).hashval := fun a ha => by
    simp only [hwin, if_neg ha]
    split <;> rfl
  refine ⟨fun h => ?_, fun p hp hp' => ?_, fun s hs hs' => ?_⟩
  · by_cases hh : h = hash
    · subst hh
      rw [htab, Function.update_self, slots_push hl, if_pos hk, ← hw]
      refine (hc.chain h).push (hout h) (slots_nodup (by omega)) ?_ ?_ (fun a ha => ?_) hnext hprev
      · simp only [InternalContext.links, hwin, if_neg hwo, if_pos]
      · simp only [InternalContext.links, hwin, if_neg hwo, if_pos]
      · simp only [InternalContext.links, hwin, if_pos ha]
    · rw [htab, Function.update_of_ne hh, slots_push hl, if_neg fun hk' => hh (Option.some.inj (hk'.symm.trans hk))]
      refine (hc.chain h).frame (fun a ha => hnext a fun he => hout h (he ▸ ha)) fun a ha => ?_
      exact hprev a (fun he => hout h (he ▸ ha)) fun ho => hh (slots_disjoint (by omega) ha (hhead a ho))
  · rcases Nat.lt_or_ge p n with hpn | hpn
    · obtain ⟨v, hkv, hvv⟩ := hc.hashed p hp hpn
      refine ⟨v, hkv, (hval _ fun he => ?_).trans hvv⟩
      have := slot_inj (n + 1) (by omega) ⟨hp, by omega⟩ ⟨hl, by omega⟩ (he.trans hw)
      omega
    · obtain rfl : p = n := by omega
      refine ⟨hash, hk, ?_⟩
      rw [← hw, hwin, if_neg hwo, if_pos rfl]
  · have hsw : s ≠ st.winpos := by
      rw [hw, Nat.mod_eq_of_lt (by omega)]
      omega
    have hso : st.hashtab hash ≠ some s := fun ho => by
      obtain ⟨q, ⟨hq, -⟩, he⟩ := mem_slots.mp (hhead s ho)
      unfold WINSIZE at *
      omega
    rw [hwin, if_neg hso, if_neg hsw]
    exact hc.unused s (by omega) hs'

end Step

/-! ## The window -/

/-- After `n` bytes of the input. -/
structure Fed (input : List UInt8) (n : Nat) (st : InternalContext) : Prop where
  winpos : st.winpos = n % WINSIZE
  chained : Chained (hashAt input) (n - WINSIZE) n st
  bytes : ∀ p, n - WINSIZE ≤ p → p < n → input[p]? = some (st.data (p % WINSIZE))

/-- The chains of the window after `n` bytes of the input, and the slot that comes next. -/
structure ChainsExact (input : List UInt8) (n : Nat) (st : InternalContext) : Prop where
  winpos : st.winpos = n % WINSIZE
  bytes : ∀ p, n - WINSIZE ≤ p → p < n → input[p]? = some (st.data (p % WINSIZE))
  hashed : ∀ p, n - WINSIZE ≤ p → p < n → ∃ h < HASHMAX, hashAt input p = some h
  chain : ∀ h < HASHMAX, Dlist st.links (st.hashtab h) (slots (hashAt input) (n - WINSIZE) n h)
  acyclic : ∀ h < HASHMAX, (slots (hashAt input) (n - WINSIZE) n h).Nodup
  oldest : WINSIZE ≤ n → ∃ h < HASHMAX, (slots (hashAt input) (n - WINSIZE) n h).getLast? = some st.winpos
  unused : n < WINSIZE → ∀ h < HASHMAX, st.winpos ∉ slots (hashAt input) (n - WINSIZE) n h

theorem lz77Hash_append {data : List UInt8} (rest : List UInt8) (h : HASHCHARS ≤ data.length) :
    ∃ hash < HASHMAX, lz77Hash data = some hash ∧ lz77Hash (data ++ rest) = some hash := by
  match data, h with
  | d0 :: d1 :: d2 :: data, _ => exact ⟨_, Nat.mod_lt _ (by decide), rfl, rfl⟩

theorem lz77Hash_lt {data : List UInt8} {hash : Nat} (h : lz77Hash data = some hash) : hash < HASHMAX := by
  match data, h with
  | d0 :: d1 :: d2 :: data, h =>
    obtain rfl := Option.some.inj h
    exact Nat.mod_lt _ (by decide)

section Window

variable {input : List UInt8} {n : Nat} {st : InternalContext}

theorem Fed.exact (h : Fed input n st) : ChainsExact input n st where
  winpos := h.winpos
  bytes := h.bytes
  hashed p hp hp' := by
    obtain ⟨v, hv, -⟩ := h.chained.hashed p hp hp'
    exact ⟨v, lz77Hash_lt hv, hv⟩
  chain v _ := h.chained.chain v
  acyclic _ _ := slots_nodup (by omega)
  oldest hn := by
    have hpos : 0 < WINSIZE := by decide
    obtain ⟨v, hv, -⟩ := h.chained.hashed (n - WINSIZE) le_rfl (by omega)
    refine ⟨v, lz77Hash_lt hv, ?_⟩
    rw [slots_pop (by omega), if_pos hv, List.getLast?_concat, h.winpos, Nat.mod_eq_sub_mod hn]
  unused hn v _ := by
    rw [h.winpos]
    exact slot_notMem le_rfl (by omega)

theorem fed_init (memory : Nat → UInt8) : Fed input 0 (lz77Init memory) where
  winpos := rfl
  chained := ⟨fun _ => Dlist.nil _, fun p _ hp => by omega, fun _ _ _ => rfl⟩
  bytes p _ hp := by omega

theorem Fed.setPending (h : Fed input n st) (pending : List UInt8) : Fed input n { st with pending := pending } :=
  ⟨h.winpos, ⟨h.chained.chain, h.chained.hashed, h.chained.unused⟩, h.bytes⟩

/-- `lz77_advance` takes the window from `n` bytes to `n + 1`. -/
theorem Fed.advance {c : UInt8} {hash : Nat} (h : Fed input n st) (hc : input[n]? = some c) (hk : hashAt input n = some hash) :
    Fed input (n + 1) (lz77Advance st c hash) := by
  have hpos : 0 < WINSIZE := by decide
  have hold : Chained (hashAt input) (n + 1 - WINSIZE) n (removeOldest st) := by
    rcases Nat.lt_or_ge n WINSIZE with hn | hn
    · have hch := h.chained
      rw [Nat.sub_eq_zero_of_le hn.le] at hch
      rw [removeOldest_fresh hch hn h.winpos, Nat.sub_eq_zero_of_le hn]
      exact hch
    · obtain ⟨m, rfl⟩ := Nat.exists_eq_add_of_le' hn
      have hch := h.chained
      rw [Nat.add_sub_cancel] at hch
      rw [show m + WINSIZE + 1 - WINSIZE = m + 1 from by omega]
      exact removeOldest_chained hch h.winpos
  have hnew := addNewest_chained hold (by omega) (by omega) (removeOldest_winpos.trans h.winpos) hk
  have hdata : (removeOldest st).data = st.data := by
    unfold removeOldest
    split
    · rfl
    · split <;> rfl
  have hw : (addNewest (removeOldest st) hash).winpos = n % WINSIZE := removeOldest_winpos.trans h.winpos
  refine ⟨?_, ⟨hnew.chain, hnew.hashed, hnew.unused⟩, fun p hp hp' => ?_⟩
  · show ((addNewest (removeOldest st) hash).winpos + 1) % WINSIZE = _
    rw [hw, Nat.mod_add_mod]
  · show _ = some (Function.update (removeOldest st).data _ c _)
    rw [hw, hdata]
    rcases Nat.lt_or_ge p n with hpn | hpn
    · have hne : p % WINSIZE ≠ n % WINSIZE := fun he => by
        have := slot_inj (n + 1) (by omega) ⟨hp, by omega⟩ ⟨by omega, by omega⟩ he
        omega
      rw [Function.update_of_ne hne]
      exact h.bytes p (by omega) hpn
    · obtain rfl : p = n := by omega
      rw [Function.update_self]
      exact hc

end Window

/-! ## Looking for matches comes back -/

section Search

variable (st : InternalContext) {data : List UInt8}

theorem charAt_some {k : Int} (h : k < data.length) : ∃ c, charAt st data k = some c := by
  unfold charAt
  split
  · exact ⟨_, rfl⟩
  · exact ⟨_, List.getElem?_eq_getElem (by omega)⟩

theorem agrees_some (distance : Nat) {k : Nat} (h : k < data.length) : ∃ b, agrees st data distance k = some b := by
  obtain ⟨c, hc⟩ := charAt_some st (show (k : Int) < data.length from by omega)
  obtain ⟨d, hd⟩ := charAt_some st (show (k : Int) - distance < data.length from by omega)
  exact ⟨c == d, by simp [agrees, hc, hd]⟩

theorem allM_agrees_some (distance : Nat) {ks : List Nat} (h : ∀ k ∈ ks, k < data.length) :
    ∃ b, ks.allM (agrees st data distance) = some b := by
  induction ks with
  | nil => exact ⟨true, rfl⟩
  | cons k ks ih =>
    obtain ⟨b, hb⟩ := agrees_some st distance (h k (by simp))
    obtain ⟨b', hb'⟩ := ih fun k hk => h k (by simp [hk])
    cases b with
    | false => exact ⟨false, by simp [List.allM, hb]⟩
    | true => exact ⟨b', by simp [List.allM, hb, hb']⟩

/-- A chain that ends is walked to its end. -/
theorem findMatches_some (hl : HASHCHARS ≤ data.length) {xs : List Nat} :
    ∀ (fuel : Nat) (off : Option Nat) (found : List Match), off = xs.head? → xs.IsChain st.links.Adj →
      (∀ a, xs.getLast? = some a → st.links.next a = none) → xs.length < fuel →
      ∃ ms, findMatches st data fuel off found = some ms := by
  induction xs with
  | nil =>
    intro fuel off found hoff _ _ hf
    obtain ⟨f, rfl⟩ := Nat.exists_eq_add_of_lt hf
    subst hoff
    exact ⟨found, by simp [findMatches]⟩
  | cons x xs ih =>
    intro fuel off found hoff hch hlast hf
    subst hoff
    obtain ⟨f, rfl⟩ := Nat.exists_eq_add_of_lt hf
    have hx : (st.win x).next = xs.head? := by
      cases xs with
      | nil => exact hlast x rfl
      | cons y ys => exact (List.isChain_cons_cons.mp hch).1.1
    have hlast' : ∀ a, xs.getLast? = some a → st.links.next a = none := fun a ha => hlast a (by
      rw [List.getLast?_cons, ha]
      rfl)
    have hnext := fun found => ih ((x :: xs).length + f) _ found hx hch.tail hlast' (by
      rw [List.length_cons]
      omega)
    obtain ⟨b, hb⟩ := allM_agrees_some st (WINSIZE - (x + WINSIZE - st.winpos) % WINSIZE)
      fun k (hk : k ∈ List.range HASHCHARS) => Nat.lt_of_lt_of_le (List.mem_range.mp hk) hl
    show ∃ ms, findMatches st data ((x :: xs).length + f + 1) (some x) found = some ms
    simp only [findMatches, hb, Option.bind_eq_bind, Option.bind_some]
    cases b with
    | false => exact hnext found
    | true =>
      simp only [if_true]
      split
      · exact ⟨_, rfl⟩
      · exact hnext _

theorem keepAgreeing_some {matchlen : Nat} (h : matchlen < data.length) (found : List Match) :
    ∃ kept, keepAgreeing st data matchlen found = some kept := by
  induction found with
  | nil => exact ⟨[], rfl⟩
  | cons m rest ih =>
    obtain ⟨b, hb⟩ := agrees_some st m.distance h
    obtain ⟨kept, hk⟩ := ih
    exact ⟨_, by simp only [keepAgreeing, hb, hk, Option.bind_eq_bind, Option.bind_some]; rfl⟩

theorem longest_some :
    ∀ (fuel matchlen : Nat) (found : List Match), data.length < matchlen + fuel → matchlen ≤ data.length →
      ∃ len kept, longest st data fuel matchlen found = some (len, kept) ∧ matchlen ≤ len ∧ len ≤ data.length := by
  intro fuel
  induction fuel with
  | zero => exact fun matchlen found h h' => by omega
  | succ fuel ih =>
    intro matchlen found h h'
    rw [longest]
    split
    · next hlt =>
      obtain ⟨kept, hk⟩ := keepAgreeing_some st hlt found
      simp only [hk, Option.bind_eq_bind, Option.bind_some]
      cases kept with
      | nil => exact ⟨matchlen, found, rfl, le_rfl, h'⟩
      | cons m kept =>
        obtain ⟨len, kept, hr, hlo, hhi⟩ := ih (matchlen + 1) (m :: kept) (by omega) (by omega)
        exact ⟨len, kept, hr, by omega, hhi⟩
    · exact ⟨matchlen, found, rfl, le_rfl, h'⟩

theorem bestMatch_some {st : InternalContext} {input : List UInt8} {n : Nat} (data : List UInt8) (h : Fed input n st) :
    ∃ found, bestMatch st data = some found ∧ ∀ m, found = some m → HASHCHARS ≤ m.len ∧ m.len ≤ data.length := by
  unfold bestMatch
  split
  · next hl =>
    obtain ⟨hash, -, hh, -⟩ := lz77Hash_append [] hl
    have hd := h.chained.chain hash
    have hlen : (slots (hashAt input) (n - WINSIZE) n hash).length < WINSIZE + 1 := by
      have : (positions (hashAt input) (n - WINSIZE) n hash).length ≤ n - (n - WINSIZE) := by
        unfold positions
        rw [List.length_reverse]
        exact (List.length_filter_le _ _).trans_eq List.length_range'
      unfold slots
      rw [List.length_map]
      omega
    obtain ⟨ms, hms⟩ := findMatches_some st hl (WINSIZE + 1) _ [] hd.first_eq hd.links hd.back hlen
    simp only [hh, hms, Option.bind_eq_bind, Option.bind_some]
    cases ms with
    | nil => exact ⟨none, rfl, by simp⟩
    | cons m ms =>
      obtain ⟨len, kept, hr, hlo, hhi⟩ := longest_some st (data.length + 1) HASHCHARS (m :: ms)
        (Nat.lt_add_left HASHCHARS (Nat.lt_succ_self data.length)) hl
      simp only [hr, Option.bind_some]
      refine ⟨_, rfl, fun m' hm' => ?_⟩
      obtain ⟨k, -, rfl⟩ := Option.map_eq_some_iff.mp hm'
      exact ⟨hlo, hhi⟩
  · exact ⟨none, rfl, by simp⟩

end Search

/-! ## Runs -/

/-- The states of a trace that begins after `n` bytes. -/
def Traced (input : List UInt8) (n : Nat) (t : List InternalContext) : Prop :=
  ∀ (i : Nat) (st : InternalContext), t[i]? = some st → Fed input (n + i + 1) st

section Runs

variable {input : List UInt8} {n : Nat}

theorem Traced.push {trace : List InternalContext} {st : InternalContext} (h : Traced input n trace)
    (hs : Fed input (n + trace.length + 1) st) : Traced input n (trace ++ [st]) := by
  intro i s hi
  rcases Nat.lt_trichotomy i trace.length with hlt | heq | hgt
  · rw [List.getElem?_append_left hlt] at hi
    exact h i s hi
  · subst heq
    rw [List.getElem?_concat_length] at hi
    exact Option.some.inj hi ▸ hs
  · rw [List.getElem?_eq_none (by rw [List.length_append, List.length_singleton]; omega)] at hi
    cases hi

theorem Traced.append {t t' : List InternalContext} (h : Traced input n t) (h' : Traced input (n + t.length) t') :
    Traced input n (t ++ t') := by
  intro i s hi
  rcases Nat.lt_or_ge i t.length with hlt | hge
  · rw [List.getElem?_append_left hlt] at hi
    exact h i s hi
  · rw [List.getElem?_append_right hge] at hi
    have := h' _ s hi
    rwa [show n + t.length + (i - t.length) + 1 = n + i + 1 from by omega] at this

/-- The window has taken `n` bytes and the trace; `ahead` is the input from there. -/
structure At (input : List UInt8) (n : Nat) (ahead : List UInt8) (st : InternalContext) (trace : List InternalContext) :
    Prop where
  fed : Fed input (n + trace.length) st
  traced : Traced input n trace
  ahead_eq : ahead = input.drop (n + trace.length)

theorem At.advance {c : UInt8} {ahead : List UInt8} {hash : Nat} {st : InternalContext} {trace : List InternalContext}
    (h : At input n (c :: ahead) st trace) (hk : lz77Hash (c :: ahead) = some hash) :
    At input n ahead (lz77Advance st c hash) (trace ++ [lz77Advance st c hash]) := by
  have hc : input[n + trace.length]? = some c := by
    rw [← List.head?_drop, ← h.ahead_eq]
    rfl
  have hfed := h.fed.advance hc (by rw [hashAt, ← h.ahead_eq, hk])
  have hlen : n + (trace ++ [lz77Advance st c hash]).length = n + trace.length + 1 := by
    rw [List.length_append, List.length_singleton]
    rfl
  refine ⟨hlen ▸ hfed, h.traced.push hfed, ?_⟩
  rw [hlen, ← List.tail_drop, ← h.ahead_eq]
  rfl

/-- Pending characters are left over only where three cannot be hashed. -/
structure Room (pending data : List UInt8) : Prop where
  hashed : HASHCHARS ≤ data.length → pending = []
  few : data.length < HASHCHARS → pending.length + data.length < HASHCHARS

theorem addPending_at {data future : List UInt8} :
    ∀ (pending : List UInt8) (st : InternalContext) (trace : List InternalContext),
      At input n (pending ++ data ++ future) st trace → pending.length < HASHCHARS →
      ∃ st' trace', addPending data st trace pending = some (st', trace') ∧
        At input n (st'.pending ++ data ++ future) st' trace' ∧ Room st'.pending data := by
  intro pending
  induction pending with
  | nil =>
    intro st trace h _
    exact ⟨_, trace, rfl, ⟨h.fed.setPending [], h.traced, h.ahead_eq⟩, ⟨fun _ => rfl, fun hd => by simpa using hd⟩⟩
  | cons c rest ih =>
    intro st trace h hp
    rw [addPending]
    split
    · next hlt =>
      refine ⟨_, trace, rfl, ⟨h.fed.setPending (c :: rest), h.traced, h.ahead_eq⟩, ⟨fun hd => ?_, fun _ => ?_⟩⟩
      · exfalso
        omega
      · show (c :: rest).length + data.length < HASHCHARS
        omega
    · next hge =>
      have hlen : HASHCHARS ≤ (c :: rest ++ data).length := by
        rw [List.length_append]
        omega
      obtain ⟨hash, -, hh, hh'⟩ := lz77Hash_append future hlen
      simp only [hh, Option.bind_eq_bind, Option.bind_some]
      exact ih _ _ (h.advance hh') (by rw [List.length_cons] at hp; omega)

/-- Between two turns of the main loop. -/
structure Running (input : List UInt8) (n : Nat) (future : List UInt8) (w : Work) : Prop where
  at_ : At input n (w.st.pending ++ w.data ++ future) w.st w.trace
  room : Room w.st.pending w.data

theorem advanceBy_running {future : List UInt8} :
    ∀ (advance : Nat) (w : Work), Running input n future w → advance ≤ w.data.length →
      ∃ w', advanceBy advance w = some w' ∧ Running input n future w' ∧ w'.data = w.data.drop advance ∧
        w'.defermatch = w.defermatch := by
  intro advance
  induction advance with
  | zero => exact fun w h _ => ⟨w, rfl, h, rfl, rfl⟩
  | succ advance ih =>
    intro w h hle
    obtain ⟨st, data, defermatch, deferchr, out, trace⟩ := w
    cases data with
    | nil => cases hle
    | cons c rest =>
      have hle' : advance ≤ rest.length := Nat.le_of_succ_le_succ hle
      rw [advanceBy]
      simp only
      split
      · next hl =>
        -- the byte goes into the window
        obtain ⟨hash, -, hh, hh'⟩ := lz77Hash_append future hl
        have hpend : st.pending = [] := h.room.hashed hl
        have hat := h.at_
        simp only [hpend, List.nil_append] at hat
        simp only [hh, Option.bind_eq_bind, Option.bind_some]
        have hadv := hat.advance hh'
        have hp' : (lz77Advance st c hash).pending = [] := by
          rw [← hpend]
          show (removeOldest st).pending = _
          unfold removeOldest
          split
          · rfl
          · split <;> rfl
        refine ih _ ⟨?_, ?_⟩ hle'
        · show At input n ((lz77Advance st c hash).pending ++ rest ++ future) _ _
          rw [hp', List.nil_append]
          exact hadv
        · show Room (lz77Advance st c hash).pending rest
          rw [hp']
          exact ⟨fun _ => rfl, fun hr => by simpa using hr⟩
      · next hl =>
        -- too near the end of the data
        have hfew : st.pending.length + (rest.length + 1) < HASHCHARS := h.room.few (Nat.lt_of_not_le hl)
        rw [if_pos (by omega)]
        refine ih _ ⟨⟨h.at_.fed.setPending _, h.at_.traced, ?_⟩, ⟨fun hr => ?_, fun _ => ?_⟩⟩ hle'
        · rw [← h.at_.ahead_eq]
          simp
        · exact absurd (Nat.le_succ_of_le hr) hl
        · show (st.pending ++ [c]).length + rest.length < HASHCHARS
          rw [List.length_append, List.length_singleton]
          omega

/-- A deferred match does not reach past the data, the deferred character included. -/
def Deferred (w : Work) : Prop :=
  w.defermatch.len = 0 ∨ HASHCHARS ≤ w.defermatch.len ∧ w.defermatch.len ≤ w.data.length + 1

theorem choose_spec {w : Work} {c : UInt8} {found : Option Match} (hd : Deferred w) (hne : 0 < w.data.length)
    (hf : ∀ m, found = some m → HASHCHARS ≤ m.len ∧ m.len ≤ w.data.length) :
    (choose w c found).1.st = w.st ∧ (choose w c found).1.data = w.data ∧ (choose w c found).1.trace = w.trace ∧
      0 < (choose w c found).2 ∧ (choose w c found).2 ≤ w.data.length ∧
      ((choose w c found).1.defermatch.len = 0 ∨ HASHCHARS ≤ (choose w c found).1.defermatch.len ∧
        (choose w c found).1.defermatch.len ≤ w.data.length ∧ (choose w c found).2 = 1) := by
  have h3 : HASHCHARS = 3 := rfl
  unfold Deferred at hd
  cases found with
  | none =>
    simp only [choose]
    split
    · exact ⟨rfl, rfl, rfl, by simp only; omega, by simp only; omega, .inl rfl⟩
    · next hz => exact ⟨rfl, rfl, rfl, Nat.one_pos, hne, .inl (Nat.eq_zero_of_not_pos hz)⟩
  | some m =>
    obtain ⟨hm, hm'⟩ := hf m rfl
    simp only [choose]
    split
    · split
      · exact ⟨rfl, rfl, rfl, Nat.one_pos, hne, .inr ⟨hm, hm', rfl⟩⟩
      · exact ⟨rfl, rfl, rfl, by simp only; omega, by simp only; omega, .inl rfl⟩
    · exact ⟨rfl, rfl, rfl, Nat.one_pos, hne, .inr ⟨hm, hm', rfl⟩⟩

theorem compressLoop_running {future : List UInt8} :
    ∀ (fuel : Nat) (w : Work), Running input n future w → Deferred w → w.data.length < fuel →
      ∃ w', compressLoop fuel w = some w' ∧ Running input n future w' ∧ w'.data = [] := by
  intro fuel
  induction fuel with
  | zero => exact fun w _ _ h => absurd h (Nat.not_lt_zero _)
  | succ fuel ih =>
    intro w h hd hf
    rw [compressLoop]
    split
    · next he => exact ⟨w, rfl, h, he⟩
    · next c rest he =>
      have hne : 0 < w.data.length := he ▸ Nat.succ_pos _
      obtain ⟨found, hb, hfound⟩ := bestMatch_some w.data h.at_.fed
      obtain ⟨hst, hdata, htrace, hpos, hle, hdefer⟩ := choose_spec (c := c) hd hne hfound
      have hrun : Running input n future (choose w c found).1 := by
        refine ⟨?_, ?_⟩
        · rw [hst, hdata, htrace]
          exact h.at_
        · rw [hst, hdata]
          exact h.room
      obtain ⟨w', ha, hr', hdata', hdefer'⟩ := advanceBy_running _ _ hrun (hdata ▸ hle)
      simp only [hb, ha, Option.bind_eq_bind, Option.bind_some]
      have hlen : w'.data.length = w.data.length - (choose w c found).2 := by
        rw [hdata', hdata, List.length_drop]
      refine ih w' hr' ?_ (by omega)
      unfold Deferred
      rw [hdefer']
      omega

theorem lz77Compress_at {data future : List UInt8} {st : InternalContext} (hst : Fed input n st)
    (ha : st.pending ++ data ++ future = input.drop n) (hp : st.pending.length < HASHCHARS) :
    ∃ w, lz77Compress st data = some w ∧ At input n (w.st.pending ++ future) w.st w.trace ∧
      w.st.pending.length < HASHCHARS := by
  have h0 : At input n (st.pending ++ data ++ future) st [] := ⟨hst, by simp [Traced], ha⟩
  obtain ⟨st', trace, hadd, hat, hroom⟩ := addPending_at _ _ _ h0 hp
  obtain ⟨w, hloop, hrun, hnil⟩ := compressLoop_running (data.length + 1) ⟨st', data, ⟨0, 0⟩, 0, [], trace⟩
    ⟨hat, hroom⟩ (.inl rfl) (Nat.lt_succ_self _)
  refine ⟨w, ?_, ?_, ?_⟩
  · unfold lz77Compress
    rw [if_pos hp.le]
    simp only [hadd, Option.bind_eq_bind, Option.bind_some, hloop]
  · have := hrun.at_
    rwa [hnil, List.append_nil] at this
  · have := hrun.room.few (by rw [hnil]; decide)
    omega

theorem compressAll_at :
    ∀ (chunks : List (List UInt8)) (n : Nat) (st : InternalContext),
      Fed input n st → st.pending ++ chunks.flatten = input.drop n → st.pending.length < HASHCHARS →
      ∃ st' trace, compressAll st chunks = some (st', trace) ∧ At input n st'.pending st' trace := by
  intro chunks
  induction chunks with
  | nil =>
    intro n st hst ha _
    exact ⟨st, [], rfl, hst, by simp [Traced], by simpa using ha⟩
  | cons data chunks ih =>
    intro n st hst ha hp
    rw [List.flatten_cons, ← List.append_assoc] at ha
    obtain ⟨w, hw, hat, hp'⟩ := lz77Compress_at hst ha hp
    obtain ⟨st', trace, hr, hat'⟩ := ih _ w.st hat.fed hat.ahead_eq hp'
    refine ⟨st', w.trace ++ trace, ?_, ?_, hat.traced.append hat'.traced, ?_⟩
    · simp only [compressAll, hw, hr, Option.bind_eq_bind, Option.bind_some]
      rfl
    · rw [List.length_append, ← Nat.add_assoc]
      exact hat'.fed
    · rw [List.length_append, ← Nat.add_assoc]
      exact hat'.ahead_eq

end Runs

/-- Every call comes back; all but the pending bytes have gone through the window, and each
    time the chains were exact. -/
theorem chains_exact (memory : Nat → UInt8) (chunks : List (List UInt8)) :
    ∃ st t, compressAll (lz77Init memory) chunks = some (st, t) ∧
      t.length + st.pending.length = chunks.flatten.length ∧
      ∀ (i : Nat) (s : InternalContext), t[i]? = some s → ChainsExact chunks.flatten (i + 1) s := by
  have h0 : (lz77Init memory).pending ++ chunks.flatten = chunks.flatten.drop 0 := rfl
  obtain ⟨st, trace, hr, hat⟩ := compressAll_at chunks 0 _ (fed_init memory) h0 (Nat.succ_pos 2)
  refine ⟨st, trace, hr, ?_, fun i s hi => ?_⟩
  · have hle : trace.length ≤ chunks.flatten.length := by
      rcases Nat.eq_zero_or_pos trace.length with h0 | hpos
      · omega
      · have hb := hat.fed.bytes (0 + trace.length - 1) (by unfold WINSIZE; omega) (by omega)
        obtain ⟨hlt, -⟩ := List.getElem?_eq_some_iff.mp hb
        omega
    have := congrArg List.length hat.ahead_eq
    rw [List.length_drop] at this
    omega
  · have := (hat.traced i s hi).exact
    rwa [Nat.zero_add] at this

end Putty.Zlib.Lz77
