/-
  Putty.Lib.Ring — circular doubly linked lists.

  `Ring l h xs`: from the head `h`, the next links lead through `xs` and back to `h`, and
  every prev link leads back the way the next link came. A ring can be cut at any place
  (`ring_append`), depends only on the links of its own nodes (`Ring.frame`), and the
  rules for putting a node in and taking one out ask only which links the operation has
  changed (`Ring.insert`, `Ring.unlink`). `Ring.join` hangs two paths on one head.
-/

import Mathlib.Data.List.Chain
import Mathlib.Data.List.Nodup
import Mathlib.Logic.Function.Basic

namespace Putty.Lib

variable {A : Type}

/-- Pointers; NULL is `none`. -/
structure Links (A : Type) where
  next : A → Option A
  prev : A → Option A

namespace Links

section Set

variable [DecidableEq A]

def setNext (l : Links A) (a : A) (v : Option A) : Links A := { l with next := Function.update l.next a v }

def setPrev (l : Links A) (a : A) (v : Option A) : Links A := { l with prev := Function.update l.prev a v }

@[simp] theorem setNext_prev (l : Links A) (a : A) (v : Option A) : (l.setNext a v).prev = l.prev := rfl

@[simp] theorem setPrev_next (l : Links A) (a : A) (v : Option A) : (l.setPrev a v).next = l.next := rfl

theorem setNext_next (l : Links A) (a b : A) (v : Option A) : (l.setNext a v).next b = if b = a then v else l.next b :=
  Function.update_apply _ _ _ _

theorem setPrev_prev (l : Links A) (a b : A) (v : Option A) : (l.setPrev a v).prev b = if b = a then v else l.prev b :=
  Function.update_apply _ _ _ _

end Set

def Adj (l : Links A) (a b : A) : Prop := l.next a = some b ∧ l.prev b = some a

end Links

/-- A path uses the next links of all nodes but the last, and the prev links of all but the first. -/
theorem isChain_congr {l l' : Links A} {xs : List A} (hn : ∀ a ∈ xs.dropLast, l'.next a = l.next a)
    (hp : ∀ a ∈ xs.tail, l'.prev a = l.prev a) (h : xs.IsChain l.Adj) : xs.IsChain l'.Adj := by
  induction xs with
  | nil => exact .nil
  | cons a xs ih =>
    cases xs with
    | nil => exact .singleton a
    | cons b xs =>
      rw [List.isChain_cons_cons] at h ⊢
      refine ⟨⟨(hn a (by simp)).trans h.1.1, (hp b (by simp)).trans h.1.2⟩, ih ?_ ?_ h.2⟩
      · exact fun c hc => hn c (by simp [hc])
      · exact fun c hc => hp c (List.mem_cons_of_mem b hc)

def Ring (l : Links A) (h : A) (xs : List A) : Prop := (h :: (xs ++ [h])).IsChain l.Adj

theorem getLast?_cons_getLastD (h : A) (us : List A) : (h :: us).getLast? = some (us.getLastD h) := by
  induction us generalizing h with
  | nil => rfl
  | cons u us ih => rw [List.getLast?_cons_cons, ih u, List.getLastD_cons]

theorem head?_append_headD (h : A) (vs : List A) : (vs ++ [h]).head? = some (vs.headD h) := by
  cases vs <;> rfl

/-- Cut between two nodes. -/
theorem ring_append {l : Links A} {h : A} {us vs : List A} :
    Ring l h (us ++ vs) ↔ (h :: us).IsChain l.Adj ∧ (vs ++ [h]).IsChain l.Adj ∧ l.Adj (us.getLastD h) (vs.headD h) := by
  unfold Ring
  rw [List.append_assoc, ← List.cons_append, List.isChain_append, getLast?_cons_getLastD, head?_append_headD]
  simp

/-- Cut at a node. -/
theorem ring_node {l : Links A} {h x : A} {us vs : List A} :
    Ring l h (us ++ x :: vs) ↔ (h :: us).IsChain l.Adj ∧ (vs ++ [h]).IsChain l.Adj ∧ l.Adj (us.getLastD h) x ∧
      l.Adj x (vs.headD h) := by
  rw [ring_append]
  have hx : (x :: vs ++ [h]).IsChain l.Adj ↔ l.Adj x (vs.headD h) ∧ (vs ++ [h]).IsChain l.Adj := by
    rw [List.cons_append, List.isChain_cons, head?_append_headD]
    simp
  rw [hx, List.headD_cons]
  tauto

theorem ring_nil {l : Links A} {h : A} : Ring l h [] ↔ l.Adj h h := by
  unfold Ring
  simp

theorem Ring.frame {l l' : Links A} {h : A} {xs : List A} (hr : Ring l h xs)
    (hn : ∀ a ∈ h :: xs, l'.next a = l.next a) (hp : ∀ a ∈ h :: xs, l'.prev a = l.prev a) : Ring l' h xs := by
  apply isChain_congr ?_ ?_ hr
  · intro a ha
    rw [← List.cons_append, List.dropLast_concat] at ha
    exact hn a ha
  · intro a ha
    apply hp a
    rw [List.tail_cons] at ha
    rcases List.mem_append.mp ha with ha | ha
    · exact List.mem_cons_of_mem h ha
    · rw [List.mem_singleton.mp ha]
      exact List.mem_cons_self

theorem getLastD_mem_cons (h : A) (us : List A) : us.getLastD h ∈ h :: us :=
  List.mem_of_getLast? (getLast?_cons_getLastD h us)

theorem headD_mem_append (h : A) (vs : List A) : vs.headD h ∈ vs ++ [h] := by
  cases vs <;> simp

/-- The nodes before a place, but the last of them, and the nodes behind it. -/
theorem not_mem_dropLast {h : A} {us vs : List A} (hd : (h :: (us ++ vs)).Nodup) :
    us.getLastD h ∉ (h :: us).dropLast ∧ us.getLastD h ∉ vs := by
  rw [← List.cons_append] at hd
  obtain ⟨h1, -, h3⟩ := List.nodup_append.mp hd
  refine ⟨fun hmem => ?_, fun hmem => h3 _ (getLastD_mem_cons h us) _ hmem rfl⟩
  obtain ⟨ys, hys⟩ := List.getLast?_eq_some_iff.mp (getLast?_cons_getLastD h us)
  rw [hys, List.dropLast_concat] at hmem
  rw [hys] at h1
  exact (List.nodup_append.mp h1).2.2 _ hmem _ List.mem_cons_self rfl

theorem not_mem_tail {h : A} {us vs : List A} (hd : (h :: (us ++ vs)).Nodup) :
    vs.headD h ∉ (vs ++ [h]).tail ∧ vs.headD h ∉ us := by
  obtain ⟨h1, h2⟩ := List.nodup_cons.mp hd
  obtain ⟨-, h3, h4⟩ := List.nodup_append.mp h2
  cases vs with
  | nil => exact ⟨by simp, fun hmem => h1 (List.mem_append_left _ hmem)⟩
  | cons v vs =>
    obtain ⟨h5, -⟩ := List.nodup_cons.mp h3
    refine ⟨?_, fun hmem => h4 v hmem v List.mem_cons_self rfl⟩
    intro hmem
    rw [List.cons_append, List.tail_cons, List.headD_cons] at hmem
    rcases List.mem_append.mp hmem with hmem | hmem
    · exact h5 hmem
    · exact h1 (by rw [← List.mem_singleton.mp hmem]; simp)

section Change

variable {l l' : Links A} {h x : A} {us vs : List A}

theorem Ring.insert (hr : Ring l h (us ++ vs)) (hd : (h :: (us ++ vs)).Nodup) (hx : x ∉ h :: (us ++ vs))
    (hxn : l'.next x = some (vs.headD h)) (hxp : l'.prev x = some (us.getLastD h))
    (hpn : l'.next (us.getLastD h) = some x) (hnp : l'.prev (vs.headD h) = some x)
    (hn : ∀ a, a ≠ x → a ≠ us.getLastD h → l'.next a = l.next a)
    (hp : ∀ a, a ≠ x → a ≠ vs.headD h → l'.prev a = l.prev a) : Ring l' h (us ++ x :: vs) := by
  obtain ⟨h1, h2, -⟩ := ring_append.mp hr
  have hdrop := not_mem_dropLast hd
  have htail := not_mem_tail hd
  have hne : ∀ a ∈ h :: (us ++ vs), a ≠ x := fun a ha he => hx (he ▸ ha)
  have hus : ∀ a ∈ h :: us, a ∈ h :: (us ++ vs) := fun a ha => by
    rw [← List.cons_append]
    exact List.mem_append_left vs ha
  refine ring_node.mpr ⟨isChain_congr ?_ ?_ h1, isChain_congr ?_ ?_ h2, ⟨hpn, hxp⟩, ⟨hxn, hnp⟩⟩
  · intro a ha
    exact hn a (hne a (hus a (List.dropLast_subset _ ha))) fun he => hdrop.1 (he ▸ ha)
  · intro a ha
    rw [List.tail_cons] at ha
    exact hp a (hne a (hus a (List.mem_cons_of_mem h ha))) fun he => htail.2 (he ▸ ha)
  · intro a ha
    rw [List.dropLast_concat] at ha
    exact hn a (hne a (by simp [ha])) fun he => hdrop.2 (he ▸ ha)
  · intro a ha
    have ha' : a ∈ vs ++ [h] := List.mem_of_mem_tail ha
    exact hp a (hne a (by simp at ha' ⊢; tauto)) fun he => htail.1 (he ▸ ha)

theorem Ring.unlink (hr : Ring l h (us ++ x :: vs)) (hd : (h :: (us ++ x :: vs)).Nodup)
    (hpn : l'.next (us.getLastD h) = some (vs.headD h)) (hnp : l'.prev (vs.headD h) = some (us.getLastD h))
    (hn : ∀ a, a ≠ x → a ≠ us.getLastD h → l'.next a = l.next a)
    (hp : ∀ a, a ≠ x → a ≠ vs.headD h → l'.prev a = l.prev a) : Ring l' h (us ++ vs) := by
  obtain ⟨h1, h2, -, -⟩ := ring_node.mp hr
  have hd' : (h :: (us ++ vs)).Nodup := hd.sublist (by simp)
  have hxmem : x ∉ h :: (us ++ vs) := by
    obtain ⟨h3, h4⟩ := List.nodup_cons.mp hd
    obtain ⟨-, h5, h6⟩ := List.nodup_append.mp h4
    intro hmem
    rcases List.mem_cons.mp hmem with rfl | hmem
    · exact h3 (by simp)
    · rcases List.mem_append.mp hmem with hmem | hmem
      · exact h6 x hmem x List.mem_cons_self rfl
      · exact (List.nodup_cons.mp h5).1 hmem
  have hdrop := not_mem_dropLast hd'
  have htail := not_mem_tail hd'
  have hne : ∀ a ∈ h :: (us ++ vs), a ≠ x := fun a ha he => hxmem (he ▸ ha)
  have hus : ∀ a ∈ h :: us, a ∈ h :: (us ++ vs) := fun a ha => by
    rw [← List.cons_append]
    exact List.mem_append_left vs ha
  refine ring_append.mpr ⟨isChain_congr ?_ ?_ h1, isChain_congr ?_ ?_ h2, ⟨hpn, hnp⟩⟩
  · intro a ha
    exact hn a (hne a (hus a (List.dropLast_subset _ ha))) fun he => hdrop.1 (he ▸ ha)
  · intro a ha
    rw [List.tail_cons] at ha
    exact hp a (hne a (hus a (List.mem_cons_of_mem h ha))) fun he => htail.2 (he ▸ ha)
  · intro a ha
    rw [List.dropLast_concat] at ha
    exact hn a (hne a (by simp [ha])) fun he => hdrop.2 (he ▸ ha)
  · intro a ha
    have ha' : a ∈ vs ++ [h] := List.mem_of_mem_tail ha
    exact hp a (hne a (by simp at ha' ⊢; tauto)) fun he => htail.1 (he ▸ ha)

end Change

/-! ## Moving the nodes of two rings to one head -/

theorem ring_cons {l : Links A} {h x : A} {xs : List A} :
    Ring l h (x :: xs) ↔ (x :: xs).IsChain l.Adj ∧ l.Adj h x ∧ l.Adj (xs.getLastD x) h := by
  have hap : (x :: xs ++ [h]).IsChain l.Adj ↔ _ := List.isChain_append
  rw [getLast?_cons_getLastD] at hap
  unfold Ring
  rw [List.cons_append, List.isChain_cons_cons, ← List.cons_append, hap]
  simp only [List.isChain_singleton, Option.mem_some_iff, List.head?_cons, forall_eq', true_and]
  exact and_left_comm

theorem Ring.chain {l : Links A} {h : A} {xs : List A} (hr : Ring l h xs) : xs.IsChain l.Adj := by
  cases xs with
  | nil => exact .nil
  | cons x xs => exact (ring_cons.mp hr).1

theorem Ring.first {l : Links A} {h : A} {xs : List A} (hr : Ring l h xs) : l.next h = some (xs.headD h) := by
  cases xs with
  | nil => exact (ring_nil.mp hr).1
  | cons x xs => exact (ring_cons.mp hr).2.1.1

theorem Ring.last {l : Links A} {h : A} {xs : List A} (hr : Ring l h xs) : l.prev h = some (xs.getLastD h) := by
  cases xs with
  | nil => exact (ring_nil.mp hr).2
  | cons x xs =>
    rw [List.getLastD_cons]
    exact (ring_cons.mp hr).2.2.2

theorem chain_frame {l l' : Links A} {xs : List A} (hd : xs.Nodup) (h : xs.IsChain l.Adj)
    (hn : ∀ a ∈ xs, a ∉ xs.getLast? → l'.next a = l.next a)
    (hp : ∀ a ∈ xs, a ∉ xs.head? → l'.prev a = l.prev a) : xs.IsChain l'.Adj := by
  cases xs with
  | nil => exact .nil
  | cons x xs =>
    refine isChain_congr (fun a ha => hn a (List.dropLast_subset _ ha) ?_)
      (fun a ha => hp a (List.mem_cons_of_mem x ha) ?_) h
    · rw [getLast?_cons_getLastD, Option.mem_some_iff]
      rintro rfl
      have hd' : (x :: (xs ++ [])).Nodup := by rwa [List.append_nil]
      exact (not_mem_dropLast hd').1 ha
    · rw [List.head?_cons, Option.mem_some_iff]
      rintro rfl
      exact (List.nodup_cons.mp hd).1 ha

theorem Ring.join {l l' : Links A} {h : A} {xs ys : List A} (hc1 : xs.IsChain l.Adj) (hc2 : ys.IsChain l.Adj)
    (hd1 : xs.Nodup) (hd2 : ys.Nodup) (hne : xs ++ ys ≠ [])
    (hn1 : ∀ a ∈ xs, a ∉ xs.getLast? → l'.next a = l.next a) (hp1 : ∀ a ∈ xs, a ∉ xs.head? → l'.prev a = l.prev a)
    (hn2 : ∀ a ∈ ys, a ∉ ys.getLast? → l'.next a = l.next a) (hp2 : ∀ a ∈ ys, a ∉ ys.head? → l'.prev a = l.prev a)
    (hmid : ∀ a ∈ xs.getLast?, ∀ b ∈ ys.head?, l'.Adj a b) (hfirst : l'.Adj h ((xs ++ ys).headD h))
    (hlast : l'.Adj ((xs ++ ys).getLastD h) h) : Ring l' h (xs ++ ys) := by
  have hchain : (xs ++ ys).IsChain l'.Adj :=
    List.isChain_append.mpr ⟨chain_frame hd1 hc1 hn1 hp1, chain_frame hd2 hc2 hn2 hp2, hmid⟩
  cases hzs : xs ++ ys with
  | nil => exact absurd hzs hne
  | cons z zs =>
    rw [hzs] at hchain hfirst hlast
    exact ring_cons.mpr ⟨hchain, hfirst, by rwa [List.getLastD_cons] at hlast⟩

end Putty.Lib
