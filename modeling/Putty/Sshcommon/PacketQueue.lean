/-
  Putty.Sshcommon.PacketQueue — packet queues (`sshcommon.c`, `ssh.h`).

  A queue is a circular doubly linked list through the packets themselves, with the
  queue's own `end` as head. A packet popped from a queue of incoming packets is
  returned to the caller and put on one free queue shared by all; a callback frees what
  is there, and a packet that was pushed again before that is taken off it first.

  The specification keeps a list for every queue and for the free queue (index `none`).
-/

import Mathlib.Data.Fintype.Basic
import Putty.Lib.Ring

namespace Putty.Sshcommon

open Putty.Lib

inductive PacketKind where
  | pktIn
  | pktOut
  deriving DecidableEq

/-- The `end` of a queue (`none`: `pktin_freeq_head`) or the node in a packet. -/
inductive PacketQueueNode (Q P : Type) where
  | head (q : Option Q)
  | qnode (pkt : P)
  deriving DecidableEq

variable {Q P : Type} [DecidableEq Q] [DecidableEq P]

/-- The memory that the queues of a program share. -/
structure PacketQueues (Q P : Type) where
  links : Links (PacketQueueNode Q P)
  onFreeQueue : P → Bool
  freed : P → Bool

open PacketQueueNode

def pktinFreeqHead : PacketQueueNode Q P := head none

namespace PacketQueues

def alive (s : PacketQueues Q P) : PacketQueueNode Q P → Bool
  | head _ => true
  | qnode x => !s.freed x

/-- Reading through NULL or into a freed packet fails. -/
def next (s : PacketQueues Q P) (p : Option (PacketQueueNode Q P)) : Option (Option (PacketQueueNode Q P)) :=
  match p with
  | some a => if s.alive a then some (s.links.next a) else none
  | none => none

def prev (s : PacketQueues Q P) (p : Option (PacketQueueNode Q P)) : Option (Option (PacketQueueNode Q P)) :=
  match p with
  | some a => if s.alive a then some (s.links.prev a) else none
  | none => none

def setNext (s : PacketQueues Q P) (p v : Option (PacketQueueNode Q P)) : Option (PacketQueues Q P) :=
  match p with
  | some a => if s.alive a then some { s with links := s.links.setNext a v } else none
  | none => none

def setPrev (s : PacketQueues Q P) (p v : Option (PacketQueueNode Q P)) : Option (PacketQueues Q P) :=
  match p with
  | some a => if s.alive a then some { s with links := s.links.setPrev a v } else none
  | none => none

/-- `node->next->prev = node->prev; node->prev->next = node->next`. -/
def unlinkNode (s : PacketQueues Q P) (node : Option (PacketQueueNode Q P)) : Option (PacketQueues Q P) := do
  let s ← s.setPrev (← s.next node) (← s.prev node)
  s.setNext (← s.prev node) (← s.next node)

/-- `node->next->prev = node; node->prev->next = node`. -/
def linkNode (s : PacketQueues Q P) (node : Option (PacketQueueNode Q P)) : Option (PacketQueues Q P) := do
  let s ← s.setPrev (← s.next node) node
  s.setNext (← s.prev node) node

def pqEnsureUnlinked (s : PacketQueues Q P) (pkt : P) : Option (PacketQueues Q P) :=
  if s.alive (qnode pkt) then
    if s.onFreeQueue pkt then s.unlinkNode (some (qnode pkt))
    else if s.links.next (qnode pkt) = none ∧ s.links.prev (qnode pkt) = none then some s
    else none
  else none

def pqBasePush (s : PacketQueues Q P) (pqb : Q) (pkt : P) : Option (PacketQueues Q P) := do
  let node := some (qnode pkt)
  let s ← s.pqEnsureUnlinked pkt
  let s ← s.setNext node (some (head (some pqb)))
  let s ← s.setPrev node (← s.prev (some (head (some pqb))))
  s.linkNode node

def pqBasePushFront (s : PacketQueues Q P) (pqb : Q) (pkt : P) : Option (PacketQueues Q P) := do
  let node := some (qnode pkt)
  let s ← s.pqEnsureUnlinked pkt
  let s ← s.setPrev node (some (head (some pqb)))
  let s ← s.setNext node (← s.next (some (head (some pqb))))
  s.linkNode node

def pktinFreeLoop : Nat → PacketQueues Q P → Option (PacketQueues Q P)
  | 0, _ => none
  | fuel + 1, s => do
    let node ← s.next (some pktinFreeqHead)
    match node with
    | some (qnode pktin) =>
      let s ← s.setNext (some pktinFreeqHead) (← s.next node)
      pktinFreeLoop fuel { s with freed := Function.update s.freed pktin true }
    | _ => if node = some pktinFreeqHead then some s else none

def pktinFreeQueueCallback (fuel : Nat) (s : PacketQueues Q P) : Option (PacketQueues Q P) := do
  let s ← pktinFreeLoop fuel s
  s.setPrev (some pktinFreeqHead) (some pktinFreeqHead)

/-- What popping does to the packet, in the two kinds of queue. -/
def pqInPop (s : PacketQueues Q P) (pkt : P) : Option (PacketQueues Q P) := do
  let node := some (qnode pkt)
  let s ← s.unlinkNode node
  let s ← s.setPrev node (← s.prev (some pktinFreeqHead))
  let s ← s.setNext node (some pktinFreeqHead)
  let s ← s.linkNode node
  some { s with onFreeQueue := Function.update s.onFreeQueue pkt true }

def pqOutPop (s : PacketQueues Q P) (pkt : P) : Option (PacketQueues Q P) := do
  let node := some (qnode pkt)
  let s ← s.unlinkNode node
  let s ← s.setNext node none
  s.setPrev node none

def pqAfter (pqPop : PacketQueues Q P → P → Option (PacketQueues Q P)) (s : PacketQueues Q P) (pqb : Q)
    (prev : PacketQueueNode Q P) (pop : Bool) : Option (PacketQueues Q P × Option P) := do
  let node ← s.next (some prev)
  match node with
  | some (qnode pkt) => if pop then return (← pqPop s pkt, some pkt) else return (s, some pkt)
  | _ => if node = some (head (some pqb)) then some (s, none) else none

def pqInAfter : PacketQueues Q P → Q → PacketQueueNode Q P → Bool → Option (PacketQueues Q P × Option P) :=
  pqAfter pqInPop

def pqOutAfter : PacketQueues Q P → Q → PacketQueueNode Q P → Bool → Option (PacketQueues Q P × Option P) :=
  pqAfter pqOutPop

def orNull (e p : Option (PacketQueueNode Q P)) : Option (PacketQueueNode Q P) := if p = e then none else p

def pqBaseConcatenate (s : PacketQueues Q P) (qdest q1 q2 : Q) : Option (PacketQueues Q P) := do
  let end1 := some (head (some q1))
  let end2 := some (head (some q2))
  let dest := some (head (some qdest))
  let head1 := orNull end1 (← s.next end1)
  let tail1 := orNull end1 (← s.prev end1)
  let head2 := orNull end2 (← s.next end2)
  let tail2 := orNull end2 (← s.prev end2)
  let s ← (← s.setPrev end1 end1).setNext end1 end1
  let s ← (← s.setPrev end2 end2).setNext end2 end2
  let s ← if tail1.isSome then s.setNext tail1 head2 else some s
  let head1 := if tail1.isSome then head1 else head2
  let s ← if head2.isSome then s.setPrev head2 tail1 else some s
  let tail2 := if head2.isSome then tail2 else tail1
  if (← s.next dest) = dest ∧ (← s.prev dest) = dest then
    if head1 = none then
      if tail2 = none then some s else none
    else if tail2 = none then none
    else do
      let s ← s.setNext dest head1
      let s ← s.setPrev dest tail2
      let s ← s.setPrev head1 dest
      s.setNext tail2 dest
  else none

end PacketQueues

/-- The macros of `ssh.h`; peek, pop and next are calls of `after`. -/
inductive Op (Q P : Type) where
  | push (pq : Q) (pkt : P)
  | pushFront (pq : Q) (pkt : P)
  | after (pq : Q) (prev : Option P) (pop : Bool)
  | concatenate (qdest q1 q2 : Q)
  /-- `ic_pktin_free` runs. -/
  | freePktin

/-- The node `prev` points to: the end of the queue for peek and pop. -/
def place (pq : Q) : Option P → PacketQueueNode Q P
  | none => head (some pq)
  | some pkt => qnode pkt

section Kinds

variable (queueKind : Q → PacketKind) (pktKind : P → PacketKind)

def PacketQueues.step (fuel : Nat) (s : PacketQueues Q P) : Op Q P → Option (PacketQueues Q P × Option P)
  | .push pq pkt => do return (← s.pqBasePush pq pkt, none)
  | .pushFront pq pkt => do return (← s.pqBasePushFront pq pkt, none)
  | .after pq prev pop =>
    match queueKind pq with
    | .pktIn => s.pqInAfter pq (place pq prev) pop
    | .pktOut => s.pqOutAfter pq (place pq prev) pop
  | .concatenate qdest q1 q2 => do return (← s.pqBaseConcatenate qdest q1 q2, none)
  | .freePktin => do return (← PacketQueues.pktinFreeQueueCallback fuel s, none)

def PacketQueues.run (fuel : Nat) : PacketQueues Q P → List (Op Q P) → Option (PacketQueues Q P × List (Option P))
  | s, [] => some (s, [])
  | s, op :: ops => do
    let (s, r) ← s.step queueKind fuel op
    let (s, rs) ← PacketQueues.run fuel s ops
    return (s, r :: rs)

/-- Every queue after `pq_in_init` or `pq_out_init`, every packet new. -/
def PacketQueues.init : PacketQueues Q P where
  links :=
    { next := fun | head h => some (head h) | qnode _ => none
      prev := fun | head h => some (head h) | qnode _ => none }
  onFreeQueue := fun _ => false
  freed := fun _ => false

/-! ## The specification -/

structure Queues (Q P : Type) where
  contents : Option Q → List P
  freed : P → Bool

namespace Queues

def init : Queues Q P := ⟨fun _ => [], fun _ => false⟩

/-- The packet behind `prev`, or the first. -/
def following (prev : Option P) (zs : List P) : Option P :=
  match prev with
  | none => zs.head?
  | some x => (zs.dropWhile (· ≠ x)).tail.head?

def set (a : Queues Q P) (h : Option Q) (zs : List P) : Queues Q P :=
  { a with contents := Function.update a.contents h zs }

omit [DecidableEq P] in
@[simp] theorem set_contents (a : Queues Q P) (h : Option Q) (zs : List P) :
    (a.set h zs).contents = Function.update a.contents h zs := rfl

omit [DecidableEq P] in
@[simp] theorem set_freed (a : Queues Q P) (h : Option Q) (zs : List P) : (a.set h zs).freed = a.freed := rfl

def unpark (a : Queues Q P) (pkt : P) : Queues Q P := a.set none ((a.contents none).erase pkt)

@[simp] theorem unpark_none (a : Queues Q P) (pkt : P) : (a.unpark pkt).contents none = (a.contents none).erase pkt := by
  simp [unpark]

@[simp] theorem unpark_some (a : Queues Q P) (pkt : P) (pq : Q) :
    (a.unpark pkt).contents (some pq) = a.contents (some pq) := by
  simp [unpark]

@[simp] theorem unpark_freed (a : Queues Q P) (pkt : P) : (a.unpark pkt).freed = a.freed := rfl

def pop (a : Queues Q P) (pq : Q) (pkt : P) : Queues Q P :=
  let a := a.set (some pq) ((a.contents (some pq)).erase pkt)
  match queueKind pq with
  | .pktIn => a.set none (a.contents none ++ [pkt])
  | .pktOut => a

def concatenation (a : Queues Q P) (q1 q2 : Q) : List P :=
  if q1 = q2 then a.contents (some q1) else a.contents (some q1) ++ a.contents (some q2)

def step (a : Queues Q P) : Op Q P → Queues Q P × Option P
  | .push pq pkt => ((a.unpark pkt).set (some pq) (a.contents (some pq) ++ [pkt]), none)
  | .pushFront pq pkt => ((a.unpark pkt).set (some pq) (pkt :: a.contents (some pq)), none)
  | .after pq prev pop =>
    match following prev (a.contents (some pq)) with
    | some pkt => (if pop then a.pop queueKind pq pkt else a, some pkt)
    | none => (a, none)
  | .concatenate qdest q1 q2 =>
    (((a.set (some q1) []).set (some q2) []).set (some qdest) (a.concatenation q1 q2), none)
  | .freePktin => ({ a.set none [] with freed := fun x => a.freed x || decide (x ∈ a.contents none) }, none)

def run : Queues Q P → List (Op Q P) → Queues Q P × List (Option P)
  | a, [] => (a, [])
  | a, op :: ops =>
    let (a, r) := a.step queueKind op
    let (a, rs) := run a ops
    (a, r :: rs)

/-- What the callers owe: a packet is pushed only from outside the queues, `prev` is in the
    queue, and the destination of a concatenation is empty or one of the queues. -/
def Legal (a : Queues Q P) : Op Q P → Prop
  | .push pq pkt | .pushFront pq pkt =>
    a.freed pkt = false ∧ (∀ q, pkt ∉ a.contents (some q)) ∧ pktKind pkt = queueKind pq
  | .after pq prev _ => ∀ pkt ∈ prev, pkt ∈ a.contents (some pq)
  | .concatenate qdest q1 q2 => (a.contents (some qdest) = [] ∨ qdest = q1 ∨ qdest = q2) ∧
      queueKind q1 = queueKind qdest ∧ queueKind q2 = queueKind qdest
  | .freePktin => True

def LegalRun : Queues Q P → List (Op Q P) → Prop
  | _, [] => True
  | a, op :: ops => a.Legal queueKind pktKind op ∧ LegalRun (a.step queueKind op).1 ops

instance [Fintype Q] (a : Queues Q P) : (op : Op Q P) → Decidable (a.Legal queueKind pktKind op)
  | .push _ _ => inferInstanceAs (Decidable (_ ∧ _ ∧ _))
  | .pushFront _ _ => inferInstanceAs (Decidable (_ ∧ _ ∧ _))
  | .after pq prev _ => inferInstanceAs (Decidable (∀ pkt ∈ prev, pkt ∈ a.contents (some pq)))
  | .concatenate _ _ _ => inferInstanceAs (Decidable (_ ∧ _ ∧ _))
  | .freePktin => inferInstanceAs (Decidable True)

instance decLegalRun [Fintype Q] : (a : Queues Q P) → (ops : List (Op Q P)) → Decidable (a.LegalRun queueKind pktKind ops)
  | _, [] => inferInstanceAs (Decidable True)
  | a, op :: ops =>
    have := decLegalRun (a.step queueKind op).1 ops
    inferInstanceAs (Decidable (_ ∧ _))

/-- A packet that a caller has popped from a queue of outgoing packets is the caller's. -/
def PoppedOut (ops : List (Op Q P)) (replies : List (Option P)) (pkt : P) : Prop :=
  ∃ pq prev, queueKind pq = .pktOut ∧ (Op.after pq prev true, some pkt) ∈ ops.zip replies

def Pushed (ops : List (Op Q P)) (pkt : P) : Prop := ∃ pq, Op.push pq pkt ∈ ops ∨ Op.pushFront pq pkt ∈ ops

end Queues

end Kinds

end Putty.Sshcommon
