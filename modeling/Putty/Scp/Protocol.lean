/-
  Putty.Scp.Protocol — what the source may send, and when.

  An observer of the channel that knows of each ack when it is consumed. A command needs
  an ack consumed just for it, the first data byte of a file too; a C is followed by
  exactly the bytes it announced and a zero byte, a T by a C or D; an E closes a D. Exit
  status 0 is sent between files, with every D closed; exit status 1 at any time.
-/

import Putty.Scp.Source

namespace Putty.Scp.Source

inductive Phase where
  | idle
  /-- A C was sent; its data waits for an ack. -/
  | announced (size : Nat)
  | sending (left : Nat)
  deriving DecidableEq, Repr

structure Observer where
  phase : Phase
  /-- An ack was consumed, and nothing sent for it yet. -/
  credit : Bool
  /-- A T was sent, without its C or D. -/
  times : Bool
  /-- D commands without their E. -/
  depth : Nat
  /-- The exit status was sent. -/
  ended : Bool
  deriving DecidableEq, Repr

namespace Observer

def start : Observer := ⟨.idle, false, false, 0, false⟩

/-- A command, for the ack that was consumed last. -/
def command (o : Observer) : Command → Option Observer
  | .T _ _ => if o.times then none else some { o with credit := false, times := true }
  | .CD .C _ size _ => some { o with credit := false, times := false, phase := .announced size.toNat }
  | .CD .D _ _ _ => some { o with credit := false, times := false, depth := o.depth + 1 }
  | .E => if o.times ∨ o.depth = 0 then none else some { o with credit := false, depth := o.depth - 1 }
  | .wait => none

/-- The bytes of the current file that are still to come, if some may be sent now. -/
def left (o : Observer) : Option Nat :=
  match o.phase with
  | .idle => none
  | .announced size => if o.credit then some size else none
  | .sending left => some left

def observe (o : Observer) : Out → Option Observer
  | .ack => if o.credit ∨ o.ended then none else some { o with credit := true }
  | .command cmd => if o.phase = .idle ∧ o.credit ∧ ¬ o.ended then o.command cmd else none
  | .data bytes =>
    if o.ended then none
    else
      match o.left with
      | none => none
      | some left => if bytes.length ≤ left then some { o with phase := .sending (left - bytes.length), credit := false } else none
  | .zero => if o.left = some 0 ∧ ¬ o.ended then some { o with phase := .idle, credit := false } else none
  | .stderr _ => if o.ended then none else some o
  | .exitStatus 0 =>
    if o.phase = .idle ∧ o.depth = 0 ∧ ¬ o.credit ∧ ¬ o.times ∧ ¬ o.ended then some { o with ended := true } else none
  | .exitStatus (_ + 1) => if o.ended then none else some { o with ended := true }
  | .eof => if o.ended then some o else none
  | .close _ => if o.ended then some o else none

def watch (o : Observer) (log : List Out) : Option Observer := log.foldlM observe o

@[simp] theorem watch_nil (o : Observer) : o.watch [] = some o := rfl

theorem watch_append (o : Observer) (xs ys : List Out) : o.watch (xs ++ ys) = (o.watch xs).bind fun p => p.watch ys := by
  simp only [watch, List.foldlM_append]
  rfl

theorem watch_snoc {o p : Observer} {xs : List Out} (h : o.watch xs = some p) (x : Out) :
    o.watch (xs ++ [x]) = p.observe x := by
  rw [watch_append, h]
  exact bind_pure (p.observe x)

/-- What an observer accepts, it accepts up to any point. -/
theorem watch_of_append {o p : Observer} {xs ys : List Out} (h : o.watch (xs ++ ys) = some p) :
    ∃ q, o.watch xs = some q ∧ q.watch ys = some p := by
  rw [watch_append] at h
  exact Option.bind_eq_some_iff.mp h

end Observer

end Putty.Scp.Source
