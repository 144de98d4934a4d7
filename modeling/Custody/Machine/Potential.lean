import Custody.Machine.Basic

/-!
# Potential

How much work is left, at most. Each action that a machine performs lowers its potential, so the
potential is a number of actions after which the agenda is empty.

* `Step.cost`, `Literal.cost`: a step pays for its operands, for what runs inside it, and for the
  destructor of what it makes.
* `Action.cost`, `Machine.potential`: what is on the agenda, what is stored, and the destructors
  that have not started.
-/

namespace Custody

mutual

/-- What a step may leave to be done at most. A loop is paid for in advance. -/
def Step.cost : Step → Nat
  | .new _ value _ _ | .unique _ value _ _ | .raw _ value _ | .resetWith _ value => 32 + value.cost
  | .map _ _ _ during _ | .tryMap _ _ _ during _ => 32 + Step.costs during
  | .loop rounds body => 32 + rounds * (Step.costs body + 2)
  | _ => 32

/-- The destructors that a value brings along. -/
def Literal.cost : Literal → Nat
  | .list items => Literal.costs items
  | .node _ onDrop => Step.costs onDrop
  | _ => 0

/-- One more for each step, for what follows it. -/
def Step.costs : List Step → Nat
  | [] => 0
  | s :: rest => s.cost + 1 + Step.costs rest

/-- The destructors that values bring along. -/
def Literal.costs : List Literal → Nat
  | [] => 0
  | l :: rest => l.cost + Literal.costs rest

end

/-- A stored slot will be dropped. -/
def Table.cost (t : Table) : Nat := 6 * t.entries.length

/-- What the destructor of an object will leave to be done. -/
def Object.cost (x : Object) : Nat := Step.costs x.onDrop + x.links.cost

/-- What is paid for an action. -/
def Action.cost : Action → Nat
  | .exec s => s.cost
  | .drop _ => 5
  | .putBack _ _ _ | .place _ _ _ => 7
  | .round n body => n * (Step.costs body + 2) + 2
  | .project _ _ _ => 16
  | .projectWeak _ _ _ => 26
  | _ => 1

/-- What all destructors will leave to be done. -/
def Heap.potential (h : Heap) : Nat := h.objects.toList.foldr (fun x n => x.cost + n) 0

/-- As many steps as are left, or more. Every step lowers it. -/
def Machine.potential (m : Machine) : Nat :=
  m.env.agenda.foldr (fun a n => a.cost + n) 0 + m.env.root.cost + m.heap.potential

end Custody
