import Custody.Machine.Run

/-!
# Reports

* `Machine.ofProgram`: a fresh machine with a program on its agenda.
* `Event.isTold`: the events that a report lists.
* `Report`: what each step of a program came to, and what was left in the end.
-/

namespace Custody

/-- After the last step the slots that are left are dropped. -/
def Machine.ofProgram (steps : List Step) (watch : Bool) : Machine :=
  { env := { agenda := steps.flatMap (fun s => [.exec s, .record]) ++ [.clear], watch } }

/-- Of the two allocators, the arena tells what it does. -/
def Event.isTold : Event → Bool
  | alloc a _ _ | dealloc a _ _ | refuse a _ => a == .arena
  | _ => true

/-- What came of a step of the program. -/
structure Outcome where
  reply : Reply
  events : List Event
  /-- The root table after the step, if it is watched. -/
  listing : Option Reply

/-- All that is told of a run. -/
structure Report where
  outcomes : List Outcome
  /-- The events after the last step. -/
  closing : List Event
  metrics : Metrics
  /-- The allocations of the arena that were never given back. -/
  leaked : List Nat

namespace Report

/-- What is told of a machine that has run. -/
def ofMachine (m : Machine) : Report :=
  let log := m.heap.log
  let records := m.env.records
  let last := (records.back?.map (·.stop)).getD 0
  { outcomes := records.toList.map fun r =>
      ⟨r.reply, (log.extract r.start r.stop).toList.filter Event.isTold, r.listing⟩
    closing := (log.extract last log.size).toList.filter Event.isTold
    metrics := m.heap.metrics
    leaked := m.heap.arena.leaked }

/-- What is told of the run of a program. -/
def ofProgram (steps : List Step) (watch : Bool) : Report :=
  ofMachine (Machine.ofProgram steps watch).run

end Report

end Custody
