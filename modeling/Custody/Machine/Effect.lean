import Custody.Machine.Basic

/-!
# Effects

* `Effect`: what a step does once its operands are found. The operands leave their tables, one call
  is made on the heap, and the rest is left as actions.
* `Settlement`: the usual rest: pointers that were given up are dropped, operands return, the
  pointer that was made is stored.
* `Machine.carryOut`: an effect on a machine.
-/

namespace Custody

/-- What a step that is not refused does: the slots it takes out of their tables, and what it makes
of the heap and leaves to be done. -/
structure Effect where
  taken : List Location
  call : Heap → Heap × List Action

/-- What an operation leaves to be done, in this order. -/
structure Settlement where
  /-- Pointers it gave up. -/
  surplus : List Slot := []
  operands : List (Location × Slot) := []
  /-- The counts of the first operand are the reply. -/
  counted : Bool := false
  made : Option (Slot × Path × Form) := none
  reply : Option Reply := none

namespace Settlement

/-- Operands return to their tables. The counts of the first one are the reply if `counted`. -/
def putBacks (counted : Bool) : List (Location × Slot) → List Action
  | [] => []
  | (loc, x) :: rest => .putBack loc x counted :: putBacks false rest

/-- A step lets go of the tables that it took operands from. -/
def letGos (tables : List TableId) : List Action := (tables.filter (· != .root)).map .letGo

/-- What a settlement leaves to be done: what is left over is dropped, operands return, what was
made is placed, and the reply is given. -/
def actions (s : Settlement) (tables : List TableId) : List Action :=
  s.surplus.map .drop ++ putBacks s.counted s.operands ++
  (s.made.toList.map fun (x, dst, form) => .place x dst form) ++
  s.reply.toList.map .answer ++ letGos tables

end Settlement

namespace Effect

/-- A step that only reads. -/
def answer (r : Reply) : Effect := ⟨[], fun h => (h, [.answer r])⟩

/-- A call whose operands are already out of their tables. -/
def closing (tables : List TableId) (call : Heap → Heap × Settlement) : Effect where
  taken := []
  call h :=
    match call h with
    | (h, s) => (h, s.actions tables)

/-- An effect that takes out its operands, and settles. -/
def settling (taken : List Location) (call : Heap → Heap × Settlement) : Effect :=
  { closing (taken.map (·.table)) call with taken }

/-! ## Surroundings -/

/-- The arena grants so many more requests. -/
def setBudget (limit : Option Nat) : Effect where
  taken := []
  call h :=
    let r :=
      match limit with
      | some n => Reply.number n
      | none => .nothing
    (h.updateLedger .arena fun l => { l with budget := limit }, [.answer r])

/-- All counters are set to zero. -/
def resetMetrics : Effect where
  taken := []
  call h := (h.measure fun _ => .zero, [.answer (.metrics .zero)])

/-- A snapshot of the metrics is kept under the name. -/
def remember (name : String) : Effect := ⟨[], fun h => (h, [.remember name h.metrics])⟩

end Effect

namespace Machine

/-- The machine without what is at the locations. -/
def takeOut (locs : List Location) (m : Machine) : Machine :=
  locs.foldl (fun m loc => m.erase loc) m

/-- The machine after the effect, with its actions before what is left to be done. -/
def carryOut (e : Effect) (m : Machine) : Machine :=
  let (m, actions) := (m.takeOut e.taken).onHeap e.call
  m.schedule actions

end Machine

end Custody
