import Custody.Script

/-!
# Requests

What is asked, and the answer to it.

* `Request`: a program to run, or a question about metrics, a refusal or a plain allocation.
* `Request.ofDatum?`: a request from its written form.
* `Request.answer`, `answer`: the answer as data.
-/

namespace Custody

/-- What can be asked for. -/
inductive Request
  | run (steps : List Step) (watch : Bool)
  | metrics (later earlier : Metrics)
  | refusal (l : Layout) (other : Option Layout)
  | expiry
  | allocation (l : Layout)

namespace Request

/-- A counter is 0 if it is not given. -/
def counter? (d : Datum) (name : String) : Option Nat :=
  match d.field? name with
  | none => some 0
  | some v => v.nat?.filter (· < UInt64.size)

/-- Metrics of six counters by name. -/
def metrics? : Datum → Option Metrics
  | .object fields => do
    let d := Datum.object fields
    return {
      blocksAllocated := ← counter? d "blocks_allocated"
      blocksFreed := ← counter? d "blocks_freed"
      pointeesDisposed := ← counter? d "pointees_disposed"
      lockAttempts := ← counter? d "lock_attempts"
      lockFailures := ← counter? d "lock_failures"
      allocFailures := ← counter? d "alloc_failures" }
  | _ => none

/-- A number of a machine word under the name. -/
def word? (d : Datum) (name : String) : Option Nat :=
  (d.field? name).bind fun v => v.nat?.filter (· < UInt64.size)

/-- A size and an alignment under these names. It need not be a valid layout. -/
def layout? (d : Datum) (size align : String) : Option Layout :=
  return ⟨← word? d size, ← word? d align⟩

/-- Whether the root table is watched. It is not if nothing is said of it. -/
def watch? (d : Datum) : Option Bool :=
  match d.field? "watch" with
  | none => some false
  | some (.bool b) => some b
  | some _ => none

/-- What the data ask for, if they are well formed. -/
def ofDatum? (d : Datum) : Option Request := do
  match ← (← d.field? "op").text? with
  | "run" => return run (← (← d.field? "steps").steps?) (← watch? d)
  | "metrics" => return metrics (← metrics? (← d.field? "a")) (← metrics? (← d.field? "b"))
  | "alloc_error" =>
    let l ← layout? d "size" "align"
    match d.field? "size2" with
    | none => return refusal l none
    | some _ => return refusal l (some (← layout? d "size2" "align2"))
  | "expired_error" => return expiry
  | "global_alloc" => return allocation (← layout? d "size" "align")
  | _ => none

end Request

/-- What is said of anything that is not a request. -/
def badInput : Datum := .object [("error", .text "BadInput")]

/-- The answer to a layout that is not valid. -/
def layoutError : Datum := .object [("error", .text "LayoutError")]

/-- Requests of this size and more are refused by the system. -/
def refusedSize : Nat := 1 <<< 60

/-- Only smaller requests are made. -/
def largestSize : Nat := 1 <<< 20

/-- The byte that memory is filled with to try it. -/
def fillByte : Nat := 165

/-- What comes of a request to the global allocator: memory that can be filled to its last byte. -/
def allocationAnswer (l : Layout) : Datum :=
  if ¬ l.Valid then layoutError
  else if refusedSize ≤ l.size then (Failure.refused l).toDatum
  else if l.size = 0 ∨ largestSize < l.size then badInput
  else .object [("aligned", .bool true), ("last", .ofNat fillByte)]

/-- A failure is not caused by another one. -/
def sourceField : String × Datum := ("source", .bool false)

/-- The error of a refused layout, and whether it is that of the other one. -/
def refusalAnswer (l : Layout) (other : Option Layout) : Datum :=
  let described := (Failure.refused l).fields ++ [sourceField]
  if ¬ l.Valid then layoutError
  else
    match other with
    | none => .object described
    | some l' =>
      if ¬ l'.Valid then layoutError else .object (described ++ [("eq", .bool (l == l'))])

/-- What is derived of two snapshots. -/
def metricsAnswer (later earlier : Metrics) : Datum :=
  .object
    [("a", later.toDatum), ("b", earlier.toDatum), ("since", (later.since earlier).toDatum),
     ("eq", .bool (later == earlier)), ("new", .bool (later == .zero)),
     ("debug", .text later.debugText)]

/-- The error of an expired pointer. -/
def expiryAnswer : Datum :=
  .object
    (Failure.expired.fields ++
      [("debug", .text "ExpiredError"), ("eq", .bool true), sourceField])

/-- The answer to a request. -/
def Request.answer : Request → Datum
  | run steps watch => (Report.ofProgram steps watch).toDatum
  | metrics later earlier => metricsAnswer later earlier
  | refusal l other => refusalAnswer l other
  | expiry => expiryAnswer
  | allocation l => allocationAnswer l

/-- The answer to any data. What is not well formed is bad input. -/
def answer (d : Datum) : Datum :=
  match Request.ofDatum? d with
  | some r => r.answer
  | none => badInput

end Custody
