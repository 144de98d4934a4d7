import Custody.Report

/-!
# Answers

The data that replies, events and reports are given as.

* `Reply.toDatum`, `Event.toDatum`, `Report.toDatum`.
* `Failure.message?`: the wording of a failure that has one.
-/

namespace Custody

namespace Datum

/-- A number as data. -/
def ofNat (n : Nat) : Datum := int n

/-- `null` where there is nothing. -/
def ofOption {α : Type} (f : α → Datum) : Option α → Datum
  | some a => f a
  | none => null

end Datum

open Datum (ofNat ofOption)

/-- The six counters and the two derived counts. -/
def Metrics.toDatum (m : Metrics) : Datum :=
  .object
    [("blocks_allocated", ofNat m.blocksAllocated), ("blocks_freed", ofNat m.blocksFreed),
     ("pointees_disposed", ofNat m.pointeesDisposed), ("lock_attempts", ofNat m.lockAttempts),
     ("lock_failures", ofNat m.lockFailures), ("alloc_failures", ofNat m.allocFailures),
     ("live", ofNat m.live), ("expired", ofNat m.expired)]

namespace Failure

/-- The name that a failure is answered with. -/
def name : Failure → String
  | badOp => "BadOp"
  | noSlot => "NoSlot"
  | wrongKind => "WrongKind"
  | sameSlot => "SameSlot"
  | otherOwner => "OtherOwner"
  | wouldAbort => "WouldAbort"
  | refused _ => "AllocError"
  | expired => "ExpiredError"
  | nullStrong | nullUnique => "Panic"

/-- What a failure says for itself. -/
def message? : Failure → Option String
  | refused l => some l.refusal
  | expired => some "weak pointer has expired"
  | nullStrong => some "dereferenced a null SharedPtr"
  | nullUnique => some "dereferenced a null UniquePtr"
  | _ => none

/-- A refusal also says what was asked for. -/
def fields (f : Failure) : List (String × Datum) :=
  ("error", .text f.name) ::
  (f.message?.toList.map fun s => ("message", .text s)) ++
  (match f with
    | refused l => [("size", ofNat l.size), ("align", ofNat l.align)]
    | _ => [])

/-- A failure as data. -/
def toDatum (f : Failure) : Datum := .object f.fields

end Failure

/-! ## Values -/

/-- The counts of a pointer as data. -/
def Counts.toDatum : Counts → Datum
  | strong use observers rawWeak null block =>
    .object
      [("use", ofNat use), ("weak", ofNat observers), ("raw", .list [ofNat use, ofNat rawWeak]),
       ("null", .bool null), ("unique", .bool (use == 1)), ("block", .bool block)]
  | weak use observers rawWeak block =>
    .object
      [("use", ofNat use), ("weak", ofNat observers), ("raw", .list [ofNat use, ofNat rawWeak]),
       ("expired", .bool (use == 0)), ("block", .bool block)]
  | unique null => .object [("null", .bool null), ("ptr", .bool !null)]
  | raw => .null

/-- What is shown of a pointee as data. -/
def Shown.toDatum : Shown → Datum
  | number n => .int n
  | numbers ns => .list (ns.map .int)
  | text s => .text s
  | node n links =>
    .object
      [("id", .int n.id.toInt), ("value", .int n.value.toInt), ("name", .text n.name.toString),
       ("items", .list (n.items.map fun x => .int x.toInt)), ("links", .list (links.map .text))]
  | concrete kind value => .list [.text kind.name, value.toDatum]
  | shape label area => .list [.text label, .int area]

/-- A value that is there is in a list of its own, which tells it from none. -/
def Shown.inList (v : Shown) : Datum := .list [v.toDatum]

/-- What is said of a slot in a listing as data. -/
def Entry.toDatum : Entry → Datum
  | strong kind use observers value =>
    .list [.text "strong", .text kind.name, ofNat use, ofNat observers, ofOption Shown.inList value]
  | weak kind use observers =>
    .list [.text "weak", .text kind.name, ofNat use, ofNat observers]
  | unique kind alloc value =>
    .list [.text "unique", .text kind.name, .text alloc.name, ofOption Shown.inList value]
  | raw kind alloc => .list [.text "raw", .text kind.name, .text alloc.name]

/-- The name of an order, which may be none. -/
def orderName : Option Ordering → String
  | some .lt => "less"
  | some .eq => "equal"
  | some .gt => "greater"
  | none => "unordered"

/-- Whether the order is `o`, where it is determined. -/
def orderIs (o : Ordering) : Option Ordering → Datum
  | some p => .bool (p == o)
  | none => .text "unordered"

/-! ## Replies -/

mutual

/-- A reply as data. -/
def Reply.toDatum : Reply → Datum
  | done => .bool true
  | nothing => .null
  | flag b => .bool b
  | number n => .int n
  | text s => .text s
  | shown v => v.inList
  | counts c => c.toDatum
  | placed c => .object [("to", c.toDatum)]
  | placedDuring c during => .object [("to", c.toDatum), ("during", .list (Reply.toData during))]
  | promoted c sameAddress sourceNull =>
    .object
      [("to", c.toDatum),
       ("move", .object [("same_addr", .bool sameAddress), ("source_null", .bool sourceNull)])]
  | metrics m => m.toDatum
  | listing entries => .object (entries.map fun (name, e) => (name, e.toDatum))
  | compared same order =>
    .object
      [("eq", .bool same), ("ptr_eq", .bool same), ("hash_eq", .bool same),
       ("cmp", .text (orderName order)), ("lt", orderIs .lt order), ("anti", .bool true)]
  | sameBlock same => .object [("ptr_eq", .bool same)]
  | owners same order =>
    .object
      [("eq", .bool same), ("cmp", .text (orderName order)), ("before", orderIs .lt order),
       ("after", orderIs .gt order), ("anti", .bool true)]
  | keyed size order found =>
    .object
      [("tree", ofNat size), ("hash", ofNat size),
       ("order", ofOption (fun is => .list (is.map ofNat)) order),
       ("found", ofOption ofNat found), ("found_hash", ofOption ofNat found)]
  | list replies => .list (Reply.toData replies)
  | aside answer => answer
  | failed f => f.toDatum

/-- Replies as data, in order. -/
def Reply.toData : List Reply → List Datum
  | [] => []
  | r :: rest => r.toDatum :: Reply.toData rest

end

theorem Reply.toData_eq_map (replies : List Reply) : toData replies = replies.map toDatum := by
  induction replies with
  | nil => rfl
  | cons r rest ih => simp [toData, ih]

/-! ## Events -/

/-- An event as data: where it is recorded, what it is, and what it is about. -/
def Event.toDatum : Event → Datum
  | alloc _ serial l => .list [.text "alloc", ofNat serial, ofNat l.size, ofNat l.align]
  | dealloc _ serial l => .list [.text "dealloc", ofNat serial, ofNat l.size, ofNat l.align]
  | refuse _ l => .list [.text "refuse", ofNat l.size, ofNat l.align]
  | blockCreated id kind => .list [.text "trace", .text "block_created", ofNat id, .text kind.name]
  | pointeeDisposed id => .list [.text "debug", .text "pointee_disposed", ofNat id]
  | blockFreed id => .list [.text "trace", .text "block_freed", ofNat id]
  | lock id => .list [.text "trace", .text "lock", ofNat id]
  | lockExpired id => .list [.text "debug", .text "lock_expired", ofNat id]
  | drop node => .list [.text "drop", .int node.toInt]
  | did node reply => .list [.text "did", .int node.toInt, reply.toDatum]

/-- Of more than 120 events only the number and both ends are given. -/
def eventList (events : List Event) : Datum :=
  let shown (es : List Event) : Datum := .list (es.map Event.toDatum)
  let count := events.length
  if count ≤ 120 then shown events
  else
    .object
      [("count", ofNat count), ("first", shown (events.take 20)),
       ("last", shown (events.drop (count - 20)))]

/-! ## Reports -/

/-- What came of a step as data. -/
def Outcome.toDatum (o : Outcome) : Datum :=
  .object
    ([("r", o.reply.toDatum), ("e", eventList o.events)] ++
     (o.listing.toList.map fun l => ("s", l.toDatum)))

/-- A whole answer as data. -/
def Report.toDatum (r : Report) : Datum :=
  .object
    [("steps", .list (r.outcomes.map Outcome.toDatum)),
     ("end", .object
       [("e", eventList r.closing), ("metrics", r.metrics.toDatum),
        ("leaked", .list (r.leaked.map ofNat))])]

end Custody
