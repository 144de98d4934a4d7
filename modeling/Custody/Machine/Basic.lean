import Custody.Debug

/-!
# The machine

Programs run in small steps, so that what holds at every moment can be said of every state, also
of those inside a destructor. What is still to be done is an explicit agenda.

* `Action`: one thing to do. Every pointer that an operation in progress holds is in an action,
  so the pointers that exist are those in tables and those in actions.
* `Machine`: the heap, the tables, the agenda and the stack of replies. Each executed step leaves
  exactly one reply on the stack.
* `Machine.resolve?`, `Machine.find`, `Machine.findTwo`: slots by path.
-/

namespace Custody

/-- Where slots are kept: under the program's names, or in an object. -/
inductive TableId
  | root
  | links (o : ObjectId)
  deriving DecidableEq, Repr

/-- A name in a table. -/
structure Location where
  table : TableId
  name : String
  deriving DecidableEq, Repr

/-- What is said of a pointer that is being stored. -/
inductive Form
  | plain
  /-- With the list of replies that is on top of the stack. -/
  | during
  | promoted (sameAddress sourceNull : Bool)
  deriving DecidableEq, Repr

/-- A projection whose closure is running. -/
structure Projection where
  source : Location
  selector : Selector
  target : Kind
  dst : Path
  listed : Bool
  deriving Repr

/-- What a projection is answered with. -/
def Projection.form (j : Projection) : Form := if j.listed then .during else .plain

/-- What is left to be done. A step of a program comes to some of these. -/
inductive Action
  | exec (s : Step)
  | drop (x : Slot)
  /-- A step of a destructor is over. -/
  | did (node : Int64)
  /-- The steps of a destructor are over. -/
  | leave
  /-- The links of a dying node go one by one, smallest name first. -/
  | unlink (o : ObjectId)
  | reclaim (o : ObjectId)
  | giveUpImplicit (b : BlockId)
  /-- An operand returns to its table; its counts are the reply if `counted`. -/
  | putBack (loc : Location) (x : Slot) (counted : Bool)
  | place (x : Slot) (dst : Path) (form : Form)
  | answer (r : Reply)
  /-- A step no longer works on a table; a dead node's table then goes. -/
  | letGo (t : TableId)
  | gather (n : Nat)
  | forget (n : Nat)
  | round (n : Nat) (body : List Step)
  | project (p : Projection) (source : Strong) (total : Bool)
  | projectWeak (p : Projection) (source : Weak) (locked : Strong)
  /-- A step of the program is over. -/
  | record
  /-- The slots of the root table go one by one, smallest name first. -/
  | clear
  | remember (name : String) (m : Metrics)

namespace Action

/-- The pointers that the action holds. -/
def slots : Action → List Slot
  | drop x | putBack _ x _ | place x _ _ => [x]
  | project _ p _ => [.strong p]
  | projectWeak _ w l => [.weak w, .strong l]
  | _ => []

/-- The action will still work on the table. -/
def worksOn (t : TableId) : Action → Bool
  | putBack loc _ _ => loc.table == t
  | letGo s => s == t
  | project p _ _ => p.source.table == t
  | projectWeak p _ _ => p.source.table == t
  | _ => false

end Action

/-- What a step of the program came to. Its events are those of the log from `start` to `stop`. -/
structure Record where
  reply : Reply
  start : Nat
  stop : Nat
  listing : Option Reply

/-- What a machine has besides the heap. -/
structure Environment where
  root : Table := .empty
  marks : List (String × Metrics) := []
  /-- The nodes whose destructors run steps, innermost first. -/
  running : List ObjectId := []
  agenda : List Action := []
  replies : List Reply := []
  records : Array Record := #[]
  watch : Bool := false

/-- The state of a run: the heap, and what is left to be done. -/
structure Machine where
  heap : Heap := .empty
  env : Environment := {}

namespace Machine

/-- An operation on the heap alone. -/
def onHeap {α : Type} (m : Machine) (f : Heap → Heap × α) : Machine × α :=
  match m with
  | ⟨h, env⟩ =>
    let (h, a) := f h
    (⟨h, env⟩, a)

/-- The machine with another heap. -/
def mapHeap (m : Machine) (f : Heap → Heap) : Machine :=
  match m with
  | ⟨h, env⟩ => ⟨f h, env⟩

/-- The machine with another environment. -/
def mapEnv (m : Machine) (f : Environment → Environment) : Machine :=
  match m with
  | ⟨h, env⟩ => ⟨h, f env⟩

/-- Puts actions in front of the agenda. -/
def schedule (actions : List Action) (m : Machine) : Machine :=
  m.mapEnv fun e => { e with agenda := actions ++ e.agenda }

/-- A reply is put on the stack. -/
def reply (r : Reply) (m : Machine) : Machine :=
  m.mapEnv fun e => { e with replies := r :: e.replies }

/-! ## Tables -/

/-- The table itself. An object that is not there has an empty one. -/
def table (m : Machine) : TableId → Table
  | .root => m.env.root
  | .links o => m.heap.linksOf o

/-- The machine with this table for the one there. -/
def withTable (t : TableId) (new : Table) (m : Machine) : Machine :=
  match t with
  | .root => m.mapEnv fun e => { e with root := new }
  | .links o => m.mapHeap (·.withLinks o new)

/-- The slot at the location. -/
def get? (m : Machine) (loc : Location) : Option Slot := (m.table loc.table).get? loc.name

/-- The machine with `x` at the location, whatever was there. -/
def insert (loc : Location) (x : Slot) (m : Machine) : Machine :=
  m.withTable loc.table ((m.table loc.table).insert loc.name x)

/-- The machine without what is at the location. -/
def erase (loc : Location) (m : Machine) : Machine :=
  m.withTable loc.table ((m.table loc.table).erase loc.name)

/-- The table that a path leads to: each name on the way is of a pointer to a node. -/
def resolve? (m : Machine) (p : Path) : Option Location := do
  let start ← if p.fromRunning then m.env.running.head?.map .links else some .root
  let t ← p.through.foldlM (fun t name => do
    let x ← (m.table t).get? name
    return .links (← x.node?)) start
  return ⟨t, p.name⟩

/-- The location that the path leads to. -/
def locate (m : Machine) (p : Path) : Except Failure Location :=
  match m.resolve? p with
  | some loc => .ok loc
  | none => .error .noSlot

/-- The slot at the location, which must be one. -/
def lookup (m : Machine) (loc : Location) : Except Failure Slot :=
  match m.get? loc with
  | some x => .ok x
  | none => .error .noSlot

/-- The slot that the path leads to, and where it is. -/
def find (m : Machine) (p : Path) : Except Failure (Location × Slot) := do
  let loc ← m.locate p
  return (loc, ← m.lookup loc)

/-- Two slots at once. Both paths are followed before either slot is looked for, and the second
is looked for when the first is out of its table. -/
def findTwo (m : Machine) (p q : Path) :
    Except Failure ((Location × Slot) × (Location × Slot)) := do
  if p = q then throw .sameSlot
  let first ← m.locate p
  let second ← m.locate q
  let x ← m.lookup first
  if first = second then throw .noSlot
  return ((first, x), (second, ← m.lookup second))

end Machine

end Custody
