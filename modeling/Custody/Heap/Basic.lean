import Custody.Literal
import Custody.Reply
import Custody.Table

/-!
# The heap

* `Block`: a control block. Its weak counter includes one implicit reference, held for all strong
  owners together, until the pointee's disposal is over.
* `Object`: a pointee, with the steps its destructor runs and the slots a node holds.
* `Ledger`: what an allocator has handed out, and how many more requests it will grant.
* `Breach`: a use that would be undefined. Breaches are recorded, so that it can be said that
  none is reachable.
* `Heap`: all of these, with the metrics and the log of events.
-/

namespace Custody

/-- A control block. It is there until the last weak reference goes, and stays in the list freed. -/
structure Block where
  id : Nat
  kind : Kind
  alloc : Alloc
  serial : Nat
  pointee : Option ObjectId
  strong : Nat := 1
  weak : Nat := 1
  implicitWeak : Bool := true
  freed : Bool := false
  deriving Repr, Inhabited

/-- Weak references held by weak pointers, without the implicit one. -/
def Block.observers (b : Block) : Nat := b.weak - (if b.implicitWeak then 1 else 0)

/-- How far an object has come: its destructor may be running. -/
inductive Phase
  | alive | dying | gone
  deriving DecidableEq, Repr, Inhabited

/-- A pointee with its memory, and what its destructor will do and drop. -/
structure Object where
  content : Content
  onDrop : List Step
  links : Table := .empty
  alloc : Alloc
  /-- The allocation it occupies, if it occupies any. -/
  serial : Option Nat
  phase : Phase := .alive
  deriving Inhabited

/-- What has been granted, and whether it is still out. -/
structure Allocation where
  layout : Layout
  live : Bool := true
  deriving DecidableEq, Repr, Inhabited

/-- The books of an allocator. -/
structure Ledger where
  /-- How many more requests are granted; without a budget, all are. -/
  budget : Option Nat := none
  /-- Allocation `n` is entry `n - 1`. -/
  allocations : Array Allocation := #[]
  deriving Repr, Inhabited

namespace Ledger

/-- The next request is refused. -/
def isExhausted (l : Ledger) : Bool := l.budget == some 0

/-- A request is granted. -/
def grant (layout : Layout) (l : Ledger) : Ledger :=
  ⟨l.budget.map (· - 1), l.allocations.push { layout }⟩

/-- Allocation `serial` has this layout and has not been given back. -/
def holds (serial : Nat) (layout : Layout) (l : Ledger) : Bool :=
  serial != 0 && l.allocations[serial - 1]? == some { layout }

/-- An allocation is returned. -/
def giveBack (serial : Nat) (l : Ledger) : Ledger :=
  { l with allocations := l.allocations.modify (serial - 1) fun x => { x with live := false } }

/-- The serials of the allocations that were never given back, rising. -/
def leaked (l : Ledger) : List Nat :=
  (l.allocations.toList.zipIdx 1).filterMap fun (a, n) => if a.live then some n else none

end Ledger

/-- What must not happen. It is recorded if it does, and the run goes on. -/
inductive Breach
  | freedBlock | strongUnderflow | weakUnderflow | expiredOwner | disposedTwice | freedWhileOwned
  | destroyedTwice | emptyRequest | unknownAllocation
  deriving DecidableEq, Repr

/-- The contents of the standing values. -/
structure Statics where
  int : Content := Static.int.content
  text : Content := Static.text.content
  list : Content := Static.list.content

namespace Statics

/-- A standing value as it is now. -/
def get (s : Statics) : Static → Content
  | .int => s.int
  | .text => s.text
  | .list => s.list

/-- A standing value is changed. -/
def set (s : Statics) (which : Static) (c : Content) : Statics :=
  match which with
  | .int => { s with int := c }
  | .text => { s with text := c }
  | .list => { s with list := c }

end Statics

/-- All that runs share. What is freed or gone stays under its number. -/
structure Heap where
  blocks : Array Block := #[]
  objects : Array Object := #[]
  global : Ledger := {}
  arena : Ledger := {}
  statics : Statics := {}
  metrics : Metrics := .zero
  /-- The next attempt at a block is this one; what is refused is counted too. -/
  nextId : Nat := 1
  log : Array Event := #[]
  breaches : List Breach := []

namespace Heap

/-- The heap of a run that begins. -/
def empty : Heap := {}

instance : Inhabited Heap := ⟨empty⟩

/-- An event is recorded. -/
def emit (e : Event) (h : Heap) : Heap := { h with log := h.log.push e }

/-- A breach is recorded. -/
def breach (b : Breach) (h : Heap) : Heap := { h with breaches := b :: h.breaches }

/-- The metrics change. -/
def measure (f : Metrics → Metrics) (h : Heap) : Heap := { h with metrics := f h.metrics }

/-- The books of the allocator. -/
def ledger (h : Heap) : Alloc → Ledger
  | .global => h.global
  | .arena => h.arena

/-- The books of an allocator change. -/
def updateLedger (a : Alloc) (f : Ledger → Ledger) (h : Heap) : Heap :=
  match a with
  | .global => { h with global := f h.global }
  | .arena => { h with arena := f h.arena }

/-- A block changes. -/
def updateBlock (b : BlockId) (f : Block → Block) (h : Heap) : Heap :=
  { h with blocks := h.blocks.modify b f }

/-- An object changes. -/
def updateObject (o : ObjectId) (f : Object → Object) (h : Heap) : Heap :=
  { h with objects := h.objects.modify o f }

/-! ## Reading and writing through places -/

/-- What is at an origin as a whole now, also when it is being destroyed. -/
def origin? (h : Heap) : Origin → Option Content
  | .object o => h.objects[o]?.map (·.content)
  | .static s => some (h.statics.get s)

/-- What is at a place now: that part of what is at its origin. -/
def read? (h : Heap) (p : Place) : Option Content := (h.origin? p.origin).bind (Content.at? p.path)

/-- What is at a place changes, and nothing else of what is at its origin. -/
def write (p : Place) (c : Content) (h : Heap) : Heap :=
  match p.origin with
  | .object o => h.updateObject o fun x => { x with content := Content.withAt p.path c x.content }
  | .static s => { h with statics := h.statics.set s (Content.withAt p.path c (h.statics.get s)) }

/-- The links of an object. -/
def linksOf (h : Heap) (o : ObjectId) : Table := (h.objects[o]?.map (·.links)).getD .empty

/-- The object gets other links. -/
def withLinks (o : ObjectId) (t : Table) (h : Heap) : Heap :=
  h.updateObject o fun x => { x with links := t }

end Heap

end Custody
