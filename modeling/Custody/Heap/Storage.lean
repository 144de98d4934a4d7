import Custody.Heap.Basic

/-!
# Storage

Requests to the two allocators, and the objects that live in what they grant.

* `Heap.request`, `Heap.giveBack`: an allocation and its return.
* `Heap.construct`: a new object. If its memory is refused the object exists all the same, in no
  memory, for the caller to destroy.
* `Heap.beginDestruction`, `Heap.endDestruction`: the two ends of a destructor. Between them the
  object is dying; after it the object is gone and its memory returned.
-/

namespace Custody.Heap

/-- The serial of the allocation, or `none` if the budget is used up. -/
def request (a : Alloc) (l : Layout) (h : Heap) : Heap × Option Nat :=
  let h := if l.size = 0 then h.breach .emptyRequest else h
  if (h.ledger a).isExhausted then (h.emit (.refuse a l), none)
  else
    let serial := (h.ledger a).allocations.size + 1
    ((h.updateLedger a (·.grant l)).emit (.alloc a serial l), some serial)

/-- An allocation is returned, which must be out, and of this layout. -/
def giveBack (a : Alloc) (serial : Nat) (l : Layout) (h : Heap) : Heap :=
  let h := if (h.ledger a).holds serial l then h else h.breach .unknownAllocation
  (h.updateLedger a (·.giveBack serial)).emit (.dealloc a serial l)

/-- An object more, and its number. -/
def addObject (x : Object) (h : Heap) : Heap × ObjectId :=
  let o := h.objects.size
  ({ h with objects := h.objects.push x }, o)

/-- The layout that was refused, if one was. An empty content is in no memory and asks for none. -/
def construct (p : Pointee) (a : Alloc) (h : Heap) : Heap × ObjectId × Option Layout :=
  let l := p.content.layout
  if l.size = 0 then
    let (h, o) :=
      h.addObject { content := p.content, onDrop := p.onDrop, alloc := a, serial := none }
    (h, o, none)
  else
    let (h, serial) := h.request a l
    let (h, o) := h.addObject { content := p.content, onDrop := p.onDrop, alloc := a, serial }
    (h, o, if serial.isSome then none else some l)

/-- The pointee is handed out for its destructor. The steps leave the object: they run once. -/
def beginDestruction (o : ObjectId) (h : Heap) : Heap × Pointee :=
  match h.objects[o]? with
  | some x =>
    let p : Pointee := ⟨x.content, x.onDrop⟩
    let h := if x.phase = .alive then h else h.breach .destroyedTwice
    (h.updateObject o fun x => { x with phase := .dying, onDrop := [] }, p)
  | none => (h.breach .destroyedTwice, ⟨.unit, []⟩)

/-- An object is gone, and its memory is returned. -/
def endDestruction (o : ObjectId) (h : Heap) : Heap :=
  match h.objects[o]? with
  | some x =>
    let h := h.updateObject o fun x => { x with phase := .gone }
    match x.serial with
    | some serial => h.giveBack x.alloc serial x.content.layout
    | none => h
  | none => h

end Custody.Heap
