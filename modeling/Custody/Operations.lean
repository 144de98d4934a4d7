import Custody.Address
import Custody.Heap.Counters

/-!
# Operations on pointers

What strong, weak and unique pointers do, as functions on the heap. An operation that gives up a
pointer hands it back as *surplus*: dropping it may run a destructor, which may do anything, so
that is left to whoever runs the operation.

* `Strong.clone`, `Strong.aliasing`, `Strong.assign`, `Strong.getMut?`, `Strong.counts`.
* `Strong.downgrade`, `Weak.lock?`, `Weak.clone`, `Weak.assign`, `Weak.counts`.
* `Unique.construct`, `Unique.promote`, `Unique.release`, `Strong.construct`, `Strong.adopt`.
-/

namespace Custody

namespace Strong

/-- The strong pointers on the block; none where there is no block. -/
def use (h : Heap) (p : Strong) : Nat := (p.block.map h.strongCount).getD 0

/-- The weak counter as it stands, with the implicit reference. -/
def rawWeak (h : Heap) (p : Strong) : Nat := (p.block.map h.weakCount).getD 0

/-- The weak pointers on the block. -/
def observers (h : Heap) (p : Strong) : Nat := (p.block.map h.observerCount).getD 0

/-- Where the pointer leads. What it owns may be elsewhere. -/
def address (h : Heap) (p : Strong) : Address := h.addressOf p.view

/-- What is said of a strong pointer. -/
def counts (h : Heap) (p : Strong) : Counts :=
  .strong (p.use h) (p.observers h) (p.rawWeak h) p.view.isNone p.block.isSome

/-- One strong owner more on the block that is held, if one is. -/
def acquire (block : Option BlockId) (h : Heap) : Heap :=
  match block with
  | some b => h.addStrong b
  | none => h

/-- Another strong pointer with the same view. -/
def clone (p : Strong) (h : Heap) : Heap × Strong := (acquire p.block h, p)

/-- Shares `owner`'s block under another view. -/
def aliasing (owner : Strong) (kind : Kind) (view : Option Place) (h : Heap) : Heap × Strong :=
  (acquire owner.block h, ⟨kind, owner.block, view⟩)

/-- `p` becomes a copy of `source`. On the same block only the view changes; otherwise the new
owner is acquired before the old one is surplus. -/
def assign (p source : Strong) (h : Heap) : Heap × Strong × List Strong :=
  if p.block = source.block then (h, { p with view := source.view }, [])
  else (acquire source.block h, { p with block := source.block, view := source.view }, [p])

/-- Where the pointee may be written: only if no other pointer of any kind is on the block. -/
def getMut? (h : Heap) (p : Strong) : Option Place :=
  if p.use h = 1 ∧ p.rawWeak h = 1 then p.view else none

/-- What the pointer leads to now. -/
def get? (h : Heap) (p : Strong) : Option Content := p.view.bind h.read?

end Strong

namespace Weak

/-- The strong pointers on the block; none where there is no block. -/
def use (h : Heap) (w : Weak) : Nat := (w.block.map h.strongCount).getD 0

/-- The weak counter as it stands, with the implicit reference. -/
def rawWeak (h : Heap) (w : Weak) : Nat := (w.block.map h.weakCount).getD 0

/-- The weak pointers on the block. -/
def observers (h : Heap) (w : Weak) : Nat := (w.block.map h.observerCount).getD 0

/-- There is no strong pointer to be had. -/
def expired (h : Heap) (w : Weak) : Bool := w.use h == 0

/-- What is said of a weak pointer. -/
def counts (h : Heap) (w : Weak) : Counts :=
  .weak (w.use h) (w.observers h) (w.rawWeak h) w.block.isSome

/-- A weak reference on the block, if there is one. -/
def acquire (block : Option BlockId) (h : Heap) : Heap :=
  match block with
  | some b => h.addWeak b
  | none => h

/-- Another weak pointer with the same view. -/
def clone (w : Weak) (h : Heap) : Heap × Weak := (acquire w.block h, w)

/-- The pointer becomes a copy of `source`. On another block the old one is left to be dropped. -/
def assign (w source : Weak) (h : Heap) : Heap × Weak × List Weak :=
  if w.block = source.block then (h, { w with view := source.view }, [])
  else (acquire source.block h, { w with block := source.block, view := source.view }, [w])

/-- A strong pointer with the weak pointer's view, unless the pointee is gone. A refused attempt
is recorded on the block, if there is one. -/
def lock? (w : Weak) (h : Heap) : Heap × Option Strong :=
  match w.block with
  | none => (h, none)
  | some b =>
    if h.strongCount b = 0 then (h.recordExpiredLock b, none)
    else (h.addStrongIfAlive b, some ⟨w.kind, w.block, w.view⟩)

/-- Both are on one block, or both on none. -/
def ptrEq (w v : Weak) : Bool := w.block == v.block

end Weak

/-- A weak pointer with the owner and the view of the strong one. -/
def Strong.downgrade (p : Strong) (h : Heap) : Heap × Weak :=
  (Weak.acquire p.block h, ⟨p.kind, p.block, p.view⟩)

namespace Unique

/-- What is said of a unique pointer. -/
def counts (u : Unique) : Counts := .unique u.object.isNone

/-- Owns the constructed object even where its memory was refused: the caller then drops it. -/
def construct (kind : Kind) (p : Pointee) (a : Alloc) (h : Heap) :
    Heap × Unique × Option Layout :=
  let (h, o, refused) := h.construct p a
  (if refused.isSome then h.measure .recordAllocFailure else h, ⟨kind, a, some o⟩, refused)

/-- Gives up the object without destroying it. -/
def release (u : Unique) : Unique × Option Raw :=
  (.null u.kind u.alloc, u.object.map fun o => ⟨u.kind, u.alloc, o⟩)

/-- Ownership moves to a new block; if the block is refused, it stays where it is. -/
def promote (u : Unique) (h : Heap) : Heap × Unique × Except Layout Strong :=
  match u.object with
  | none => (h, u, .ok (.null u.kind))
  | some o =>
    match h.createBlock u.kind u.alloc o with
    | (h, .ok b) => (h, .null u.kind u.alloc, .ok ⟨u.kind, some b, some (.whole o)⟩)
    | (h, .error l) => (h, u, .error l)

end Unique

namespace Slot

/-- What is said of a slot. -/
def counts (h : Heap) : Slot → Counts
  | strong p => p.counts h
  | weak w => w.counts h
  | unique u => u.counts
  | raw _ => .raw

end Slot

/-! ## Construction -/

/-- A new object under a new block. A refusal leaves a unique pointer to the object as surplus. -/
def Strong.construct (kind : Kind) (p : Pointee) (a : Alloc) (h : Heap) :
    Heap × Except Layout Strong × List Unique :=
  match Unique.construct kind p a h with
  | (h, u, some l) => (h, .error l, [u])
  | (h, u, none) =>
    match u.promote h with
    | (h, _, .ok s) => (h, .ok s, [])
    | (h, u, .error l) => (h, .error l, [u])

/-- A raw pointee under a new block; a refusal leaves it as surplus, to be destroyed. -/
def Strong.adopt (r : Raw) (h : Heap) : Heap × Except Layout Strong × List Unique :=
  match Unique.promote ⟨r.kind, r.alloc, some r.object⟩ h with
  | (h, _, .ok s) => (h, .ok s, [])
  | (h, u, .error l) => (h, .error l, [u])

end Custody
