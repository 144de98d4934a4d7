import Custody.Machine.Basic

/-!
# What a machine shows

* `Heap.show?`: a value as it is read through a pointer.
* `Machine.listing`: the slots of the root table.
* `keyed`: pointers as keys of an ordered and of an unordered collection.
-/

namespace Custody

namespace Content

/-- What is shown of a pointee under its own kind. Of links the names are shown. -/
def shown (links : List String) : Content → Shown
  | node n => .node n links
  | int n | square n => .number n.toInt
  | uint n => .number n.toNat
  | byte n => .number n.toNat
  | wide lanes => .numbers (lanes.toList.map fun n => n.toNat)
  | string s | str s => .text s.toString
  | unit => .text "unit"
  | slice items => .numbers (items.map Int64.toInt)

/-- What is shown of a pointee under a kind: of trait objects what their traits tell. -/
def shownAs (kind : Kind) (links : List String) (c : Content) : Shown :=
  match kind with
  | .any | .anySend | .anySync => .concrete c.kind (c.shown links)
  | .shape => .shape (c.label?.getD .empty).toString ((c.area?.map Int64.toInt).getD 0)
  | .disp => .text ((c.display? .plain).getD "")
  | _ => c.shown links

end Content

/-- What is shown at a view now. -/
def Heap.show? (h : Heap) (kind : Kind) (view : Option Place) : Option Shown := do
  let p ← view
  let c ← h.read? p
  let links := match p.object? with
    | some o => (h.linksOf o).names
    | none => []
  return c.shownAs kind links

/-- What a listing says of a slot. -/
def Slot.entry (h : Heap) : Slot → Entry
  | .strong p => .strong p.kind (p.use h) (p.observers h) (h.show? p.kind p.view)
  | .weak w => .weak w.kind (w.use h) (w.observers h)
  | .unique u => .unique u.kind u.alloc (h.show? u.kind u.view)
  | .raw r => .raw r.kind r.alloc

/-- What is under each name of the root table. -/
def Machine.listing (m : Machine) : Reply :=
  .listing (m.env.root.entries.map fun (name, x) => (name, x.entry m.heap))

/-! ## Addresses as keys -/

/-- The address that a pointer is ordered by. Only strong pointers have a stored address. -/
def Slot.key? (h : Heap) : OrderBy → Slot → Option Address
  | .address, .strong p => some (p.address h)
  | .owner, .strong p => some (h.ownerAddress p.block)
  | .owner, .weak w => some (h.ownerAddress w.block)
  | _, _ => none

/-- Keys are of one type if they are both strong or both weak, and of one kind. -/
def Slot.sameType : Slot → Slot → Bool
  | .strong p, .strong q => p.kind == q.kind
  | .weak p, .weak q => p.kind == q.kind
  | _, _ => false

/-- Each address once, with the last index it was inserted under. -/
def lastIndices (keys : List (Address × Nat)) : List (Address × Nat) :=
  keys.foldl (fun seen (a, i) =>
    if seen.any (·.1 == a) then seen.map fun (b, j) => if b == a then (b, i) else (b, j)
    else seen ++ [(a, i)]) []

/-- A set of addresses: how many there are, in which order, and which of them the probe is. -/
def keyed (addresses : List Address) (probe : Option Address) : Reply :=
  let entries := lastIndices addresses.zipIdx
  let ordered := entries.all fun (a, _) => entries.all fun (b, _) => (a.compare? b).isSome
  let sorted := entries.mergeSort fun (a, _) (b, _) => a.compare? b != some .gt
  .keyed entries.length (if ordered then some (sorted.map (·.2)) else none)
    (probe.bind fun a => entries.lookup a)

end Custody
