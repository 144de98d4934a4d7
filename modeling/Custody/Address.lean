import Custody.Heap.Basic

/-!
# Addresses

An address is known only as far as it can be told apart: a low number (null, or the address of
something that takes no memory, which is its alignment), or an offset into a region.

* `Address.compare?`: the order of two addresses, where it is determined: low numbers come before
  all regions, and the arena's regions follow each other as they were allocated.
* `Heap.addressOf`: the address of a place.
* `Heap.ownerAddress`: the address of a control block.
-/

namespace Custody

/-- What addresses are counted in. -/
inductive Region
  | memory (a : Alloc) (serial : Nat)
  /-- Memory of its own, in which an object keeps a part. -/
  | buffer (origin : Origin) (path : List Field)
  | static (s : Static)
  | label
  deriving DecidableEq, Repr

/-- An address: a small number that nothing is at, or an offset in a region. -/
inductive Address
  | low (n : Nat)
  | inside (r : Region) (offset : Nat)
  deriving DecidableEq, Repr

namespace Address

/-- The address of what is nowhere. -/
def null : Address := low 0

/-- So many bytes further. -/
def add : Address → Nat → Address
  | low n, k => low (n + k)
  | inside r n, k => inside r (n + k)

/-- Where an address stands to another. Only allocations of the arena have a known order. -/
def compare? : Address → Address → Option Ordering
  | low m, low n => some (compare m n)
  | low _, inside _ _ => some .lt
  | inside _ _, low _ => some .gt
  | inside (.memory .arena s) m, inside (.memory .arena t) n =>
    some ((compare s t).then (compare m n))
  | inside r m, inside s n => if r = s ∧ m = n then some .eq else none

/-- Where the field of a content at `a` begins. -/
def field (origin : Origin) (path : List Field) (a : Address) (c : Content) : Field → Address
  | .value => a.add 8
  | .name => inside (.buffer origin (path ++ [.name])) 0
  | .items =>
    match c with
    | .node ⟨_, _, _, []⟩ => low 8
    | _ => inside (.buffer origin (path ++ [.items])) 0
  | .text => if c = .string .empty then low 1 else inside (.buffer origin (path ++ [.text])) 0
  | .elem i => a.add (8 * i)
  | .sub i _ => a.add (match c with | .slice _ => 8 * i | _ => i)
  | .label => inside .label 0
  | .id | .side | .lowByte | .firstByte | .asUint | .asInt | .asSquare => a

/-- Follows `rest` from the content at `a`, which `path` has led to. -/
def follow (origin : Origin) (path : List Field) (a : Address) (c : Content) :
    List Field → Address
  | [] => a
  | f :: rest =>
    let a := field origin path a c f
    match c.part? f with
    | some p => follow origin (path ++ [f]) a p rest
    | none => a

end Address

namespace Heap

/-- Where an object or a standing value is. What has no size is at its alignment. -/
def originAddress (h : Heap) : Origin → Address
  | .static s => .inside (.static s) 0
  | .object o =>
    match h.objects[o]? with
    | some x =>
      match x.serial with
      | some n => .inside (.memory x.alloc n) 0
      | none => .low x.content.layout.align
    | none => .null

/-- A place that leads nowhere has the null address. -/
def addressOf (h : Heap) : Option Place → Address
  | none => .null
  | some p =>
    match h.origin? p.origin with
    | some c => Address.follow p.origin [] (h.originAddress p.origin) c p.path
    | none => .null

/-- Where a block is. -/
def ownerAddress (h : Heap) : Option BlockId → Address
  | none => .null
  | some b =>
    match h.blocks[b]? with
    | some x => .inside (.memory x.alloc x.serial) 0
    | none => .null

end Heap

end Custody
