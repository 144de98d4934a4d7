import Custody.Place

/-!
# Pointers

* `Strong`: shares in the ownership of a block's pointee. Owner and view are independent: the
  view may be null while a block is held, or lead elsewhere than to the block's pointee.
* `Weak`: keeps the block, never the pointee; its view may be followed only through a lock.
* `Unique`: owns at most one object.
* `Raw`: the address of an object that nothing owns.
* `Slot`: any of the four, as it is stored under a name.
-/

namespace Custody

/-- Blocks are numbered as they are made. -/
abbrev BlockId := Nat

/-- Where memory comes from: the process, or an arena that can refuse. -/
inductive Alloc
  | global | arena
  deriving DecidableEq, Repr, Inhabited

namespace Alloc

/-- The word for an allocator in programs and answers. -/
def name : Alloc → String
  | global => "global"
  | arena => "arena"

end Alloc

/-- A strong pointer: the block that it owns through, and where it leads. -/
structure Strong where
  kind : Kind
  block : Option BlockId
  view : Option Place
  deriving DecidableEq, Repr

/-- A weak pointer: the block that it observes, and where a lock would lead. -/
structure Weak where
  kind : Kind
  block : Option BlockId
  view : Option Place
  deriving DecidableEq, Repr

/-- The only owner of an object. -/
structure Unique where
  kind : Kind
  alloc : Alloc
  object : Option ObjectId
  deriving DecidableEq, Repr

/-- An object that has been given out. Nothing owns it. -/
structure Raw where
  kind : Kind
  alloc : Alloc
  object : ObjectId
  deriving DecidableEq, Repr

/-- The strong pointer without a block and without a view. -/
def Strong.null (kind : Kind) : Strong := ⟨kind, none, none⟩

/-- The weak pointer without a block and without a view. -/
def Weak.null (kind : Kind) : Weak := ⟨kind, none, none⟩

/-- The unique pointer without an object. -/
def Unique.null (kind : Kind) (alloc : Alloc) : Unique := ⟨kind, alloc, none⟩

/-- A unique pointer leads to the whole of its object. -/
def Unique.view (u : Unique) : Option Place := u.object.map Place.whole

/-- What a program keeps under a name. -/
inductive Slot
  | strong (p : Strong)
  | weak (p : Weak)
  | unique (p : Unique)
  | raw (p : Raw)
  deriving DecidableEq, Repr

namespace Slot

/-- The kind that a slot points to. -/
def kind : Slot → Kind
  | strong p => p.kind
  | weak p => p.kind
  | unique p => p.kind
  | raw p => p.kind

/-- The block that the slot holds a strong reference to. -/
def strongOn? : Slot → Option BlockId
  | strong p => p.block
  | _ => none

/-- The block that the slot holds a weak reference to. -/
def weakOn? : Slot → Option BlockId
  | weak p => p.block
  | _ => none

/-- The object that the slot alone owns. -/
def owns? : Slot → Option ObjectId
  | unique p => p.object
  | _ => none

/-- The node that a path of names goes on through: what a pointer of kind `node` points to. -/
def node? : Slot → Option ObjectId
  | strong ⟨.node, _, some p⟩ => p.object?
  | unique ⟨.node, _, o⟩ => o
  | _ => none

end Slot

end Custody
