import Custody.Kind
import Custody.Layout
import Custody.Utf8

/-!
# Contents of objects

* `Content`: the value an object holds, of one of the ten concrete kinds. A pointer of a trait
  kind (`any`, `shape`, …) points to an object whose content is of a sized kind.
* `Content.layout`: the memory a content asks for; a `unit`, an empty `str` and an empty `slice`
  ask for none.
* `Content.area?`, `Content.label?`: what the content says of itself as a shape.
-/

namespace Custody

/-- A node: what is in it apart from its links and its destructor. -/
structure Node where
  id : Int64
  value : Int64
  name : Utf8
  items : List Int64
  deriving DecidableEq, Repr

/-- The pointees there are, sized and unsized. -/
inductive Content
  | node (n : Node)
  | int (n : Int64)
  | uint (n : UInt64)
  | byte (n : UInt8)
  | wide (lanes : Vector UInt64 5)
  | string (s : Utf8)
  | square (side : Int64)
  | unit
  | str (s : Utf8)
  | slice (items : List Int64)
  deriving DecidableEq, Repr

namespace Content

instance : Inhabited Content := ⟨unit⟩

/-- The kind of a pointee. -/
def kind : Content → Kind
  | node _ => .node
  | int _ => .int
  | uint _ => .uint
  | byte _ => .byte
  | wide _ => .wide
  | string _ => .string
  | square _ => .square
  | unit => .unit
  | str _ => .str
  | slice _ => .slice

/-- The layout of a pointee. The memory that a node or a string keeps apart does not count. -/
def layout : Content → Layout
  | node _ => ⟨80, 8⟩
  | int _ | uint _ | square _ => ⟨8, 8⟩
  | byte _ => ⟨1, 1⟩
  | wide _ => ⟨64, 32⟩
  | string _ => ⟨24, 8⟩
  | unit => ⟨0, 1⟩
  | str s => ⟨s.size, 1⟩
  | slice items => ⟨8 * items.length, 8⟩

/-- The lanes of a `wide` made from `n`. -/
def lanes (n : UInt64) : Vector UInt64 5 := #v[n, 1, 2, 3, 4]

/-- A node's area is its value; a square's is its side squared, in 64 bits. -/
def area? : Content → Option Int64
  | node n => some n.value
  | square side => some (side * side)
  | _ => none

/-- The label that a shape goes by. -/
def label? : Content → Option Utf8
  | node n => some n.name
  | square _ => some (.ofString "square")
  | _ => none

end Content

end Custody
