import Custody.Content

/-!
# Places

* `Field`: a part of a content, or another reading of the same memory.
* `Content.part?`, `Content.withPart`: reading a part, and putting another content in its place.
* `Place`: where a stored pointer leads: an object or a standing value, and a path of fields into
  it. Lengths of lists and texts never change while a place inside them is held, so a place that
  was in bounds when it was made stays in bounds.
-/

namespace Custody

/-- Objects are numbered as they are made. -/
abbrev ObjectId := Nat

/-- A step from a pointee to a part of it, or to what its first bytes are read as. -/
inductive Field
  | id | value | name | items | text | side
  | elem (i : Nat)
  | sub (i j : Nat)
  | label
  | lowByte | firstByte | asUint | asInt | asSquare
  deriving DecidableEq, Repr

namespace Content

/-- The part that a field leads to. -/
def part? : Field → Content → Option Content
  | .id, node n => some (int n.id)
  | .value, node n => some (int n.value)
  | .name, node n => some (string n.name)
  | .items, node n => some (slice n.items)
  | .text, string s => some (str s)
  | .side, square n => some (int n)
  | .elem i, slice xs => xs[i]?.map int
  | .elem i, wide lanes => lanes[i]?.map uint
  | .sub i j, slice xs =>
    if i ≤ j ∧ j ≤ xs.length then some (slice ((xs.drop i).take (j - i))) else none
  | .sub i j, str s =>
    if i ≤ j ∧ j ≤ s.size then some (str ⟨(s.bytes.drop i).take (j - i)⟩) else none
  | .label, square _ => some (str (.ofString "square"))
  | .lowByte, int n => some (byte n.toUInt64.toUInt8)
  | .firstByte, str s => s.bytes.head?.map byte
  | .asUint, int n => some (uint n.toUInt64)
  | .asInt, uint n => some (int n.toInt64)
  | .asSquare, int n => some (square n)
  | _, _ => none

/-- A part of another kind than the field's leaves the content as it is. -/
def withPart : Field → Content → Content → Content
  | .id, int v, node n => node { n with id := v }
  | .value, int v, node n => node { n with value := v }
  | .name, string v, node n => node { n with name := v }
  | .items, slice v, node n => node { n with items := v }
  | .text, str v, string _ => string v
  | .side, int v, square _ => square v
  | .elem i, int v, slice xs => slice (xs.set i v)
  | .elem i, uint v, wide lanes => wide (lanes.setIfInBounds i v)
  | .sub i j, slice v, slice xs => slice (xs.take i ++ v ++ xs.drop j)
  | .sub i j, str v, str s => str ⟨s.bytes.take i ++ v.bytes ++ s.bytes.drop j⟩
  | .lowByte, byte v, int n => int ((n.toUInt64 >>> 8 <<< 8) ||| v.toUInt64).toInt64
  | .firstByte, byte v, str s => str ⟨s.bytes.set 0 v⟩
  | .asUint, uint v, int _ => int v.toInt64
  | .asInt, int v, uint _ => uint v.toUInt64
  | .asSquare, square v, int _ => int v
  | _, _, c => c

/-- Follows a path of fields. -/
def at? : List Field → Content → Option Content
  | [], c => some c
  | f :: path, c => (c.part? f).bind (at? path)

/-- The pointee with `v` for the part that the path leads to. -/
def withAt : List Field → Content → Content → Content
  | [], v, _ => v
  | f :: path, v, c =>
    match c.part? f with
    | some p => withPart f (withAt path v p) c
    | none => c

end Content

/-- The standing values, one of each, that belong to no object. -/
inductive Static
  | int | text | list
  deriving DecidableEq, Repr

namespace Static

/-- The kind of a standing value. -/
def kind : Static → Kind
  | int => .int
  | text => .str
  | list => .slice

/-- What a standing value is in the beginning. -/
def content : Static → Content
  | int => .int 100
  | text => .str (.ofString "static")
  | list => .slice [1, 2, 3]

/-- The standing value of a kind, for the kinds that have one. -/
def ofKind? : Kind → Option Static
  | .int => some int
  | .str => some text
  | .slice => some list
  | _ => none

end Static

/-- What a place is in. -/
inductive Origin
  | object (o : ObjectId)
  | static (s : Static)
  deriving DecidableEq, Repr

/-- A part of an object or of a standing value, which a pointer may lead to. -/
structure Place where
  origin : Origin
  path : List Field
  deriving DecidableEq, Repr

namespace Place

/-- The place of a whole object. -/
def whole (o : ObjectId) : Place := ⟨.object o, []⟩

/-- The place of a whole standing value. -/
def static (s : Static) : Place := ⟨.static s, []⟩

/-- The place of a part of what is at `p`. -/
def into (p : Place) (path : List Field) : Place := { p with path := p.path ++ path }

/-- The object that is at `p` as a whole. -/
def object? : Place → Option ObjectId
  | ⟨.object o, []⟩ => some o
  | _ => none

end Place

end Custody
