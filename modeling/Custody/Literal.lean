import Custody.Program

/-!
# What literals make

* `Literal.pointee?`: the pointee of a kind that a literal makes, if it fits the kind.
* `Content.overwrite?`: the content after a literal has been written over it in place.
-/

namespace Custody

/-- The signed word of the number, if it is in range. -/
def int64? (n : Int) : Option Int64 :=
  if Int64.minValue.toInt ≤ n ∧ n ≤ Int64.maxValue.toInt then some (Int64.ofInt n) else none

/-- The unsigned word of the number, if it is in range. -/
def uint64? (n : Int) : Option UInt64 :=
  if 0 ≤ n ∧ n < UInt64.size then some (UInt64.ofNat n.toNat) else none

/-- The byte of the number, if it is in range. -/
def byte? (n : Int) : Option UInt8 :=
  if 0 ≤ n ∧ n < UInt8.size then some (UInt8.ofNat n.toNat) else none

/-- The concrete kinds that a pointer of a trait kind can be made from. -/
def Kind.admits : Kind → Kind → Bool
  | .any, k => k.isSized
  | .anySend, .int | .anySend, .string | .anySend, .square => true
  | .anySync, .int | .anySync, .string | .anySync, .square => true
  | .shape, .node | .shape, .square => true
  | .disp, .int | .disp, .string => true
  | _, _ => false

namespace Literal

/-- The number, if it is one. -/
def int? : Literal → Option Int
  | int n => some n
  | _ => none

/-- The text, if it is one. -/
def text? : Literal → Option String
  | text s => some s
  | _ => none

/-- A literal for a concrete kind. -/
def concrete? : Kind → Literal → Option Pointee
  | .node, node n onDrop => some ⟨.node n, onDrop⟩
  | .int, int n => (int64? n).map fun v => ⟨.int v, []⟩
  | .uint, int n => (uint64? n).map fun v => ⟨.uint v, []⟩
  | .byte, int n => (byte? n).map fun v => ⟨.byte v, []⟩
  | .wide, int n => (uint64? n).map fun v => ⟨.wide (Content.lanes v), []⟩
  | .string, text s => some ⟨.string (.ofString s), []⟩
  | .square, int n => (int64? n).map fun v => ⟨.square v, []⟩
  | .unit, _ => some ⟨.unit, []⟩
  | .str, text s => some ⟨.str (.ofString s), []⟩
  | .slice, list items =>
    (items.mapM fun (l : Literal) => l.int?.bind int64?).map fun vs => ⟨.slice vs, []⟩
  | _, _ => none

/-- For a trait kind the literal names the concrete kind first. -/
def pointee? (k : Kind) (l : Literal) : Option Pointee :=
  match concrete? k l, l with
  | some p, _ => some p
  | none, list [text name, value] => do
    let inner ← Kind.ofName? name
    if k.admits inner then concrete? inner value else none
  | none, _ => none

end Literal

/-- Writing over a `str` turns its ASCII letters to upper case, whatever the literal; of a node
the value is written, of a `wide` or `slice` the first element. -/
def Content.overwrite? : Content → Literal → Option Content
  | .int _, l => (l.int?.bind int64?).map .int
  | .uint _, l => (l.int?.bind uint64?).map .uint
  | .byte _, l => (l.int?.bind byte?).map .byte
  | .square _, l => (l.int?.bind int64?).map .square
  | .string _, l => l.text?.map fun s => .string (.ofString s)
  | .node n, l => (l.int?.bind int64?).map fun v => .node { n with value := v }
  | .wide lanes, l => (l.int?.bind uint64?).map fun v => .wide (lanes.set 0 v)
  | .slice (_ :: rest), l => (l.int?.bind int64?).map fun v => .slice (v :: rest)
  | .slice [], _ => none
  | .str s, _ => some (.str s.toUpperAscii)
  | .unit, _ => some .unit

end Custody
