/-!
# Kinds of pointee

* `Kind`: the type a pointer is declared at. Eight kinds are *sized*; the others are reached
  through a wide pointer that also carries a length or the identity of the concrete type.
* `Kind.name`, `Kind.ofName?`: the written form, and its inverse.
-/

namespace Custody

/-- What a pointer points to: a concrete type, an unsized one, or a trait object. -/
inductive Kind
  | node | int | uint | byte | wide | string | square | unit
  | str | slice
  | any | anySend | anySync | shape | disp
  deriving DecidableEq, Repr, Inhabited

namespace Kind

/-- The word for a kind in programs and answers. -/
def name : Kind → String
  | node => "node"
  | int => "int"
  | uint => "uint"
  | byte => "byte"
  | wide => "wide"
  | string => "string"
  | square => "square"
  | unit => "unit"
  | str => "str"
  | slice => "slice"
  | any => "any"
  | anySend => "anysend"
  | anySync => "anysync"
  | shape => "shape"
  | disp => "disp"

/-- The kinds, each once. -/
def all : List Kind :=
  [node, int, uint, byte, wide, string, square, unit, str, slice, any, anySend, anySync, shape,
   disp]

/-- The kind of the name. -/
def ofName? (s : String) : Option Kind := all.find? (·.name == s)

/-- The size of a pointee of this kind is fixed by the kind alone. -/
def isSized : Kind → Bool
  | node | int | uint | byte | wide | string | square | unit => true
  | _ => false

theorem mem_all (k : Kind) : k ∈ all := by cases k <;> decide

theorem ofName?_name (k : Kind) : ofName? k.name = some k := by cases k <;> decide

end Kind

end Custody
