import Custody.Text.Quoted

/-!
# Format specifications

* `Spec`: fill, alignment, sign, width and precision of a written value.
* `Spec.pad`, `Spec.padNumber`: a text and a number under a specification.
* `Spec.tuple`, `Spec.list`: the two compound forms, on one line or, in the alternate form, one
  part a line.
-/

namespace Custody.Text

/-- Which side a text is set to. -/
inductive Align
  | left | center | right
  deriving DecidableEq, Repr

/-- A form that is asked for. -/
structure Spec where
  fill : Char := ' '
  align : Option Align := none
  plus : Bool := false
  alternate : Bool := false
  zero : Bool := false
  width : Nat := 0
  precision : Option Nat := none
  deriving DecidableEq, Repr

namespace Spec

/-- The form without anything asked for. -/
def plain : Spec := {}

/-- Fills `s` up to the width; of an odd gap around a centred text the larger part follows. -/
def fillUp (spec : Spec) (otherwise : Align) (s : String) : String :=
  let gap := spec.width - s.length
  let before :=
    match spec.align.getD otherwise with
    | .left => 0
    | .center => gap / 2
    | .right => gap
  "".pushn spec.fill before ++ s ++ "".pushn spec.fill (gap - before)

/-- The precision is the most characters that are written. -/
def pad (spec : Spec) (s : String) : String :=
  spec.fillUp .left <|
    match spec.precision with
    | some n => String.ofList (s.toList.take n)
    | none => s

/-- Zeros go between the sign and the digits and leave no room for a fill. -/
def padNumber (spec : Spec) (n : Int) : String :=
  let sign := if n < 0 then "-" else if spec.plus then "+" else ""
  let digits := toString n.natAbs
  if spec.zero then sign ++ "".pushn '0' (spec.width - sign.length - digits.length) ++ digits
  else spec.fillUp .right (sign ++ digits)

/-- Every line moved to the right. -/
def indent (s : String) : String :=
  "\n".intercalate ((s.splitOn "\n").map fun line => "    " ++ line)

/-- A field in the name of its wrapper. -/
def tuple (spec : Spec) (name field : String) : String :=
  if spec.alternate then name ++ "(\n" ++ indent field ++ ",\n)" else name ++ "(" ++ field ++ ")"

/-- Items in brackets. -/
def list (spec : Spec) (items : List String) : String :=
  if spec.alternate && !items.isEmpty then
    "[\n" ++ String.join (items.map fun i => indent i ++ ",\n") ++ "]"
  else "[" ++ ", ".intercalate items ++ "]"

/-- A low address in base 16. The alternate form has all sixteen digits. -/
def address (spec : Spec) (n : Nat) : String :=
  let digits := String.ofList (Nat.toDigits 16 n)
  if spec.alternate then "0x" ++ "".pushn '0' (16 - digits.length) ++ digits
  else spec.fillUp .right ("0x" ++ digits)

end Spec

end Custody.Text
