import Custody.Pointer

/-!
# Selectors and casts

A projection from a pointee to a part of it, and the casts between kinds, as typings and paths.

* `Selector.target?`, `Selector.tryTarget?`: the kind a selector leads to, for a projection that
  always yields a part and for one that may yield none. `none` where it is not defined.
* `Selector.path?`: the path it takes in a given content, if the content has such a part.
* `staticPath?`, `reinterpretPath?`, `isDowncastSource`, `isDowncastTarget`: what the casts are
  defined on.
-/

namespace Custody

/-- What a projection selects. -/
inductive Selector
  | id | value | name | text | items | side
  | elem (i : Nat)
  | sub (i j : Nat)
  | self | any | anySend | anySync | shape | disp
  | positive | nothing | last
  deriving DecidableEq, Repr

namespace Selector

/-- The kind that a projection leads to which must yield a part. Others are not there. -/
def target? : Kind → Selector → Option Kind
  | .node, .id | .node, .value | .node, .elem _ | .slice, .elem _ | .square, .side => some .int
  | .wide, .elem _ => some .uint
  | .node, .name => some .string
  | .node, .text | .string, .text | .str, .sub _ _ | .shape, .name => some .str
  | .node, .items | .slice, .sub _ _ => some .slice
  | .square, .self | .wide, .self | .anySend, .self | .anySync, .self => none
  | k, .self => some k
  | .node, .any | .string, .any | .int, .any | .square, .any | .unit, .any => some .any
  | .string, .anySend | .int, .anySend => some .anySend
  | .string, .anySync | .int, .anySync => some .anySync
  | .node, .shape | .square, .shape => some .shape
  | .string, .disp | .int, .disp | .byte, .disp => some .disp
  | _, _ => none

/-- The kind that a projection leads to which may yield none. Others are not there. -/
def tryTarget? : Kind → Selector → Option Kind
  | .node, .elem _ | .slice, .elem _ | .slice, .last => some .int
  | .node, .positive | .int, .positive | .node, .nothing | .unit, .nothing => some .int
  | .node, .self => some .node
  | .str, .sub _ _ | .string, .sub _ _ => some .str
  | .slice, .sub _ _ => some .slice
  | _, _ => none

/-- The path to the part, whether or not the content has one there. -/
def route : Kind → Selector → Content → List Field
  | _, .id, _ => [.id]
  | .node, .value, _ | .node, .positive, _ => [.value]
  | .shape, .name, .node _ => [.name, .text]
  | .shape, .name, _ => [.label]
  | _, .name, _ => [.name]
  | .node, .text, _ => [.name, .text]
  | _, .text, _ => [.text]
  | _, .items, _ => [.items]
  | _, .side, _ => [.side]
  | .node, .elem i, _ => [.items, .elem i]
  | .wide, .elem i, _ => [.elem (if i < 5 then i else 0)]
  | _, .elem i, _ => [.elem i]
  | .string, .sub i j, _ => [.text, .sub i j]
  | _, .sub i j, _ => [.sub i j]
  | _, .last, .slice xs => [.elem (xs.length - 1)]
  | _, _, _ => []

/-- A positive number. -/
def isPositive : Content → Bool
  | .int n => 0 < n
  | _ => false

/-- A part of a text begins and ends between characters. -/
def isCut (i j : Nat) : Content → Bool
  | .string s | .str s => s.isBoundary i && s.isBoundary j
  | _ => true

/-- The path to the part that is selected, if there is such a part. -/
def path? (k : Kind) (s : Selector) (c : Content) : Option (List Field) := do
  let path := s.route k c
  let part ← c.at? path
  match s with
  | .nothing => none
  | .positive => if isPositive part then some path else none
  | .sub i j => if isCut i j c then some path else none
  | _ => some path

end Selector

/-! ## Casts -/

/-- The casts there are. A target without a kind is one of an unknown name. -/
inductive Cast
  | const
  | static (target : Option Kind)
  | dynamic (target : Kind)
  | reinterpret (target : Option Kind)
  deriving DecidableEq, Repr

/-- The part that a kind exposes as another kind. -/
def staticPath? : Kind → Kind → Option (List Field)
  | .node, .str => some [.name, .text]
  | .node, .slice => some [.items]
  | .string, .str => some [.text]
  | .str, .str | .slice, .slice => some []
  | .square, .int => some [.side]
  | _, _ => none

/-- The first bytes of a pointee, read as another kind. -/
def reinterpretPath? : Kind → Kind → Option (List Field)
  | .int, .uint => some [.asUint]
  | .uint, .int => some [.asInt]
  | .int, .byte => some [.lowByte]
  | .int, .square => some [.asSquare]
  | .square, .int => some [.side]
  | .node, .int => some [.id]
  | .wide, .uint | .slice, .int => some [.elem 0]
  | .str, .byte => some [.firstByte]
  | _, _ => none

/-- Pointees of these kinds know their concrete kind. -/
def isDowncastSource : Kind → Bool
  | .node | .int | .uint | .byte | .string | .unit | .square
  | .any | .anySend | .anySync | .shape => true
  | _ => false

/-- Kinds that can be asked for by a downcast. -/
def isDowncastTarget : Kind → Bool
  | .node | .int | .uint | .byte | .string | .square | .unit => true
  | _ => false

end Custody
