import Custody.Operations
import Custody.Text.Spec

/-!
# Written forms of pointees and pointers

* `Content.display?`: a number or a text under a format specification.
* `Content.debug`: the form for inspection.
* `Slot.format?`: a pointer under a named specification. A null pointer has no pointee to pass the
  specification on to, and ignores it.
-/

namespace Custody

open Text (Spec)

namespace Content

/-- The text that a pointee is displayed as, if it can be. -/
def display? (spec : Spec) : Content → Option String
  | int n => some (spec.padNumber n.toInt)
  | uint n => some (spec.padNumber n.toNat)
  | byte n => some (spec.padNumber n.toNat)
  | string s | str s => some (spec.pad s.toString)
  | _ => none

/-- A node shows its id alone. -/
def debug (spec : Spec) : Content → String
  | node n => s!"Node({n.id.toInt})"
  | int n => spec.padNumber n.toInt
  | uint n => spec.padNumber n.toNat
  | byte n => spec.padNumber n.toNat
  | wide lanes => spec.tuple "Wide" (spec.list (lanes.toList.map fun n => spec.padNumber n.toNat))
  | string s | str s => Text.quoted s.toString
  | square side => spec.tuple "Square" (spec.padNumber side.toInt)
  | unit => spec.pad "()"
  | slice items => spec.list (items.map fun n => spec.padNumber n.toInt)

end Content

/-! ## Specifications by name -/

/-- How a pointer is to be written. -/
inductive Format
  | display (spec : Spec)
  | debug (spec : Spec)
  | ownerKey (spec : Spec)
  | pointer (spec : Spec)
  deriving DecidableEq, Repr

namespace Format

/-- The forms that things are inspected in, by name. -/
def inspections : List (String × Spec) :=
  [("?", {}), ("#?", { alternate := true }), ("6?", { width := 6 }),
   ("06?", { zero := true, width := 6 }), ("+?", { plus := true })]

/-- All forms that can be asked for, by name. -/
def named : List (String × Format) :=
  [("", .display {}),
   ("#", .display { alternate := true }),
   (">8", .display { align := some .right, width := 8 }),
   ("<8", .display { align := some .left, width := 8 }),
   ("^8", .display { align := some .center, width := 8 }),
   ("*^9", .display { fill := '*', align := some .center, width := 9 }),
   ("08", .display { zero := true, width := 8 }),
   ("+", .display { plus := true }),
   (".2", .display { precision := some 2 }),
   ("-<6.3", .display { fill := '-', align := some .left, width := 6, precision := some 3 }),
   ("p", .pointer {}),
   ("#p", .pointer { alternate := true }),
   ("20p", .pointer { width := 20 })]
  ++ inspections.map (fun (name, spec) => (name, .debug spec))
  ++ inspections.map (fun (name, spec) => ("key" ++ name, .ownerKey spec))

/-- The form of the name. -/
def ofName? (s : String) : Option Format := named.lookup s

end Format

/-! ## Pointers -/

/-- Kinds that are written as themselves. -/
def Kind.isDisplayed : Kind → Bool
  | .int | .uint | .byte | .string | .str | .disp => true
  | _ => false

/-- A content seen through a pointer of kind `kind`: only a `shape` lets its concrete form show. -/
def debugAs (kind : Kind) (spec : Spec) (c : Content) : String :=
  match kind with
  | .any | .anySend | .anySync => "Any \x7b .. \x7d"
  | _ => c.debug spec

/-- A pointer is inspected as what it points to in the pointer's name. -/
def pointerDebug (name : String) (kind : Kind) (spec : Spec) : Option Content → String
  | some c => spec.tuple name (debugAs kind spec c)
  | none => name ++ "(<null>)"

/-- The inspection of a slot. Nothing inspects a raw pointer. -/
def Slot.debug? (h : Heap) (spec : Spec) : Slot → Option String
  | .strong p =>
    if p.kind = .disp then none else some (pointerDebug "SharedPtr" p.kind spec (p.get? h))
  | .unique u =>
    if u.kind = .disp then none
    else some (pointerDebug "UniquePtr" u.kind spec (u.view.bind h.read?))
  | .weak _ => some "(Weak)"
  | .raw _ => none

/-- The display of a slot: that of its pointee. Only strong pointers have one. -/
def Slot.display? (h : Heap) (spec : Spec) : Slot → Option String
  | .strong p =>
    if p.kind.isDisplayed then
      match p.get? h with
      | some c => c.display? spec
      | none => some "<null>"
    else none
  | _ => none

/-- Only keys of these kinds are written. -/
def Slot.ownerKey? (h : Heap) (spec : Spec) : Slot → Option String
  | .strong p =>
    if p.kind = .int ∨ p.kind = .string then
      ((Slot.strong p).debug? h spec).map (spec.tuple "OwnerKey")
    else none
  | .weak w => (Slot.weak w).debug? h spec |>.map (spec.tuple "OwnerKey")
  | _ => none

/-- An address that is not low is not shown. -/
def Slot.pointer? (h : Heap) (spec : Spec) : Slot → Option String
  | .strong p => some (shownAddress (p.address h))
  | .unique u => some (shownAddress (h.addressOf u.view))
  | _ => none
where
  shownAddress : Address → String
    | .low n => spec.address n
    | .inside _ _ => "<addr>"

/-- `none` where the form is not defined for the pointer. -/
def Slot.format? (h : Heap) (f : Format) (x : Slot) : Option String :=
  match f with
  | .display spec => x.display? h spec
  | .debug spec => x.debug? h spec
  | .ownerKey spec => x.ownerKey? h spec
  | .pointer spec => x.pointer? h spec

end Custody
