/-!
# Data

* `Datum`: the data that programs are written in and answers are given in.
* `Datum.field?`: the entry of an object under a name.
-/

namespace Custody

/-- What programs and answers are written in. -/
inductive Datum
  | null
  | bool (b : Bool)
  | int (n : Int)
  | text (s : String)
  | list (items : List Datum)
  | object (fields : List (String × Datum))
  deriving Inhabited, Repr

namespace Datum

/-- The first entry under a name, of an object. -/
def field? : Datum → String → Option Datum
  | object fields, name => fields.lookup name
  | _, _ => none

/-- The number, if it is one. -/
def int? : Datum → Option Int
  | int n => some n
  | _ => none

/-- The number, if it is one that is not negative. -/
def nat? : Datum → Option Nat
  | int (.ofNat n) => some n
  | _ => none

/-- The text, if it is one. -/
def text? : Datum → Option String
  | text s => some s
  | _ => none

/-- The items, if it is a list. -/
def list? : Datum → Option (List Datum)
  | list items => some items
  | _ => none

end Datum

end Custody
