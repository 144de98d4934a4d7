import Custody.Answer

/-!
# Scripts

Programs are written as data: a step is an object that names its operation under `op`.

* `Path.ofText`: `a.x.y` is link `y` of the node at link `x` of the node at `a`; a path that
  starts with `@` starts at the links of the node whose destructor is running.
* `Reading`: a datum together with what it means as a step, as a literal and as a list of steps.
  A datum is read from its parts up, so a reading never looks into the datum again.
* `Step.ofFields?`: a step from its fields, unless it is malformed.
-/

namespace Custody

/-- The pieces between the dots; there is always one. -/
def splitAtDots : List Char → List Char × List (List Char)
  | [] => ([], [])
  | c :: cs =>
    let (piece, rest) := splitAtDots cs
    if c = '.' then ([], piece :: rest) else (c :: piece, rest)

/-- Only the last name is not gone through. -/
def Path.ofNames (fromRunning : Bool) (name : List Char) : List (List Char) → Path
  | [] => ⟨fromRunning, [], String.ofList name⟩
  | next :: rest =>
    let p := ofNames fromRunning next rest
    { p with through := String.ofList name :: p.through }

/-- The path that a text says, which may begin at the running destructor's node. -/
def Path.ofText (s : String) : Path :=
  match s.toList with
  | '@' :: cs => ofNames true (splitAtDots cs).1 (splitAtDots cs).2
  | cs => ofNames false (splitAtDots cs).1 (splitAtDots cs).2

/-- Data, and what they are read as where a step, a value or steps are expected. -/
structure Reading where
  datum : Datum
  step : Step
  literal : Literal
  /-- The steps that a list is read as. -/
  steps : Option (List Step)
  deriving Inhabited

/-- The entries of an object, as they are read. -/
abbrev Fields := List (String × Reading)

namespace Fields

/-- An absent field and a `null` are one. -/
def get? (f : Fields) (name : String) : Option Reading :=
  (f.lookup name).filter fun r => match r.datum with
    | .null => false
    | _ => true

/-- The text under the name. -/
def text? (f : Fields) (name : String) : Option String := (f.get? name).bind (·.datum.text?)

/-- The path under the name. -/
def path? (f : Fields) (name : String) : Option Path := (f.text? name).map Path.ofText

/-- The kind under the name. -/
def kind? (f : Fields) (name : String) : Option Kind := (f.text? name).bind Kind.ofName?

/-- A field that says one of a few things, or nothing. -/
def choice? (f : Fields) (name otherwise : String) : Option String :=
  match f.get? name with
  | none => some otherwise
  | some r => r.datum.text?

/-- The steps under the name. -/
def steps? (f : Fields) (name : String) : Option (List Step) := (f.get? name).bind (·.steps)

/-- The number under the name, not negative. -/
def nat? (f : Fields) (name : String) : Option Nat := (f.get? name).bind (·.datum.nat?)

/-- An index, 0 if it is not given. -/
def index? (f : Fields) (name : String) : Option Nat :=
  match f.get? name with
  | none => some 0
  | some r => r.datum.nat?

/-- What a value makes; without one, what fits no kind but `unit`. -/
def value (f : Fields) : Literal :=
  match f.lookup "value" with
  | some r => r.literal
  | none => .other

end Fields

/-! ## Literals -/

/-- The signed word under the name, which is zero if there is none. -/
def int64Field? (f : Fields) (name : String) : Option Int64 :=
  match f.lookup name with
  | none => some 0
  | some r => r.datum.int?.bind int64?

/-- Every field of a node may be left out. -/
def Literal.ofFields? (f : Fields) : Option Literal := do
  let id ← int64Field? f "id"
  let value ← int64Field? f "value"
  let name ← match f.lookup "name" with
    | none => some ""
    | some r => r.datum.text?
  let items ← match f.lookup "items" with
    | none => some []
    | some r => do (← r.datum.list?).mapM fun d => d.int?.bind int64?
  let onDrop ← match f.lookup "on_drop" with
    | none => some []
    | some r => r.steps
  return .node ⟨id, value, .ofString name, items⟩ onDrop

/-! ## Steps -/

namespace Step

/-- The allocator of the name. -/
def allocOf? : String → Option Alloc
  | "global" => some .global
  | "arena" => some .arena
  | _ => none

/-- A boxed value may be of any kind, and is in global memory; else the kind is sized. -/
def newOfFields? (f : Fields) : Option Step := do
  let dst ← f.path? "to"
  let kind ← f.kind? "kind"
  match ← f.choice? "how" "new" with
  | "box" => return .new kind f.value .global dst
  | "new" | "from" | "global" => if kind.isSized then return .new kind f.value .global dst else none
  | "arena" => if kind.isSized then return .new kind f.value .arena dst else none
  | _ => none

/-- How a unique pointer is made. The arena makes no trait objects that cross threads. -/
def uniqueOfFields? (f : Fields) : Option Step := do
  let dst ← f.path? "to"
  let kind ← f.kind? "kind"
  let a ← allocOf? (← f.choice? "alloc" "global")
  match ← f.choice? "how" "new", a with
  | "null", _ | "default", _ => return .uniqueNull kind a dst
  | "box", .global => return .unique kind f.value a dst
  | "new", .global => if kind.isSized then return .unique kind f.value a dst else none
  | "new", .arena =>
    match kind with
    | .anySend | .anySync => none
    | _ => return .unique kind f.value a dst
  | _, _ => none

/-- How a raw pointer is adopted. -/
def adoptOfFields? (f : Fields) : Option Step := do
  let src ← f.path? "raw"
  let dst ← f.path? "to"
  match ← f.text? "how" with
  | "unique" => return .adopt src .unique dst
  | "from_raw" => return .adopt src .shared dst
  | "try_from_raw_in" => return .adopt src .sharedIn dst
  | _ => none

/-- Which pointers a set is made of, and what is looked up in it. -/
def setsOfFields? (f : Fields) : Option Step := do
  let keys ← (← (← f.get? "slots").datum.list?).mapM fun d => d.text?.map Path.ofText
  let order ← match ← f.text? "by" with
    | "addr" => some OrderBy.address
    | "owner" => some OrderBy.owner
    | _ => none
  match f.get? "probe" with
  | none => return .sets keys order none
  | some r => return .sets keys order (some (Path.ofText (← r.datum.text?)))

/-- The selector of the word, with the indices that it may need. -/
def selector? (i j : Nat) : String → Option Selector
  | "id" => some .id
  | "value" => some .value
  | "name" => some .name
  | "text" => some .text
  | "items" => some .items
  | "side" => some .side
  | "elem" => some (.elem i)
  | "sub" => some (.sub i j)
  | "self" => some .self
  | "any" => some .any
  | "anysend" => some .anySend
  | "anysync" => some .anySync
  | "shape" => some .shape
  | "disp" => some .disp
  | "positive" => some .positive
  | "none" => some .nothing
  | "last" => some .last
  | _ => none

/-- An unknown selector is not malformed: it is defined on no kind. -/
def mapOfFields? (f : Fields)
    (make : Path → Option Selector → Path → List Step → Bool → Step) : Option Step := do
  let src ← f.path? "from"
  let dst ← f.path? "to"
  let part ← f.text? "field"
  let i ← f.index? "i"
  let j ← f.index? "j"
  match f.get? "during" with
  | none => return make src (selector? i j part) dst [] false
  | some r => return make src (selector? i j part) dst (← r.steps) true

/-- How a pointer is cast. -/
def castOfFields? (f : Fields) : Option Step := do
  let src ← f.path? "from"
  let dst ← f.path? "to"
  match ← f.text? "how" with
  | "const" => return .cast src .const dst
  | "static" => return .cast src (.static (Kind.ofName? (← f.text? "target"))) dst
  | "dynamic" => return .cast src (.dynamic (← f.kind? "target")) dst
  | "reinterpret" => return .cast src (.reinterpret (Kind.ofName? (← f.text? "target"))) dst
  | _ => none

/-- Where an alias leads: where another pointer does, nowhere, or to a standing value. -/
def aliasOfFields? (f : Fields) : Option Step := do
  let owner ← f.path? "owner"
  let dst ← f.path? "to"
  match f.get? "like", f.get? "view" with
  | some r, _ => return .aliasLike owner (Path.ofText (← r.datum.text?)) dst
  | none, none => return .aliasNull owner (← f.kind? "kind") dst
  | none, some r =>
    if (← r.datum.text?) = "static" then
      return .aliasStatic owner (← Static.ofKind? (← f.kind? "kind")) dst
    else none

/-- A loop of not too many rounds. -/
def loopOfFields? (f : Fields) : Option Step := do
  let n ← f.nat? "n"
  let body ← f.steps? "steps"
  if n ≤ 20000 then return .loop n body else none

/-- A null pointer is made in either of two ways, which do not differ. -/
def nullOfFields? (f : Fields) (make : Kind → Path → Step) : Option Step := do
  let dst ← f.path? "to"
  let kind ← f.kind? "kind"
  match ← f.choice? "how" "null" with
  | "null" | "default" => return make kind dst
  | _ => none

/-- How many requests the arena grants; without a number, all. -/
def budgetOfFields? (f : Fields) : Option Step :=
  match f.get? "n" with
  | none => return .budget none
  | some r => return .budget (some (← r.datum.nat?))

/-- The step that the entries say, if they are well formed. -/
def ofFields? (f : Fields) : Option Step := do
  match ← f.text? "op" with
  | "new" => newOfFields? f
  | "null" => nullOfFields? f .null
  | "weak_new" => nullOfFields? f .weakNull
  | "unique" => uniqueOfFields? f
  | "raw" => return .raw (← f.kind? "kind") f.value (← f.path? "to")
  | "from_unique" => return .promote (← f.path? "unique") (← f.path? "to")
  | "into_shared" => return .share (← f.path? "unique") (← f.path? "to")
  | "release" => return .release (← f.path? "unique") (← f.path? "to")
  | "into_raw" => return .intoRaw (← f.path? "unique") (← f.path? "to")
  | "adopt" => adoptOfFields? f
  | "reset_raw" => return .resetRaw (← f.path? "slot") (← f.path? "raw")
  | "move" => return .move (← f.path? "from") (← f.path? "to")
  | "drop" => return .drop (← f.path? "slot")
  | "clone" => return .clone (← f.path? "from") (← f.path? "to")
  | "clone_from" => return .cloneFrom (← f.path? "to") (← f.path? "from")
  | "take" => return .take (← f.path? "from") (← f.path? "to")
  | "swap" => return .swap (← f.path? "a") (← f.path? "b")
  | "reset" => return .reset (← f.path? "slot")
  | "reset_with" => return .resetWith (← f.path? "slot") f.value
  | "get" => return .get (← f.path? "slot")
  | "deref" => return .deref (← f.path? "slot")
  | "set" => return .set (← f.path? "slot") f.value ((← f.choice? "how" "") == "deref_mut")
  | "counts" => return .counts (← f.path? "slot")
  | "area" => return .area (← f.path? "slot")
  | "state" => return .state
  | "fmt" => return .format (← f.path? "slot") (← f.text? "spec")
  | "cmp" => return .compare (← f.path? "a") (← f.path? "b")
  | "owner" => return .owner (← f.path? "a") (← f.path? "b")
  | "sets" => setsOfFields? f
  | "downgrade" => return .downgrade (← f.path? "from") (← f.path? "to")
  | "lock" => return .lock (← f.path? "from") (← f.path? "to")
  | "try_lock" => return .tryLock (← f.path? "from") (← f.path? "to")
  | "map" => mapOfFields? f .map
  | "try_map" => mapOfFields? f .tryMap
  | "cast" => castOfFields? f
  | "alias" => aliasOfFields? f
  | "budget" => budgetOfFields? f
  | "metrics" => return .metrics
  | "reset_metrics" => return .resetMetrics
  | "mark" => return .mark (← f.text? "name")
  | "since" => return .since (← f.text? "name")
  | "repeat" => loopOfFields? f
  | "thread" => return .aside (Report.ofProgram (← f.steps? "steps") false).toDatum
  | _ => none

/-- The step that the entries say. What is not well formed is a step too, which fails. -/
def ofFields (f : Fields) : Step := (ofFields? f).getD .malformed

end Step

/-! ## Reading -/

namespace Reading

mutual

/-- What data are read as. -/
def ofDatum : Datum → Reading
  | .int n => ⟨.int n, .malformed, .int n, none⟩
  | .text s => ⟨.text s, .malformed, .text s, none⟩
  | .list items =>
    let rs := ofList items
    ⟨.list items, .malformed, .list (rs.map (·.literal)), some (rs.map (·.step))⟩
  | .object fields =>
    let rs := ofEntries fields
    ⟨.object fields, Step.ofFields rs, (Literal.ofFields? rs).getD .other, none⟩
  | .null => ⟨.null, .malformed, .other, none⟩
  | .bool b => ⟨.bool b, .malformed, .other, none⟩

/-- What items are read as. -/
def ofList : List Datum → List Reading
  | [] => []
  | d :: rest => ofDatum d :: ofList rest

/-- What entries are read as. -/
def ofEntries : List (String × Datum) → Fields
  | [] => []
  | (name, d) :: rest => (name, ofDatum d) :: ofEntries rest

end

end Reading

/-- The steps that a list of data is read as. -/
def Datum.steps? (d : Datum) : Option (List Step) := (Reading.ofDatum d).steps

end Custody
