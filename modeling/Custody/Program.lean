import Custody.Datum
import Custody.Selector

/-!
# Programs

A program is a list of steps. Steps name slots by paths, and make pointees from literals; the
literal of a node carries the steps that its destructor runs, so steps and literals are defined
together.

* `Path`: where a slot is stored.
* `Step`, `Literal`.
-/

namespace Custody

/-- A name in a table that is reached from the root table, or from the links of the node whose
destructor is running, by going through the nodes that the named slots point to. -/
structure Path where
  fromRunning : Bool
  through : List String
  name : String
  deriving DecidableEq, Repr

/-- How a strong or unique pointer takes over a raw pointee. -/
inductive Adoption
  | unique | shared | sharedIn
  deriving DecidableEq, Repr

/-- What a pointer is put in order by: the stored address or the owner. -/
inductive OrderBy
  | address | owner
  deriving DecidableEq, Repr

mutual

/-- The steps that programs are made of, and destructors and closures too. -/
inductive Step
  -- construction
  | new (kind : Kind) (value : Literal) (alloc : Alloc) (dst : Path)
  | null (kind : Kind) (dst : Path)
  | weakNull (kind : Kind) (dst : Path)
  | unique (kind : Kind) (value : Literal) (alloc : Alloc) (dst : Path)
  | uniqueNull (kind : Kind) (alloc : Alloc) (dst : Path)
  | raw (kind : Kind) (value : Literal) (dst : Path)
  -- ownership
  | promote (src dst : Path)
  | share (src dst : Path)
  | release (src dst : Path)
  | intoRaw (src dst : Path)
  | adopt (src : Path) (how : Adoption) (dst : Path)
  | resetRaw (target src : Path)
  | move (src dst : Path)
  | drop (target : Path)
  | clone (src dst : Path)
  | cloneFrom (target src : Path)
  | take (src dst : Path)
  | swap (left right : Path)
  | reset (target : Path)
  | resetWith (target : Path) (value : Literal)
  -- access
  | get (target : Path)
  | deref (target : Path)
  | set (target : Path) (value : Literal) (throughDeref : Bool)
  | counts (target : Path)
  | area (target : Path)
  | state
  | format (target : Path) (spec : String)
  | compare (left right : Path)
  | owner (left right : Path)
  | sets (keys : List Path) (order : OrderBy) (probe : Option Path)
  -- weak pointers
  | downgrade (src dst : Path)
  | lock (src dst : Path)
  | tryLock (src dst : Path)
  -- views
  | map (src : Path) (part : Option Selector) (dst : Path) (during : List Step) (listed : Bool)
  | tryMap (src : Path) (part : Option Selector) (dst : Path) (during : List Step) (listed : Bool)
  | cast (src : Path) (cast : Cast) (dst : Path)
  | aliasNull (owner : Path) (kind : Kind) (dst : Path)
  | aliasStatic (owner : Path) (view : Static) (dst : Path)
  | aliasLike (owner like : Path) (dst : Path)
  -- surroundings
  | budget (limit : Option Nat)
  | metrics
  | resetMetrics
  | mark (name : String)
  | since (name : String)
  | loop (rounds : Nat) (body : List Step)
  /-- A program of its own, which shares nothing with this one: its whole answer. -/
  | aside (answer : Datum)
  | malformed

/-- A value as it is written in a program. -/
inductive Literal
  | int (n : Int)
  | text (s : String)
  | list (items : List Literal)
  | node (n : Node) (onDrop : List Step)
  | other

end

instance : Inhabited Step := ⟨.malformed⟩
instance : Inhabited Literal := ⟨.other⟩

/-- What a literal makes: a content, and the steps of its destructor if it is a node. -/
structure Pointee where
  content : Content
  onDrop : List Step

end Custody
