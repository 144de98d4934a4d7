import Custody.Machine.Effect.Access
import Custody.Machine.Effect.Construction
import Custody.Machine.Effect.Ownership
import Custody.Machine.Effect.Views

/-!
# Plans

* `Machine.plan`: the effect that a step has in a state, or why it fails. A step that fails has no
  effect.

A plan finds the operands and checks their types; it changes nothing.
-/

namespace Custody

/-- The effect of a step, or why there is none. -/
abbrev Plan := Except Failure Effect

namespace Machine

/-! ## Operands of one family -/

/-- The strong pointer at the path. -/
def findStrong (m : Machine) (p : Path) : Except Failure (Location × Strong) := do
  match ← m.find p with
  | (loc, .strong q) => return (loc, q)
  | _ => throw .wrongKind

/-- The weak pointer at the path. -/
def findWeak (m : Machine) (p : Path) : Except Failure (Location × Weak) := do
  match ← m.find p with
  | (loc, .weak w) => return (loc, w)
  | _ => throw .wrongKind

/-- The unique pointer at the path. -/
def findUnique (m : Machine) (p : Path) : Except Failure (Location × Unique) := do
  match ← m.find p with
  | (loc, .unique u) => return (loc, u)
  | _ => throw .wrongKind

/-- The raw pointer at the path. -/
def findRaw (m : Machine) (p : Path) : Except Failure (Location × Raw) := do
  match ← m.find p with
  | (loc, .raw r) => return (loc, r)
  | _ => throw .wrongKind

/-! ## Construction and ownership -/

/-- The pointee that a value comes to, for the kind. -/
def pointee (kind : Kind) (value : Literal) : Except Failure Pointee :=
  match value.pointee? kind with
  | some p => .ok p
  | none => .error .badOp

/-- What could only abort is not begun. -/
def planShare (m : Machine) (src dst : Path) : Plan := do
  let (loc, u) ← m.findUnique src
  if u.object.isSome && (m.heap.ledger u.alloc).isExhausted then throw .wouldAbort
  return .share loc u dst

/-- Only what came of the global allocator can be adopted without naming the allocator. -/
def planAdopt (m : Machine) (src : Path) (how : Adoption) (dst : Path) : Plan := do
  let (loc, r) ← m.findRaw src
  match how with
  | .unique => return .adoptUnique loc r dst
  | .shared => if r.alloc = .global then return .adopt loc r dst else throw .wrongKind
  | .sharedIn => return .adopt loc r dst

/-- A strong pointer takes over a raw one of its kind. -/
def planResetRaw (m : Machine) (target src : Path) : Plan := do
  match ← m.findTwo target src with
  | ((loc, .strong p), (rawLoc, .raw r)) =>
    if r.alloc = .global ∧ r.kind = p.kind then return .resetRaw loc p rawLoc r
    else throw .wrongKind
  | _ => throw .wrongKind

/-- The only step whose destination is followed before the source is out of its table. -/
def planMove (m : Machine) (src dst : Path) : Plan := do
  let target ← m.locate dst
  let (loc, x) ← m.find src
  return .move loc x target

/-- Strong and weak pointers can be cloned. -/
def planClone (m : Machine) (src dst : Path) : Plan := do
  match ← m.find src with
  | (loc, .strong p) => return .cloneStrong loc p dst
  | (loc, .weak w) => return .cloneWeak loc w dst
  | _ => throw .wrongKind

/-- Pointers of one kind can be assigned. -/
def planCloneFrom (m : Machine) (target src : Path) : Plan := do
  match ← m.findTwo target src with
  | ((loc, .strong p), (srcLoc, .strong q)) =>
    if p.kind = q.kind then return .assignStrong loc p srcLoc q else throw .wrongKind
  | ((loc, .weak w), (srcLoc, .weak v)) =>
    if w.kind = v.kind then return .assignWeak loc w srcLoc v else throw .wrongKind
  | _ => throw .wrongKind

/-- The pointers that can change places are of one type, and of one allocator if unique. -/
def canSwap : Slot → Slot → Bool
  | .strong p, .strong q => p.kind == q.kind
  | .weak p, .weak q => p.kind == q.kind
  | .unique p, .unique q => p.kind == q.kind && p.alloc == q.alloc
  | _, _ => false

/-- Slots of one type can be swapped. -/
def planSwap (m : Machine) (left right : Path) : Plan := do
  let ((loc, x), (otherLoc, y)) ← m.findTwo left right
  if canSwap x y then return .swap loc x otherLoc y else throw .wrongKind

/-- The null pointer that a pointer is reset to. -/
def nullLike? : Slot → Option Slot
  | .strong p => some (.strong (.null p.kind))
  | .weak w => some (.weak (.null w.kind))
  | .unique u => some (.unique (.null u.kind u.alloc))
  | .raw _ => none

/-- A pointer becomes null. -/
def planReset (m : Machine) (target : Path) : Plan := do
  let (loc, x) ← m.find target
  match nullLike? x with
  | some null => return .reset loc x null
  | none => throw .wrongKind

/-- The kinds that a pointer can be reset with a value of. -/
def canResetWith : Kind → Bool
  | .node | .int | .byte | .string | .wide | .unit => true
  | _ => false

/-- A strong pointer takes over a new pointee. -/
def planResetWith (m : Machine) (target : Path) (value : Literal) : Plan := do
  let (loc, p) ← m.findStrong target
  if canResetWith p.kind then return .resetWith loc p (← pointee p.kind value)
  else throw .wrongKind

/-! ## Access -/

/-- The pointee is shown. A null pointer has none, and must not be dereferenced. -/
def planGet (m : Machine) (target : Path) (deref : Bool) : Plan := do
  let (_, x) ← m.find target
  match x.value? m.heap with
  | some (.ok v) => return .answer (.shown v)
  | some (.error f) => if deref then throw f else return .answer .nothing
  | none => throw .wrongKind

/-- The pointee is written, if the pointer is alone with it and the value suits. -/
def planSet (m : Machine) (target : Path) (value : Literal) (throughDeref : Bool) : Plan := do
  let (_, x) ← m.find target
  match x.writable? m.heap with
  | some (some p) =>
    match written? m.heap x.kind p value with
    | some c => return .write p c
    | none => return .answer (.flag false)
  | some none =>
    match x with
    | .unique _ => if throughDeref then throw .nullUnique else return .answer .nothing
    | _ => return .answer .nothing
  | none => throw .wrongKind

/-- The area of a shape. -/
def planArea (m : Machine) (target : Path) : Plan := do
  let (_, p) ← m.findStrong target
  if p.kind ≠ .shape then throw .wrongKind
  match (p.get? m.heap).bind (·.area?) with
  | some n => return .answer (.number n.toInt)
  | none => return .answer .nothing

/-- The pointer is formatted. -/
def planFormat (m : Machine) (target : Path) (spec : String) : Plan := do
  let (_, x) ← m.find target
  match (Format.ofName? spec).bind (x.format? m.heap) with
  | some s => return .answer (.text s)
  | none => throw .badOp

/-- Two pointers are compared: strong ones by address, weak ones by block. -/
def planCompare (m : Machine) (left right : Path) : Plan := do
  let ((_, x), (_, y)) ← m.findTwo left right
  if !x.sameType y then throw .wrongKind
  match x, y with
  | .strong p, .strong q =>
    let a := p.address m.heap
    let b := q.address m.heap
    return .answer (.compared (a == b) (a.compare? b))
  | .weak w, .weak v => return .answer (.sameBlock (w.ptrEq v))
  | _, _ => throw .wrongKind

/-- Two pointers are compared by owner. -/
def planOwner (m : Machine) (left right : Path) : Plan := do
  let ((_, x), (_, y)) ← m.findTwo left right
  match x.key? m.heap .owner, y.key? m.heap .owner with
  | some a, some b => return .answer (.owners (a == b) (a.compare? b))
  | _, _ => throw .wrongKind

/-- Keys are not taken out of their tables, and one may be named more than once. -/
def planSets (m : Machine) (keys : List Path) (order : OrderBy) (probe : Option Path) : Plan := do
  let xs ← keys.mapM fun p => return (← m.find p).2
  let probe ← probe.mapM fun p => return (← m.find p).2
  match xs ++ probe.toList with
  | [] => pure ()
  | x :: rest => if !rest.all x.sameType then throw .wrongKind
  let key (x : Slot) : Except Failure Address :=
    match x.key? m.heap order with
    | some a => .ok a
    | none => .error .wrongKind
  let addresses ← xs.mapM key
  let probe ← probe.mapM key
  return .answer (keyed addresses probe)

/-! ## Views -/

/-- A projection that must yield a part. -/
def planMap (m : Machine) (src : Path) (part : Option Selector) (dst : Path) (during : List Step)
    (listed : Bool) : Plan := do
  let (loc, x) ← m.find src
  match x, part, part.bind (·.target? x.kind) with
  | .strong p, some s, some target => return .map ⟨loc, s, target, dst, listed⟩ p during
  | .weak w, some s, some target => return .mapWeak ⟨loc, s, target, dst, listed⟩ w during
  | _, _, _ => throw .wrongKind

/-- A projection that may yield none. Weak pointers have none of these. -/
def planTryMap (m : Machine) (src : Path) (part : Option Selector) (dst : Path)
    (during : List Step) (listed : Bool) : Plan := do
  let (loc, p) ← m.findStrong src
  match part, part.bind (·.tryTarget? p.kind) with
  | some s, some target => return .tryMap ⟨loc, s, target, dst, listed⟩ p during
  | _, _ => throw .wrongKind

/-- The view of a cast, and `none` for a checked one that is refused. A part that is reinterpreted
must be there. -/
def castView (h : Heap) (p : Strong) : Cast → Except Failure (Kind × Option (Option Place))
  | .const => .ok (p.kind, some p.view)
  | .static target =>
    match target.bind (staticPath? p.kind), target with
    | some path, some k => .ok (k, some (p.view.map (·.into path)))
    | _, _ => .error .wrongKind
  | .reinterpret target =>
    match target.bind (reinterpretPath? p.kind), target with
    | some path, some k =>
      match p.view with
      | none => .ok (k, some none)
      | some v =>
        if (h.read? (v.into path)).isSome then .ok (k, some (some (v.into path)))
        else .error .wrongKind
    | _, _ => .error .wrongKind
  | .dynamic target =>
    if !isDowncastTarget target then .error .badOp
    else if !isDowncastSource p.kind then .error .wrongKind
    else
      match p.get? h with
      | some c => .ok (target, if c.kind = target then some p.view else none)
      | none => .ok (target, none)

/-- A cast, which keeps the owner. -/
def planCast (m : Machine) (src : Path) (c : Cast) (dst : Path) : Plan := do
  let (loc, p) ← m.findStrong src
  let (kind, view) ← castView m.heap p c
  return .cast loc p kind view dst

/-- A pointer with the owner of one and another view. -/
def planAlias (m : Machine) (owner : Path) (kind : Kind) (view : Option Place) (dst : Path) :
    Plan := do
  let (loc, p) ← m.findStrong owner
  return .cast loc p kind (some view) dst

/-- Only a pointer of the same owner can lend its view. -/
def planAliasLike (m : Machine) (owner like dst : Path) : Plan := do
  match ← m.findTwo owner like with
  | ((loc, .strong p), (likeLoc, .strong q)) =>
    if p.block = q.block then return .aliasLike loc p likeLoc q dst else throw .otherOwner
  | _ => throw .wrongKind

/-! ## All steps -/

/-- What a step does to the machine, or why it is not carried out. Nothing is changed by that. -/
def plan (m : Machine) : Step → Plan
  | .new kind value a dst => return .construct kind (← pointee kind value) a dst
  | .null kind dst => return .store (.strong (.null kind)) dst
  | .weakNull kind dst => return .store (.weak (.null kind)) dst
  | .unique kind value a dst => return .constructUnique kind (← pointee kind value) a dst
  | .uniqueNull kind a dst => return .store (.unique (.null kind a)) dst
  | .raw kind value dst => return .constructRaw kind (← pointee kind value) dst
  | .promote src dst => do
    let (loc, u) ← m.findUnique src
    return .promote loc u dst
  | .share src dst => m.planShare src dst
  | .release src dst => do
    let (loc, u) ← m.findUnique src
    return .release loc u dst true
  | .intoRaw src dst => do
    let (loc, u) ← m.findUnique src
    return .release loc u dst false
  | .adopt src how dst => m.planAdopt src how dst
  | .resetRaw target src => m.planResetRaw target src
  | .move src dst => m.planMove src dst
  | .drop target => do
    let (loc, x) ← m.find target
    return .drop loc x
  | .clone src dst => m.planClone src dst
  | .cloneFrom target src => m.planCloneFrom target src
  | .take src dst => do
    let (loc, p) ← m.findStrong src
    return .takeStrong loc p dst
  | .swap left right => m.planSwap left right
  | .reset target => m.planReset target
  | .resetWith target value => m.planResetWith target value
  | .get target => m.planGet target false
  | .deref target => m.planGet target true
  | .set target value throughDeref => m.planSet target value throughDeref
  | .counts target => do
    let (_, x) ← m.find target
    return .answer (.counts (x.counts m.heap))
  | .area target => m.planArea target
  | .state => return .answer m.listing
  | .format target spec => m.planFormat target spec
  | .compare left right => m.planCompare left right
  | .owner left right => m.planOwner left right
  | .sets keys order probe => m.planSets keys order probe
  | .downgrade src dst => do
    let (loc, p) ← m.findStrong src
    return .downgrade loc p dst
  | .lock src dst => do
    let (loc, w) ← m.findWeak src
    return .lock loc w dst false
  | .tryLock src dst => do
    let (loc, w) ← m.findWeak src
    return .lock loc w dst true
  | .map src part dst during listed => m.planMap src part dst during listed
  | .tryMap src part dst during listed => m.planTryMap src part dst during listed
  | .cast src c dst => m.planCast src c dst
  | .aliasNull owner kind dst => m.planAlias owner kind none dst
  | .aliasStatic owner s dst => m.planAlias owner s.kind (some (.static s)) dst
  | .aliasLike owner like dst => m.planAliasLike owner like dst
  | .budget limit => return .setBudget limit
  | .metrics => return .answer (.metrics m.heap.metrics)
  | .resetMetrics => return .resetMetrics
  | .mark name => return .remember name
  | .since name =>
    match m.env.marks.lookup name with
    | some earlier => return .answer (.metrics (m.heap.metrics.since earlier))
    | none => throw .noSlot
  | .loop rounds body => return ⟨[], fun h => (h, [.round rounds body])⟩
  | .aside answer => return .answer (.aside answer)
  | .malformed => throw .badOp

end Machine

end Custody
