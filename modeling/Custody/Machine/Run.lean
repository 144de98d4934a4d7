import Custody.Machine.Plan
import Custody.Machine.Potential

/-!
# Running a machine

* `Machine.dropSlot`, `Machine.startDestructor`: the end of a pointer, and of a pointee.
* `Machine.finishProjection`, `Machine.finishWeakProjection`: what follows the steps of a closure.
* `Machine.perform`: what each action does.
* `Machine.step`: the first action of the agenda is performed.
* `Machine.run`: steps until the agenda is empty, as many as the potential allows.
-/

namespace Custody

/-- The place of the part that the selector leads to. -/
def Projection.part? (j : Projection) (h : Heap) (source : Strong) : Option Place := do
  let view ← source.view
  let c ← h.read? view
  let path ← j.selector.path? source.kind c
  return view.into path

/-- A projection that must yield a part yields a standing value where there is none. -/
def Projection.view (j : Projection) (h : Heap) (source : Strong) : Option Place :=
  match source.view, j.part? h source with
  | none, _ => none
  | some _, some part => some part
  | some _, none => (Static.ofKind? j.target).map Place.static

namespace Machine

/-! ## Dropping and destroying -/

/-- Each step is reported when it is over. -/
def execAll (node : Int64) (onDrop : List Step) : List Action :=
  onDrop.flatMap fun s => [.exec s, .did node]

/-- A node runs its steps first. What an object holds is dropped, and then its memory is returned. -/
def startDestructor (o : ObjectId) (m : Machine) : Machine :=
  let (m, p) := m.onHeap (·.beginDestruction o)
  match p.content with
  | .node n =>
    let m := m.mapHeap (·.emit (.drop n.id))
    let m := m.mapEnv fun e => { e with running := o :: e.running }
    m.schedule (execAll n.id p.onDrop ++ [.leave, .unlink o, .reclaim o])
  | _ => m.schedule [.unlink o, .reclaim o]

/-- With the last strong owner goes the pointee. When its disposal is over, the implicit reference
is given up. -/
def releaseOwner (b : BlockId) (m : Machine) : Machine :=
  let (m, last) := m.onHeap (·.releaseStrong b)
  if last then
    let (m, pointee) := m.onHeap (·.takePointee b)
    let m := m.schedule [.giveUpImplicit b]
    match pointee with
    | some o => m.startDestructor o
    | none => m
  else m

/-- A slot is dropped: what it owns through it is released. A raw pointer owns nothing. -/
def dropSlot (x : Slot) (m : Machine) : Machine :=
  match x with
  | .strong ⟨_, some b, _⟩ => m.releaseOwner b
  | .weak ⟨_, some b, _⟩ => m.mapHeap (·.releaseWeak b)
  | .unique ⟨_, _, some o⟩ => m.startDestructor o
  | _ => m

/-- Drops the slot of the smallest name and does `a` after it, until the table is empty. -/
def emptyOut (t : TableId) (a : Action) (m : Machine) : Machine :=
  match (m.table t).popFirst? with
  | some (x, rest) => (m.withTable t rest).schedule [.drop x, a]
  | none => m

/-- The table is that of an object whose destruction is over. -/
def isGone (m : Machine) : TableId → Bool
  | .root => false
  | .links o =>
    match m.heap.objects[o]? with
    | some x => x.phase == .gone
    | none => false

/-- The table of a dead node goes with the last action that works on it. -/
def letGoOf (t : TableId) (m : Machine) : Machine :=
  if m.isGone t && !m.env.agenda.any (·.worksOn t) then
    let slots := (m.table t).slots
    (m.withTable t .empty).schedule (slots.map .drop)
  else m

/-! ## Storing -/

/-- Stores a slot; what it displaces is dropped when it is in place. -/
def store (loc : Location) (x : Slot) (m : Machine) : Machine :=
  let old := m.get? loc
  (m.insert loc x).schedule (old.toList.map .drop)

/-- Takes the top `n` replies, oldest first. -/
def takeReplies (n : Nat) (m : Machine) : Machine × List Reply :=
  match m with
  | ⟨h, env⟩ =>
    (⟨h, { env with replies := env.replies.drop n }⟩, (env.replies.take n).reverse)

/-- The last reply is taken off the stack. -/
def takeReply (m : Machine) : Machine × Reply :=
  let (m, rs) := m.takeReplies 1
  (m, rs.headD .done)

/-- Without a table to go to, the slot is dropped. -/
def placeAt (x : Slot) (dst : Path) (form : Form) (m : Machine) : Machine :=
  let (m, during) :=
    match form with
    | .during => m.takeReply
    | _ => (m, .done)
  match m.resolve? dst with
  | none => (m.reply (.failed .noSlot)).schedule [.drop x]
  | some loc =>
    let counts := x.counts m.heap
    let r :=
      match form, during with
      | .during, .list during => Reply.placedDuring counts during
      | .promoted same null, _ => .promoted counts same null
      | _, _ => .placed counts
    (m.reply r).store loc x

/-! ## Projections -/

/-- A projection that may yield no part, and does not, has a null pointer without a block. -/
def finishProjection (j : Projection) (source : Strong) (total : Bool) (m : Machine) : Machine :=
  m.carryOut <| .closing [j.source.table] fun h =>
    let view := if total then j.view h source else j.part? h source
    let (h, made) :=
      if total || view.isSome then source.aliasing j.target view h else (h, .null j.target)
    (h, { operands := [(j.source, .strong source)], made := some (.strong made, j.dst, j.form) })

/-- The lock that kept the pointee through the closure is given up after the weak pointer to the
part has been made. -/
def finishWeakProjection (j : Projection) (source : Weak) (locked : Strong) (m : Machine) :
    Machine :=
  m.carryOut <| .closing [j.source.table] fun h =>
    let (h, mapped) := locked.aliasing j.target (j.view h locked) h
    let (h, made) := mapped.downgrade h
    (h, { surplus := [.strong mapped, .strong locked], operands := [(j.source, .weak source)],
          made := some (.weak made, j.dst, j.form) })

/-! ## All actions -/

/-- The replies of the last round stay. -/
def roundOf (n : Nat) (body : List Step) : List Action :=
  match n with
  | 0 => [.answer (.list [])]
  | 1 => body.map .exec ++ [.gather body.length]
  | n + 1 => body.map .exec ++ [.forget body.length, .round n body]

/-- The events since the last record are those of this step. -/
def recordStep (m : Machine) : Machine :=
  let (m, reply) := m.takeReply
  let listing := if m.env.watch then some m.listing else none
  let stop := m.heap.log.size
  m.mapEnv fun e =>
    let start := (e.records.back?.map (·.stop)).getD 0
    { e with records := e.records.push ⟨reply, start, stop, listing⟩ }

/-- What an action does. What follows from it is put before what is left to be done. -/
def perform (a : Action) (m : Machine) : Machine :=
  match a with
  | .exec s =>
    match m.plan s with
    | .ok e => m.carryOut e
    | .error f => m.reply (.failed f)
  | .drop x => m.dropSlot x
  | .did node =>
    let (m, r) := m.takeReply
    m.mapHeap (·.emit (.did node r))
  | .leave => m.mapEnv fun e => { e with running := e.running.tail }
  | .unlink o => m.emptyOut (.links o) (.unlink o)
  | .reclaim o => m.mapHeap (·.endDestruction o)
  | .giveUpImplicit b => m.mapHeap (·.giveUpImplicit b)
  | .putBack loc x counted =>
    let m := if counted then let c := x.counts m.heap; m.reply (.placed c) else m
    m.store loc x
  | .place x dst form => m.placeAt x dst form
  | .answer r => m.reply r
  | .letGo t => m.letGoOf t
  | .gather n =>
    let (m, rs) := m.takeReplies n
    m.reply (.list rs)
  | .forget n => (m.takeReplies n).1
  | .round n body => m.schedule (roundOf n body)
  | .project j source total => m.finishProjection j source total
  | .projectWeak j source locked => m.finishWeakProjection j source locked
  | .record => m.recordStep
  | .clear => m.emptyOut .root .clear
  | .remember name now => (m.mapEnv fun e => { e with marks := (name, now) :: e.marks }).reply .done

/-- The first action of the agenda, and the machine without it. -/
def next? (m : Machine) : Option (Action × Machine) :=
  match m.env.agenda with
  | [] => none
  | a :: rest => some (a, m.mapEnv fun e => { e with agenda := rest })

/-- The first action is performed, if there is one. -/
def step (m : Machine) : Machine :=
  match m.next? with
  | some (a, m) => m.perform a
  | none => m

/-- So many steps, or as many as there are. -/
def runFor : Nat → Machine → Machine
  | 0, m => m
  | n + 1, m =>
    match m.next? with
    | some (a, m) => runFor n (m.perform a)
    | none => m

/-- All steps. There are not more than the potential. -/
def run (m : Machine) : Machine :=
  let fuel := m.potential
  m.runFor fuel

end Machine

end Custody
