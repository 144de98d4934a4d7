import Custody.Proofs.Conservation

/-!
# From a unique pointer to a strong one

The object is the unique pointer's until there is a block for it.

* `Heap.withBlock`, `Heap.refusing`: what a request for a block leaves.
* `Unique.promote_granted`, `Unique.promote_refused`: the two ends of a promotion.
* `Unique.Refusals`: promotions that are refused, one after another.
* `Machine.Promoted`, `Unique.Retried`: what a promotion leaves, and what one leaves that was refused
  before.
* `Machine.Promotes`: a promotion by a program.
* `Machine.Promotion`, `Machine.IsRationed.promotion`: a promotion is done as a whole or not at all.
-/

namespace Custody

/-! ## Requests for a block -/

namespace Heap

variable {h : Heap} {k : Kind} {a : Alloc} {o : ObjectId} {limits : Alloc → Option Nat}

/-- Each allocator grants as many more requests as `limits` says. -/
def ration (limits : Alloc → Option Nat) (h : Heap) : Heap :=
  { h with
    global := { h.global with budget := limits .global }
    arena := { h.arena with budget := limits .arena } }

theorem isExhausted_ration :
    ((h.ration limits).ledger a).isExhausted = (limits a == some 0) := by
  cases a <;> rfl

/-- A new block over the object. -/
def withBlock (k : Kind) (a : Alloc) (o : ObjectId) (h : Heap) : Heap :=
  let serial := (h.ledger a).allocations.size + 1
  { h.updateLedger a (·.grant (.block k.isSized)) with
    blocks := h.blocks.push { id := h.newId, kind := k, alloc := a, serial, pointee := some o }
    metrics := h.metrics.recordBlockAllocated
    nextId := h.nextId + 1
    log := (h.log.push (.alloc a serial (.block k.isSized))).push (.blockCreated h.newId k) }

/-- What `n` refused requests for a block leave. -/
def refusing (k : Kind) (a : Alloc) (n : Nat) (h : Heap) : Heap :=
  { h with
    metrics := { h.metrics with allocFailures := h.metrics.allocFailures + n }
    nextId := h.nextId + n
    log := h.log ++ Array.replicate n (.refuse a (.block k.isSized)) }

section

variable (k a o h)

@[simp] theorem objects_withBlock : (h.withBlock k a o).objects = h.objects := by
  cases a <;> rfl

@[simp] theorem statics_withBlock : (h.withBlock k a o).statics = h.statics := by
  cases a <;> rfl

@[simp] theorem breaches_withBlock : (h.withBlock k a o).breaches = h.breaches := by
  cases a <;> rfl

theorem ledger_withBlock (a' : Alloc) : (h.withBlock k a o).ledger a' =
    if a = a' then (h.ledger a').grant (.block k.isSized) else h.ledger a' := by
  rw [← ledger_updateLedger]
  cases a' <;> rfl

end

theorem createBlock_granted (o : ObjectId) (hg : (h.ledger a).isExhausted = false) :
    h.createBlock k a o = (h.withBlock k a o, .ok h.blocks.size) := by
  cases a <;>
    simp only [createBlock, request, Layout.size_block, ↓reduceIte, ledger, updateLedger, emit,
      measure] at hg ⊢ <;>
    rw [hg] <;> rfl

theorem createBlock_refused (o : ObjectId) (hr : (h.ledger a).isExhausted = true) :
    h.createBlock k a o = (h.refusing k a 1, .error (.block k.isSized)) := by
  cases a <;>
    simp only [createBlock, request, Layout.size_block, ↓reduceIte, ledger, emit, measure] at hr ⊢ <;>
    rw [hr] <;> rfl

theorem refusing_one : h.refusing k a 1 =
    { h with
      metrics := h.metrics.recordAllocFailure
      nextId := h.nextId + 1
      log := h.log.push (.refuse a (.block k.isSized)) } := by
  simp [refusing, Metrics.recordAllocFailure]

theorem refusing_zero : h.refusing k a 0 = h := by
  simp [refusing]

theorem refusing_succ (n : Nat) : (h.refusing k a n).refusing k a 1 = h.refusing k a (n + 1) := by
  simp [refusing, Nat.add_assoc, Array.replicate_succ]

/-- Where a place is depends on the objects and the standing values. -/
theorem addressOf_congr {h' : Heap} (ho : h'.objects = h.objects) (hs : h'.statics = h.statics)
    (p : Option Place) : h'.addressOf p = h.addressOf p := by
  cases p with
  | none => rfl
  | some p =>
    have horigin (i : Origin) : h'.origin? i = h.origin? i ∧
        h'.originAddress i = h.originAddress i := by
      cases i <;> simp only [origin?, originAddress, ho, hs, and_self]
    rw [addressOf, addressOf, (horigin p.origin).1, (horigin p.origin).2]

end Heap

/-! ## Promotions -/

namespace Unique

variable {h h' : Heap} {u v : Unique} {o : ObjectId} {n : Nat} {limits : Alloc → Option Nat}

theorem promote_null (ho : u.object = none) : u.promote h = (h, u, .ok (.null u.kind)) := by
  rw [promote, ho]

theorem promote_granted (ho : u.object = some o) (hg : (h.ledger u.alloc).isExhausted = false) :
    u.promote h = (h.withBlock u.kind u.alloc o, .null u.kind u.alloc,
      .ok ⟨u.kind, some h.blocks.size, u.view⟩) := by
  simp only [promote, ho, Heap.createBlock_granted o hg, view, Option.map_some]

theorem promote_refused (ho : u.object = some o) (hr : (h.ledger u.alloc).isExhausted = true) :
    u.promote h = (h.refusing u.kind u.alloc 1, u, .error (.block u.kind.isSized)) := by
  simp only [promote, ho, Heap.createBlock_refused o hr]

/-- Where a promotion is refused, the budget is used up. -/
theorem isExhausted_of_promote {l : Layout} (ho : u.object = some o)
    (hp : u.promote h = (h', v, .error l)) : (h.ledger u.alloc).isExhausted = true := by
  by_contra hg
  rw [promote_granted ho (Bool.eq_false_iff.mpr hg)] at hp
  cases hp

/-- A unique pointer is promoted `n` times, and refused each time. Before each time the allocators
may change what they grant. -/
inductive Refusals (u : Unique) (h : Heap) : Nat → Unique → Heap → Prop
  | none : Refusals u h 0 u h
  | more {n v v' h' h'' l} (limits : Alloc → Option Nat) : Refusals u h n v h' →
      v.promote (h'.ration limits) = (h'', v', .error l) → Refusals u h (n + 1) v' h''

/-- Nothing comes of them but that they are counted and told of. -/
theorem Refusals.eq (hr : u.Refusals h n v h') (ho : u.object = some o) :
    v = u ∧ ∃ limits, h' = (h.refusing u.kind u.alloc n).ration limits := by
  induction hr with
  | none => exact ⟨rfl, fun a => (h.ledger a).budget, by rw [Heap.refusing_zero]; rfl⟩
  | @more n v v' h' h'' l limits _ hp ih =>
    obtain ⟨rfl, limits', rfl⟩ := ih
    rw [promote_refused ho (isExhausted_of_promote ho hp)] at hp
    cases hp
    exact ⟨rfl, limits, by rw [← Heap.refusing_succ n]; rfl⟩

/-- Heap `g` is what a promotion at `h` leaves, and `g'` what one leaves that was refused `n` times
before. -/
structure Retried (u : Unique) (h : Heap) (n : Nat) (g g' : Heap) : Prop where
  /-- The new block has a later id. -/
  blocks : ∃ x, g.blocks = h.blocks.push x ∧
    g'.blocks = h.blocks.push { x with id := (h.nextId + n) % UInt64.size }
  objects : g'.objects = g.objects
  statics : g'.statics = g.statics
  ledger : g'.ledger = g.ledger
  metrics : g'.metrics = { g.metrics with allocFailures := g.metrics.allocFailures + n }
  nextId : g'.nextId = g.nextId + n
  breaches : g'.breaches = g.breaches
  /-- The log tells of the refusals before it tells of the block. -/
  log : ∃ told : Nat → List Event,
    g.log.toList = h.log.toList ++ told (h.nextId % UInt64.size) ∧
    g'.log.toList = h.log.toList ++ List.replicate n (.refuse u.alloc (.block u.kind.isSized)) ++
      told ((h.nextId + n) % UInt64.size)

/-- A second promotion ends as a first one would have that was not refused. -/
theorem retried_withBlock (u : Unique) (h : Heap) (n : Nat) (limits : Alloc → Option Nat)
    (o : ObjectId) :
    u.Retried h n ((h.ration limits).withBlock u.kind u.alloc o)
      (((h.refusing u.kind u.alloc n).ration limits).withBlock u.kind u.alloc o) := by
  have hledger (a : Alloc) :
      ((h.refusing u.kind u.alloc n).ration limits).ledger a = (h.ration limits).ledger a := by
    cases a <;> rfl
  constructor
  case blocks =>
    refine ⟨_, rfl, ?_⟩
    simp only [Heap.withBlock, hledger]
    rfl
  case objects => rw [Heap.objects_withBlock, Heap.objects_withBlock]; rfl
  case statics => rw [Heap.statics_withBlock, Heap.statics_withBlock]; rfl
  case ledger =>
    funext a
    rw [Heap.ledger_withBlock, Heap.ledger_withBlock, hledger]
  case metrics => rfl
  case nextId => exact Nat.add_right_comm _ _ _
  case breaches => rw [Heap.breaches_withBlock, Heap.breaches_withBlock]; rfl
  case log =>
    refine ⟨fun id => [.alloc u.alloc (((h.ration limits).ledger u.alloc).allocations.size + 1)
      (.block u.kind.isSized), .blockCreated id u.kind], ?_, ?_⟩
    · simp [Heap.withBlock, Heap.ration, Heap.newId]
    · simp only [Heap.withBlock, hledger]
      simp [Heap.ration, Heap.refusing, Heap.newId]

/-- A promotion that is granted at last does what one does that is granted at once. -/
theorem Refusals.retried (hr : u.Refusals h n v h') (ho : u.object = some o)
    (hl : limits u.alloc ≠ some 0) : ∃ g g' q,
      u.promote (h.ration limits) = (g, .null u.kind u.alloc, .ok q) ∧
      v.promote (h'.ration limits) = (g', .null u.kind u.alloc, .ok q) ∧
      u.Retried h n g g' := by
  obtain ⟨rfl, limits', rfl⟩ := hr.eq ho
  have hgranted (g : Heap) : ((g.ration limits).ledger v.alloc).isExhausted = false := by
    rw [Heap.isExhausted_ration]
    simpa using hl
  exact ⟨_, _, _, promote_granted ho (hgranted _), promote_granted ho (hgranted _),
    retried_withBlock v h n limits o⟩

end Unique

namespace Machine

variable {m : Machine} {u : Unique} {o : ObjectId} {h' : Heap}

/-- Heap `h'` is what the promotion of `u`, which points to object `o`, leaves. -/
structure Promoted (m : Machine) (u : Unique) (o : ObjectId) (h' : Heap) : Prop where
  /-- The pointee stays as it is, and where it is. -/
  objects : h'.objects = m.heap.objects
  statics : h'.statics = m.heap.statics
  address : h'.addressOf u.view = m.heap.addressOf u.view
  alive : h'.phase? o = some .alive
  blocks : h'.blocks = m.heap.blocks.push
    { id := m.heap.newId, kind := u.kind, alloc := u.alloc
      serial := (m.heap.ledger u.alloc).allocations.size + 1, pointee := some o
      strong := 1, weak := 1, implicitWeak := true, freed := false }
  /-- No pointer is on the new block. -/
  unused : ∀ p ∈ m.pointers, p.block? ≠ some m.heap.blocks.size
  ledger : ∀ a, h'.ledger a =
    if u.alloc = a then (m.heap.ledger a).grant (.block u.kind.isSized) else m.heap.ledger a
  /-- The block owns the pointee, which the unique pointer alone has owned. -/
  owner : m.uniques o = 1 ∧ m.raws o = 0 ∧ m.heap.managers o = 0 ∧ h'.managers o = 1
  metrics : h'.metrics = m.heap.metrics.recordBlockAllocated
  nextId : h'.nextId = m.heap.nextId + 1
  breaches : h'.breaches = m.heap.breaches
  log : h'.log.toList = m.heap.log.toList ++
    [.alloc u.alloc ((m.heap.ledger u.alloc).allocations.size + 1) (.block u.kind.isSized),
      .blockCreated m.heap.newId u.kind]

/-- The object of a unique pointer is alive, and has no other owner. -/
theorem uniques_of_mem (hs : Sound m.scene) (hu : .unique u ∈ m.pointers) (ho : u.object = some o) :
    m.heap.phase? o = some .alive ∧ m.uniques o = 1 ∧ m.raws o = 0 ∧ m.heap.managers o = 0 := by
  have hpos : 0 < m.uniques o := by
    rw [← tally_owns?]
    exact tally_pos (pointer_mem_stakes_iff.mpr hu) ho
  have howners := owners_scene m o
  have halive : m.heap.phase? o = some .alive := hs.owned.alive hs.scope (by omega)
  obtain ⟨hle, -⟩ : Phase.alive.Allows _ _ := hs.owned o .alive halive
  exact ⟨halive, by omega, by omega, by omega⟩

theorem promoted_withBlock (hs : Sound m.scene) (hu : .unique u ∈ m.pointers)
    (ho : u.object = some o) : m.Promoted u o (m.heap.withBlock u.kind u.alloc o) := by
  obtain ⟨halive, huniques, hraws, hmanagers⟩ := uniques_of_mem hs hu ho
  constructor
  case objects => exact Heap.objects_withBlock _ _ _ _
  case statics => exact Heap.statics_withBlock _ _ _ _
  case address =>
    exact Heap.addressOf_congr (Heap.objects_withBlock _ _ _ _) (Heap.statics_withBlock _ _ _ _) _
  case alive =>
    rw [Heap.phase?_congr (Heap.objects_withBlock _ _ _ _)]
    exact halive
  case blocks => rfl
  case unused =>
    intro p hp hb
    have := (hs.scope.stakes _ (pointer_mem_stakes_iff.mpr hp)).block hb
    exact Nat.lt_irrefl _ this
  case ledger => exact Heap.ledger_withBlock _ _ _ _
  case owner =>
    refine ⟨huniques, hraws, hmanagers, ?_⟩
    rw [Heap.managers_push rfl, hmanagers, if_pos rfl]
  case metrics => rfl
  case nextId => rfl
  case breaches => exact Heap.breaches_withBlock _ _ _ _
  case log => simp [Heap.withBlock]

theorem call_promote {h : Heap} {v : Unique} {r : Except Layout Strong} (loc : Location)
    (dst : Path) (hp : u.promote h = (h', v, r)) :
    ((Effect.promote loc u dst).call h).1 = h' ∧
      stakesOf ((Effect.promote loc u dst).call h).2 =
        .pointer (.unique v) ::ₘ pointersOf (r.toOption.toList.map .strong) ∧
      ∀ l, r = .error l →
        .answer (.failed (.refused l)) ∈ ((Effect.promote loc u dst).call h).2 := by
  simp only [Effect.promote, Effect.settling, Effect.closing, hp]
  cases r with
  | ok q =>
    refine ⟨rfl, ?_, fun l hl => ?_⟩
    · rw [Settlement.stakesOf_actions]
      rfl
    · cases hl
  | error l =>
    refine ⟨rfl, ?_, fun l' hl => ?_⟩
    · rw [Settlement.stakesOf_actions]
      rfl
    · cases hl
      simp [Settlement.actions_eq]

/-- Machine `m'` is what a program's promotion makes of `m`. The pointer is out of its table, `loc`,
during the call, and is to be put back after it. -/
def Promotes (m m' : Machine) (u : Unique) (loc : Location) : Prop :=
  ∃ v r, u.promote (m.erase loc).heap = (m'.heap, v, r) ∧
    .pointer (.unique u) ::ₘ m'.stakes =
      .pointer (.unique v) ::ₘ (pointersOf (r.toOption.toList.map .strong) + m.stakes) ∧
    ∀ l, r = .error l → .answer (.failed (.refused l)) ∈ m'.env.agenda

/-- What a promotion does to the machine. -/
theorem carryOut_promote {loc : Location} (dst : Path) (hu : m.get? loc = some (.unique u)) :
    m.Promotes (m.carryOut (.promote loc u dst)) u loc := by
  rcases hp : u.promote (m.erase loc).heap with ⟨h', v, r⟩
  obtain ⟨hheap, hheld, hanswer⟩ := call_promote loc dst hp
  have hstored : ((Effect.promote loc u dst).call (m.erase loc).heap).1.stored =
      (m.erase loc).heap.stored := by
    have ho := Unique.objects_promote u (m.erase loc).heap
    rw [hp, ← hheap] at ho
    exact (Heap.SameLinks.of_eq ho).stored
  refine ⟨v, r, hp.trans (congrArg (·, v, r) hheap.symm), ?_, fun l hl => ?_⟩
  · have hstakes : (m.carryOut (.promote loc u dst)).stakes =
        stakesOf ((Effect.promote loc u dst).call (m.erase loc).heap).2 + (m.erase loc).stakes := by
      simp only [carryOut, onHeap, stakes_schedule]
      exact congrArg _ (stakes_of_stored hstored)
    rw [hstakes, hheld, stakes_erase hu]
    simp only [← Multiset.singleton_add]
    abel
  · rw [agenda_carryOut]
    exact List.mem_append_left _ (hanswer l hl)

/-- What the step does that promotes. -/
theorem step_promote {src dst : Path} {loc : Location} {rest : List Action}
    (ha : m.env.agenda = .exec (.promote src dst) :: rest) (hu : m.findUnique src = .ok (loc, u)) :
    m.Promotes m.step u loc := by
  obtain ⟨-, -, -, hstakes⟩ := next?_eq_some (next?_of_agenda ha)
  have hfind : (m.mapEnv fun e => { e with agenda := rest }).findUnique src = .ok (loc, u) := hu
  have herase : ((m.mapEnv fun e => { e with agenda := rest }).erase loc).heap =
      (m.erase loc).heap := by
    obtain ⟨t, name⟩ := loc
    cases t <;> rfl
  have hstep : m.step = (m.mapEnv fun e => { e with agenda := rest }).carryOut
      (.promote loc u dst) := by
    rw [step_eq_perform (next?_of_agenda ha), perform, plan, hfind]
    rfl
  have hcarried := carryOut_promote dst (findUnique_ok hfind)
  rw [Promotes, herase] at hcarried
  rw [Promotes, hstep, hstakes]
  simpa [Action.stakes, Action.slots] using hcarried

/-- What comes of the promotion of unique pointer `u`. -/
structure Promotion (m : Machine) (u : Unique) : Prop where
  null : u.object = none → u.promote m.heap = (m.heap, u, .ok (.null u.kind))
  /-- The strong pointer has the view that the unique pointer had, which is null then. -/
  granted : ∀ o, u.object = some o → (m.heap.ledger u.alloc).isExhausted = false → ∃ h',
    u.promote m.heap =
      (h', .null u.kind u.alloc, .ok ⟨u.kind, some m.heap.blocks.size, u.view⟩) ∧
    m.Promoted u o h'
  /-- Of a refusal there is nothing but that an id is used up, and that it is counted and told of. -/
  refused : ∀ o, u.object = some o → (m.heap.ledger u.alloc).isExhausted = true →
    u.promote m.heap =
      ({ m.heap with
          metrics := m.heap.metrics.recordAllocFailure
          nextId := m.heap.nextId + 1
          log := m.heap.log.push (.refuse u.alloc (.block u.kind.isSized)) },
        u, .error (.block u.kind.isSized))
  /-- After any number of refusals it is as if there had been none. -/
  retried : ∀ o n v h' limits, u.object = some o → u.Refusals m.heap n v h' →
    limits u.alloc ≠ some 0 → v = u ∧ ∃ g g' q,
      u.promote (m.heap.ration limits) = (g, .null u.kind u.alloc, .ok q) ∧
      v.promote (h'.ration limits) = (g', .null u.kind u.alloc, .ok q) ∧
      u.Retried m.heap n g g'
  /-- A program is answered so, and its other pointers stay. -/
  performed : ∀ src dst loc rest, m.env.agenda = .exec (.promote src dst) :: rest →
    m.findUnique src = .ok (loc, u) → m.Promotes m.step u loc

/-- A unique pointer is promoted as a whole or not at all, whatever the allocators refuse. -/
theorem IsRationed.promotion {run : Nat → Machine} {n : Nat} (hr : IsRationed run)
    (limits : Alloc → Option Nat) (hu : .unique u ∈ (run n).pointers) :
    Promotion ((run n).ration limits) u where
  null := Unique.promote_null
  granted o ho hg :=
    ⟨_, Unique.promote_granted ho hg, promoted_withBlock ((hr.sound n).ration limits) hu ho⟩
  refused o ho hrefused := by
    rw [Unique.promote_refused ho hrefused, Heap.refusing_one]
  retried o n v h' limits ho hrefusals hl := ⟨(hrefusals.eq ho).1, hrefusals.retried ho hl⟩
  performed _ _ _ _ := step_promote

/-- A slice in the arena is promoted. -/
def promoting : List Step :=
  [.unique .slice (.list [.int 1]) .arena ⟨false, [], "u"⟩,
    .promote ⟨false, [], "u"⟩ ⟨false, [], "p"⟩]

/-- The block may be refused, twice and more, and may be granted. -/
theorem promotion_promoting :
    let m := moment promoting false 3
    let u : Unique := ⟨.slice, .arena, some 0⟩
    .unique u ∈ m.pointers ∧
      Promotion (m.ration fun _ => some 0) u ∧ Promotion (m.ration fun _ => none) u ∧
      ∃ h', u.Refusals (m.ration fun _ => none).heap 2 u h' := by
  intro m u
  have hu : .unique u ∈ m.pointers := by decide
  refine ⟨hu, IsRationed.promotion (isRationed_moment _ _) _ hu,
    IsRationed.promotion (isRationed_moment _ _) _ hu, ?_⟩
  have hrefused {h : Heap} : ((h.ration fun _ => some 0).ledger u.alloc).isExhausted = true := rfl
  exact ⟨_, .more (fun _ => some 0) (.more (fun _ => some 0) .none
    (Unique.promote_refused rfl hrefused)) (Unique.promote_refused rfl hrefused)⟩

end Machine

end Custody
