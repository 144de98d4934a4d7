import Custody.Proofs.Discarding
import Custody.Proofs.Execution

/-!
# Construction

A construction asks for memory for the value, if it needs any, and then for a block. What is refused
first is the answer, and the value is destroyed.

* `refusedOf?`: the first of some requests that a budget does not cover.
* `Making`: what is to be made, and what is asked for to make it.
* `Heap.Made`, `Heap.Unmade`: what a construction leaves of the heap when all is granted, and when
  something is refused.
* `Machine.Makes`: the steps that construct.
* `Machine.Construction`, `Machine.IsRationed.construction`: a construction by a program. One that
  fails leaves nothing behind, but for what the destructor of the value does.
-/

namespace Custody

/-! ## Requests -/

/-- The first of the requests, made one after another, that the budget does not cover. -/
def refusedOf? (budget : Option Nat) (requests : List Layout) : Option Layout :=
  budget.bind (requests[·]?)

/-- What has no size is in no memory. -/
def Content.requests (c : Content) : List Layout := if c.layout.size = 0 then [] else [c.layout]

theorem refusedOf?_nil (budget : Option Nat) : refusedOf? budget [] = none := by
  cases budget <;> rfl

/-- What is refused first is the first request, or it is refused after that was granted. -/
theorem refusedOf?_cons (l : Ledger) (x : Layout) (xs : List Layout) :
    refusedOf? l.budget (x :: xs) =
      if l.isExhausted then some x else refusedOf? (l.grant x).budget xs := by
  obtain ⟨budget, allocations⟩ := l
  match budget with
  | none => rfl
  | some 0 => rfl
  | some (n + 1) => rfl

/-- What is to be made: a value that is moved in, or a pointer to an object that is there already,
and a block if the object is to be shared. -/
structure Making where
  kind : Kind
  alloc : Alloc
  value : Option Pointee
  shared : Bool

namespace Making

/-- What is asked for, in this order. -/
def requests (c : Making) : List Layout :=
  c.value.toList.flatMap (·.content.requests) ++ if c.shared then [.block c.kind.isSized] else []

/-- The object that the value becomes, in allocation `serial` if in any. -/
def objects (c : Making) (serial : Option Nat) : Array Object :=
  match c.value with
  | some p => #[{ content := p.content, onDrop := p.onDrop, links := .empty, alloc := c.alloc
                  serial, phase := .alive }]
  | none => #[]

/-- The pointer that is made. A block is new. -/
def slot (c : Making) (o : ObjectId) (h : Heap) : Slot :=
  if c.shared then .strong ⟨c.kind, some h.blocks.size, some (.whole o)⟩
  else .unique ⟨c.kind, c.alloc, some o⟩

/-- The memory of allocator `a` that the value is in. -/
def memory (c : Making) (serial : Option Nat) (a : Alloc) : Multiset (Nat × Layout) :=
  match c.value, serial with
  | some p, some n => if c.alloc = a then {(n, p.content.layout)} else 0
  | _, _ => 0

/-- The memory that the value is in is that which its object has. -/
theorem returnsTo_objects {p : Pointee} (c : Making) (serial : Option Nat) (a : Alloc)
    (xs : Array Object) (hv : c.value = some p) :
    (returnsTo a ((xs ++ c.objects serial)[xs.size]?.bind Object.storage?) : Multiset _) =
      c.memory serial a := by
  rw [Array.getElem?_append_right (Nat.le_refl _), Nat.sub_self]
  simp only [objects, memory, hv]
  cases serial with
  | none => rfl
  | some n => by_cases ha : c.alloc = a <;> simp [Object.storage?, returnsTo, ha]

end Making

namespace Heap

variable {h h' : Heap} {p : Pointee} {a : Alloc} {l : Layout} {c : Making} {o : ObjectId}
  {k : Kind} {serial : Option Nat}

/-! ## Values -/

/-- The next request is granted. -/
def granting (a : Alloc) (l : Layout) (h : Heap) : Heap :=
  (h.updateLedger a (·.grant l)).emit (.alloc a ((h.ledger a).allocations.size + 1) l)

/-- A new object, in allocation `serial` if in any. -/
def withObject (p : Pointee) (a : Alloc) (serial : Option Nat) (h : Heap) : Heap :=
  { h with
    objects := h.objects.push { content := p.content, onDrop := p.onDrop, alloc := a, serial } }

/-- The allocation that a value will be in. -/
def nextSerial (p : Pointee) (a : Alloc) (h : Heap) : Option Nat :=
  if p.content.layout.size = 0 then none else some ((h.ledger a).allocations.size + 1)

/-- A value has been moved in, to memory of its own if it needs any. -/
def withValue (p : Pointee) (a : Alloc) (h : Heap) : Heap :=
  let g := if p.content.layout.size = 0 then h else h.granting a p.content.layout
  g.withObject p a (h.nextSerial p a)

/-- The memory for a value has been refused. The value exists all the same. -/
def withoutValue (p : Pointee) (a : Alloc) (h : Heap) : Heap :=
  ((h.emit (.refuse a p.content.layout)).withObject p a none).measure .recordAllocFailure

theorem request_eq_granting (hl : l.size ≠ 0) (hg : (h.ledger a).isExhausted = false) :
    h.request a l = (h.granting a l, some ((h.ledger a).allocations.size + 1)) := by
  simp only [request, hl, ↓reduceIte, hg, Bool.false_eq_true]
  rfl

theorem request_eq_emit (hl : l.size ≠ 0) (hr : (h.ledger a).isExhausted = true) :
    h.request a l = (h.emit (.refuse a l), none) := by
  simp only [request, hl, ↓reduceIte, hr]

theorem construct_eq_withValue
    (hg : ¬ (p.content.layout.size ≠ 0 ∧ (h.ledger a).isExhausted = true)) :
    h.construct p a = (h.withValue p a, h.objects.size, none) := by
  unfold construct withValue nextSerial
  by_cases hl : p.content.layout.size = 0
  · simp only [hl, ↓reduceIte]
    rfl
  · have hg : (h.ledger a).isExhausted = false := by simpa [hl] using hg
    simp only [hl, ↓reduceIte, request_eq_granting hl hg]
    cases a <;> rfl

theorem construct_eq_refuse
    (hr : p.content.layout.size ≠ 0 ∧ (h.ledger a).isExhausted = true) :
    h.construct p a =
      ((h.emit (.refuse a p.content.layout)).withObject p a none, h.objects.size,
        some p.content.layout) := by
  simp only [construct, hr.1, ↓reduceIte, request_eq_emit hr.1 hr.2]
  rfl

/-- What is asked for after the memory for the value is refused as if it were asked for then. -/
theorem refusedOf?_value (rest : List Layout) :
    refusedOf? (h.ledger a).budget (p.content.requests ++ rest) =
      if p.content.layout.size ≠ 0 ∧ (h.ledger a).isExhausted = true then some p.content.layout
      else refusedOf? ((h.withValue p a).ledger a).budget rest := by
  unfold Content.requests withValue
  by_cases hl : p.content.layout.size = 0
  · simp only [hl, ↓reduceIte, List.nil_append, ne_eq, not_true_eq_false, false_and]
    cases a <;> rfl
  · simp only [hl, ↓reduceIte, List.cons_append, List.nil_append, refusedOf?_cons, ne_eq,
      not_false_eq_true, true_and]
    congr 1
    cases a <;> rfl

/-! ## What is left -/

/-- What a construction of `c`, with pointee `o`, makes of heap `h`. -/
structure Made (c : Making) (o : ObjectId) (h h' : Heap) : Prop where
  blocks : ∃ serial, h'.blocks = h.blocks ++ if c.shared then
    #[{ id := h.newId, kind := c.kind, alloc := c.alloc, serial, pointee := some o
        strong := 1, weak := 1, implicitWeak := true, freed := false }] else #[]
  objects : ∃ serial, h'.objects = h.objects ++ c.objects serial
  statics : h'.statics = h.statics
  metrics : h'.metrics = if c.shared then h.metrics.recordBlockAllocated else h.metrics
  breaches : h'.breaches = h.breaches

/-- What a construction of `c` makes of heap `h` if something is refused: no block, and one more
failure. The value is there, and may be in memory. -/
structure Unmade (c : Making) (serial : Option Nat) (h h' : Heap) : Prop where
  blocks : h'.blocks = h.blocks
  objects : h'.objects = h.objects ++ c.objects serial
  outstanding : ∀ a, (h'.ledger a).entries true = (h.ledger a).entries true + c.memory serial a
  returned : ∀ a, (h'.ledger a).entries false = (h.ledger a).entries false
  statics : h'.statics = h.statics
  metrics : h'.metrics = h.metrics.recordAllocFailure
  breaches : h'.breaches = h.breaches

/-- The value of `c`, if there is one to be moved in, has been moved in. -/
structure Moved (c : Making) (serial : Option Nat) (h g : Heap) : Prop where
  blocks : g.blocks = h.blocks
  objects : g.objects = h.objects ++ c.objects serial
  outstanding : ∀ a, (g.ledger a).entries true = (h.ledger a).entries true + c.memory serial a
  returned : ∀ a, (g.ledger a).entries false = (h.ledger a).entries false
  statics : g.statics = h.statics
  metrics : g.metrics = h.metrics
  breaches : g.breaches = h.breaches
  nextId : g.nextId = h.nextId

theorem moved_none (k : Kind) (a : Alloc) (shared : Bool) (h : Heap) :
    h.Moved ⟨k, a, none, shared⟩ none h :=
  ⟨rfl, (Array.append_empty).symm, fun _ => (add_zero _).symm, fun _ => rfl, rfl, rfl, rfl, rfl⟩

theorem ledger_withValue (p : Pointee) (a a' : Alloc) (h : Heap) :
    (h.withValue p a).ledger a' = if p.content.layout.size ≠ 0 ∧ a = a' then
      (h.ledger a').grant p.content.layout else h.ledger a' := by
  unfold withValue
  by_cases hl : p.content.layout.size = 0
  · simp only [hl, ↓reduceIte, ne_eq, not_true_eq_false, false_and]
    cases a' <;> rfl
  · simp only [hl, ↓reduceIte, ne_eq, not_false_eq_true, true_and, granting]
    rw [← ledger_updateLedger]
    cases a' <;> rfl

theorem entries_withValue (p : Pointee) (a a' : Alloc) (h : Heap) (k : Kind) (shared live : Bool) :
    ((h.withValue p a).ledger a').entries live = (h.ledger a').entries live + if live = true then
      (Making.mk k a (some p) shared).memory (h.nextSerial p a) a' else 0 := by
  rw [ledger_withValue]
  unfold nextSerial Making.memory
  by_cases hl : p.content.layout.size = 0
  · cases live <;> simp [hl]
  · by_cases ha : a = a'
    · subst ha
      cases live <;> simp [hl, Ledger.entries_grant]
    · cases live <;> simp [hl, ha]

/-- A value that is moved into place is there, and nothing else has changed. -/
theorem moved_withValue (k : Kind) (p : Pointee) (a : Alloc) (shared : Bool) (h : Heap) :
    h.Moved ⟨k, a, some p, shared⟩ (h.nextSerial p a) (h.withValue p a) := by
  have hobjects : (h.withValue p a).objects = h.objects.push
      { content := p.content, onDrop := p.onDrop, alloc := a, serial := h.nextSerial p a } := by
    unfold withValue
    split
    · rfl
    · cases a <;> rfl
  constructor
  case objects =>
    rw [hobjects, Array.push_eq_append]
    rfl
  case outstanding => exact fun a' => entries_withValue p a a' h k shared true
  case returned => exact fun a' => (entries_withValue p a a' h k shared false).trans (add_zero _)
  all_goals
    unfold withValue
    split
    · rfl
    · cases a <;> rfl

theorem Moved.made {g : Heap} (hg : h.Moved c serial g) (hc : c.shared = false) :
    h.Made c o g where
  blocks := ⟨0, by rw [hg.blocks, hc]; exact Array.append_empty.symm⟩
  objects := ⟨serial, hg.objects⟩
  statics := hg.statics
  metrics := by rw [hg.metrics, hc]; rfl
  breaches := hg.breaches

theorem Moved.withBlock {g : Heap} (hg : h.Moved c serial g) (hc : c.shared = true) :
    h.Made c o (g.withBlock c.kind c.alloc o) where
  blocks := by
    refine ⟨(g.ledger c.alloc).allocations.size + 1, ?_⟩
    have hid : g.newId = h.newId := congrArg (· % UInt64.size) hg.nextId
    rw [hc, ← hg.blocks, ← hid]
    exact Array.push_eq_append
  objects := ⟨serial, (objects_withBlock _ _ _ _).trans hg.objects⟩
  statics := (statics_withBlock _ _ _ _).trans hg.statics
  metrics := by rw [hc, ← hg.metrics]; rfl
  breaches := (breaches_withBlock _ _ _ _).trans hg.breaches

/-- Where the block is refused, the value is there without an owner. -/
theorem Moved.refusing {g : Heap} (hg : h.Moved c serial g) :
    h.Unmade c serial (g.refusing c.kind c.alloc 1) where
  blocks := hg.blocks
  objects := hg.objects
  outstanding a := by
    rw [← hg.outstanding a]
    cases a <;> rfl
  returned a := by
    rw [← hg.returned a]
    cases a <;> rfl
  statics := hg.statics
  metrics := by
    rw [refusing_one, ← hg.metrics]
  breaches := hg.breaches

theorem Made.of_ration {limits : Alloc → Option Nat} (hm : (h.ration limits).Made c o h') :
    h.Made c o h' :=
  ⟨hm.blocks, hm.objects, hm.statics, hm.metrics, hm.breaches⟩

theorem Unmade.of_ration {limits : Alloc → Option Nat}
    (hu : (h.ration limits).Unmade c serial h') : h.Unmade c serial h' where
  blocks := hu.blocks
  objects := hu.objects
  outstanding a := (hu.outstanding a).trans (by rw [entries_ration])
  returned a := (hu.returned a).trans (entries_ration _ _ _ _)
  statics := hu.statics
  metrics := hu.metrics
  breaches := hu.breaches

theorem unmade_withoutValue (k : Kind) (p : Pointee) (a : Alloc) (shared : Bool) (h : Heap) :
    h.Unmade ⟨k, a, some p, shared⟩ none (h.withoutValue p a) where
  blocks := rfl
  objects := Array.push_eq_append
  outstanding a' := by cases a' <;> exact (add_zero _).symm
  returned a' := by cases a' <;> rfl
  statics := rfl
  metrics := rfl
  breaches := rfl

end Heap

/-! ## Calls -/

section Calls

variable {h : Heap} {p : Pointee} {a : Alloc} {k : Kind} {dst : Path}

theorem Unique.construct_eq_withValue
    (hg : ¬ (p.content.layout.size ≠ 0 ∧ (h.ledger a).isExhausted = true)) :
    Unique.construct k p a h = (h.withValue p a, ⟨k, a, some h.objects.size⟩, none) := by
  rw [construct, Heap.construct_eq_withValue hg]
  rfl

theorem Unique.construct_eq_withoutValue
    (hr : p.content.layout.size ≠ 0 ∧ (h.ledger a).isExhausted = true) :
    Unique.construct k p a h =
      (h.withoutValue p a, ⟨k, a, some h.objects.size⟩, some p.content.layout) := by
  rw [construct, Heap.construct_eq_refuse hr]
  rfl

/-- What `e` does at heap `h` if it makes `c`, with pointee `o`. What is made goes to `dst`, and
what is refused first is the answer. -/
structure Effect.Constructs (e : Effect) (c : Making) (o : ObjectId) (dst : Path) (h : Heap) :
    Prop where
  granted : refusedOf? (h.ledger c.alloc).budget c.requests = none → ∃ h', h.Made c o h' ∧
    e.call h = (h', .place (c.slot o h) dst .plain :: Settlement.letGos (e.taken.map (·.table)))
  refused : ∀ l, refusedOf? (h.ledger c.alloc).budget c.requests = some l →
    ∃ h' serial, h.Unmade c serial h' ∧
      e.call h = (h', .drop (.unique ⟨c.kind, c.alloc, some o⟩) :: .answer (.failed (.refused l)) ::
        Settlement.letGos (e.taken.map (·.table)))

theorem ite_some_eq_none {α : Type} {q : Prop} [Decidable q] {x : α} {y : Option α} :
    (if q then some x else y) = none ↔ ¬ q ∧ y = none := by
  split <;> simp [*]

theorem refusedOf?_block (l : Ledger) (x : Layout) :
    refusedOf? l.budget [x] = if l.isExhausted then some x else none := by
  rw [refusedOf?_cons, refusedOf?_nil]

/-- The construction of a strong pointer, with what may be refused of it. -/
theorem constructs_construct (k : Kind) (p : Pointee) (a : Alloc) (dst : Path) (h : Heap) :
    (Effect.construct k p a dst).Constructs ⟨k, a, some p, true⟩ h.objects.size dst h := by
  have hmoved := h.moved_withValue k p a true
  have hrequests : (Making.mk k a (some p) true).requests =
      p.content.requests ++ [.block k.isSized] := by
    simp [Making.requests]
  constructor
  case granted =>
    intro hn
    rw [hrequests, Heap.refusedOf?_value, refusedOf?_block] at hn
    obtain ⟨hvalue, hn⟩ := ite_some_eq_none.mp hn
    have hblock : ((h.withValue p a).ledger a).isExhausted = false := by
      simpa using (ite_some_eq_none.mp hn).1
    have hpromote := Unique.promote_granted (u := ⟨k, a, some h.objects.size⟩) rfl hblock
    refine ⟨_, hmoved.withBlock rfl, ?_⟩
    simp only [Effect.construct, Effect.settling, Effect.closing, Strong.construct,
      Unique.construct_eq_withValue hvalue, hpromote]
    rw [Making.slot, if_pos rfl, ← hmoved.blocks]
    rfl
  case refused =>
    intro l hl
    rw [hrequests, Heap.refusedOf?_value, refusedOf?_block] at hl
    by_cases hvalue : p.content.layout.size ≠ 0 ∧ (h.ledger a).isExhausted = true
    · rw [if_pos hvalue] at hl
      cases hl
      refine ⟨_, none, h.unmade_withoutValue k p a true, ?_⟩
      simp only [Effect.construct, Effect.settling, Effect.closing, Strong.construct,
        Unique.construct_eq_withoutValue hvalue]
      rfl
    · rw [if_neg hvalue] at hl
      obtain ⟨hblock, ⟨⟩⟩ := Option.ite_none_right_eq_some.mp hl
      have hpromote := Unique.promote_refused (u := ⟨k, a, some h.objects.size⟩) rfl hblock
      refine ⟨_, _, hmoved.refusing, ?_⟩
      simp only [Effect.construct, Effect.settling, Effect.closing, Strong.construct,
        Unique.construct_eq_withValue hvalue, hpromote]
      rfl

/-- A value that is copied to where it goes is asked for elsewhere. -/
theorem constructs_constructUnique (p : Pointee) (a : Alloc) (dst : Path) (h : Heap)
    (hk : Effect.isCopied k = false) :
    (Effect.constructUnique k p a dst).Constructs ⟨k, a, some p, false⟩ h.objects.size dst h := by
  have hrequests : (Making.mk k a (some p) false).requests = p.content.requests ++ [] := by
    simp [Making.requests]
  constructor
  case granted =>
    intro hn
    rw [hrequests, Heap.refusedOf?_value] at hn
    have hvalue := (ite_some_eq_none.mp hn).1
    refine ⟨_, (h.moved_withValue k p a false).made rfl, ?_⟩
    simp only [Effect.constructUnique, Effect.settling, Effect.closing, hk, Bool.false_eq_true,
      ↓reduceIte, Unique.construct_eq_withValue hvalue]
    rfl
  case refused =>
    intro l hl
    rw [hrequests, Heap.refusedOf?_value, refusedOf?_nil] at hl
    obtain ⟨hvalue, ⟨⟩⟩ := Option.ite_none_right_eq_some.mp hl
    refine ⟨_, none, h.unmade_withoutValue k p a false, ?_⟩
    simp only [Effect.constructUnique, Effect.settling, Effect.closing, hk, Bool.false_eq_true,
      ↓reduceIte, Unique.construct_eq_withoutValue hvalue]
    rfl

/-- The adoption of a raw pointer, whose block may be refused. -/
theorem constructs_adopt (loc : Location) (r : Raw) (dst : Path) (h : Heap) :
    (Effect.adopt loc r dst).Constructs ⟨r.kind, r.alloc, none, true⟩ r.object dst h := by
  have hmoved := h.moved_none r.kind r.alloc true
  have hrequests : (Making.mk r.kind r.alloc none true).requests = [.block r.kind.isSized] := rfl
  constructor
  case granted =>
    intro hn
    rw [hrequests, refusedOf?_block] at hn
    have hblock : (h.ledger r.alloc).isExhausted = false := by
      simpa using (ite_some_eq_none.mp hn).1
    have hpromote := Unique.promote_granted (u := ⟨r.kind, r.alloc, some r.object⟩) rfl hblock
    refine ⟨_, hmoved.withBlock rfl, ?_⟩
    simp only [Effect.adopt, Effect.settling, Effect.closing, Strong.adopt, hpromote]
    rfl
  case refused =>
    intro l hl
    rw [hrequests, refusedOf?_block] at hl
    obtain ⟨hblock, ⟨⟩⟩ := Option.ite_none_right_eq_some.mp hl
    have hpromote := Unique.promote_refused (u := ⟨r.kind, r.alloc, some r.object⟩) rfl hblock
    refine ⟨_, none, hmoved.refusing, ?_⟩
    simp only [Effect.adopt, Effect.settling, Effect.closing, Strong.adopt, hpromote]
    rfl

end Calls

namespace Machine

variable {m : Machine} {c : Making} {o : ObjectId} {taken : List Location} {dst : Path} {s : Step}
  {rest : List Action}

/-- Step `s` makes `c`, with pointee `o`, of what is taken from the tables. -/
inductive Makes (m : Machine) : Step → Making → ObjectId → List Location → Path → Prop
  | shared {kind value a dst p} (hp : pointee kind value = .ok p) :
      Makes m (.new kind value a dst) ⟨kind, a, some p, true⟩ m.heap.objects.size [] dst
  | unique {kind value a dst p} (hp : pointee kind value = .ok p)
      (hk : Effect.isCopied kind = false) :
      Makes m (.unique kind value a dst) ⟨kind, a, some p, false⟩ m.heap.objects.size [] dst
  | adopted {src how dst loc r} (hfind : m.findRaw src = .ok (loc, r))
      (hhow : how = .sharedIn ∨ how = .shared ∧ r.alloc = .global) :
      Makes m (.adopt src how dst) ⟨r.kind, r.alloc, none, true⟩ r.object [loc] dst

/-- Every step that constructs has an effect that does. -/
theorem Makes.plan (hm : m.Makes s c o taken dst) : ∃ e, m.plan s = .ok e ∧ e.taken = taken ∧
    e.Constructs c o dst (m.takeOut taken).heap := by
  cases hm with
  | shared hp =>
    exact ⟨_, by rw [Machine.plan, hp]; rfl, rfl, constructs_construct _ _ _ _ _⟩
  | unique hp hk =>
    exact ⟨_, by rw [Machine.plan, hp]; rfl, rfl, constructs_constructUnique _ _ _ _ hk⟩
  | @adopted src how dst loc r hfind hhow =>
    refine ⟨.adopt loc r dst, ?_, rfl, constructs_adopt _ _ _ _⟩
    rw [Machine.plan, planAdopt, hfind]
    rcases hhow with rfl | ⟨rfl, hglobal⟩
    · rfl
    · exact if_pos hglobal

/-- What the allocators grant is nothing to a step before it is done. -/
theorem Makes.ration (hm : m.Makes s c o taken dst) (limits : Alloc → Option Nat) :
    (m.ration limits).Makes s c o taken dst := by
  cases hm with
  | shared hp => exact .shared hp
  | unique hp hk => exact .unique hp hk
  | adopted hfind hhow => exact .adopted hfind hhow

theorem Makes.object_eq {p : Pointee} (hm : m.Makes s c o taken dst) (hp : c.value = some p) :
    o = m.heap.objects.size ∧ taken = [] := by
  cases hm with
  | shared => exact ⟨rfl, rfl⟩
  | unique => exact ⟨rfl, rfl⟩
  | adopted => cases hp

/-- What is left when the pointee has no destructor to speak of: it is gone, and in no memory. For
the rest everything is as it was, but that a failure was counted. -/
structure Restored (c : Making) (o : ObjectId) (serial : Option Nat) (m m' : Machine)
    (as : List Action) : Prop where
  blocks : m'.heap.blocks = m.heap.blocks
  objects : m'.heap.objects = (m.heap.objects ++ c.objects serial).modify o fun x =>
    { x with phase := .gone, onDrop := [] }
  /-- A pointee that was there already was in memory. -/
  outstanding : ∀ a, (m'.heap.ledger a).entries true +
    (if c.value.isSome then [] else
      returnsTo a (m.heap.objects[o]?.bind Object.storage?) : List _) =
        (m.heap.ledger a).entries true
  statics : m'.heap.statics = m.heap.statics
  metrics : m'.heap.metrics = m.heap.metrics.recordAllocFailure
  breaches : m'.heap.breaches = m.heap.breaches
  env : m'.env = { m.env with agenda := as }

/-- At moment `n`, `c` is to be made, with pointee `o`. The allocators grant as many requests then
as `limits` says. -/
structure Construction (run : Nat → Machine) (n : Nat) (limits : Alloc → Option Nat) (c : Making)
    (o : ObjectId) (taken : List Location) (dst : Path) (rest : List Action) : Prop where
  /-- All requests are granted. No pointer is on the new block yet. -/
  granted : refusedOf? (limits c.alloc) c.requests = none →
    ((run n).takeOut taken).heap.Made c o (run (n + 1)).heap ∧
    (run (n + 1)).env = { ((run n).takeOut taken).env with
      agenda := .place (c.slot o (run n).heap) dst .plain ::
        (Settlement.letGos (taken.map (·.table)) ++ rest) } ∧
    ∀ x ∈ (run n).pointers, x.block? ≠ some (run n).heap.blocks.size
  /-- The first request that is refused is the answer. Before it is given, the pointee is destroyed
  once, by a destructor that starts at moment `n + 1` and is over after moment `j`. -/
  refused : ∀ l, refusedOf? (limits c.alloc) c.requests = some l → ∃ serial j,
    let answers := .answer (.failed (.refused l)) ::
      (Settlement.letGos (taken.map (·.table)) ++ rest)
    ((run n).takeOut taken).heap.Unmade c serial (run (n + 1)).heap ∧
    (run (n + 1)).env = { ((run n).takeOut taken).env with
      agenda := .drop (.unique ⟨c.kind, c.alloc, some o⟩) :: answers } ∧
    (run (n + 1)).heap.allocOf? o = some c.alloc ∧
    Discards run (n + 1) o answers j ∧
    ((run (n + 1)).heap.stepsOf o = [] → (run (n + 1)).heap.linksOf o = .empty →
      Restored c o serial ((run n).takeOut taken) (run (j + 1)) answers)

/-- After a refusal the value is dropped, and nothing else of the heap has changed but what its
destructor does. -/
theorem IsRationed.restored {run : Nat → Machine} {n j : Nat} {as : List Action}
    {serial : Option Nat} (hr : IsRationed run) (hm : (run n).Makes s c o taken dst)
    (hu : ((run n).takeOut taken).heap.Unmade c serial (run (n + 1)).heap)
    (henv : (run (n + 1)).env = { ((run n).takeOut taken).env with
      agenda := .drop (.unique ⟨c.kind, c.alloc, some o⟩) :: as })
    (hd : Discards run (n + 1) o as j) (hsteps : (run (n + 1)).heap.stepsOf o = [])
    (hlinks : (run (n + 1)).heap.linksOf o = .empty) :
    Restored c o serial ((run n).takeOut taken) (run (j + 1)) as := by
  obtain ⟨halters, hreturned, henv'⟩ := hr.quiet hd hsteps hlinks
  constructor
  case blocks => exact halters.blocks.trans hu.blocks
  case objects => rw [halters.objects, hu.objects]
  case outstanding =>
    intro a
    have hreturned := hreturned a
    rw [hu.outstanding a, hu.objects] at hreturned
    cases hv : c.value with
    | none => simpa [Making.objects, Making.memory, hv] using hreturned
    | some p =>
      obtain ⟨rfl, rfl⟩ := hm.object_eq hv
      have hmemory := c.returnsTo_objects serial a (run n).heap.objects hv
      rw [takeOut_nil, hmemory] at hreturned
      exact (add_zero _).trans (add_right_cancel hreturned)
  case statics => exact halters.statics.trans hu.statics
  case metrics => exact halters.metrics.trans hu.metrics
  case breaches => exact halters.breaches.trans hu.breaches
  case env => rw [henv', henv]

theorem IsRationed.construction {run : Nat → Machine} {n : Nat} {limits : Alloc → Option Nat}
    (hr : IsRationed run) (hnext : run (n + 1) = ((run n).ration limits).step)
    (ha : (run n).env.agenda = .exec s :: rest) (hm : (run n).Makes s c o taken dst) :
    Construction run n limits c o taken dst rest := by
  obtain ⟨e, hplan, rfl, hconstructs⟩ := (hm.ration limits).plan
  have hstep := step_exec (m := (run n).ration limits) ha hplan
  rw [← hnext, takeOut_ration] at hstep
  rw [takeOut_ration] at hconstructs
  have hbudget : ((((run n).takeOut e.taken).heap.ration limits).ledger c.alloc).budget =
      limits c.alloc := by
    cases c.alloc <;> rfl
  have hslot : c.slot o (((run n).takeOut e.taken).heap.ration limits) = c.slot o (run n).heap := by
    have hblocks : (((run n).takeOut e.taken).heap.ration limits).blocks = (run n).heap.blocks :=
      blocks_takeOut e.taken
    rw [Making.slot, hblocks, Making.slot]
  constructor
  case granted =>
    intro hn
    obtain ⟨h', hmade, hcall⟩ := hconstructs.granted (hbudget ▸ hn)
    have hcall : e.call (((run n).takeOut e.taken).ration limits).heap = _ := hcall
    rw [hcall] at hstep
    refine ⟨hstep ▸ hmade.of_ration, ?_, fun x hx hb => ?_⟩
    · rw [hstep, ← hslot]
      rfl
    · have hlt := ((hr.grounded n).scope.stakes _ (pointer_mem_stakes_iff.mpr hx)).block hb
      exact Nat.lt_irrefl _ hlt
  case refused =>
    intro l hl
    obtain ⟨h', serial, hunmade, hcall⟩ := hconstructs.refused l (hbudget ▸ hl)
    have hcall : e.call (((run n).takeOut e.taken).ration limits).heap = _ := hcall
    rw [hcall] at hstep
    have hunmade : ((run n).takeOut e.taken).heap.Unmade c serial (run (n + 1)).heap :=
      hstep ▸ hunmade.of_ration
    have henv : (run (n + 1)).env = { ((run n).takeOut e.taken).env with
        agenda := .drop (.unique ⟨c.kind, c.alloc, some o⟩) :: .answer (.failed (.refused l)) ::
          (Settlement.letGos (e.taken.map (·.table)) ++ rest) } := by
      rw [hstep]
      rfl
    obtain ⟨j, hd⟩ := hr.discards (i := n + 1) (by rw [henv])
    have hmem : .pointer (.unique ⟨c.kind, c.alloc, some o⟩) ∈ (run (n + 1)).stakes := by
      refine pointer_mem_stakes_iff.mpr (List.mem_append_right _ ?_)
      rw [henv]
      exact List.mem_cons_self
    have halloc := (hr.allotted (n + 1)).pointers _ o c.alloc hmem rfl
    exact ⟨serial, j, hunmade, henv, halloc, hd, hr.restored hm hunmade henv hd⟩

/-- There is memory for a node, but none for its block. Its destructor is refused memory in turn. -/
def ruined : List Step :=
  [.budget (some 1),
    .new .node (.node ⟨1, 0, .ofString "", []⟩ [.new .int (.int 5) .arena ⟨false, [], "b"⟩]) .arena
      ⟨false, [], "a"⟩]

theorem construction_ruined :
    let m := moment ruined false 3
    let limits := fun a => (m.heap.ledger a).budget
    ∃ c : Making, refusedOf? (limits c.alloc) c.requests = some (.block c.kind.isSized) ∧
      m.Makes (.new .node (.node ⟨1, 0, .ofString "", []⟩
        [.new .int (.int 5) .arena ⟨false, [], "b"⟩]) .arena ⟨false, [], "a"⟩) c 0 []
        ⟨false, [], "a"⟩ ∧
      Construction (moment ruined false) 3 limits c 0 [] ⟨false, [], "a"⟩ [.record, .clear] := by
  intro m limits
  have hm : m.Makes (.new .node (.node ⟨1, 0, .ofString "", []⟩
      [.new .int (.int 5) .arena ⟨false, [], "b"⟩]) .arena ⟨false, [], "a"⟩) _ 0 []
      ⟨false, [], "a"⟩ := .shared rfl
  exact ⟨_, rfl, hm, IsRationed.construction (isRationed_moment _ _)
    (by rw [ration_budgets, moment_succ]) rfl hm⟩

end Machine

end Custody
