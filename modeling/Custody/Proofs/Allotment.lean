import Custody.Proofs.Calls

/-!
# What memory an object is in

* `Object.Lasts`: the allocator, the allocation, the kind and the layout of an object never change.
* `Allotted`: the pointers and blocks that answer for an object name the allocator that it is made
  with. Changes, losses and shifts keep it.
* `Machine.IsRationed.abandoned`, `Machine.IsRationed.homeless`: an object that needs memory and has
  none was refused it, and its destructor started at once.
-/

namespace Custody

variable {Y : Option Place}

/-- The second object is the first at a later moment, as far as its memory and its kind go. -/
structure Object.Lasts (x y : Object) : Prop where
  alloc : y.alloc = x.alloc
  serial : y.serial = x.serial
  kind : y.content.kind = x.content.kind
  layout : y.content.layout = x.content.layout

theorem Object.Lasts.refl (x : Object) : x.Lasts x := ⟨rfl, rfl, rfl, rfl⟩

theorem Object.Lasts.trans {x y z : Object} (h : x.Lasts y) (h' : y.Lasts z) : x.Lasts z :=
  ⟨h'.alloc.trans h.alloc, h'.serial.trans h.serial, h'.kind.trans h.kind,
    h'.layout.trans h.layout⟩

/-- All objects of the first heap are in the second one, in the memory that they were in. -/
def Heap.Lasts (h h' : Heap) : Prop :=
  ∀ (o : ObjectId) (x : Object), h.objects[o]? = some x → ∃ y, h'.objects[o]? = some y ∧ x.Lasts y

namespace Heap.Lasts

variable {h h' h'' : Heap} {o : ObjectId} {x : Object} {f : Object → Object}

theorem of_eq (ho : h'.objects = h.objects) : h.Lasts h' :=
  fun o x hx => ⟨x, by rwa [ho], .refl x⟩

theorem trans (h₁ : h.Lasts h') (h₂ : h'.Lasts h'') : h.Lasts h'' := by
  intro o x hx
  obtain ⟨y, hy, hxy⟩ := h₁ o x hx
  obtain ⟨z, hz, hyz⟩ := h₂ o y hy
  exact ⟨z, hz, hxy.trans hyz⟩

theorem modify (ho : h'.objects = h.objects.modify o f)
    (hf : ∀ x, h.objects[o]? = some x → x.Lasts (f x)) : h.Lasts h' := by
  intro o' x hx
  rw [ho, Array.getElem?_modify]
  split
  · next heq =>
    subst heq
    exact ⟨f x, by rw [hx]; rfl, hf x hx⟩
  · exact ⟨x, hx, .refl x⟩

theorem push (ho : h'.objects = h.objects.push x) : h.Lasts h' := by
  intro o y hy
  obtain ⟨hlt, -⟩ := Array.getElem?_eq_some_iff.mp hy
  exact ⟨y, by rw [ho, Array.getElem?_push, if_neg (Nat.ne_of_lt hlt), hy], .refl y⟩

end Heap.Lasts

section

variable {h h' : Heap} {K : Multiset Stake} {k : Stake}

/-- No change moves an object to other memory, or makes it of another kind. -/
theorem Change.lasts {s t : Scene} (hc : Change Y s t) : s.1.Lasts t.1 := by
  cases hc with
  | null | copy | forget | revise | release | adopt | setBudget | resetMetrics | remark =>
    exact .of_eq rfl
  | share | observe | lock | refuseLock => exact .of_eq (by simp)
  | construct _ hc =>
    obtain ⟨h₁, o, hc₁, -, rfl⟩ := Unique.construct_eq hc
    obtain ⟨-, -, serial, ho, -⟩ := Heap.construct_eq hc₁
    exact .push ho
  | copyIn _ hc =>
    obtain ⟨-, -, serial, ho, -⟩ := Heap.construct_eq hc
    exact .push ho
  | promote hc => exact .of_eq (Heap.createBlock_ok hc).2.1
  | refuseBlock _ hc => exact .of_eq (Heap.createBlock_error hc).2.1
  | @write h K x p c value _ _ hc =>
    cases hp : p.origin with
    | static s => exact .of_eq (Heap.objects_write_static hp c)
    | object o =>
      refine .modify (Heap.objects_write_object hp c) fun y hy => ?_
      obtain ⟨hkind, hlayout⟩ := layout_written hc hp hy
      exact ⟨rfl, rfl, hkind, hlayout⟩

theorem Loss.lasts {t : Scene} (hl : Loss h K k t) : h.Lasts t.1 := by
  cases hl with
  | free | leak => exact .of_eq rfl
  | release | disposeNothing | unobserve | giveUp => exact .of_eq (by simp)
  | dispose =>
    refine .trans (.of_eq ?_) (.modify Heap.objects_beginDestruction fun _ _ => ⟨rfl, rfl, rfl, rfl⟩)
    simp
  | destroy => exact .modify Heap.objects_beginDestruction fun _ _ => ⟨rfl, rfl, rfl, rfl⟩
  | reclaim => exact .modify Heap.objects_endDestruction fun _ _ => ⟨rfl, rfl, rfl, rfl⟩

theorem Shift.lasts {s t : Scene} (hc : Shift Y s t) : s.1.Lasts t.1 := by
  cases hc with
  | change hc => exact hc.lasts
  | @relink h K o t =>
    exact .modify (f := fun x => { x with links := t }) rfl fun _ _ => ⟨rfl, rfl, rfl, rfl⟩

theorem Machine.Grounded.step_lasts {m : Machine} (hm : m.Grounded) :
    m.heap.Lasts m.step.heap := by
  have hshifts {s t : Scene} (hc : Shifts m.yield? s t) : s.1.Lasts t.1 := by
    induction hc with
    | refl => exact .of_eq rfl
    | tail _ hc ih => exact ih.trans hc.lasts
  rcases hm.step_cases with ⟨-, hst⟩ | ⟨k, K, s, -, -, hl, hst⟩
  · exact hshifts hst
  · exact hl.lasts.trans (hshifts hst)

/-! ## Owners name the allocator -/

/-- The object that the pointer answers for, and the allocator that it says the object is of. -/
def Slot.holds? : Slot → Option (ObjectId × Alloc)
  | unique u => u.object.map fun o => (o, u.alloc)
  | raw r => some (r.object, r.alloc)
  | _ => none

/-- The allocator that an object is of. -/
def Heap.allocOf? (h : Heap) (o : ObjectId) : Option Alloc := h.objects[o]?.map (·.alloc)

/-- Whatever answers for an object names the allocator that the object is made with. -/
structure Allotted (s : Scene) : Prop where
  pointers : ∀ x o a, .pointer x ∈ s.2 → x.holds? = some (o, a) → s.1.allocOf? o = some a
  blocks : ∀ (b : BlockId) (x : Block) (o : ObjectId),
    s.1.blocks[b]? = some x → x.pointee = some o → s.1.allocOf? o = some x.alloc

theorem Heap.Lasts.allocOf? {o : ObjectId} {a : Alloc} (hl : h.Lasts h')
    (ho : h.allocOf? o = some a) : h'.allocOf? o = some a := by
  obtain ⟨x, hx, rfl⟩ := Option.map_eq_some_iff.mp ho
  obtain ⟨y, hy, hxy⟩ := hl o x hx
  exact Option.map_eq_some_iff.mpr ⟨y, hy, hxy.alloc⟩

/-- A block of the second heap has a pointee that it had in the first one. -/
def Heap.KeepsPointees (h h' : Heap) : Prop :=
  ∀ (b : BlockId) (y : Block) (o : ObjectId), h'.blocks[b]? = some y → y.pointee = some o →
    ∃ x, h.blocks[b]? = some x ∧ x.pointee = some o ∧ x.alloc = y.alloc

theorem Heap.KeepsPointees.of_eq (hb : h'.blocks = h.blocks) : h.KeepsPointees h' :=
  fun b y o hy ho => ⟨y, by rwa [← hb], ho, rfl⟩

theorem Heap.KeepsPointees.modify {b : BlockId} {f : Block → Block}
    (hb : h'.blocks = h.blocks.modify b f)
    (hf : ∀ x o, (f x).pointee = some o → x.pointee = some o ∧ x.alloc = (f x).alloc) :
    h.KeepsPointees h' := by
  intro b' y o hy ho
  rw [hb, Array.getElem?_modify] at hy
  split at hy
  · next heq =>
    subst heq
    obtain ⟨x, hx, rfl⟩ := Option.map_eq_some_iff.mp hy
    exact ⟨x, hx, hf x o ho⟩
  · exact ⟨y, hy, ho, rfl⟩

theorem Allotted.next (hs : Allotted (h, K)) (hl : h.Lasts h') (hb : h.KeepsPointees h') :
    Allotted (h', K) where
  pointers x o a hx ho := hl.allocOf? (hs.pointers x o a hx ho)
  blocks b y o hy ho := by
    obtain ⟨x, hx, hxo, ha⟩ := hb b y o hy ho
    exact ha ▸ hl.allocOf? (hs.blocks b x o hx hxo)

theorem Allotted.tail (hs : Allotted (h, k ::ₘ K)) : Allotted (h, K) where
  pointers x o a hx ho := hs.pointers x o a (Multiset.mem_cons_of_mem hx) ho
  blocks := hs.blocks

theorem Allotted.cons {x : Slot} (hs : Allotted (h, K))
    (hx : ∀ o a, x.holds? = some (o, a) → h.allocOf? o = some a) :
    Allotted (h, .pointer x ::ₘ K) where
  pointers y o a hy ho := by
    rcases Multiset.mem_cons.mp hy with hy | hy
    · cases hy
      exact hx o a ho
    · exact hs.pointers y o a hy ho
  blocks := hs.blocks

theorem Allotted.due (hs : Allotted (h, K)) (hk : ∀ x, k ≠ .pointer x) :
    Allotted (h, k ::ₘ K) where
  pointers y o a hy ho := by
    rcases Multiset.mem_cons.mp hy with hy | hy
    · exact absurd hy.symm (hk y)
    · exact hs.pointers y o a hy ho
  blocks := hs.blocks

/-- A pointer that owns nothing answers for nothing. -/
theorem Slot.holds?_eq_none {x : Slot} (howns : x.owns? = none) (hraw : x.rawOf? = none) :
    x.holds? = none := by
  cases x with
  | unique u =>
    have hu : u.object = none := howns
    simp [holds?, hu]
  | raw r => cases hraw
  | strong | weak => rfl

theorem Allotted.cons_of_none {x : Slot} (hs : Allotted (h, K)) (hx : x.holds? = none) :
    Allotted (h, .pointer x ::ₘ K) :=
  hs.cons fun o a ho => by rw [hx] at ho; cases ho

theorem allocOf?_push {o : ObjectId} {x : Object} (ho : h'.objects = h.objects.push x)
    (hlast : o = h.objects.size) : h'.allocOf? o = some x.alloc := by
  rw [Heap.allocOf?, ho, hlast, Array.getElem?_push_size]
  rfl

/-- Whatever answers for an object after a change names its allocator. -/
theorem Change.allotted {s t : Scene} (hc : Change Y s t) (hs : Allotted s) : Allotted t := by
  have hl := hc.lasts
  cases hc with
  | null hx => exact hs.cons_of_none (Slot.holds?_eq_none hx.owns hx.raw)
  | copy _ hy => exact hs.cons_of_none (Slot.holds?_eq_none hy.owns hy.raw)
  | forget => exact hs.tail
  | revise hy => exact hs.tail.cons_of_none (Slot.holds?_eq_none hy.unowning hy.unleading)
  | share =>
    exact (hs.next hl (.modify Heap.blocks_addStrong fun _ _ ho => ⟨ho, rfl⟩)).cons_of_none rfl
  | observe =>
    exact (hs.next hl (.modify Heap.blocks_addWeak fun _ _ ho => ⟨ho, rfl⟩)).cons_of_none rfl
  | lock _ _ alive =>
    have hb := Heap.blocks_addStrongIfAlive alive
    exact (hs.next hl (.modify hb fun _ _ ho => ⟨ho, rfl⟩)).cons_of_none rfl
  | refuseLock => exact hs.next hl (.of_eq (by simp))
  | construct _ hc =>
    obtain ⟨h₁, o, hc₁, rfl, rfl⟩ := Unique.construct_eq hc
    obtain ⟨ho, hb, serial, hobjects, -⟩ := Heap.construct_eq hc₁
    refine (hs.next hl (.of_eq hb)).cons fun o' a' ho' => ?_
    cases ho'
    exact allocOf?_push hobjects ho
  | copyIn _ hc =>
    obtain ⟨ho, hb, serial, hobjects, -⟩ := Heap.construct_eq hc
    refine (hs.next hl (.of_eq hb)).cons fun o' a' ho' => ?_
    cases ho'
    exact allocOf?_push hobjects ho
  | release | adopt =>
    refine hs.tail.cons fun o' a' ho' => ?_
    cases ho'
    exact hs.pointers _ _ _ (Multiset.mem_cons_self _ _) rfl
  | @promote h K k a o h' b hc =>
    obtain ⟨-, ho, n, -, hb, -⟩ := Heap.createBlock_ok hc
    have hold : h.allocOf? o = some a := hs.pointers _ o a (Multiset.mem_cons_self _ _) rfl
    refine Allotted.cons_of_none ⟨fun x o' a' hx ho' => ?_, fun b' y o' hy ho' => ?_⟩ rfl
    · exact hl.allocOf? (hs.tail.pointers x o' a' hx ho')
    · rw [hb, Array.getElem?_push] at hy
      split at hy
      · cases hy
        cases ho'
        exact hl.allocOf? hold
      · exact hl.allocOf? (hs.blocks b' y o' hy ho')
  | refuseBlock _ hc => exact hs.next hl (.of_eq (Heap.createBlock_error hc).2.2.1)
  | write => exact hs.next hl (.of_eq (by simp))
  | setBudget | resetMetrics | remark => exact hs.next hl (.of_eq rfl)

/-- So does whatever answers for it after a loss. -/
theorem Loss.allotted {t : Scene} (hl : Loss h K k t) (hs : Allotted (h, k ::ₘ K)) :
    Allotted t := by
  have hlasts := hl.lasts
  have htake {b : BlockId} : h.KeepsPointees ((h.releaseStrong b).1.takePointee b).1 :=
    .modify Heap.blocks_takePointee_releaseStrong nofun
  cases hl with
  | free | leak => exact hs.tail
  | release => exact hs.tail.next hlasts (.modify Heap.blocks_releaseStrong fun _ _ ho => ⟨ho, rfl⟩)
  | dispose =>
    refine Allotted.due (k := .destruction _) (Allotted.due (k := .disposal _) ?_ nofun) nofun
    refine hs.tail.next hlasts fun b y o hy ho => ?_
    exact htake b y o (by rwa [← Heap.blocks_beginDestruction]) ho
  | disposeNothing => exact (hs.tail.next hlasts htake).due nofun
  | unobserve => exact hs.tail.next hlasts (.modify Heap.blocks_releaseWeak fun _ _ ho => ⟨ho, rfl⟩)
  | destroy => exact (hs.tail.next hlasts (.of_eq (by simp))).due nofun
  | reclaim => exact hs.tail.next hlasts (.of_eq (by simp))
  | giveUp => exact hs.tail.next hlasts (.modify Heap.blocks_giveUpImplicit fun _ _ ho => ⟨ho, rfl⟩)

theorem Shift.allotted {s t : Scene} (hc : Shift Y s t) (hs : Allotted s) : Allotted t := by
  have hl := hc.lasts
  cases hc with
  | change hc => exact hc.allotted hs
  | relink => exact hs.next hl (.of_eq rfl)

end

/-! ## New objects -/

section

variable {h h' : Heap} {a : Alloc} {o : ObjectId}

/-- The object is in the memory that it needs. -/
def Object.IsHoused (x : Object) : Prop := x.serial = none → x.content.layout.size = 0

/-- If the new object is not in memory, the refusal is reported. -/
theorem Heap.construct_refused {p : Pointee} {r : Option Layout}
    (hc : h.construct p a = (h', o, r)) :
    o = h.objects.size ∧ ∃ x, h'.objects = h.objects.push x ∧ (r = none → x.IsHoused) := by
  simp only [construct] at hc
  split at hc
  · next hl =>
    cases hc
    exact ⟨rfl, _, rfl, fun _ _ => hl⟩
  · cases hc
    refine ⟨by simp [addObject], _, by simp only [addObject, objects_request]; rfl,
      fun hr hnone => ?_⟩
    dsimp only at hnone
    rw [hnone] at hr
    cases hr

theorem Unique.construct_refused {k : Kind} {p : Pointee} {u : Unique} {r : Option Layout}
    (hc : Unique.construct k p a h = (h', u, r)) :
    u.object = some h.objects.size ∧
      ∃ x, h'.objects = h.objects.push x ∧ (r = none → x.IsHoused) := by
  obtain ⟨h₁, o, hc₁, rfl, rfl⟩ := Unique.construct_eq hc
  obtain ⟨rfl, x, hx, hr⟩ := Heap.construct_refused hc₁
  exact ⟨rfl, x, hx, hr⟩

/-- A construction makes one object, which has the memory that it needs or is left over. -/
theorem Strong.construct_refused (k : Kind) (p : Pointee) (a : Alloc) (h : Heap) :
    ∃ x, (Strong.construct k p a h).1.objects = h.objects.push x ∧
      (x.IsHoused ∨ ∃ l u, (Strong.construct k p a h).2 = (.error l, [u]) ∧
        u.object = some h.objects.size) := by
  rcases hc : Unique.construct k p a h with ⟨h₁, u, r⟩
  obtain ⟨hu, x, hx, hr⟩ := Unique.construct_refused hc
  simp only [Strong.construct, hc]
  cases r with
  | some l => exact ⟨x, hx, .inr ⟨l, u, rfl, hu⟩⟩
  | none =>
    have hp := Unique.objects_promote u h₁
    refine ⟨x, ?_, .inl (hr rfl)⟩
    dsimp only
    rcases hq : u.promote h₁ with ⟨h₂, v, _ | s⟩
    all_goals
      rw [hq] at hp
      exact hp.trans hx

/-- What comes of a heap and the actions that follow: no new object, or one that is in the memory
that it needs or is dropped at once. -/
def Houses (h : Heap) (r : Heap × List Action) : Prop :=
  r.1.objects.size = h.objects.size ∨ ∃ x, r.1.objects = h.objects.push x ∧
    (x.IsHoused ∨ ∃ u as, r.2 = .drop (.unique u) :: as ∧ u.object = some h.objects.size)

namespace Effect

variable {taken : List Location} {call : Heap → Heap × Settlement}

theorem houses_of_eq {r : Heap × List Action} (ho : r.1.objects = h.objects) : Houses h r :=
  .inl (congrArg Array.size ho)

theorem houses_settling {x : Object} (hx : (call h).1.objects = h.objects.push x)
    (hhoused : x.IsHoused ∨
      ∃ u us, (call h).2.surplus = .unique u :: us ∧ u.object = some h.objects.size) :
    Houses h ((settling taken call).call h) := by
  refine .inr ⟨x, hx, hhoused.imp_right ?_⟩
  rintro ⟨u, us, hs, hu⟩
  have hactions : ((settling taken call).call h).2 = (call h).2.actions (taken.map (·.table)) := rfl
  rw [hactions, Settlement.actions, hs]
  exact ⟨u, _, rfl, hu⟩

theorem houses_construct {kind : Kind} {p : Pointee} {dst : Path} :
    Houses h ((construct kind p a dst).call h) := by
  obtain ⟨x, hx, hr⟩ := Strong.construct_refused kind p a h
  rcases hc : Strong.construct kind p a h with ⟨h', r, surplus⟩
  rw [hc] at hx hr
  refine houses_settling (x := x) ?_ (hr.imp_right ?_)
  · rw [hc]
    cases r <;> exact hx
  · rintro ⟨l, u, heq, hu⟩
    cases heq
    rw [hc]
    exact ⟨u, [], rfl, hu⟩

theorem houses_resetWith {loc : Location} {p : Strong} {v : Pointee} :
    Houses h ((resetWith loc p v).call h) := by
  obtain ⟨x, hx, hr⟩ := Strong.construct_refused p.kind v .global h
  rcases hc : Strong.construct p.kind v .global h with ⟨h', r, surplus⟩
  rw [hc] at hx hr
  refine houses_settling (x := x) ?_ (hr.imp_right ?_)
  · rw [hc]
    cases r <;> exact hx
  · rintro ⟨l, u, heq, hu⟩
    cases heq
    rw [hc]
    exact ⟨u, [], rfl, hu⟩

theorem houses_constructUnique {kind : Kind} {p : Pointee} {dst : Path} :
    Houses h ((constructUnique kind p a dst).call h) := by
  unfold constructUnique
  cases hcopied : isCopied kind with
  | true =>
    rcases hc : h.construct p a with ⟨h', o, r⟩
    obtain ⟨rfl, x, hx, hr⟩ := Heap.construct_refused hc
    refine houses_settling (x := x) ?_ ?_
    all_goals
      rw [if_pos rfl, hc]
      cases r
    · exact hx
    · exact hx
    · exact .inl (hr rfl)
    · exact .inr ⟨_, [], rfl, rfl⟩
  | false =>
    rcases hc : Unique.construct kind p a h with ⟨h', u, r⟩
    obtain ⟨hu, x, hx, hr⟩ := Unique.construct_refused hc
    refine houses_settling (x := x) ?_ ?_
    all_goals
      rw [if_neg (by simp), hc]
      cases r
    · exact hx
    · exact hx
    · exact .inl (hr rfl)
    · exact .inr ⟨u, [], rfl, hu⟩

theorem houses_constructRaw {kind : Kind} {p : Pointee} {dst : Path} :
    Houses h ((constructRaw kind p dst).call h) := by
  rcases hc : Unique.construct kind p .global h with ⟨h', u, r⟩
  obtain ⟨hu, x, hx, hr⟩ := Unique.construct_refused hc
  refine houses_settling (x := x) ?_ ?_
  all_goals
    rw [hc]
    cases r
  · exact hx
  · exact hx
  · exact .inl (hr rfl)
  · exact .inr ⟨u, [], rfl, hu⟩

end Effect

namespace Machine

variable {m : Machine} {s : Step} {e : Effect}

/-- What a step makes has memory of its own, or is left over to be dropped. -/
theorem Planned.houses (hp : m.Planned s e) (h : Heap) : Houses h (e.call h) := by
  have hpromote {u v : Unique} {h' : Heap} {r : Except Layout Strong}
      (hq : u.promote h = (h', v, r)) : h'.objects = h.objects := by
    rw [← Unique.objects_promote u h, hq]
  have hadopt {r : Raw} {h' : Heap} {q : Except Layout Strong} {us : List Unique}
      (hq : Strong.adopt r h = (h', q, us)) : h'.objects = h.objects := by
    rw [← Strong.objects_adopt r h, hq]
  have hlock {w : Weak} {h' : Heap} {q : Option Strong} (hq : w.lock? h = (h', q)) :
      h'.objects = h.objects := by
    rw [← Weak.objects_lock? w h, hq]
  cases hp with
  | construct => exact Effect.houses_construct
  | constructUnique => exact Effect.houses_constructUnique
  | constructRaw => exact Effect.houses_constructRaw
  | resetWith => exact Effect.houses_resetWith
  | write => exact .inl (Heap.size_objects_write _ _)
  | answer | store | adoptUnique | move | drop | takeStrong | swap | reset | map | tryMap |
      setBudget | resetMetrics | remember | loop =>
    exact Effect.houses_of_eq rfl
  | cloneStrong | aliasLike => exact Effect.houses_of_eq (Strong.objects_acquire _ _)
  | cloneWeak | downgrade => exact Effect.houses_of_eq (Weak.objects_acquire _ _)
  | assignStrong => exact Effect.houses_of_eq (Strong.objects_assign _ _ _)
  | assignWeak => exact Effect.houses_of_eq (Weak.objects_assign _ _ _)
  | @release s loc u dst keep hu => rcases u with ⟨k, a, _ | o⟩ <;> exact Effect.houses_of_eq rfl
  | @cast s loc p kind view dst =>
    cases view with
    | none => exact Effect.houses_of_eq rfl
    | some view => exact Effect.houses_of_eq (Strong.objects_acquire _ _)
  | @lock s loc w dst fail =>
    refine Effect.houses_of_eq ?_
    rcases hq : w.lock? h with ⟨h', _ | q⟩ <;> cases fail <;>
      simp [Effect.lock, Effect.settling, Effect.closing, hq, hlock hq]
  | @mapWeak src part dst during listed j w =>
    refine Effect.houses_of_eq ?_
    rcases hq : w.lock? h with ⟨h', _ | q⟩ <;>
      simp [Effect.mapWeak, hq, hlock hq, Weak.clone]
  | promote | share =>
    refine Effect.houses_of_eq ?_
    simp only [Effect.promote, Effect.share, Effect.settling, Effect.closing]
    split <;> exact hpromote ‹_›
  | @adopt s loc r dst | @resetRaw s loc p rawLoc r =>
    refine Effect.houses_of_eq ?_
    rcases hq : Strong.adopt r h with ⟨h', _ | q, us⟩ <;>
      simp [Effect.adopt, Effect.resetRaw, Effect.replace, Effect.settling, Effect.closing, hq,
        hadopt hq]

/-! ### Actions -/

theorem size_startDestructor (m : Machine) (o : ObjectId) :
    (m.startDestructor o).heap.objects.size = m.heap.objects.size := by
  obtain ⟨h, env⟩ := m
  have hbegin : (h.beginDestruction o).1.objects.size = h.objects.size := by simp
  simp only [startDestructor, onHeap]
  split <;> exact hbegin

/-- No object is made by a drop. -/
theorem size_dropSlot (m : Machine) (x : Slot) :
    (m.dropSlot x).heap.objects.size = m.heap.objects.size := by
  obtain ⟨h, env⟩ := m
  rcases x with ⟨k, _ | b, v⟩ | ⟨k, _ | b, v⟩ | ⟨k, a, _ | o⟩ | r
  case strong.some =>
    by_cases last : h.strongCount b = 1
    · simp only [dropSlot, releaseOwner_last last]
      cases h.blocks[b]?.bind (·.pointee) with
      | none => simp
      | some o => exact (size_startDestructor _ o).trans (by simp)
    · simp [dropSlot, releaseOwner_others last]
  case weak.some => exact congrArg Array.size Heap.objects_releaseWeak
  case unique.some => exact size_startDestructor ⟨h, env⟩ o
  all_goals rfl

/-- Only a step makes an object. -/
theorem size_perform {a : Action} (ha : ∀ s, a ≠ .exec s) :
    (m.perform a).heap.objects.size = m.heap.objects.size := by
  have hclosing {ts : List TableId} {call : Heap → Heap × Settlement}
      (hc : (call m.heap).1.objects = m.heap.objects) :
      (m.carryOut (.closing ts call)).heap.objects.size = m.heap.objects.size :=
    congrArg Array.size hc
  have hempty (t : TableId) (b : Action) :
      (m.emptyOut t b).heap.objects.size = m.heap.objects.size := by
    unfold emptyOut
    split
    · exact size_withTable _ _
    · rfl
  cases a with
  | exec s => exact absurd rfl (ha s)
  | drop x => exact size_dropSlot m x
  | unlink o => exact hempty _ _
  | clear => exact hempty _ _
  | reclaim o =>
    have h := congrArg Array.size (Heap.objects_endDestruction (h := m.heap) (o := o))
    rw [Array.size_modify] at h
    exact h
  | giveUpImplicit b =>
    have h : (m.heap.giveUpImplicit b).objects = m.heap.objects := Heap.objects_giveUpImplicit
    exact congrArg Array.size h
  | putBack loc x counted =>
    obtain ⟨rs, h⟩ := perform_putBack m loc x counted
    rw [h]
    exact size_withTable _ _
  | place x dst form =>
    obtain ⟨rs, h⟩ := placeAt_eq m x dst form
    rw [perform, h]
    split
    · exact size_withTable _ _
    · rfl
  | letGo t =>
    simp only [perform, letGoOf]
    split
    · exact size_withTable _ _
    · rfl
  | project j source total =>
    refine hclosing ?_
    dsimp only
    cases total || (if total then j.view m.heap source else j.part? m.heap source).isSome with
    | false => rfl
    | true => exact Strong.objects_acquire source.block m.heap
  | projectWeak j source locked =>
    refine hclosing ((Weak.objects_acquire _ _).trans ?_)
    exact Strong.objects_acquire _ _
  | did | leave | answer | gather | forget | round | record | remember => rfl

/-- The unique pointer to the object is dropped next. -/
def Abandons (m : Machine) (o : ObjectId) : Prop :=
  ∃ u rest, m.env.agenda = .drop (.unique u) :: rest ∧ u.object = some o

theorem Abandons.starts? {o : ObjectId} (hm : m.Abandons o) : m.starts? = some o := by
  obtain ⟨u, rest, ha, hu⟩ := hm
  simp only [Machine.starts?, ha, Stake.starts?, hu]

/-- A new object is in the memory that it needs, or it is abandoned at once. -/
theorem perform_houses {a : Action} {o : ObjectId} {x : Object}
    (hnone : m.heap.objects[o]? = none) (hx : (m.perform a).heap.objects[o]? = some x) :
    x.IsHoused ∨ (m.perform a).Abandons o := by
  have hnot (hsize : (m.perform a).heap.objects.size = m.heap.objects.size) : False := by
    obtain ⟨hlt, -⟩ := Array.getElem?_eq_some_iff.mp hx
    rw [Array.getElem?_eq_none_iff] at hnone
    omega
  by_cases ha : ∃ s, a = .exec s
  · obtain ⟨s, rfl⟩ := ha
    cases hp : m.plan s with
    | error f => exact (hnot (by simp only [perform, hp]; rfl)).elim
    | ok e =>
      have heq : m.perform (.exec s) = m.carryOut e := by simp only [perform, hp]
      rw [heq] at hx hnot ⊢
      have hsize := size_takeOut (m := m) e.taken
      rcases (plan_planned hp).houses (m.takeOut e.taken).heap with h | ⟨y, hy, h⟩
      · exact (hnot (h.trans hsize)).elim
      · have ho : o = m.heap.objects.size := by
          obtain ⟨hlt, -⟩ := Array.getElem?_eq_some_iff.mp hx
          have hlt : o < (e.call (m.takeOut e.taken).heap).1.objects.size := hlt
          rw [hy, Array.size_push, hsize] at hlt
          exact Nat.le_antisymm (Nat.le_of_lt_succ hlt) (Array.getElem?_eq_none_iff.mp hnone)
        have hx : (e.call (m.takeOut e.taken).heap).1.objects[o]? = some x := hx
        rw [hy, ho, ← hsize, Array.getElem?_push_size] at hx
        cases hx
        refine h.imp_right ?_
        rintro ⟨u, as, hactions, hu⟩
        exact ⟨u, _, by rw [agenda_carryOut, hactions]; rfl, by rw [hu, hsize, ho]⟩
  · exact (hnot (size_perform fun s hs => ha ⟨s, hs⟩)).elim

theorem step_houses {o : ObjectId} {x : Object} (hnone : m.heap.objects[o]? = none)
    (hx : m.step.heap.objects[o]? = some x) : x.IsHoused ∨ m.step.Abandons o := by
  cases hn : m.next? with
  | none =>
    rw [step_eq_self hn, hnone] at hx
    cases hx
  | some an =>
    obtain ⟨a, n⟩ := an
    obtain ⟨hheap, -, -, -⟩ := next?_eq_some hn
    rw [step_eq_perform hn] at hx ⊢
    exact perform_houses (hheap ▸ hnone) hx

/-- An object that needs memory and has none was refused it when it was made, and abandoned at
once. -/
theorem IsRationed.abandoned {run : Nat → Machine} {n : Nat} {o : ObjectId} {x : Object}
    (hr : IsRationed run) (hx : (run n).heap.objects[o]? = some x) (hs : x.serial = none)
    (hl : x.content.layout.size ≠ 0) :
    ∃ i < n, (run i).heap.objects[o]? = none ∧ (run (i + 1)).Abandons o := by
  induction n generalizing x with
  | zero =>
    rw [hr.heap_zero] at hx
    cases hx
  | succ n ih =>
    obtain ⟨limits, hnext⟩ := hr.next n
    cases hy : (run n).heap.objects[o]? with
    | none =>
      rw [hnext] at hx
      rcases step_houses (m := (run n).ration limits) hy hx with h | h
      · exact absurd (h hs) hl
      · exact ⟨n, Nat.lt_succ_self n, hy, hnext ▸ h⟩
    | some y =>
      have hm : ((run n).ration limits).Grounded := (hr.grounded n).ration limits
      obtain ⟨z, hz, hyz⟩ := hm.step_lasts o y hy
      rw [← hnext, hx] at hz
      cases hz
      obtain ⟨i, hi, h⟩ := ih hy (hyz.serial.symm.trans hs) (hyz.layout ▸ hl)
      exact ⟨i, Nat.lt_succ_of_lt hi, h⟩

theorem IsRationed.homeless {run : Nat → Machine} {n : Nat} {o : ObjectId} {x : Object}
    (hr : IsRationed run) (hx : (run n).heap.objects[o]? = some x) (hs : x.serial = none)
    (hl : x.content.layout.size ≠ 0) :
    ∃ i < n, (run i).heap.objects[o]? = none ∧ (run (i + 1)).starts? = some o := by
  obtain ⟨i, hi, hnone, habandons⟩ := hr.abandoned hx hs hl
  exact ⟨i, hi, hnone, habandons.starts?⟩

end Machine

end

end Custody
