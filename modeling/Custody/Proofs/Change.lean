import Custody.Proofs.Stakes
import Custody.Proofs.Typing
import Mathlib.Logic.Relation

/-!
# Changes and losses

What a machine does to its heap and its stakes, in the smallest steps that keep them in accord.

* `Scene`: a heap and the stakes in it.
* `LeadsInto`: a view comes of another one: it is null, a part, or something else that a program
  may yield.
* `Change`: a call that gives nothing up. Each new pointer comes from one that exists
  (`Slot.Begets`), from a new object or from a new block.
* `Loss`: a stake is given up: a pointer, or what was due after a destructor.
* `Shift`: a change, or a slot's way between a table and an operation in progress.

An invariant of scenes is proved by one case for each constructor.
-/

namespace Custody

/-- The view on the right is null, or a part of what the view on the left leads to, which shows
what suits its kind if the whole does. A standing value, and the label that squares share, are
parts of nothing: they come only from `Y`, a standing value under its own kind. -/
inductive LeadsInto (Y : Option Place) (h : Heap) :
    Kind → Option Place → Kind → Option Place → Prop
  | null (k : Kind) (u : Option Place) (k' : Kind) : LeadsInto Y h k u k' none
  | static (k : Kind) (u : Option Place) (k' : Kind) {s : Static} (hs : .static s ∈ Y)
      (hk : s.kind = k') : LeadsInto Y h k u k' (some (.static s))
  | part {k k' : Kind} {p : Place} {path : List Field} (hlabel : .label ∈ path → p.into path ∈ Y)
      (hshows : h.Shows k p → h.Shows k' (p.into path)) :
      LeadsInto Y h k (some p) k' (some (p.into path))

section LeadsInto

variable {Y : Option Place} {h h' : Heap} {k k' : Kind} {u v : Option Place} {p : Place}

@[simp] theorem Place.into_nil (p : Place) : p.into [] = p := by
  simp [Place.into]

/-- Another kind under which the same place shows something. -/
theorem LeadsInto.same (hk : ∀ p, u = some p → h.Shows k p → h.Shows k' p) :
    LeadsInto Y h k u k' u := by
  cases u with
  | none => exact .null _ _ _
  | some p =>
    have hsame : LeadsInto Y h k (some p) k' (some (p.into [])) :=
      .part (by simp) (by simpa using hk p rfl)
    simpa using hsame

theorem LeadsInto.refl (u : Option Place) : LeadsInto Y h k u k u :=
  .same fun _ _ hp => hp

/-- It depends on what is read in the heap. -/
theorem LeadsInto.congr (hr : h'.read? = h.read?) (huv : LeadsInto Y h k u k' v) :
    LeadsInto Y h' k u k' v := by
  cases huv with
  | null => exact .null _ _ _
  | static _ _ hs hk => exact .static _ _ _ hs hk
  | part hlabel hshows =>
    refine .part hlabel ?_
    simpa only [Heap.Shows, hr] using hshows

end LeadsInto

namespace Slot

/-- The view that can be handed on. What owns its object alone has none. -/
def lends? : Slot → Option Place
  | strong p => p.view
  | weak p => p.view
  | _ => none

/-- The second pointer is made from the first: on the same block, with a view into its view. -/
structure Begets (Y : Option Place) (h : Heap) (x y : Slot) : Prop where
  block : y.block? = x.block?
  view : LeadsInto Y h x.kind x.lends? y.kind y.view?

/-- The pointer neither owns nor counts anywhere. -/
structure Free (x : Slot) : Prop where
  strong : x.strongOn? = none
  weak : x.weakOn? = none
  owns : x.owns? = none
  raw : x.rawOf? = none

theorem Free.block? {x : Slot} (hx : x.Free) : x.block? = none := by
  cases x with
  | strong p => exact hx.strong
  | weak w => exact hx.weak
  | unique u => rfl
  | raw r => rfl

/-- The first pointer counts where the second one does. It owns no object of its own. -/
structure Replaces (y x : Slot) : Prop where
  strong : y.strongOn? = x.strongOn?
  weak : y.weakOn? = x.weakOn?
  owns : y.owns? = x.owns?
  raw : y.rawOf? = x.rawOf?
  unowning : y.owns? = none
  unleading : y.rawOf? = none

end Slot

/-- An event that is no part of a block's life. -/
inductive Event.IsRemark : Event → Prop
  | drop (node : Int64) : IsRemark (.drop node)
  | did (node : Int64) (r : Reply) : IsRemark (.did node r)

/-- A heap and what there is a stake in: the pointers, and what running destructors have still to
return. -/
abbrev Scene := Heap × Multiset Stake

/-- A call under which no other view is yielded than what is in `Y`. -/
inductive Change (Y : Option Place) : Scene → Scene → Prop
  -- pointers
  | null {h K x} (hx : x.Free) (hv : x.view? = none) : Change Y (h, K) (h, .pointer x ::ₘ K)
  | copy {h K x y} (hx : .pointer x ∈ K) (hy : y.Free) (hxy : x.Begets Y h y) :
      Change Y (h, K) (h, .pointer y ::ₘ K)
  | forget {h K x} (hx : x.Free) : Change Y (h, .pointer x ::ₘ K) (h, K)
  | revise {h K x y z} (hy : y.Replaces x) (hz : .pointer z ∈ K) (hzy : z.Begets Y h y) :
      Change Y (h, .pointer x ::ₘ K) (h, .pointer y ::ₘ K)
  -- counters
  | share {h K p q b} (hp : .pointer (.strong p) ∈ K) (hb : p.block = some b)
      (hq : (Slot.strong p).Begets Y h (.strong q)) :
      Change Y (h, K) (h.addStrong b, .pointer (.strong q) ::ₘ K)
  | observe {h K x w b} (hx : .pointer x ∈ K) (hb : x.block? = some b)
      (hw : x.Begets Y h (.weak w)) : Change Y (h, K) (h.addWeak b, .pointer (.weak w) ::ₘ K)
  | lock {h K w p b} (hw : .pointer (.weak w) ∈ K) (hb : w.block = some b)
      (alive : h.strongCount b ≠ 0) (hp : (Slot.weak w).Begets Y h (.strong p)) :
      Change Y (h, K) (h.addStrongIfAlive b, .pointer (.strong p) ::ₘ K)
  | refuseLock {h K w b} (hw : .pointer (.weak w) ∈ K) (hb : w.block = some b)
      (dead : h.strongCount b = 0) : Change Y (h, K) (h.recordExpiredLock b, K)
  -- objects
  | construct {h K k p a h' u r} (hk : k.Suits p.content)
      (hc : Unique.construct k p a h = (h', u, r)) :
      Change Y (h, K) (h', .pointer (.unique u) ::ₘ K)
  | copyIn {h K k p a h' o r} (hk : k.Suits p.content) (hc : h.construct p a = (h', o, r)) :
      Change Y (h, K) (h', .pointer (.unique ⟨k, a, some o⟩) ::ₘ K)
  | release {h K k a o} :
      Change Y (h, .pointer (.unique ⟨k, a, some o⟩) ::ₘ K) (h, .pointer (.raw ⟨k, a, o⟩) ::ₘ K)
  | adopt {h K k a o} :
      Change Y (h, .pointer (.raw ⟨k, a, o⟩) ::ₘ K) (h, .pointer (.unique ⟨k, a, some o⟩) ::ₘ K)
  | promote {h K k a o h' b} (hc : h.createBlock k a o = (h', .ok b)) :
      Change Y (h, .pointer (.unique ⟨k, a, some o⟩) ::ₘ K)
        (h', .pointer (.strong ⟨k, some b, some (.whole o)⟩) ::ₘ K)
  | refuseBlock {h K k a o h' l} (hu : .pointer (.unique ⟨k, a, some o⟩) ∈ K)
      (hc : h.createBlock k a o = (h', .error l)) : Change Y (h, K) (h', K)
  | write {h K x p c value} (hx : .pointer x ∈ K) (hp : x.writable? h = some (some p))
      (hc : written? h x.kind p value = some c) : Change Y (h, K) (h.write p c, K)
  -- surroundings
  | setBudget {h K} (limit : Option Nat) :
      Change Y (h, K) (h.updateLedger .arena fun l => { l with budget := limit }, K)
  | resetMetrics {h K} : Change Y (h, K) (h.measure fun _ => .zero, K)
  | remark {h K e} (he : e.IsRemark) : Change Y (h, K) (h.emit e, K)

/-- What becomes of the heap `h` and the other stakes `K` when a stake is given up. -/
inductive Loss (h : Heap) (K : Multiset Stake) : Stake → Scene → Prop
  | free {x} (hx : x.Free) : Loss h K (.pointer x) (h, K)
  /-- Nothing is left of the object's address. -/
  | leak {r} : Loss h K (.pointer (.raw r)) (h, K)
  | release {p b} (hb : p.block = some b) (others : h.strongCount b ≠ 1) :
      Loss h K (.pointer (.strong p)) ((h.releaseStrong b).1, K)
  | dispose {p b o} (hb : p.block = some b) (last : h.strongCount b = 1)
      (ho : ((h.releaseStrong b).1.takePointee b).2 = some o) :
      Loss h K (.pointer (.strong p))
        ((((h.releaseStrong b).1.takePointee b).1.beginDestruction o).1,
          .destruction o ::ₘ .disposal b ::ₘ K)
  /-- The pointee is not there. -/
  | disposeNothing {p b} (hb : p.block = some b) (last : h.strongCount b = 1)
      (ho : ((h.releaseStrong b).1.takePointee b).2 = none) :
      Loss h K (.pointer (.strong p)) (((h.releaseStrong b).1.takePointee b).1, .disposal b ::ₘ K)
  | unobserve {w b} (hb : w.block = some b) : Loss h K (.pointer (.weak w)) (h.releaseWeak b, K)
  | destroy {u o} (ho : u.object = some o) :
      Loss h K (.pointer (.unique u)) ((h.beginDestruction o).1, .destruction o ::ₘ K)
  | reclaim {o} : Loss h K (.destruction o) (h.endDestruction o, K)
  | giveUp {b} : Loss h K (.disposal b) (h.giveUpImplicit b, K)

/-- A change, or a table of links that is written anew from slots that are stakes anyway. -/
inductive Shift (Y : Option Place) : Scene → Scene → Prop
  | change {s t} : Change Y s t → Shift Y s t
  | relink {h K} (o : ObjectId) (t : Table) : Shift Y (h, K) (h.withLinks o t, K)

/-- Changes, one after another. -/
abbrev Changes (Y : Option Place) := Relation.ReflTransGen (Change Y)

/-- Shifts, one after another. -/
abbrev Shifts (Y : Option Place) := Relation.ReflTransGen (Shift Y)

variable {Y : Option Place}

theorem Changes.shifts {s t : Scene} (h : Changes Y s t) : Shifts Y s t :=
  Relation.ReflTransGen.mono (fun _ _ => Shift.change) _ _ h

/-! ## The slots that nodes hold -/

/-- The nodes of both heaps hold the same slots. -/
structure Heap.SameLinks (h' h : Heap) : Prop where
  stored : h'.stored = h.stored
  linksOf : h'.linksOf = h.linksOf

namespace Heap.SameLinks

variable {h h' h'' : Heap} {o : ObjectId} {x : Object} {f : Object → Object}

theorem refl (h : Heap) : h.SameLinks h := ⟨rfl, rfl⟩

theorem trans (h₁ : h''.SameLinks h') (h₂ : h'.SameLinks h) : h''.SameLinks h :=
  ⟨h₁.stored.trans h₂.stored, h₁.linksOf.trans h₂.linksOf⟩

theorem of_eq (ho : h'.objects = h.objects) : h'.SameLinks h := by
  constructor
  · rw [Heap.stored, ho, Heap.stored]
  · funext o
    rw [Heap.linksOf, ho, Heap.linksOf]

/-- Objects may change, but for their links. -/
theorem modify (ho : h'.objects = h.objects.modify o f) (hf : ∀ x, (f x).links = x.links) :
    h'.SameLinks h := by
  cases hx : h.objects[o]? with
  | none => exact of_eq (ho.trans (Array.modify_eq_self f hx))
  | some x =>
    constructor
    · obtain ⟨l, r, hl, hr, -⟩ := Array.toList_modify_split f hx
      rw [Heap.stored, Heap.stored, ho, hl, hr]
      simp [hf]
    · funext o'
      rw [Heap.linksOf, Heap.linksOf, ho, Array.getElem?_modify]
      split
      · next heq =>
        subst heq
        simp [hx, hf]
      · rfl

/-- A new object holds nothing. -/
theorem push (ho : h'.objects = h.objects.push x) (hx : x.links = .empty) : h'.SameLinks h := by
  constructor
  · rw [Heap.stored, Heap.stored, ho]
    simp [hx, Table.empty, Table.slots]
  · funext o
    rw [Heap.linksOf, Heap.linksOf, ho, Array.getElem?_push]
    split
    · next heq => simp [heq, hx]
    · rfl

end Heap.SameLinks

theorem Unique.construct_eq {k : Kind} {p : Pointee} {a : Alloc} {h h' : Heap} {u : Unique}
    {r : Option Layout} (hc : Unique.construct k p a h = (h', u, r)) :
    ∃ h₁ o, h.construct p a = (h₁, o, r) ∧ u = ⟨k, a, some o⟩ ∧
      h' = h₁.measure (if r.isSome then .recordAllocFailure else id) := by
  rcases hr : h.construct p a with ⟨h₁, o, r'⟩
  simp only [Unique.construct, hr, Prod.mk.injEq] at hc
  obtain ⟨rfl, rfl, rfl⟩ := hc
  refine ⟨h₁, o, rfl, rfl, ?_⟩
  split <;> rfl

/-- A change moves no slot of a node. -/
theorem Change.sameLinks {s t : Scene} (h : Change Y s t) : t.1.SameLinks s.1 := by
  cases h with
  | null | copy | forget | revise | release | adopt => exact .refl _
  | share | observe | lock | refuseLock => exact .of_eq (by simp)
  | construct _ hc =>
    obtain ⟨h₁, o, hc₁, -, rfl⟩ := Unique.construct_eq hc
    obtain ⟨-, -, serial, ho, -⟩ := Heap.construct_eq hc₁
    exact .push ho rfl
  | copyIn _ hc =>
    obtain ⟨-, -, serial, ho, -⟩ := Heap.construct_eq hc
    exact .push ho rfl
  | promote hc => exact .of_eq (Heap.createBlock_ok hc).2.1
  | refuseBlock _ hc => exact .of_eq (Heap.createBlock_error hc).2.1
  | @write h K x p c value _ _ _ =>
    cases hp : p.origin with
    | object o => exact .modify (Heap.objects_write_object hp c) fun _ => rfl
    | static s => exact .of_eq (Heap.objects_write_static hp c)
  | setBudget | resetMetrics | remark => exact .of_eq rfl

theorem Changes.sameLinks {s t : Scene} (h : Changes Y s t) : t.1.SameLinks s.1 := by
  induction h with
  | refl => exact .refl _
  | tail _ hc ih => exact hc.sameLinks.trans ih

/-- A loss moves no slot of a node. -/
theorem Loss.sameLinks {h : Heap} {K : Multiset Stake} {k : Stake} {t : Scene}
    (hl : Loss h K k t) : t.1.SameLinks h := by
  cases hl with
  | free | leak => exact .refl _
  | release | disposeNothing | unobserve | giveUp => exact .of_eq (by simp)
  | dispose =>
    refine .trans (.modify Heap.objects_beginDestruction ?_) (.of_eq ?_)
    · exact fun _ => rfl
    · simp
  | destroy => exact .modify Heap.objects_beginDestruction fun _ => rfl
  | reclaim => exact .modify Heap.objects_endDestruction fun _ => rfl

end Custody
