import Custody.Machine.Plan

/-!
# Destructors that drop what their objects hold

* `Object.Sheds`: the destructor of the object does no more than drop slots of the object.
  `Object.shed?`: the slots that are dropped, in their order.
* `Object.partings`: what is reported of the steps of such a destructor.
* `Machine.plan_dropOwn`: a slot of the object is looked for in the object's table.
-/

namespace Custody

/-! ## Dropping one's own slots -/

/-- The step of a destructor that drops a slot of its own object. -/
def Step.dropOwn (name : String) : Step := .drop ⟨true, [], name⟩

/-- The slots of a table from which the slots of `names` are dropped first, and then those of the
smallest names. -/
def Table.dropped (t : Table) : List String → List Slot
  | [] => t.slots
  | n :: ns =>
    match t.get? n with
    | some x => x :: (t.erase n).dropped ns
    | none => t.dropped ns

/-- The destructor of the object does no more than drop what the object holds, in this order. -/
inductive Object.Sheds (y : Object) : List Slot → Prop
  | node {c : Node} {names : List String} (hc : y.content = .node c)
      (hn : y.onDrop = names.map Step.dropOwn) : Sheds y (y.links.dropped names)
  | other (hc : ∀ c, y.content ≠ .node c) : Sheds y y.links.slots

theorem Table.dropped_perm (t : Table) (names : List String) : (t.dropped names).Perm t.slots := by
  induction names generalizing t with
  | nil => exact .refl _
  | cons name names ih =>
    rw [dropped]
    cases hx : t.get? name with
    | none => exact ih t
    | some x => exact ((ih _).cons x).trans (slots_perm_erase hx).symm

/-- Whatever the order, all that the object holds is dropped. -/
theorem Object.Sheds.perm {y : Object} {xs : List Slot} (hy : y.Sheds xs) :
    xs.Perm y.links.slots := by
  cases hy with
  | node _ _ => exact y.links.dropped_perm _
  | other _ => exact .refl _

/-! ## Deciding it -/

/-- The slot of its own object that the step drops. -/
def Step.droppedOwn? : Step → Option String
  | .drop ⟨true, [], name⟩ => some name
  | _ => none

/-- What the destructor drops, if it does no more than that. -/
def Object.shed? (y : Object) : Option (List Slot) :=
  match y.content with
  | .node _ => (y.onDrop.mapM Step.droppedOwn?).map y.links.dropped
  | _ => some y.links.slots

theorem Step.eq_dropOwn {s : Step} {name : String} (hs : s.droppedOwn? = some name) :
    s = .dropOwn name := by
  unfold droppedOwn? at hs
  split at hs
  · cases hs
    rfl
  · cases hs

theorem Step.eq_map_dropOwn {ss : List Step} {names : List String}
    (hs : ss.mapM Step.droppedOwn? = some names) : ss = names.map Step.dropOwn := by
  induction ss generalizing names with
  | nil =>
    cases hs
    rfl
  | cons s ss ih =>
    simp only [List.mapM_cons, Option.bind_eq_bind, Option.bind_eq_some_iff] at hs
    obtain ⟨name, hname, names, hnames, heq⟩ := hs
    cases heq
    rw [eq_dropOwn hname, ih hnames, List.map_cons]

theorem Object.sheds_of_shed? {y : Object} {xs : List Slot} (hy : y.shed? = some xs) :
    y.Sheds xs := by
  unfold shed? at hy
  split at hy
  · next c hc =>
    obtain ⟨names, hnames, rfl⟩ := Option.map_eq_some_iff.mp hy
    exact .node hc (Step.eq_map_dropOwn hnames)
  · next hc =>
    cases hy
    exact .other hc

@[simp] theorem Step.filterMap_droppedOwn? (names : List String) :
    (names.map Step.dropOwn).filterMap Step.droppedOwn? = names := by
  rw [List.filterMap_map]
  exact List.filterMap_some

theorem Step.mapM_droppedOwn? (names : List String) :
    (names.map Step.dropOwn).mapM Step.droppedOwn? = some names := by
  induction names with
  | nil => rfl
  | cons name names ih =>
    simp only [List.map_cons, List.mapM_cons, ih]
    rfl

/-- Whether a destructor only drops the object's own slots can be computed. -/
theorem Object.exists_sheds_iff {y : Object} : (∃ xs, y.Sheds xs) ↔ y.shed?.isSome = true := by
  constructor
  · rintro ⟨xs, hxs⟩
    cases hxs with
    | node hc hn =>
      simp only [shed?, hc, hn, Step.mapM_droppedOwn?, Option.map_some, Option.isSome_some]
    | other hc =>
      unfold shed?
      split
      · next c hnode => exact absurd hnode (hc c)
      · rfl
  · intro hy
    obtain ⟨xs, hxs⟩ := Option.isSome_iff_exists.mp hy
    exact ⟨xs, sheds_of_shed? hxs⟩

instance (y : Object) : Decidable (∃ xs, y.Sheds xs) := decidable_of_iff' _ y.exists_sheds_iff

/-! ## What is reported -/

/-- How the drop of the slot of this name ends. -/
def Table.parting (t : Table) (name : String) : Reply :=
  match t.get? name with
  | some _ => .done
  | none => .failed .noSlot

/-- What a node reports of dropping the slots of these names, one after another. -/
def Table.partings (t : Table) (id : Int64) : List String → List Event
  | [] => []
  | n :: ns => .did id (t.parting n) :: (t.erase n).partings id ns

/-- What the destructor of the object reports, if it does no more than drop the object's slots. -/
def Object.partings (x : Object) : List Event :=
  match x.content with
  | .node c => x.links.partings c.id (x.onDrop.filterMap Step.droppedOwn?)
  | _ => []

/-! ## Looking for the slot -/

namespace Machine

/-- A step of a destructor that drops a slot of its own object looks for it in the object's
table. -/
theorem plan_dropOwn {h : Heap} {e : Environment} {o : ObjectId} (ho : e.running.head? = some o)
    (name : String) : plan ⟨h, e⟩ (.dropOwn name) =
      match (h.linksOf o).get? name with
      | some x => .ok (.drop ⟨.links o, name⟩ x)
      | none => .error .noSlot := by
  have hlocate : locate ⟨h, e⟩ ⟨true, [], name⟩ = .ok ⟨.links o, name⟩ := by
    have hresolve : resolve? ⟨h, e⟩ ⟨true, [], name⟩ = some ⟨.links o, name⟩ := by
      simp only [resolve?, ↓reduceIte, ho]
      rfl
    rw [locate, hresolve]
  have hlookup : lookup ⟨h, e⟩ ⟨.links o, name⟩ =
      match (h.linksOf o).get? name with
      | some x => .ok x
      | none => .error .noSlot := rfl
  simp only [Step.dropOwn, plan, find, hlocate]
  change Except.bind (Except.bind (lookup ⟨h, e⟩ ⟨.links o, name⟩) _) _ = _
  rw [hlookup]
  cases (h.linksOf o).get? name <;> rfl

end Machine

end Custody
