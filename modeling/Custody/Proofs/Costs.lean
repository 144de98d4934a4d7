import Custody.Proofs.Runs

/-!
# What effects cost

* `costOf`: what a list of actions costs.
* `Effect.Affords`: what an effect leaves to be done is paid for, by what it takes and by what its
  step may cost. The lemmas `Effect.affords_*` are of the effects of all steps.
-/

namespace Custody

/-! ## Costs -/

/-- What a list of actions costs. -/
def costOf (as : List Action) : Nat := (as.map Action.cost).sum

@[simp] theorem costOf_nil : costOf [] = 0 := rfl

@[simp] theorem costOf_cons (a : Action) (as : List Action) :
    costOf (a :: as) = a.cost + costOf as := rfl

@[simp] theorem costOf_append (as bs : List Action) :
    costOf (as ++ bs) = costOf as + costOf bs := by
  simp [costOf]

@[simp] theorem costOf_drops (xs : List Slot) : costOf (xs.map .drop) = 5 * xs.length := by
  induction xs with
  | nil => rfl
  | cons x xs ih =>
    simp only [List.map_cons, costOf_cons, ih, List.length_cons, Action.cost]
    omega

/-- A destructor's steps are paid for with what follows each of them. -/
theorem costOf_execAll (node : Int64) (onDrop : List Step) :
    costOf (Machine.execAll node onDrop) = Step.costs onDrop := by
  induction onDrop with
  | nil => rfl
  | cons s onDrop ih =>
    simp only [Machine.execAll, List.flatMap_cons, costOf_append, costOf_cons, costOf_nil,
      Action.cost, Step.costs] at ih ⊢
    omega

theorem costOf_exec (body : List Step) :
    costOf (body.map .exec) + body.length = Step.costs body := by
  induction body with
  | nil => rfl
  | cons s body ih =>
    simp only [List.map_cons, costOf_cons, Action.cost, List.length_cons, Step.costs]
    omega

theorem costOf_roundOf (n : Nat) (body : List Step) :
    costOf (Machine.roundOf n body) < (Action.round n body).cost := by
  have hbody := costOf_exec body
  unfold Machine.roundOf
  split
  · simp [Action.cost]
  · simp only [costOf_append, costOf_cons, costOf_nil, Action.cost]
    omega
  · next n _ =>
    simp only [costOf_append, costOf_cons, costOf_nil, Action.cost, Nat.succ_mul]
    omega

theorem Step.cost_ge (s : Step) : 32 ≤ s.cost := by
  cases s <;> simp [Step.cost]

theorem Action.cost_pos (a : Action) : 0 < a.cost := by
  cases a with
  | exec s => exact Nat.lt_of_lt_of_le (by decide) s.cost_ge
  | _ => simp [cost]

namespace Table

variable {t : Table} {name : String} {x : Slot}

theorem cost_eq (t : Table) : t.cost = 6 * t.slots.length := by simp [cost, slots]

theorem cost_erase (h : t.get? name = some x) : (t.erase name).cost + 6 = t.cost := by
  have := (slots_perm_erase h).length_eq
  rw [cost_eq, cost_eq, this, List.length_cons]
  omega

/-- A slot that is put in a table is paid for, and the one under its name is not any more. -/
theorem cost_insert (t : Table) (name : String) (x : Slot) :
    (t.insert name x).cost + 6 * (t.get? name).toList.length = t.cost + 6 := by
  have := (slots_insert t name x).length_eq
  rw [cost_eq, this, List.length_cons]
  cases h : t.get? name with
  | none =>
    rw [erase_eq_self h, cost_eq]
    simp
    omega
  | some y =>
    have := cost_erase h
    rw [cost_eq] at this
    simp
    omega

end Table

namespace Heap

variable {h h' : Heap} {o : ObjectId} {x : Object} {f : Object → Object}

theorem potential_eq (h : Heap) : h.potential = (h.objects.toList.map Object.cost).sum := by
  rw [potential, List.sum, List.foldr_map]

theorem potential_congr (ho : h'.objects = h.objects) : h'.potential = h.potential := by
  rw [potential, ho, potential]

theorem potential_modify (ho : h'.objects = h.objects.modify o f) (hx : h.objects[o]? = some x) :
    h'.potential + x.cost = h.potential + (f x).cost := by
  obtain ⟨l, r, hl, hr, -⟩ := Array.toList_modify_split f hx
  simp only [potential_eq, ho, hl, hr, List.map_append, List.map_cons, List.sum_append,
    List.sum_cons]
  omega

/-- An object whose steps and slots stay has the potential that it had. -/
theorem potential_modify_of_cost (ho : h'.objects = h.objects.modify o f)
    (hf : ∀ x, (f x).cost = x.cost) : h'.potential = h.potential := by
  cases hx : h.objects[o]? with
  | none => exact potential_congr (ho.trans (Array.modify_eq_self f hx))
  | some x =>
    have := potential_modify ho hx
    rw [hf x] at this
    omega

theorem potential_push (ho : h'.objects = h.objects.push x) :
    h'.potential = h.potential + x.cost := by
  simp [potential_eq, ho]

theorem potential_write (p : Place) (c : Content) : (h.write p c).potential = h.potential := by
  cases hp : p.origin with
  | object o => exact potential_modify_of_cost (objects_write_object hp c) fun _ => rfl
  | static s => exact potential_congr (objects_write_static hp c)

/-- A new object brings its destructor's steps. -/
theorem potential_construct {p : Pointee} {a : Alloc} {r : Option Layout}
    (hc : h.construct p a = (h', o, r)) : h'.potential = h.potential + Step.costs p.onDrop := by
  obtain ⟨-, -, serial, ho, -⟩ := construct_eq hc
  exact potential_push ho

/-- The steps of a destructor leave the object when it starts. -/
theorem potential_beginDestruction (h : Heap) (o : ObjectId) :
    (h.beginDestruction o).1.potential + Step.costs (h.beginDestruction o).2.onDrop =
      h.potential := by
  have hobjects := objects_beginDestruction (h := h) (o := o)
  cases hx : h.objects[o]? with
  | none =>
    have hnone : (h.beginDestruction o).2.onDrop = [] := by simp [beginDestruction, hx]
    rw [hnone, potential_congr (hobjects.trans (Array.modify_eq_self _ hx))]
    rfl
  | some x =>
    have hsteps : (h.beginDestruction o).2.onDrop = x.onDrop := by simp [beginDestruction, hx]
    have h := potential_modify hobjects hx
    simp only [Object.cost, Step.costs] at h
    rw [hsteps]
    omega

end Heap

/-! ## Effects -/

/-- What the effect leaves to be done costs less than `c` and what it takes out of tables. -/
def Effect.Affords (e : Effect) (h : Heap) (c : Nat) : Prop :=
  costOf (e.call h).2 + (e.call h).1.potential < c + 6 * e.taken.length + h.potential

namespace Settlement

theorem costOf_putBacks (counted : Bool) (xs : List (Location × Slot)) :
    costOf (putBacks counted xs) = 7 * xs.length := by
  induction xs generalizing counted with
  | nil => rfl
  | cons x xs ih =>
    simp only [putBacks, costOf_cons, Action.cost, ih, List.length_cons]
    omega

theorem costOf_letGos (ts : List TableId) : costOf (letGos ts) ≤ ts.length := by
  induction ts with
  | nil => exact Nat.le_refl 0
  | cons t ts ih =>
    unfold letGos at ih ⊢
    rw [List.filter_cons]
    split
    · simp only [List.map_cons, costOf_cons, Action.cost, List.length_cons]
      omega
    · exact Nat.le_succ_of_le ih

/-- What is given up, put back, placed and answered. -/
def cost (s : Settlement) : Nat :=
  5 * s.surplus.length + 7 * s.operands.length + 7 * s.made.toList.length +
    s.reply.toList.length

theorem costOf_actions (s : Settlement) (ts : List TableId) :
    costOf (s.actions ts) ≤ s.cost + ts.length := by
  have hletGos := costOf_letGos ts
  have hmade : costOf (s.made.toList.map fun x => .place x.1 x.2.1 x.2.2) =
      7 * s.made.toList.length := by
    cases s.made <;> rfl
  have hreply : costOf (s.reply.toList.map .answer) = s.reply.toList.length := by
    cases s.reply <;> rfl
  simp only [actions_eq, costOf_append, costOf_drops, costOf_putBacks, hmade, hreply, cost]
  omega

end Settlement

namespace Effect

variable {h : Heap} {taken : List Location} {call : Heap → Heap × Settlement}

theorem affords_settling {c k : Nat} (hh : (call h).1.potential ≤ h.potential + k)
    (hs : (call h).2.cost + k < c + 5 * taken.length) : (settling taken call).Affords h c := by
  have hactions := Settlement.costOf_actions (call h).2 (taken.map (·.table))
  rw [List.length_map] at hactions
  have hcall : (settling taken call).call h =
      ((call h).1, (call h).2.actions (taken.map (·.table))) := rfl
  have htaken : (settling taken call).taken = taken := rfl
  rw [Affords, hcall, htaken]
  dsimp only
  omega

/-- Nothing is taken, since it has been taken before. -/
theorem affords_closing {c : Nat} {t : TableId} (hh : (call h).1.objects = h.objects)
    (hs : (call h).2.cost + 1 < c) : (closing [t] call).Affords h c := by
  have hactions := Settlement.costOf_actions (call h).2 [t]
  rw [List.length_singleton] at hactions
  have hcall : (closing [t] call).call h = ((call h).1, (call h).2.actions [t]) := rfl
  have htaken : (closing [t] call).taken = [] := rfl
  rw [Affords, hcall, htaken, Heap.potential_congr hh, List.length_nil]
  dsimp only
  omega

theorem affords_single {e : Effect} {a : Action} {c : Nat} (hcall : (e.call h).2 = [a])
    (hh : (e.call h).1.potential = h.potential) (ha : a.cost < c) : e.Affords h c := by
  rw [Affords, hcall, hh, costOf_cons, costOf_nil]
  omega

/-- The steps of a closure, and the projection after them. -/
theorem affords_closure {e : Effect} (called listed : Bool) (during : List Step)
    (as : List Action) (hcall : (e.call h).2 = closure called during listed ++ as)
    (hh : (e.call h).1.potential = h.potential) (htaken : e.taken.length = 1)
    (has : costOf as ≤ 26) : e.Affords h (32 + Step.costs during) := by
  have hclosure : costOf (closure called during listed) ≤ Step.costs during + 1 := by
    have hbody := costOf_exec during
    unfold closure
    cases called <;> cases listed <;>
      simp only [Bool.false_eq_true, ↓reduceIte, costOf_append, costOf_cons, costOf_nil, Action.cost]
        <;> omega
  rw [Affords, hcall, hh, htaken, costOf_append]
  omega

end Effect

/-! ## Plans -/

section Construct

variable {h h' : Heap} {k : Kind} {a : Alloc} {p : Pointee}

/-- The destructor of a pointee is paid for by the value that it is written as. -/
theorem Literal.costs_concrete? {l : Literal} (hl : concrete? k l = some p) :
    Step.costs p.onDrop ≤ l.cost := by
  unfold concrete? at hl
  split at hl
  case h_1 =>
    cases hl
    exact Nat.le_of_eq (Literal.cost.eq_2 _ _).symm
  case h_6 | h_8 | h_9 =>
    cases hl
    exact Nat.zero_le _
  case h_11 => cases hl
  all_goals
    obtain ⟨v, -, rfl⟩ := Option.map_eq_some_iff.mp hl
    exact Nat.zero_le _

/-- A literal pays for the destructor of what it makes. -/
theorem Literal.costs_pointee? {l : Literal} (hl : l.pointee? k = some p) :
    Step.costs p.onDrop ≤ l.cost := by
  unfold pointee? at hl
  split at hl
  · next hc =>
    cases hl
    exact costs_concrete? hc
  · next name value _ =>
    simp only [Option.bind_eq_bind, Option.bind_eq_some_iff] at hl
    obtain ⟨inner, -, hl⟩ := hl
    split at hl
    · have := costs_concrete? hl
      simp only [Literal.cost, Literal.costs]
      omega
    · cases hl
  · cases hl

theorem Machine.costs_pointee {value : Literal} (hp : pointee k value = .ok p) :
    Step.costs p.onDrop ≤ value.cost := by
  unfold pointee at hp
  split at hp
  · next hv =>
    cases hp
    exact Literal.costs_pointee? hv
  · cases hp

theorem Unique.potential_construct (k : Kind) (p : Pointee) (a : Alloc) (h : Heap) :
    (Unique.construct k p a h).1.potential = h.potential + Step.costs p.onDrop := by
  rcases hc : Unique.construct k p a h with ⟨h', u, r⟩
  obtain ⟨h₁, o, hc₁, -, rfl⟩ := Unique.construct_eq hc
  have hconstruct := Heap.potential_construct hc₁
  exact hconstruct

/-- A new object adds the steps of its destructor. -/
theorem Strong.potential_construct (k : Kind) (p : Pointee) (a : Alloc) (h : Heap) :
    (Strong.construct k p a h).1.potential = h.potential + Step.costs p.onDrop := by
  have hunique := Unique.potential_construct k p a h
  rcases hc : Unique.construct k p a h with ⟨h₁, u, r⟩
  rw [hc] at hunique
  simp only [Strong.construct, hc]
  cases r with
  | some l => exact hunique
  | none =>
    have hpromote := Heap.potential_congr (Unique.objects_promote u h₁)
    dsimp only
    rcases hq : u.promote h₁ with ⟨h₂, v, _ | s⟩
    all_goals
      rw [hq] at hpromote
      exact hpromote.trans hunique

theorem Strong.surplus_construct (k : Kind) (p : Pointee) (a : Alloc) (h : Heap) :
    (Strong.construct k p a h).2.2.length ≤ 1 := by
  unfold Strong.construct
  repeat' split
  all_goals simp

theorem Strong.surplus_adopt (r : Raw) (h : Heap) : (Strong.adopt r h).2.2.length ≤ 1 := by
  unfold Strong.adopt
  split <;> simp

theorem Strong.surplus_assign (p source : Strong) (h : Heap) :
    (p.assign source h).2.2.length ≤ 1 := by
  unfold Strong.assign
  split <;> simp

theorem Weak.surplus_assign (w source : Weak) (h : Heap) :
    (w.assign source h).2.2.length ≤ 1 := by
  unfold Weak.assign
  split <;> simp

end Construct

namespace Effect

variable {c : Nat} {taken : List Location} {call : Heap → Heap × Settlement}

/-- A pointee that is made is paid for with what its destructor runs. -/
theorem affords_making {p : Pointee} {h : Heap} (hc : 32 + Step.costs p.onDrop ≤ c)
    (hh : (call h).1.potential = h.potential + Step.costs p.onDrop)
    (hs : (call h).2.cost < 32 + 5 * taken.length) : (settling taken call).Affords h c :=
  affords_settling (Nat.le_of_eq hh) (by omega)

theorem affords_construct {kind : Kind} {p : Pointee} {a : Alloc} {dst : Path}
    (hc : 32 + Step.costs p.onDrop ≤ c) (h : Heap) : (construct kind p a dst).Affords h c := by
  have hpotential := Strong.potential_construct kind p a h
  have hsurplus := Strong.surplus_construct kind p a h
  rcases hq : Strong.construct kind p a h with ⟨h', _ | q, us⟩
  all_goals
    rw [hq] at hpotential hsurplus
    refine affords_making hc (by simpa [hq] using hpotential) ?_
    simp [hq, Settlement.cost] at hsurplus ⊢
    omega

theorem affords_resetWith {loc : Location} {p : Strong} {v : Pointee}
    (hc : 32 + Step.costs v.onDrop ≤ c) (h : Heap) : (resetWith loc p v).Affords h c := by
  have hpotential := Strong.potential_construct p.kind v .global h
  have hsurplus := Strong.surplus_construct p.kind v .global h
  rcases hq : Strong.construct p.kind v .global h with ⟨h', _ | q, us⟩
  all_goals
    rw [hq] at hpotential hsurplus
    refine affords_making hc (by simpa [hq, replace] using hpotential) ?_
    simp [hq, replace, Settlement.cost] at hsurplus ⊢
    omega

theorem affords_constructUnique {kind : Kind} {p : Pointee} {a : Alloc} {dst : Path}
    (hc : 32 + Step.costs p.onDrop ≤ c) (h : Heap) :
    (constructUnique kind p a dst).Affords h c := by
  cases hk : isCopied kind with
  | true =>
    rcases hq : h.construct p a with ⟨h', o, _ | l⟩
    all_goals
      have hpotential := Heap.potential_construct hq
      refine affords_making hc (by simpa [hk, hq] using hpotential) ?_
      simp [hk, hq, Settlement.cost]
  | false =>
    have hpotential := Unique.potential_construct kind p a h
    rcases hq : Unique.construct kind p a h with ⟨h', u, _ | l⟩
    all_goals
      rw [hq] at hpotential
      refine affords_making hc (by simpa [hk, hq] using hpotential) ?_
      simp [hk, hq, Settlement.cost]

theorem affords_constructRaw {kind : Kind} {p : Pointee} {dst : Path}
    (hc : 32 + Step.costs p.onDrop ≤ c) (h : Heap) : (constructRaw kind p dst).Affords h c := by
  have hpotential := Unique.potential_construct kind p .global h
  rcases hq : Unique.construct kind p .global h with ⟨h', ⟨k, a, o⟩, _ | l⟩
  all_goals
    rw [hq] at hpotential
    refine affords_making hc (by simpa [hq] using hpotential) ?_
    cases o <;> simp [hq, Settlement.cost, Unique.release]

/-- Without a lock there is no closure, and a weak pointer to no part is made. -/
theorem affords_mapWeak (j : Projection) (w : Weak) (during : List Step) (h : Heap) :
    (mapWeak j w during).Affords h (32 + Step.costs during) := by
  have hlocked := Weak.objects_lock? w h
  rcases hq : w.lock? h with ⟨h', _ | q⟩
  all_goals rw [hq] at hlocked
  · let v : Weak := { w with kind := j.target, view := none }
    let settled : Settlement :=
      { operands := [(j.source, .weak w)], made := some (.weak v, j.dst, j.form) }
    have hcost : costOf (settled.actions [j.source.table]) ≤ 15 := settled.costOf_actions _
    have hclone : (Weak.acquire w.block h').objects = h'.objects := Weak.objects_acquire _ _
    refine affords_closure false j.listed during (settled.actions [j.source.table])
      ?_ ?_ rfl (Nat.le_trans hcost (by decide))
    · simp [mapWeak, hq, Weak.clone, settled, v]
    · simp [mapWeak, hq, Weak.clone, Heap.potential_congr (hclone.trans hlocked)]
  · refine affords_closure q.view.isSome j.listed during [.projectWeak j w q] ?_ ?_ rfl ?_
    · simp [mapWeak, hq]
    · simp [mapWeak, hq, Heap.potential_congr hlocked]
    · simp [Action.cost]

end Effect

end Custody
