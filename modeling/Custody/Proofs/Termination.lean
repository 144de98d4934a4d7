import Custody.Proofs.Costs

/-!
# Every run ends

* `Machine.potential_perform`: what an action leaves to be done costs less than the action.
* `Machine.Grounded.agenda_run`: at the end of a run nothing is left to be done.
* `Machine.Settles`, `Machine.Grounded.settles`: what is put in front of the agenda is done after
  some steps, and what was on the agenda is then next.
-/

namespace Custody

namespace Machine

variable {m n : Machine} {s : Step} {e : Effect}

/-- A step pays for what is left to be done after it. -/
theorem Planned.affords (hp : m.Planned s e) (h : Heap) : e.Affords h s.cost := by
  have hs := s.cost_ge
  have hsame {taken : List Location} {call : Heap → Heap × Settlement}
      (ho : (call h).1.objects = h.objects)
      (hc : (call h).2.cost < 32 + 5 * taken.length) :
      (Effect.settling taken call).Affords h s.cost :=
    Effect.affords_settling (k := 0) (Nat.le_of_eq (Heap.potential_congr ho)) (by omega)
  have hpromote {u v : Unique} {h' : Heap} {r : Except Layout Strong}
      (hq : u.promote h = (h', v, r)) : h'.objects = h.objects := by
    rw [← Unique.objects_promote u h, hq]
  have hadopt {r : Raw} {h' : Heap} {q : Except Layout Strong} {us : List Unique}
      (hq : Strong.adopt r h = (h', q, us)) : h'.objects = h.objects := by
    rw [← Strong.objects_adopt r h, hq]
  have hlock {w : Weak} {h' : Heap} {q : Option Strong} (hq : w.lock? h = (h', q)) :
      h'.objects = h.objects := by
    rw [← Weak.objects_lock? w h, hq]
  cases hp with
  | answer | setBudget | resetMetrics | remember =>
    exact Effect.affords_single rfl rfl (Nat.lt_of_lt_of_le (by simp [Action.cost]) hs)
  | loop =>
    refine Effect.affords_single rfl rfl ?_
    simp only [Action.cost, Step.cost]
    omega
  | write =>
    refine Effect.affords_single rfl (Heap.potential_write _ _) ?_
    exact Nat.lt_of_lt_of_le (by simp [Action.cost]) hs
  | construct hp => exact Effect.affords_construct (Nat.add_le_add_left (costs_pointee hp) 32) h
  | resetWith _ hv => exact Effect.affords_resetWith (Nat.add_le_add_left (costs_pointee hv) 32) h
  | constructUnique hp =>
    exact Effect.affords_constructUnique (Nat.add_le_add_left (costs_pointee hp) 32) h
  | constructRaw hp =>
    exact Effect.affords_constructRaw (Nat.add_le_add_left (costs_pointee hp) 32) h
  | mapWeak => exact Effect.affords_mapWeak _ _ _ h
  | map | tryMap => exact Effect.affords_closure _ _ _ _ rfl rfl rfl (by simp [Action.cost])
  | store | adoptUnique | move | drop | takeStrong | swap | reset =>
    exact hsame rfl (by simp [Settlement.cost])
  | cloneStrong | aliasLike =>
    exact hsame (Strong.objects_acquire _ _) (by simp [Settlement.cost])
  | cloneWeak | downgrade => exact hsame (Weak.objects_acquire _ _) (by simp [Settlement.cost])
  | @assignStrong s loc p srcLoc q =>
    have hsurplus := Strong.surplus_assign p q h
    refine hsame (Strong.objects_assign p q h) ?_
    rcases hq : p.assign q h with ⟨h', v, us⟩
    simp [hq, Settlement.cost] at hsurplus ⊢
    omega
  | @assignWeak s loc w srcLoc v =>
    have hsurplus := Weak.surplus_assign w v h
    refine hsame (Weak.objects_assign w v h) ?_
    rcases hq : w.assign v h with ⟨h', v, us⟩
    simp [hq, Settlement.cost] at hsurplus ⊢
    omega
  | @release s loc u dst keep hu =>
    rcases u with ⟨k, a, _ | o⟩ <;> cases keep <;>
      exact hsame rfl (by simp [Settlement.cost, Unique.release])
  | @cast s loc p kind view dst =>
    cases view with
    | none => exact hsame rfl (by simp [Settlement.cost])
    | some view => exact hsame (Strong.objects_acquire _ _) (by simp [Settlement.cost])
  | @lock s loc w dst fail =>
    rcases hq : w.lock? h with ⟨h', _ | q⟩ <;> cases fail <;>
      refine hsame ?_ ?_ <;> simp [hq, hlock hq, Settlement.cost]
  | @promote s loc u dst | @share s loc u dst =>
    rcases hq : u.promote h with ⟨h', v, _ | q⟩ <;>
      refine hsame ?_ ?_ <;> simp [hq, hpromote hq, Settlement.cost]
  | @adopt s loc r dst | @resetRaw s loc p rawLoc r =>
    have hsurplus := Strong.surplus_adopt r h
    rcases hq : Strong.adopt r h with ⟨h', _ | q, us⟩
    all_goals
      rw [hq] at hsurplus
      refine hsame ?_ ?_ <;> simp [hq, hadopt hq, Settlement.cost, Effect.replace] at hsurplus ⊢
      omega

/-! ## Actions -/

/-- What the slots in tables and the destructors that have not started cost. -/
def stock (m : Machine) : Nat := m.env.root.cost + m.heap.potential

theorem potential_eq (m : Machine) : m.potential = costOf m.env.agenda + m.stock := by
  rw [potential, stock, costOf, List.sum, List.foldr_map, Nat.add_assoc]

@[simp] theorem stock_schedule (as : List Action) : (m.schedule as).stock = m.stock := rfl

/-- A table that takes the place of another one is paid for instead of it. -/
theorem stock_withTable {t : TableId} (ht : m.heap.Has t) (new : Table) :
    (m.withTable t new).stock + (m.table t).cost = m.stock + new.cost := by
  cases t with
  | root =>
    simp only [withTable, mapEnv, stock, table]
    omega
  | links o =>
    have hx : m.heap.objects[o]? = some m.heap.objects[o] := Array.getElem?_eq_getElem ht
    have hlinks : m.heap.linksOf o = m.heap.objects[o].links := by simp [Heap.linksOf, hx]
    have hobjects : (m.heap.withLinks o new).objects =
        m.heap.objects.modify o fun x => { x with links := new } := rfl
    have h := Heap.potential_modify hobjects hx
    simp only [Object.cost] at h
    simp only [withTable, mapHeap, stock, table, hlinks]
    omega

theorem stock_erase {loc : Location} {x : Slot} (hx : m.get? loc = some x) :
    (m.erase loc).stock + 6 = m.stock := by
  have h := stock_withTable (has_of_get? hx) ((m.table loc.table).erase loc.name)
  have herase := Table.cost_erase (t := m.table loc.table) hx
  rw [erase]
  omega

/-- What is taken out of tables pays for what is done with it. -/
theorem stock_takeOut {locs : List Location} {xs : List Slot} (h : m.Finds locs xs) :
    (m.takeOut locs).stock + 6 * locs.length = m.stock := by
  induction locs generalizing m xs with
  | nil => rfl
  | cons loc locs ih =>
    cases xs with
    | nil => cases h
    | cons x xs =>
      obtain ⟨hx, h⟩ := h
      have := stock_erase hx
      have := ih h
      rw [takeOut_cons, List.length_cons]
      omega

theorem potential_carryOut {c : Nat} {xs : List Slot} (hx : m.Finds e.taken xs)
    (he : e.Affords (m.takeOut e.taken).heap c) : (m.carryOut e).potential < c + m.potential := by
  have hstock := stock_takeOut hx
  have hagenda := agenda_carryOut (m := m) e
  have hroot : (m.carryOut e).stock =
      (m.takeOut e.taken).env.root.cost + (e.call (m.takeOut e.taken).heap).1.potential := rfl
  rw [potential_eq, potential_eq, hagenda, hroot, costOf_append]
  rw [stock] at hstock
  unfold Effect.Affords at he
  omega

theorem potential_store {loc : Location} (ht : m.heap.Has loc.table) (x : Slot) :
    (m.store loc x).potential ≤ m.potential + 6 := by
  have h := stock_withTable ht ((m.table loc.table).insert loc.name x)
  have hinsert := Table.cost_insert (m.table loc.table) loc.name x
  have hstock : (m.store loc x).stock =
      (m.withTable loc.table ((m.table loc.table).insert loc.name x)).stock := rfl
  rw [potential_eq, potential_eq, agenda_store, costOf_append, costOf_drops, hstock, get?]
  omega

/-- A slot pays for its drop, and for the next one. -/
theorem potential_emptyOut {t : TableId} {a : Action} (ha : a.cost = 1) :
    (m.emptyOut t a).potential ≤ m.potential := by
  unfold emptyOut
  split
  · next x rest hpop =>
    have h := stock_withTable (has_of_popFirst? hpop) rest
    have hslots := congrArg List.length (Table.slots_popFirst? hpop)
    rw [List.length_cons] at hslots
    rw [Table.cost_eq, Table.cost_eq, hslots] at h
    rw [potential_eq, potential_eq, agenda_schedule, agenda_withTable, costOf_append, stock_schedule]
    have hdrop : (Action.drop x).cost = 5 := rfl
    simp only [costOf_cons, costOf_nil, hdrop, ha]
    omega
  · exact Nat.le_refl _

theorem potential_letGoOf (m : Machine) (t : TableId) : (m.letGoOf t).potential ≤ m.potential := by
  unfold letGoOf
  split
  · next hgone =>
    have h := stock_withTable (has_of_isGone (Bool.and_eq_true_iff.mp hgone).1) .empty
    have hempty : Table.empty.cost = 0 := rfl
    rw [Table.cost_eq, hempty] at h
    rw [potential_eq, potential_eq, agenda_schedule, agenda_withTable, costOf_append,
      costOf_drops, stock_schedule]
    omega
  · exact Nat.le_refl _

/-- A destructor is paid for by its object. -/
theorem potential_startDestructor (m : Machine) (o : ObjectId) :
    (m.startDestructor o).potential ≤ m.potential + 3 := by
  obtain ⟨h, env⟩ := m
  have hbegin := Heap.potential_beginDestruction h o
  have hlast : costOf [.leave, .unlink o, .reclaim o] = 3 := rfl
  have hplain : costOf [.unlink o, .reclaim o] = 2 := rfl
  simp only [startDestructor, onHeap]
  split
  · next n hn =>
    have hstock : (schedule (execAll n.id (h.beginDestruction o).2.onDrop ++
        [.leave, .unlink o, .reclaim o]) (mapEnv (mapHeap ⟨(h.beginDestruction o).1, env⟩
          fun g => g.emit (.drop n.id)) fun e => { e with running := o :: e.running })).stock =
        env.root.cost + (h.beginDestruction o).1.potential := rfl
    rw [potential_eq, potential_eq, agenda_schedule, costOf_append, costOf_append, costOf_execAll,
      hlast, hstock, stock]
    simp only [mapEnv, mapHeap]
    omega
  · have hstock : (schedule [.unlink o, .reclaim o] ⟨(h.beginDestruction o).1, env⟩).stock =
        env.root.cost + (h.beginDestruction o).1.potential := rfl
    rw [potential_eq, potential_eq, agenda_schedule, costOf_append, hplain, hstock, stock]
    dsimp only
    omega

/-- A drop is paid for by the slot and its object. -/
theorem potential_dropSlot (m : Machine) (x : Slot) :
    (m.dropSlot x).potential ≤ m.potential + 4 := by
  obtain ⟨h, env⟩ := m
  have hobjects {h' : Heap} (ho : h'.objects = h.objects) :
      (Machine.mk h' env).potential = (Machine.mk h env).potential := by
    rw [potential_eq, potential_eq, stock, stock, Heap.potential_congr ho]
  rcases x with ⟨k, _ | b, v⟩ | ⟨k, _ | b, v⟩ | ⟨k, a, _ | o⟩ | r
  case strong.some =>
    have htake : ((h.releaseStrong b).1.takePointee b).1.objects = h.objects := by simp
    have htake := hobjects htake
    have hdue : (schedule [.giveUpImplicit b]
        ⟨((h.releaseStrong b).1.takePointee b).1, env⟩).potential =
      (Machine.mk h env).potential + 1 := by
      rw [← htake, potential_eq, potential_eq, agenda_schedule, costOf_append, stock_schedule]
      have hcost : costOf [.giveUpImplicit b] = 1 := rfl
      omega
    by_cases last : h.strongCount b = 1
    · simp only [dropSlot, releaseOwner_last last]
      cases h.blocks[b]?.bind (·.pointee) with
      | none =>
        dsimp only
        omega
      | some o =>
        have := potential_startDestructor (schedule [.giveUpImplicit b]
          ⟨((h.releaseStrong b).1.takePointee b).1, env⟩) o
        dsimp only
        omega
    · simp only [dropSlot, releaseOwner_others last]
      rw [hobjects (by simp)]
      exact Nat.le_add_right _ _
  case weak.some =>
    have := hobjects (Heap.objects_releaseWeak (h := h) (b := b))
    exact Nat.le_add_right_of_le (Nat.le_of_eq this)
  case unique.some => exact Nat.le_succ_of_le (potential_startDestructor ⟨h, env⟩ o)
  all_goals exact Nat.le_add_right _ _

/-- An action is worth more than what it leaves to be done. -/
theorem potential_perform (hm : m.Resolves) (a : Action) (ha : a.Lands m.heap) :
    (m.perform a).potential < a.cost + m.potential := by
  have hfree {n : Machine} (hp : n.potential ≤ m.potential) : n.potential < a.cost + m.potential :=
    Nat.lt_of_le_of_lt hp (Nat.lt_add_of_pos_left a.cost_pos)
  have hmap (f : Heap → Heap) (hf : (f m.heap).potential = m.heap.potential) :
      (m.mapHeap f).potential ≤ m.potential := by
    have hstock : (m.mapHeap f).stock = m.env.root.cost + (f m.heap).potential := rfl
    rw [potential_eq, potential_eq, hstock, hf]
    exact Nat.le_refl _
  have hstore {rs : List Reply} {loc : Location} (hl : m.heap.Has loc.table) (x : Slot) :
      ((m.mapEnv fun e => { e with replies := rs }).store loc x).potential < 7 + m.potential := by
    have h := potential_store (m := m.mapEnv fun e => { e with replies := rs }) hl x
    have hsame : (m.mapEnv fun e => { e with replies := rs }).potential = m.potential := rfl
    omega
  have hnone : m.Finds [] [] := trivial
  cases a with
  | exec s =>
    simp only [perform]
    split
    · next e he =>
      obtain ⟨xs, hxs, -⟩ := plan_admits hm he
      exact potential_carryOut hxs ((plan_planned he).affords _)
    · exact hfree (Nat.le_refl _)
  | drop x =>
    have := potential_dropSlot m x
    simp only [perform, Action.cost]
    omega
  | unlink o => exact hfree (potential_emptyOut rfl)
  | clear => exact hfree (potential_emptyOut rfl)
  | letGo t => exact hfree (potential_letGoOf m t)
  | did | leave | answer | gather | forget | record | remember => exact hfree (Nat.le_refl _)
  | giveUpImplicit b => exact hfree (hmap _ (Heap.potential_congr Heap.objects_giveUpImplicit))
  | reclaim o =>
    exact hfree (hmap _ (Heap.potential_modify_of_cost Heap.objects_endDestruction fun _ => rfl))
  | putBack loc x counted =>
    obtain ⟨rs, h⟩ := perform_putBack m loc x counted
    rw [h]
    exact hstore (ha.tables loc.table (by simp [Action.worksOn])) x
  | place x dst form =>
    obtain ⟨rs, h⟩ := placeAt_eq m x dst form
    rw [perform, h]
    split
    · next loc hloc => exact hstore (hm dst loc hloc) x
    · have hagenda : ((m.mapEnv fun e => { e with replies := rs }).schedule [.drop x]).env.agenda =
          .drop x :: m.env.agenda := rfl
      have hstock : ((m.mapEnv fun e => { e with replies := rs }).schedule [.drop x]).stock =
          m.stock := rfl
      have hdrop : (Action.drop x).cost = 5 := rfl
      have hplace : (Action.place x dst form).cost = 7 := rfl
      rw [potential_eq, potential_eq, hagenda, hstock, costOf_cons, hdrop, hplace]
      omega
  | round n body =>
    have := costOf_roundOf n body
    rw [perform, potential_eq, potential_eq, agenda_schedule, costOf_append, stock_schedule]
    omega
  | project j source total =>
    refine potential_carryOut hnone (Effect.affords_closing ?_ ?_)
    · generalize (m.takeOut _).heap = h
      dsimp only
      cases total || (if total then j.view h source else j.part? h source).isSome with
      | false => rfl
      | true => exact Strong.objects_acquire _ _
    · simp [Settlement.cost, Action.cost]
  | projectWeak j source locked =>
    refine potential_carryOut hnone (Effect.affords_closing ?_ ?_)
    · exact (Weak.objects_acquire _ _).trans (Strong.objects_acquire _ _)
    · simp [Settlement.cost, Action.cost]

/-! ## Steps -/

/-- A step lowers the potential. -/
theorem Grounded.potential_step (hm : m.Grounded) {a : Action} {rest : List Action}
    (ha : m.env.agenda = a :: rest) : m.step.potential < m.potential := by
  have hn := next?_of_agenda ha
  obtain ⟨hg, hland, -⟩ := hm.next hn
  have hperform := potential_perform hg.resolves a hland
  rw [step_eq_perform hn]
  have hcost : m.potential =
      a.cost + (m.mapEnv fun e => { e with agenda := rest }).potential := by
    rw [potential_eq, potential_eq, ha, costOf_cons, Nat.add_assoc]
    rfl
  omega

/-- At the end of a run nothing is left to be done. -/
theorem Grounded.agenda_run (hm : m.Grounded) : m.run.env.agenda = [] := by
  have hfor (k : Nat) {m : Machine} (hm : m.Grounded) (hk : m.potential ≤ k) :
      (Machine.step^[k] m).env.agenda = [] := by
    induction k generalizing m with
    | zero =>
      cases ha : m.env.agenda with
      | nil => exact ha
      | cons a rest =>
        have := hm.potential_step ha
        omega
    | succ k ih =>
      cases ha : m.env.agenda with
      | nil =>
        have hnone : m.next? = none := by simp only [next?, ha]
        rwa [Function.iterate_fixed (step_eq_self hnone)]
      | cons a rest =>
        have := hm.potential_step ha
        rw [Function.iterate_succ_apply]
        exact ih hm.step (by omega)
  rw [run_eq_iterate]
  exact hfor _ hm (Nat.le_refl _)

/-- From the first state the second one is reached, where `rest` is all that is left to be done;
until then something stands in front of `rest`. -/
inductive Settles (rest : List Action) : Machine → Machine → Prop
  | done {m : Machine} (h : m.env.agenda = rest) : Settles rest m m
  | step {m n : Machine} {a as} (h : m.env.agenda = a :: (as ++ rest)) (hs : Settles rest m.step n) :
      Settles rest m n

/-- What stands in front is done after some steps. -/
theorem Grounded.settles {as rest : List Action} (hm : m.Grounded)
    (ha : m.env.agenda = as ++ rest) : ∃ n, Settles rest m n := by
  induction hp : m.potential using Nat.strong_induction_on generalizing m as with
  | _ p ih =>
    cases as with
    | nil => exact ⟨m, .done ha⟩
    | cons a as =>
      obtain ⟨bs, hbs⟩ : ∃ bs, m.step.env.agenda = bs ++ (as ++ rest) := hm.step_agenda ha
      rw [← List.append_assoc] at hbs
      obtain ⟨n, hn⟩ := ih _ (hp ▸ hm.potential_step ha) hm.step hbs rfl
      exact ⟨n, .step ha hn⟩

/-- What stands in front of `rest` is something. -/
theorem ne_cons_append {a : Action} {as rest : List Action} : rest ≠ a :: (as ++ rest) :=
  fun h => List.cons_ne_nil a as (List.self_eq_append_left.mp h)

theorem Settles.unique {rest : List Action} {n₁ n₂ : Machine} (h₁ : Settles rest m n₁)
    (h₂ : Settles rest m n₂) : n₁ = n₂ := by
  induction h₁ with
  | done ha =>
    cases h₂ with
    | done => rfl
    | step ha' => exact absurd (ha.symm.trans ha') ne_cons_append
  | step ha _ ih =>
    cases h₂ with
    | done ha' => exact absurd (ha'.symm.trans ha) ne_cons_append
    | step _ h₂ => exact ih h₂

end Machine

end Custody
