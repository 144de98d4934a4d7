import Custody.Proofs.Planning

/-!
# What one action does

* `Machine.scene`: the heap and the stakes of a machine.
* `Action.loses?`: the stake that is given up by an action, if one is.
* `Action.yield?`: the view that an alias or a projection yields.
* `Machine.perform_shifts`, `Machine.perform_loses`: an action that gives nothing up makes shifts;
  any other is one loss and then shifts.
-/

namespace Custody

variable {Y : Option Place}

/-- The stake that is given up when the action is performed. -/
def Action.loses? : Action → Option Stake
  | drop x => some (.pointer x)
  | reclaim o => some (.destruction o)
  | giveUpImplicit b => some (.disposal b)
  | _ => none

/-- The view that an alias or a projection yields when the action is performed. -/
def Action.yield? (m : Machine) : Action → Option Place
  | exec s =>
    match m.plan s with
    | .ok _ => s.yield?
    | .error _ => none
  | project j source total => if total then j.view m.heap source else j.part? m.heap source
  | projectWeak j _ locked => j.view m.heap locked
  | _ => none

theorem Action.stakes_of_loses? {a : Action} {k : Stake} (h : a.loses? = some k) :
    a.stakes = {k} := by
  cases a <;> cases h <;> rfl

namespace Machine

/-- The heap of a machine, and all stakes in its tables and on its agenda. -/
def scene (m : Machine) : Scene := (m.heap, m.stakes)

variable {m : Machine} {K : Multiset Stake} {loc : Location} {x : Slot} {t : TableId}

/-! ## Moving slots -/

theorem withTable_shifts (t : TableId) (new : Table) (K : Multiset Stake) :
    Shifts Y (m.heap, K) ((m.withTable t new).heap, K) := by
  cases t with
  | root => exact .refl
  | links o => exact .single (.relink o new)

theorem takeOut_shifts (locs : List Location) (K : Multiset Stake) :
    Shifts Y (m.heap, K) ((m.takeOut locs).heap, K) := by
  induction locs generalizing m with
  | nil => exact .refl
  | cons loc locs ih => exact (withTable_shifts loc.table _ K).trans ih

/-- The stakes depend on the heap through the slots that nodes hold. -/
theorem stakes_of_stored {h h' : Heap} {env : Environment} (hs : h'.stored = h.stored) :
    (Machine.mk h' env).stakes = (Machine.mk h env).stakes := by
  simp only [stakes, hs]

theorem carryOut_shifts {e : Effect} {xs : List Slot}
    (he : e.Fits Y (m.takeOut e.taken).heap xs (m.takeOut e.taken).stakes) :
    Shifts Y (m.heap, pointersOf xs + (m.takeOut e.taken).stakes) (m.carryOut e).scene := by
  refine (takeOut_shifts e.taken _).trans ?_
  have hstored := he.changes.sameLinks.stored
  have hscene : (m.carryOut e).scene = ((e.call (m.takeOut e.taken).heap).1,
      stakesOf (e.call (m.takeOut e.taken).heap).2 + (m.takeOut e.taken).stakes) := by
    simp only [scene, carryOut, onHeap, heap_schedule, stakes_schedule, stakes_of_stored hstored]
  rw [hscene]
  exact he.changes.shifts

theorem closing_shifts {ts : List TableId} {call : Heap → Heap × Settlement} {h : Heap}
    {s : Settlement} {xs : List Slot} (hc : call m.heap = (h, s))
    (hs : Changes Y (m.heap, pointersOf xs + m.stakes) (h, pointersOf s.held + m.stakes)) :
    Shifts Y (m.heap, pointersOf xs + m.stakes) (m.carryOut (.closing ts call)).scene := by
  have hscene : (m.carryOut (.closing ts call)).scene = (h, pointersOf s.held + m.stakes) := by
    simp only [scene, carryOut, Effect.closing, takeOut_nil, onHeap, hc, heap_schedule,
      stakes_schedule, Settlement.stakesOf_actions, stakes_of_stored hs.sameLinks.stored]
  rw [hscene]
  exact hs.shifts

theorem store_shifts (ht : m.heap.Has loc.table) (x : Slot) :
    Shifts Y (m.heap, .pointer x ::ₘ m.stakes) (m.store loc x).scene := by
  have hscene : (m.store loc x).scene = ((m.insert loc x).heap, .pointer x ::ₘ m.stakes) := by
    rw [← stakes_insert ht]
    simp [scene, store, add_comm]
  rw [hscene]
  exact withTable_shifts _ _ _

/-- A table that is not there is empty. -/
theorem has_of_popFirst? {rest : Table} (h : (m.table t).popFirst? = some (x, rest)) :
    m.heap.Has t := by
  cases t with
  | root => trivial
  | links o =>
    by_cases ho : o < m.heap.objects.size
    · exact ho
    · have hnone : m.heap.objects[o]? = none := Array.getElem?_eq_none (Nat.le_of_not_lt ho)
      simp [table, Heap.linksOf, hnone, Table.popFirst?, Table.empty] at h

theorem scene_emptyOut {a : Action} {rest : Table} (ha : a.stakes = 0)
    (hpop : (m.table t).popFirst? = some (x, rest)) :
    (m.emptyOut t a).scene = ((m.withTable t rest).heap, m.stakes) := by
  have hw := stakes_withTable (has_of_popFirst? hpop) rest
  rw [Table.slots_popFirst? hpop, pointersOf_cons, Multiset.add_cons, ← Multiset.cons_add] at hw
  rw [emptyOut, hpop, ← add_right_cancel hw]
  simp only [scene, heap_schedule, stakes_schedule, stakesOf_cons, ha, stakesOf_nil, add_zero]
  rfl

theorem emptyOut_shifts {a : Action} (ha : a.stakes = 0) :
    Shifts Y m.scene (m.emptyOut t a).scene := by
  cases hpop : (m.table t).popFirst? with
  | some xt =>
    obtain ⟨x, rest⟩ := xt
    rw [scene_emptyOut ha hpop]
    exact withTable_shifts t rest _
  | none =>
    simp only [emptyOut, hpop]
    exact .refl

/-- What is gone was there. -/
theorem has_of_isGone (h : m.isGone t = true) : m.heap.Has t := by
  cases t with
  | root => trivial
  | links o =>
    by_cases ho : o < m.heap.objects.size
    · exact ho
    · have hnone : m.heap.objects[o]? = none := Array.getElem?_eq_none (Nat.le_of_not_lt ho)
      simp [isGone, hnone] at h

/-- With a dead object's last operation its links go. -/
theorem letGoOf_shifts : Shifts Y m.scene (m.letGoOf t).scene := by
  unfold letGoOf
  split
  · next hgone =>
    have hw := stakes_withTable (has_of_isGone (Bool.and_eq_true_iff.mp hgone).1) .empty
    have hempty : pointersOf Table.empty.slots = 0 := rfl
    have hscene : ((m.withTable t .empty).schedule ((m.table t).slots.map .drop)).scene =
        ((m.withTable t .empty).heap, m.stakes) := by
      rw [hempty, add_zero, add_comm] at hw
      simp only [scene, heap_schedule, stakes_schedule, stakesOf_drops, hw]
    rw [hscene]
    exact withTable_shifts t _ _
  · exact .refl

/-- What is to be placed goes to where the path leads, or is dropped; the replies change. -/
theorem placeAt_eq (m : Machine) (x : Slot) (dst : Path) (form : Form) :
    ∃ rs, m.placeAt x dst form =
      match m.resolve? dst with
      | some loc => (m.mapEnv fun e => { e with replies := rs }).store loc x
      | none => (m.mapEnv fun e => { e with replies := rs }).schedule [.drop x] := by
  obtain ⟨h, env⟩ := m
  have htake : resolve? (takeReply ⟨h, env⟩).1 dst = resolve? ⟨h, env⟩ dst := rfl
  unfold placeAt
  cases form <;> dsimp only
  case during =>
    rw [htake]
    cases resolve? ⟨h, env⟩ dst <;> exact ⟨_, rfl⟩
  all_goals cases resolve? ⟨h, env⟩ dst <;> exact ⟨_, rfl⟩

theorem perform_putBack (m : Machine) (loc : Location) (x : Slot) (counted : Bool) :
    ∃ rs, m.perform (.putBack loc x counted) =
      (m.mapEnv fun e => { e with replies := rs }).store loc x := by
  cases counted <;> exact ⟨_, rfl⟩

/-- What is placed is at stake in its table, and what was there is to be dropped. -/
theorem placeAt_shifts {dst : Path} {form : Form} (hm : m.Resolves) :
    Shifts Y (m.heap, .pointer x ::ₘ m.stakes) (m.placeAt x dst form).scene := by
  have hstay (n : Machine) (hh : n.heap = m.heap) (hs : n.stakes = m.stakes) (r : Reply) :
      ((n.reply r).schedule [.drop x]).scene = (m.heap, .pointer x ::ₘ m.stakes) := by
    simp [scene, hh, hs, Action.stakes, Action.slots]
  have hstore (n : Machine) (hh : n.heap = m.heap) (hs : n.stakes = m.stakes) (r : Reply)
      {loc : Location} (hl : m.heap.Has loc.table) :
      Shifts Y (m.heap, .pointer x ::ₘ m.stakes) ((n.reply r).store loc x).scene := by
    rw [← hh, ← hs]
    exact store_shifts (m := n.reply r) (by rwa [heap_reply, hh]) x
  cases form with
  | plain | promoted =>
    simp only [placeAt]
    split
    · rw [hstay m rfl rfl]
    · next loc hloc => exact hstore m rfl rfl _ (hm dst loc hloc)
  | during =>
    simp only [placeAt]
    split
    · rw [hstay m.takeReply.1 rfl rfl]
    · next loc hloc => exact hstore m.takeReply.1 rfl rfl _ (hm dst loc hloc)

/-! ## Projections -/

theorem leadsInto_part {j : Projection} {h : Heap} {source : Strong} {v : Place}
    (hj : j.IsTyped source.kind) (hv : j.part? h source = some v) (hY : v ∈ Y) :
    LeadsInto Y h source.kind source.view j.target (some v) := by
  unfold Projection.part? at hv
  simp only [Option.bind_eq_bind, Option.bind_eq_some_iff, Option.pure_def, Option.some.injEq] at hv
  obtain ⟨u, hu, c, hc, path, hpath, rfl⟩ := hv
  rw [hu]
  exact .part (fun _ => hY) fun hs => hs.select hc hj hpath

theorem leadsInto_view {j : Projection} {h : Heap} {source : Strong}
    (hj : j.IsTyped source.kind) (hY : ∀ v, j.view h source = some v → v ∈ Y) :
    LeadsInto Y h source.kind source.view j.target (j.view h source) := by
  unfold Projection.view at hY ⊢
  split
  · exact .null _ _ _
  · next hview hpart => exact leadsInto_part hj hpart (hY _ (by simp [hview, hpart]))
  · next hview hpart =>
    cases hs : Static.ofKind? j.target with
    | none => exact .null _ _ _
    | some s => exact .static _ _ _ (hY _ (by simp [hview, hpart, hs])) (Static.kind_of_ofKind? hs)

/-- The end of a projection, with the view that it yields. -/
theorem finishProjection_shifts {j : Projection} {source : Strong} {total : Bool}
    (hj : j.IsTyped source.kind) :
    Shifts ((Action.project j source total).yield? m)
      (m.heap, pointersOf [.strong source] + m.stakes)
      (m.finishProjection j source total).scene := by
  let Y := (Action.project j source total).yield? m
  have hmade (v : Option Place) (hv : LeadsInto Y m.heap source.kind source.view j.target v) :
      Changes Y (m.heap, pointersOf [.strong source] + m.stakes)
        (Strong.acquire source.block m.heap,
          pointersOf [.strong source, .strong ⟨j.target, source.block, v⟩] + m.stakes) := by
    simp only [pointersOf_cons_add, pointersOf_nil_add]
    rw [Multiset.cons_swap]
    exact Strong.acquire_changes (Multiset.mem_cons_self _ _) ⟨rfl, hv⟩
  cases total with
  | true => exact closing_shifts rfl (hmade _ (leadsInto_view hj fun _ hv => hv))
  | false =>
    cases hpart : j.part? m.heap source with
    | none =>
      have hnull : Changes Y (m.heap, pointersOf [.strong source] + m.stakes)
          (m.heap, pointersOf [.strong source, .strong (.null j.target)] + m.stakes) := by
        simp only [pointersOf_cons_add, pointersOf_nil_add]
        rw [Multiset.cons_swap]
        exact null_strong_changes j.target
      exact closing_shifts (by simp only [hpart]; rfl) hnull
    | some v =>
      exact closing_shifts (by simp only [hpart]; rfl) (hmade _ (leadsInto_part hj hpart hpart))

/-- The end of a projection under a lock, with the view that it yields. -/
theorem finishWeakProjection_shifts {j : Projection} {source : Weak} {locked : Strong}
    (hj : j.IsTyped locked.kind) :
    Shifts ((Action.projectWeak j source locked).yield? m)
      (m.heap, pointersOf [.weak source, .strong locked] + m.stakes)
      (m.finishWeakProjection j source locked).scene := by
  let Y := (Action.projectWeak j source locked).yield? m
  have hmade (v : Option Place) (hv : LeadsInto Y m.heap locked.kind locked.view j.target v) :
      Changes Y (m.heap, pointersOf [.weak source, .strong locked] + m.stakes)
        (Weak.acquire locked.block (Strong.acquire locked.block m.heap),
          pointersOf [.strong ⟨j.target, locked.block, v⟩, .strong locked, .weak source,
            .weak ⟨j.target, locked.block, v⟩] + m.stakes) := by
    let q : Strong := ⟨j.target, locked.block, v⟩
    have hlocked : .pointer (.strong locked) ∈ pointersOf [.weak source, .strong locked] + m.stakes :=
      Multiset.mem_add.mpr (.inl (mem_pointersOf.mpr (by simp)))
    have hq := Strong.acquire_changes (h := m.heap) (q := q) hlocked ⟨rfl, hv⟩
    have hw := hq.trans (Weak.acquire_changes (x := .strong q) (w := ⟨j.target, locked.block, v⟩)
      (Multiset.mem_cons_self _ _) ⟨rfl, .refl _⟩)
    have hheld (x y z w : Slot) (K : Multiset Stake) : pointersOf [x, y, z, w] + K =
        .pointer w ::ₘ .pointer x ::ₘ (pointersOf [z, y] + K) := by
      simp only [pointersOf_cons, pointersOf_nil, ← Multiset.singleton_add]
      abel
    rw [hheld]
    exact hw
  exact closing_shifts rfl (hmade _ (leadsInto_view hj fun _ hv => hv))

/-! ## Losses -/

theorem stored_beginDestruction (h : Heap) (o : ObjectId) :
    (h.beginDestruction o).1.stored = h.stored :=
  (Heap.SameLinks.modify Heap.objects_beginDestruction fun _ => rfl).stored

theorem stakesOf_execAll (node : Int64) (onDrop : List Step) :
    stakesOf (execAll node onDrop) = 0 := by
  refine stakesOf_eq_zero fun a ha => ?_
  obtain ⟨s, -, hs⟩ := List.mem_flatMap.mp ha
  rcases List.mem_pair.mp hs with rfl | rfl <;> rfl

/-- Once an object is handed to its destructor, only what is said of a node is left to do. -/
theorem startDestructor_shifts (m : Machine) (o : ObjectId) :
    Shifts Y ((m.heap.beginDestruction o).1, .destruction o ::ₘ m.stakes)
      (m.startDestructor o).scene := by
  obtain ⟨h, env⟩ := m
  have hstakes : (Machine.mk (h.beginDestruction o).1 env).stakes = (Machine.mk h env).stakes :=
    stakes_of_stored (stored_beginDestruction h o)
  simp only [startDestructor, onHeap]
  split
  · next n hn =>
    have hlast : stakesOf [.leave, .unlink o, .reclaim o] = {.destruction o} := rfl
    rw [scene, stakes_schedule, stakesOf_append, stakesOf_execAll, hlast, zero_add,
      Multiset.singleton_add, ← hstakes]
    exact .single (.change (.remark (.drop n.id)))
  · rw [scene, stakes_schedule, hstakes]
    exact .refl

/-- After a loss that leaves nothing to be done, the stakes are what was left. -/
theorem loses_of_loss {h h' : Heap} {env : Environment} {k : Stake}
    (hl : Loss h (Machine.mk h env).stakes k (h', (Machine.mk h env).stakes)) :
    ∃ s, Loss h (Machine.mk h env).stakes k s ∧ Shifts Y s (Machine.mk h' env).scene := by
  refine ⟨_, hl, ?_⟩
  rw [scene, stakes_of_stored hl.sameLinks.stored]

/-- An owner that is not the last one goes. -/
theorem releaseOwner_others {h : Heap} {env : Environment} {b : BlockId}
    (others : h.strongCount b ≠ 1) :
    releaseOwner b ⟨h, env⟩ = ⟨(h.releaseStrong b).1, env⟩ := by
  have hsnd : (h.releaseStrong b).2 = false := by simp [Heap.releaseStrong_snd, others]
  simp only [releaseOwner, onHeap, hsnd, Bool.false_eq_true, ↓reduceIte]

/-- With the last owner the destructor of the pointee starts, if the pointee is there. -/
theorem releaseOwner_last {h : Heap} {env : Environment} {b : BlockId}
    (last : h.strongCount b = 1) :
    releaseOwner b ⟨h, env⟩ =
      match h.blocks[b]?.bind (·.pointee) with
      | some o => startDestructor o
          (schedule [.giveUpImplicit b] ⟨((h.releaseStrong b).1.takePointee b).1, env⟩)
      | none => schedule [.giveUpImplicit b] ⟨((h.releaseStrong b).1.takePointee b).1, env⟩ := by
  have hsnd : (h.releaseStrong b).2 = true := by simp [Heap.releaseStrong_snd, last]
  cases ho : h.blocks[b]?.bind (·.pointee) <;>
    simp only [releaseOwner, onHeap, hsnd, ↓reduceIte, Heap.takePointee_releaseStrong_snd, ho]

/-- A strong pointer that is dropped is a loss, and what follows is shifts. -/
theorem releaseOwner_loses (m : Machine) {p : Strong} {b : BlockId} (hb : p.block = some b) :
    ∃ s, Loss m.heap m.stakes (.pointer (.strong p)) s ∧ Shifts Y s (m.releaseOwner b).scene := by
  obtain ⟨h, env⟩ := m
  by_cases last : h.strongCount b = 1
  · have hsnd : (h.releaseStrong b).2 = true := by simp [Heap.releaseStrong_snd, last]
    have htake : ((h.releaseStrong b).1.takePointee b).1.stored = h.stored :=
      (Heap.SameLinks.of_eq (by simp)).stored
    have hscene : (schedule [.giveUpImplicit b] ⟨((h.releaseStrong b).1.takePointee b).1, env⟩).stakes
        = .disposal b ::ₘ (Machine.mk h env).stakes := by
      rw [stakes_schedule, stakes_of_stored htake]
      rfl
    simp only [releaseOwner, onHeap, hsnd, ↓reduceIte]
    cases ho : ((h.releaseStrong b).1.takePointee b).2 with
    | some o =>
      have hstart := startDestructor_shifts (Y := Y)
        (schedule [.giveUpImplicit b] ⟨((h.releaseStrong b).1.takePointee b).1, env⟩) o
      rw [hscene] at hstart
      exact ⟨_, .dispose hb last ho, hstart⟩
    | none =>
      refine ⟨_, .disposeNothing hb last ho, ?_⟩
      rw [scene, hscene]
      exact .refl
  · have hsnd : (h.releaseStrong b).2 = false := by simp [Heap.releaseStrong_snd, last]
    simp only [releaseOwner, onHeap, hsnd, Bool.false_eq_true, ↓reduceIte]
    exact loses_of_loss (.release hb last)

theorem dropSlot_loses (m : Machine) (x : Slot) :
    ∃ s, Loss m.heap m.stakes (.pointer x) s ∧ Shifts Y s (m.dropSlot x).scene := by
  obtain ⟨h, env⟩ := m
  match x with
  | .strong ⟨k, some b, v⟩ => exact releaseOwner_loses ⟨h, env⟩ rfl
  | .strong ⟨k, none, v⟩ => exact ⟨_, .free (Slot.free_strong rfl), .refl⟩
  | .weak ⟨k, some b, v⟩ => exact loses_of_loss (.unobserve rfl)
  | .weak ⟨k, none, v⟩ => exact ⟨_, .free (Slot.free_weak rfl), .refl⟩
  | .unique ⟨k, a, some o⟩ => exact ⟨_, .destroy rfl, startDestructor_shifts ⟨h, env⟩ o⟩
  | .unique ⟨k, a, none⟩ => exact ⟨_, .free (Slot.free_unique rfl), .refl⟩
  | .raw r => exact ⟨_, .leak, .refl⟩

/-! ## All actions -/

section Perform

variable {a : Action} {k : Stake}

/-- An action that gives a stake up makes one loss, and then shifts. -/
theorem perform_loses (m : Machine) (ha : a.loses? = some k) :
    ∃ s, Loss m.heap m.stakes k s ∧ Shifts Y s (m.perform a).scene := by
  obtain ⟨h, env⟩ := m
  cases a <;> cases ha
  case drop x => exact dropSlot_loses ⟨h, env⟩ x
  case reclaim o => exact loses_of_loss .reclaim
  case giveUpImplicit b => exact loses_of_loss .giveUp

/-- What a round does are steps of its body, and their replies. -/
theorem inner_roundOf {n : Nat} {body : List Step} {a : Action} (ha : a ∈ roundOf n body) :
    a.Inner body := by
  unfold roundOf at ha
  split at ha
  · obtain rfl := List.mem_singleton.mp ha
    exact .answer _
  all_goals
    rcases List.mem_append.mp ha with ha | ha
    · obtain ⟨s, hs, rfl⟩ := List.mem_map.mp ha
      exact .exec hs
  · obtain rfl := List.mem_singleton.mp ha
    exact .gather _
  · rcases List.mem_pair.mp ha with rfl | rfl
    · exact .forget _
    · exact .round _

theorem stakesOf_roundOf (n : Nat) (body : List Step) : stakesOf (roundOf n body) = 0 :=
  stakesOf_eq_zero fun _ ha => (inner_roundOf ha).stakes

theorem exec_shifts {s : Step} (hm : m.Resolves) :
    Shifts ((Action.exec s).yield? m) m.scene (m.perform (.exec s)).scene := by
  simp only [perform]
  split
  · next e he =>
    have hyield : (Action.exec s).yield? m = s.yield? := by simp only [Action.yield?, he]
    obtain ⟨xs, hxs, hfits⟩ := plan_admits hm he
    rw [hyield, scene, stakes_takeOut hxs]
    exact carryOut_shifts hfits
  · exact .refl

/-- An action that gives no stake up makes shifts only. -/
theorem perform_shifts (m : Machine) (hm : m.Resolves) (ha : a.loses? = none)
    (hland : a.Lands m.heap) :
    Shifts (a.yield? m) (m.heap, a.stakes + m.stakes) (m.perform a).scene := by
  have hzero (h : a.stakes = 0) : (m.heap, a.stakes + m.stakes) = m.scene := by
    rw [h, zero_add]
    rfl
  cases a with
  | drop | reclaim | giveUpImplicit => cases ha
  | exec s =>
    rw [hzero rfl]
    exact exec_shifts hm
  | did node =>
    rw [hzero rfl]
    exact .single (.change (.remark (.did node _)))
  | unlink o =>
    rw [hzero rfl]
    exact emptyOut_shifts rfl
  | clear =>
    rw [hzero rfl]
    exact emptyOut_shifts rfl
  | putBack loc x counted =>
    have hl : m.heap.Has loc.table := hland.tables loc.table (by simp [Action.worksOn])
    cases counted with
    | false => exact store_shifts hl x
    | true => exact store_shifts (m := m.reply _) hl x
  | place x dst form => exact placeAt_shifts hm
  | letGo t =>
    rw [hzero rfl]
    exact letGoOf_shifts
  | round n body =>
    rw [hzero rfl]
    simp only [perform, scene, heap_schedule, stakes_schedule, stakesOf_roundOf, zero_add]
    exact .refl
  | project j source total => exact finishProjection_shifts hland.typed
  | projectWeak j source locked => exact finishWeakProjection_shifts hland.typed
  | leave | answer | gather | forget | record | remember =>
    rw [hzero rfl]
    exact .refl

end Perform

end Machine

end Custody
