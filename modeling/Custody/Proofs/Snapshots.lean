import Custody.Proofs.Census

/-!
# Snapshots of the metrics

A snapshot is what the metrics are at a moment. What has been counted since then is the difference
to it.

* `Metrics.Le`, `Metrics.Ordered`: the order of metrics, counter by counter, and the order of the
  counters of blocks.
* `Metrics.since_add_since`, `Metrics.live_since`, `Metrics.expired_since`: sums of differences, and
  the derived counts of a difference.
* `Machine.kept`, `Machine.IsRationed.exists_mark`: what a program has kept are the metrics of
  moments at which it executed a mark.
* `Machine.Unreset`, `Machine.IsRationed.metrics_mono`: without resets no counter falls.
* `Machine.Snapshots`, `Machine.IsRationed.snapshots`: how the metrics of three moments go together.
-/

namespace Custody

attribute [ext] Metrics

namespace Metrics

/-- No counter of the first is above that of the second. -/
structure Le (m n : Metrics) : Prop where
  blocksAllocated : m.blocksAllocated ≤ n.blocksAllocated
  blocksFreed : m.blocksFreed ≤ n.blocksFreed
  pointeesDisposed : m.pointeesDisposed ≤ n.pointeesDisposed
  lockAttempts : m.lockAttempts ≤ n.lockAttempts
  lockFailures : m.lockFailures ≤ n.lockFailures
  allocFailures : m.allocFailures ≤ n.allocFailures

instance : PartialOrder Metrics where
  le := Le
  le_refl m := ⟨le_rfl, le_rfl, le_rfl, le_rfl, le_rfl, le_rfl⟩
  le_trans l m n h h' :=
    ⟨h.1.trans h'.1, h.2.trans h'.2, h.3.trans h'.3, h.4.trans h'.4, h.5.trans h'.5,
      h.6.trans h'.6⟩
  le_antisymm m n h h' := Metrics.ext (le_antisymm h.1 h'.1) (le_antisymm h.2 h'.2)
    (le_antisymm h.3 h'.3) (le_antisymm h.4 h'.4) (le_antisymm h.5 h'.5) (le_antisymm h.6 h'.6)

/-- Counter by counter. -/
instance : Add Metrics where
  add m n :=
    { blocksAllocated := m.blocksAllocated + n.blocksAllocated
      blocksFreed := m.blocksFreed + n.blocksFreed
      pointeesDisposed := m.pointeesDisposed + n.pointeesDisposed
      lockAttempts := m.lockAttempts + n.lockAttempts
      lockFailures := m.lockFailures + n.lockFailures
      allocFailures := m.allocFailures + n.allocFailures }

/-- What is freed has been disposed of, and what is disposed of has been allocated. -/
structure Ordered (m : Metrics) : Prop where
  freed : m.blocksFreed ≤ m.pointeesDisposed
  disposed : m.pointeesDisposed ≤ m.blocksAllocated

variable {s₀ s₁ s₂ : Metrics}

/-- What has been counted since, in two parts. -/
theorem since_add_since (h₀₁ : s₀ ≤ s₁) (h₁₂ : s₁ ≤ s₂) :
    s₂.since s₁ + s₁.since s₀ = s₂.since s₀ := by
  apply Metrics.ext
  case blocksAllocated =>
    exact Nat.sub_add_sub_cancel h₁₂.blocksAllocated h₀₁.blocksAllocated
  case blocksFreed => exact Nat.sub_add_sub_cancel h₁₂.blocksFreed h₀₁.blocksFreed
  case pointeesDisposed =>
    exact Nat.sub_add_sub_cancel h₁₂.pointeesDisposed h₀₁.pointeesDisposed
  case lockAttempts => exact Nat.sub_add_sub_cancel h₁₂.lockAttempts h₀₁.lockAttempts
  case lockFailures => exact Nat.sub_add_sub_cancel h₁₂.lockFailures h₀₁.lockFailures
  case allocFailures => exact Nat.sub_add_sub_cancel h₁₂.allocFailures h₀₁.allocFailures

/-- Nothing stops at zero but the blocks that have become fewer. -/
theorem live_since (h₀₂ : s₀ ≤ s₂) (h₀ : s₀.Ordered) (h₂ : s₂.Ordered) :
    ((s₂.since s₀).live : Int) = max 0 ((s₂.live : Int) - s₀.live) := by
  have hallocated := h₀₂.blocksAllocated
  have hfreed := h₀₂.blocksFreed
  have hordered := h₀.freed.trans h₀.disposed
  have hordered' := h₂.freed.trans h₂.disposed
  simp only [live, since]
  omega

theorem expired_since (h₀₂ : s₀ ≤ s₂) (h₀ : s₀.Ordered) (h₂ : s₂.Ordered) :
    ((s₂.since s₀).expired : Int) = max 0 ((s₂.expired : Int) - s₀.expired) := by
  have hdisposed := h₀₂.pointeesDisposed
  have hfreed := h₀₂.blocksFreed
  have hordered := h₀.freed
  have hordered' := h₂.freed
  simp only [expired, since]
  omega

theorem le_note (m : Metrics) (e : Event) : m ≤ m.note e := by
  cases e with
  | blockCreated => exact ⟨Nat.le_succ _, le_rfl, le_rfl, le_rfl, le_rfl, le_rfl⟩
  | blockFreed => exact ⟨le_rfl, Nat.le_succ _, le_rfl, le_rfl, le_rfl, le_rfl⟩
  | pointeeDisposed => exact ⟨le_rfl, le_rfl, Nat.le_succ _, le_rfl, le_rfl, le_rfl⟩
  | lock => exact ⟨le_rfl, le_rfl, le_rfl, Nat.le_succ _, le_rfl, le_rfl⟩
  | lockExpired => exact ⟨le_rfl, le_rfl, le_rfl, Nat.le_succ _, Nat.le_succ _, le_rfl⟩
  | refuse => exact ⟨le_rfl, le_rfl, le_rfl, le_rfl, le_rfl, Nat.le_succ _⟩
  | alloc | dealloc | drop | did => exact le_rfl

theorem le_foldl_note (m : Metrics) (es : List Event) : m ≤ es.foldl note m := by
  induction es generalizing m with
  | nil => exact le_rfl
  | cons e es ih => exact (m.le_note e).trans (ih (m.note e))

end Metrics

/-! ## What programs keep -/

/-- The snapshot that the action keeps. -/
def Action.snapshot? : Action → Option (String × Metrics)
  | remember name now => some (name, now)
  | _ => none

theorem Action.Inner.snapshot? {body : List Step} {a : Action} (ha : a.Inner body) :
    a.snapshot? = none := by cases ha <;> rfl

@[simp] theorem Action.snapshots_drops (xs : List Slot) :
    (xs.map drop).filterMap snapshot? = [] := by
  simp [List.filterMap_map, Function.comp_def, snapshot?]

/-- A settlement takes no snapshot. -/
theorem Settlement.snapshots_actions (s : Settlement) (ts : List TableId) :
    (s.actions ts).filterMap Action.snapshot? = [] := by
  rw [List.filterMap_eq_nil_iff, actions_eq]
  intro a ha
  simp only [List.mem_append, List.mem_map] at ha
  rcases ha with (((⟨x, -, rfl⟩ | ha) | ⟨x, -, rfl⟩) | ⟨r, -, rfl⟩) | ha
  · rfl
  · obtain ⟨loc, x, counted, rfl⟩ := mem_putBacks ha
    rfl
  · rfl
  · rfl
  · obtain ⟨t, -, rfl⟩ := List.mem_map.mp ha
    rfl

theorem Effect.snapshots_closure (called : Bool) (during : List Step) (listed : Bool) :
    (closure called during listed).filterMap Action.snapshot? = [] :=
  List.filterMap_eq_nil_iff.mpr fun _ ha => (inner_closure ha).snapshot?

namespace Machine

section

variable {m : Machine} {s : Step} {e : Effect} {a : Action} {x : String × Metrics}

/-- The snapshots that have been taken. The last one may not have been put away yet. -/
def kept (m : Machine) : List (String × Metrics) :=
  m.env.agenda.filterMap Action.snapshot? ++ m.env.marks

/-- Only a mark takes one. -/
theorem Planned.keeps (hp : m.Planned s e) :
    (∀ h, (e.call h).2.filterMap Action.snapshot? = []) ∨
      ∃ name, s = .mark name ∧ e = .remember name := by
  cases hp with
  | remember => exact .inr ⟨_, rfl, rfl⟩
  | answer | write | setBudget | resetMetrics | loop => exact .inl fun _ => rfl
  | map | tryMap =>
    refine .inl fun h => ?_
    exact (List.filterMap_append ..).trans (by rw [Effect.snapshots_closure]; rfl)
  | mapWeak =>
    refine .inl fun h => ?_
    unfold Effect.mapWeak
    dsimp only
    split
    · rw [List.filterMap_append, Effect.snapshots_closure]
      rfl
    · rw [List.filterMap_append, Effect.snapshots_closure, Settlement.snapshots_actions]
      rfl
  | _ => exact .inl fun h => Settlement.snapshots_actions _ _

@[simp] theorem kept_schedule (as : List Action) :
    (m.schedule as).kept = as.filterMap Action.snapshot? ++ m.kept := by
  simp only [kept, agenda_schedule, List.filterMap_append, List.append_assoc]
  rfl

@[simp] theorem kept_withTable (t : TableId) (new : Table) :
    (m.withTable t new).kept = m.kept := by
  cases t <;> rfl

@[simp] theorem kept_takeOut (locs : List Location) :
    (m.takeOut locs).kept = m.kept := by
  induction locs generalizing m with
  | nil => rfl
  | cons loc locs ih => rw [takeOut_cons, ih, erase, kept_withTable]

theorem kept_carryOut (e : Effect) : (m.carryOut e).kept =
    (e.call (m.takeOut e.taken).heap).2.filterMap Action.snapshot? ++ m.kept := by
  rw [← kept_takeOut (m := m) e.taken]
  exact kept_schedule (m := ⟨_, (m.takeOut e.taken).env⟩) _

theorem kept_closing (ts : List TableId) (call : Heap → Heap × Settlement) :
    (m.carryOut (.closing ts call)).kept = m.kept := by
  rw [kept_carryOut]
  exact congrArg (· ++ m.kept) (Settlement.snapshots_actions _ ts)

@[simp] theorem kept_store (loc : Location) (x : Slot) :
    (m.store loc x).kept = m.kept := by
  simp only [store, kept_schedule, Action.snapshots_drops, insert, kept_withTable,
    List.nil_append]

/-- A destructor that starts takes no snapshot, whatever its steps will do. -/
theorem kept_startDestructor (m : Machine) (o : ObjectId) :
    (m.startDestructor o).kept = m.kept := by
  obtain ⟨h, env⟩ := m
  simp only [startDestructor, onHeap]
  split
  · next n _ =>
    have hsteps : (execAll n.id (h.beginDestruction o).2.onDrop).filterMap Action.snapshot? = [] := by
      rw [List.filterMap_eq_nil_iff]
      intro a ha
      obtain ⟨s, -, hs⟩ := List.mem_flatMap.mp ha
      rcases List.mem_pair.mp hs with rfl | rfl <;> rfl
    rw [kept_schedule, List.filterMap_append, hsteps]
    rfl
  · rfl

/-- A drop takes no snapshot. -/
theorem kept_dropSlot (m : Machine) (x : Slot) : (m.dropSlot x).kept = m.kept := by
  obtain ⟨h, env⟩ := m
  rcases x with ⟨k, _ | b, v⟩ | ⟨k, _ | b, v⟩ | ⟨k, a, _ | o⟩ | r
  case strong.some =>
    by_cases last : h.strongCount b = 1
    · simp only [dropSlot, releaseOwner_last last]
      cases h.blocks[b]?.bind (·.pointee) with
      | none => rfl
      | some o => exact kept_startDestructor _ o
    · simp only [dropSlot, releaseOwner_others last]
      rfl
  case unique.some => exact kept_startDestructor ⟨h, env⟩ o
  all_goals rfl

theorem snapshots_roundOf (n : Nat) (body : List Step) :
    (roundOf n body).filterMap Action.snapshot? = [] :=
  List.filterMap_eq_nil_iff.mpr fun _ ha => (inner_roundOf ha).snapshot?

/-- An action that executes no step takes no snapshot. -/
theorem kept_perform (ha : ∀ s, a ≠ .exec s) (hn : a.snapshot? = none) :
    (m.perform a).kept = m.kept := by
  have hempty (t : TableId) (b : Action) (hb : b.snapshot? = none) :
      (m.emptyOut t b).kept = m.kept := by
    unfold emptyOut
    split
    · rw [kept_schedule, List.filterMap_cons, List.filterMap_cons, hb, kept_withTable]
      rfl
    · rfl
  cases a with
  | exec s => exact absurd rfl (ha s)
  | remember => cases hn
  | drop y => exact kept_dropSlot m y
  | unlink o => exact hempty _ _ rfl
  | clear => exact hempty _ _ rfl
  | putBack loc y counted =>
    obtain ⟨rs, h⟩ := perform_putBack m loc y counted
    rw [h, kept_store]
    rfl
  | place y dst form =>
    obtain ⟨rs, h⟩ := placeAt_eq m y dst form
    rw [perform, h]
    split
    · rw [kept_store]
      rfl
    · rw [kept_schedule]
      rfl
  | letGo t =>
    simp only [perform, letGoOf]
    split
    · rw [kept_schedule, Action.snapshots_drops, kept_withTable, List.nil_append]
    · rfl
  | round n body => rw [perform, kept_schedule, snapshots_roundOf, List.nil_append]
  | project j source total => exact kept_closing _ _
  | projectWeak j source locked => exact kept_closing _ _
  | did | leave | reclaim | giveUpImplicit | answer | gather | forget | record => rfl

/-- The snapshot of an action is put away. -/
theorem kept_remember {name : String} {now : Metrics} :
    x ∈ (m.perform (.remember name now)).kept ↔ x = (name, now) ∨ x ∈ m.kept := by
  change x ∈ m.env.agenda.filterMap Action.snapshot? ++ (name, now) :: m.env.marks ↔ _
  simp only [kept, List.mem_append, List.mem_cons]
  tauto

/-- What a step takes is what the metrics are before it. -/
theorem kept_step (hx : x ∈ m.step.kept) :
    x ∈ m.kept ∨ m.executes? = some (.mark x.1) ∧ x.2 = m.heap.metrics := by
  cases hn : m.next? with
  | none =>
    rw [step_eq_self hn] at hx
    exact .inl hx
  | some an =>
    obtain ⟨a, n⟩ := an
    obtain ⟨hheap, -, hagenda, -⟩ := next?_eq_some hn
    have hmarks : n.env.marks = m.env.marks := by
      unfold next? at hn
      split at hn <;> cases hn
      rfl
    have hkept : m.kept = a.snapshot?.toList ++ n.kept := by
      unfold kept
      rw [hagenda, hmarks, List.filterMap_cons]
      cases a.snapshot? <;> rfl
    rw [step_eq_perform hn] at hx
    rw [hkept]
    cases a with
    | exec s =>
      simp only [perform] at hx
      split at hx
      · next e hplan =>
        rw [kept_carryOut] at hx
        rcases (plan_planned hplan).keeps with hnone | ⟨name, rfl, rfl⟩
        · rw [hnone] at hx
          exact .inl hx
        · rcases List.mem_append.mp hx with hx | hx
          · obtain rfl := List.mem_singleton.mp hx
            refine .inr ⟨by rw [executes?, hagenda], ?_⟩
            exact congrArg Heap.metrics hheap
          · exact .inl hx
      · exact .inl hx
    | remember name now => exact .inl (List.mem_cons.mpr (kept_remember.mp hx))
    | _ =>
      rw [kept_perform (by rintro s ⟨⟩) rfl] at hx
      exact .inl hx

end

/-! ## Runs -/

section

variable {run : Nat → Machine} {n n' : Nat} {x : String × Metrics}

/-- What has been taken are the metrics of earlier moments. -/
theorem IsRationed.exists_mark (hr : IsRationed run) (hx : x ∈ (run n).kept) :
    ∃ i < n, (run i).executes? = some (.mark x.1) ∧ x.2 = (run i).heap.metrics := by
  induction n with
  | zero =>
    obtain ⟨steps, watch, hstart⟩ := hr.start
    rw [hstart] at hx
    exfalso
    rcases List.mem_append.mp hx with hx | hx
    · obtain ⟨a, ha, hax⟩ := List.mem_filterMap.mp hx
      rcases List.mem_append.mp ha with ha | ha
      · obtain ⟨s, -, hs⟩ := List.mem_flatMap.mp ha
        rcases List.mem_pair.mp hs with rfl | rfl <;> cases hax
      · obtain rfl := List.mem_singleton.mp ha
        cases hax
    · cases hx
  | succ n ih =>
    obtain ⟨limits, hnext⟩ := hr.next n
    rw [hnext] at hx
    rcases kept_step hx with hx | ⟨hmark, hmetrics⟩
    · obtain ⟨i, hi, h⟩ := ih hx
      exact ⟨i, Nat.lt_succ_of_lt hi, h⟩
    · exact ⟨n, Nat.lt_succ_self n, hmark, hmetrics⟩

/-- The metrics are not set to zero by the steps from `n` on, before `n'`. -/
def Unreset (run : Nat → Machine) (n n' : Nat) : Prop :=
  ∀ i, n ≤ i → i < n' → (run i).resets = false

/-- A step that is no reset lets no counter fall. -/
theorem IsRationed.metrics_le_succ (hr : IsRationed run) (hn : (run n).resets = false) :
    (run n).heap.metrics ≤ (run (n + 1)).heap.metrics := by
  rw [(hr.logsStep n).metrics, hn, if_neg Bool.false_ne_true]
  exact Metrics.le_foldl_note _ _

theorem IsRationed.metrics_mono (hr : IsRationed run) (hle : n ≤ n') (hu : Unreset run n n') :
    (run n).heap.metrics ≤ (run n').heap.metrics := by
  induction n', hle using Nat.le_induction with
  | base => exact le_rfl
  | succ n' hle ih =>
    have hrest : Unreset run n n' := fun i hi hin => hu i hi (Nat.lt_succ_of_lt hin)
    exact (ih hrest).trans (hr.metrics_le_succ (hu n' hle (Nat.lt_succ_self n')))

theorem Unreset.mono {n₁ n₂ : Nat} (hu : Unreset run n n') (h₁ : n ≤ n₁) (h₂ : n₂ ≤ n') :
    Unreset run n₁ n₂ :=
  fun i hi hin => hu i (h₁.trans hi) (Nat.lt_of_lt_of_le hin h₂)

theorem IsRationed.metrics_ordered (hr : IsRationed run) (hu : Unreset run 0 n) :
    (run n).heap.metrics.Ordered := by
  obtain ⟨hfreed, hdisposed⟩ := hr.counters_ordered ⟨.inl rfl, Nat.zero_le n, hu⟩
  exact ⟨hfreed, hdisposed⟩

end

/-- How the metrics of a run's moments go together, if they have not been reset. -/
structure Snapshots (run : Nat → Machine) : Prop where
  /-- No counter falls. -/
  rising : ∀ n₁ n₂, n₁ ≤ n₂ → Unreset run n₁ n₂ → (run n₁).heap.metrics ≤ (run n₂).heap.metrics
  /-- What has been counted since a moment was counted up to a later one, or since that. -/
  composes : ∀ n₀ n₁ n₂, n₀ ≤ n₁ → n₁ ≤ n₂ → Unreset run n₀ n₂ →
    (run n₂).heap.metrics.since (run n₀).heap.metrics =
      (run n₂).heap.metrics.since (run n₁).heap.metrics +
        (run n₁).heap.metrics.since (run n₀).heap.metrics
  /-- The derived counts of a difference are the differences of the derived counts, unless there
  are fewer blocks than there were. -/
  live : ∀ n₀ n₂, n₀ ≤ n₂ → Unreset run 0 n₂ →
    (((run n₂).heap.metrics.since (run n₀).heap.metrics).live : Int) =
      max 0 (((run n₂).heap.metrics.live : Int) - (run n₀).heap.metrics.live)
  expired : ∀ n₀ n₂, n₀ ≤ n₂ → Unreset run 0 n₂ →
    (((run n₂).heap.metrics.since (run n₀).heap.metrics).expired : Int) =
      max 0 (((run n₂).heap.metrics.expired : Int) - (run n₀).heap.metrics.expired)
  /-- What a program is told is the difference to a moment at which it has taken a snapshot under
  the name. -/
  told : ∀ n name e, (run n).plan (.since name) = .ok e → ∃ i < n,
    (run i).executes? = some (.mark name) ∧
      e = .answer (.metrics ((run n).heap.metrics.since (run i).heap.metrics))

section

variable {run : Nat → Machine}

/-- Differences between snapshots add up, whatever is done and refused in between. -/
theorem IsRationed.snapshots (hr : IsRationed run) : Snapshots run := by
  constructor
  case rising => exact fun n₁ n₂ hle hu => hr.metrics_mono hle hu
  case composes =>
    intro n₀ n₁ n₂ h₀₁ h₁₂ hu
    have hfirst := hr.metrics_mono h₀₁ (hu.mono le_rfl h₁₂)
    have hsecond := hr.metrics_mono h₁₂ (hu.mono h₀₁ le_rfl)
    exact (Metrics.since_add_since hfirst hsecond).symm
  case live =>
    intro n₀ n₂ h₀₂ hu
    exact Metrics.live_since (hr.metrics_mono h₀₂ (hu.mono (Nat.zero_le n₀) le_rfl))
      (hr.metrics_ordered (hu.mono le_rfl h₀₂)) (hr.metrics_ordered hu)
  case expired =>
    intro n₀ n₂ h₀₂ hu
    exact Metrics.expired_since (hr.metrics_mono h₀₂ (hu.mono (Nat.zero_le n₀) le_rfl))
      (hr.metrics_ordered (hu.mono le_rfl h₀₂)) (hr.metrics_ordered hu)
  case told =>
    intro n name e he
    simp only [plan] at he
    split at he
    · next earlier hlookup =>
      cases he
      have hmark : (name, earlier) ∈ (run n).kept := by
        obtain ⟨later, older, heq, -⟩ := List.lookup_eq_some_iff.mp hlookup
        exact List.mem_append_right _ (heq ▸ List.mem_append_right _ List.mem_cons_self)
      obtain ⟨i, hi, hexec, hmetrics⟩ := hr.exists_mark hmark
      exact ⟨i, hi, hexec, by rw [← hmetrics]⟩
    · cases he

end

/-- Between the snapshots one block expires and another one is made. After them the first one is
freed. -/
def surveyed : List Step :=
  [.new .int (.int 1) .global ⟨false, [], "a"⟩, .mark "first",
    .downgrade ⟨false, [], "a"⟩ ⟨false, [], "w"⟩, .drop ⟨false, [], "a"⟩,
    .lock ⟨false, [], "w"⟩ ⟨false, [], "b"⟩, .new .int (.int 2) .global ⟨false, [], "c"⟩,
    .mark "second", .drop ⟨false, [], "w"⟩, .since "first"]

/-- There is a live block more at the second snapshot than at the first, and an expired one. In the
end there is one less of each than at the second, and the differences to that stop at zero. -/
theorem snapshots_surveyed :
    let run := moment surveyed false
    let first := (run 3).heap.metrics
    let second := (run 24).heap.metrics
    let last := (run 31).heap.metrics
    (first = ⟨1, 0, 0, 0, 0, 0⟩ ∧ first.live = 1 ∧ first.expired = 0) ∧
      (second = ⟨2, 0, 1, 1, 1, 0⟩ ∧ second.live = 2 ∧ second.expired = 1) ∧
      (last = ⟨2, 1, 1, 1, 1, 0⟩ ∧ last.live = 1 ∧ last.expired = 0) ∧
      ((second.since first).live = 1 ∧ (second.since first).expired = 1) ∧
      ((last.since second).live = 0 ∧ (last.since second).expired = 0) ∧
      last.since first = last.since second + second.since first ∧ Unreset run 0 31 ∧
      (run 31).plan (.since "first") = .ok (.answer (.metrics ⟨1, 1, 1, 1, 1, 0⟩)) ∧
      Snapshots run := by
  intro run first second last
  have hunreset : ∀ i < 31, (run i).resets = false := by decide
  exact ⟨by decide, by decide, by decide, by decide, by decide, by decide, fun i _ => hunreset i,
    rfl, IsRationed.snapshots (isRationed_moment surveyed false)⟩

end Machine

end Custody
