import Custody.Proofs.Scope
import Custody.Proofs.Steps

/-!
# What a machine works on is there

* `Machine.Anchored`: the tables that the agenda works on, and the nodes whose destructors run.
* `Machine.Grounded`: so the machine is, and its scene is scoped. Steps keep it.
* `Machine.Grounded.step_cases`: a step is a loss, if the next action gives a stake up, and shifts.
-/

namespace Custody

theorem Action.Lands.mono {h h' : Heap} {a : Action} (ha : a.Lands h) (he : h'.Extends h) :
    a.Lands h' :=
  ⟨fun t ht => he.has (ha.tables t ht), ha.typed⟩

namespace Machine

variable {m n : Machine}

/-! ## The agenda and the nodes that run -/


@[simp] theorem agenda_schedule (as : List Action) :
    (m.schedule as).env.agenda = as ++ m.env.agenda := rfl

@[simp] theorem running_schedule (as : List Action) :
    (m.schedule as).env.running = m.env.running := rfl

@[simp] theorem agenda_withTable (t : TableId) (new : Table) :
    (m.withTable t new).env.agenda = m.env.agenda := by
  cases t <;> rfl

@[simp] theorem running_withTable (t : TableId) (new : Table) :
    (m.withTable t new).env.running = m.env.running := by
  cases t <;> rfl

@[simp] theorem agenda_takeOut (locs : List Location) :
    (m.takeOut locs).env.agenda = m.env.agenda := by
  induction locs generalizing m with
  | nil => rfl
  | cons loc locs ih => rw [takeOut_cons, ih, erase, agenda_withTable]

@[simp] theorem running_takeOut (locs : List Location) :
    (m.takeOut locs).env.running = m.env.running := by
  induction locs generalizing m with
  | nil => rfl
  | cons loc locs ih => rw [takeOut_cons, ih, erase, running_withTable]

theorem agenda_carryOut (e : Effect) :
    (m.carryOut e).env.agenda = (e.call (m.takeOut e.taken).heap).2 ++ m.env.agenda := by
  simp only [carryOut, onHeap, agenda_schedule, agenda_takeOut]

theorem running_carryOut (e : Effect) : (m.carryOut e).env.running = m.env.running := by
  simp only [carryOut, onHeap, running_schedule, running_takeOut]

theorem agenda_store (loc : Location) (x : Slot) :
    (m.store loc x).env.agenda = (m.get? loc).toList.map .drop ++ m.env.agenda := by
  simp only [store, agenda_schedule, insert, agenda_withTable]

theorem running_store (loc : Location) (x : Slot) :
    (m.store loc x).env.running = m.env.running := by
  simp only [store, running_schedule, insert, running_withTable]

theorem lands_drops {h : Heap} (xs : List Slot) : ∀ a ∈ xs.map Action.drop, a.Lands h := by
  intro a ha
  obtain ⟨x, -, rfl⟩ := List.mem_map.mp ha
  exact lands_of_not_worksOn fun _ => rfl

/-- What the second machine has to do first is new, and works on tables that the first one has. -/
def Prepends (m n : Machine) : Prop :=
  ∃ as, n.env.agenda = as ++ m.env.agenda ∧ ∀ a ∈ as, a.Lands m.heap

theorem Prepends.of_eq (h : n.env.agenda = m.env.agenda) : m.Prepends n := ⟨[], h, by simp⟩

/-- The memory of the object is returned before anything that was due is done. -/
theorem agenda_startDestructor (m : Machine) (o : ObjectId) :
    ∃ as, (m.startDestructor o).env.agenda = as ++ .reclaim o :: m.env.agenda ∧
      ∀ a ∈ as, ∀ h, a.Lands h := by
  obtain ⟨h, env⟩ := m
  simp only [startDestructor, onHeap]
  split
  · next n hn =>
    refine ⟨execAll n.id (h.beginDestruction o).2.onDrop ++ [.leave, .unlink o], ?_, ?_⟩
    · rw [agenda_schedule, List.append_cons _ Action.leave, List.append_cons _ (Action.unlink o)]
      simp [mapEnv, mapHeap]
    · intro a ha h
      refine lands_of_not_worksOn fun t => ?_
      rcases List.mem_append.mp ha with ha | ha
      · obtain ⟨s, -, hs⟩ := List.mem_flatMap.mp ha
        rcases List.mem_pair.mp hs with rfl | rfl <;> rfl
      · rcases List.mem_pair.mp ha with rfl | rfl <;> rfl
  · refine ⟨[.unlink o], by rw [agenda_schedule]; rfl, fun a ha h => ?_⟩
    obtain rfl := List.mem_singleton.mp ha
    exact lands_of_not_worksOn fun _ => rfl

/-- The last owner leaves the pointee's memory to be returned, and then the implicit reference. -/
theorem agenda_releaseOwner {b : BlockId} {o : ObjectId} (last : m.heap.strongCount b = 1)
    (ho : m.heap.blocks[b]?.bind (·.pointee) = some o) :
    ∃ as, (m.releaseOwner b).env.agenda = as ++ .reclaim o :: .giveUpImplicit b :: m.env.agenda ∧
      ∀ a ∈ as, ∀ h, a.Lands h := by
  obtain ⟨h, env⟩ := m
  have hsnd : (h.releaseStrong b).2 = true := by simp [Heap.releaseStrong_snd, last]
  have htake : ((h.releaseStrong b).1.takePointee b).2 = some o := by
    rw [Heap.takePointee_releaseStrong_snd, ho]
  simp only [releaseOwner, onHeap, hsnd, ↓reduceIte, htake]
  exact agenda_startDestructor (schedule [.giveUpImplicit b] ⟨_, env⟩) o

theorem running_startDestructor {o o' : ObjectId}
    (ho : o' ∈ (m.startDestructor o).env.running) : o' ∈ m.env.running ∨ o' = o := by
  obtain ⟨h, env⟩ := m
  simp only [startDestructor, onHeap] at ho
  split at ho
  · rw [running_schedule] at ho
    exact (List.mem_cons.mp ho).symm
  · exact .inl ho

/-- The tables that the agenda works on and the nodes whose destructors run are there. -/
structure Anchored (m : Machine) : Prop where
  agenda : ∀ a ∈ m.env.agenda, a.Lands m.heap
  running : ∀ o ∈ m.env.running, o < m.heap.objects.size

/-- Neither what the machine works on nor what there is a stake in leads out of the heap. -/
structure Grounded (m : Machine) : Prop extends Anchored m where
  scope : Scoped m.scene

/-- A path leads to the root table, to that of a node whose destructor runs, or through a pointer to
a node. -/
theorem resolve?_induction {P : TableId → Prop} {p : Path} {loc : Location} (hroot : P .root)
    (hrunning : ∀ o ∈ m.env.running, P (.links o))
    (hnode : ∀ x o, x ∈ m.pointers → x.node? = some o → P (.links o))
    (hl : m.resolve? p = some loc) : P loc.table := by
  have hfold (names : List String) {t t' : TableId} (ht : P t)
      (hf : names.foldlM (fun t name => do
        let x ← (m.table t).get? name
        return .links (← x.node?)) t = some t') : P t' := by
    induction names generalizing t with
    | nil =>
      cases hf
      exact ht
    | cons name names ih =>
      simp only [List.foldlM_cons, Option.bind_eq_bind, Option.bind_eq_some_iff] at hf
      obtain ⟨s, ⟨x, hx, o, ho, hs⟩, hf⟩ := hf
      cases hs
      have hx : m.get? ⟨t, name⟩ = some x := hx
      exact ih (hnode x o (mem_pointers_of_get? hx) ho) hf
  unfold resolve? at hl
  split at hl
  · simp only [Option.bind_eq_bind, Option.bind_eq_some_iff] at hl
    obtain ⟨start, hstart, t, ht, hl⟩ := hl
    obtain ⟨o, ho, rfl⟩ := Option.map_eq_some_iff.mp hstart
    cases hl
    exact hfold p.through (t := .links o) (hrunning o (List.mem_of_head? ho)) ht
  · simp only [Option.bind_eq_bind, Option.bind_eq_some_iff] at hl
    obtain ⟨start, hstart, t, ht, hl⟩ := hl
    cases hstart
    cases hl
    exact hfold p.through (t := .root) hroot ht

/-- Paths go through pointers that exist, to nodes that are there. -/
theorem Grounded.resolves (hm : m.Grounded) : m.Resolves := by
  intro p loc hl
  refine resolve?_induction (P := m.heap.Has) trivial hm.running (fun x o hx ho => ?_) hl
  exact Slot.Within.node? (hm.scope.stakes _ (pointer_mem_stakes_iff.mpr hx)) ho

theorem prepends_closing {ts : List TableId} {call : Heap → Heap × Settlement}
    (ht : ∀ t ∈ ts, m.heap.Has t) (ho : ∀ x ∈ (call m.heap).2.operands, m.heap.Has x.1.table) :
    m.Prepends (m.carryOut (.closing ts call)) := by
  refine ⟨_, agenda_carryOut _, fun a ha => ⟨fun t hat => ?_, Settlement.typed_actions ha⟩⟩
  rcases Settlement.worksOn_actions ha hat with hts | ⟨x, hx, rfl⟩
  · exact ht t hts
  · exact ho x hx

/-- What a drop leaves to be done comes first, and works on tables that are there. -/
theorem prepends_dropSlot (m : Machine) (x : Slot) : m.Prepends (m.dropSlot x) := by
  have hgive (b : BlockId) : (Action.giveUpImplicit b).Lands m.heap :=
    lands_of_not_worksOn fun _ => rfl
  have hreclaim (o : ObjectId) : (Action.reclaim o).Lands m.heap :=
    lands_of_not_worksOn fun _ => rfl
  have hrelease (b : BlockId) : m.Prepends (m.releaseOwner b) := by
    by_cases last : m.heap.strongCount b = 1
    · cases ho : m.heap.blocks[b]?.bind (·.pointee) with
      | some o =>
        obtain ⟨as, hagenda, has⟩ := agenda_releaseOwner last ho
        refine ⟨as ++ [.reclaim o, .giveUpImplicit b], by simp [hagenda], fun a ha => ?_⟩
        rcases List.mem_append.mp ha with ha | ha
        · exact has a ha m.heap
        · rcases List.mem_pair.mp ha with rfl | rfl
          · exact hreclaim o
          · exact hgive b
      | none =>
        obtain ⟨h, env⟩ := m
        have hsnd : (h.releaseStrong b).2 = true := by simp [Heap.releaseStrong_snd, last]
        have htake : ((h.releaseStrong b).1.takePointee b).2 = none := by
          rw [Heap.takePointee_releaseStrong_snd, ho]
        simp only [releaseOwner, onHeap, hsnd, ↓reduceIte, htake]
        refine ⟨[.giveUpImplicit b], agenda_schedule _, fun a ha => ?_⟩
        obtain rfl := List.mem_singleton.mp ha
        exact hgive b
    · obtain ⟨h, env⟩ := m
      have hsnd : (h.releaseStrong b).2 = false := by simp [Heap.releaseStrong_snd, last]
      simp only [releaseOwner, onHeap, hsnd, Bool.false_eq_true, ↓reduceIte]
      exact .of_eq rfl
  rcases x with ⟨k, _ | b, v⟩ | ⟨k, _ | b, v⟩ | ⟨k, a, _ | o⟩ | r
  case strong.some => exact hrelease b
  case unique.some =>
    obtain ⟨as, hagenda, has⟩ := agenda_startDestructor m o
    refine ⟨as ++ [.reclaim o], by simp [dropSlot, hagenda], fun a ha => ?_⟩
    rcases List.mem_append.mp ha with ha | ha
    · exact has a ha m.heap
    · obtain rfl := List.mem_singleton.mp ha
      exact hreclaim o
  all_goals exact .of_eq rfl

/-- What an action leaves to be done works on tables that are there. -/
theorem prepends_perform {a : Action} (hm : m.Grounded) (ha : a.Lands m.heap) :
    m.Prepends (m.perform a) := by
  have hstore {n : Machine} (hn : n.env.agenda = m.env.agenda) (loc : Location) (x : Slot) :
      m.Prepends (n.store loc x) :=
    ⟨_, by rw [agenda_store, hn], lands_drops _⟩
  have hempty {t : TableId} {a : Action} (ha : ∀ t, a.worksOn t = false) :
      m.Prepends (m.emptyOut t a) := by
    unfold emptyOut
    split
    · refine ⟨_, by rw [agenda_schedule, agenda_withTable], fun c hc => ?_⟩
      refine lands_of_not_worksOn fun t => ?_
      rcases List.mem_pair.mp hc with rfl | rfl
      · rfl
      · exact ha t
    · exact .of_eq rfl
  cases a with
  | exec s =>
    simp only [perform]
    split
    · next e he =>
      obtain ⟨xs, -, hfits⟩ := plan_admits hm.resolves he
      refine ⟨_, agenda_carryOut e, fun c hc => ⟨fun t ht => ?_, (hfits.tables c hc).typed⟩⟩
      exact (has_takeOut _).mp ((hfits.tables c hc).tables t ht)
    · exact .of_eq rfl
  | drop x => exact prepends_dropSlot m x
  | unlink o => exact hempty fun _ => rfl
  | clear => exact hempty fun _ => rfl
  | putBack loc x counted =>
    cases counted with
    | false => exact hstore rfl loc x
    | true => exact hstore (n := m.reply _) rfl loc x
  | place x dst form =>
    have hplace {n : Machine} (hn : n.env.agenda = m.env.agenda) (r : Reply) :
        m.Prepends ((n.reply r).schedule [.drop x]) :=
      ⟨[.drop x], by rw [agenda_schedule, ← hn]; rfl, lands_drops [x]⟩
    simp only [perform, placeAt]
    cases form with
    | plain | promoted =>
      dsimp only
      split
      · exact hplace rfl _
      · exact hstore (n := m.reply _) rfl _ x
    | during =>
      dsimp only
      split
      · exact hplace (n := m.takeReply.1) rfl _
      · exact hstore (n := m.takeReply.1.reply _) rfl _ x
  | letGo t =>
    simp only [perform, letGoOf]
    split
    · exact ⟨_, by rw [agenda_schedule, agenda_withTable], lands_drops _⟩
    · exact .of_eq rfl
  | round n body =>
    exact ⟨roundOf n body, agenda_schedule _,
      fun c hc => lands_of_not_worksOn (inner_roundOf hc).worksOn⟩
  | project j source total =>
    have hj : m.heap.Has j.source.table := ha.tables _ (by simp [Action.worksOn])
    exact prepends_closing (by simpa using hj) (by simpa using hj)
  | projectWeak j source locked =>
    have hj : m.heap.Has j.source.table := ha.tables _ (by simp [Action.worksOn])
    exact prepends_closing (by simpa using hj) (by simpa using hj)
  | did | leave | reclaim | giveUpImplicit | answer | gather | forget | record | remember =>
    exact .of_eq rfl

/-- The node whose destructor starts is one that a pointer or a block led to. -/
theorem running_dropSlot {x : Slot} (hs : Scoped m.scene) (hx : x.Within m.heap) :
    ∀ o ∈ (m.dropSlot x).env.running, o ∈ m.env.running ∨ o < m.heap.objects.size := by
  have hrelease {b : BlockId} : ∀ o ∈ (m.releaseOwner b).env.running,
      o ∈ m.env.running ∨ o < m.heap.objects.size := by
    obtain ⟨h, env⟩ := m
    intro o' ho'
    simp only [releaseOwner, onHeap] at ho'
    cases hlast : (h.releaseStrong b).2 with
    | false =>
      simp only [hlast, Bool.false_eq_true, ↓reduceIte] at ho'
      exact .inl ho'
    | true =>
      simp only [hlast, ↓reduceIte] at ho'
      cases ho : ((h.releaseStrong b).1.takePointee b).2 with
      | none =>
        simp only [ho] at ho'
        exact .inl ho'
      | some o =>
        simp only [ho] at ho'
        rcases running_startDestructor ho' with ho' | rfl
        · exact .inl ho'
        · rw [Heap.takePointee_snd] at ho
          obtain ⟨y, hy, ho⟩ := Option.bind_eq_some_iff.mp ho
          exact .inr (hs.pointees o' (.of_releaseStrong ⟨b, y, hy, ho⟩))
  intro o ho
  rcases x with ⟨k, _ | b, v⟩ | ⟨k, _ | b, v⟩ | ⟨k, a, _ | o'⟩ | r
  case strong.some => exact hrelease o ho
  case unique.some =>
    rcases running_startDestructor ho with ho | rfl
    · exact .inl ho
    · exact .inr (Slot.within_unique.mp hx)
  all_goals exact .inl ho

/-- No destructor runs of an object that is not there. -/
theorem running_perform {a : Action} (hs : Scoped (m.heap, a.stakes + m.stakes)) :
    ∀ o ∈ (m.perform a).env.running, o ∈ m.env.running ∨ o < m.heap.objects.size := by
  have hkeep {n : Machine} (hn : n.env.running = m.env.running) :
      ∀ o ∈ n.env.running, o ∈ m.env.running ∨ o < m.heap.objects.size := by
    rw [hn]
    exact fun o => .inl
  have hempty (t : TableId) (a : Action) : (m.emptyOut t a).env.running = m.env.running := by
    unfold emptyOut
    split
    · rw [running_schedule, running_withTable]
    · rfl
  cases a with
  | drop x => exact running_dropSlot hs.tail hs.head
  | exec s =>
    simp only [perform]
    split
    · exact hkeep (running_carryOut _)
    · exact hkeep rfl
  | unlink o => exact hkeep (hempty _ _)
  | clear => exact hkeep (hempty _ _)
  | putBack loc x counted =>
    cases counted with
    | false => exact hkeep (running_store loc x)
    | true => exact hkeep (running_store (m := m.reply _) loc x)
  | place x dst form =>
    simp only [perform, placeAt]
    cases form with
    | plain | promoted =>
      dsimp only
      split
      · exact hkeep rfl
      · exact hkeep (running_store (m := m.reply _) _ x)
    | during =>
      dsimp only
      split
      · exact hkeep rfl
      · exact hkeep (running_store (m := m.takeReply.1.reply _) _ x)
  | letGo t =>
    simp only [perform, letGoOf]
    split
    · rw [running_schedule, running_withTable]
      exact fun o => .inl
    · exact fun o => .inl
  | project j source total => exact hkeep (running_carryOut _)
  | projectWeak j source locked => exact hkeep (running_carryOut _)
  | leave => exact fun o ho => .inl (List.mem_of_mem_tail ho)
  | did | reclaim | giveUpImplicit | answer | gather | forget | round | record | remember =>
    exact fun o => .inl

/-! ## Steps -/

section Steps

variable {a : Action}

theorem step_eq_self (h : m.next? = none) : m.step = m := by
  simp only [step, h]

theorem step_eq_perform (h : m.next? = some (a, n)) : m.step = n.perform a := by
  simp only [step, h]

/-- Taking an action off the agenda moves its stakes aside, and nothing else. -/
theorem next?_eq_some (h : m.next? = some (a, n)) :
    n.heap = m.heap ∧ n.env.running = m.env.running ∧ m.env.agenda = a :: n.env.agenda ∧
      m.stakes = a.stakes + n.stakes := by
  obtain ⟨heap, env⟩ := m
  unfold next? at h
  split at h
  · cases h
  · next rest hagenda =>
    cases h
    refine ⟨rfl, rfl, hagenda, ?_⟩
    have hagenda : env.agenda = a :: rest := hagenda
    simp only [stakes, mapEnv, hagenda, stakesOf_cons]
    abel

theorem next?_of_agenda (ha : m.env.agenda = a :: rest) :
    m.next? = some (a, m.mapEnv fun e => { e with agenda := rest }) := by
  simp only [next?, ha]

/-- What is taken off the agenda works on what is there. -/
theorem Grounded.next (hm : m.Grounded) (h : m.next? = some (a, n)) :
    n.Grounded ∧ a.Lands n.heap ∧ Scoped (n.heap, a.stakes + n.stakes) := by
  obtain ⟨hheap, hrunning, hagenda, hstakes⟩ := next?_eq_some h
  have hs : Scoped (n.heap, a.stakes + n.stakes) := by
    rw [hheap, ← hstakes]
    exact hm.scope
  refine ⟨⟨⟨fun c hc => ?_, fun o ho => ?_⟩, ?_⟩, ?_, hs⟩
  · rw [hheap]
    exact hm.agenda c (hagenda ▸ List.mem_cons_of_mem a hc)
  · rw [hheap]
    exact hm.running o (hrunning ▸ ho)
  · exact ⟨fun l hl => hs.stakes l (Multiset.mem_add.mpr (.inr hl)), hs.pointees⟩
  · rw [hheap]
    exact hm.agenda a (hagenda ▸ List.mem_cons_self)

/-- What is due later stays due. -/
theorem Grounded.step_agenda {rest : List Action} (hm : m.Grounded)
    (ha : m.env.agenda = a :: rest) : ∃ as, m.step.env.agenda = as ++ rest := by
  have hn := next?_of_agenda ha
  obtain ⟨hg, hland, -⟩ := hm.next hn
  obtain ⟨as, hagenda, -⟩ := prepends_perform hg hland
  rw [step_eq_perform hn]
  exact ⟨as, hagenda⟩

/-- The stake that the next action gives up. -/
def lost? (m : Machine) : Option Stake := m.env.agenda.head?.bind (·.loses?)

/-- The view that the next action yields. -/
def yield? (m : Machine) : Option Place := m.next?.bind fun (a, n) => a.yield? n

/-- A step gives up one stake, if any, and then it makes shifts. -/
theorem Grounded.step_cases (hm : m.Grounded) :
    m.lost? = none ∧ Shifts m.yield? m.scene m.step.scene ∨
      ∃ k K s, m.lost? = some k ∧ m.scene = (m.heap, k ::ₘ K) ∧ Loss m.heap K k s ∧
        Shifts m.yield? s m.step.scene := by
  cases hn : m.next? with
  | none =>
    refine .inl ⟨?_, ?_⟩
    · unfold next? at hn
      split at hn
      · next hagenda => simp [lost?, hagenda]
      · cases hn
    · rw [step_eq_self hn]
  | some an =>
    obtain ⟨a, n⟩ := an
    obtain ⟨hheap, -, hagenda, hstakes⟩ := next?_eq_some hn
    obtain ⟨hg, hland, -⟩ := hm.next hn
    have hlost : m.lost? = a.loses? := by simp [lost?, hagenda]
    have hyield : m.yield? = a.yield? n := by simp [yield?, hn]
    rw [hyield, hlost, scene, hstakes, ← hheap, step_eq_perform hn]
    cases ha : a.loses? with
    | none => exact .inl ⟨rfl, perform_shifts n hg.resolves ha hland⟩
    | some k =>
      obtain ⟨s, hl, hst⟩ := perform_loses n ha
      rw [Action.stakes_of_loses? ha, Multiset.singleton_add]
      exact .inr ⟨k, n.stakes, s, rfl, rfl, hl, hst⟩

/-- What losses and shifts keep of a scoped scene, a step keeps. -/
theorem step_induction {P : Scene → Prop} (hm : m.Grounded) (hP : P m.scene)
    (hloss : ∀ {h K k s}, Scoped (h, k ::ₘ K) → P (h, k ::ₘ K) → Loss h K k s → P s)
    (hshift : ∀ {s t}, Scoped s → P s → Shift m.yield? s t → P t) : P m.step.scene := by
  have hshifts {s t : Scene} (hs : Scoped s) (hPs : P s) (hst : Shifts m.yield? s t) : P t := by
    induction hst with
    | refl => exact hPs
    | tail hst hc ih => exact hshift (Shifts.scoped hst hs) ih hc
  have hs := hm.scope
  rcases hm.step_cases with ⟨-, hst⟩ | ⟨k, K, s, -, hscene, hl, hst⟩
  · exact hshifts hs hP hst
  · rw [hscene] at hs hP
    exact hshifts (hl.scoped hs) (hloss hs hP hl) hst

theorem Grounded.step_extends (hm : m.Grounded) : m.step.heap.Extends m.heap :=
  step_induction (P := fun s => s.1.Extends m.heap) hm (.refl _)
    (fun _ hs hl => hl.extends.trans hs) fun _ hs hc => hc.extends.trans hs

/-- The main invariant of runs, which all other ones need. -/
theorem Grounded.step (hm : m.Grounded) : m.step.Grounded := by
  have hscope : Scoped m.step.scene :=
    step_induction hm hm.scope (fun hs _ hl => hl.scoped hs) fun hs _ hc => hc.scoped hs
  have he := hm.step_extends
  cases hn : m.next? with
  | none => rwa [step_eq_self hn]
  | some an =>
    obtain ⟨a, n⟩ := an
    obtain ⟨hheap, -, -, -⟩ := next?_eq_some hn
    obtain ⟨hg, hland, hs⟩ := hm.next hn
    rw [← hheap] at he
    rw [step_eq_perform hn] at he hscope ⊢
    refine ⟨⟨fun c hc => ?_, fun o ho => ?_⟩, hscope⟩
    · obtain ⟨as, hagenda, has⟩ := prepends_perform hg hland
      rcases List.mem_append.mp (hagenda ▸ hc) with hc | hc
      · exact (has c hc).mono he
      · exact (hg.agenda c hc).mono he
    · rcases running_perform hs o ho with ho | ho
      · exact Nat.lt_of_lt_of_le (hg.running o ho) he.objects
      · exact Nat.lt_of_lt_of_le ho he.objects

end Steps

end Machine

end Custody
