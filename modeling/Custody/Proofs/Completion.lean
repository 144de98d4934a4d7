import Custody.Proofs.Destruction
import Custody.Proofs.Termination

/-!
# Every cascade completes

A release may start a destructor, whose steps release and make pointers in turn. What a destructor
makes has a destructor of its own, written inside the step that makes it.

* `Machine.IsSequel`: what follows any heap and any agenda, whatever the allocators refuse.
* `Machine.Follows`: one step. It is well-founded.
* `Heap.stepsOf`: the steps that a destructor will run. They leave the object when it starts, and
  none come back.
* `Machine.Completes`, `Machine.IsSequel.completes`: whatever is due is done, and each list of
  steps is handed out at most once.
-/

namespace Custody

variable {Y : Option Place}

/-! ## The steps that are left in an object -/

namespace Heap

variable {h h' : Heap} {o o' : ObjectId} {x : Object} {f : Object → Object}

/-- The steps that the destructor of the object will run. -/
def stepsOf (h : Heap) (o : ObjectId) : List Step := (h.objects[o]?.map (·.onDrop)).getD []

theorem stepsOf_congr (ho : h'.objects = h.objects) : h'.stepsOf o = h.stepsOf o := by
  rw [stepsOf, ho, stepsOf]

theorem stepsOf_modify (ho : h'.objects = h.objects.modify o' f)
    (hf : ∀ x, (f x).onDrop = x.onDrop) : h'.stepsOf o = h.stepsOf o := by
  rw [stepsOf, ho, Array.getElem?_modify, stepsOf]
  split
  · rw [Option.map_map]
    congr 2
    funext x
    exact hf x
  · rfl

theorem stepsOf_push (ho : h'.objects = h.objects.push x) (hlt : o < h.objects.size) :
    h'.stepsOf o = h.stepsOf o := by
  rw [stepsOf, ho, Array.getElem?_push, if_neg (Nat.ne_of_lt hlt), stepsOf]

/-- The steps leave the object when its destructor starts. -/
theorem stepsOf_beginDestruction (h : Heap) (o' o : ObjectId) :
    (h.beginDestruction o').1.stepsOf o = if o' = o then [] else h.stepsOf o := by
  rw [stepsOf, objects_beginDestruction, Array.getElem?_modify, stepsOf]
  split
  · cases h.objects[o]? <;> rfl
  · rfl

/-- What the destructor of the object leaves to be done: the steps of a node, its links, and its
memory. -/
def dutiesOf (h : Heap) (o : ObjectId) : List Action :=
  match h.objects[o]?.map (·.content) with
  | some (Content.node n) => Machine.execAll n.id (h.stepsOf o) ++ [.leave, .unlink o, .reclaim o]
  | _ => [.unlink o, .reclaim o]

end Heap

section

variable {h : Heap} {K : Multiset Stake} {k : Stake} {o : ObjectId}

/-- A change leaves an object the steps of its destructor. -/
theorem Change.stepsOf {s t : Scene} (hc : Change Y s t) (hlt : o < s.1.objects.size) :
    t.1.stepsOf o = s.1.stepsOf o := by
  cases hc with
  | null | copy | forget | revise | release | adopt | setBudget | resetMetrics | remark => rfl
  | share | observe | lock | refuseLock => exact Heap.stepsOf_congr (by simp)
  | construct _ hc =>
    obtain ⟨h₁, o, hc₁, -, rfl⟩ := Unique.construct_eq hc
    obtain ⟨-, -, serial, ho, -⟩ := Heap.construct_eq hc₁
    exact Heap.stepsOf_push ho hlt
  | copyIn _ hc =>
    obtain ⟨-, -, serial, ho, -⟩ := Heap.construct_eq hc
    exact Heap.stepsOf_push ho hlt
  | promote hc => exact Heap.stepsOf_congr (Heap.createBlock_ok hc).2.1
  | refuseBlock _ hc => exact Heap.stepsOf_congr (Heap.createBlock_error hc).2.1
  | @write h K x p c value _ _ _ =>
    cases hp : p.origin with
    | object o' => exact Heap.stepsOf_modify (Heap.objects_write_object hp c) fun _ => rfl
    | static s => exact Heap.stepsOf_congr (Heap.objects_write_static hp c)

theorem Shift.stepsOf {s t : Scene} (hc : Shift Y s t) (hlt : o < s.1.objects.size) :
    t.1.stepsOf o = s.1.stepsOf o := by
  cases hc with
  | change hc => exact hc.stepsOf hlt
  | @relink h K o' t =>
    have hobjects : (h.withLinks o' t).objects =
        h.objects.modify o' fun x => { x with links := t } := rfl
    exact Heap.stepsOf_modify hobjects fun _ => rfl

theorem Shifts.stepsOf {s t : Scene} (hc : Shifts Y s t) (hlt : o < s.1.objects.size) :
    o < t.1.objects.size ∧ t.1.stepsOf o = s.1.stepsOf o := by
  induction hc with
  | refl => exact ⟨hlt, rfl⟩
  | tail _ hc ih =>
    obtain ⟨hlt, heq⟩ := ih
    exact ⟨Nat.lt_of_lt_of_le hlt hc.extends.objects, (hc.stepsOf hlt).trans heq⟩

/-- Only the start of its own destructor takes an object's steps away. -/
theorem Loss.stepsOf {t : Scene} (hl : Loss h K k t) (o : ObjectId) :
    t.1.stepsOf o = if k.starts? h = some o then [] else h.stepsOf o := by
  have hsame {h' : Heap} (ho : h'.objects = h.objects) (hs : k.starts? h = none) :
      h'.stepsOf o = if k.starts? h = some o then [] else h.stepsOf o := by
    rw [hs, Heap.stepsOf_congr ho]
    rfl
  have hstart {h' : Heap} {o' : ObjectId} (ho : h'.objects = h.objects)
      (hs : k.starts? h = some o') : (h'.beginDestruction o').1.stepsOf o =
        if k.starts? h = some o then [] else h.stepsOf o := by
    rw [hs, Heap.stepsOf_beginDestruction, Heap.stepsOf_congr ho]
    simp only [Option.some.injEq]
  cases hl with
  | @free x hx =>
    have hblock := hx.block?
    have howns := hx.owns
    exact hsame rfl (by cases x <;> simp_all [Stake.starts?, Slot.block?])
  | leak => exact hsame rfl rfl
  | release hb others => exact hsame (by simp) (by simp [Stake.starts?, hb, others])
  | dispose hb last ho =>
    rw [Heap.takePointee_releaseStrong_snd] at ho
    exact hstart (by simp) (by simpa [Stake.starts?, hb, last] using ho)
  | disposeNothing hb last ho =>
    rw [Heap.takePointee_releaseStrong_snd] at ho
    exact hsame (by simp) (by simpa [Stake.starts?, hb, last] using ho)
  | unobserve => exact hsame (by simp) rfl
  | destroy ho => exact hstart rfl ho
  | reclaim =>
    rw [Heap.stepsOf_modify Heap.objects_endDestruction fun _ => rfl]
    rfl
  | giveUp => exact hsame (by simp) rfl

end

namespace Machine

variable {m n : Machine} {a : Action} {as rest : List Action} {o : ObjectId}

theorem Grounded.step_stepsOf (hm : m.Grounded) (hlt : o < m.heap.objects.size) :
    m.step.heap.stepsOf o = if m.starts? = some o then [] else m.heap.stepsOf o := by
  rw [starts?_eq]
  rcases hm.step_cases with ⟨hlost, hst⟩ | ⟨k, K, s, hlost, -, hl, hst⟩
  · rw [hlost]
    exact (hst.stepsOf hlt).2
  · rw [hlost, Option.bind_some, ← hl.stepsOf o]
    exact (hst.stepsOf (Nat.lt_of_lt_of_le hlt hl.extends.objects)).2

/-- The object whose destructor the next action starts is there. -/
theorem Grounded.lt_of_starts? (hm : m.Grounded) (h : m.starts? = some o) :
    o < m.heap.objects.size := by
  unfold starts? at h
  split at h
  · next x rest hagenda =>
    have hx : (Slot.Within m.heap x) := hm.scope.stakes (.pointer x) <|
      pointer_mem_stakes_iff.mpr (List.mem_append_right _ (by simp [hagenda, Action.slots]))
    cases x with
    | unique u =>
      obtain ⟨k, a, o'⟩ := u
      obtain rfl : o' = some o := h
      exact Slot.within_unique.mp hx
    | strong p =>
      obtain ⟨b, -, hb⟩ := Option.bind_eq_some_iff.mp h
      split at hb
      · obtain ⟨y, hy, ho⟩ := Option.bind_eq_some_iff.mp hb
        exact hm.scope.pointees o ⟨b, y, hy, ho⟩
      · cases hb
    | weak | raw => cases h
  · cases h

/-! ## The start of a destructor -/

/-- The duties of a destructor come before what was left to be done. -/
theorem agenda_startDestructor_eq (m : Machine) (o : ObjectId) :
    (m.startDestructor o).env.agenda = m.heap.dutiesOf o ++ m.env.agenda := by
  obtain ⟨h, env⟩ := m
  unfold startDestructor Heap.dutiesOf Heap.stepsOf
  cases hx : h.objects[o]? with
  | none =>
    have hp : (h.beginDestruction o).2 = ⟨.unit, []⟩ := by simp [Heap.beginDestruction, hx]
    simp [onHeap, hp]
  | some x =>
    have hp : (h.beginDestruction o).2 = ⟨x.content, x.onDrop⟩ := by
      simp [Heap.beginDestruction, hx]
    simp only [onHeap, hp, Option.map_some, Option.getD_some]
    cases x.content <;> rfl

/-- The duties of a destructor that starts come first; a block's implicit reference is given up
after them. -/
theorem agenda_of_starts? (h : m.starts? = some o) : ∃ x rest after,
    m.env.agenda = .drop x :: rest ∧ m.step.env.agenda = m.heap.dutiesOf o ++ after ∧
      (after = rest ∨ ∃ b, after = .giveUpImplicit b :: rest) := by
  unfold starts? at h
  split at h
  · next x rest hagenda =>
    refine ⟨x, rest, ?_⟩
    have hstep := step_eq_perform (next?_of_agenda hagenda)
    obtain ⟨heap, env⟩ := m
    match x with
    | .unique ⟨k, a, some o'⟩ =>
      cases h
      exact ⟨rest, hagenda, by rw [hstep]; exact agenda_startDestructor_eq _ o, .inl rfl⟩
    | .strong ⟨k, some b, v⟩ =>
      simp only [Stake.starts?, Option.bind_some] at h
      split at h
      · next last =>
        refine ⟨.giveUpImplicit b :: rest, hagenda, ?_, .inr ⟨b, rfl⟩⟩
        have hduties : ((heap.releaseStrong b).1.takePointee b).1.dutiesOf o = heap.dutiesOf o := by
          simp [Heap.dutiesOf, Heap.stepsOf]
        rw [hstep]
        simp only [perform, dropSlot, mapEnv]
        rw [releaseOwner_last last, h]
        simp only [agenda_startDestructor_eq]
        exact congrArg (· ++ .giveUpImplicit b :: rest) hduties
      · cases h
    | .strong ⟨k, none, v⟩ | .weak _ | .raw _ | .unique ⟨_, _, none⟩ => cases h
  · cases h

/-! ## Steps -/

/-- The second machine is there after a step of the first one, which has something to do, whatever
the allocators grant. -/
inductive Follows : Machine → Machine → Prop
  | step {m : Machine} {a : Action} {rest : List Action} (hm : m.Grounded)
      (ha : m.env.agenda = a :: rest) (limits : Alloc → Option Nat) :
      Follows (m.ration limits).step m

theorem Follows.potential_lt (h : Follows n m) : n.potential < m.potential := by
  obtain ⟨hm, ha, limits⟩ := h
  exact (hm.ration limits).potential_step ha

/-- A release, the destructor that it starts, and what that releases and makes in turn: no such
chain goes on for ever. -/
theorem wellFounded_follows : WellFounded Follows :=
  Subrelation.wf Follows.potential_lt (measure potential).wf

/-! ## Runs -/

/-- The run that follows a machine of any heap, any tables and any agenda, if nothing in them leads
out of the heap. Before each step it is said anew how many requests the allocators grant. -/
structure IsSequel (run : Nat → Machine) : Prop where
  start : (run 0).Grounded
  next : ∀ n, ∃ limits, run (n + 1) = ((run n).ration limits).step

section Run

variable {run : Nat → Machine} {i j n : Nat}

theorem IsRationed.sequel (hr : IsRationed run) : IsSequel run := ⟨hr.grounded 0, hr.next⟩

/-- The next action is taken off the agenda and performed. -/
theorem IsSequel.exists_perform (hr : IsSequel run) (ha : (run n).env.agenda = a :: rest) :
    ∃ limits, run (n + 1) =
      (((run n).ration limits).mapEnv fun e => { e with agenda := rest }).perform a := by
  obtain ⟨limits, hnext⟩ := hr.next n
  exact ⟨limits, hnext.trans (step_eq_perform (next?_of_agenda ha))⟩

theorem IsSequel.grounded (hr : IsSequel run) (n : Nat) : (run n).Grounded := by
  induction n with
  | zero => exact hr.start
  | succ n ih =>
    obtain ⟨limits, h⟩ := hr.next n
    exact h ▸ (ih.ration limits).step

theorem IsSequel.follows (hr : IsSequel run) (ha : (run n).env.agenda = a :: rest) :
    Follows (run (n + 1)) (run n) := by
  obtain ⟨limits, h⟩ := hr.next n
  exact h ▸ .step (hr.grounded n) ha limits

theorem IsSequel.agenda_succ (hr : IsSequel run) (ha : (run n).env.agenda = a :: rest) :
    ∃ as, (run (n + 1)).env.agenda = as ++ rest := by
  obtain ⟨limits, h⟩ := hr.next n
  exact h ▸ ((hr.grounded n).ration limits).step_agenda ha

/-- What stands in front is done after no more steps than the potential falls by. Until then
something stands in front of `rest`. -/
theorem IsSequel.reaches (hr : IsSequel run) (ha : (run n).env.agenda = as ++ rest) :
    ∃ n' ≥ n, (run n').env.agenda = rest ∧
      n' + (run n').potential ≤ n + (run n).potential ∧
      ∀ k, n ≤ k → k < n' → ∃ b bs, (run k).env.agenda = b :: (bs ++ rest) := by
  induction hp : (run n).potential using Nat.strong_induction_on generalizing n as with
  | _ p ih =>
    cases as with
    | nil => exact ⟨n, Nat.le_refl n, ha, Nat.le_of_eq (hp ▸ rfl), by omega⟩
    | cons a as =>
      have hlt := (hr.follows ha).potential_lt
      obtain ⟨bs, hbs⟩ : ∃ bs, (run (n + 1)).env.agenda = bs ++ (as ++ rest) := hr.agenda_succ ha
      rw [← List.append_assoc] at hbs
      obtain ⟨n', hn, hrest, hle, hfront⟩ := ih _ (hp ▸ hlt) hbs rfl
      refine ⟨n', by omega, hrest, by omega, fun k hk hkn => ?_⟩
      by_cases heq : k = n
      · exact ⟨a, as, heq ▸ ha⟩
      · exact hfront k (by omega) hkn

/-- The slots of the root table are dropped one by one. A destructor that stores another one on the
way has it dropped too. -/
theorem IsSequel.clears (hr : IsSequel run) (ha : (run n).env.agenda = .clear :: rest) :
    ∃ n' ≥ n, (run n').env.agenda = rest ∧ (run n').env.root = .empty := by
  induction hp : (run n).potential using Nat.strong_induction_on generalizing n with
  | _ p ih =>
    obtain ⟨limits, h⟩ := hr.exists_perform ha
    have hstep : run (n + 1) =
        (((run n).ration limits).mapEnv fun e => { e with agenda := rest }).emptyOut .root .clear := h
    cases hpop : (run n).env.root.popFirst? with
    | none =>
      have hsame :
          run (n + 1) = ((run n).ration limits).mapEnv fun e => { e with agenda := rest } := by
        rw [hstep, emptyOut]
        simp only [table, ration, mapHeap, mapEnv, hpop]
      refine ⟨n + 1, Nat.le_succ n, by rw [hsame]; rfl, ?_⟩
      rw [hsame]
      exact Table.eq_empty_of_popFirst? hpop
    | some xt =>
      obtain ⟨x, t⟩ := xt
      have hagenda : (run (n + 1)).env.agenda = [.drop x] ++ .clear :: rest := by
        rw [hstep, emptyOut]
        simp only [table, ration, mapHeap, mapEnv, hpop]
        rfl
      have hlt := (hr.follows ha).potential_lt
      obtain ⟨j, hj, hclear, hle, -⟩ := hr.reaches hagenda
      obtain ⟨n', hn, hdone⟩ := ih _ (by omega) hclear rfl
      exact ⟨n', by omega, hdone⟩

/-- When nothing is left to be done, nothing comes to be done. -/
theorem IsSequel.ends (hr : IsSequel run) (ha : (run i).env.agenda = []) (hij : i ≤ j) :
    (run j).env.agenda = [] := by
  induction j, hij using Nat.le_induction with
  | base => exact ha
  | succ j _ ih =>
    obtain ⟨limits, h⟩ := hr.next j
    have hnone : ((run j).ration limits).next? = none := by
      have hration : ((run j).ration limits).env.agenda = [] := ih
      simp only [next?, hration]
    rw [h, step_eq_self hnone]
    exact ih

theorem IsSequel.stepsOf_succ (hr : IsSequel run) (hlt : o < (run n).heap.objects.size) :
    o < (run (n + 1)).heap.objects.size ∧ (run (n + 1)).heap.stepsOf o =
      if (run n).starts? = some o then [] else (run n).heap.stepsOf o := by
  obtain ⟨limits, h⟩ := hr.next n
  have hm := (hr.grounded n).ration limits
  rw [h]
  exact ⟨Nat.lt_of_lt_of_le hlt hm.step_extends.objects, hm.step_stepsOf hlt⟩

/-- A destructor that has started has no steps to start with again. -/
theorem IsSequel.stepsOf_eq_nil (hr : IsSequel run) (hs : (run i).starts? = some o) (hij : i < j) :
    (run j).heap.stepsOf o = [] := by
  suffices o < (run j).heap.objects.size ∧ (run j).heap.stepsOf o = [] from this.2
  induction j, hij using Nat.le_induction with
  | base =>
    obtain ⟨hlt, heq⟩ := hr.stepsOf_succ ((hr.grounded i).lt_of_starts? hs)
    exact ⟨hlt, by rw [heq, if_pos hs]⟩
  | succ j _ ih =>
    obtain ⟨hlt, heq⟩ := hr.stepsOf_succ ih.1
    refine ⟨hlt, heq.trans ?_⟩
    split
    · rfl
    · exact ih.2

/-- A destructor that has not started has all its steps. -/
theorem IsSequel.stepsOf_eq (hr : IsSequel run) (hlt : o < (run i).heap.objects.size) (hij : i ≤ j)
    (hs : ∀ k, i ≤ k → k < j → (run k).starts? ≠ some o) :
    (run j).heap.stepsOf o = (run i).heap.stepsOf o := by
  suffices o < (run j).heap.objects.size ∧
    (run j).heap.stepsOf o = (run i).heap.stepsOf o from this.2
  induction j, hij using Nat.le_induction with
  | base => exact ⟨hlt, rfl⟩
  | succ j hij ih =>
    obtain ⟨hlt, heq⟩ := ih fun k hk hkj => hs k hk (Nat.lt_succ_of_lt hkj)
    obtain ⟨hlt', heq'⟩ := hr.stepsOf_succ hlt
    rw [if_neg (hs j hij (Nat.lt_succ_self j))] at heq'
    exact ⟨hlt', heq'.trans heq⟩

end Run

/-- Every cascade of the run comes to an end, and no destructor gets its steps twice. -/
structure Completes (run : Nat → Machine) : Prop where
  /-- No chain of releases, destructors and what they release and make goes on for ever. -/
  wellFounded : WellFounded Follows
  follows : ∀ n a rest, (run n).env.agenda = a :: rest → Follows (run (n + 1)) (run n)
  /-- An operation, or whatever else stands in front, is done after no more steps than the
  potential falls by. -/
  done : ∀ n as rest, (run n).env.agenda = as ++ rest → ∃ n' ≥ n, (run n').env.agenda = rest ∧
    n' + (run n').potential ≤ n + (run n).potential
  /-- So is the last drop of all slots, which leaves none. -/
  cleared : ∀ n as rest, (run n).env.agenda = as ++ .clear :: rest →
    ∃ n' ≥ n, (run n').env.agenda = rest ∧ (run n').env.root = .empty
  ended : ∃ n ≤ (run 0).potential, ∀ n' ≥ n, (run n').env.agenda = []
  /-- As many steps as the potential of a moment allows are enough from there on. -/
  whole : ∀ n, (run n).run.env.agenda = []
  /-- The steps of an object are handed out when its destructor starts. -/
  handed : ∀ n o, (run n).starts? = some o → ∃ x rest after,
    (run n).env.agenda = .drop x :: rest ∧
    (run (n + 1)).env.agenda = (run n).heap.dutiesOf o ++ after ∧
    (after = rest ∨ ∃ b, after = .giveUpImplicit b :: rest)
  /-- It has none after that. -/
  spent : ∀ i j o, (run i).starts? = some o → i < j → (run j).heap.stepsOf o = []
  /-- Until then it has those that it was made with. -/
  kept : ∀ i j o, o < (run i).heap.objects.size → i ≤ j →
    (∀ k, i ≤ k → k < j → (run k).starts? ≠ some o) →
    (run j).heap.stepsOf o = (run i).heap.stepsOf o

/-- Every operation on every heap completes, and so does the last drop of all slots. -/
theorem IsSequel.completes {run : Nat → Machine} (hr : IsSequel run) : Completes run := by
  constructor
  case wellFounded => exact wellFounded_follows
  case follows => exact fun n a rest => hr.follows
  case done =>
    intro n as rest ha
    obtain ⟨n', hn, hrest, hle, -⟩ := hr.reaches ha
    exact ⟨n', hn, hrest, hle⟩
  case cleared =>
    intro n as rest ha
    obtain ⟨j, hj, hclear, -⟩ := hr.reaches ha
    obtain ⟨n', hn, hdone⟩ := hr.clears hclear
    exact ⟨n', Nat.le_trans hj hn, hdone⟩
  case ended =>
    obtain ⟨n, -, ha, hle, -⟩ := hr.reaches (n := 0) (List.append_nil _).symm
    exact ⟨n, by omega, fun n' hn => hr.ends ha hn⟩
  case whole => exact fun n => (hr.grounded n).agenda_run
  case handed =>
    intro n o hs
    obtain ⟨limits, h⟩ := hr.next n
    exact h ▸ agenda_of_starts? (m := (run n).ration limits) hs
  case spent => exact fun i j o => hr.stepsOf_eq_nil
  case kept => exact fun i j o => hr.stepsOf_eq

/-- A node whose destructor makes another node, with a destructor of its own, while the last slots
are dropped. -/
def begetting : List Step :=
  [.new .node (.node ⟨1, 0, .ofString "", []⟩
    [.new .node (.node ⟨2, 0, .ofString "", []⟩ [.drop ⟨false, [], "c"⟩]) .global ⟨false, [], "b"⟩])
    .global ⟨false, [], "a"⟩]

/-- The second node is dropped with the last slots too. -/
theorem completes_begetting :
    (moment begetting false 4).starts? = some 0 ∧ (moment begetting false 13).starts? = some 1 ∧
      Completes (moment begetting false) :=
  ⟨rfl, rfl, IsSequel.completes (isRationed_moment _ _).sequel⟩

end Machine

end Custody
