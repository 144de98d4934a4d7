import Custody.Proofs.Derivation
import Custody.Proofs.Descent
import Custody.Proofs.WeakProjection
import Custody.Proofs.StrongSide

/-!
# Assigning a clone

* `Slot.Twin`: two pointers of one type, both strong or both weak.
* `Effect.reassign`: a pointer is cloned for the place of another one, which is dropped.
* `Machine.plan_cloneFrom`: what `cloneFrom` plans is that effect, or nothing but the assignment if
  both pointers are on one block.
* `Machine.dropSlot_twin`: the reference that is not taken there is the one that is not given up.
* `Machine.IsRationed.reassignment`: a run that assigns goes on as one that clones and drops.
-/

namespace Custody

open Settlement

/-- Two pointers of one type, both strong or both weak. -/
inductive Slot.Twin : Slot → Slot → Prop
  | strong {p q : Strong} (hk : p.kind = q.kind) : Twin (.strong p) (.strong q)
  | weak {w v : Weak} (hk : w.kind = v.kind) : Twin (.weak w) (.weak v)

theorem Heap.updateBlock_undo {h : Heap} {b : BlockId} {f g : Block → Block}
    (hgf : ∀ x, g (f x) = x) : (h.updateBlock b f).updateBlock b g = h := by
  rw [updateBlock_updateBlock]
  exact updateBlock_eq_self hgf

namespace Effect

/-- `y` is cloned for the place of `x`, which is dropped. Both places are out of their tables until
that is over, so nothing that it runs can tell whether the clone is stored before or after it. -/
def reassign (loc : Location) (x : Slot) (srcLoc : Location) (y : Slot) : Effect :=
  settling [loc, srcLoc] fun h =>
    match Derivation.apply .clone y h with
    | some (h, z) => (h, { surplus := [x], operands := [(loc, z), (srcLoc, y)], counted := true })
    | none => (h, { operands := [(loc, x), (srcLoc, y)] })

/-- What is left to do when `y` is to be at both places. -/
def assigned (loc srcLoc : Location) (y : Slot) : List Action :=
  .putBack loc y true :: .putBack srcLoc y false :: letGos [loc.table, srcLoc.table]

end Effect

namespace Machine

variable {m : Machine} {loc srcLoc : Location} {x y : Slot} {target src : Path}

/-- On one block only the view changes. Otherwise it is done as it would be by way of a clone. -/
theorem plan_cloneFrom (ht : x.Twin y)
    (hf : m.findTwo target src = .ok ((loc, x), (srcLoc, y))) :
    ∃ e, m.plan (.cloneFrom target src) = .ok e ∧ e.taken = [loc, srcLoc] ∧ ∀ h,
      (x.block? = y.block? → e.call h = (h, Effect.assigned loc srcLoc y)) ∧
      (x.block? ≠ y.block? → e.call h = (Effect.reassign loc x srcLoc y).call h) := by
  cases ht with
  | @strong p q hk =>
    have hplan : m.plan (.cloneFrom target src) = .ok (.assignStrong loc p srcLoc q) := by
      show (m.findTwo target src >>= _) = _
      rw [hf]
      exact if_pos hk
    have hcopy : { p with block := q.block, view := q.view } = q := by rw [hk]
    refine ⟨_, hplan, rfl, fun h => ⟨fun hb => ?_, fun hb => ?_⟩⟩
    · have hb' : p.block = q.block := hb
      have hview : { p with view := q.view } = q := by rw [← hcopy, ← hb']
      have hassign : p.assign q h = (h, q, []) := by rw [Strong.assign, if_pos hb', hview]
      simp only [Effect.assignStrong, Effect.settling, Effect.closing, hassign]
      rfl
    · have hassign : p.assign q h = (Strong.acquire q.block h, q, [p]) := by
        have hb' : p.block ≠ q.block := hb
        rw [Strong.assign, if_neg hb', hcopy]
      simp only [Effect.assignStrong, Effect.settling, Effect.closing, hassign]
      rfl
  | @weak w v hk =>
    have hcopy : { w with block := v.block, view := v.view } = v := by rw [hk]
    refine ⟨_, plan_cloneFrom_weak hf hk, rfl, fun h => ⟨fun hb => ?_, fun hb => ?_⟩⟩
    · have hb' : w.block = v.block := hb
      have hview : { w with view := v.view } = v := by rw [← hcopy, ← hb']
      have hassign : w.assign v h = (h, v, []) := by rw [Weak.assign, if_pos hb', hview]
      simp only [Effect.assignWeak, Effect.settling, Effect.closing, hassign]
      rfl
    · have hassign : w.assign v h = (Weak.acquire v.block h, v, [w]) := by
        have hb' : w.block ≠ v.block := hb
        rw [Weak.assign, if_neg hb', hcopy]
      simp only [Effect.assignWeak, Effect.settling, Effect.closing, hassign]
      rfl

/-- What the block of a pointer is like as long as the pointer exists. -/
structure Backs (h : Heap) (y : Slot) (b : BlockId) (z : Block) : Prop where
  found : h.blocks[b]? = some z
  unfreed : z.freed = false
  owned : y.strongOn? = some b → 0 < z.strong
  observed : y.weakOn? = some b → 0 < z.weak

theorem IsRationed.backs {run : Nat → Machine} {n : Nat} {b : BlockId} (hr : IsRationed run)
    (hy : y ∈ (run n).pointers) (hb : y.block? = some b) :
    ∃ z, Backs (run n).heap y b z := by
  have hmem := pointer_mem_stakes_iff.mpr hy
  obtain ⟨z, hz, hf, hagree⟩ := (hr.sound n).block hmem hb
  refine ⟨z, hz, hf, fun hs => ?_, fun hw => ?_⟩
  · rw [hagree.strong]
    exact tally_pos hmem hs
  · rw [hagree.weak]
    exact Nat.lt_add_right _ (tally_pos hmem hw)

/-- The clone takes a reference that the drop of the other pointer gives up again: it is not the
last one. -/
theorem dropSlot_twin {h : Heap} (ht : x.Twin y) (hb : x.block? = y.block?)
    (hbacks : ∀ b, y.block? = some b → ∃ z, Backs h y b z) :
    ∃ h', Derivation.apply .clone y h = some (h', y) ∧
      ∀ env, dropSlot x ⟨h', env⟩ = (⟨h, env⟩ : Machine) := by
  cases ht with
  | @strong p q hk =>
    obtain ⟨k, block, v⟩ := p
    obtain rfl : block = q.block := hb
    cases hq : q.block with
    | none =>
      refine ⟨h, ?_, fun env => rfl⟩
      show some ((q.clone h).map id Slot.strong) = _
      rw [Strong.clone, hq]
      rfl
    | some b =>
      obtain ⟨z, hz, hf, hpos, -⟩ := hbacks b hq
      refine ⟨h.updateBlock b fun x => { x with strong := x.strong + 1 }, ?_, fun env => ?_⟩
      · show some ((q.clone h).map id Slot.strong) = _
        rw [Derivation.clone_strong_eq hz hf hq (hpos hq)]
        rfl
      · rw [dropSlot_strong (x := { z with strong := z.strong + 1 }) (Array.getElem?_modify_self _ hz)
          hf (Nat.lt_add_of_pos_left (hpos hq)),
          Heap.updateBlock_undo fun _ => rfl]
  | @weak w v hk =>
    obtain ⟨k, block, u⟩ := w
    obtain rfl : block = v.block := hb
    cases hv : v.block with
    | none =>
      refine ⟨h, ?_, fun env => rfl⟩
      show some ((v.clone h).map id Slot.weak) = _
      rw [Weak.clone, hv]
      rfl
    | some b =>
      obtain ⟨z, hz, hf, -, hpos⟩ := hbacks b hv
      refine ⟨h.updateBlock b fun x => { x with weak := x.weak + 1 }, ?_, fun env => ?_⟩
      · show some ((v.clone h).map id Slot.weak) = _
        rw [Derivation.clone_weak_eq hz hf hv]
        rfl
      · rw [dropSlot_weak (x := { z with weak := z.weak + 1 }) (Array.getElem?_modify_self _ hz)
          hf (Nat.lt_add_of_pos_left (hpos hv)),
          Heap.updateBlock_undo fun _ => rfl]

/-- The clone is made, and the drop is what is to be done next. -/
def reassigning (m : Machine) (loc : Location) (x : Slot) (srcLoc : Location) (y : Slot)
    (rest : List Action) : Machine :=
  (m.mapEnv fun e => { e with agenda := rest }).carryOut (.reassign loc x srcLoc y)

/-- The operands are out of their tables, and `y` is to be at both places. -/
def assigning (m : Machine) (loc srcLoc : Location) (y : Slot) (rest : List Action) : Machine :=
  (m.takeOut [loc, srcLoc]).mapEnv fun e =>
    { e with agenda := Effect.assigned loc srcLoc y ++ rest }

theorem reassigning_eq (m : Machine) (loc : Location) (x : Slot) (srcLoc : Location) (y : Slot)
    (rest : List Action) : m.reassigning loc x srcLoc y rest =
      ⟨((Effect.reassign loc x srcLoc y).call (m.takeOut [loc, srcLoc]).heap).1,
        { (m.takeOut [loc, srcLoc]).env with
          agenda := ((Effect.reassign loc x srcLoc y).call (m.takeOut [loc, srcLoc]).heap).2 ++
            rest }⟩ := by
  have htaken : (Effect.reassign loc x srcLoc y).taken = [loc, srcLoc] := rfl
  simp only [reassigning, carryOut, takeOut_mapEnv, htaken]
  rfl

/-- A weak pointer is cloned without any effect on what is owned. -/
theorem call_reassign (loc srcLoc : Location) (ht : x.Twin y) (h : Heap) : ∃ h',
    (Effect.reassign loc x srcLoc y).call h = (h', .drop x :: Effect.assigned loc srcLoc y) ∧
      ((∃ w, y = .weak w) → h'.estate = h.estate) := by
  cases ht with
  | @strong p q hk =>
    exact ⟨_, rfl, nofun⟩
  | @weak w v hk =>
    refine ⟨_, rfl, fun _ => ?_⟩
    show (Weak.acquire v.block h).estate = h.estate
    unfold Weak.acquire
    split
    · exact Heap.estate_addWeak
    · rfl

section Step

variable {rest : List Action} (ht : x.Twin y)
  (ha : m.env.agenda = .exec (.cloneFrom target src) :: rest)
  (hf : m.findTwo target src = .ok ((loc, x), (srcLoc, y)))

include ht ha hf

theorem step_cloneFrom_of_ne (hb : x.block? ≠ y.block?) :
    m.step = m.reassigning loc x srcLoc y rest := by
  obtain ⟨e, hplan, htaken, hcall⟩ := plan_cloneFrom ht hf
  rw [step_exec ha hplan, reassigning_eq, htaken, (hcall _).2 hb]

theorem step_cloneFrom_of_eq (hb : x.block? = y.block?) :
    m.step = m.assigning loc srcLoc y rest := by
  obtain ⟨e, hplan, htaken, hcall⟩ := plan_cloneFrom ht hf
  rw [step_exec ha hplan, htaken, (hcall _).1 hb]
  rfl

/-- On one block the clone and the drop come to nothing. -/
theorem step_reassigning (hb : x.block? = y.block?)
    (hbacks : ∀ b, y.block? = some b → ∃ z, Backs m.heap y b z) :
    (m.reassigning loc x srcLoc y rest).step = m.step := by
  obtain ⟨objects, hout⟩ := heap_takeOut (m := m) [loc, srcLoc]
  have hbacks' (b : BlockId) (hy : y.block? = some b) :
      ∃ z, Backs (m.takeOut [loc, srcLoc]).heap y b z := by
    obtain ⟨z, hz⟩ := hbacks b hy
    exact ⟨z, { hz with found := by rw [hout]; exact hz.found }⟩
  obtain ⟨h', hclone, hdrop⟩ := dropSlot_twin ht hb hbacks'
  have hcall : (Effect.reassign loc x srcLoc y).call (m.takeOut [loc, srcLoc]).heap =
      (h', .drop x :: Effect.assigned loc srcLoc y) := by
    simp only [Effect.reassign, Effect.settling, Effect.closing, hclone]
    rfl
  rw [step_cloneFrom_of_eq ht ha hf hb, reassigning_eq, hcall,
    step_eq_perform (next?_of_agenda (a := .drop x) rfl), perform]
  exact hdrop _

end Step

/-- A weak pointer is dropped without any effect on what is owned. -/
theorem step_drop_twin_weak {rest : List Action} {w : Weak} (ht : x.Twin (.weak w))
    (ha : m.env.agenda = .drop x :: rest) :
    m.step.env.agenda = rest ∧ m.step.heap.estate = m.heap.estate := by
  cases ht with
  | @weak v _ hk =>
    rw [step_eq_perform (next?_of_agenda ha)]
    obtain ⟨k, _ | b, u⟩ := v
    · exact ⟨rfl, rfl⟩
    · exact ⟨rfl, Heap.estate_releaseWeak⟩

/-! ## On one block -/

theorem get?_erase_self (hx : m.get? loc = some x) : (m.erase loc).get? loc = none := by
  rw [get?, erase, table_withTable (has_of_get? hx), Table.get?_erase, if_pos rfl]

/-- Operands are nowhere while they are out of their tables. -/
theorem FindsTwo.vacated (hf : m.FindsTwo loc x srcLoc y) :
    (m.takeOut [loc, srcLoc]).get? loc = none ∧ (m.takeOut [loc, srcLoc]).get? srcLoc = none := by
  have hsrc : (m.erase loc).get? srcLoc = some y := (get?_erase hf.ne).trans hf.second
  constructor
  · rw [takeOut_cons, get?_takeOut (List.mem_singleton.not.mpr hf.ne), get?_erase_self hf.first]
  · rw [takeOut_cons, takeOut_cons]
    exact get?_erase_self hsrc

/-- Where nothing is, nothing is displaced by what returns. -/
theorem Grounded.step_putBack {counted : Bool} {rest : List Action} (hm : m.Grounded)
    (ha : m.env.agenda = .putBack loc y counted :: rest) (hnone : m.get? loc = none) :
    m.step.env.agenda = rest ∧ m.step.get? loc = some y ∧
      (∀ other, other ≠ loc → m.step.get? other = m.get? other) ∧
      ∃ objects, m.step.heap = { m.heap with objects } := by
  have hhas : m.heap.Has loc.table :=
    (hm.agenda _ (ha ▸ List.mem_cons_self)).tables _ (by simp [Action.worksOn])
  obtain ⟨rs, hput⟩ := perform_putBack (m.mapEnv fun e => { e with agenda := rest }) loc y counted
  let n := m.mapEnv fun e => { e with agenda := rest, replies := rs }
  have hsame : m.SameTables n := ⟨rfl, rfl⟩
  have hstep : m.step = n.store loc y := by
    rw [step_eq_perform (next?_of_agenda ha), hput]
    rfl
  rw [hstep]
  refine ⟨?_, get?_store hhas, fun other hne => ?_, ?_⟩
  · rw [agenda_store, hsame.get?, hnone]
    rfl
  · rw [get?_store_of_ne hne.symm, hsame.get?]
  · obtain ⟨t, name⟩ := loc
    cases t <;> exact ⟨_, rfl⟩

/-! ## Runs -/

/-- The states of an execution that begins with `m`. Before each step it is said anew how many
requests the allocators grant. -/
structure Executes (m : Machine) (seq : Nat → Machine) : Prop where
  start : seq 0 = m
  next : ∀ i, ∃ limits, seq (i + 1) = ((seq i).ration limits).step

theorem Executes.cons {n : Machine} {seq : Nat → Machine} (h : Executes n seq) (hn : n = m.step) :
    ∃ seq', Executes m seq' ∧ ∀ i, seq' (i + 1) = seq i := by
  refine ⟨fun i => i.casesOn m seq, ⟨rfl, fun i => ?_⟩, fun i => rfl⟩
  cases i with
  | zero => exact ⟨_, h.start.trans (hn.trans (congrArg Machine.step (ration_budgets m).symm))⟩
  | succ i => exact h.next i

theorem IsRationed.executes {run : Nat → Machine} (hr : IsRationed run) (n : Nat) :
    Executes (run n) fun i => run (n + i) :=
  ⟨rfl, fun i => hr.next (n + i)⟩

/-- What an assignment comes to that is to be executed at moment `n`. `x` is what is at the target,
and `y` what it is to be. -/
structure Reassignment (run : Nat → Machine) (n : Nat) (loc : Location) (x : Slot)
    (srcLoc : Location) (y : Slot) (rest : List Action) : Prop where
  /-- There is an execution of the clone, the drop and what follows that the run agrees with from
  then on, state by state. -/
  refines : ∃ limits, ∃ seq : Nat → Machine,
    Executes (((run n).ration limits).reassigning loc x srcLoc y rest) seq ∧
    ∃ k ≤ 1, ∀ i, run (n + 1 + i) = seq (k + i)
  /-- On one block nothing is disposed of or freed. -/
  shortcut : x.block? = y.block? →
    (run (n + 3)).get? loc = some y ∧ (run (n + 3)).get? srcLoc = some y ∧
    (run (n + 3)).env.agenda = Settlement.letGos [loc.table, srcLoc.table] ++ rest ∧
    (run (n + 3)).heap.blocks = (run n).heap.blocks ∧
    (run (n + 3)).heap.log = (run n).heap.log ∧
    (run (n + 3)).heap.metrics = (run n).heap.metrics
  /-- What the drop runs is over when `y` is all that is left to be stored. Until then its block
  is there, with its pointee if `y` is strong, whatever is dropped on the way. If it is weak, there
  is no disposal at all. -/
  kept : ∃ j > n, (run j).env.agenda = Effect.assigned loc srcLoc y ++ rest ∧
    (∀ i, n < i → i < j → ∃ a as,
      (run i).env.agenda = a :: (as ++ (Effect.assigned loc srcLoc y ++ rest))) ∧
    (∀ b, y.strongOn? = some b → ∃ o, ∀ i, n ≤ i → i ≤ j → ∃ z, (run i).heap.blocks[b]? = some z ∧
      z.freed = false ∧ 0 < z.strong ∧ z.pointee = some o ∧ (run i).heap.phase? o = some .alive) ∧
    (∀ b, y.weakOn? = some b → ∀ i, n ≤ i → i ≤ j →
      ∃ z, (run i).heap.blocks[b]? = some z ∧ z.freed = false) ∧
    ((∃ w, y = .weak w) → ∀ i, n ≤ i → i ≤ j →
      (run i).heap.estate.block = (run n).heap.estate.block)

section Run

variable {run : Nat → Machine} {n : Nat} {rest : List Action} (hr : IsRationed run)
  (ha : (run n).env.agenda = .exec (.cloneFrom target src) :: rest)
  (hf : (run n).findTwo target src = .ok ((loc, x), (srcLoc, y))) (ht : x.Twin y)

include hr ha hf ht

/-- The run is one of the steps that an assignment is said to be, after one step at most. -/
theorem IsRationed.refines_reassigning : ∃ limits, ∃ seq : Nat → Machine,
    Executes (((run n).ration limits).reassigning loc x srcLoc y rest) seq ∧
    ∃ k ≤ 1, ∀ i, run (n + 1 + i) = seq (k + i) := by
  obtain ⟨limits, hnext⟩ := hr.next n
  let m := (run n).ration limits
  have hf' : m.findTwo target src = .ok ((loc, x), (srcLoc, y)) := hf
  have ha' : m.env.agenda = .exec (.cloneFrom target src) :: rest := ha
  refine ⟨limits, ?_⟩
  by_cases hb : x.block? = y.block?
  · have hbacks (b : BlockId) (hy : y.block? = some b) : ∃ z, Backs m.heap y b z := by
      obtain ⟨z, hz⟩ := hr.backs (mem_pointers_of_get? (findTwo_ok hf).second) hy
      exact ⟨z, { hz with }⟩
    -- The execution takes one step more, which gives up the reference that the clone took.
    have hstep : run (n + 1) = (m.reassigning loc x srcLoc y rest).step :=
      hnext.trans (step_reassigning ht ha' hf' hb hbacks).symm
    obtain ⟨seq, hseq, hsucc⟩ := (hr.executes (n + 1)).cons hstep
    exact ⟨seq, hseq, 1, Nat.le_refl 1, fun i => by rw [Nat.add_comm 1 i, hsucc]⟩
  · have hstep : run (n + 1) = m.reassigning loc x srcLoc y rest :=
      hnext.trans (step_cloneFrom_of_ne ht ha' hf' hb)
    exact ⟨_, hstep ▸ hr.executes (n + 1), 0, Nat.zero_le 1, fun i => by rw [Nat.zero_add]⟩

/-- On one block, nothing is counted and nothing is told. -/
theorem IsRationed.assignment_shortcut (hb : x.block? = y.block?) :
    (run (n + 3)).get? loc = some y ∧ (run (n + 3)).get? srcLoc = some y ∧
    (run (n + 3)).env.agenda = Settlement.letGos [loc.table, srcLoc.table] ++ rest ∧
    (run (n + 3)).heap.blocks = (run n).heap.blocks ∧
    (run (n + 3)).heap.log = (run n).heap.log ∧
    (run (n + 3)).heap.metrics = (run n).heap.metrics := by
  obtain ⟨limits, hnext⟩ := hr.next n
  obtain ⟨limits₁, hnext₁⟩ := hr.next (n + 1)
  obtain ⟨limits₂, hnext₂⟩ := hr.next (n + 2)
  let m := (run n).ration limits
  have hfinds : m.FindsTwo loc x srcLoc y := findTwo_ok (m := m) hf
  have hstep : run (n + 1) = m.assigning loc srcLoc y rest :=
    hnext.trans (step_cloneFrom_of_eq (m := m) ht ha hf hb)
  obtain ⟨objects, hout⟩ := heap_takeOut (m := m) [loc, srcLoc]
  obtain ⟨hloc, hsrc⟩ := hfinds.vacated
  have hsame₁ : (m.takeOut [loc, srcLoc]).SameTables ((run (n + 1)).ration limits₁) := by
    rw [hstep]
    exact ⟨rfl, rfl⟩
  have ha₁ : ((run (n + 1)).ration limits₁).env.agenda = Effect.assigned loc srcLoc y ++ rest := by
    rw [hstep]
    rfl
  obtain ⟨ha₂, hloc₂, hothers₂, objects₁, hheap₂⟩ :=
    ((hr.grounded (n + 1)).ration limits₁).step_putBack ha₁ (by rw [hsame₁.get?, hloc])
  rw [← hnext₁] at ha₂ hloc₂ hothers₂ hheap₂
  have hsame₂ : (run (n + 2)).SameTables ((run (n + 2)).ration limits₂) := ⟨rfl, rfl⟩
  obtain ⟨ha₃, hloc₃, hothers₃, objects₂, hheap₃⟩ :=
    ((hr.grounded (n + 2)).ration limits₂).step_putBack ha₂
      (by rw [hsame₂.get?, hothers₂ _ hfinds.ne.symm, hsame₁.get?, hsrc])
  rw [← hnext₂] at ha₃ hloc₃ hothers₃ hheap₃
  have hheap₁ : (run (n + 1)).heap = { m.heap with objects } := by
    rw [hstep]
    exact hout
  refine ⟨?_, hloc₃, ha₃, ?_⟩
  · rw [hothers₃ _ hfinds.ne, hsame₂.get?, hloc₂]
  · have hkept : (run (n + 3)).heap.blocks = (run (n + 2)).heap.blocks ∧
        (run (n + 3)).heap.log = (run (n + 2)).heap.log ∧
        (run (n + 3)).heap.metrics = (run (n + 2)).heap.metrics := by
      rw [hheap₃]
      exact ⟨rfl, rfl, rfl⟩
    have hkept' : (run (n + 2)).heap.blocks = (run (n + 1)).heap.blocks ∧
        (run (n + 2)).heap.log = (run (n + 1)).heap.log ∧
        (run (n + 2)).heap.metrics = (run (n + 1)).heap.metrics := by
      rw [hheap₂]
      exact ⟨rfl, rfl, rfl⟩
    rw [hkept.1, hkept.2.1, hkept.2.2, hkept'.1, hkept'.2.1, hkept'.2.2, hheap₁]
    exact ⟨rfl, rfl, rfl⟩

/-- The assignment leaves no more than a drop to be done before both places are filled. -/
theorem IsRationed.surplus_assignment : ∃ as, (as = [] ∨ as = [.drop x]) ∧
    (run (n + 1)).env.agenda = as ++ (Effect.assigned loc srcLoc y ++ rest) ∧
    ((∃ w, y = .weak w) → (run (n + 1)).heap.estate.block = (run n).heap.estate.block) := by
  obtain ⟨limits, hnext⟩ := hr.next n
  let m := (run n).ration limits
  obtain ⟨objects, hout⟩ := heap_takeOut (m := m) [loc, srcLoc]
  have hestate : (m.takeOut [loc, srcLoc]).heap.estate.block = (run n).heap.estate.block := by
    rw [hout]
    rfl
  by_cases hb : x.block? = y.block?
  · rw [hnext, step_cloneFrom_of_eq (m := m) ht ha hf hb]
    exact ⟨[], .inl rfl, rfl, fun _ => hestate⟩
  · rw [hnext, step_cloneFrom_of_ne (m := m) ht ha hf hb, reassigning_eq]
    obtain ⟨h', hcall, hsame⟩ := call_reassign loc srcLoc ht (m.takeOut [loc, srcLoc]).heap
    rw [hcall]
    refine ⟨[.drop x], .inr rfl, rfl, fun hw => ?_⟩
    rw [← hestate]
    exact congrArg Estate.block (hsame hw)

/-- The drop of a weak pointer is over at once, and that of a strong one when all that it runs
is. -/
theorem IsRationed.surplus_over : ∃ j > n,
    (run j).env.agenda = Effect.assigned loc srcLoc y ++ rest ∧
    (∀ i, n < i → i < j → ∃ a as,
      (run i).env.agenda = a :: (as ++ (Effect.assigned loc srcLoc y ++ rest))) ∧
    ((∃ w, y = .weak w) → ∀ i, n ≤ i → i ≤ j →
      (run i).heap.estate.block = (run n).heap.estate.block) := by
  obtain ⟨as, has, hagenda, hestate⟩ := hr.surplus_assignment ha hf ht
  by_cases hy : ∃ w, y = .weak w
  · obtain ⟨w, rfl⟩ := hy
    have hestate := hestate ⟨w, rfl⟩
    rcases has with rfl | rfl
    · refine ⟨n + 1, Nat.lt_succ_self n, hagenda, by omega, fun _ i hi hi' => ?_⟩
      obtain rfl | rfl : i = n ∨ i = n + 1 := by omega
      · rfl
      · exact hestate
    · obtain ⟨limits, hnext⟩ := hr.next (n + 1)
      obtain ⟨hrest, hsame⟩ := step_drop_twin_weak (m := (run (n + 1)).ration limits) ht hagenda
      rw [← hnext] at hrest hsame
      refine ⟨n + 2, by omega, hrest, fun i hi hi' => ?_, fun _ i hi hi' => ?_⟩
      · obtain rfl : i = n + 1 := by omega
        exact ⟨.drop x, [], hagenda⟩
      · obtain rfl | rfl | rfl : i = n ∨ i = n + 1 ∨ i = n + 2 := by omega
        · rfl
        · exact hestate
        · exact (congrArg Estate.block hsame).trans hestate
  · obtain ⟨j, hj, hrest, -, hfront⟩ := hr.sequel.reaches hagenda
    exact ⟨j, hj, hrest, fun i hi hi' => hfront i hi hi', fun hw => absurd hw hy⟩

/-- A pointer is assigned as if it were cloned and the old one dropped. On one block that comes to
nothing, and otherwise the clone keeps the block while the drop runs what it will. -/
theorem IsRationed.reassignment : Reassignment run n loc x srcLoc y rest where
  refines := hr.refines_reassigning ha hf ht
  shortcut hb := hr.assignment_shortcut ha hf ht hb
  kept := by
    obtain ⟨j, hj, hrest, hfront, hweak⟩ := hr.surplus_over ha hf ht
    -- The source is in its table first, and then on the agenda, to be put back.
    have hmem (i : Nat) (hi : n ≤ i) (hij : i ≤ j) : y ∈ (run i).pointers := by
      have hback : Action.putBack srcLoc y false ∈ Effect.assigned loc srcLoc y ++ rest :=
        List.mem_cons_of_mem _ List.mem_cons_self
      have hslot : y ∈ (Action.putBack srcLoc y false).slots := List.mem_singleton_self y
      obtain rfl | hlt := Nat.eq_or_lt_of_le hi
      · exact mem_pointers_of_get? (findTwo_ok hf).second
      · refine mem_pointers_of_agenda ?_ hslot
        obtain rfl | hij := Nat.eq_or_lt_of_le hij
        · rw [hrest]
          exact hback
        · obtain ⟨a, as, hagenda⟩ := hfront i hlt hij
          rw [hagenda]
          exact List.mem_cons_of_mem _ (List.mem_append_right _ hback)
    refine ⟨j, hj, hrest, hfront, fun b hb => ?_, fun b hb i hi hij => ?_, hweak⟩
    · cases ht with
      | weak => cases hb
      | @strong p q hk =>
        have hn := hmem n (Nat.le_refl n) (Nat.le_of_lt hj)
        obtain ⟨z, hz, -, -, hsome⟩ := (hr.sound n).strong (pointer_mem_stakes_iff.mpr hn) hb
        obtain ⟨o, ho⟩ := Option.isSome_iff_exists.mp hsome
        exact ⟨o, fun i hi hij => hr.block_of_strong hz ho hi (hmem i hi hij) hb⟩
    · cases ht with
      | strong => cases hb
      | @weak w v hk =>
        obtain ⟨z, hz⟩ := hr.backs (hmem i hi hij) hb
        exact ⟨z, hz.found, hz.unfreed⟩

end Run

/-- A node that is replaced drops, in its destructor, the other owner of what replaces it. -/
def deposing : List Step :=
  [.new .node (.node ⟨1, 0, .ofString "", []⟩ []) .global ⟨false, [], "b"⟩,
   .clone ⟨false, [], "b"⟩ ⟨false, [], "c"⟩,
   .new .node (.node ⟨2, 0, .ofString "", []⟩ [.drop ⟨false, [], "c"⟩]) .global ⟨false, [], "a"⟩,
   .cloneFrom ⟨false, [], "a"⟩ ⟨false, [], "b"⟩]

/-- Where the destructor is over, the source and its clone are the only owners. -/
theorem reassignment_deposing :
    let run := moment deposing false
    let x : Slot := .strong ⟨.node, some 1, some (.whole 1)⟩
    let y : Slot := .strong ⟨.node, some 0, some (.whole 0)⟩
    (run 11).heap.strongCount 0 = 3 ∧ (run 16).heap.strongCount 0 = 2 ∧ x.Twin y ∧
      Reassignment run 10 ⟨.root, "a"⟩ x ⟨.root, "b"⟩ y [.record, .clear] :=
  ⟨by decide, by decide, .strong rfl,
    IsRationed.reassignment (isRationed_moment _ _) rfl rfl (.strong rfl)⟩

end Machine

end Custody
