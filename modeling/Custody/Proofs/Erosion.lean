import Custody.Proofs.Faults
import Mathlib.Algebra.BigOperators.Group.Multiset.Basic

/-!
# What losses do to a heap

* `Heap.told`: the events that a heap has led to, read off the states of its blocks and objects.
* `Heap.Erodes`: the second heap is the first after losses. What is logged is what the heaps tell
  the difference of and what destructors reported, and the metrics have counted it.
* `Loss.erodes`: a loss erodes a sound heap.
* `Heap.Erodes.unique`: two heaps that come of one heap by losses, in any order, are the same if
  their objects are and the same stakes are left; the logs tell the same, if destructors reported
  the same.
-/

namespace Custody

/-! ## What is told -/

/-- Only a node says that it is dropped. -/
def Content.farewell : Content → List Event
  | .node n => [.drop n.id]
  | _ => []

/-- What has been told of the end of the block. -/
def Block.told (x : Block) : Multiset Event :=
  (if x.strong = 0 then {.pointeeDisposed x.id} else 0) +
    if x.freed then {.blockFreed x.id} + {.dealloc x.alloc x.serial (.block x.kind.isSized)} else 0

/-- What has been told of the end of the object. -/
def Object.told (x : Object) : Multiset Event :=
  (if x.phase = .alive then 0 else (x.content.farewell : Multiset Event)) +
    match x.phase, x.serial with
    | .gone, some n => {.dealloc x.alloc n x.content.layout}
    | _, _ => 0

namespace Heap

/-- The events are logged. -/
def say (es : List Event) (h : Heap) : Heap := { h with log := h.log ++ es }

@[simp] theorem say_nil (h : Heap) : h.say [] = h := by
  simp [say]

@[simp] theorem say_singleton (e : Event) (h : Heap) : h.say [e] = h.emit e := by
  simp [say, emit]

/-- All that has been told of the ends of blocks and objects. -/
def told (h : Heap) : Multiset Event :=
  (h.blocks.toList.map Block.told).sum + (h.objects.toList.map Object.told).sum

variable {h h' : Heap} {b : BlockId} {o : ObjectId}

theorem told_congr (hb : h'.blocks = h.blocks) (ho : h'.objects = h.objects) :
    h'.told = h.told := by
  rw [told, hb, ho, told]

theorem told_modify_block {f : Block → Block} {x : Block} (ho : h'.objects = h.objects)
    (hb : h'.blocks = h.blocks.modify b f) (hx : h.blocks[b]? = some x) :
    h'.told + x.told = h.told + (f x).told := by
  obtain ⟨l, r, hl, hr, -⟩ := Array.toList_modify_split f hx
  simp only [told, hb, ho, hl, hr, List.map_append, List.map_cons, List.sum_append, List.sum_cons]
  abel

theorem told_modify_object {f : Object → Object} {x : Object} (hb : h'.blocks = h.blocks)
    (ho : h'.objects = h.objects.modify o f) (hx : h.objects[o]? = some x) :
    h'.told + x.told = h.told + (f x).told := by
  obtain ⟨l, r, hl, hr, -⟩ := Array.toList_modify_split f hx
  simp only [told, hb, ho, hl, hr, List.map_append, List.map_cons, List.sum_append, List.sum_cons]
  abel

end Heap

/-- The metrics after the event. -/
def Metrics.note (m : Metrics) : Event → Metrics
  | .blockCreated _ _ => m.recordBlockAllocated
  | .blockFreed _ => m.recordBlockFreed
  | .pointeeDisposed _ => m.recordPointeeDisposed
  | .lock _ => m.recordLock true
  | .lockExpired _ => m.recordLock false
  | .refuse _ _ => m.recordAllocFailure
  | .alloc _ _ _ | .dealloc _ _ _ | .drop _ | .did _ _ => m

instance : RightCommutative Metrics.note where
  right_comm m e e' := by cases e <;> cases e' <;> rfl

/-! ## Erosion -/

/-- The second object is the first at a later moment. What was alive may have been destroyed. -/
structure Object.Wears (x y : Object) : Prop where
  content : y.content = x.content
  alloc : y.alloc = x.alloc
  serial : y.serial = x.serial
  onDrop : y.onDrop = x.onDrop ∨ y.onDrop = []
  phase : y.phase = x.phase ∧ y.links = x.links ∧ y.onDrop = x.onDrop ∨
    x.phase ≠ .gone ∧ y.phase ≠ .alive ∧ (x.phase = .alive → y.onDrop = [])

theorem Object.Wears.refl (x : Object) : x.Wears x :=
  ⟨rfl, rfl, rfl, .inl rfl, .inl ⟨rfl, rfl, rfl⟩⟩

/-- Wear after wear is wear. -/
theorem Object.Wears.trans {x y z : Object} (h : x.Wears y) (h' : y.Wears z) : x.Wears z where
  content := h'.content.trans h.content
  alloc := h'.alloc.trans h.alloc
  serial := h'.serial.trans h.serial
  onDrop := by
    rcases h'.onDrop with ho | ho
    · exact ho ▸ h.onDrop
    · exact .inr ho
  phase := by
    rcases h.phase with ⟨hp, hl, ho⟩ | ⟨hx, hy, ho⟩
    · rw [← hp, ← hl, ← ho]
      exact h'.phase
    · rcases h'.phase with ⟨hp, -, ho'⟩ | ⟨-, hz, -⟩
      · exact .inr ⟨hx, hp ▸ hy, fun halive => ho'.trans (ho halive)⟩
      · refine .inr ⟨hx, hz, fun halive => ?_⟩
        rcases h'.onDrop with ho' | ho'
        · exact ho'.trans (ho halive)
        · exact ho'

/-- What is alive has not changed. -/
theorem Object.Wears.eq_of_alive {x y : Object} (h : x.Wears y) (hy : y.phase = .alive) : y = x := by
  obtain ⟨hp, hl, ho⟩ := h.phase.resolve_right fun h => h.2.1 hy
  have hcontent := h.content
  have halloc := h.alloc
  have hserial := h.serial
  cases x
  cases y
  simp only [Object.mk.injEq]
  exact ⟨hcontent, ho, hl, halloc, hserial, hp⟩

/-- What has become of an object whose destructor was not under way, and is not, can be read off its
phase and its table. -/
theorem Object.Wears.eq_of_settled {x y z : Object} (hy : x.Wears y) (hz : x.Wears z)
    (hcalm : x.phase ≠ .dying) (hphase : y.phase = z.phase) (hlinks : y.links = z.links) : y = z := by
  have honDrop : y.onDrop = z.onDrop := by
    rcases hy.phase with ⟨hp, -, ho⟩ | ⟨hx, hne, ho⟩ <;>
      rcases hz.phase with ⟨hp', -, ho'⟩ | ⟨hx', hne', ho'⟩
    · rw [ho, ho']
    · cases hxp : x.phase <;> simp_all
    · cases hxp : x.phase <;> simp_all
    · have halive : x.phase = .alive := by cases hxp : x.phase <;> simp_all
      rw [ho halive, ho' halive]
  have hcontent := hy.content.trans hz.content.symm
  have halloc := hy.alloc.trans hz.alloc.symm
  have hserial := hy.serial.trans hz.serial.symm
  cases y
  cases z
  simp only [Object.mk.injEq]
  exact ⟨hcontent, honDrop, hlinks, halloc, hserial, hphase⟩

/-- The second heap comes of the first by losses. All has been logged that there is to be told of
them but `due`, and besides what destructors have reported. -/
structure Heap.Erodes (h h' : Heap) (due reported : List Event) : Prop where
  statics : h'.statics = h.statics
  nextId : h'.nextId = h.nextId
  budget : ∀ a, (h'.ledger a).budget = (h.ledger a).budget
  blocks : ∀ b : BlockId, Option.Rel Block.Becomes h.blocks[b]? h'.blocks[b]?
  objects : ∀ o : ObjectId, Option.Rel Object.Wears h.objects[o]? h'.objects[o]?
  events : ∃ es, h'.log.toList = h.log.toList ++ es ∧ h'.metrics = es.foldl .note h.metrics ∧
    h'.told + (reported : Multiset Event) = h.told + (es ++ due : List Event)

theorem Option.rel_refl {α : Type} {R : α → α → Prop} (hR : ∀ x, R x x) (x : Option α) :
    Option.Rel R x x := by
  cases x with
  | none => exact .none
  | some x => exact .some (hR x)

theorem Option.Rel.trans {α : Type} {R : α → α → Prop} (hR : ∀ x y z, R x y → R y z → R x z)
    {x y z : Option α} (h : Option.Rel R x y) (h' : Option.Rel R y z) : Option.Rel R x z := by
  cases h with
  | none => exact h'
  | some hxy =>
    cases h' with
    | some hyz => exact .some (hR _ _ _ hxy hyz)

theorem Option.Rel.of_none {α : Type} {R : α → α → Prop} {y : Option α}
    (h : Option.Rel R none y) : y = none := by
  cases h with
  | none => rfl

theorem Option.Rel.of_some {α : Type} {R : α → α → Prop} {x : α} {y : Option α}
    (h : Option.Rel R (some x) y) : ∃ z, y = some z ∧ R x z := by
  cases h with
  | some h => exact ⟨_, rfl, h⟩

/-- One element is changed, and the others are not. -/
theorem rel_modify {α : Type} {R : α → α → Prop} (hR : ∀ x, R x x) {xs ys : Array α} {i : Nat}
    {f : α → α} (hy : ys = xs.modify i f) (hf : ∀ x, xs[i]? = some x → R x (f x)) (j : Nat) :
    Option.Rel R xs[j]? ys[j]? := by
  rw [hy, Array.getElem?_modify]
  split
  · next heq =>
    subst heq
    cases hx : xs[i]? with
    | none => exact .none
    | some x => exact .some (hf x hx)
  · exact Option.rel_refl hR _

namespace Heap.Erodes

variable {h g g' : Heap} {due ds ds' : List Event}

theorem refl (h : Heap) : h.Erodes h [] [] where
  statics := rfl
  nextId := rfl
  budget _ := rfl
  blocks _ := Option.rel_refl .refl _
  objects _ := Option.rel_refl .refl _
  events := ⟨[], by simp⟩

/-- Losses after losses add up, with what is reported of each. -/
theorem trans (h₁ : h.Erodes g [] ds) (h₂ : g.Erodes g' due ds') :
    h.Erodes g' due (ds ++ ds') where
  statics := h₂.statics.trans h₁.statics
  nextId := h₂.nextId.trans h₁.nextId
  budget a := (h₂.budget a).trans (h₁.budget a)
  blocks b := Option.Rel.trans (fun _ _ _ => .trans) (h₁.blocks b) (h₂.blocks b)
  objects o := Option.Rel.trans (fun _ _ _ => .trans) (h₁.objects o) (h₂.objects o)
  events := by
    obtain ⟨es, hlog, hmetrics, htold⟩ := h₁.events
    obtain ⟨es', hlog', hmetrics', htold'⟩ := h₂.events
    refine ⟨es ++ es', ?_, ?_, ?_⟩
    · rw [hlog', hlog, List.append_assoc]
    · rw [hmetrics', hmetrics, List.foldl_append]
    · rw [List.append_nil] at htold
      simp only [← Multiset.coe_add] at htold htold' ⊢
      rw [add_left_comm, htold', ← add_assoc, add_comm (ds : Multiset Event), htold]
      abel

/-- What is due is said. -/
theorem say (h₁ : h.Erodes g due ds) (hd : due.foldl .note g.metrics = g.metrics) :
    h.Erodes (g.say due) [] ds := by
  obtain ⟨es, hlog, hmetrics, htold⟩ := h₁.events
  refine ⟨h₁.statics, h₁.nextId, h₁.budget, h₁.blocks, h₁.objects, es ++ due, ?_, ?_, ?_⟩
  · simp [Heap.say, hlog]
  · rw [List.foldl_append, ← hmetrics, hd]
    rfl
  · rw [List.append_nil]
    exact htold

/-- A destructor reports of a step. -/
theorem report (h : Heap) (node : Int64) (r : Reply) :
    h.Erodes (h.emit (.did node r)) [] [.did node r] where
  statics := rfl
  nextId := rfl
  budget _ := rfl
  blocks _ := Option.rel_refl .refl _
  objects _ := Option.rel_refl .refl _
  events := ⟨[.did node r], by simp [emit], rfl, rfl⟩

end Heap.Erodes

section

variable {h g : Heap} {K : Multiset Stake} {k : Stake} {b : BlockId} {o : ObjectId}

/-- What is still to be said when the stake is given up. -/
def Stake.farewell (h : Heap) (k : Stake) : List Event :=
  match (k.starts? h).bind (h.objects[·]?) with
  | some x => x.content.farewell
  | none => []

theorem Heap.log_giveBack (a : Alloc) (n : Nat) (l : Layout) (h : Heap) :
    (h.giveBack a n l).log.toList = h.log.toList ++ [.dealloc a n l] := by
  unfold giveBack
  cases a <;> dsimp only <;> split <;> simp [updateLedger, emit, breach]

/-- What is given back was counted before. -/
theorem Heap.Erodes.giveBack {a : Alloc} {n : Nat} {l : Layout} {due ds : List Event}
    (hg : h.Erodes g due ds) (hd : due = [.dealloc a n l]) :
    h.Erodes (g.giveBack a n l) [] ds := by
  subst hd
  obtain ⟨es, hlog, hmetrics, htold⟩ := hg.events
  have hkeeps : (g.giveBack a n l).statics = g.statics ∧ (g.giveBack a n l).nextId = g.nextId ∧
      (g.giveBack a n l).metrics = g.metrics := by
    unfold Heap.giveBack
    cases a <;> dsimp only <;> split <;> exact ⟨rfl, rfl, rfl⟩
  obtain ⟨hstatics, hnextId, hsame⟩ := hkeeps
  refine ⟨hstatics.trans hg.statics, hnextId.trans hg.nextId, fun a' => ?_, fun b => ?_,
    fun o => ?_, es ++ [.dealloc a n l], ?_, ?_, ?_⟩
  · rw [Heap.ledger_giveBack, ← hg.budget a']
    split <;> rfl
  · rw [Heap.blocks_giveBack]
    exact hg.blocks b
  · rw [Heap.objects_giveBack]
    exact hg.objects o
  · rw [Heap.log_giveBack, hlog, List.append_assoc]
  · rw [List.foldl_append, ← hmetrics, hsame]
    cases a <;> rfl
  · rw [List.append_nil, ← htold]
    exact congrArg (· + (ds : Multiset Event))
      (Heap.told_congr (Heap.blocks_giveBack a n l) (Heap.objects_giveBack a n l))

/-- One block is changed, and what that tells is logged but for `due`. -/
theorem Heap.Erodes.block {x : Block} {due : List Event} (f : Block → Block) (es : List Event)
    (hx : h.blocks[b]? = some x) (hf : x.Becomes (f x))
    (hg : g = { h with
      blocks := h.blocks.modify b f, metrics := es.foldl .note h.metrics, log := h.log ++ es })
    (htold : (f x).told = x.told + (es ++ due : List Event)) : h.Erodes g due [] := by
  have hblocks : g.blocks = h.blocks.modify b f := by rw [hg]
  have hobjects : g.objects = h.objects := by rw [hg]
  have hall := Heap.told_modify_block hobjects hblocks hx
  rw [htold, add_left_comm, add_comm _ x.told] at hall
  subst hg
  refine ⟨rfl, rfl, fun _ => rfl, rel_modify .refl rfl fun y hy => ?_,
    fun _ => Option.rel_refl .refl _, es, by simp, rfl, (add_zero _).trans (add_left_cancel hall)⟩
  rw [hx] at hy
  cases hy
  exact hf

/-- One object is changed, and nothing is logged. -/
theorem Heap.Erodes.object {x : Object} {due : List Event} (f : Object → Object)
    (hx : h.objects[o]? = some x) (hf : x.Wears (f x)) (hg : g = h.updateObject o f)
    (htold : (f x).told = x.told + (due : Multiset Event)) : h.Erodes g due [] := by
  have hblocks : g.blocks = h.blocks := by rw [hg]; rfl
  have hobjects : g.objects = h.objects.modify o f := by rw [hg]; rfl
  have hall := Heap.told_modify_object hblocks hobjects hx
  rw [htold, add_left_comm, add_comm _ x.told] at hall
  subst hg
  refine ⟨rfl, rfl, fun _ => rfl, fun _ => Option.rel_refl .refl _,
    rel_modify .refl rfl fun y hy => ?_, [], by simp [updateObject], rfl,
    (add_zero _).trans (add_left_cancel hall)⟩
  rw [hx] at hy
  cases hy
  exact hf

/-- A weak reference that goes is told of only if it is the last one. -/
theorem Heap.Erodes.releaseWeak {x : Block} (hx : h.blocks[b]? = some x) (hf : x.freed = false)
    (hw : 0 < x.weak) (hs : x.weak = 1 → x.strong = 0) : h.Erodes (h.releaseWeak b) [] [] := by
  by_cases last : x.weak = 1
  · rw [Heap.releaseWeak_last hx hf last (hs last)]
    refine .giveBack (.block (fun x => { x with weak := x.weak - 1, freed := true })
      [.blockFreed x.id] hx ?_ rfl ?_) rfl
    · exact ⟨rfl, rfl, rfl, rfl, .inl rfl, fun h => h, fun h => h, fun _ => rfl⟩
    · simp only [Block.told, hf, Bool.false_eq_true, ↓reduceIte, add_zero]
      rfl
  · rw [Heap.releaseWeak_others hx hf hw last]
    refine .block (fun x => { x with weak := x.weak - 1 }) [] hx ?_ ?_ ?_
    · exact ⟨rfl, rfl, rfl, rfl, .inl rfl, fun h => h, fun h => h, fun h => h⟩
    · simp [updateBlock]
    · simp [Block.told]

theorem Heap.Erodes.beginDestruction {x : Object} (hx : h.objects[o]? = some x)
    (hp : x.phase = .alive) : h.Erodes (h.beginDestruction o).1 x.content.farewell [] := by
  refine .object _ hx ?_ (Heap.beginDestruction_eq hx hp) ?_
  · exact ⟨rfl, rfl, rfl, .inr rfl, .inr ⟨by simp [hp], by simp, fun _ => rfl⟩⟩
  · simp [Object.told, hp]

/-- A loss erodes the heap. -/
theorem Loss.erodes {t : Scene} (hl : Loss h K k t) (hs : Sound (h, k ::ₘ K)) :
    h.Erodes t.1 (k.farewell h) [] := by
  have hmem := Multiset.mem_cons_self k K
  have hstart {o : ObjectId} (hk : k.starts? h = some o) {x : Object} (hx : h.objects[o]? = some x) :
      k.farewell h = x.content.farewell := by
    simp [Stake.farewell, hk, hx]
  cases hl with
  | @free x hx =>
    have hnone : (Stake.pointer x).starts? h = none := by
      have hblock := hx.block?
      have howns := hx.owns
      cases x <;> simp_all [Stake.starts?, Slot.block?]
    simp only [Stake.farewell, hnone]
    exact .refl h
  | leak => exact .refl h
  | @release p b hb others =>
    obtain ⟨x, hx, hf, hpos, -⟩ := hs.strong hmem hb
    rw [Heap.strongCount_eq hx] at others
    have hnone : (Stake.pointer (.strong p)).starts? h = none := by
      simp [Stake.starts?, hb, Heap.strongCount_eq hx, others]
    simp only [Stake.farewell, hnone, Heap.releaseStrong_others hx hf hpos others]
    refine .block (fun x => { x with strong := x.strong - 1 }) [] hx ?_ ?_ ?_
    · exact ⟨rfl, rfl, rfl, rfl, .inl rfl, fun h => by simp [h], fun h => h, fun h => h⟩
    · simp [Heap.updateBlock]
    · have : ¬ x.strong - 1 = 0 := by omega
      simp [Block.told, this, Nat.ne_of_gt hpos]
  | @dispose p b o hb last ho =>
    obtain ⟨x, hx, hf, hpos, hpointee⟩ := hs.strong hmem hb
    rw [Heap.strongCount_eq hx] at last
    have hxo : x.pointee = some o := by simpa [Heap.takePointee_releaseStrong_snd, hx] using ho
    have hstarts : (Stake.pointer (.strong p)).starts? h = some o := by
      simp [Stake.starts?, hb, Heap.strongCount_eq hx, last, hx, hxo]
    obtain ⟨y, hy, hphase⟩ := Option.map_eq_some_iff.mp (hs.alive hmem hstarts)
    rw [hstart hstarts hy]
    have htake : h.Erodes ((h.releaseStrong b).1.takePointee b).1 [] [] := by
      refine .block (fun x => { x with strong := x.strong - 1, pointee := none })
        [.pointeeDisposed x.id] hx ?_ ?_ ?_
      · exact ⟨rfl, rfl, rfl, rfl, .inr rfl, fun h => by simp [h], fun h => h, fun h => h⟩
      · exact Heap.takePointee_releaseStrong hx hf last hpointee
      · simp [Block.told, last, add_comm]
    exact htake.trans (.beginDestruction (by simpa using hy) hphase)
  | @disposeNothing p b hb last ho =>
    obtain ⟨x, hx, -, -, hpointee⟩ := hs.strong hmem hb
    simp [Heap.takePointee_releaseStrong_snd, hx] at ho
    simp [ho] at hpointee
  | @unobserve w b hb =>
    obtain ⟨x, hx, hf, hagree⟩ := hs.block hmem hb
    obtain ⟨hw, hlast⟩ := hagree.observed hmem hb
    exact Heap.Erodes.releaseWeak hx hf hw hlast
  | @destroy u o ho =>
    obtain ⟨x, hx, hphase⟩ := Option.map_eq_some_iff.mp (hs.alive hmem (o := o) ho)
    rw [hstart (o := o) ho hx]
    exact .beginDestruction hx hphase
  | @reclaim o =>
    obtain ⟨x, hx, hphase⟩ := Option.map_eq_some_iff.mp (hs.owned.dying hs.scope (o := o) (by simp))
    have hwears : x.Wears { x with phase := .gone } :=
      ⟨rfl, rfl, rfl, .inl rfl, .inr ⟨by simp [hphase], by simp, by simp [hphase]⟩⟩
    have hnothing : (Stake.destruction o).farewell h = [] := rfl
    dsimp only
    rw [Heap.endDestruction_eq hx, hnothing]
    cases hn : x.serial with
    | none => exact .object _ hx hwears rfl (by simp [Object.told, hphase, hn])
    | some n =>
      refine .giveBack (.object _ hx hwears rfl ?_) rfl
      simp [Object.told, hphase, hn]
  | @giveUp b =>
    obtain ⟨x, hx, hf, hagree⟩ := hs.block (k := .disposal b) hmem rfl
    obtain ⟨hw, hstrong⟩ := hagree.disposing hmem
    have hx' := Array.getElem?_modify_self (fun x : Block => { x with implicitWeak := false }) hx
    have hclear : h.Erodes (h.updateBlock b fun x => { x with implicitWeak := false }) [] [] := by
      refine .block _ [] hx ?_ (by simp [Heap.updateBlock]; rfl) (by simp [Block.told])
      exact ⟨rfl, rfl, rfl, rfl, .inl rfl, fun h => h, fun _ => rfl, fun h => h⟩
    have hlast := Heap.Erodes.releaseWeak (h := h.updateBlock b _) hx' hf hw fun _ => hstrong
    have hgive := hclear.trans hlast
    exact hgive

/-! ## The order of losses -/

/-- What a block has become can be read off the stakes that are left. -/
theorem Block.Agrees.unique {x y z : Block} (hy : y.Agrees K b) (hz : z.Agrees K b)
    (hxy : x.Becomes y) (hxz : x.Becomes z) : y = z := by
  have hstrong : y.strong = z.strong := hy.strong.trans hz.strong.symm
  have himplicit : y.implicitWeak = z.implicitWeak := by
    have h : y.implicitWeak.toNat = z.implicitWeak.toNat := by rw [hy.implicit, hz.implicit, hstrong]
    cases hyi : y.implicitWeak <;> cases hzi : z.implicitWeak <;> simp_all
  have hweak : y.weak = z.weak := by rw [hy.weak, hz.weak, himplicit]
  have hfreed : y.freed = z.freed := Bool.eq_iff_iff.mpr (by rw [hy.freed, hz.freed, hweak])
  have hpointee : y.pointee = z.pointee := by
    have hiff : y.pointee.isSome ↔ z.pointee.isSome := by rw [hy.pointee, hz.pointee, hstrong]
    rcases hxy.pointee with hp | hp <;> rcases hxz.pointee with hp' | hp'
    · rw [hp, hp']
    · rw [hp', Option.isSome_none, Bool.false_eq_true, iff_false, Bool.not_eq_true,
        Option.isSome_eq_false_iff, Option.isNone_iff_eq_none] at hiff
      rw [hiff, hp']
    · rw [hp, Option.isSome_none, Bool.false_eq_true, false_iff, Bool.not_eq_true,
        Option.isSome_eq_false_iff, Option.isNone_iff_eq_none] at hiff
      rw [hiff, hp]
    · rw [hp, hp']
  have hid := hxy.id.trans hxz.id.symm
  have hkind := hxy.kind.trans hxz.kind.symm
  have halloc := hxy.alloc.trans hxz.alloc.symm
  have hserial := hxy.serial.trans hxz.serial.symm
  cases y
  cases z
  simp only [Block.mk.injEq]
  exact ⟨hid, hkind, halloc, hserial, hpointee, hstrong, hweak, himplicit, hfreed⟩

theorem Ledger.ext_entries {l l' : Ledger} (hbudget : l.budget = l'.budget)
    (h : ∀ live, l.entries live = l'.entries live) : l = l' := by
  have hsome (i : Nat) (x : Allocation) :
      l.allocations[i]? = some x ↔ l'.allocations[i]? = some x := by
    have hmem (l : Ledger) : (i + 1, x.layout) ∈ l.entries x.live ↔ l.allocations[i]? = some x := by
      simp [mem_entries]
    rw [← hmem, ← hmem, h]
  obtain ⟨budget, allocations⟩ := l
  obtain ⟨budget', allocations'⟩ := l'
  simp only [mk.injEq]
  exact ⟨hbudget, Array.ext_getElem? fun i => Option.ext (hsome i)⟩

/-- Two heaps that come of one by losses, in which the same objects and stakes are left and
destructors have reported the same, tell the same in some order, and are the same apart from that. -/
theorem Heap.Erodes.unique {m n₁ n₂ : Heap} {ds₁ ds₂ : List Event} (h₁ : m.Erodes n₁ [] ds₁)
    (h₂ : m.Erodes n₂ [] ds₂) (hds : ds₁.Perm ds₂)
    (hs₁ : Sound (n₁, K)) (hs₂ : Sound (n₂, K)) (hbreaches : n₁.breaches = n₂.breaches)
    (hobjects : n₁.objects = n₂.objects) :
    n₁ = { n₂ with log := n₁.log } ∧ ∃ es₁ es₂, es₁.Perm es₂ ∧
      n₁.log.toList = m.log.toList ++ es₁ ∧ n₂.log.toList = m.log.toList ++ es₂ := by
  have hblocks : n₁.blocks = n₂.blocks := by
    refine Array.ext_getElem? fun b => ?_
    have hb₁ := h₁.blocks b
    have hb₂ := h₂.blocks b
    cases hx : m.blocks[b]? with
    | none =>
      rw [hx] at hb₁ hb₂
      rw [Option.Rel.of_none hb₁, Option.Rel.of_none hb₂]
    | some x =>
      rw [hx] at hb₁ hb₂
      obtain ⟨y, hy, hxy⟩ := Option.Rel.of_some hb₁
      obtain ⟨z, hz, hxz⟩ := Option.Rel.of_some hb₂
      rw [hy, hz, (hs₁.counted b y hy).unique (hs₂.counted b z hz) hxy hxz]
  have hledger (a : Alloc) : n₁.ledger a = n₂.ledger a := by
    refine Ledger.ext_entries ((h₁.budget a).trans (h₂.budget a).symm) fun live => ?_
    rw [← hs₁.booked live a, ← hs₂.booked live a, Heap.claims_congr hobjects hblocks]
  obtain ⟨es₁, hlog₁, hmetrics₁, htold₁⟩ := h₁.events
  obtain ⟨es₂, hlog₂, hmetrics₂, htold₂⟩ := h₂.events
  have hperm : es₁.Perm es₂ := by
    rw [List.append_nil] at htold₁ htold₂
    rw [Heap.told_congr hblocks hobjects, Multiset.coe_eq_coe.mpr hds, htold₂] at htold₁
    exact Multiset.coe_eq_coe.mp (add_left_cancel htold₁.symm)
  refine ⟨?_, es₁, es₂, hperm, hlog₁, hlog₂⟩
  have hglobal := hledger .global
  have harena := hledger .arena
  have hmetrics : n₁.metrics = n₂.metrics := by rw [hmetrics₁, hmetrics₂, hperm.foldl_eq]
  have hstatics := h₁.statics.trans h₂.statics.symm
  have hnextId := h₁.nextId.trans h₂.nextId.symm
  cases n₁
  cases n₂
  simp only [Heap.mk.injEq]
  exact ⟨hblocks, hobjects, hglobal, harena, hstatics, hmetrics, hnextId, trivial, hbreaches⟩

end

end Custody
