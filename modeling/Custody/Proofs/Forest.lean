import Custody.Proofs.Chronicle
import Custody.Proofs.Shedding

/-!
# Trees of pointees

* `Member`, `Forest`: pointees with their blocks, in a row of trees. `Forest.preorder`,
  `Forest.postorder`: the members, before and after what hangs on them.
* `Heap.HasMember`, `Heap.Bears`: the trees that hang on slots.
* `Narrates`: what is told. `Forest.story`, `Forest.story_disposed`, `Forest.story_freed`,
  `Forest.returned_before_freed`: what is told when a forest is felled, and in which order.
* `Heap.Confined`: between two heaps only some blocks and objects change.
* `Heap.Fells`: between two heaps the trees of a forest have been felled, one after another
  (`Heap.Fells.cons`), and what hangs on a member before the member ends (`Heap.Fells.around`).
-/

namespace Custody

/-! ## Forests -/

/-- A pointee and its block, as they are before they are disposed of. -/
structure Member where
  block : BlockId
  header : Block
  object : ObjectId
  pointee : Object

/-- Trees in a row. On the first member hang the trees of `children`, and `rest` are the others. -/
inductive Forest
  | nil
  | cons (v : Member) (children rest : Forest)

/-- Neither their blocks nor their objects are the same. -/
def Member.Apart (v w : Member) : Prop := v.block ≠ w.block ∧ v.object ≠ w.object

namespace Forest

variable {v : Member} {ts ks f : Forest}

/-- The members as they are disposed: each before what it keeps. -/
def preorder : Forest → List Member
  | nil => []
  | cons v ks ts => v :: (ks.preorder ++ ts.preorder)

/-- The members as they are freed: each after what it keeps. -/
def postorder : Forest → List Member
  | nil => []
  | cons v ks ts => ks.postorder ++ v :: ts.postorder

/-- No two members have a block or an object in common. -/
def Distinct (f : Forest) : Prop := f.preorder.Pairwise Member.Apart

/-- The trees in the row all have the property, as what stands at their tops and what hangs on
that. -/
def Each (P : Member → Forest → Prop) : Forest → Prop
  | nil => True
  | cons v ks ts => P v ks ∧ ts.Each P

theorem preorder_cons : (cons v ks ts).preorder = (cons v ks nil).preorder ++ ts.preorder := by
  simp only [preorder, List.append_nil, List.cons_append]

theorem mem_preorder_tree {u : Member} :
    u ∈ (cons v ks nil).preorder ↔ u = v ∨ u ∈ ks.preorder := by
  simp only [preorder, List.append_nil, List.mem_cons]

/-- The first tree, the others, and both. -/
theorem distinct_cons : (cons v ks ts).Distinct ↔ (cons v ks nil).Distinct ∧ ts.Distinct ∧
    ∀ u ∈ (cons v ks nil).preorder, ∀ w ∈ ts.preorder, u.Apart w := by
  rw [Distinct, preorder_cons, List.pairwise_append]
  rfl

theorem distinct_tree :
    (cons v ks nil).Distinct ↔ (∀ u ∈ ks.preorder, v.Apart u) ∧ ks.Distinct := by
  rw [Distinct, preorder, preorder, List.append_nil, List.pairwise_cons]
  rfl

end Forest

/-! ## What hangs on a slot -/

/-- The member is there, as it is described. -/
structure Heap.HasMember (h : Heap) (v : Member) : Prop where
  block : h.blocks[v.block]? = some v.header
  pointee : v.header.pointee = some v.object
  object : h.objects[v.object]? = some v.pointee

/-- On the slots hang the trees of the forest. -/
inductive Heap.Bears (h : Heap) : List Slot → Forest → Prop
  | nil : Bears h [] .nil
  | cons {p : Strong} {v : Member} {xs ys : List Slot} {ks ts : Forest}
      (hp : p.block = some v.block) (hv : h.HasMember v) (hsheds : v.pointee.Sheds ys)
      (hks : Bears h ys ks) (hts : Bears h xs ts) : Bears h (.strong p :: xs) (.cons v ks ts)

theorem Heap.Bears.congr {h h' : Heap} {xs : List Slot} {f : Forest} (hf : h.Bears xs f)
    (hsame : ∀ v ∈ f.preorder, h'.blocks[v.block]? = h.blocks[v.block]? ∧
      h'.objects[v.object]? = h.objects[v.object]?) : h'.Bears xs f := by
  induction hf with
  | nil => exact .nil
  | @cons p v xs ys ks ts hp hv hsheds _ _ ihk iht =>
    obtain ⟨⟨hblock, hobject⟩, hsame⟩ := List.forall_mem_cons.mp hsame
    obtain ⟨hks, hts⟩ := List.forall_mem_append.mp hsame
    have hv' : h'.HasMember v := ⟨hblock.trans hv.block, hv.pointee, hobject.trans hv.object⟩
    exact .cons hp hv' hsheds (ihk hks) (iht hts)

/-! ## What is told -/

/-- The events tell of these turns, and beside them there are only remarks. -/
structure Narrates (es : List Event) (ts : List Turn) : Prop where
  turns : es.filterMap Event.turn? = ts
  remarks : ∀ e ∈ es, e.turn? = none → e.IsRemark

namespace Narrates

variable {es ds : List Event} {us vs : List Turn} {e : Event} {t : Turn}

theorem nil : Narrates [] [] := ⟨rfl, nofun⟩

theorem append (h : Narrates es us) (h' : Narrates ds vs) : Narrates (es ++ ds) (us ++ vs) where
  turns := by rw [List.filterMap_append, h.turns, h'.turns]
  remarks := List.forall_mem_append.mpr ⟨h.remarks, h'.remarks⟩

theorem remark (he : e.IsRemark) : Narrates [e] [] where
  turns := by cases he <;> rfl
  remarks := by simpa using fun _ => he

theorem turn (he : e.turn? = some t) : Narrates [e] [t] where
  turns := by simp [he]
  remarks := by simp [he]

theorem farewell (c : Content) : Narrates c.farewell [] := by
  unfold Content.farewell
  split
  · exact remark (.drop _)
  · exact nil

theorem returned (y : Object) : Narrates y.returned y.returns := by
  rw [Object.returned, Object.returns]
  cases y.storage? with
  | none => exact nil
  | some s => exact turn rfl

end Narrates

/-- The metrics after what is told. -/
def Metrics.noteTurn (m : Metrics) : Turn → Metrics
  | .created _ => m.recordBlockAllocated
  | .disposed _ => m.recordPointeeDisposed
  | .freed _ => m.recordBlockFreed
  | .granted _ | .returned _ => m

/-- Remarks are not counted. -/
theorem Narrates.foldl_note {es : List Event} {ts : List Turn} (h : Narrates es ts) (m : Metrics) :
    es.foldl .note m = ts.foldl .noteTurn m := by
  obtain ⟨rfl, hremarks⟩ := h
  induction es generalizing m with
  | nil => rfl
  | cons e es ih =>
    obtain ⟨he, hes⟩ := List.forall_mem_cons.mp hremarks
    rw [List.foldl_cons, ih _ hes, List.filterMap_cons]
    cases ht : e.turn? with
    | none =>
      have hsame : m.note e = m := by cases he ht <;> rfl
      rw [hsame]
    | some t =>
      have hturn : m.note e = m.noteTurn t := by
        cases e <;> cases ht <;> rfl
      rw [hturn, List.foldl_cons]

namespace Turn

/-- The id of the block whose pointee is disposed. -/
def disposed? : Turn → Option Nat
  | disposed id => some id
  | _ => none

/-- The id of the block that is freed. -/
def freed? : Turn → Option Nat
  | freed id => some id
  | _ => none

end Turn

namespace Event

/-- The id of the block whose pointee is disposed. -/
def disposed? : Event → Option Nat
  | pointeeDisposed id => some id
  | _ => none

/-- The id of the block that is freed. -/
def freed? : Event → Option Nat
  | blockFreed id => some id
  | _ => none

end Event

theorem Narrates.disposed {es : List Event} {ts : List Turn} (h : Narrates es ts) :
    es.filterMap Event.disposed? = ts.filterMap Turn.disposed? := by
  rw [← h.turns, List.filterMap_filterMap]
  refine List.filterMap_congr fun e _ => ?_
  cases e <;> rfl

theorem Narrates.freed {es : List Event} {ts : List Turn} (h : Narrates es ts) :
    es.filterMap Event.freed? = ts.filterMap Turn.freed? := by
  rw [← h.turns, List.filterMap_filterMap]
  refine List.filterMap_congr fun e _ => ?_
  cases e <;> rfl

namespace Member

variable {v : Member}

/-- What is told at the end of a member, when all that hangs on it has been felled. -/
def ending (v : Member) : List Turn := v.pointee.returns ++ v.header.frees

theorem ending_disposed : v.ending.filterMap Turn.disposed? = [] := by
  unfold ending Object.returns
  cases v.pointee.storage? <;> rfl

theorem ending_freed : v.ending.filterMap Turn.freed? = [v.header.id] := by
  unfold ending Object.returns
  cases v.pointee.storage? <;> rfl

theorem foldl_ending (m : Metrics) : v.ending.foldl .noteTurn m = m.recordBlockFreed := by
  unfold ending Object.returns
  cases v.pointee.storage? <;> rfl

theorem returned_before_freed {s : Alloc × Nat × Layout} (hs : v.pointee.storage? = some s) :
    [Turn.returned s, .freed v.header.id].Sublist v.ending := by
  simp [ending, Object.returns, hs, Block.frees]

end Member

namespace Forest

variable {v : Member} {ts ks f : Forest}

/-- What is told when the trees are felled. -/
def story : Forest → List Turn
  | nil => []
  | cons v ks ts => (.disposed v.header.id :: ks.story ++ v.ending) ++ ts.story

theorem story_cons : (cons v ks ts).story = (cons v ks nil).story ++ ts.story := by
  simp only [story, List.append_nil]

theorem story_disposed (f : Forest) :
    f.story.filterMap Turn.disposed? = f.preorder.map (·.header.id) := by
  induction f with
  | nil => rfl
  | cons v ks ts ihk iht => simp [story, preorder, Turn.disposed?, ihk, iht, Member.ending_disposed]

theorem story_freed (f : Forest) :
    f.story.filterMap Turn.freed? = f.postorder.map (·.header.id) := by
  induction f with
  | nil => rfl
  | cons v ks ts ihk iht =>
    simp [story, postorder, Turn.freed?, List.filterMap_cons, ihk, iht, Member.ending_freed]

/-- The memory of a pointee is returned before its block is freed. -/
theorem returned_before_freed {s : Alloc × Nat × Layout} (hv : v ∈ f.preorder)
    (hs : v.pointee.storage? = some s) :
    [Turn.returned s, .freed v.header.id].Sublist f.story := by
  induction f with
  | nil => cases hv
  | cons u ks ts ihk iht =>
    rcases List.mem_cons.mp hv with rfl | hv
    · have hending := (Member.returned_before_freed hs).trans
        (List.sublist_append_right (.disposed v.header.id :: ks.story) _)
      exact hending.trans (List.sublist_append_left _ _)
    rcases List.mem_append.mp hv with hv | hv
    · have hks := (ihk hv).trans (List.sublist_append_left _ u.ending)
      exact (hks.cons (.disposed u.header.id)).trans (List.sublist_append_left _ _)
    · exact (iht hv).trans (List.sublist_append_right _ _)

/-- Each member is counted twice. -/
theorem foldl_story (f : Forest) (m : Metrics) : f.story.foldl .noteTurn m =
    { m with
      pointeesDisposed := m.pointeesDisposed + f.preorder.length
      blocksFreed := m.blocksFreed + f.preorder.length } := by
  induction f generalizing m with
  | nil => rfl
  | cons v ks ts ihk iht =>
    simp only [story, List.cons_append, List.foldl_cons, List.foldl_append, ihk, iht,
      Member.foldl_ending, Metrics.noteTurn, Metrics.recordPointeeDisposed,
      Metrics.recordBlockFreed, preorder, List.length_cons, List.length_append, Metrics.mk.injEq]
    simp
    omega

end Forest

/-- What is told at the start and the end of a member is told around what hangs on it. -/
theorem Narrates.around {es : List Event} {v : Member} {ks : Forest} (hes : Narrates es ks.story) :
    Narrates (.pointeeDisposed v.header.id :: v.pointee.content.farewell ++
        (es ++ (v.pointee.returned ++ [.blockFreed v.header.id,
          .dealloc v.header.alloc v.header.serial (.block v.header.kind.isSized)])))
      (Forest.cons v ks .nil).story := by
  have hstart : Narrates (.pointeeDisposed v.header.id :: v.pointee.content.farewell)
      [.disposed v.header.id] := (Narrates.turn rfl).append (.farewell _)
  have hfree : Narrates [.blockFreed v.header.id,
      .dealloc v.header.alloc v.header.serial (.block v.header.kind.isSized)] v.header.frees :=
    (Narrates.turn rfl).append (.turn rfl)
  have hstory := hstart.append (hes.append ((Narrates.returned v.pointee).append hfree))
  simpa [Forest.story, Member.ending] using hstory

/-! ## What is felled -/

/-- The block when its last owner has gone, its pointee has been disposed of and it has been
freed. -/
def Block.spent (x : Block) : Block :=
  { x with strong := 0, weak := 0, pointee := none, implicitWeak := false, freed := true }

/-- The object when its destructor is over. -/
def Object.spent (y : Object) : Object := { y with phase := .gone, onDrop := [], links := .empty }

namespace Heap

variable {h g g' h' : Heap} {vs ws : List Member} {os : List ObjectId} {es ds cs : List Event}
  {v : Member} {ks ts f : Forest}

/-- Between the heaps the events are logged and counted. Of blocks and objects only those of the
members may change, and the objects `os`. -/
structure Confined (vs : List Member) (os : List ObjectId) (es : List Event) (h h' : Heap) :
    Prop where
  blocks : ∀ b, (∀ v ∈ vs, v.block ≠ b) → h'.blocks[b]? = h.blocks[b]?
  objects : ∀ o ∉ os, (∀ v ∈ vs, v.object ≠ o) → h'.objects[o]? = h.objects[o]?
  statics : h'.statics = h.statics
  nextId : h'.nextId = h.nextId
  logs : h.Logs h' es

namespace Confined

theorem trans (hc : h.Confined vs os es g) (hc' : g.Confined vs os ds h') :
    h.Confined vs os (es ++ ds) h' where
  blocks b hb := (hc'.blocks b hb).trans (hc.blocks b hb)
  objects o ho hvs := (hc'.objects o ho hvs).trans (hc.objects o ho hvs)
  statics := hc'.statics.trans hc.statics
  nextId := hc'.nextId.trans hc.nextId
  logs := hc.logs.trans hc'.logs

theorem mono {os' : List ObjectId} (hc : h.Confined vs os es h') (hvs : vs ⊆ ws)
    (hos : ∀ o ∈ os, o ∈ os' ∨ ∃ v ∈ ws, v.object = o) : h.Confined ws os' es h' where
  blocks b hb := hc.blocks b fun v hv => hb v (hvs hv)
  objects o ho hws := by
    refine hc.objects o (fun h => ?_) fun v hv => hws v (hvs hv)
    rcases hos o h with h | ⟨v, hv, heq⟩
    · exact ho h
    · exact hws v hv heq
  statics := hc.statics
  nextId := hc.nextId
  logs := hc.logs

/-- If nothing changes, only what may change does. -/
theorem of_nil (hc : h.Confined [] [] es h') : h.Confined vs os es h' :=
  hc.mono (List.nil_subset _) fun _ ho => nomatch ho

/-- Whatever is apart from the members is as it was. -/
theorem apart (hc : h.Confined vs os es h') (hv : ∀ u ∈ vs, u.Apart v) (ho : v.object ∉ os) :
    h'.blocks[v.block]? = h.blocks[v.block]? ∧ h'.objects[v.object]? = h.objects[v.object]? :=
  ⟨hc.blocks _ fun u hu => (hv u hu).1, hc.objects _ ho fun u hu => (hv u hu).2⟩

end Confined

/-- Between the heaps the trees are felled, and the objects `os` may change. -/
structure Fells (f : Forest) (os : List ObjectId) (es : List Event) (h h' : Heap) : Prop where
  confined : h.Confined f.preorder os es h'
  spent : ∀ v ∈ f.preorder, h'.blocks[v.block]? = some v.header.spent ∧
    h'.objects[v.object]? = some v.pointee.spent
  narrates : Narrates es f.story

theorem Fells.nil (hc : h.Confined [] [] es h') (hn : Narrates es []) : h.Fells .nil os es h' where
  confined := hc.of_nil
  spent := by simp [Forest.preorder]
  narrates := hn

/-- Before the trees are felled something else happens. -/
theorem Fells.after (hc : h.Confined [] os es g) (hn : Narrates es []) (hf : g.Fells f os ds h') :
    h.Fells f os (es ++ ds) h' where
  confined := (hc.mono (List.nil_subset _) fun _ ho => .inl ho).trans hf.confined
  spent := hf.spent
  narrates := hn.append hf.narrates

/-- The trees are felled one after another. -/
theorem Fells.cons (hv : h.Fells (.cons v ks .nil) os es g) (hts : g.Fells ts os ds h')
    (hd : (Forest.cons v ks ts).Distinct)
    (hos : ∀ u ∈ (Forest.cons v ks .nil).preorder, u.object ∉ os) :
    h.Fells (.cons v ks ts) os (es ++ ds) h' where
  confined := by
    rw [Forest.preorder_cons]
    exact (hv.confined.mono (List.subset_append_left _ _) fun _ ho => .inl ho).trans
      (hts.confined.mono (List.subset_append_right _ _) fun _ ho => .inl ho)
  spent := by
    rw [Forest.preorder_cons]
    obtain ⟨-, -, hapart⟩ := Forest.distinct_cons.mp hd
    refine List.forall_mem_append.mpr ⟨fun u hu => ?_, hts.spent⟩
    obtain ⟨hblock, hobject⟩ := hv.spent u hu
    obtain ⟨hb, ho⟩ := hts.confined.apart
      (fun w hw => ⟨(hapart u hu w hw).1.symm, (hapart u hu w hw).2.symm⟩) (hos u hu)
    exact ⟨hb.trans hblock, ho.trans hobject⟩
  narrates := by
    rw [Forest.story_cons]
    exact hv.narrates.append hts.narrates

/-- What hangs on a member is felled between the member's start and its end. -/
theorem Fells.around (hstart : h.Confined [v] [] es g) (hks : g.Fells ks [v.object] ds g')
    (hend : g'.Confined [v] [] cs h') (hd : (Forest.cons v ks .nil).Distinct)
    (hblock : h'.blocks[v.block]? = some v.header.spent)
    (hobject : h'.objects[v.object]? = some v.pointee.spent)
    (hn : Narrates (es ++ (ds ++ cs)) (Forest.cons v ks .nil).story) :
    h.Fells (.cons v ks .nil) [] (es ++ (ds ++ cs)) h' where
  confined := by
    have hmem : v ∈ (Forest.cons v ks .nil).preorder := List.mem_cons_self
    have hv : [v] ⊆ (Forest.cons v ks .nil).preorder := by simpa using hmem
    have hsub : ks.preorder ⊆ (Forest.cons v ks .nil).preorder := fun u hu =>
      Forest.mem_preorder_tree.mpr (.inr hu)
    have hown : ∀ o ∈ [v.object],
        o ∈ [] ∨ ∃ u ∈ (Forest.cons v ks .nil).preorder, u.object = o := by
      simpa using ⟨v, hmem, rfl⟩
    have hrest := (hks.confined.mono hsub hown).trans (hend.mono hv nofun)
    exact (hstart.mono hv nofun).trans hrest
  spent u hu := by
    obtain ⟨hapart, -⟩ := Forest.distinct_tree.mp hd
    rcases Forest.mem_preorder_tree.mp hu with rfl | hu
    · exact ⟨hblock, hobject⟩
    · obtain ⟨hb, ho⟩ := hend.apart (by simpa using hapart u hu) List.not_mem_nil
      exact ⟨hb.trans (hks.spent u hu).1, ho.trans (hks.spent u hu).2⟩
  narrates := hn

end Heap

end Custody
