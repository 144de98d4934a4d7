import Custody.Proofs.Change

/-!
# What stakes name is there

* `Slot.Within`, `Stake.Within`: the blocks and objects that are named exist in the heap.
* `Scoped`: so it is for every stake, and for the pointee of every block. Changes, losses and
  shifts keep it.
* `Heap.Extends`: no block and no object is ever taken away.
-/

namespace Custody

variable {Y : Option Place}

/-- The first heap has all the blocks and objects of the second one. -/
structure Heap.Extends (h' h : Heap) : Prop where
  blocks : h.blocks.size ≤ h'.blocks.size
  objects : h.objects.size ≤ h'.objects.size

theorem Heap.Extends.refl (h : Heap) : h.Extends h := ⟨Nat.le_refl _, Nat.le_refl _⟩

theorem Heap.Extends.trans {h₁ h₂ h₃ : Heap} (h : h₃.Extends h₂) (h' : h₂.Extends h₁) :
    h₃.Extends h₁ :=
  ⟨h'.blocks.trans h.blocks, h'.objects.trans h.objects⟩

theorem Heap.Extends.has {h h' : Heap} {t : TableId} (he : h'.Extends h) (ht : h.Has t) :
    h'.Has t := by
  cases t with
  | root => trivial
  | links o => exact Nat.lt_of_lt_of_le ht he.objects

/-- The place is in an object that is there, or in a standing value. -/
def Place.Within (h : Heap) (p : Place) : Prop := ∀ o, p.origin = .object o → o < h.objects.size

/-- The slot has a block and an object that are there. -/
structure Slot.Within (h : Heap) (x : Slot) : Prop where
  block : ∀ b, x.block? = some b → b < h.blocks.size
  view : ∀ p, x.view? = some p → p.Within h

/-- What the stake is in is there. -/
def Stake.Within (h : Heap) : Stake → Prop
  | pointer x => x.Within h
  | disposal b => b < h.blocks.size
  | destruction o => o < h.objects.size

/-- Some block has the object as its pointee. -/
def Heap.Manages (h : Heap) (o : ObjectId) : Prop :=
  ∃ (b : BlockId) (x : Block), h.blocks[b]? = some x ∧ x.pointee = some o

/-- Every stake is in what is there, and so are the pointees of the blocks. -/
structure Scoped (s : Scene) : Prop where
  stakes : ∀ k ∈ s.2, k.Within s.1
  pointees : ∀ o, s.1.Manages o → o < s.1.objects.size

theorem Stake.Within.mono {h h' : Heap} {k : Stake} (hk : k.Within h) (he : h'.Extends h) :
    k.Within h' := by
  cases k with
  | pointer x =>
    refine ⟨fun b hb => ?_, fun p hp o ho => ?_⟩
    · exact Nat.lt_of_lt_of_le (Slot.Within.block hk b hb) he.blocks
    · exact Nat.lt_of_lt_of_le (Slot.Within.view hk p hp o ho) he.objects
  | disposal b => exact Nat.lt_of_lt_of_le hk he.blocks
  | destruction o => exact Nat.lt_of_lt_of_le hk he.objects

/-! ## One stake at a time -/

section Slots

variable {h : Heap} {x y : Slot}

/-- A view that comes of one in the heap is in the heap. -/
theorem LeadsInto.within {g : Heap} {k k' : Kind} {u v : Option Place}
    (huv : LeadsInto Y g k u k' v)
    (hu : ∀ p, u = some p → p.Within h) : ∀ p, v = some p → p.Within h := by
  cases huv with
  | null => simp
  | static =>
    rintro p ⟨⟩ o ho
    cases ho
  | part =>
    rintro q ⟨⟩
    have hp := hu _ rfl
    exact hp

theorem Slot.view?_of_lends? {p : Place} (hx : x.lends? = some p) : x.view? = some p := by
  cases x with
  | strong | weak => exact hx
  | unique | raw => cases hx

theorem Slot.Begets.within {g : Heap} (hxy : x.Begets Y g y) (hx : x.Within h) : y.Within h :=
  ⟨fun b hb => hx.block b (hxy.block ▸ hb),
    hxy.view.within fun p hp => hx.view p (view?_of_lends? hp)⟩

theorem Slot.Within.node? {o : ObjectId} (hx : x.Within h) (ho : x.node? = some o) :
    o < h.objects.size := by
  unfold Slot.node? at ho
  split at ho
  · next p =>
    obtain ⟨_ | s, _ | ⟨f, path⟩⟩ := p <;> cases ho
    exact hx.view _ rfl o rfl
  · subst ho
    exact hx.view _ rfl o rfl
  · cases ho

theorem Slot.within_of_block {k : Kind} {b : BlockId} {o : ObjectId} (hb : b < h.blocks.size)
    (ho : o < h.objects.size) : (Slot.strong ⟨k, some b, some (.whole o)⟩).Within h := by
  constructor
  · rintro c ⟨⟩
    exact hb
  · rintro p ⟨⟩ o' ⟨⟩
    exact ho

/-- A unique pointer names nothing but its object. -/
theorem Slot.within_unique {k : Kind} {a : Alloc} {o : ObjectId} :
    (Slot.unique ⟨k, a, some o⟩).Within h ↔ o < h.objects.size := by
  constructor
  · intro hx
    exact hx.view _ rfl o rfl
  · intro ho
    constructor
    · rintro b ⟨⟩
    · rintro p ⟨⟩ o' ⟨⟩
      exact ho

theorem Slot.within_raw {k : Kind} {a : Alloc} {o : ObjectId} :
    (Slot.raw ⟨k, a, o⟩).Within h ↔ o < h.objects.size := by
  constructor
  · intro hx
    exact hx.view _ rfl o rfl
  · intro ho
    constructor
    · rintro b ⟨⟩
    · rintro p ⟨⟩ o' ⟨⟩
      exact ho

end Slots

/-! ## Pointees -/

section Manages

variable {h h' : Heap} {b : BlockId} {o : ObjectId} {x : Block} {f : Block → Block}

theorem Heap.Manages.of_eq (hb : h'.blocks = h.blocks) (hm : h'.Manages o) : h.Manages o := by
  rwa [Manages, hb] at hm

/-- A block that changes manages nothing else than it did. -/
theorem Heap.Manages.of_modify (hb : h'.blocks = h.blocks.modify b f)
    (hf : ∀ x, (f x).pointee = x.pointee ∨ (f x).pointee = none) (hm : h'.Manages o) :
    h.Manages o := by
  obtain ⟨c, y, hy, ho⟩ := hm
  rw [hb, Array.getElem?_modify] at hy
  split at hy
  · obtain ⟨x, hx, rfl⟩ := Option.map_eq_some_iff.mp hy
    rcases hf x with hp | hp
    · exact ⟨c, x, hx, hp ▸ ho⟩
    · rw [hp] at ho
      cases ho
  · exact ⟨c, y, hy, ho⟩

theorem Heap.Manages.of_releaseStrong (hm : (h.releaseStrong b).1.Manages o) : h.Manages o :=
  .of_modify blocks_releaseStrong (fun _ => .inl rfl) hm

theorem Heap.Manages.of_takePointee (hm : (h.takePointee b).1.Manages o) : h.Manages o :=
  .of_modify blocks_takePointee (fun _ => .inr rfl) hm

theorem Heap.Manages.of_push (hb : h'.blocks = h.blocks.push x) (hm : h'.Manages o) :
    h.Manages o ∨ x.pointee = some o := by
  obtain ⟨c, y, hy, ho⟩ := hm
  rw [hb, Array.getElem?_push] at hy
  split at hy
  · cases hy
    exact .inr ho
  · exact .inl ⟨c, y, hy, ho⟩

end Manages

/-! ## Scenes -/

section Scenes

variable {h h' : Heap} {K K' : Multiset Stake}

theorem scoped_empty : Scoped (.empty, 0) := by
  refine ⟨by simp, ?_⟩
  rintro o ⟨b, x, hx, -⟩
  simp [Heap.empty] at hx

theorem Scoped.cons {k : Stake} (hs : Scoped (h, K)) (hk : k.Within h) : Scoped (h, k ::ₘ K) := by
  refine ⟨fun l hl => ?_, hs.pointees⟩
  rcases Multiset.mem_cons.mp hl with rfl | hl
  · exact hk
  · exact hs.stakes l hl

theorem Scoped.tail {k : Stake} (hs : Scoped (h, k ::ₘ K)) : Scoped (h, K) :=
  ⟨fun l hl => hs.stakes l (Multiset.mem_cons_of_mem hl), hs.pointees⟩

theorem Scoped.head {k : Stake} (hs : Scoped (h, k ::ₘ K)) : k.Within h :=
  hs.stakes k (Multiset.mem_cons_self _ _)

/-- What no stake can name, no stake counts for. -/
theorem Scoped.tally_eq_zero {f : Stake → Option Nat} {n : Nat} (hs : Scoped (h, K))
    (hf : ∀ k : Stake, k.Within h → f k ≠ some n) : tally f K n = 0 :=
  Multiset.countP_eq_zero.mpr fun k hk => hf k (hs.stakes k hk)

theorem Scoped.next (hs : Scoped (h, K)) (he : h'.Extends h)
    (hm : ∀ o, h'.Manages o → h.Manages o) : Scoped (h', K) :=
  ⟨fun k hk => (hs.stakes k hk).mono he,
    fun o ho => Nat.lt_of_lt_of_le (hs.pointees o (hm o ho)) he.objects⟩

/-- A change loses neither blocks nor objects. -/
theorem Change.extends {s t : Scene} (hc : Change Y s t) : t.1.Extends s.1 := by
  cases hc with
  | null | copy | forget | revise | release | adopt | setBudget | resetMetrics | remark =>
    exact ⟨Nat.le_refl _, Nat.le_refl _⟩
  | share | observe =>
    constructor <;> simp
  | lock _ _ alive =>
    constructor
    · simp [Heap.blocks_addStrongIfAlive alive]
    · simp
  | refuseLock =>
    constructor <;> simp
  | construct _ hc =>
    obtain ⟨h₁, o, hc₁, -, rfl⟩ := Unique.construct_eq hc
    obtain ⟨-, hb, serial, ho, -⟩ := Heap.construct_eq hc₁
    exact ⟨(congrArg Array.size hb).ge, by simp [ho, Heap.measure]⟩
  | copyIn _ hc =>
    obtain ⟨-, hb, serial, ho, -⟩ := Heap.construct_eq hc
    exact ⟨(congrArg Array.size hb).ge, by simp [ho]⟩
  | promote hc =>
    obtain ⟨-, ho, n, -, hb, -⟩ := Heap.createBlock_ok hc
    exact ⟨by simp [hb], (congrArg Array.size ho).ge⟩
  | refuseBlock _ hc =>
    obtain ⟨-, ho, hb, -⟩ := Heap.createBlock_error hc
    exact ⟨(congrArg Array.size hb).ge, (congrArg Array.size ho).ge⟩
  | write hx hp hc =>
    constructor <;> simp

theorem Loss.extends {k : Stake} {t : Scene} (hl : Loss h K k t) : t.1.Extends h := by
  cases hl <;> constructor <;> simp

/-- What a change adds to the stakes is within the heap that it leads to. -/
theorem Change.scoped {s t : Scene} (hc : Change Y s t) (hs : Scoped s) : Scoped t := by
  have he := hc.extends
  cases hc with
  | null hx hv =>
    refine hs.cons ⟨fun b hb => ?_, by simp [hv]⟩
    rw [hx.block?] at hb
    cases hb
  | copy hx hy hxy => exact hs.cons (hxy.within (hs.stakes _ hx))
  | forget => exact hs.tail
  | revise hy hz hzy => exact hs.tail.cons (hzy.within (hs.tail.stakes _ hz))
  | share hp hb hq =>
    have hn := hs.next he fun _ => .of_modify Heap.blocks_addStrong fun _ => .inl rfl
    exact hn.cons (hq.within (hn.stakes _ hp))
  | observe hx hb hw =>
    have hn := hs.next he fun _ => .of_modify Heap.blocks_addWeak fun _ => .inl rfl
    exact hn.cons (hw.within (hn.stakes _ hx))
  | lock hw hb alive hp =>
    have hn := hs.next he fun _ =>
      .of_modify (Heap.blocks_addStrongIfAlive alive) fun _ => .inl rfl
    exact hn.cons (hp.within (hn.stakes _ hw))
  | refuseLock => exact hs.next he fun _ => .of_eq Heap.blocks_recordExpiredLock
  | construct _ hc =>
    obtain ⟨h₁, o, hc₁, rfl, rfl⟩ := Unique.construct_eq hc
    obtain ⟨rfl, hb, serial, ho, -⟩ := Heap.construct_eq hc₁
    refine (hs.next he fun _ => .of_eq hb).cons (Slot.within_unique.mpr ?_)
    simp [ho, Heap.measure]
  | copyIn _ hc =>
    obtain ⟨rfl, hb, serial, ho, -⟩ := Heap.construct_eq hc
    refine (hs.next he fun _ => .of_eq hb).cons (Slot.within_unique.mpr ?_)
    simp [ho]
  | release => exact hs.tail.cons (Slot.within_raw.mpr (Slot.within_unique.mp hs.head))
  | adopt => exact hs.tail.cons (Slot.within_unique.mpr (Slot.within_raw.mp hs.head))
  | promote hc =>
    have hu := Slot.within_unique.mp hs.head
    obtain ⟨rfl, ho, n, -, hb, -⟩ := Heap.createBlock_ok hc
    constructor
    · intro k hk
      rcases Multiset.mem_cons.mp hk with rfl | hk
      · refine Slot.within_of_block ?_ (Nat.lt_of_lt_of_le hu he.objects)
        simp [hb]
      · exact (hs.tail.stakes k hk).mono he
    · intro o hm
      refine Nat.lt_of_lt_of_le ?_ he.objects
      rcases hm.of_push hb with hm | ho
      · exact hs.pointees o hm
      · cases ho
        exact hu
  | refuseBlock _ hc =>
    obtain ⟨-, -, hb, -⟩ := Heap.createBlock_error hc
    exact hs.next he fun _ => .of_eq hb
  | write => exact hs.next he fun _ => .of_eq (by simp)
  | setBudget | resetMetrics | remark => exact hs.next he fun _ => id

/-- An object whose destructor starts was the pointee of a block or owned by a pointer. -/
theorem Loss.scoped {k : Stake} {t : Scene} (hl : Loss h K k t) (hs : Scoped (h, k ::ₘ K)) :
    Scoped t := by
  have he := hl.extends
  cases hl with
  | free | leak => exact hs.tail
  | release => exact hs.tail.next he fun _ => .of_releaseStrong
  | @dispose p b o hb last ho =>
    rw [Heap.takePointee_snd] at ho
    obtain ⟨x, hx, ho⟩ := Option.bind_eq_some_iff.mp ho
    have hm : h.Manages o := .of_releaseStrong ⟨b, x, hx, ho⟩
    refine ((hs.tail.next he fun _ hn => ?_).cons ?_).cons ?_
    · exact .of_releaseStrong (.of_takePointee (hn.of_eq Heap.blocks_beginDestruction))
    · exact Nat.lt_of_lt_of_le (hs.head.block b hb) he.blocks
    · exact Nat.lt_of_lt_of_le (hs.pointees o hm) he.objects
  | @disposeNothing p b hb last ho =>
    refine (hs.tail.next he fun _ hn => .of_releaseStrong hn.of_takePointee).cons ?_
    exact Nat.lt_of_lt_of_le (hs.head.block b hb) he.blocks
  | unobserve => exact hs.tail.next he fun _ => .of_modify Heap.blocks_releaseWeak fun _ => .inl rfl
  | @destroy u o ho =>
    refine (hs.tail.next he fun _ => .of_eq (by simp)).cons ?_
    refine Nat.lt_of_lt_of_le (hs.head.view (.whole o) ?_ o rfl) he.objects
    simp [Slot.view?, Unique.view, ho]
  | reclaim => exact hs.tail.next he fun _ => .of_eq (by simp)
  | giveUp => exact hs.tail.next he fun _ => .of_modify Heap.blocks_giveUpImplicit fun _ => .inl rfl

theorem Shift.extends {s t : Scene} (hc : Shift Y s t) : t.1.Extends s.1 := by
  cases hc with
  | change hc => exact hc.extends
  | relink => constructor <;> simp [Heap.withLinks, Heap.updateObject]

theorem Shift.scoped {s t : Scene} (hc : Shift Y s t) (hs : Scoped s) : Scoped t := by
  have he := hc.extends
  cases hc with
  | change hc => exact hc.scoped hs
  | relink => exact hs.next he fun _ => .of_eq rfl

theorem Shifts.scoped {s t : Scene} (hc : Shifts Y s t) (hs : Scoped s) : Scoped t := by
  induction hc with
  | refl => exact hs
  | tail _ hc ih => exact hc.scoped ih

end Scenes

end Custody
