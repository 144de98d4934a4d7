import Custody.Proofs.Standing

/-!
# Where views lead

* `Viewed`: a view that a strong or weak pointer lends leads into the pointee of the block that
  the pointer is on, for as long as the block has it. Changes, losses and shifts keep it.
* `Machine.Reachable.alive_of_node?`: a path of names goes on through objects that are alive.
-/

namespace Custody

variable {Y : Option Place}

/-- A lent view into an object is one into the pointee of the pointer's block. -/
def Viewed (s : Scene) : Prop :=
  ∀ (x : Slot) (p : Place) (o : ObjectId), .pointer x ∈ s.2 → x.lends? = some p →
    p.origin = .object o → ∃ (b : BlockId) (y : Block),
      x.block? = some b ∧ s.1.blocks[b]? = some y ∧ ∀ o', y.pointee = some o' → o' = o

section

variable {h h' : Heap} {K : Multiset Stake} {k : Stake} {x y : Slot} {o : ObjectId}

theorem viewed_empty : Viewed (.empty, 0) := by
  intro x p o hx
  simp at hx

/-- Each view leads into its block's pointee if the blocks are later what they were. -/
theorem Viewed.next (hs : Viewed (h, K))
    (hb : ∀ (b : BlockId) (x : Block), h.blocks[b]? = some x →
      ∃ y, h'.blocks[b]? = some y ∧ x.Becomes y) : Viewed (h', K) := by
  intro x p o hx hp ho
  obtain ⟨b, y, hxb, hy, hyo⟩ := hs x p o hx hp ho
  obtain ⟨z, hz, hyz⟩ := hb b y hy
  refine ⟨b, z, hxb, hz, fun o' ho' => hyo o' ?_⟩
  rcases hyz.pointee with hsame | hnone
  · exact hsame ▸ ho'
  · rw [hnone] at ho'
    cases ho'

theorem Viewed.tail (hs : Viewed (h, k ::ₘ K)) : Viewed (h, K) :=
  fun x p o hx => hs x p o (Multiset.mem_cons_of_mem hx)

theorem Viewed.cons (hs : Viewed (h, K))
    (hx : ∀ p o, x.lends? = some p → p.origin = .object o → ∃ (b : BlockId) (y : Block),
      x.block? = some b ∧ h.blocks[b]? = some y ∧ ∀ o', y.pointee = some o' → o' = o) :
    Viewed (h, .pointer x ::ₘ K) := by
  intro y p o hy
  rcases Multiset.mem_cons.mp hy with hy | hy
  · cases hy
    exact hx p o
  · exact hs y p o hy

/-- What lends no view into an object is added freely. -/
theorem Viewed.cons_of_none (hs : Viewed (h, K)) (hx : x.lends? = none) :
    Viewed (h, .pointer x ::ₘ K) := by
  refine hs.cons fun p o hp => ?_
  rw [hx] at hp
  cases hp

/-- A pointer that is made from another one is on its block, with a view into its view. -/
theorem Viewed.beget (hs : Viewed (h, K)) (hx : .pointer x ∈ K) (hxy : x.Begets Y h' y) :
    Viewed (h, .pointer y ::ₘ K) := by
  refine hs.cons fun q o hq ho => ?_
  have hview := hxy.view
  rw [Slot.view?_of_lends? hq] at hview
  rw [hxy.block]
  generalize hu : x.lends? = u at hview
  cases hview with
  | static => cases ho
  | part hlabel hshows => exact hs x _ o hx hu ho

/-- After every change a view into an object is a view into its block's pointee. -/
theorem Change.viewed {s t : Scene} (hc : Change Y s t) (hcounted : Counted s) (hs : Viewed s) :
    Viewed t := by
  have hb : ∀ (b : BlockId) (x : Block), s.1.blocks[b]? = some x →
      ∃ y, t.1.blocks[b]? = some y ∧ x.Becomes y := by
    intro b x hx
    obtain ⟨y, hy, hxy⟩ := hc.gains hcounted hx
    exact ⟨y, hy, hxy.keeps.toBecomes⟩
  cases hc with
  | null hx hv =>
    refine hs.cons fun p o hp _ => ?_
    rw [Slot.view?_of_lends? hp] at hv
    cases hv
  | copy hx hy hxy => exact hs.beget hx hxy
  | forget hx => exact hs.tail
  | revise hy hz hzy => exact hs.tail.beget hz hzy
  | share hp hc hq => exact (hs.next hb).beget hp hq
  | observe hx hc hw => exact (hs.next hb).beget hx hw
  | lock hw hc alive hp => exact (hs.next hb).beget hw hp
  | construct | copyIn => exact (hs.next hb).cons_of_none rfl
  | release | adopt => exact hs.tail.cons_of_none rfl
  | @promote h K k a o h' b hc =>
    obtain ⟨rfl, -, n, -, hblocks, -⟩ := Heap.createBlock_ok hc
    refine (hs.tail.next hb).cons fun p o' hp ho' => ?_
    cases hp
    cases ho'
    refine ⟨_, _, rfl, by rw [hblocks, Array.getElem?_push_size], ?_⟩
    rintro o' ⟨⟩
    rfl
  | refuseLock | refuseBlock | write | setBudget | resetMetrics | remark => exact hs.next hb

/-- So it is after every loss. -/
theorem Loss.viewed {t : Scene} (hl : Loss h K k t) (hs : Viewed (h, k ::ₘ K)) : Viewed t := by
  have hb : ∀ (b : BlockId) (x : Block), h.blocks[b]? = some x →
      ∃ y, t.1.blocks[b]? = some y ∧ x.Becomes y := by
    intro b x hx
    obtain ⟨y, hy, hxy⟩ := hl.loses hx
    exact ⟨y, hy, hxy.becomes⟩
  have hdue {h : Heap} {K : Multiset Stake} {k : Stake} (hk : ∀ x, k ≠ .pointer x)
      (hs : Viewed (h, K)) : Viewed (h, k ::ₘ K) := by
    intro x p o hx
    rcases Multiset.mem_cons.mp hx with hx | hx
    · exact absurd hx.symm (hk x)
    · exact hs x p o hx
  cases hl with
  | free | leak | release | unobserve | reclaim | giveUp => exact hs.tail.next hb
  | dispose => exact hdue nofun (hdue nofun (hs.tail.next hb))
  | disposeNothing | destroy => exact hdue nofun (hs.tail.next hb)

theorem Shift.viewed {s t : Scene} (hc : Shift Y s t) (hcounted : Counted s) (hs : Viewed s) :
    Viewed t := by
  cases hc with
  | change hc => exact hc.viewed hcounted hs
  | relink => exact hs.next fun b x hx => ⟨x, hx, .refl x⟩

end

namespace Machine

variable {m : Machine} {x : Slot} {p : Place} {o : ObjectId}

theorem Reachable.viewed (hm : m.Reachable) : Viewed m.scene := by
  have h := hm.scene_induction (P := fun s => Counted s ∧ Viewed s) ⟨counted_empty, viewed_empty⟩
    (fun _ hs => hs) (fun _ hs hl => ⟨hl.counted hs.1, hl.viewed hs.2⟩)
    fun hscope hs hc => ⟨hc.counted hscope hs.1, hc.viewed hs.1 hs.2⟩
  exact h.2

/-- What the view of a strong pointer leads into is its block's pointee. -/
theorem Reachable.pointee_of_view {q : Strong} (hm : m.Reachable) (hq : .strong q ∈ m.pointers)
    (hp : q.view = some p) (ho : p.origin = .object o) :
    ∃ (b : BlockId) (y : Block),
      q.block = some b ∧ m.heap.blocks[b]? = some y ∧ y.pointee = some o := by
  have hmem := pointer_mem_stakes_iff.mpr hq
  obtain ⟨b, y, hb, hy, hyo⟩ := hm.viewed _ p o hmem hp ho
  have hb : q.block = some b := hb
  refine ⟨b, y, hb, hy, ?_⟩
  have hpos : 0 < tally Stake.strongOn? m.stakes b := tally_pos hmem hb
  rw [tally_strongOn?] at hpos
  obtain ⟨o', ho'⟩ := Option.isSome_iff_exists.mp ((hm.pointee_iff hy).mpr (Nat.ne_of_gt hpos))
  rw [ho', hyo o' ho']

/-- What the view of a strong pointer leads into is alive. -/
theorem Reachable.alive_of_view {q : Strong} (hm : m.Reachable) (hq : .strong q ∈ m.pointers)
    (hp : q.view = some p) (ho : p.origin = .object o) : m.heap.phase? o = some .alive := by
  obtain ⟨b, y, -, hy, hyo⟩ := hm.pointee_of_view hq hp ho
  exact hm.managed_alive hy hyo

/-- So is what a unique pointer owns. -/
theorem Reachable.alive_of_owns (hm : m.Reachable) (hx : x ∈ m.pointers)
    (ho : x.owns? = some o) : m.heap.phase? o = some .alive := by
  have hpos := tally_pos (f := Stake.owns?) (pointer_mem_stakes_iff.mpr hx) ho
  rw [tally_owns?] at hpos
  refine hm.alive_of_owners ?_
  rw [owners_scene]
  omega

/-- A path of names goes on through objects that are alive. -/
theorem Reachable.alive_of_node? (hm : m.Reachable) (hx : x ∈ m.pointers)
    (ho : x.node? = some o) : m.heap.phase? o = some .alive := by
  unfold Slot.node? at ho
  split at ho
  · next b p =>
    obtain ⟨_ | s, _ | ⟨f, path⟩⟩ := p <;> cases ho
    exact hm.alive_of_view hx rfl rfl
  · next a o' => exact hm.alive_of_owns hx ho
  · cases ho

end Machine

end Custody
