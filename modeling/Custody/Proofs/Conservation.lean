import Custody.Proofs.Allotment

/-!
# Memory is conserved

* `Tenant`, `Machine.Occupies`: the objects and blocks that allocations are for, and what keeps
  each of them in its memory at a moment of a run.
* `Machine.History`: the calls that are made of an allocator in a run, in accord with what its
  books say, with what is returned and with what is occupied.
* `Machine.Conserved`, `Machine.IsRationed.conserved`: both allocators have such a history,
  whatever they refuse.
-/

namespace Custody

/-- What an allocation is for. -/
inductive Tenant
  | object (o : ObjectId)
  | block (b : BlockId)
  deriving DecidableEq, Repr

/-! ## Claims and tenants -/

/-- The allocation of `a` that the tenant is in. -/
def Tenant.claim? (h : Heap) (a : Alloc) : Tenant → Option (Nat × Layout)
  | object o => h.objects[o]?.bind (·.claim? true a)
  | block b => h.blocks[b]?.bind (·.claim? true a)

/-- An object that is not gone is in its allocation. -/
theorem Tenant.claim?_object {h : Heap} {o : ObjectId} {x : Object} {n : Nat}
    (hx : h.objects[o]? = some x) (hp : x.phase ≠ .gone) (hn : x.serial = some n) :
    (object o).claim? h x.alloc = some (n, x.content.layout) := by
  simp [claim?, hx, Object.claim?, hp, hn]

/-- So is a block that is not freed. -/
theorem Tenant.claim?_block {h : Heap} {b : BlockId} {x : Block} (hx : h.blocks[b]? = some x)
    (hf : x.freed = false) :
    (block b).claim? h x.alloc = some (x.serial, .block x.kind.isSized) := by
  simp [claim?, hx, Block.claim?, hf]

theorem mem_filterMap_iff {α β : Type} {f : α → Option β} {xs : Array α} {y : β} :
    y ∈ xs.toList.filterMap f ↔ ∃ i : Nat, xs[i]?.bind f = some y := by
  rw [List.mem_filterMap]
  simp only [Option.bind_eq_some_iff]
  constructor
  · rintro ⟨x, hx, hxy⟩
    obtain ⟨i, hi⟩ := List.mem_iff_getElem?.mp hx
    exact ⟨i, x, by simpa using hi, hxy⟩
  · rintro ⟨i, x, hi, hxy⟩
    exact ⟨x, List.mem_iff_getElem?.mpr ⟨i, by simpa using hi⟩, hxy⟩

/-- What occurs once among the values comes from one place. -/
theorem index_eq_of_nodup {α β : Type} {f : α → Option β} {xs : Array α} {y : β} {i j : Nat}
    (hxs : (xs.toList.filterMap f).Nodup) (hi : xs[i]?.bind f = some y)
    (hj : xs[j]?.bind f = some y) : i = j := by
  have hpair := List.pairwise_filterMap.mp hxs
  have hnot {i j : Nat} (hi : xs[i]?.bind f = some y) (hj : xs[j]?.bind f = some y) :
      ¬ i < j := by
    intro hlt
    obtain ⟨x, hx, hxy⟩ := Option.bind_eq_some_iff.mp hi
    obtain ⟨x', hx', hxy'⟩ := Option.bind_eq_some_iff.mp hj
    obtain ⟨hilt, rfl⟩ := Array.getElem?_eq_some_iff.mp hx
    obtain ⟨hjlt, rfl⟩ := Array.getElem?_eq_some_iff.mp hx'
    exact List.pairwise_iff_getElem.mp hpair i j (by simpa) (by simpa) hlt y (by simpa) y (by simpa)
      rfl
  exact Nat.le_antisymm (Nat.le_of_not_lt (hnot hj hi)) (Nat.le_of_not_lt (hnot hi hj))

theorem Heap.mem_claims_iff {h : Heap} {a : Alloc} {e : Nat × Layout} :
    e ∈ h.claims true a ↔ ∃ t : Tenant, t.claim? h a = some e := by
  rw [claims, Multiset.mem_add, Multiset.mem_coe, Multiset.mem_coe, mem_filterMap_iff,
    mem_filterMap_iff]
  constructor
  · rintro (⟨o, ho⟩ | ⟨b, hb⟩)
    · exact ⟨.object o, ho⟩
    · exact ⟨.block b, hb⟩
  · rintro ⟨o | b, ht⟩
    · exact .inl ⟨o, ht⟩
    · exact .inr ⟨b, ht⟩

theorem Booked.mem_entries {h : Heap} {a : Alloc} {e : Nat × Layout} {t : Tenant} (hs : Booked h)
    (ht : t.claim? h a = some e) : e ∈ (h.ledger a).entries true :=
  hs true a ▸ Heap.mem_claims_iff.mpr ⟨t, ht⟩

/-- No two tenants are in one allocation. -/
theorem Booked.claim?_injective {h : Heap} {a : Alloc} {e : Nat × Layout} {t t' : Tenant}
    (hs : Booked h) (ht : t.claim? h a = some e) (ht' : t'.claim? h a = some e) : t = t' := by
  have hnodup : (h.claims true a).Nodup := hs true a ▸ Ledger.nodup_entries _ _
  obtain ⟨hobjects, hblocks, hdisjoint⟩ := Multiset.nodup_add.mp hnodup
  have hapart {o : ObjectId} {b : BlockId} (ho : (Tenant.object o).claim? h a = some e)
      (hb : (Tenant.block b).claim? h a = some e) : False :=
    Multiset.disjoint_left.mp hdisjoint (Multiset.mem_coe.mpr (mem_filterMap_iff.mpr ⟨o, ho⟩))
      (Multiset.mem_coe.mpr (mem_filterMap_iff.mpr ⟨b, hb⟩))
  cases t <;> cases t'
  · exact congrArg _ (index_eq_of_nodup (Multiset.coe_nodup.mp hobjects) ht ht')
  · exact (hapart ht ht').elim
  · exact (hapart ht' ht).elim
  · exact congrArg _ (index_eq_of_nodup (Multiset.coe_nodup.mp hblocks) ht ht')

/-- An allocation has one layout, and so one tenant. -/
theorem Booked.tenant_eq {h : Heap} {a : Alloc} {n : Nat} {l l' : Layout} {t t' : Tenant}
    (hs : Booked h) (ht : t.claim? h a = some (n, l)) (ht' : t'.claim? h a = some (n, l')) :
    t = t' := by
  have hl := (Ledger.mem_entries.mp (hs.mem_entries ht)).2
  have hl' := (Ledger.mem_entries.mp (hs.mem_entries ht')).2
  cases hl.symm.trans hl'
  exact hs.claim?_injective ht ht'

namespace Machine

section

variable {run : Nat → Machine} {n : Nat} {a : Alloc} {t : Tenant} {e : Nat × Layout}

/-- The tenant is in an allocation of `a`, for one of five reasons: a unique pointer owns the object,
it has been given out as a raw one, a block owns it, its destructor has started, or it is a block
that has not been freed. -/
inductive Occupies (run : Nat → Machine) (n : Nat) (a : Alloc) : Tenant → Nat × Layout → Prop
  | unique {o x serial k} (hx : (run n).heap.objects[o]? = some x) (hs : x.serial = some serial)
      (hu : .unique ⟨k, a, some o⟩ ∈ (run n).pointers) :
      Occupies run n a (.object o) (serial, x.content.layout)
  | givenOut {o x serial} (hx : (run n).heap.objects[o]? = some x) (hs : x.serial = some serial)
      (ha : x.alloc = a) (ho : Stands run n o .givenOut) :
      Occupies run n a (.object o) (serial, x.content.layout)
  | managed {o x serial} {b : BlockId} {y : Block} (hx : (run n).heap.objects[o]? = some x)
      (hs : x.serial = some serial) (hy : (run n).heap.blocks[b]? = some y)
      (ho : y.pointee = some o) (ha : y.alloc = a) :
      Occupies run n a (.object o) (serial, x.content.layout)
  | dying {o x serial} (hx : (run n).heap.objects[o]? = some x) (hs : x.serial = some serial)
      (ha : x.alloc = a) (hd : .reclaim o ∈ (run n).env.agenda) :
      Occupies run n a (.object o) (serial, x.content.layout)
  | block {b : BlockId} {y : Block} (hy : (run n).heap.blocks[b]? = some y)
      (hf : y.freed = false) (ha : y.alloc = a) :
      Occupies run n a (.block b) (y.serial, .block y.kind.isSized)

theorem IsRationed.allotted (hr : IsRationed run) (n : Nat) : Allotted (run n).scene :=
  (hr.reachable n).scene_induction ⟨nofun, nofun⟩ (fun _ hs => ⟨hs.pointers, hs.blocks⟩)
    (fun _ hs hl => hl.allotted hs) fun _ hs hc => hc.allotted hs

/-- What occupies an allocation is what claims it. -/
theorem IsRationed.claim?_of_occupies (hr : IsRationed run) (h : Occupies run n a t e) :
    t.claim? (run n).heap a = some e := by
  have hs := hr.sound n
  have hallotted := hr.allotted n
  have hclaim {o : ObjectId} {x : Object} {serial : Nat}
      (hx : (run n).heap.objects[o]? = some x) (hserial : x.serial = some serial)
      (ha : x.alloc = a) (hp : x.phase ≠ .gone) :
      (Tenant.object o).claim? (run n).heap a = some (serial, x.content.layout) :=
    ha ▸ Tenant.claim?_object hx hp hserial
  have halloc {o : ObjectId} {x : Object} (hx : (run n).heap.objects[o]? = some x)
      (ha : (run n).heap.allocOf? o = some a) : x.alloc = a := by
    simpa [Heap.allocOf?, hx] using ha
  have halive {o : ObjectId} {x : Object} (hx : (run n).heap.objects[o]? = some x)
      (hp : (run n).heap.phase? o = some .alive) : x.phase ≠ .gone := by
    have : x.phase = .alive := by simpa [Heap.phase?, hx] using hp
    simp [this]
  have howned {o : ObjectId} (ho : 0 < Scene.owners (run n).scene o) :
      (run n).heap.phase? o = some .alive := hs.owned.alive hs.scope ho
  cases h with
  | @unique o x serial k hx hserial hu =>
    have hmem := pointer_mem_stakes_iff.mpr hu
    refine hclaim hx hserial (halloc hx (hallotted.pointers _ o a hmem rfl)) (halive hx (howned ?_))
    have := tally_pos (f := Stake.owns?) (n := o) hmem rfl
    simp only [Scene.owners, scene]
    omega
  | givenOut hx hserial ha ho => exact hclaim hx hserial ha (halive hx (hr.alive_of_givenOut ho))
  | @managed o x serial b y hx hserial hy ho ha =>
    refine hclaim hx hserial (halloc hx (ha ▸ hallotted.blocks b y o hy ho)) (halive hx (howned ?_))
    have := Heap.managers_pos ⟨b, y, hy, ho⟩
    simp only [Scene.owners, scene]
    omega
  | @dying o x serial hx hserial ha hd =>
    have hp : (run n).heap.phase? o = some .dying :=
      hs.owned.dying hs.scope (tally_pos (destruction_mem_stakes_iff.mpr hd) rfl)
    have : x.phase = .dying := by simpa [Heap.phase?, hx] using hp
    exact hclaim hx hserial ha (by simp [this])
  | block hy hf ha => exact ha ▸ Tenant.claim?_block hy hf

/-- What claims an allocation occupies it, in one of the ways there are. -/
theorem IsRationed.occupies_of_claim? (hr : IsRationed run)
    (h : t.claim? (run n).heap a = some e) : Occupies run n a t e := by
  have hs := hr.sound n
  have hallotted := hr.allotted n
  cases t with
  | block b =>
    obtain ⟨y, hy, hclaim⟩ := Option.bind_eq_some_iff.mp h
    obtain ⟨⟨hf, ha⟩, he⟩ := Option.ite_none_right_eq_some.mp hclaim
    cases he
    exact .block hy (by simpa using hf) ha
  | object o =>
    obtain ⟨x, hx, hclaim⟩ := Option.bind_eq_some_iff.mp h
    obtain ⟨⟨hp, ha⟩, he⟩ := Option.ite_none_right_eq_some.mp hclaim
    obtain ⟨serial, hserial, rfl⟩ := Option.map_eq_some_iff.mp he
    have hphase : (run n).heap.phase? o = some x.phase := by simp [Heap.phase?, hx]
    have hallows := hs.owned o x.phase hphase
    cases hq : x.phase with
    | gone => simp [hq] at hp
    | dying =>
      rw [hq] at hallows
      have hpos : 0 < tally Stake.destroys? (run n).stakes o := hallows.2 ▸ Nat.one_pos
      obtain ⟨k, hk, hd⟩ := Multiset.countP_pos.mp hpos
      cases k with
      | pointer | disposal => cases hd
      | destruction o' =>
        cases hd
        exact .dying hx hserial ha (destruction_mem_stakes_iff.mp hk)
    | alive =>
      rw [hq] at hallows hphase
      by_cases hzero : Scene.owners (run n).scene o = 0
      · exact .givenOut hx hserial ha (hr.givenOut hphase hzero)
      have hle := hallows.1
      rw [owners_scene] at hzero hle
      have hcases : 0 < (run n).uniques o ∨ 0 < (run n).heap.managers o ∨
          0 < (run n).raws o ∧ (run n).uniques o = 0 ∧ (run n).heap.managers o = 0 := by
        omega
      rcases hcases with h | h | ⟨hraw, hnone⟩
      · obtain ⟨y, hy, ho⟩ := List.countP_pos_iff.mp h
        cases y with
        | strong | weak | raw => simp at ho
        | unique u =>
          obtain ⟨k, a', o'⟩ := u
          obtain rfl : o' = some o := by simpa using ho
          have ha' := hallotted.pointers _ o a' (pointer_mem_stakes_iff.mpr hy) rfl
          obtain rfl : a' = a := by simpa [Heap.allocOf?, scene, hx, ha, eq_comm] using ha'
          exact .unique hx hserial hy
      · obtain ⟨y, hy, ho⟩ := List.countP_pos_iff.mp h
        obtain ⟨b, hb⟩ := List.mem_iff_getElem?.mp hy
        have hb : (run n).heap.blocks[b]? = some y := by simpa using hb
        have ho : y.pointee = some o := by simpa using ho
        have ha' := hallotted.blocks b y o hb ho
        exact .managed hx hserial hb ho (by simpa [Heap.allocOf?, scene, hx, ha, eq_comm] using ha')
      · refine .givenOut hx hserial ha ⟨n, Nat.le_refl n, hraw, fun j hj hj' => ?_⟩
        obtain rfl := Nat.le_antisymm hj' hj
        exact hnone

/-- What is out is what one tenant occupies. -/
theorem IsRationed.mem_entries_iff (hr : IsRationed run) :
    e ∈ ((run n).heap.ledger a).entries true ↔ ∃! t, Occupies run n a t e := by
  have hs := hr.sound n
  have hbooked : ((run n).heap.ledger a).entries true = (run n).heap.claims true a :=
    (hs.booked true a).symm
  rw [hbooked, Heap.mem_claims_iff]
  constructor
  · rintro ⟨t, ht⟩
    exact ⟨t, hr.occupies_of_claim? ht,
      fun t' ht' => hs.booked.claim?_injective (hr.claim?_of_occupies ht') ht⟩
  · rintro ⟨t, ht, -⟩
    exact ⟨t, hr.claim?_of_occupies ht⟩

theorem IsRationed.breaches (hr : IsRationed run) (n : Nat) : (run n).heap.breaches = [] :=
  (hr.reachable n).breaches

end

/-- The calls that have been made of the allocator in the first steps of a run. -/
structure History (run : Nat → Machine) (a : Alloc) (calls : Nat → List Call) : Prop where
  start : calls 0 = []
  /-- Each step adds calls; of these, the returns are that of what the action returns. -/
  next : ∀ n, ∃ cs, calls (n + 1) = calls n ++ cs ∧
    cs.filterMap Call.returned? = returnsTo a (run n).returns?
  /-- What is returned has been granted before, under the same serial and layout, and has not been
  returned since; and no call is about no memory. -/
  balanced : ∀ n, Balanced (calls n)
  entered : ∀ n, enterAll? #[] (calls n) = some ((run n).heap.ledger a).allocations
  /-- The log tells of the arena's calls, in order. -/
  told : a = .arena → ∀ n, (run n).heap.log.toList.filterMap Event.call? = calls n
  /-- What has been granted and not returned is what one object or block is in. -/
  out : ∀ n serial l, (.granted serial l ∈ calls n ∧ .returned serial l ∉ calls n) ↔
    ∃! t, Occupies run n a t (serial, l)

/-- The calls that the log tells of are such a history. -/
theorem IsRationed.exists_history {run : Nat → Machine} (hr : IsRationed run) (a : Alloc) :
    ∃ calls, History run a calls := by
  have haccounts (n : Nat) := (hr.entered n).accounts a
  refine ⟨fun n => (run n).heap.calls a, ?_, fun n => ?_, fun n => (haccounts n).balanced,
    fun n => hr.entered n a, fun ha n => ?_, fun n serial l => ?_⟩
  · rw [hr.heap_zero]
    rfl
  · obtain ⟨limits, hnext⟩ := hr.next n
    obtain ⟨cs, hcs, hasks⟩ :=
      ((hr.grounded n).ration limits).step_asks ((hr.sound n).ration limits) a
    exact ⟨cs, hnext ▸ hasks.told, hcs⟩
  · rw [Heap.calls, ha, Event.callTo?_arena]
  · rw [← (haccounts n).mem_entries]
    exact hr.mem_entries_iff

/-- What is in memory needs some. -/
theorem IsRationed.size_of_serial {run : Nat → Machine} {n serial : Nat} {o : ObjectId}
    {x : Object} (hr : IsRationed run) (hx : (run n).heap.objects[o]? = some x)
    (hs : x.serial = some serial) : x.content.layout.size ≠ 0 := by
  have haccounts := (hr.entered n).accounts x.alloc
  obtain ⟨hn, hentry⟩ := Ledger.mem_entries.mp ((hr.sound n).booked.object hx hs)
  exact haccounts.balanced.size_of_granted ((haccounts.granted _ _).mpr ⟨hn, _, hentry⟩)

/-- What is true of memory in a run. -/
structure Conserved (run : Nat → Machine) : Prop where
  history : ∀ a, ∃ calls, History run a calls
  /-- Nothing is asked for or returned but what the histories say. -/
  breaches : ∀ n, (run n).heap.breaches = []
  /-- An object is in the memory that it needs, unless that was refused when it was made: its
  destructor then started at once. -/
  housed : ∀ (n : Nat) (o : ObjectId) (x : Object), (run n).heap.objects[o]? = some x →
    x.content.layout.size ≠ 0 →
    x.serial = none → ∃ i < n, (run i).heap.objects[o]? = none ∧ (run (i + 1)).starts? = some o
  /-- What needs no memory is in none. -/
  empty : ∀ (n : Nat) (o : ObjectId) (x : Object), (run n).heap.objects[o]? = some x →
    x.content.layout.size = 0 → x.serial = none
  /-- Pointers name the allocator that their object is made with. -/
  allotted : ∀ n p o a, p ∈ (run n).pointers → p.holds? = some (o, a) →
    ∃ x, (run n).heap.objects[o]? = some x ∧ x.alloc = a

/-- Every allocation that is out is one object's or one block's, and is returned once. -/
theorem IsRationed.conserved {run : Nat → Machine} (hr : IsRationed run) : Conserved run where
  history := hr.exists_history
  breaches := hr.breaches
  housed n o x hx hl hs := hr.homeless hx hs hl
  empty n o x hx hl := by
    cases hs : x.serial with
    | none => rfl
    | some serial => exact absurd hl (hr.size_of_serial hx hs)
  allotted n p o a hp ho := by
    have h := (hr.allotted n).pointers p o a (pointer_mem_stakes_iff.mpr hp) ho
    exact Option.map_eq_some_iff.mp h

/-- An arena that grants one request: there is memory for the node, and none for its block. -/
def grudging : List Step :=
  [.budget (some 1), .new .node (.node ⟨1, 0, .ofString "", []⟩ []) .arena ⟨false, [], "a"⟩]

/-- When the block is refused, the node's memory is returned. -/
theorem conserved_grudging :
    (moment grudging false 7).returns? = some (.arena, 1, ⟨80, 8⟩) ∧
      Conserved (moment grudging false) :=
  ⟨by decide, IsRationed.conserved (isRationed_moment grudging false)⟩

end Machine

end Custody
