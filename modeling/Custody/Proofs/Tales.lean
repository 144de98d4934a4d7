import Custody.Proofs.Metering
import Mathlib.Computability.RegularExpressions

/-!
# What is told of a block

* `Event.block?`: the id that an event carries. `Heap.tale`: the events of one id, in order.
* `lifecycle`: the language of the tales. `Block.Tale`: the tale of a block in its present state.
* `Heap.Chronicle`: the log tells of the blocks that there are, and of nothing else. Changes and
  losses keep it, as long as the ids have not begun again.
-/

namespace Custody

namespace Event

/-- The id of the block that the event is of. -/
def block? : Event → Option Nat
  | blockCreated id _ | pointeeDisposed id | blockFreed id | lock id | lockExpired id => some id
  | _ => none

/-- The id of the block that is created. -/
def created? : Event → Option Nat
  | blockCreated id _ => some id
  | _ => none

theorem created?_of_block? {e : Event} (he : e.block? = none) : e.created? = none := by
  cases e <;> first | rfl | cases he

end Event

/-! ## The language of the tales -/

section Lifecycle

open RegularExpression

/-- A block is created, its pointee is disposed of, and it is freed. Before the disposal it is
locked, and after it attempts to lock it fail. -/
def lifecycle : RegularExpression Counter :=
  char .allocated * star (char .locked) * char .disposed * star (char .expired) * char .freed

/-- What is told of a block in its present state. -/
inductive Block.Tale (x : Block) : List Counter → Prop
  | owned (k : Nat) (hs : x.strong ≠ 0) : Tale x (.allocated :: .replicate k .locked)
  | disposed (k j : Nat) (hs : x.strong = 0) (hf : x.freed = false) :
      Tale x (.allocated :: .replicate k .locked ++ .disposed :: .replicate j .expired)
  | freed (k j : Nat) (hs : x.strong = 0) (hf : x.freed = true) :
      Tale x (.allocated :: .replicate k .locked ++ .disposed :: .replicate j .expired ++ [.freed])

theorem replicate_mem_star (k : Nat) (c : Counter) :
    List.replicate k c ∈ (star (char c)).matches' := by
  rw [matches'_star, Language.mem_kstar]
  refine ⟨.replicate k [c], by simp, fun y hy => ?_⟩
  rw [List.eq_of_mem_replicate hy, matches'_char]
  rfl

/-- A whole life. -/
theorem life_mem_lifecycle (k j : Nat) :
    .allocated :: .replicate k .locked ++ .disposed :: .replicate j .expired ++ [.freed] ∈
      lifecycle.matches' := by
  have hlocked := replicate_mem_star k .locked
  have hexpired := replicate_mem_star j .expired
  simp only [lifecycle, matches'_mul, matches'_char, Language.mem_mul]
  refine ⟨_, ⟨_, ⟨_, ⟨_, rfl, _, hlocked, rfl⟩, _, rfl, rfl⟩, _, hexpired, rfl⟩, _, rfl, ?_⟩
  simp

/-- What is told is how a life begins. -/
theorem Block.Tale.prefix_lifecycle {x : Block} {w : List Counter} (hw : x.Tale w) :
    ∃ v ∈ lifecycle.matches', w <+: v := by
  cases hw with
  | owned k =>
    refine ⟨_, life_mem_lifecycle k 0, ?_⟩
    rw [List.append_assoc]
    exact List.prefix_append _ _
  | disposed k j => exact ⟨_, life_mem_lifecycle k j, List.prefix_append _ _⟩
  | freed k j => exact ⟨_, life_mem_lifecycle k j, List.prefix_refl _⟩

end Lifecycle

namespace Block.Tale

variable {x y : Block} {w : List Counter}

/-- The tale depends on the strong counter being zero and on the block being freed. -/
theorem congr (hw : x.Tale w) (hs : y.strong = 0 ↔ x.strong = 0) (hf : y.freed = x.freed) :
    y.Tale w := by
  cases hw with
  | owned k h => exact .owned k (mt hs.mp h)
  | disposed k j h h' => exact .disposed k j (hs.mpr h) (hf.trans h')
  | freed k j h h' => exact .freed k j (hs.mpr h) (hf.trans h')

theorem lock (hw : x.Tale w) (alive : x.strong ≠ 0) (hs : y.strong ≠ 0) :
    y.Tale (w ++ [.locked]) := by
  cases hw with
  | owned k =>
    rw [List.cons_append, ← List.replicate_succ']
    exact .owned (k + 1) hs
  | disposed k j h | freed k j h => exact absurd h alive

theorem dispose (hw : x.Tale w) (alive : x.strong ≠ 0) (hs : y.strong = 0)
    (hf : y.freed = false) : y.Tale (w ++ [.disposed]) := by
  cases hw with
  | owned k => exact .disposed k 0 hs hf
  | disposed k j h | freed k j h => exact absurd h alive

theorem lockExpired (hw : x.Tale w) (dead : x.strong = 0) (hf : x.freed = false) :
    x.Tale (w ++ [.expired]) := by
  cases hw with
  | owned k h => exact absurd dead h
  | disposed k j =>
    have hmore := Tale.disposed k (j + 1) dead hf
    rwa [List.replicate_succ', ← List.cons_append, ← List.append_assoc] at hmore
  | freed k j _ h =>
    rw [hf] at h
    cases h

theorem free (hw : x.Tale w) (dead : x.strong = 0) (hf : x.freed = false) (hs : y.strong = 0)
    (hy : y.freed = true) : y.Tale (w ++ [.freed]) := by
  cases hw with
  | owned k h => exact absurd dead h
  | disposed k j => exact .freed k j hs hy
  | freed k j _ h =>
    rw [hf] at h
    cases h

end Block.Tale

/-! ## The log and the blocks -/

namespace Heap

variable {h h' : Heap} {b c : BlockId} {x y : Block} {es : List Event} {id : Nat}

/-! ### Ids -/

@[simp] theorem nextId_expect (b : BlockId) (ok : Block → Bool) (e : Breach) :
    (h.expect b ok e).nextId = h.nextId := by
  rw [expect_eq]

@[simp] theorem nextId_request (a : Alloc) (l : Layout) : (h.request a l).1.nextId = h.nextId := by
  unfold request
  by_cases hl : l.size = 0 <;> simp only [hl, ↓reduceIte] <;> cases a <;> split <;> rfl

theorem nextId_construct {p : Pointee} {a : Alloc} {o : ObjectId} {r : Option Layout}
    (hc : h.construct p a = (h', o, r)) : h'.nextId = h.nextId := by
  simp only [construct] at hc
  split at hc <;> cases hc
  · rfl
  · exact nextId_request a _

/-- What is refused is counted too. -/
theorem nextId_createBlock (k : Kind) (a : Alloc) (o : ObjectId) :
    (h.createBlock k a o).1.nextId = h.nextId + 1 := by
  have hrequest := nextId_request (h := { h with nextId := h.nextId + 1 }) a (.block k.isSized)
  simp only [createBlock]
  split <;> exact hrequest

theorem nextId_giveBack (a : Alloc) (n : Nat) (l : Layout) :
    (h.giveBack a n l).nextId = h.nextId := by
  unfold giveBack
  cases a <;> dsimp only <;> split <;> rfl

theorem nextId_write (p : Place) (c : Content) : (h.write p c).nextId = h.nextId := by
  unfold write
  split <;> rfl

theorem nextId_beginDestruction (o : ObjectId) : (h.beginDestruction o).1.nextId = h.nextId := by
  unfold beginDestruction
  split
  · dsimp only
    split <;> rfl
  · rfl

theorem nextId_endDestruction (o : ObjectId) : (h.endDestruction o).nextId = h.nextId := by
  unfold endDestruction
  split
  · dsimp only
    split
    · exact nextId_giveBack _ _ _
    · rfl
  · rfl

theorem nextId_addStrongIfAlive (b : BlockId) : (h.addStrongIfAlive b).nextId = h.nextId := by
  unfold addStrongIfAlive recordExpiredLock
  split <;> exact nextId_expect b _ _

end Heap

/-- The return of the memory. -/
def Object.returned (x : Object) : List Event :=
  x.storage?.toList.map fun (a, n, l) => .dealloc a n l

namespace Heap

variable {h h' : Heap} {b c : BlockId} {x y : Block} {es : List Event} {id : Nat}

theorem log_endDestruction {o : ObjectId} {x : Object} (hx : h.objects[o]? = some x) :
    (h.endDestruction o).log.toList = h.log.toList ++ x.returned := by
  rw [endDestruction_eq hx, Object.returned, Object.storage?]
  cases hn : x.serial with
  | none => simp [updateObject]
  | some n => simp [log_giveBack, updateObject]

/-! ### Tales -/

/-- What the events of one id tell. -/
def tale (h : Heap) (id : Nat) : List Counter :=
  (h.log.toList.filter (·.block? = some id)).filterMap Event.counter?

theorem tale_append (hl : h'.log.toList = h.log.toList ++ es) (id : Nat) :
    h'.tale id = h.tale id ++ (es.filter (·.block? = some id)).filterMap Event.counter? := by
  rw [tale, hl, List.filter_append, List.filterMap_append, tale]

/-- The events are of other blocks, or of none. -/
theorem tale_of_ne (hl : h'.log.toList = h.log.toList ++ es)
    (hes : ∀ e ∈ es, e.block? ≠ some id) : h'.tale id = h.tale id := by
  rw [tale_append hl, List.filter_eq_nil_iff.mpr fun e he => by simpa using hes e he,
    List.filterMap_nil, List.append_nil]

/-- The log tells of the blocks that there are, in the order of their ids, and of nothing else. -/
structure Chronicle (h : Heap) : Prop where
  created : h.log.toList.filterMap Event.created? = h.blocks.toList.map (·.id)
  rising : (h.blocks.toList.map (·.id)).Pairwise (· < ·)
  bounded : ∀ x ∈ h.blocks.toList, x.id < h.nextId
  known : ∀ e ∈ h.log.toList, ∀ id, e.block? = some id → ∃ x ∈ h.blocks.toList, x.id = id
  tales : ∀ x ∈ h.blocks.toList, x.Tale (h.tale x.id)

theorem Chronicle.empty : Heap.empty.Chronicle := ⟨rfl, .nil, nofun, nofun, nofun⟩

/-- The blocks stay as they are, and nothing is said of them. -/
theorem Chronicle.of_blocks (hs : h.Chronicle) (hb : h'.blocks = h.blocks)
    (hn : h.nextId ≤ h'.nextId) (hl : h'.log.toList = h.log.toList ++ es)
    (hes : ∀ e ∈ es, e.block? = none) : h'.Chronicle where
  created := by
    rw [hl, List.filterMap_append, hs.created, hb,
      List.filterMap_eq_nil_iff.mpr fun e he => Event.created?_of_block? (hes e he),
      List.append_nil]
  rising := hb ▸ hs.rising
  bounded x hx := Nat.lt_of_lt_of_le (hs.bounded x (hb ▸ hx)) hn
  known e he id hid := by
    rw [hb]
    rcases List.mem_append.mp (hl ▸ he) with he | he
    · exact hs.known e he id hid
    · rw [hes e he] at hid
      cases hid
  tales x hx := by
    rw [tale_of_ne hl fun e he => by simp [hes e he]]
    exact hs.tales x (hb ▸ hx)

/-- One block changes, and its tale goes on. -/
theorem Chronicle.modify {f : Block → Block} (hs : h.Chronicle) (hx : h.blocks[b]? = some x)
    (hb : h'.blocks = h.blocks.modify b f) (hid : (f x).id = x.id) (hn : h'.nextId = h.nextId)
    (hl : h'.log.toList = h.log.toList ++ es)
    (hes : ∀ e ∈ es, e.created? = none ∧ (e.block? = none ∨ e.block? = some x.id))
    (htale : ∀ w, x.Tale w →
      (f x).Tale (w ++ (es.filter (·.block? = some x.id)).filterMap Event.counter?)) :
    h'.Chronicle := by
  obtain ⟨l, r, hold, hnew, -⟩ := Array.toList_modify_split f hx
  rw [← hb] at hnew
  have hids : h'.blocks.toList.map (·.id) = h.blocks.toList.map (·.id) := by
    simp [hold, hnew, hid]
  have hmem : x ∈ h.blocks.toList := by simp [hold]
  have hother {y : Block} (hy : y ∈ l ∨ y ∈ r) : y ∈ h.blocks.toList ∧ y.id ≠ x.id := by
    have hrising := hs.rising
    rw [hold, List.map_append, List.map_cons, List.pairwise_append, List.pairwise_cons] at hrising
    obtain ⟨-, ⟨hafter, -⟩, hbefore⟩ := hrising
    rcases hy with hy | hy
    · exact ⟨by simp [hold, hy],
        Nat.ne_of_lt (hbefore _ (List.mem_map_of_mem hy) _ List.mem_cons_self)⟩
    · exact ⟨by simp [hold, hy], Nat.ne_of_gt (hafter _ (List.mem_map_of_mem hy))⟩
  have hcases {y : Block} (hy : y ∈ h'.blocks.toList) : y = f x ∨ y ∈ l ∨ y ∈ r := by
    rw [hnew, List.mem_append, List.mem_cons, or_left_comm] at hy
    exact hy
  refine ⟨?_, hids ▸ hs.rising, fun y hy => ?_, fun e he id hi => ?_, fun y hy => ?_⟩
  · rw [hl, List.filterMap_append, hs.created, hids,
      List.filterMap_eq_nil_iff.mpr fun e he => (hes e he).1, List.append_nil]
  · rw [hn]
    rcases hcases hy with rfl | hy
    · exact hid ▸ hs.bounded x hmem
    · exact hs.bounded y (hother hy).1
  · have hold : id ∈ h.blocks.toList.map (·.id) := by
      rcases List.mem_append.mp (hl ▸ he) with he | he
      · exact List.mem_map.mpr (hs.known e he id hi)
      · rcases (hes e he).2 with hnone | hsome
        · rw [hnone] at hi
          cases hi
        · rw [hsome] at hi
          cases hi
          exact List.mem_map_of_mem hmem
    exact List.mem_map.mp (hids ▸ hold)
  · rcases hcases hy with rfl | hy
    · rw [hid, tale_append hl]
      exact htale _ (hs.tales x hmem)
    · obtain ⟨hy, hne⟩ := hother hy
      rw [tale_of_ne hl fun e he => ?_]
      · exact hs.tales y hy
      · rcases (hes e he).2 with hnone | hsome
        · simp [hnone]
        · simpa [hsome] using hne.symm

/-- A block is created, under an id that has not been used. -/
theorem Chronicle.createBlock {k : Kind} {a : Alloc} {o : ObjectId} (hs : h.Chronicle)
    (hn : h.nextId < UInt64.size) (hc : h.createBlock k a o = (h', .ok b)) : h'.Chronicle := by
  obtain ⟨serial, hblocks, hlogs⟩ := logs_createBlock_ok hc
  have hl := hlogs.log
  have hid : h.newId = h.nextId := Nat.mod_eq_of_lt hn
  have hnext : h'.nextId = h.nextId + 1 := by
    rw [← nextId_createBlock k a o, hc]
  rw [hid] at hl hblocks
  have hmem {x : Block} (hx : x ∈ h'.blocks.toList) : x ∈ h.blocks.toList ∨
      x = { id := h.nextId, kind := k, alloc := a, serial := serial, pointee := some o } := by
    simpa [hblocks] using hx
  have hused : ∀ e ∈ h.log.toList, e.block? ≠ some h.nextId := by
    intro e he hi
    obtain ⟨x, hx, hxid⟩ := hs.known e he _ hi
    exact Nat.ne_of_lt (hs.bounded x hx) hxid
  refine ⟨?_, ?_, fun x hx => ?_, fun e he id hi => ?_, fun x hx => ?_⟩
  · rw [hl, List.filterMap_append, hs.created, hblocks, Array.toList_push, List.map_append]
    rfl
  · rw [hblocks, Array.toList_push, List.map_append, List.pairwise_append]
    refine ⟨hs.rising, by simp, fun i hi j hj => ?_⟩
    obtain ⟨x, hx, rfl⟩ := List.mem_map.mp hi
    obtain rfl : j = h.nextId := by simpa using hj
    exact hs.bounded x hx
  · rw [hnext]
    rcases hmem hx with hx | rfl
    · exact Nat.lt_succ_of_lt (hs.bounded x hx)
    · exact Nat.lt_succ_self _
  · simp only [hl, List.mem_append, List.mem_pair] at he
    rcases he with he | rfl | rfl
    · obtain ⟨x, hx, hxid⟩ := hs.known e he id hi
      exact ⟨x, by simp [hblocks, hx], hxid⟩
    · cases hi
    · cases hi
      exact ⟨_, by rw [hblocks, Array.toList_push]; exact List.mem_concat_self, rfl⟩
  · rcases hmem hx with hx | rfl
    · have hne := Nat.ne_of_lt (hs.bounded x hx)
      rw [tale_of_ne hl]
      · exact hs.tales x hx
      · simp [Event.block?, hne.symm]
    · have hnone : h.tale h.nextId = [] := by
        rw [tale, List.filter_eq_nil_iff.mpr fun e he => by simpa using hused e he]
        rfl
      have hnew : h'.tale h.nextId = [.allocated] := by
        rw [tale_append hl, hnone, List.filter_cons_of_neg (by simp [Event.block?]),
          List.filter_cons_of_pos (by simp [Event.block?])]
        rfl
      rw [hnew]
      exact .owned 0 (Nat.succ_ne_zero 0)

/-- With the last weak reference the block is freed, and that is said. -/
theorem Chronicle.releaseWeak (hs : h.Chronicle) (hx : h.blocks[b]? = some x)
    (hf : x.freed = false) (hw : 0 < x.weak) (hlast : x.weak = 1 → x.strong = 0) :
    (h.releaseWeak b).Chronicle := by
  by_cases last : x.weak = 1
  · rw [releaseWeak_last hx hf last (hlast last)]
    refine .of_blocks (h := { h with
      blocks := h.blocks.modify b fun x => { x with weak := x.weak - 1, freed := true }
      metrics := h.metrics.recordBlockFreed
      log := h.log.push (.blockFreed x.id) }) ?_ (blocks_giveBack _ _ _)
      (Nat.le_of_eq (nextId_giveBack _ _ _).symm) (log_giveBack _ _ _ _) (by simp [Event.block?])
    refine hs.modify (f := fun x => { x with weak := x.weak - 1, freed := true }) hx rfl rfl rfl
      Array.toList_push (by simp [Event.block?, Event.created?]) fun w hw => ?_
    rw [List.filter_cons_of_pos (by simp [Event.block?])]
    exact hw.free (hlast last) hf (hlast last) rfl
  · rw [releaseWeak_others hx hf hw last]
    refine hs.modify (f := fun x => { x with weak := x.weak - 1 }) hx rfl rfl rfl
      (List.append_nil _).symm nofun fun w hw => ?_
    rw [List.filter_nil, List.filterMap_nil, List.append_nil]
    exact hw.congr .rfl rfl

end Heap

/-! ## Changes and losses -/

section

variable {Y : Option Place} {h : Heap} {K : Multiset Stake} {k : Stake}

/-- The number of attempts never falls. -/
theorem Change.nextId_le {s t : Scene} (hc : Change Y s t) : s.1.nextId ≤ t.1.nextId := by
  cases hc with
  | null | copy | forget | revise | release | adopt | resetMetrics | remark => exact Nat.le_refl _
  | setBudget => exact Nat.le_refl _
  | share | observe | refuseLock => exact Nat.le_of_eq (Heap.nextId_expect _ _ _).symm
  | lock => exact Nat.le_of_eq (Heap.nextId_addStrongIfAlive _).symm
  | construct _ hc =>
    obtain ⟨h₁, o, hc₁, -, rfl⟩ := Unique.construct_eq hc
    exact Nat.le_of_eq (Heap.nextId_construct hc₁).symm
  | copyIn _ hc => exact Nat.le_of_eq (Heap.nextId_construct hc).symm
  | @promote h K k a o h' b hc | @refuseBlock h K k a o h' l _ hc =>
    have hnext := Heap.nextId_createBlock (h := h) k a o
    rw [hc] at hnext
    exact hnext ▸ Nat.le_succ _
  | write => exact Nat.le_of_eq (Heap.nextId_write _ _).symm

/-- What is told of each block after a change is what there is to tell of it. -/
theorem Change.chronicle {s t : Scene} (hc : Change Y s t) (hsound : Sound s)
    (hn : t.1.nextId ≤ UInt64.size) (hs : s.1.Chronicle) : t.1.Chronicle := by
  have hle := hc.nextId_le
  have hconstruct {h h' g : Heap} {p : Pointee} {a : Alloc} {o : ObjectId} {r : Option Layout}
      (hs : h.Chronicle) (hc : h.construct p a = (h', o, r)) (hl : g.log = h'.log)
      (hb : g.blocks = h'.blocks) (hn : g.nextId = h'.nextId) : g.Chronicle := by
    obtain ⟨-, es, hlog, hes⟩ := Heap.log_construct hc
    obtain ⟨-, hblocks, -⟩ := Heap.construct_eq hc
    refine hs.of_blocks (hb.trans hblocks)
      (Nat.le_of_eq (hn.trans (Heap.nextId_construct hc)).symm) (hl ▸ hlog) ?_
    rcases hes with ⟨-, rfl⟩ | ⟨-, n, rfl⟩ | ⟨-, rfl⟩ <;> simp [Event.block?]
  cases hc with
  | null | copy | forget | revise | release | adopt => exact hs
  | @share h K p q b hp hb =>
    obtain ⟨x, hx, -, hpos, -⟩ := hsound.strong hp hb
    refine hs.modify (f := fun x => { x with strong := x.strong + 1 }) hx Heap.blocks_addStrong rfl
      (Heap.nextId_expect _ _ _) (Heap.logs_addStrong b).log nofun fun w hw => ?_
    rw [List.filter_nil, List.filterMap_nil, List.append_nil]
    exact hw.congr (iff_of_false (Nat.succ_ne_zero _) (Nat.ne_of_gt hpos)) rfl
  | @observe h K x w b hx hb =>
    obtain ⟨y, hy, -⟩ := hsound.block hx hb
    refine hs.modify (f := fun x => { x with weak := x.weak + 1 }) hy Heap.blocks_addWeak rfl
      (Heap.nextId_expect _ _ _) (Heap.logs_addWeak b).log nofun fun w hw => ?_
    rw [List.filter_nil, List.filterMap_nil, List.append_nil]
    exact hw.congr .rfl rfl
  | @lock h K w p b hw hb alive =>
    obtain ⟨x, hx, -⟩ := hsound.block hw hb
    have hid : h.idOf b = x.id := by simp [Heap.idOf, hx]
    refine hs.modify (f := fun x => { x with strong := x.strong + 1 }) hx
      (Heap.blocks_addStrongIfAlive alive) rfl
      (Heap.nextId_addStrongIfAlive b) (hid ▸ (Heap.logs_addStrongIfAlive alive).log)
      (by simp [Event.block?, Event.created?]) fun w hw => ?_
    rw [Heap.strongCount_eq hx] at alive
    rw [List.filter_cons_of_pos (by simp [Event.block?])]
    exact hw.lock alive (Nat.succ_ne_zero _)
  | @refuseLock h K w b hw hb dead =>
    obtain ⟨x, hx, hf, -⟩ := hsound.block hw hb
    have hid : h.idOf b = x.id := by simp [Heap.idOf, hx]
    have hsame : (h.recordExpiredLock b).blocks = h.blocks.modify b fun x => x := by
      rw [Heap.blocks_recordExpiredLock]
      refine Array.ext_getElem? fun c => ?_
      simp [Array.getElem?_modify]
    refine hs.modify (f := fun x => x) hx hsame rfl (Heap.nextId_expect _ _ _)
      (hid ▸ (Heap.logs_recordExpiredLock b).log) (by simp [Event.block?, Event.created?])
      fun w hw => ?_
    rw [Heap.strongCount_eq hx] at dead
    rw [List.filter_cons_of_pos (by simp [Event.block?])]
    exact hw.lockExpired dead hf
  | construct _ hc =>
    obtain ⟨h₁, o, hc₁, -, rfl⟩ := Unique.construct_eq hc
    exact hconstruct hs hc₁ rfl rfl rfl
  | copyIn _ hc => exact hconstruct hs hc rfl rfl rfl
  | @promote h K k a o h' b hc =>
    have hnext : h'.nextId = h.nextId + 1 := by
      rw [← Heap.nextId_createBlock k a o, hc]
    have hn : h'.nextId ≤ UInt64.size := hn
    rw [hnext] at hn
    exact hs.createBlock hn hc
  | refuseBlock _ hc =>
    exact hs.of_blocks (Heap.createBlock_error hc).2.2.1 hle (Heap.logs_createBlock_error hc).log
      (by simp [Event.block?])
  | write => exact hs.of_blocks (Heap.blocks_write _ _) hle (Heap.logs_write _ _).log nofun
  | setBudget | resetMetrics => exact hs.of_blocks rfl hle (List.append_nil _).symm nofun
  | @remark h K e he =>
    refine hs.of_blocks rfl hle (Array.toList_push : _ = h.log.toList ++ [e]) ?_
    cases he <;> simp [Event.block?]

/-- So it is after a loss. -/
theorem Loss.chronicle {t : Scene} (hl : Loss h K k t) (hsound : Sound (h, k ::ₘ K))
    (hs : h.Chronicle) : t.1.Chronicle := by
  have hmem := Multiset.mem_cons_self k K
  have hbegin {h : Heap} (o : ObjectId) (hs : h.Chronicle) : (h.beginDestruction o).1.Chronicle :=
    hs.of_blocks Heap.blocks_beginDestruction (Nat.le_of_eq (Heap.nextId_beginDestruction o).symm)
      (show _ = h.log.toList ++ [] by rw [Heap.beginDestruction_log, List.append_nil]) nofun
  cases hl with
  | free | leak => exact hs
  | @release p b hb others =>
    obtain ⟨x, hx, hf, hpos, -⟩ := hsound.strong hmem hb
    rw [Heap.strongCount_eq hx] at others
    dsimp only
    rw [Heap.releaseStrong_others hx hf hpos others]
    refine hs.modify (f := fun x => { x with strong := x.strong - 1 }) hx rfl rfl rfl
      (List.append_nil _).symm nofun fun w hw => ?_
    rw [List.filter_nil, List.filterMap_nil, List.append_nil]
    refine hw.congr ?_ rfl
    dsimp only
    omega
  | @dispose p b o hb last ho =>
    obtain ⟨x, hx, hf, -, hpointee⟩ := hsound.strong hmem hb
    rw [Heap.strongCount_eq hx] at last
    dsimp only
    refine hbegin o ?_
    rw [Heap.takePointee_releaseStrong hx hf last hpointee]
    refine hs.modify (f := fun x => { x with strong := x.strong - 1, pointee := none }) hx rfl rfl
      rfl Array.toList_push (by simp [Event.block?, Event.created?]) fun w hw => ?_
    rw [List.filter_cons_of_pos (by simp [Event.block?])]
    exact hw.dispose (by simp [last]) (by simp [last]) hf
  | @disposeNothing p b hb last ho =>
    obtain ⟨x, hx, -, -, hpointee⟩ := hsound.strong hmem hb
    simp [Heap.takePointee_releaseStrong_snd, hx] at ho
    simp [ho] at hpointee
  | @unobserve w b hb =>
    obtain ⟨x, hx, hf, hagree⟩ := hsound.block hmem hb
    obtain ⟨hw, hlast⟩ := hagree.observed hmem hb
    exact hs.releaseWeak hx hf hw hlast
  | @destroy u o ho => exact hbegin o hs
  | @reclaim o =>
    obtain ⟨x, hx, -⟩ :=
      Option.map_eq_some_iff.mp (hsound.owned.dying hsound.scope (o := o) (by simp))
    refine hs.of_blocks Heap.blocks_endDestruction
      (Nat.le_of_eq (Heap.nextId_endDestruction o).symm) (Heap.log_endDestruction hx) fun e he => ?_
    obtain ⟨i, -, rfl⟩ := List.mem_map.mp he
    rfl
  | @giveUp b =>
    obtain ⟨x, hx, hf, hagree⟩ := hsound.block (k := .disposal b) hmem rfl
    obtain ⟨hw, hstrong⟩ := hagree.disposing hmem
    have hclear : (h.updateBlock b fun x => { x with implicitWeak := false }).Chronicle := by
      refine hs.modify (f := fun x => { x with implicitWeak := false }) hx rfl rfl rfl
        (List.append_nil _).symm nofun fun w hw => ?_
      rw [List.filter_nil, List.filterMap_nil, List.append_nil]
      exact hw.congr .rfl rfl
    have hx' := Array.getElem?_modify_self (fun x : Block => { x with implicitWeak := false }) hx
    have hlast := Heap.Chronicle.releaseWeak (h := h.updateBlock b _) hclear hx' hf hw
      fun _ => hstrong
    exact hlast

end

end Custody
