import Custody.Proofs.Tales

/-!
# What is told once

* `Turn`, `Event.turn?`: what happens once in the life of a block, or to memory. `Heap.turns`: the
  turns that the log tells of, in order.
* `Heap.Chronicle.nodup_turns`: none is told twice. `Heap.Chronicle.disposed_mem_turns` and its
  kind: what has been told shows in the heap.
* `Heap.Orderly`: the memory of the pointee is there before the block's, and that before the block;
  a block is freed before its memory is returned. Changes and losses keep it.
-/

namespace Custody

variable {Y : Option Place}

/-- What happens once. -/
inductive Turn
  | granted (m : Alloc × Nat × Layout)
  | returned (m : Alloc × Nat × Layout)
  | created (id : Nat)
  | disposed (id : Nat)
  | freed (id : Nat)
  deriving DecidableEq

namespace Event

/-- The turn that an event is, if it is one of storage. -/
def turn? : Event → Option Turn
  | alloc a n l => some (.granted (a, n, l))
  | dealloc a n l => some (.returned (a, n, l))
  | blockCreated id _ => some (.created id)
  | pointeeDisposed id => some (.disposed id)
  | blockFreed id => some (.freed id)
  | _ => none

end Event

/-! ## No turn is told twice -/

/-- No grant and no return is made twice. -/
theorem Balanced.count_le_one {cs : List Call} {c : Call} (h : Balanced cs)
    (hc : ∀ l, c ≠ .refused l) : cs.count c ≤ 1 := by
  induction h with
  | nil => exact Nat.zero_le 1
  | @granted cs n l _ _ hnew ih =>
    rw [List.count_append, List.count_singleton]
    split
    · next heq =>
      rw [← eq_of_beq heq, List.count_eq_zero_of_not_mem (hnew l)]
    · exact ih
  | @refused cs l _ _ ih =>
    rw [List.count_append, List.count_eq_zero_of_not_mem (l := [Call.refused l])]
    · exact ih
    · simpa using hc l
  | @returned cs n l _ _ _ hout ih =>
    rw [List.count_append, List.count_singleton]
    split
    · next heq =>
      rw [← eq_of_beq heq, List.count_eq_zero_of_not_mem (hout l)]
    · exact ih

namespace Block.Tale

variable {x : Block} {w : List Counter}

theorem count_le_one {c : Counter} (hw : x.Tale w) (hlocked : c ≠ .locked)
    (hexpired : c ≠ .expired) : w.count c ≤ 1 := by
  cases hw <;> cases c <;> simp_all [List.count_replicate]

theorem disposed_mem (hw : x.Tale w) : .disposed ∈ w ↔ x.strong = 0 := by
  cases hw <;> simp_all

theorem freed_mem (hw : x.Tale w) (hdead : x.freed = true → x.strong = 0) :
    .freed ∈ w ↔ x.freed = true := by
  cases hw with
  | owned k hs => simp [mt hdead hs]
  | disposed k j _ hf => simp [hf]
  | freed k j _ hf => simp [hf]

end Block.Tale

namespace Heap

variable {h h' : Heap} {x : Block} {y : Object} {id n : Nat} {a : Alloc} {l : Layout}

/-- The turns that the heap has been through. -/
def turns (h : Heap) : List Turn := h.log.toList.filterMap Event.turn?

/-- A turn of a block is told when its tale is. -/
theorem count_turns {t : Turn} {c : Counter}
    (ht : ∀ e : Event, e.turn? = some t ↔ e.block? = some id ∧ e.counter? = some c) :
    h.turns.count t = (h.tale id).count c := by
  rw [turns, List.count_filterMap, tale, List.count_filterMap, List.countP_filter]
  refine List.countP_congr fun e _ => ?_
  simp [ht, and_comm]

theorem count_created : h.turns.count (.created id) = (h.tale id).count .allocated :=
  count_turns fun e => by cases e <;> simp [Event.turn?, Event.block?, Event.counter?]

theorem count_disposed : h.turns.count (.disposed id) = (h.tale id).count .disposed :=
  count_turns fun e => by cases e <;> simp [Event.turn?, Event.block?, Event.counter?]

theorem count_freed : h.turns.count (.freed id) = (h.tale id).count .freed :=
  count_turns fun e => by cases e <;> simp [Event.turn?, Event.block?, Event.counter?]

/-- A turn of memory is told when its allocator's calls are. -/
theorem count_granted : h.turns.count (.granted (a, n, l)) = (h.calls a).count (.granted n l) := by
  rw [turns, calls, List.count_filterMap, List.count_filterMap]
  refine List.countP_congr fun e _ => ?_
  cases e <;> simp [Event.turn?, Event.callTo?]

theorem count_returned :
    h.turns.count (.returned (a, n, l)) = (h.calls a).count (.returned n l) := by
  rw [turns, calls, List.count_filterMap, List.count_filterMap]
  refine List.countP_congr fun e _ => ?_
  cases e <;> simp [Event.turn?, Event.callTo?]

theorem Chronicle.tale_of_unknown (hs : h.Chronicle)
    (hid : ∀ x ∈ h.blocks.toList, x.id ≠ id) : h.tale id = [] := by
  have hnone : ∀ e ∈ h.log.toList, e.block? ≠ some id := by
    intro e he hi
    obtain ⟨x, hx, hxid⟩ := hs.known e he id hi
    exact hid x hx hxid
  rw [tale, List.filter_eq_nil_iff.mpr fun e he => by simpa using hnone e he]
  rfl

/-- What is told of an id is how a life begins. -/
theorem Chronicle.prefix_lifecycle (hs : h.Chronicle) (id : Nat) :
    ∃ w ∈ lifecycle.matches', h.tale id <+: w := by
  by_cases hid : ∃ x ∈ h.blocks.toList, x.id = id
  · obtain ⟨x, hx, rfl⟩ := hid
    exact (hs.tales x hx).prefix_lifecycle
  · rw [hs.tale_of_unknown fun x hx hxid => hid ⟨x, hx, hxid⟩]
    exact ⟨_, life_mem_lifecycle 0 0, List.nil_prefix⟩

/-- Nothing takes its turn twice. -/
theorem Chronicle.nodup_turns (hs : h.Chronicle) (he : h.Entered) : h.turns.Nodup := by
  have htale {id : Nat} {c : Counter} (hlocked : c ≠ .locked) (hexpired : c ≠ .expired) :
      (h.tale id).count c ≤ 1 := by
    by_cases hid : ∃ x ∈ h.blocks.toList, x.id = id
    · obtain ⟨x, hx, rfl⟩ := hid
      exact (hs.tales x hx).count_le_one hlocked hexpired
    · rw [hs.tale_of_unknown fun x hx hxid => hid ⟨x, hx, hxid⟩]
      exact Nat.zero_le 1
  rw [List.nodup_iff_count_le_one]
  intro t
  match t with
  | .granted (a, n, l) => exact count_granted ▸ (he.accounts a).balanced.count_le_one nofun
  | .returned (a, n, l) => exact count_returned ▸ (he.accounts a).balanced.count_le_one nofun
  | .created id => exact count_created ▸ htale nofun nofun
  | .disposed id => exact count_disposed ▸ htale nofun nofun
  | .freed id => exact count_freed ▸ htale nofun nofun

/-! ## What has been told shows in the heap -/

theorem Chronicle.disposed_mem_turns (hs : h.Chronicle) (hx : x ∈ h.blocks.toList) :
    .disposed x.id ∈ h.turns ↔ x.strong = 0 := by
  rw [← List.count_pos_iff, count_disposed, List.count_pos_iff]
  exact (hs.tales x hx).disposed_mem

theorem Chronicle.freed_mem_turns (hs : h.Chronicle) (hx : x ∈ h.blocks.toList)
    (hdead : x.freed = true → x.strong = 0) : .freed x.id ∈ h.turns ↔ x.freed = true := by
  rw [← List.count_pos_iff, count_freed, List.count_pos_iff]
  exact (hs.tales x hx).freed_mem hdead

theorem Entered.granted_mem_turns (he : h.Entered) :
    .granted (a, n, l) ∈ h.turns ↔ ∃ live, (n, l) ∈ (h.ledger a).entries live := by
  rw [← List.count_pos_iff, count_granted, List.count_pos_iff, (he.accounts a).granted]
  simp only [Ledger.mem_entries, exists_and_left]

theorem Entered.returned_mem_turns (he : h.Entered) :
    .returned (a, n, l) ∈ h.turns ↔ (n, l) ∈ (h.ledger a).entries false := by
  rw [← List.count_pos_iff, count_returned, List.count_pos_iff, (he.accounts a).returned,
    Ledger.mem_entries]

/-- What has been told of a block's memory. -/
theorem Entered.mem_turns_of_block {b : BlockId} (he : h.Entered) (hb : Booked h)
    (hx : h.blocks[b]? = some x) :
    .granted x.storage ∈ h.turns ∧ (.returned x.storage ∈ h.turns ↔ x.freed = true) := by
  have hentry := hb.block hx
  refine ⟨he.granted_mem_turns.mpr ⟨_, hentry⟩, ?_⟩
  rw [Block.storage, he.returned_mem_turns, Ledger.entries_unique hentry]
  cases x.freed <;> simp

/-- What has been told of an object's memory. -/
theorem Entered.mem_turns_of_object {o : ObjectId} {m : Alloc × Nat × Layout} (he : h.Entered)
    (hb : Booked h) (hy : h.objects[o]? = some y) (hm : y.storage? = some m) :
    .granted m ∈ h.turns ∧ (.returned m ∈ h.turns ↔ y.phase = .gone) := by
  obtain ⟨n, hn, rfl⟩ := Option.map_eq_some_iff.mp hm
  have hentry := hb.object hy hn
  refine ⟨he.granted_mem_turns.mpr ⟨_, hentry⟩, ?_⟩
  rw [he.returned_mem_turns, Ledger.entries_unique hentry]
  cases y.phase <;> simp

end Heap

/-! ## The order of turns -/

/-- The grant of the memory that the object is in. -/
def Object.grants (y : Object) : List Turn := y.storage?.toList.map .granted

/-- What is told where a block is made. -/
def Block.makes (x : Block) : List Turn := [.granted x.storage, .created x.id]

/-- What is told where a block is freed. -/
def Block.frees (x : Block) : List Turn := [.freed x.id, .returned x.storage]

theorem Object.Lasts.storage? {x y : Object} (h : x.Lasts y) : y.storage? = x.storage? := by
  rw [Object.storage?, h.serial, h.alloc, h.layout, Object.storage?]

theorem Object.Lasts.grants {x y : Object} (h : x.Lasts y) : y.grants = x.grants := by
  rw [Object.grants, h.storage?, Object.grants]

theorem Block.Becomes.storage {x y : Block} (h : x.Becomes y) : y.storage = x.storage := by
  rw [Block.storage, h.alloc, h.serial, h.kind, Block.storage]

theorem Block.Becomes.makes {x y : Block} (h : x.Becomes y) : y.makes = x.makes := by
  rw [Block.makes, h.storage, h.id, Block.makes]

theorem Block.Becomes.frees {x y : Block} (h : x.Becomes y) : y.frees = x.frees := by
  rw [Block.frees, h.storage, h.id, Block.frees]

namespace Heap

variable {h h' : Heap} {x y : Block} {es : List Event}

/-- What has been told of the block is in order. -/
structure OrderlyAt (h : Heap) (x : Block) : Prop where
  made : ∀ (o : ObjectId) (z : Object), x.pointee = some o → h.objects[o]? = some z →
    (z.grants ++ x.makes).Sublist h.turns
  freed : x.freed = true → x.frees.Sublist h.turns

/-- What has been told is in order. -/
def Orderly (h : Heap) : Prop := ∀ (b : BlockId) (x : Block), h.blocks[b]? = some x → h.OrderlyAt x

theorem turns_append (hl : h'.log.toList = h.log.toList ++ es) :
    h'.turns = h.turns ++ es.filterMap Event.turn? := by
  rw [turns, hl, List.filterMap_append, turns]

theorem turns_sublist (hl : h'.log.toList = h.log.toList ++ es) : h.turns.Sublist h'.turns :=
  turns_append hl ▸ List.sublist_append_left _ _

/-- It stays in order as more is told. -/
theorem OrderlyAt.next (hx : h.OrderlyAt x) (hxy : x.Becomes y)
    (hobject : ∀ o, x.pointee = some o → o < h.objects.size) (hlasts : h.Lasts h')
    (hl : h'.log.toList = h.log.toList ++ es)
    (hf : y.freed = true → x.freed = true ∨ y.frees.Sublist h'.turns) :
    h'.OrderlyAt y where
  made o z ho hz := by
    have hxo : x.pointee = some o := by
      rcases hxy.pointee with h | h
      · exact h ▸ ho
      · rw [h] at ho
        cases ho
    have hw := Array.getElem?_eq_getElem (hobject o hxo)
    obtain ⟨z', hz', hlast⟩ := hlasts o _ hw
    rw [hz] at hz'
    cases hz'
    rw [hlast.grants, hxy.makes]
    exact (hx.made o _ hxo hw).trans (turns_sublist hl)
  freed h := by
    rcases hf h with h | h
    · rw [hxy.frees]
      exact (hx.freed h).trans (turns_sublist hl)
    · exact h

end Heap

section

variable {h : Heap} {K : Multiset Stake} {k : Stake} {b : BlockId} {x : Block}

/-- The log goes on. -/
theorem Change.log_append {s t : Scene} (hc : Change Y s t) :
    ∃ es, t.1.log.toList = s.1.log.toList ++ es := by
  cases hc with
  | null | copy | forget | revise | release | adopt | setBudget | resetMetrics =>
    exact ⟨[], (List.append_nil _).symm⟩
  | share => exact ⟨_, (Heap.logs_addStrong _).log⟩
  | observe => exact ⟨_, (Heap.logs_addWeak _).log⟩
  | lock _ _ alive => exact ⟨_, (Heap.logs_addStrongIfAlive alive).log⟩
  | refuseLock => exact ⟨_, (Heap.logs_recordExpiredLock _).log⟩
  | construct _ hc =>
    obtain ⟨es, -, hlogs⟩ := Unique.tells_construct hc
    exact ⟨es, hlogs.log⟩
  | copyIn _ hc =>
    obtain ⟨-, es, hlog, -⟩ := Heap.log_construct hc
    exact ⟨es, hlog⟩
  | promote hc =>
    obtain ⟨n, -, hlogs⟩ := Heap.logs_createBlock_ok hc
    exact ⟨_, hlogs.log⟩
  | refuseBlock _ hc => exact ⟨_, (Heap.logs_createBlock_error hc).log⟩
  | write => exact ⟨_, (Heap.logs_write _ _).log⟩
  | @remark h K e => exact ⟨[e], Array.toList_push⟩

/-- Turns are in order after every change. -/
theorem Change.orderly {s t : Scene} (hc : Change Y s t) (hsound : Sound s)
    (he : s.1.Entered) (hs : s.1.Orderly) : t.1.Orderly := by
  intro b y hy
  cases hx : s.1.blocks[b]? with
  | some x =>
    obtain ⟨y', hy', hxy⟩ := hc.gains hsound.counted hx
    rw [hy] at hy'
    cases hy'
    obtain ⟨es, hlog⟩ := hc.log_append
    exact (hs b x hx).next hxy.keeps.toBecomes (fun o ho => hsound.scope.pointees o ⟨b, x, hx, ho⟩)
      hc.lasts hlog fun h => .inl (hxy.keeps.sameFreed ▸ h)
  | none =>
    -- the object was there before the block was
    obtain ⟨k, a, o, hu, hcreate, heq⟩ := hc.made hx hy
    obtain ⟨n, hblocks, hlogs⟩ := Heap.logs_createBlock_ok hcreate
    obtain ⟨rfl, hobjects, -⟩ := Heap.createBlock_ok hcreate
    rw [hblocks, Array.getElem?_push_size] at hy
    cases hy
    refine ⟨fun o' z ho' hz => ?_, nofun⟩
    cases ho'
    rw [hobjects] at hz
    rw [Heap.turns_append hlogs.log]
    refine .append ?_ (List.Sublist.refl _)
    rw [Object.grants]
    cases hm : z.storage? with
    | none => exact List.nil_sublist _
    | some m => simpa using (he.mem_turns_of_object hsound.booked hz hm).1

/-- What is told where a block is freed. -/
theorem Loss.log_frees {t : Scene} (hl : Loss h K k t) (hsound : Sound (h, k ::ₘ K))
    (hk : k.frees? h = some b) (hx : h.blocks[b]? = some x) :
    t.1.log.toList = h.log.toList ++
      [.blockFreed x.id, .dealloc x.alloc x.serial (.block x.kind.isSized)] := by
  have hmem := Multiset.mem_cons_self k K
  obtain ⟨hb, hcount⟩ := Stake.block?_of_frees? hk
  rw [Heap.weakCount_eq hx] at hcount
  obtain ⟨x', hx', hf, hagree⟩ := hsound.block hmem hb
  obtain rfl : x' = x := by simpa [hx] using hx'.symm
  have hrelease {h : Heap} {x : Block} (hx : h.blocks[b]? = some x) (hf : x.freed = false)
      (hcount : x.weak = 1) (hstrong : x.strong = 0) :
      (h.releaseWeak b).log.toList = h.log.toList ++
        [.blockFreed x.id, .dealloc x.alloc x.serial (.block x.kind.isSized)] := by
    rw [Heap.releaseWeak_last hx hf hcount hstrong, Heap.log_giveBack]
    simp
  cases hl with
  | @unobserve w c hc =>
    obtain rfl : c = b := Option.some.inj (hc.symm.trans hb)
    exact hrelease hx hf hcount ((hagree.observed hmem hb).2 hcount)
  | @giveUp c =>
    obtain rfl : c = b := Option.some.inj hb
    have hclear := Array.getElem?_modify_self (fun x : Block => { x with implicitWeak := false }) hx
    have hdone := hrelease (h := h.updateBlock c _) hclear hf hcount (hagree.disposing hmem).2
    exact hdone
  | @free y hy =>
    rw [Stake.block?, hy.block?] at hb
    cases hb
  | leak | release | dispose | disposeNothing | destroy | reclaim => cases hk

/-- They are so after every loss. -/
theorem Loss.orderly {t : Scene} (hl : Loss h K k t) (hsound : Sound (h, k ::ₘ K))
    (hs : h.Orderly) : t.1.Orderly := by
  intro b y hy
  cases hx : h.blocks[b]? with
  | none =>
    rw [hl.unborn hx] at hy
    cases hy
  | some x =>
    obtain ⟨es, hlog, -⟩ := (hl.erodes hsound).events
    obtain ⟨y', hy', hxy⟩ := hl.loses hx
    obtain ⟨y'', hy'', hfreed⟩ := hl.freed hx
    rw [hy] at hy' hy''
    cases hy'
    cases hy''
    refine (hs b x hx).next hxy.becomes (fun o ho => hsound.scope.pointees o ⟨b, x, hx, ho⟩)
      hl.lasts hlog fun h => (hfreed.mp h).imp_right fun hk => ?_
    rw [hxy.becomes.frees, Heap.turns_append (hl.log_frees hsound hk hx)]
    exact List.sublist_append_right _ _

theorem Shift.orderly {s t : Scene} (hc : Shift Y s t) (hsound : Sound s) (he : s.1.Entered)
    (hs : s.1.Orderly) : t.1.Orderly := by
  cases hc with
  | change hc => exact hc.orderly hsound he hs
  | @relink h K o t =>
    intro b x hx
    exact (hs b x hx).next (.refl x) (fun o ho => hsound.scope.pointees o ⟨b, x, hx, ho⟩)
      (Shift.relink (Y := Y) o t).lasts (List.append_nil _).symm .inl

end

end Custody
