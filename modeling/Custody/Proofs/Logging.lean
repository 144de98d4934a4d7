import Custody.Proofs.Conservation
import Custody.Proofs.Erosion

/-!
# What is logged and counted

* `Counter`, `Event.counter?`, `Metrics.ofCounts`: each event raises one counter, or none.
* `Heap.Logs`: what happens between two heaps is logged, and the metrics have counted it.
  `Heap.Tells`: none of it is an attempt to lock a weak pointer.
* `Weak.outcome`, `Weak.logs_lock?`: what is logged of an attempt to lock a weak pointer.
-/

namespace Custody

/-! ## Counters -/

/-- What there is to count. -/
inductive Counter
  | allocated | freed | disposed | locked | expired | refused
  deriving DecidableEq, Repr

namespace Event

/-- The counter that an event raises, if it raises one. -/
def counter? : Event → Option Counter
  | blockCreated _ _ => some .allocated
  | blockFreed _ => some .freed
  | pointeeDisposed _ => some .disposed
  | lock _ => some .locked
  | lockExpired _ => some .expired
  | refuse _ _ => some .refused
  | _ => none

/-- The event is of an attempt to lock a weak pointer. -/
def isAttempt : Event → Bool
  | lock _ | lockExpired _ => true
  | _ => false

/-- The event is of a request that was refused. -/
def isRefusal : Event → Bool
  | refuse _ _ => true
  | _ => false

end Event

namespace Metrics

/-- A refused attempt to lock is an attempt as well. -/
def ofCounts (f : Counter → Nat) : Metrics where
  blocksAllocated := f .allocated
  blocksFreed := f .freed
  pointeesDisposed := f .disposed
  lockAttempts := f .locked + f .expired
  lockFailures := f .expired
  allocFailures := f .refused

theorem note_ofCounts (f : Counter → Nat) (e : Event) :
    (ofCounts f).note e = ofCounts fun c => f c + if e.counter? = some c then 1 else 0 := by
  cases e <;>
    simp [note, ofCounts, Event.counter?, recordBlockAllocated, recordBlockFreed,
      recordPointeeDisposed, recordLock, recordAllocFailure]
  all_goals omega

/-- What is noted is counted. -/
theorem foldl_note_ofCounts (es : List Event) (f : Counter → Nat) :
    es.foldl note (ofCounts f) =
      ofCounts fun c => f c + es.countP fun e => e.counter? = some c := by
  induction es generalizing f with
  | nil => rfl
  | cons e es ih =>
    rw [List.foldl_cons, note_ofCounts, ih]
    congr 1
    funext c
    simp only [List.countP_cons, decide_eq_true_eq, Nat.add_assoc, Nat.add_comm (List.countP _ _)]

end Metrics

namespace Heap

variable {h g h' : Heap} {a : Alloc} {b : BlockId} {o : ObjectId} {l : Layout} {es ds : List Event}

/-! ## Operations on the heap -/

/-- Between the two heaps the events were logged, and the metrics have counted them. -/
structure Logs (h h' : Heap) (es : List Event) : Prop where
  log : h'.log.toList = h.log.toList ++ es
  metrics : h'.metrics = es.foldl .note h.metrics

theorem Logs.silent (hl : h'.log = h.log) (hm : h'.metrics = h.metrics) : h.Logs h' [] :=
  ⟨by rw [hl, List.append_nil], hm⟩

theorem Logs.trans (h₁ : h.Logs g es) (h₂ : g.Logs h' ds) : h.Logs h' (es ++ ds) :=
  ⟨by rw [h₂.log, h₁.log, List.append_assoc], by rw [h₂.metrics, h₁.metrics, List.foldl_append]⟩

/-- An event is logged and counted. -/
theorem logs_emit {f : Metrics → Metrics} {e : Event} (he : h.metrics.note e = f h.metrics) :
    h.Logs ((h.measure f).emit e) [e] :=
  ⟨by simp [emit, measure], he.symm⟩

/-- What is logged between the two heaps is counted, and there is no attempt to lock among it. -/
def Tells (h h' : Heap) : Prop := ∃ es, (∀ e ∈ es, e.isAttempt = false) ∧ h.Logs h' es

theorem Logs.tells (hl : h.Logs h' es) (hes : ∀ e ∈ es, e.isAttempt = false) : h.Tells h' :=
  ⟨es, hes, hl⟩

theorem Tells.silent (hl : h'.log = h.log) (hm : h'.metrics = h.metrics) : h.Tells h' :=
  ⟨[], nofun, .silent hl hm⟩

theorem Tells.refl (h : Heap) : h.Tells h := .silent rfl rfl

theorem Tells.trans (h₁ : h.Tells g) (h₂ : g.Tells h') : h.Tells h' := by
  obtain ⟨es, hes, hl⟩ := h₁
  obtain ⟨ds, hds, hl'⟩ := h₂
  exact ⟨es ++ ds, fun e he => (List.mem_append.mp he).elim (hes e) (hds e), hl.trans hl'⟩

theorem tells_emit {f : Metrics → Metrics} {e : Event} (he : h.metrics.note e = f h.metrics)
    (ha : e.isAttempt = false) : h.Tells ((h.measure f).emit e) :=
  (logs_emit he).tells (by simpa using ha)

theorem tells_remark {e : Event} (he : e.IsRemark) : h.Tells (h.emit e) := by
  cases he <;> exact tells_emit (f := id) rfl rfl

theorem logs_expect (b : BlockId) (ok : Block → Bool) (e : Breach) : h.Logs (h.expect b ok e) [] :=
  .silent (by rw [expect_eq]) (by rw [expect_eq])

theorem logs_updateBlock (b : BlockId) (f : Block → Block) : h.Logs (h.updateBlock b f) [] :=
  .silent rfl rfl

theorem tells_updateBlock (b : BlockId) (f : Block → Block) : h.Tells (h.updateBlock b f) :=
  .silent rfl rfl

theorem tells_updateObject (o : ObjectId) (f : Object → Object) : h.Tells (h.updateObject o f) :=
  .silent rfl rfl

theorem tells_expect (b : BlockId) (ok : Block → Bool) (e : Breach) : h.Tells (h.expect b ok e) :=
  (logs_expect b ok e).tells nofun

@[simp] theorem idOf_expect (b' : BlockId) (ok : Block → Bool) (e : Breach) :
    (h.expect b' ok e).idOf b = h.idOf b := by
  simp [idOf]

/-! ### Counters -/

theorem logs_addStrong (b : BlockId) : h.Logs (h.addStrong b) [] :=
  (logs_expect b _ _).trans (logs_updateBlock b _)

theorem logs_addWeak (b : BlockId) : h.Logs (h.addWeak b) [] :=
  (logs_expect b _ _).trans (logs_updateBlock b _)

@[simp] theorem strongCount_addWeak (b' : BlockId) :
    (h.addWeak b').strongCount b = h.strongCount b := by
  simp only [strongCount, blocks_addWeak, Array.getElem?_modify]
  split
  · rw [Option.map_map]
    rfl
  · rfl

theorem logs_recordExpiredLock (b : BlockId) :
    h.Logs (h.recordExpiredLock b) [.lockExpired (h.idOf b)] := by
  have hemit := (logs_expect (h := h) b (fun _ => true) .freedBlock).trans
    (logs_emit (f := .recordLock false) (e := .lockExpired (h.idOf b)) rfl)
  simpa only [recordExpiredLock, idOf_expect, List.nil_append] using hemit

theorem logs_addStrongIfAlive (alive : h.strongCount b ≠ 0) :
    h.Logs (h.addStrongIfAlive b) [.lock (h.idOf b)] := by
  have hid : ((h.expect b (fun _ => true) .freedBlock).updateBlock b fun x =>
      { x with strong := x.strong + 1 }).idOf b = h.idOf b := by
    simp only [idOf, updateBlock, blocks_expect, Array.getElem?_modify, ↓reduceIte, Option.map_map]
    rfl
  have hadd := (logs_expect (h := h) b (fun _ => true) .freedBlock).trans
    (logs_updateBlock b fun x => { x with strong := x.strong + 1 })
  have hemit := hadd.trans (logs_emit (f := .recordLock true) (e := .lock (h.idOf b)) rfl)
  simpa only [addStrongIfAlive, alive, ↓reduceIte, hid, List.nil_append] using hemit

theorem tells_releaseStrong (b : BlockId) : h.Tells (h.releaseStrong b).1 := by
  have hrelease := (tells_expect (h := h) b (0 < ·.strong) .strongUnderflow).trans
    (tells_updateBlock b fun x => { x with strong := x.strong - 1 })
  simp only [releaseStrong]
  split
  · exact hrelease.trans (tells_emit rfl rfl)
  · exact hrelease

theorem tells_takePointee (b : BlockId) : h.Tells (h.takePointee b).1 :=
  (tells_expect b _ _).trans (.silent rfl rfl)

theorem tells_giveBack (a : Alloc) (n : Nat) (l : Layout) : h.Tells (h.giveBack a n l) := by
  refine ⟨[.dealloc a n l], by simp [Event.isAttempt], h.log_giveBack a n l, ?_⟩
  unfold giveBack
  cases a <;> dsimp only <;> split <;> rfl

/-- A weak reference that goes locks nothing. -/
theorem tells_releaseWeak (b : BlockId) : h.Tells (h.releaseWeak b) := by
  have hrelease := (tells_expect (h := h) b (0 < ·.weak) .weakUnderflow).trans
    (tells_updateBlock b fun x => { x with weak := x.weak - 1 })
  simp only [releaseWeak]
  split
  · have hfree (id : Nat) := (hrelease.trans (tells_expect b (·.strong = 0) .freedWhileOwned)).trans
      (tells_emit (f := .recordBlockFreed) (e := .blockFreed id) rfl rfl)
    have hfreed (id : Nat) :=
      (hfree id).trans (tells_updateBlock b fun x => { x with freed := true })
    split
    · exact (hfreed _).trans (tells_giveBack _ _ _)
    · exact hfreed _
  · exact hrelease

theorem tells_giveUpImplicit (b : BlockId) : h.Tells (h.giveUpImplicit b) :=
  (tells_updateBlock b _).trans (tells_releaseWeak b)

/-! ### Storage -/

theorem log_request (a : Alloc) (l : Layout) (h : Heap) :
    (h.request a l).1.log = h.log.push (match (h.request a l).2 with
      | some n => .alloc a n l
      | none => .refuse a l) := by
  unfold request
  by_cases hl : l.size = 0 <;> simp only [hl, ↓reduceIte] <;> cases a <;> split <;> rfl

@[simp] theorem metrics_request (a : Alloc) (l : Layout) (h : Heap) :
    (h.request a l).1.metrics = h.metrics := by
  unfold request
  by_cases hl : l.size = 0 <;> simp only [hl, ↓reduceIte] <;> cases a <;> split <;> rfl

/-- What a construction logs: nothing, that memory is granted, or that it is refused. The metrics
do not count it. -/
theorem log_construct {p : Pointee} {r : Option Layout} (hc : h.construct p a = (h', o, r)) :
    h'.metrics = h.metrics ∧ ∃ es, h'.log.toList = h.log.toList ++ es ∧
      (r = none ∧ es = [] ∨ (r = none ∧ ∃ n, es = [.alloc a n p.content.layout]) ∨
        r = some p.content.layout ∧ es = [.refuse a p.content.layout]) := by
  simp only [construct] at hc
  split at hc
  · cases hc
    exact ⟨rfl, [], by simp [addObject], .inl ⟨rfl, rfl⟩⟩
  · have hlog := log_request a p.content.layout h
    have hmetrics := metrics_request a p.content.layout h
    cases hn : (h.request a p.content.layout).2 with
    | none =>
      rw [hn] at hc hlog
      cases hc
      exact ⟨hmetrics, _, by simp [addObject, hlog], .inr (.inr ⟨rfl, rfl⟩)⟩
    | some n =>
      rw [hn] at hc hlog
      cases hc
      exact ⟨hmetrics, _, by simp [addObject, hlog], .inr (.inl ⟨rfl, n, rfl⟩)⟩

theorem logs_createBlock_ok {k : Kind} (hc : h.createBlock k a o = (h', .ok b)) :
    ∃ n, h'.blocks = h.blocks.push
        { id := h.newId, kind := k, alloc := a, serial := n, pointee := some o } ∧
      h.Logs h' [.alloc a n (.block k.isSized), .blockCreated h.newId k] := by
  have hlog := log_request a (.block k.isSized) { h with nextId := h.nextId + 1 }
  obtain ⟨-, -, n, hn, hblocks, -⟩ := createBlock_ok hc
  rw [hn] at hlog
  refine ⟨n, hblocks, ?_⟩
  simp only [createBlock, hn] at hc
  cases hc
  exact ⟨by simp [measure, emit, hlog, newId], by simp [measure, emit, Metrics.note]⟩

theorem logs_createBlock_error {k : Kind} (hc : h.createBlock k a o = (h', .error l)) :
    h.Logs h' [.refuse a (.block k.isSized)] := by
  have hlog := log_request a (.block k.isSized) { h with nextId := h.nextId + 1 }
  simp only [createBlock] at hc
  split at hc
  · next hn =>
    rw [hn] at hlog
    cases hc
    exact ⟨by simp [measure, hlog], by simp [measure, Metrics.note]⟩
  · cases hc

@[simp] theorem beginDestruction_log (o : ObjectId) : (h.beginDestruction o).1.log = h.log := by
  unfold beginDestruction
  split
  · dsimp only
    split <;> rfl
  · rfl

theorem tells_beginDestruction (o : ObjectId) : h.Tells (h.beginDestruction o).1 := by
  refine .silent (beginDestruction_log o) ?_
  unfold beginDestruction
  split
  · dsimp only
    split <;> rfl
  · rfl

theorem tells_endDestruction (o : ObjectId) : h.Tells (h.endDestruction o) := by
  unfold endDestruction
  split
  · dsimp only
    split
    · exact (tells_updateObject o _).trans (tells_giveBack _ _ _)
    · exact tells_updateObject o _
  · exact .refl h

theorem logs_write (p : Place) (c : Content) : h.Logs (h.write p c) [] := by
  unfold write
  split <;> exact .silent rfl rfl

end Heap

/-! ## Operations on pointers -/

section Operations

variable {h h' : Heap}

theorem Strong.tells_acquire (block : Option BlockId) (h : Heap) : h.Tells (acquire block h) := by
  cases block with
  | none => exact .refl h
  | some b => exact (Heap.logs_addStrong b).tells nofun

theorem Weak.logs_acquire (block : Option BlockId) (h : Heap) : h.Logs (acquire block h) [] := by
  cases block with
  | none => exact .silent rfl rfl
  | some b => exact Heap.logs_addWeak b

theorem Weak.tells_acquire (block : Option BlockId) (h : Heap) : h.Tells (acquire block h) :=
  (logs_acquire block h).tells nofun

theorem Weak.strongCount_acquire (block : Option BlockId) (h : Heap) (b : BlockId) :
    (acquire block h).strongCount b = h.strongCount b := by
  cases block with
  | none => rfl
  | some b' => exact Heap.strongCount_addWeak b'

theorem Strong.tells_assign (p source : Strong) (h : Heap) : h.Tells (p.assign source h).1 := by
  unfold assign
  split
  · exact .refl h
  · exact tells_acquire _ h

theorem Weak.tells_assign (w source : Weak) (h : Heap) : h.Tells (w.assign source h).1 := by
  unfold assign
  split
  · exact .refl h
  · exact tells_acquire _ h

/-- What is told of an attempt to lock. -/
def Weak.outcome (h : Heap) (w : Weak) : List Event :=
  match w.block with
  | none => []
  | some b => [if h.strongCount b = 0 then .lockExpired (h.idOf b) else .lock (h.idOf b)]

theorem Weak.filter_outcome (h : Heap) (w : Weak) :
    (w.outcome h).filter (·.isAttempt) = w.outcome h := by
  unfold outcome
  split
  · rfl
  · split <;> rfl

theorem Weak.outcome_congr (hb : h'.blocks = h.blocks) (w : Weak) : w.outcome h' = w.outcome h := by
  unfold outcome Heap.strongCount Heap.idOf
  rw [hb]

theorem Weak.logs_lock? (w : Weak) (h : Heap) : h.Logs (w.lock? h).1 (w.outcome h) := by
  obtain ⟨k, _ | b, v⟩ := w
  · exact .silent rfl rfl
  · by_cases dead : h.strongCount b = 0
    · simpa [lock?, outcome, dead] using Heap.logs_recordExpiredLock b
    · simpa [lock?, outcome, dead] using Heap.logs_addStrongIfAlive dead

/-- What is locked has one strong owner more. -/
theorem Weak.strongCount_lock? {w : Weak} {b : BlockId} (hb : w.block = some b) (h : Heap) :
    (w.lock? h).1.strongCount b = h.strongCount b + if h.strongCount b = 0 then 0 else 1 := by
  obtain ⟨k, block, v⟩ := w
  obtain rfl : block = some b := hb
  by_cases dead : h.strongCount b = 0
  · have hsame : (h.recordExpiredLock b).strongCount b = h.strongCount b := by
      rw [Heap.strongCount, Heap.blocks_recordExpiredLock, Heap.strongCount]
    simp [lock?, dead, hsame]
  · cases hx : h.blocks[b]? with
    | none => exact absurd (by simp [Heap.strongCount, hx]) dead
    | some x =>
      have hadd : (h.addStrongIfAlive b).strongCount b = h.strongCount b + 1 := by
        rw [Heap.strongCount, Heap.blocks_addStrongIfAlive dead, Array.getElem?_modify_self _ hx,
          Heap.strongCount_eq hx]
        rfl
      simp only [lock?, dead, ↓reduceIte, hadd]

/-- A refused construction is a failure that is counted. -/
theorem Unique.tells_construct {k : Kind} {p : Pointee} {a : Alloc} {u : Unique}
    {r : Option Layout} (hc : Unique.construct k p a h = (h', u, r)) : h.Tells h' := by
  obtain ⟨h₁, o, hc₁, -, rfl⟩ := Unique.construct_eq hc
  obtain ⟨hmetrics, es, hlog, ⟨rfl, rfl⟩ | ⟨rfl, n, rfl⟩ | ⟨rfl, rfl⟩⟩ := Heap.log_construct hc₁
  all_goals
    refine Heap.Logs.tells ⟨hlog, ?_⟩ (by simp [Event.isAttempt])
    simp [Heap.measure, hmetrics, Metrics.note]

/-- A promotion locks nothing. -/
theorem Unique.tells_promote {u v : Unique} {r : Except Layout Strong}
    (hp : u.promote h = (h', v, r)) : h.Tells h' := by
  obtain ⟨k, a, _ | o⟩ := u
  · cases hp
    exact .refl h
  · simp only [promote] at hp
    split at hp
    · next hc =>
      cases hp
      obtain ⟨n, -, hlogs⟩ := Heap.logs_createBlock_ok hc
      exact hlogs.tells (by simp [Event.isAttempt])
    · next hc =>
      cases hp
      exact (Heap.logs_createBlock_error hc).tells (by simp [Event.isAttempt])

/-- A construction locks nothing. -/
theorem Strong.tells_construct {k : Kind} {p : Pointee} {a : Alloc} {r : Except Layout Strong}
    {us : List Unique} (hc : Strong.construct k p a h = (h', r, us)) : h.Tells h' := by
  unfold Strong.construct at hc
  split at hc
  · next hu =>
    cases hc
    exact Unique.tells_construct hu
  · next hu =>
    split at hc
    all_goals
      next hp =>
        cases hc
        exact (Unique.tells_construct hu).trans (Unique.tells_promote hp)

theorem Strong.tells_adopt {r : Raw} {q : Except Layout Strong} {us : List Unique}
    (hc : Strong.adopt r h = (h', q, us)) : h.Tells h' := by
  unfold Strong.adopt at hc
  split at hc
  all_goals
    next hp =>
      cases hc
      exact Unique.tells_promote hp

end Operations

end Custody
