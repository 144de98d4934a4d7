import Custody.Operations

/-!
# What the operations on the heap change

The blocks, the objects and the ledgers after each operation. `expect_eq_self` and its kind say
when an operation records no breach.
-/

namespace Custody

section Modify

variable {α : Type} {xs : Array α} {i : Nat}

theorem Array.modify_eq_self (f : α → α) (h : xs[i]? = none) : xs.modify i f = xs := by
  apply Array.ext_getElem?
  intro j
  rw [Array.getElem?_modify]
  split
  · next heq =>
    subst heq
    rw [h]
    rfl
  · rfl

theorem Array.getElem?_modify_self {x : α} (f : α → α) (h : xs[i]? = some x) :
    (xs.modify i f)[i]? = some (f x) := by
  rw [Array.getElem?_modify, if_pos rfl, h]
  rfl

theorem Array.modify_modify (f g : α → α) :
    (xs.modify i f).modify i g = xs.modify i fun x => g (f x) := by
  apply Array.ext_getElem?
  intro j
  by_cases hj : i = j <;> simp only [Array.getElem?_modify, hj, ↓reduceIte, Option.map_map]
  rfl

/-- Of the elements one is changed, and those before and after it are not. -/
theorem Array.toList_modify_split {x : α} (f : α → α) (h : xs[i]? = some x) :
    ∃ l r, xs.toList = l ++ x :: r ∧ (xs.modify i f).toList = l ++ f x :: r ∧ l.length = i := by
  obtain ⟨hi, rfl⟩ := Array.getElem?_eq_some_iff.mp h
  obtain ⟨l, a, r, hl, rfl, hm⟩ := List.exists_of_modify f (Array.length_toList ▸ hi)
  have ha : xs.toList[l.length]? = some a := by simp [hl]
  obtain rfl : xs[l.length] = a := by simpa [hi] using ha
  exact ⟨l, r, hl, by rw [Array.toList_modify, hm], rfl⟩

end Modify

end Custody

namespace Custody.Heap

attribute [local simp] emit measure breach updateBlock updateObject withLinks

variable {h : Heap} {b : BlockId} {o : ObjectId} {a : Alloc} {x : Block}

theorem ledger_congr {h h' : Heap} (hg : h'.global = h.global) (ha : h'.arena = h.arena) :
    h'.ledger = h.ledger := by
  funext a
  cases a
  · exact hg
  · exact ha

/-! ## Counts -/

theorem strongCount_eq (hx : h.blocks[b]? = some x) : h.strongCount b = x.strong := by
  simp [strongCount, hx]

theorem weakCount_eq (hx : h.blocks[b]? = some x) : h.weakCount b = x.weak := by
  simp [weakCount, hx]

/-! ## Requests -/

@[simp] theorem blocks_request (a : Alloc) (l : Layout) : (h.request a l).1.blocks = h.blocks := by
  unfold request
  cases a <;> dsimp only <;> split <;> split <;> rfl

@[simp] theorem objects_request (a : Alloc) (l : Layout) :
    (h.request a l).1.objects = h.objects := by
  unfold request
  cases a <;> dsimp only <;> split <;> split <;> rfl

@[simp] theorem blocks_giveBack (a : Alloc) (n : Nat) (l : Layout) :
    (h.giveBack a n l).blocks = h.blocks := by
  unfold giveBack
  cases a <;> dsimp only <;> split <;> rfl

@[simp] theorem objects_giveBack (a : Alloc) (n : Nat) (l : Layout) :
    (h.giveBack a n l).objects = h.objects := by
  unfold giveBack
  cases a <;> dsimp only <;> split <;> rfl

theorem ledger_updateLedger (a a' : Alloc) (f : Ledger → Ledger) (h : Heap) :
    (h.updateLedger a f).ledger a' = if a = a' then f (h.ledger a') else h.ledger a' := by
  cases a <;> cases a' <;> rfl

@[simp] theorem ledger_emit (e : Event) (h : Heap) : (h.emit e).ledger = h.ledger := rfl

@[simp] theorem ledger_breach (e : Breach) (h : Heap) : (h.breach e).ledger = h.ledger := rfl

/-- A request is refused when the budget is used up, and then nothing is handed out. -/
theorem request_refused (l : Layout) (hr : (h.ledger a).isExhausted = true) :
    (h.request a l).2 = none ∧ (h.request a l).1.ledger = h.ledger := by
  unfold request
  by_cases hl : l.size = 0 <;> simp [hl, hr, -breach, -emit]

theorem request_granted (l : Layout) (hr : (h.ledger a).isExhausted = false) :
    (h.request a l).2 = some ((h.ledger a).allocations.size + 1) ∧
    ∀ a', (h.request a l).1.ledger a' =
      if a = a' then (h.ledger a').grant l else h.ledger a' := by
  unfold request
  by_cases hl : l.size = 0 <;> simp [hl, hr, ledger_updateLedger, -breach, -emit]

theorem ledger_giveBack (a a' : Alloc) (n : Nat) (l : Layout) :
    (h.giveBack a n l).ledger a' = if a = a' then (h.ledger a').giveBack n else h.ledger a' := by
  unfold giveBack
  by_cases hl : (h.ledger a).holds n l = true <;> simp [hl, ledger_updateLedger, -breach, -emit]

@[simp] theorem breaches_emit (e : Event) (h : Heap) : (h.emit e).breaches = h.breaches := rfl

@[simp] theorem breaches_updateLedger (a : Alloc) (f : Ledger → Ledger) (h : Heap) :
    (h.updateLedger a f).breaches = h.breaches := by
  cases a <;> rfl

theorem breaches_request {l : Layout} (hl : l.size ≠ 0) :
    (h.request a l).1.breaches = h.breaches := by
  unfold request
  simp only [hl, ↓reduceIte]
  split <;> simp

theorem breaches_request_block (s : Bool) :
    (h.request a (.block s)).1.breaches = h.breaches :=
  breaches_request (Layout.size_block s)

theorem breaches_giveBack {n : Nat} {l : Layout} (hl : (h.ledger a).holds n l = true) :
    (h.giveBack a n l).breaches = h.breaches := by
  simp [giveBack, hl]

/-! ## Expectations -/

section Expect

variable (b : BlockId) (ok : Block → Bool) (e : Breach)

theorem expect_eq (h : Heap) :
    h.expect b ok e = { h with breaches := (h.expect b ok e).breaches } := by
  unfold expect
  split
  · rfl
  · split
    · rfl
    · split <;> rfl

@[simp] theorem blocks_expect : (h.expect b ok e).blocks = h.blocks := by rw [expect_eq]

@[simp] theorem objects_expect : (h.expect b ok e).objects = h.objects := by rw [expect_eq]

@[simp] theorem ledger_expect : (h.expect b ok e).ledger = h.ledger :=
  ledger_congr (by rw [expect_eq]) (by rw [expect_eq])

@[simp] theorem strongCount_expect (b' : BlockId) :
    (h.expect b ok e).strongCount b' = h.strongCount b' := by
  simp [strongCount]

@[simp] theorem weakCount_expect (b' : BlockId) :
    (h.expect b ok e).weakCount b' = h.weakCount b' := by
  simp [weakCount]

variable {b}

theorem expect_eq_self (hx : h.blocks[b]? = some x) (hf : x.freed = false) (hok : ok x = true) :
    h.expect b ok e = h := by
  simp [expect, hx, hf, hok]

end Expect

/-! ## Counters -/

@[simp] theorem blocks_addStrong :
    (h.addStrong b).blocks = h.blocks.modify b fun x => { x with strong := x.strong + 1 } := by
  simp [addStrong]

@[simp] theorem objects_addStrong : (h.addStrong b).objects = h.objects := by simp [addStrong]

@[simp] theorem ledger_addStrong : (h.addStrong b).ledger = h.ledger := by
  rw [addStrong, ← ledger_expect b (0 < ·.strong) .expiredOwner (h := h)]
  rfl

@[simp] theorem blocks_recordExpiredLock : (h.recordExpiredLock b).blocks = h.blocks := by
  simp [recordExpiredLock]

@[simp] theorem objects_recordExpiredLock : (h.recordExpiredLock b).objects = h.objects := by
  simp [recordExpiredLock]

@[simp] theorem ledger_recordExpiredLock : (h.recordExpiredLock b).ledger = h.ledger := by
  rw [← ledger_expect b (fun _ => true) .freedBlock (h := h)]
  rfl

theorem blocks_addStrongIfAlive (hb : h.strongCount b ≠ 0) :
    (h.addStrongIfAlive b).blocks =
      h.blocks.modify b fun x => { x with strong := x.strong + 1 } := by
  simp [addStrongIfAlive, hb]

@[simp] theorem objects_addStrongIfAlive : (h.addStrongIfAlive b).objects = h.objects := by
  unfold addStrongIfAlive
  split <;> simp

@[simp] theorem ledger_addStrongIfAlive : (h.addStrongIfAlive b).ledger = h.ledger := by
  unfold addStrongIfAlive
  split
  · simp
  · rw [← ledger_expect b (fun _ => true) .freedBlock (h := h)]
    rfl

@[simp] theorem blocks_addWeak :
    (h.addWeak b).blocks = h.blocks.modify b fun x => { x with weak := x.weak + 1 } := by
  simp [addWeak]

@[simp] theorem objects_addWeak : (h.addWeak b).objects = h.objects := by simp [addWeak]

@[simp] theorem ledger_addWeak : (h.addWeak b).ledger = h.ledger := by
  rw [addWeak, ← ledger_expect b (fun _ => true) .freedBlock (h := h)]
  rfl

theorem releaseStrong_snd : (h.releaseStrong b).2 = (h.strongCount b == 1) := by
  simp only [releaseStrong, strongCount_expect]
  split <;> simp_all

@[simp] theorem blocks_releaseStrong :
    (h.releaseStrong b).1.blocks =
      h.blocks.modify b fun x => { x with strong := x.strong - 1 } := by
  simp only [releaseStrong]
  split <;> simp

@[simp] theorem objects_releaseStrong : (h.releaseStrong b).1.objects = h.objects := by
  simp only [releaseStrong]
  split <;> simp

@[simp] theorem ledger_releaseStrong : (h.releaseStrong b).1.ledger = h.ledger := by
  rw [← ledger_expect b (0 < ·.strong) .strongUnderflow (h := h)]
  simp only [releaseStrong]
  split <;> rfl

@[simp] theorem blocks_takePointee :
    (h.takePointee b).1.blocks = h.blocks.modify b fun x => { x with pointee := none } := by
  simp [takePointee]

@[simp] theorem objects_takePointee : (h.takePointee b).1.objects = h.objects := by
  simp [takePointee]

@[simp] theorem ledger_takePointee : (h.takePointee b).1.ledger = h.ledger := by
  rw [← ledger_expect b (·.pointee.isSome) .disposedTwice (h := h)]
  rfl

/-- The last strong owner leaves, and the pointee with it. -/
theorem blocks_takePointee_releaseStrong :
    ((h.releaseStrong b).1.takePointee b).1.blocks =
      h.blocks.modify b fun x => { x with strong := x.strong - 1, pointee := none } := by
  rw [blocks_takePointee, blocks_releaseStrong, Array.modify_modify]

theorem takePointee_snd : (h.takePointee b).2 = h.blocks[b]?.bind (·.pointee) := by
  simp [takePointee]

theorem takePointee_releaseStrong_snd :
    ((h.releaseStrong b).1.takePointee b).2 = h.blocks[b]?.bind (·.pointee) := by
  rw [takePointee_snd, blocks_releaseStrong]
  cases hx : h.blocks[b]? <;> simp [Array.getElem?_modify, hx]

@[simp] theorem blocks_releaseWeak :
    (h.releaseWeak b).blocks = h.blocks.modify b fun x =>
      { x with weak := x.weak - 1, freed := x.freed || x.weak == 1 } := by
  apply Array.ext_getElem?
  intro i
  simp only [releaseWeak, weakCount_expect]
  rw [Array.getElem?_modify]
  split
  · next hl =>
    have hw : ∀ x, h.blocks[b]? = some x → x.weak = 1 := fun x hx => by
      simpa [weakCount, hx] using hl
    split <;> by_cases hi : b = i <;> simp [Array.getElem?_modify, hi]
    all_goals
      subst hi
      cases hx : h.blocks[b]? <;> simp
      simp [hw _ hx]
  · next hl =>
    by_cases hi : b = i <;> simp [Array.getElem?_modify, hi]
    subst hi
    cases hx : h.blocks[b]? with
    | none => simp
    | some x =>
      have : x.weak ≠ 1 := by simpa [weakCount, hx] using hl
      simp [this]

@[simp] theorem objects_releaseWeak : (h.releaseWeak b).objects = h.objects := by
  simp only [releaseWeak]
  split
  · split <;> simp
  · simp

@[simp] theorem blocks_giveUpImplicit :
    (h.giveUpImplicit b).blocks = h.blocks.modify b fun x =>
      { x with implicitWeak := false, weak := x.weak - 1, freed := x.freed || x.weak == 1 } := by
  simp only [giveUpImplicit, blocks_releaseWeak, updateBlock, Array.modify_modify]

@[simp] theorem objects_giveUpImplicit : (h.giveUpImplicit b).objects = h.objects := by
  simp [giveUpImplicit]

/-! ## What is expected -/

section Expected

variable (hx : h.blocks[b]? = some x) (hf : x.freed = false)

include hx hf

theorem breaches_addStrong (hs : 0 < x.strong) : (h.addStrong b).breaches = h.breaches := by
  rw [addStrong, expect_eq_self _ _ hx hf (by simpa)]
  rfl

theorem breaches_recordExpiredLock : (h.recordExpiredLock b).breaches = h.breaches := by
  rw [recordExpiredLock, expect_eq_self _ _ hx hf rfl]
  rfl

theorem breaches_addStrongIfAlive : (h.addStrongIfAlive b).breaches = h.breaches := by
  unfold addStrongIfAlive
  split
  · exact breaches_recordExpiredLock hx hf
  · rw [expect_eq_self _ _ hx hf rfl]
    rfl

theorem breaches_addWeak : (h.addWeak b).breaches = h.breaches := by
  rw [addWeak, expect_eq_self _ _ hx hf rfl]
  rfl

theorem breaches_releaseStrong (hs : 0 < x.strong) :
    (h.releaseStrong b).1.breaches = h.breaches := by
  simp only [releaseStrong, expect_eq_self (0 < ·.strong) .strongUnderflow hx hf (by simpa)]
  split <;> rfl

theorem breaches_takePointee (hp : x.pointee.isSome = true) :
    (h.takePointee b).1.breaches = h.breaches := by
  simp only [takePointee, expect_eq_self (·.pointee.isSome) .disposedTwice hx hf hp]
  rfl

end Expected

/-- One of several strong owners goes. -/
theorem releaseStrong_others (hx : h.blocks[b]? = some x) (hf : x.freed = false)
    (hs : 0 < x.strong) (others : x.strong ≠ 1) :
    (h.releaseStrong b).1 = h.updateBlock b fun x => { x with strong := x.strong - 1 } := by
  have hexpect := expect_eq_self (0 < ·.strong) .strongUnderflow hx hf (by simpa)
  have hlast : (h.strongCount b == 1) = false := by simpa [strongCount_eq hx] using others
  simp only [releaseStrong, hexpect, hlast, Bool.false_eq_true, ↓reduceIte]

/-- With the last strong owner the pointee leaves, and that is told. -/
theorem takePointee_releaseStrong (hx : h.blocks[b]? = some x) (hf : x.freed = false)
    (last : x.strong = 1) (hp : x.pointee.isSome = true) :
    ((h.releaseStrong b).1.takePointee b).1 =
      { h with
        blocks := h.blocks.modify b fun x => { x with strong := x.strong - 1, pointee := none }
        metrics := h.metrics.recordPointeeDisposed
        log := h.log.push (.pointeeDisposed x.id) } := by
  have hexpect := expect_eq_self (0 < ·.strong) .strongUnderflow hx hf (by simp [last])
  have hlast : (h.strongCount b == 1) = true := by simp [strongCount_eq hx, last]
  have hx' : (h.updateBlock b fun x => { x with strong := x.strong - 1 }).blocks[b]? =
      some { x with strong := x.strong - 1 } := by
    simp [Array.getElem?_modify, hx]
  have hid : (h.updateBlock b fun x => { x with strong := x.strong - 1 }).idOf b = x.id := by
    rw [idOf, hx']
    rfl
  simp only [releaseStrong, hexpect, hlast, ↓reduceIte]
  rw [takePointee, expect_eq_self (h := (measure _ (updateBlock b _ h)).emit _)
    (·.pointee.isSome) .disposedTwice hx' hf hp]
  simp only [measure, emit, updateBlock, Array.modify_modify] at hid ⊢
  rw [hid]

/-- One of several weak references goes. -/
theorem releaseWeak_others (hx : h.blocks[b]? = some x) (hf : x.freed = false)
    (hw : 0 < x.weak) (others : x.weak ≠ 1) :
    h.releaseWeak b = h.updateBlock b fun x => { x with weak := x.weak - 1 } := by
  have hexpect := expect_eq_self (0 < ·.weak) .weakUnderflow hx hf (by simpa)
  have hlast : (h.weakCount b == 1) = false := by simpa [weakCount_eq hx] using others
  simp only [releaseWeak, hexpect, hlast, Bool.false_eq_true, ↓reduceIte]

/-- With the last weak reference the memory of the block is given back. -/
theorem releaseWeak_last (hx : h.blocks[b]? = some x) (hf : x.freed = false) (last : x.weak = 1)
    (hs : x.strong = 0) :
    h.releaseWeak b =
      giveBack x.alloc x.serial (.block x.kind.isSized)
        { h with
          blocks := h.blocks.modify b fun x => { x with weak := x.weak - 1, freed := true }
          metrics := h.metrics.recordBlockFreed
          log := h.log.push (.blockFreed x.id) } := by
  have hexpect := expect_eq_self (0 < ·.weak) .weakUnderflow hx hf (by simp [last])
  have hlast : (h.weakCount b == 1) = true := by simp [weakCount_eq hx, last]
  have hx' : (h.updateBlock b fun x => { x with weak := x.weak - 1 }).blocks[b]? =
      some { x with weak := x.weak - 1 } := by
    simp [Array.getElem?_modify, hx]
  have hexpect' := expect_eq_self (·.strong = 0) .freedWhileOwned hx' hf (by simpa)
  have hid : (h.updateBlock b fun x => { x with weak := x.weak - 1 }).idOf b = x.id := by
    rw [idOf, hx']
    rfl
  simp only [releaseWeak, hexpect, hlast, ↓reduceIte, hexpect']
  split
  · next y hy =>
    obtain rfl : y = { x with weak := x.weak - 1, freed := true } := by
      simpa [Array.getElem?_modify, hx, eq_comm] using hy
    simp only [measure, emit, updateBlock, Array.modify_modify] at hid ⊢
    rw [hid]
  · next hy => simp [Array.getElem?_modify, hx] at hy

/-! ## New blocks -/

section CreateBlock

variable {k : Kind} {l : Layout} {h' : Heap}

/-- A block that is granted is the next one, and its id the next attempt. -/
theorem createBlock_ok (hc : h.createBlock k a o = (h', .ok b)) :
    b = h.blocks.size ∧ h'.objects = h.objects ∧
      ∃ n, ({ h with nextId := h.nextId + 1 }.request a (.block k.isSized)).2 = some n ∧
        h'.blocks = h.blocks.push
          { id := h.newId, kind := k, alloc := a, serial := n, pointee := some o } ∧
        h'.ledger = ({ h with nextId := h.nextId + 1 }.request a (.block k.isSized)).1.ledger ∧
        h'.breaches =
          ({ h with nextId := h.nextId + 1 }.request a (.block k.isSized)).1.breaches := by
  simp only [createBlock] at hc
  split at hc
  · cases hc
  · next n hn =>
    cases hc
    refine ⟨by simp, by simp, n, hn, by simp, rfl, rfl⟩

theorem createBlock_error (hc : h.createBlock k a o = (h', .error l)) :
    l = .block k.isSized ∧ h'.objects = h.objects ∧ h'.blocks = h.blocks ∧
      ({ h with nextId := h.nextId + 1 }.request a (.block k.isSized)).2 = none ∧
      h'.ledger = ({ h with nextId := h.nextId + 1 }.request a (.block k.isSized)).1.ledger ∧
      h'.breaches = ({ h with nextId := h.nextId + 1 }.request a (.block k.isSized)).1.breaches := by
  simp only [createBlock] at hc
  split at hc
  · next hn =>
    cases hc
    exact ⟨rfl, by simp, by simp, hn, rfl, rfl⟩
  · cases hc

end CreateBlock

/-! ## Objects -/

/-- What a construction adds: an object in the memory that it was granted, if it needs any. -/
theorem construct_eq {p : Pointee} {h' : Heap} {r : Option Layout}
    (hc : h.construct p a = (h', o, r)) :
    o = h.objects.size ∧ h'.blocks = h.blocks ∧ ∃ serial,
      h'.objects = h.objects.push
        { content := p.content, onDrop := p.onDrop, alloc := a, serial := serial } ∧
      ((p.content.layout.size = 0 ∧ serial = none ∧ h'.ledger = h.ledger ∧
          h'.breaches = h.breaches) ∨
        (p.content.layout.size ≠ 0 ∧ serial = (h.request a p.content.layout).2 ∧
          h'.ledger = (h.request a p.content.layout).1.ledger ∧
          h'.breaches = (h.request a p.content.layout).1.breaches)) := by
  simp only [construct] at hc
  split at hc
  · next hl =>
    cases hc
    exact ⟨rfl, rfl, none, rfl, .inl ⟨hl, rfl, rfl, rfl⟩⟩
  · next hl =>
    cases hc
    exact ⟨by simp [addObject], by simp [addObject], _, by simp [addObject],
      .inr ⟨hl, rfl, rfl, rfl⟩⟩

theorem breaches_construct {p : Pointee} {h' : Heap} {r : Option Layout}
    (hc : h.construct p a = (h', o, r)) : h'.breaches = h.breaches := by
  obtain ⟨-, -, -, -, ⟨-, -, -, hb⟩ | ⟨hl, -, -, hb⟩⟩ := construct_eq hc
  · exact hb
  · rw [hb, breaches_request hl]

@[simp] theorem blocks_beginDestruction : (h.beginDestruction o).1.blocks = h.blocks := by
  unfold beginDestruction
  split
  · dsimp only
    split <;> rfl
  · rfl

@[simp] theorem objects_beginDestruction :
    (h.beginDestruction o).1.objects =
      h.objects.modify o fun x => { x with phase := .dying, onDrop := [] } := by
  unfold beginDestruction
  split
  · dsimp only
    split <;> rfl
  · next hx => exact (Array.modify_eq_self _ hx).symm

@[simp] theorem ledger_beginDestruction : (h.beginDestruction o).1.ledger = h.ledger := by
  unfold beginDestruction
  split
  · dsimp only
    split <;> rfl
  · rfl

/-- The destructor of what is alive starts. -/
theorem beginDestruction_eq {x : Object} (hx : h.objects[o]? = some x) (hp : x.phase = .alive) :
    (h.beginDestruction o).1 =
      h.updateObject o fun x => { x with phase := .dying, onDrop := [] } := by
  simp [beginDestruction, hx, hp]

theorem breaches_beginDestruction {x : Object} (hx : h.objects[o]? = some x)
    (hp : x.phase = .alive) : (h.beginDestruction o).1.breaches = h.breaches := by
  simp [beginDestruction, hx, hp]

@[simp] theorem blocks_endDestruction : (h.endDestruction o).blocks = h.blocks := by
  unfold endDestruction
  split
  · dsimp only
    split <;> simp
  · rfl

@[simp] theorem objects_endDestruction :
    (h.endDestruction o).objects = h.objects.modify o fun x => { x with phase := .gone } := by
  unfold endDestruction
  split
  · dsimp only
    split <;> simp
  · next hx => exact (Array.modify_eq_self _ hx).symm

/-- The memory of an object is returned as it is declared gone. -/
theorem endDestruction_eq {x : Object} (hx : h.objects[o]? = some x) :
    h.endDestruction o =
      match x.serial with
      | some n => (h.updateObject o fun x => { x with phase := .gone }).giveBack x.alloc n
          x.content.layout
      | none => h.updateObject o fun x => { x with phase := .gone } := by
  unfold endDestruction
  split
  · next y hy =>
    rw [hx] at hy
    cases hy
    cases x.serial <;> rfl
  · next hnone =>
    rw [hx] at hnone
    cases hnone

@[simp] theorem blocks_write (p : Place) (c : Content) : (h.write p c).blocks = h.blocks := by
  unfold write
  split <;> rfl

@[simp] theorem ledger_write (p : Place) (c : Content) : (h.write p c).ledger = h.ledger := by
  unfold write
  split <;> rfl

@[simp] theorem breaches_write (p : Place) (c : Content) : (h.write p c).breaches = h.breaches := by
  unfold write
  split <;> rfl

@[simp] theorem size_objects_write (p : Place) (c : Content) :
    (h.write p c).objects.size = h.objects.size := by
  unfold write
  split <;> simp

theorem objects_write_object {p : Place} (hp : p.origin = .object o) (c : Content) :
    (h.write p c).objects = h.objects.modify o fun x =>
      { x with content := Content.withAt p.path c x.content } := by
  simp [write, hp]

theorem objects_write_static {p : Place} {s : Static} (hp : p.origin = .static s) (c : Content) :
    (h.write p c).objects = h.objects := by
  simp [write, hp]

end Custody.Heap

/-! ## Pointers -/

namespace Custody

variable {h : Heap}

@[simp] theorem Strong.objects_acquire (block : Option BlockId) (h : Heap) :
    (Strong.acquire block h).objects = h.objects := by
  cases block with
  | none => rfl
  | some b => exact Heap.objects_addStrong

@[simp] theorem Weak.objects_acquire (block : Option BlockId) (h : Heap) :
    (Weak.acquire block h).objects = h.objects := by
  cases block with
  | none => rfl
  | some b => exact Heap.objects_addWeak

@[simp] theorem Strong.objects_assign (p source : Strong) (h : Heap) :
    (p.assign source h).1.objects = h.objects := by
  unfold assign
  split <;> simp

@[simp] theorem Weak.objects_assign (w source : Weak) (h : Heap) :
    (w.assign source h).1.objects = h.objects := by
  unfold assign
  split <;> simp

@[simp] theorem Weak.objects_lock? (w : Weak) (h : Heap) : (w.lock? h).1.objects = h.objects := by
  unfold lock?
  split
  · rfl
  · split <;> simp

@[simp] theorem Unique.objects_promote (u : Unique) (h : Heap) :
    (u.promote h).1.objects = h.objects := by
  unfold promote
  split
  · rfl
  · split
    · next hc => exact (Heap.createBlock_ok hc).2.1
    · next hc => exact (Heap.createBlock_error hc).2.1

@[simp] theorem Strong.objects_adopt (r : Raw) (h : Heap) :
    (Strong.adopt r h).1.objects = h.objects := by
  have hp := Unique.objects_promote ⟨r.kind, r.alloc, some r.object⟩ h
  unfold adopt
  split <;> simp_all

end Custody
