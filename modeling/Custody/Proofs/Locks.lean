import Custody.Proofs.Faults

/-!
# One reference more, one fewer

On a block that is not freed an operation on its counters does what it says, and nothing else.

* `Heap.addStrong_eq`, `Heap.addWeak_eq`: one reference more.
* `Heap.locked`, `Heap.lockRefused`, `Heap.unlocked`: the two ends of an attempt to lock a weak
  pointer, and the end of a lock.
* `Weak.lock?_granted`, `Weak.lock?_refused`, `Weak.lock?_null`: when it ends so.
* `Machine.dropSlot_strong`, `Machine.dropSlot_weak`: one of several references is dropped.
-/

namespace Custody

namespace Heap

variable {h : Heap} {b : BlockId} {x : Block} {f g : Block → Block}

theorem updateBlock_updateBlock :
    (h.updateBlock b f).updateBlock b g = h.updateBlock b fun x => g (f x) := by
  simp only [updateBlock, Array.modify_modify]

theorem updateBlock_eq_self (hf : ∀ x, f x = x) : h.updateBlock b f = h := by
  have hself : h.blocks.modify b f = h.blocks := by
    apply Array.ext_getElem?
    intro i
    rw [Array.getElem?_modify, funext hf]
    split
    · exact Option.map_id'
    · rfl
  rw [updateBlock, hself]

/-- An attempt to lock a weak pointer on the block is granted. -/
def locked (b : BlockId) (h : Heap) : Heap :=
  { h with
    blocks := h.blocks.modify b fun x => { x with strong := x.strong + 1 }
    metrics := h.metrics.recordLock true
    log := h.log.push (.lock (h.idOf b)) }

/-- An attempt to lock a weak pointer on the block is refused. -/
def lockRefused (b : BlockId) (h : Heap) : Heap :=
  { h with
    metrics := h.metrics.recordLock false
    log := h.log.push (.lockExpired (h.idOf b)) }

/-- The lock is over. -/
def unlocked (b : BlockId) (h : Heap) : Heap :=
  { h with
    metrics := h.metrics.recordLock true
    log := h.log.push (.lock (h.idOf b)) }

theorem getElem?_locked (hx : h.blocks[b]? = some x) :
    (h.locked b).blocks[b]? = some { x with strong := x.strong + 1 } :=
  Array.getElem?_modify_self _ hx

/-- The block has one owner more. -/
theorem strongCount_locked (hx : h.blocks[b]? = some x) (b' : BlockId) :
    (h.locked b).strongCount b' = h.strongCount b' + if b' = b then 1 else 0 := by
  by_cases hb : b' = b
  · subst hb
    rw [strongCount_eq (getElem?_locked hx), strongCount_eq hx, if_pos rfl]
  · rw [if_neg hb, strongCount, locked, Array.getElem?_modify, if_neg (Ne.symm hb), strongCount]
    rfl

theorem weakCount_locked (b' : BlockId) : (h.locked b).weakCount b' = h.weakCount b' := by
  rw [weakCount, locked, Array.getElem?_modify]
  split
  · rw [Option.map_map]
    rfl
  · rfl

/-- When the owner is given up again, each block is as it was before the lock. -/
theorem updateBlock_locked (b : BlockId) (h : Heap) :
    (h.locked b).updateBlock b (fun x => { x with strong := x.strong - 1 }) = h.unlocked b := by
  have hself : (h.updateBlock b fun x => { x with strong := x.strong + 1 }).updateBlock b
      (fun x => { x with strong := x.strong - 1 }) = h := by
    rw [updateBlock_updateBlock]
    exact updateBlock_eq_self fun _ => rfl
  have hblocks := congrArg Heap.blocks hself
  simp only [updateBlock] at hblocks
  simp only [locked, unlocked, updateBlock, hblocks]

section

variable (hx : h.blocks[b]? = some x) (hf : x.freed = false)

include hx hf

theorem addStrong_eq (hs : 0 < x.strong) :
    h.addStrong b = h.updateBlock b fun x => { x with strong := x.strong + 1 } := by
  rw [addStrong, expect_eq_self _ _ hx hf (by simpa)]

theorem addWeak_eq : h.addWeak b = h.updateBlock b fun x => { x with weak := x.weak + 1 } := by
  rw [addWeak, expect_eq_self _ _ hx hf rfl]

theorem recordExpiredLock_eq : h.recordExpiredLock b = h.lockRefused b := by
  rw [recordExpiredLock, expect_eq_self _ _ hx hf rfl]
  rfl

theorem addStrongIfAlive_eq (hs : x.strong ≠ 0) : h.addStrongIfAlive b = h.locked b := by
  have hid : (h.updateBlock b fun x => { x with strong := x.strong + 1 }).idOf b = h.idOf b := by
    simp only [idOf, updateBlock, Array.getElem?_modify_self _ hx, hx]
    rfl
  rw [addStrongIfAlive, strongCount_eq hx, if_neg hs, expect_eq_self _ _ hx hf rfl]
  dsimp only
  rw [hid]
  rfl

end

end Heap

namespace Weak

variable {h : Heap} {b : BlockId} {x : Block} {w : Weak}

/-- The strong pointer that a lock of the weak pointer makes. -/
def owner (w : Weak) : Strong := ⟨w.kind, w.block, w.view⟩

theorem lock?_null (hb : w.block = none) : w.lock? h = (h, none) := by
  rw [lock?, hb]

/-- A lock is granted where there is an owner, and makes another one. -/
theorem lock?_granted (hb : w.block = some b) (hx : h.blocks[b]? = some x) (hf : x.freed = false)
    (hs : x.strong ≠ 0) : w.lock? h = (h.locked b, some w.owner) := by
  rw [lock?, hb]
  simp only [Heap.strongCount_eq hx, hs, ↓reduceIte, Heap.addStrongIfAlive_eq hx hf hs]
  rw [owner, hb]

theorem lock?_refused (hb : w.block = some b) (hx : h.blocks[b]? = some x) (hf : x.freed = false)
    (hs : x.strong = 0) : w.lock? h = (h.lockRefused b, none) := by
  rw [lock?, hb]
  simp only [Heap.strongCount_eq hx, hs, ↓reduceIte, Heap.recordExpiredLock_eq hx hf]

end Weak

namespace Machine

variable {h : Heap} {env : Environment} {b : BlockId} {x : Block} {k : Kind} {v : Option Place}

/-- An owner is dropped that is not the last one. -/
theorem dropSlot_strong (hx : h.blocks[b]? = some x) (hf : x.freed = false) (hs : 1 < x.strong) :
    dropSlot (.strong ⟨k, some b, v⟩) ⟨h, env⟩ =
      ⟨h.updateBlock b fun x => { x with strong := x.strong - 1 }, env⟩ := by
  have others : h.strongCount b ≠ 1 := by
    rw [Heap.strongCount_eq hx]
    omega
  rw [dropSlot, releaseOwner_others others, Heap.releaseStrong_others hx hf (by omega) (by omega)]

/-- A weak pointer is dropped that is not the last reference. -/
theorem dropSlot_weak (hx : h.blocks[b]? = some x) (hf : x.freed = false) (hw : 1 < x.weak) :
    dropSlot (.weak ⟨k, some b, v⟩) ⟨h, env⟩ =
      ⟨h.updateBlock b fun x => { x with weak := x.weak - 1 }, env⟩ := by
  rw [dropSlot]
  simp only [mapHeap]
  rw [Heap.releaseWeak_others hx hf (by omega) (by omega)]

theorem step_drop_strong {m : Machine} {rest : List Action}
    (ha : m.env.agenda = .drop (.strong ⟨k, some b, v⟩) :: rest) (hx : m.heap.blocks[b]? = some x)
    (hf : x.freed = false) (hs : 1 < x.strong) :
    m.step = ⟨m.heap.updateBlock b fun x => { x with strong := x.strong - 1 },
      { m.env with agenda := rest }⟩ := by
  rw [step_eq_perform (next?_of_agenda ha), perform]
  exact dropSlot_strong hx hf hs

end Machine

end Custody
