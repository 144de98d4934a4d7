import Custody.Proofs.Descent
import Custody.Proofs.Locks

/-!
# Locks

A weak pointer that comes of a downgrade is locked as long as its block has owners, wherever it has
been since.

* `Strong.Locking`: what an attempt to lock it comes to.
* `Machine.Locks`, `Machine.IsRationed.locks`: at every moment, for every such pointer.
-/

namespace Custody

/-- What an attempt to lock a weak pointer that came of a downgrade of `p` comes to in heap `h`. -/
structure Strong.Locking (p : Strong) (h : Heap) : Prop where
  succeeds : (p.observer.lock? h).2.isSome = true ↔ ∃ b, p.block = some b ∧ 0 < h.strongCount b
  /-- The pointer that is made has the block and the view that `p` had. -/
  granted : ∀ b, p.block = some b → 0 < h.strongCount b →
    p.observer.lock? h = (h.locked b, some p) ∧
    (∀ b', (h.locked b).strongCount b' = h.strongCount b' + if b' = b then 1 else 0) ∧
    ∀ b', (h.locked b).weakCount b' = h.weakCount b'
  /-- No counter shows that there was a lock. -/
  released : ∀ b env, p.block = some b → 0 < h.strongCount b →
    Machine.dropSlot (.strong p) ⟨h.locked b, env⟩ = ⟨h.unlocked b, env⟩ ∧
    (h.unlocked b).blocks = h.blocks
  refused : ∀ b, p.block = some b → h.strongCount b = 0 →
    p.observer.lock? h = (h.lockRefused b, none) ∧ (h.lockRefused b).blocks = h.blocks
  null : p.block = none → p.observer.lock? h = (h, none)

namespace Strong

variable {p : Strong} {h : Heap}

/-- A lock is granted as long as the block has an owner. -/
theorem locking (hp : ∀ b, p.block = some b → ∃ x, h.blocks[b]? = some x ∧ x.freed = false) :
    p.Locking h := by
  have hgranted (b : BlockId) (hb : p.block = some b) (hs : 0 < h.strongCount b) :
      p.observer.lock? h = (h.locked b, some p) := by
    obtain ⟨x, hx, hf⟩ := hp b hb
    rw [Heap.strongCount_eq hx] at hs
    exact Weak.lock?_granted hb hx hf (Nat.ne_of_gt hs)
  have hrefused (b : BlockId) (hb : p.block = some b) (hs : h.strongCount b = 0) :
      p.observer.lock? h = (h.lockRefused b, none) := by
    obtain ⟨x, hx, hf⟩ := hp b hb
    rw [Heap.strongCount_eq hx] at hs
    exact Weak.lock?_refused hb hx hf hs
  constructor
  case succeeds =>
    constructor
    · intro hsome
      cases hb : p.block with
      | none =>
        rw [Weak.lock?_null hb] at hsome
        cases hsome
      | some b =>
        refine ⟨b, rfl, Nat.pos_of_ne_zero fun hs => ?_⟩
        rw [hrefused b hb hs] at hsome
        cases hsome
    · rintro ⟨b, hb, hs⟩
      rw [hgranted b hb hs]
      rfl
  case granted =>
    intro b hb hs
    obtain ⟨x, hx, -⟩ := hp b hb
    exact ⟨hgranted b hb hs, Heap.strongCount_locked hx, Heap.weakCount_locked⟩
  case released =>
    intro b env hb hs
    obtain ⟨x, hx, hf⟩ := hp b hb
    obtain ⟨k, _, v⟩ := p
    obtain rfl : _ = some b := hb
    rw [Heap.strongCount_eq hx] at hs
    rw [Machine.dropSlot_strong (Heap.getElem?_locked hx) hf (Nat.lt_add_of_pos_left hs),
      Heap.updateBlock_locked]
    exact ⟨rfl, rfl⟩
  case refused => exact fun b hb hs => ⟨hrefused b hb hs, rfl⟩
  case null => exact fun hb => Weak.lock?_null hb

end Strong

namespace Machine

/-- A weak pointer that came of a downgrade of `p` is at the site. What becomes of attempts to lock
it. -/
structure Locks (m : Machine) (p : Strong) (s : Site) : Prop where
  holds : m.Holds (.weak p.observer) s
  locking : p.Locking m.heap
  /-- A program locks it. It is out of its table, `loc`, during the attempt. -/
  performed : ∀ c src dst loc rest fail, c = (if fail then .tryLock src dst else .lock src dst) →
    m.env.agenda = .exec c :: rest → m.find src = .ok (loc, .weak p.observer) →
    (∃ xs, (m.erase loc).heap = { m.heap with objects := xs }) ∧ p.Locking (m.erase loc).heap ∧
    m.step = ⟨(p.observer.lock? (m.erase loc).heap).1, { (m.erase loc).env with
      agenda := .putBack loc (.weak p.observer) false ::
        p.observer.afterLock dst fail (p.observer.lock? (m.erase loc).heap).2 ::
        (Settlement.letGos [loc.table] ++ rest) }⟩

/-- A weak pointer can be locked as long as its block has an owner, however it came of the pointer
that was downgraded. -/
theorem IsRationed.locks {run : Nat → Machine} {p : Strong} {n : Nat} {s : Site}
    (hr : IsRationed run) (limits : Alloc → Option Nat) (hd : Descends run p n s) :
    Locks ((run n).ration limits) p s := by
  have hblocks (h : Heap) (hh : h.blocks = (run n).heap.blocks) : p.Locking h := by
    refine Strong.locking fun b hb => ?_
    have hmem := pointer_mem_stakes_iff.mpr (hd.holds hr).mem_pointers
    obtain ⟨x, hx, hf, -⟩ := (hr.sound n).block hmem (b := b) hb
    exact ⟨x, hh ▸ hx, hf⟩
  constructor
  case holds => exact (holds_ration limits).mpr (hd.holds hr)
  case locking => exact hblocks _ rfl
  case performed =>
    intro c src dst loc rest fail hc ha hf
    obtain ⟨xs, htaken⟩ := heap_takeOut (m := (run n).ration limits) [loc]
    have herase : (((run n).ration limits).erase loc).heap.blocks = (run n).heap.blocks := by
      show (((run n).ration limits).takeOut [loc]).heap.blocks = _
      rw [htaken]
      rfl
    refine ⟨⟨xs, htaken⟩, hblocks _ herase, ?_⟩
    have hplan : ((run n).ration limits).plan c = .ok (.lock loc p.observer dst fail) := by
      cases fail with
      | false => exact hc ▸ plan_lock hf
      | true => exact hc ▸ plan_tryLock hf
    rw [step_exec ha hplan, call_lock]
    rfl

/-- The destructor of a node tries to lock a copy of a weak pointer to it. -/
def watched : List Step :=
  [.new .node (.node ⟨1, 0, .ofString "", []⟩ [.tryLock ⟨false, [], "v"⟩ ⟨false, [], "q"⟩]) .global
      ⟨false, [], "p"⟩,
    .downgrade ⟨false, [], "p"⟩ ⟨false, [], "w"⟩,
    .clone ⟨false, [], "w"⟩ ⟨false, [], "v"⟩,
    .drop ⟨false, [], "p"⟩]

/-- A lock is granted before the node's only owner is dropped, and refused in the destructor. -/
theorem locks_watched :
    let p : Strong := ⟨.node, some 0, some (.whole 0)⟩
    let run := moment watched false
    Descends run p 11 (.stored ⟨.root, "v"⟩) ∧ 0 < (run 11).heap.strongCount 0 ∧
    Locks (run 11) p (.stored ⟨.root, "v"⟩) ∧
    Descends run p 13 (.stored ⟨.root, "v"⟩) ∧ (run 13).heap.strongCount 0 = 0 ∧
    Locks (run 13) p (.stored ⟨.root, "v"⟩) := by
  intro p run
  have hr : IsRationed run := isRationed_moment _ _
  have h4 : Descends run p 4 (.pending 6) :=
    .downgrade (moment_succ_eq_ration watched false 3) rfl rfl
  have h5 : Descends run p 5 (.pending 6) := h4.moment (.waits rfl (by decide))
  have hw := @Passes.place (run 5) _ _ _ ⟨.root, "w"⟩ _ rfl rfl
  have h6 : Descends run p 6 (.stored ⟨.root, "w"⟩) := h5.moment hw
  have h7 : Descends run p 7 (.stored ⟨.root, "w"⟩) := h6.moment (.stays rfl id)
  have h8 : Descends run p 8 (.pending 4) := h7.moment (.clone rfl rfl)
  have h9 : Descends run p 9 (.pending 4) := h8.moment (.waits rfl (by decide))
  have hv := @Passes.place (run 9) _ _ _ ⟨.root, "v"⟩ _ rfl rfl
  have h10 : Descends run p 10 (.stored ⟨.root, "v"⟩) := h9.moment hv
  have h11 : Descends run p 11 (.stored ⟨.root, "v"⟩) := h10.moment (.stays rfl id)
  have h12 : Descends run p 12 (.stored ⟨.root, "v"⟩) := by
    refine h11.moment (.stays rfl ?_)
    rintro ⟨e, he, hmem⟩
    cases he
    revert hmem
    decide
  have h13 : Descends run p 13 (.stored ⟨.root, "v"⟩) := h12.moment (.stays rfl id)
  have granted := IsRationed.locks hr (fun a => ((run 11).heap.ledger a).budget) h11
  have refused := IsRationed.locks hr (fun a => ((run 13).heap.ledger a).budget) h13
  exact ⟨h11, by decide, granted, h13, by decide, refused⟩

end Machine

end Custody
