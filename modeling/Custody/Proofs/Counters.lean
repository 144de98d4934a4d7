import Custody.Proofs.Disposal

/-!
# The counters of a block

* `Machine.Accurate`: what the counters of a block say of the pointers that exist at a moment.
* `Machine.IsRationed.accurate`: so it is of every block, at every moment of a run.
-/

namespace Custody

namespace Machine

/-- What block `b`, in state `x` at moment `n`, says of the pointers that exist. -/
structure Accurate (run : Nat → Machine) (n : Nat) (b : BlockId) (x : Block) : Prop where
  strong : x.strong = (run n).strongs b
  weak : x.weak = (run n).weaks b + if x.implicitWeak then 1 else 0
  /-- No more than the weak counter is taken off for the observers. -/
  implicit : (if x.implicitWeak then 1 else 0) ≤ x.weak
  /-- The block was made with its implicit reference and a pointee. -/
  born : ∃ i < n, (run i).heap.blocks[b]? = none ∧ ∃ y o,
    (run (i + 1)).heap.blocks[b]? = some y ∧ y.pointee = some o ∧ y.implicitWeak = true
  /-- The implicit reference is there while there are owners, and while what follows the last of
  them is still to be done. -/
  due : x.implicitWeak = true ↔ 0 < (run n).strongs b ∨ .giveUpImplicit b ∈ (run n).env.agenda
  /-- It goes after the pointee is gone, and that is what is done next. -/
  disposed : ∀ i y o, i ≤ n → (run i).heap.blocks[b]? = some y → y.pointee = some o →
    (x.implicitWeak = false → (run n).heap.phase? o = some .gone) ∧
    ((run n).heap.phase? o = some .gone →
      x.implicitWeak = false ∨ ∃ rest, (run n).env.agenda = .giveUpImplicit b :: rest)
  strongCounts : ∀ p : Strong, p.block = some b →
    p.use (run n).heap = (run n).strongs b ∧ p.observers (run n).heap = (run n).weaks b
  weakCounts : ∀ w : Weak, w.block = some b →
    w.use (run n).heap = (run n).strongs b ∧ w.observers (run n).heap = (run n).weaks b

/-- The counters of every block are accurate, also inside destructors and while operations are in
progress, whatever the allocators refuse. -/
theorem IsRationed.accurate {run : Nat → Machine} {n : Nat} {b : BlockId} {x : Block}
    (hr : IsRationed run) (hx : (run n).heap.blocks[b]? = some x) : Accurate run n b x := by
  have hm := hr.reachable n
  have hstrong := hm.strong_eq hx
  have hweak : x.weak = (run n).weaks b + if x.implicitWeak then 1 else 0 := by
    rw [hm.weak_eq hx]
    cases x.implicitWeak <;> rfl
  have huse : (run n).heap.strongCount b = (run n).strongs b := by
    rw [Heap.strongCount_eq hx, hstrong]
  have hobservers : (run n).heap.observerCount b = (run n).weaks b := by
    rw [Heap.observerCount, hx, Option.map_some, Option.getD_some, Block.observers, hweak]
    omega
  constructor
  case strong => exact hstrong
  case weak => exact hweak
  case implicit => omega
  case born =>
    obtain ⟨i, hi, hnone, y, hy, hne⟩ := hr.born hx
    have hy' := (hr.reachable (i + 1)).counted b y hy
    obtain ⟨o, ho⟩ := Option.isSome_iff_exists.mp (hy'.pointee.mpr hne)
    refine ⟨i, hi, hnone, y, o, hy, ho, ?_⟩
    have himplicit := hy'.implicit
    cases h : y.implicitWeak
    · rw [h, Bool.toNat_false] at himplicit
      omega
    · rfl
  case due => exact hm.implicitWeak_iff hx
  case disposed =>
    intro i y o hi hy ho
    have hcourse := hr.course hy ho hi
    exact ⟨hm.gone_of_implicitWeak hcourse hx, hm.implicitWeak_of_gone hcourse hx⟩
  case strongCounts =>
    intro p hp
    simp only [Strong.use, Strong.observers, hp, Option.map_some, Option.getD_some]
    exact ⟨huse, hobservers⟩
  case weakCounts =>
    intro w hw
    simp only [Weak.use, Weak.observers, hw, Option.map_some, Option.getD_some]
    exact ⟨huse, hobservers⟩

/-- In the destructor of the node the strong counter is zero, and the implicit reference is there. -/
theorem accurate_selfObserving :
    ∃ x, (moment selfObserving false 12).heap.blocks[0]? = some x ∧ x.strong = 0 ∧ x.weak = 2 ∧
      Accurate (moment selfObserving false) 12 0 x :=
  ⟨_, rfl, rfl, rfl, IsRationed.accurate (isRationed_moment _ _) rfl⟩

end Machine

end Custody
