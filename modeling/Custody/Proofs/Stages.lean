import Custody.Proofs.Disposal

/-!
# Stages of a block

* `Stage`, `Block.stage`: live, disposing, expired, freed. `Stage.Next`: what one step can lead to.
* `Machine.Unreturning`, `Machine.IsRationed.unreturning`: a block never goes back to a stage, and
  nothing brings a strong owner back.
-/

namespace Custody

/-- How far a block has come. -/
inductive Stage
  | live | disposing | expired | freed
  deriving DecidableEq, Repr

/-- In the stage of disposal the implicit reference outlives the strong owners. -/
def Block.stage (x : Block) : Stage :=
  if x.strong ≠ 0 then .live
  else if x.implicitWeak then .disposing
  else if x.freed then .freed
  else .expired

/-- The stage of being expired may be left out. -/
inductive Stage.Next : Stage → Stage → Prop
  | stay (s : Stage) : Next s s
  | dispose : Next live disposing
  | expire : Next disposing expired
  | free : Next disposing freed
  | freeLater : Next expired freed

/-- From the first stage the second one is come to. -/
abbrev Stage.Before := Relation.ReflTransGen Stage.Next

namespace Stage

/-- The number of stages that are over. -/
def rank : Stage → Nat
  | live => 0
  | disposing => 1
  | expired => 2
  | freed => 3

theorem Before.rank_le {s t : Stage} (h : Before s t) : s.rank ≤ t.rank := by
  induction h with
  | refl => exact Nat.le_refl _
  | tail _ hnext ih =>
    refine Nat.le_trans ih ?_
    cases hnext <;> simp [rank]

/-- No stage is come back to. -/
theorem Before.antisymm {s t : Stage} (h : Before s t) (h' : Before t s) : s = t := by
  have hle := h.rank_le
  have hge := h'.rank_le
  cases s <;> cases t <;> simp only [rank] at hle hge <;> first | rfl | omega

theorem next_of_freed {p q : Prop} [Decidable p] [Decidable q] (h : p → q) :
    Next (if p then freed else expired) (if q then freed else expired) := by
  by_cases hp : p
  · rw [if_pos hp, if_pos (h hp)]
    exact .stay _
  · rw [if_neg hp]
    split
    · exact .freeLater
    · exact .stay _

end Stage

namespace Block

variable {x y z : Block} {b : BlockId} {K : Multiset Stake}

theorem stage_eq_live : x.stage = .live ↔ x.strong ≠ 0 := by
  unfold Block.stage
  by_cases hs : x.strong = 0 <;> cases x.implicitWeak <;> cases x.freed <;> simp [hs]

theorem stage_eq_disposing : x.stage = .disposing ↔ x.strong = 0 ∧ x.implicitWeak = true := by
  unfold Block.stage
  by_cases hs : x.strong = 0 <;> cases x.implicitWeak <;> cases x.freed <;> simp [hs]

theorem stage_eq_expired :
    x.stage = .expired ↔ x.strong = 0 ∧ x.implicitWeak = false ∧ x.freed = false := by
  unfold Block.stage
  by_cases hs : x.strong = 0 <;> cases x.implicitWeak <;> cases x.freed <;> simp [hs]

theorem stage_eq_freed :
    x.stage = .freed ↔ x.strong = 0 ∧ x.implicitWeak = false ∧ x.freed = true := by
  unfold Block.stage
  by_cases hs : x.strong = 0 <;> cases x.implicitWeak <;> cases x.freed <;> simp [hs]

/-- References that are added move no block on. -/
theorem Keeps.stage (h : y.Keeps z) : z.stage = y.stage := by
  have hstrong : z.strong = 0 ↔ y.strong = 0 := by
    constructor
    · intro hz
      have := h.strongLe
      omega
    · exact h.strong
  simp only [Block.stage, ne_eq, hstrong, h.sameImplicit, h.sameFreed]

/-- What is lost moves a block on by one stage at most. -/
theorem Loses.stage {start : Option ObjectId} {given : Prop} (h : x.Loses start given y)
    (hx : x.Agrees K b) (hy : y.implicitWeak = false → y.strong = 0) :
    x.stage.Next y.stage := by
  have hmore : x.freed = true → (x.freed || x.weak == 1) = true := fun h => by rw [h]; rfl
  cases h with
  | nothing => exact .stay _
  | strong others =>
    have hiff : x.strong - 1 = 0 ↔ x.strong = 0 := by omega
    simp only [Block.stage, ne_eq, hiff]
    exact .stay _
  | pointee last _ =>
    have hi : x.implicitWeak = true := by
      cases h : x.implicitWeak
      · have := hx.strong_of_implicitWeak h
        omega
      · rfl
    simp only [Block.stage, last, hi]
    exact .dispose
  | weak =>
    by_cases hs : x.strong = 0
    · cases hi : x.implicitWeak
      · simp only [Block.stage, hs, hi, ne_eq, not_true_eq_false, Bool.false_eq_true, ↓reduceIte]
        exact Stage.next_of_freed hmore
      · simp only [Block.stage, hs, hi]
        exact .stay _
    · simp only [Block.stage, ne_eq, hs, not_false_eq_true, ↓reduceIte]
      exact .stay _
  | implicit =>
    have hs : x.strong = 0 := hy rfl
    simp only [Block.stage, hs, ne_eq, not_true_eq_false, Bool.false_eq_true, ↓reduceIte]
    cases x.implicitWeak
    · exact Stage.next_of_freed hmore
    · simp only [↓reduceIte]
      split
      · exact .free
      · exact .expire

end Block

namespace Machine

variable {m : Machine} {b : BlockId} {x y : Block}

theorem Reachable.step_stage (hm : m.Reachable) (hx : m.heap.blocks[b]? = some x) :
    ∃ y, m.step.heap.blocks[b]? = some y ∧ x.stage.Next y.stage := by
  obtain ⟨y, z, hxy, hyz, hz⟩ := hm.step_block hx
  refine ⟨z, hz, ?_⟩
  rw [hyz.stage]
  refine hxy.stage (hm.counted b x hx) fun hi => ?_
  have hzero := (hm.step.counted b z hz).strong_of_implicitWeak (hyz.sameImplicit.trans hi)
  have := hyz.strongLe
  omega

/-! ## What each stage means -/

theorem Reachable.live_iff (hm : m.Reachable) (hx : m.heap.blocks[b]? = some x) :
    x.stage = .live ↔ 0 < m.strongs b := by
  rw [Block.stage_eq_live, hm.strong_eq hx]
  omega

theorem Reachable.disposing_iff (hm : m.Reachable) (hx : m.heap.blocks[b]? = some x) :
    x.stage = .disposing ↔ m.strongs b = 0 ∧ .giveUpImplicit b ∈ m.env.agenda := by
  rw [Block.stage_eq_disposing, hm.strong_eq hx, hm.implicitWeak_iff hx]
  constructor
  · rintro ⟨hzero, hpos | hdue⟩
    · omega
    · exact ⟨hzero, hdue⟩
  · rintro ⟨hzero, hdue⟩
    exact ⟨hzero, .inr hdue⟩

/-- A block whose disposal is over is freed when no weak pointer is on it. -/
theorem Reachable.freed_iff_weaks (hm : m.Reachable) (hx : m.heap.blocks[b]? = some x)
    (hi : x.implicitWeak = false) : x.freed = true ↔ m.weaks b = 0 := by
  have hweak := hm.weak_eq hx
  rw [hi, Bool.toNat_false, Nat.add_zero] at hweak
  rw [(hm.counted b x hx).freed, hweak]

/-- A block is expired while only weak pointers are on it. -/
theorem Reachable.expired_iff (hm : m.Reachable) (hx : m.heap.blocks[b]? = some x) :
    x.stage = .expired ↔
      m.strongs b = 0 ∧ .giveUpImplicit b ∉ m.env.agenda ∧ 0 < m.weaks b := by
  rw [Block.stage_eq_expired, hm.strong_eq hx]
  constructor
  · rintro ⟨hzero, hi, hf⟩
    have hnone := (hm.implicitWeak_eq_false_iff hx).mp hi
    have hweaks := mt (hm.freed_iff_weaks hx hi).mpr (by simp [hf])
    exact ⟨hzero, hnone.2, Nat.pos_of_ne_zero hweaks⟩
  · rintro ⟨hzero, hnone, hpos⟩
    have hi := (hm.implicitWeak_eq_false_iff hx).mpr ⟨hzero, hnone⟩
    have hf := mt (hm.freed_iff_weaks hx hi).mp (by omega)
    exact ⟨hzero, hi, by simpa using hf⟩

theorem Reachable.freed_iff (hm : m.Reachable) (hx : m.heap.blocks[b]? = some x) :
    x.stage = .freed ↔
      m.strongs b = 0 ∧ .giveUpImplicit b ∉ m.env.agenda ∧ m.weaks b = 0 := by
  rw [Block.stage_eq_freed, hm.strong_eq hx]
  constructor
  · rintro ⟨hzero, hi, hf⟩
    have hnone := (hm.implicitWeak_eq_false_iff hx).mp hi
    exact ⟨hzero, hnone.2, (hm.freed_iff_weaks hx hi).mp hf⟩
  · rintro ⟨hzero, hnone, hweaks⟩
    have hi := (hm.implicitWeak_eq_false_iff hx).mpr ⟨hzero, hnone⟩
    exact ⟨hzero, hi, (hm.freed_iff_weaks hx hi).mpr hweaks⟩

/-! ## Runs -/

section Run

variable {run : Nat → Machine} {n n' : Nat}

theorem IsRationed.next_stage (hr : IsRationed run) (hx : (run n).heap.blocks[b]? = some x) :
    ∃ y, (run (n + 1)).heap.blocks[b]? = some y ∧ x.stage.Next y.stage := by
  obtain ⟨limits, hnext⟩ := hr.next n
  exact hnext ▸ ((hr.reachable n).ration limits).step_stage hx

theorem IsRationed.stage_before (hr : IsRationed run) (hx : (run n).heap.blocks[b]? = some x)
    (hn : n ≤ n') :
    ∃ y, (run n').heap.blocks[b]? = some y ∧ x.stage.Before y.stage := by
  induction n', hn using Nat.le_induction with
  | base => exact ⟨x, hx, .refl⟩
  | succ n' _ ih =>
    obtain ⟨y, hy, hxy⟩ := ih
    obtain ⟨z, hz, hyz⟩ := hr.next_stage hy
    exact ⟨z, hz, hxy.tail hyz⟩

/-- A block that has lost its last strong pointer gets none again. -/
theorem IsRationed.strongs_eq_zero (hr : IsRationed run) (hx : (run n).heap.blocks[b]? = some x)
    (hzero : (run n).strongs b = 0) (hn : n ≤ n') : (run n').strongs b = 0 := by
  obtain ⟨y, hy, hxy⟩ := hr.becomes hx hn
  rw [← (hr.reachable n').strong_eq hy]
  exact hxy.strong (((hr.reachable n).strong_eq hx).trans hzero)

end Run

/-- Where in its course block `b`, in state `x` at moment `n`, is, and how it goes on. -/
structure Unreturning (run : Nat → Machine) (n : Nat) (b : BlockId) (x : Block) : Prop where
  live : x.stage = .live ↔ 0 < (run n).strongs b
  /-- What follows the last strong owner is still to be done. -/
  disposing : x.stage = .disposing ↔
    (run n).strongs b = 0 ∧ .giveUpImplicit b ∈ (run n).env.agenda
  expired : x.stage = .expired ↔
    (run n).strongs b = 0 ∧ .giveUpImplicit b ∉ (run n).env.agenda ∧ 0 < (run n).weaks b
  freed : x.stage = .freed ↔
    (run n).strongs b = 0 ∧ .giveUpImplicit b ∉ (run n).env.agenda ∧ (run n).weaks b = 0
  /-- What has become of the object that was the pointee at some moment. -/
  pointee : ∀ i y o, i ≤ n → (run i).heap.blocks[b]? = some y → y.pointee = some o →
    (x.stage = .live → (run n).heap.phase? o = some .alive) ∧
    (x.stage = .disposing → (run n).heap.phase? o = some .dying ∨
      (run n).heap.phase? o = some .gone ∧
        ∃ rest, (run n).env.agenda = .giveUpImplicit b :: rest) ∧
    (x.stage = .expired ∨ x.stage = .freed → (run n).heap.phase? o = some .gone)
  step : ∃ y, (run (n + 1)).heap.blocks[b]? = some y ∧ x.stage.Next y.stage
  later : ∀ n' ≥ n, ∃ y, (run n').heap.blocks[b]? = some y ∧ x.stage.Before y.stage ∧
    (x.strong = 0 → y.strong = 0)
  /-- A stage that has been left is not come back to. -/
  left : ∀ i ≥ n, ∀ j ≥ i, ∀ y z, (run i).heap.blocks[b]? = some y →
    (run j).heap.blocks[b]? = some z → z.stage = x.stage → y.stage = x.stage
  /-- No operation makes a strong pointer on a block that has lost its last one. -/
  unowned : (run n).strongs b = 0 → ∀ n' ≥ n, (run n').strongs b = 0 ∧
    ∀ w : Weak, w.block = some b → (w.lock? (run n').heap).2 = none

/-- The stages of a block follow each other, and none is come back to. -/
theorem IsRationed.unreturning {run : Nat → Machine} {n : Nat} (hr : IsRationed run)
    (hx : (run n).heap.blocks[b]? = some x) : Unreturning run n b x := by
  have hm := hr.reachable n
  constructor
  case live => exact hm.live_iff hx
  case disposing => exact hm.disposing_iff hx
  case expired => exact hm.expired_iff hx
  case freed => exact hm.freed_iff hx
  case pointee =>
    intro i y o hi hy ho
    have hcourse := hr.course hy ho hi
    refine ⟨fun hs => ?_, fun hs => ?_, fun hs => ?_⟩
    · exact hm.alive_of_strongs hcourse hx (Nat.ne_of_gt ((hm.live_iff hx).mp hs))
    · exact hm.dying_of_due hcourse hx ((hm.disposing_iff hx).mp hs).2
    · refine hm.gone_of_implicitWeak hcourse hx ?_
      rcases hs with hs | hs
      · exact (Block.stage_eq_expired.mp hs).2.1
      · exact (Block.stage_eq_freed.mp hs).2.1
  case step => exact hr.next_stage hx
  case later =>
    intro n' hn
    obtain ⟨y, hy, hbefore⟩ := hr.stage_before hx hn
    obtain ⟨z, hz, hxz⟩ := hr.becomes hx hn
    rw [hy] at hz
    cases hz
    exact ⟨y, hy, hbefore, hxz.strong⟩
  case left =>
    intro i hi j hj y z hy hz hback
    obtain ⟨y', hy', hxy⟩ := hr.stage_before hx hi
    obtain ⟨z', hz', hyz⟩ := hr.stage_before hy hj
    obtain rfl : y' = y := Option.some.inj (hy'.symm.trans hy)
    obtain rfl : z' = z := Option.some.inj (hz'.symm.trans hz)
    exact (hxy.antisymm (hback ▸ hyz)).symm
  case unowned =>
    intro hzero n' hn
    have hzero' := hr.strongs_eq_zero hx hzero hn
    refine ⟨hzero', fun w hw => ?_⟩
    obtain ⟨y, hy, -⟩ := hr.becomes hx hn
    have hcount := (Heap.strongCount_eq hy).trans ((hr.reachable n').strong_eq hy)
    simp only [Weak.lock?, hw, hcount, hzero', ↓reduceIte]

/-- The lock that is tried in the destructor does not bring the block back. -/
theorem unreturning_selfObserving :
    ∃ x, (moment selfObserving false 12).heap.blocks[0]? = some x ∧ x.stage = .disposing ∧
      Unreturning (moment selfObserving false) 12 0 x :=
  ⟨_, rfl, rfl, IsRationed.unreturning (isRationed_moment _ _) rfl⟩

end Machine

end Custody
