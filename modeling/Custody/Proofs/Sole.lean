import Custody.Proofs.Exclusion
import Custody.Proofs.Execution

/-!
# Who may write

* `Machine.Sole`: a strong pointer is the only one on a block, and no weak pointer is on it.
* `Block.Agrees.weak_eq_one_iff`: while there are owners, a weak counter of one is the implicit
  reference, and never a pointer.
* `Machine.IsRationed.grants_sole`: a strong pointer may be written through exactly if it leads
  somewhere and is the sole pointer on its block. A call that is refused changes nothing.
-/

namespace Custody

/-! ## One block -/

section Block

variable {K : Multiset Stake} {x : Block} {b : BlockId}

theorem Block.Agrees.implicitWeak_of_strong (hx : x.Agrees K b) (hs : 0 < x.strong) :
    x.implicitWeak = true := by
  by_contra hi
  have hzero := hx.strong_of_implicitWeak (Bool.not_eq_true _ ▸ hi)
  omega

/-- While there are owners, one weak reference is the implicit one. -/
theorem Block.Agrees.weak_eq_one_iff (hx : x.Agrees K b) (hs : 0 < x.strong) :
    x.weak = 1 ↔ tally Stake.weakOn? K b = 0 := by
  rw [hx.weak, hx.implicitWeak_of_strong hs, Bool.toNat_true]
  omega

/-- Where a weak pointer is the last weak reference, no owner is left, and so no pointer for which
the counters could be mistaken. -/
theorem Block.Agrees.orphaned (hx : x.Agrees K b) (hw : 0 < tally Stake.weakOn? K b)
    (hone : x.weak = 1) : x.implicitWeak = false ∧ x.strong = 0 := by
  have hweak := hx.weak
  have himplicit := hx.implicit
  cases hi : x.implicitWeak <;> simp only [hi, Bool.toNat_false, Bool.toNat_true] at hweak himplicit
  · exact ⟨rfl, by omega⟩
  · omega

end Block

namespace Strong

variable {p : Strong} {h : Heap} {v : Place}

/-- What the test reads: both counters of the block. -/
theorem getMut?_eq_some_iff : p.getMut? h = some v ↔
    p.view = some v ∧
      ∃ b x, p.block = some b ∧ h.blocks[b]? = some x ∧ x.strong = 1 ∧ x.weak = 1 := by
  constructor
  · intro hp
    obtain ⟨⟨huse, -⟩, hview⟩ := Option.ite_none_right_eq_some.mp hp
    refine ⟨hview, ?_⟩
    cases hb : p.block with
    | none => simp [use, hb] at huse
    | some b =>
      cases hx : h.blocks[b]? with
      | none => simp [use, hb, Heap.strongCount, hx] at huse
      | some x => exact ⟨b, x, rfl, hx, counts_of_getMut? hp hb hx⟩
  · rintro ⟨hview, b, x, hb, hx, hstrong, hweak⟩
    have huse : p.use h = 1 := by simp [use, hb, Heap.strongCount, hx, hstrong]
    have hraw : p.rawWeak h = 1 := by simp [rawWeak, hb, Heap.weakCount, hx, hweak]
    exact Option.ite_none_right_eq_some.mpr ⟨⟨huse, hraw⟩, hview⟩

end Strong

namespace Machine

variable {m : Machine} {p : Strong} {b : BlockId} {v : Place}

/-- `p` is the only strong pointer on the block, and no weak pointer is on it. -/
def Sole (m : Machine) (p : Strong) (b : BlockId) : Prop :=
  m.pointers.filter (·.strongOn? = some b) = [.strong p] ∧ ∀ x ∈ m.pointers, x.weakOn? ≠ some b

theorem weaks_eq_zero_iff : m.weaks b = 0 ↔ ∀ x ∈ m.pointers, x.weakOn? ≠ some b := by
  simp [weaks, List.countP_eq_zero]

theorem sole_iff (hp : .strong p ∈ m.pointers) (hb : p.block = some b) :
    m.Sole p b ↔ m.strongs b = 1 ∧ m.weaks b = 0 := by
  unfold Sole strongs
  rw [weaks_eq_zero_iff, List.countP_eq_length_filter]
  refine and_congr_left fun _ => ⟨fun hone => by rw [hone]; rfl, fun hone => ?_⟩
  obtain ⟨y, hy⟩ := List.length_eq_one_iff.mp hone
  have hmem : .strong p ∈ m.pointers.filter (·.strongOn? = some b) :=
    List.mem_filter.mpr ⟨hp, by simpa using hb⟩
  rw [hy, List.mem_singleton] at hmem
  rw [hy, hmem]

/-- A pointer may be written through exactly if it leads somewhere and has its block to itself. -/
theorem getMut?_iff_sole (hm : Sound m.scene) (hp : .strong p ∈ m.pointers) :
    p.getMut? m.heap = some v ↔ p.view = some v ∧ ∃ b, p.block = some b ∧ m.Sole p b := by
  rw [Strong.getMut?_eq_some_iff]
  refine and_congr_right fun _ => ?_
  -- The counters and the pointers are compared on the block that `p` keeps.
  have hcounts {b : BlockId} (hb : p.block = some b) :
      ∃ x, m.heap.blocks[b]? = some x ∧ (x.strong = 1 ∧ x.weak = 1 ↔ m.Sole p b) := by
    obtain ⟨x, hx, -, hpos, -⟩ := hm.strong (pointer_mem_stakes_iff.mpr hp) hb
    have hagree := hm.counted b x hx
    refine ⟨x, hx, ?_⟩
    rw [hagree.weak_eq_one_iff hpos, hagree.strong, sole_iff hp hb, ← tally_strongOn?,
      ← tally_weakOn?]
    rfl
  constructor
  · rintro ⟨b, x, hb, hx, hones⟩
    obtain ⟨y, hy, hsole⟩ := hcounts hb
    obtain rfl : x = y := Option.some.inj (hx.symm.trans hy)
    exact ⟨b, hb, hsole.mp hones⟩
  · rintro ⟨b, hb, hsole⟩
    obtain ⟨x, hx, hiff⟩ := hcounts hb
    exact ⟨b, x, hb, hx, hiff.mpr hsole⟩

/-- A write that is not granted comes to its answer, and to nothing else. -/
theorem IsRationed.set_refused {run : Nat → Machine} {n : Nat} {target : Path} {value : Literal}
    {throughDeref : Bool} {rest : List Action} {loc : Location} (hr : IsRationed run)
    (ha : (run n).env.agenda = .exec (.set target value throughDeref) :: rest)
    (hf : (run n).find target = .ok (loc, .strong p)) (hnone : p.getMut? (run n).heap = none) :
    ∃ limits, run (n + 2) = ((run n).ration limits).mapEnv fun e =>
      { e with agenda := rest, replies := .nothing :: e.replies } := by
  obtain ⟨limits, hnext⟩ := hr.next n
  obtain ⟨limits', hnext'⟩ := hr.next (n + 1)
  have hplan : ((run n).ration limits).plan (.set target value throughDeref) =
      .ok (.answer .nothing) := by
    have hf' : ((run n).ration limits).find target = .ok (loc, .strong p) := hf
    have hnone' : p.getMut? ((run n).ration limits).heap = none := hnone
    simp only [plan, planSet, hf', bind, Except.bind, Slot.writable?, hnone']
    rfl
  refine ⟨limits', ?_⟩
  rw [hnext', hnext, step_exec (m := (run n).ration limits) ha hplan]
  rfl

/-- When the strong pointer `p` may be written through at moment `n`. -/
structure Grants (run : Nat → Machine) (n : Nat) (p : Strong) : Prop where
  /-- There is something to write to, and the block has no other pointer, strong or weak. -/
  granted : ∀ v, p.getMut? (run n).heap = some v ↔
    p.view = some v ∧ ∃ b, p.block = some b ∧ (run n).Sole p b
  /-- Where the test of the counters succeeds, the one weak reference is no pointer. -/
  implicit : ∀ b x, (run n).heap.blocks[b]? = some x → x.strong = 1 → x.weak = 1 →
    x.implicitWeak = true ∧ ∀ y ∈ (run n).pointers, y.weakOn? ≠ some b
  /-- Where the one weak reference is a pointer, the test fails. -/
  observed : ∀ b x, (run n).heap.blocks[b]? = some x → x.weak = 1 →
    (∃ y ∈ (run n).pointers, y.weakOn? = some b) → x.implicitWeak = false ∧ x.strong = 0
  /-- A call that is refused has an answer, and leaves all else as it was. -/
  refused : ∀ target value throughDeref rest loc,
    (run n).env.agenda = .exec (.set target value throughDeref) :: rest →
    (run n).find target = .ok (loc, .strong p) → p.getMut? (run n).heap = none →
    ∃ limits, run (n + 2) = ((run n).ration limits).mapEnv fun e =>
      { e with agenda := rest, replies := .nothing :: e.replies }

/-- Writing is granted on uniqueness, at every moment: in destructors and in closures too. -/
theorem IsRationed.grants_sole {run : Nat → Machine} {n : Nat} (hr : IsRationed run)
    (hp : .strong p ∈ (run n).pointers) : Grants run n p := by
  have hs := hr.sound n
  constructor
  case granted =>
    intro v
    exact getMut?_iff_sole hs hp
  case implicit =>
    intro b x hx hstrong hweak
    have hagree := hs.counted b x hx
    have hpos : 0 < x.strong := by omega
    have hnone : (run n).weaks b = 0 := by
      rw [← tally_weakOn?]
      exact (hagree.weak_eq_one_iff hpos).mp hweak
    exact ⟨hagree.implicitWeak_of_strong hpos, weaks_eq_zero_iff.mp hnone⟩
  case observed =>
    rintro b x hx hweak ⟨y, hy, hb⟩
    have htally : 0 < tally Stake.weakOn? (run n).scene.2 b :=
      tally_pos (k := .pointer y) (pointer_mem_stakes_iff.mpr hy) hb
    exact (hs.counted b x hx).orphaned htally hweak
  case refused =>
    intro target value throughDeref rest loc ha hf hnone
    exact hr.set_refused ha hf hnone

/-- A node whose destructor writes through one of its links, while the block of that is observed. -/
def observedLink : List Step :=
  [.new .int (.int 4) .global ⟨false, [], "v"⟩,
   .new .node (.node ⟨1, 0, .ofString "", []⟩ [.set ⟨true, [], "v"⟩ (.int 5) false]) .global
    ⟨false, [], "a"⟩,
   .downgrade ⟨false, [], "v"⟩ ⟨false, [], "w"⟩, .move ⟨false, [], "v"⟩ ⟨false, ["a"], "v"⟩,
   .drop ⟨false, [], "a"⟩]

/-- In the destructor the one strong pointer is refused, for the weak one that is left. -/
theorem grants_observedLink :
    let run := moment observedLink false
    let p : Strong := ⟨.int, some 0, some (.whole 0)⟩
    (run 16).env.running = [1] ∧ (run 16).strongs 0 = 1 ∧ p.getMut? (run 16).heap = none ∧
      .strong p ∈ (run 16).pointers ∧ Grants run 16 p :=
  ⟨by decide, by decide, by decide, by decide,
    IsRationed.grants_sole (isRationed_moment _ _) (by decide)⟩

end Machine

end Custody
