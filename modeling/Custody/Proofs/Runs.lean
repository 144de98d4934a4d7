import Custody.Proofs.Grounded
import Custody.Report
import Mathlib.Logic.Function.Iterate

/-!
# Runs

* `Machine.Reachable`: the states of the runs of programs, also those inside a destructor, whatever
  the allocators refuse.
* `Machine.moment`: the state of a program's run after a number of steps.
* `Machine.IsRationed`: the runs of programs, in which the allocators refuse what they like.
* `Machine.Reachable.scene_induction`: what holds of the empty scene and is kept by losses, shifts
  and new budgets holds in every reachable state.
* `Machine.run_eq_iterate`: a run is its steps one after another.
-/

namespace Custody

namespace Machine

variable {m : Machine}

/-- Each allocator grants as many more requests as `limits` says. -/
def ration (limits : Alloc → Option Nat) (m : Machine) : Machine :=
  m.mapHeap fun h =>
    { h with
      global := { h.global with budget := limits .global }
      arena := { h.arena with budget := limits .arena } }

/-- The states of the runs of programs, also those inside a destructor, whatever the allocators
refuse. -/
inductive Reachable : Machine → Prop
  | start (steps : List Step) (watch : Bool) : Reachable (.ofProgram steps watch)
  | step {m : Machine} (h : Reachable m) : Reachable m.step
  | ration {m : Machine} (limits : Alloc → Option Nat) (h : Reachable m) :
      Reachable (m.ration limits)

theorem stakes_ofProgram (steps : List Step) (watch : Bool) : (ofProgram steps watch).stakes = 0 := by
  have hagenda : stakesOf (ofProgram steps watch).env.agenda = 0 := by
    refine stakesOf_eq_zero fun a ha => ?_
    rcases List.mem_append.mp ha with ha | ha
    · obtain ⟨s, -, hs⟩ := List.mem_flatMap.mp ha
      rcases List.mem_pair.mp hs with rfl | rfl <;> rfl
    · obtain rfl := List.mem_singleton.mp ha
      rfl
  rw [stakes, hagenda]
  rfl

theorem scene_ofProgram (steps : List Step) (watch : Bool) :
    (ofProgram steps watch).scene = (.empty, 0) := by
  rw [scene, stakes_ofProgram]
  rfl

theorem grounded_ofProgram (steps : List Step) (watch : Bool) :
    (ofProgram steps watch).Grounded := by
  refine ⟨⟨fun a ha => lands_of_not_worksOn fun t => ?_, ?_⟩, ?_⟩
  · rcases List.mem_append.mp ha with ha | ha
    · obtain ⟨s, -, hs⟩ := List.mem_flatMap.mp ha
      rcases List.mem_pair.mp hs with rfl | rfl <;> rfl
    · obtain rfl := List.mem_singleton.mp ha
      rfl
  · rintro o ⟨⟩
  · rw [scene_ofProgram]
    exact scoped_empty

theorem Grounded.ration (hm : m.Grounded) (limits : Alloc → Option Nat) :
    (m.ration limits).Grounded := by
  have he : (m.ration limits).heap.Extends m.heap := ⟨Nat.le_refl _, Nat.le_refl _⟩
  refine ⟨⟨fun a ha => (hm.agenda a ha).mono he, hm.running⟩, ?_⟩
  exact ⟨fun k hk => (hm.scope.stakes k hk).mono he, hm.scope.pointees⟩

theorem Reachable.grounded (hm : m.Reachable) : m.Grounded := by
  induction hm with
  | start steps watch => exact grounded_ofProgram steps watch
  | step _ ih => exact ih.step
  | ration limits _ ih => exact ih.ration limits

theorem Reachable.iterate (hm : m.Reachable) (n : Nat) : (Machine.step^[n] m).Reachable := by
  induction n with
  | zero => exact hm
  | succ n ih =>
    rw [Function.iterate_succ_apply']
    exact ih.step

/-- The state after `n` steps of the run of a program. -/
def moment (steps : List Step) (watch : Bool) (n : Nat) : Machine :=
  Machine.step^[n] (ofProgram steps watch)

theorem moment_succ (steps : List Step) (watch : Bool) (n : Nat) :
    moment steps watch (n + 1) = (moment steps watch n).step :=
  Function.iterate_succ_apply' _ _ _

theorem reachable_moment (steps : List Step) (watch : Bool) (n : Nat) :
    (moment steps watch n).Reachable :=
  (Reachable.start steps watch).iterate n

/-- A node that holds a weak pointer to its own block, and tries to lock it in its destructor. -/
def selfObserving : List Step :=
  [.new .node (.node ⟨1, 0, .ofString "", []⟩ [.lock ⟨true, [], "self"⟩ ⟨false, [], "b"⟩]) .global
    ⟨false, [], "a"⟩,
   .downgrade ⟨false, [], "a"⟩ ⟨false, ["a"], "self"⟩, .drop ⟨false, [], "a"⟩]

/-! ## Refusals -/

/-- The states of a run in which the allocators refuse what they like: before each step it is said
anew how many requests they grant. -/
structure IsRationed (run : Nat → Machine) : Prop where
  start : ∃ steps watch, run 0 = .ofProgram steps watch
  next : ∀ n, ∃ limits, run (n + 1) = ((run n).ration limits).step

theorem ration_budgets (m : Machine) : m.ration (fun a => (m.heap.ledger a).budget) = m := rfl

/-- Where nothing is refused but what the program limits, each allocator keeps its budget. -/
theorem moment_succ_eq_ration (steps : List Step) (watch : Bool) (n : Nat) :
    moment steps watch (n + 1) =
      ((moment steps watch n).ration
        fun a => ((moment steps watch n).heap.ledger a).budget).step := by
  rw [ration_budgets, moment_succ]

theorem isRationed_moment (steps : List Step) (watch : Bool) : IsRationed (moment steps watch) :=
  ⟨⟨steps, watch, rfl⟩, fun n => ⟨_, moment_succ_eq_ration steps watch n⟩⟩

section Rationed

variable {run : Nat → Machine}

theorem IsRationed.reachable (hr : IsRationed run) (n : Nat) : (run n).Reachable := by
  induction n with
  | zero =>
    obtain ⟨steps, watch, h⟩ := hr.start
    exact h ▸ .start steps watch
  | succ n ih =>
    obtain ⟨limits, h⟩ := hr.next n
    exact h ▸ (ih.ration limits).step

theorem IsRationed.grounded (hr : IsRationed run) (n : Nat) : (run n).Grounded :=
  (hr.reachable n).grounded

/-- In the beginning nothing is there. -/
theorem IsRationed.heap_zero (hr : IsRationed run) : (run 0).heap = .empty := by
  obtain ⟨steps, watch, h⟩ := hr.start
  rw [h]
  rfl

end Rationed

/-- A run of a machine ends in a state that steps lead to. -/
theorem run_eq_iterate (m : Machine) : m.run = Machine.step^[m.potential] m := by
  have hstay {m : Machine} (hm : m.next? = none) (n : Nat) : Machine.step^[n] m = m :=
    Function.iterate_fixed (step_eq_self hm) n
  have hfor (n : Nat) (m : Machine) : runFor n m = Machine.step^[n] m := by
    induction n generalizing m with
    | zero => rfl
    | succ n ih =>
      rw [Function.iterate_succ_apply]
      cases hm : m.next? with
      | none => rw [runFor, step_eq_self hm, hm, hstay hm]
      | some an =>
        rw [runFor, step_eq_perform hm, hm]
        exact ih _
  exact hfor _ _

/-- What holds of the empty scene, and is kept by losses, shifts and new budgets. -/
theorem Reachable.scene_induction {P : Scene → Prop} (hm : m.Reachable) (hempty : P (.empty, 0))
    (hration : ∀ {m : Machine} limits, P m.scene → P (m.ration limits).scene)
    (hloss : ∀ {h K k s}, Scoped (h, k ::ₘ K) → P (h, k ::ₘ K) → Loss h K k s → P s)
    (hshift : ∀ {Y s t}, Scoped s → P s → Shift Y s t → P t) : P m.scene := by
  induction hm with
  | start steps watch => rwa [scene_ofProgram]
  | step hm ih => exact step_induction hm.grounded ih hloss hshift
  | ration limits _ ih => exact hration limits ih

end Machine

end Custody
