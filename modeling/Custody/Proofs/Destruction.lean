import Custody.Proofs.Ownership

/-!
# Destructors start once

* `Machine.Grounded.step_known`: what a step does to an object, by whether it starts its
  destructor.
* `Machine.IsRationed.starts_iff`: an object is not alive just when its destructor has started.
-/

namespace Custody

namespace Scene

variable {s t u : Scene} {o : ObjectId}

theorem SameAt.trans (h : SameAt s t o) (h' : SameAt t u o) : SameAt s u o :=
  ⟨h'.phase.trans h.phase, h'.owners.trans h.owners, h'.destructors.trans h.destructors⟩

theorem StartsAt.trans (h : StartsAt s t o) (h' : SameAt t u o) : StartsAt s u o :=
  ⟨h'.phase.trans h.phase, h'.owners ▸ h.owners, h'.destructors.trans h.destructors⟩

theorem LeaksAt.trans (h : LeaksAt s t o) (h' : SameAt t u o) : LeaksAt s u o :=
  ⟨h'.phase.trans h.phase, h.raw, h'.owners ▸ h.owners, h'.destructors.trans h.destructors⟩

theorem EndsAt.trans (h : EndsAt s t o) (h' : SameAt t u o) : EndsAt s u o :=
  ⟨h'.phase.trans h.phase, h'.owners.trans h.owners, h'.destructors ▸ h.destructors⟩

end Scene

namespace Machine

variable {m : Machine} {o : ObjectId} {p : Phase}

/-! ## One step -/

section Step

open Scene

/-- A step gives up one stake, if any; what it does then adds objects and changes none. -/
theorem Grounded.step_at (hm : m.Grounded) (o : ObjectId) :
    ∃ s, (m.starts? = some o ∧ StartsAt m.scene s o ∨
        m.starts? ≠ some o ∧ (SameAt m.scene s o ∨ LeaksAt m.scene s o ∨ EndsAt m.scene s o)) ∧
      (SameAt s m.step.scene o ∨ NewAt s m.step.scene o) := by
  have hscope := hm.scope
  rw [starts?_eq]
  rcases hm.step_cases with ⟨hlost, hst⟩ | ⟨k, K, s, hlost, hscene, hl, hst⟩
  · refine ⟨m.scene, .inr ⟨?_, .inl ⟨rfl, rfl, rfl⟩⟩, hst.sameAt_or_newAt hscope o⟩
    rw [hlost]
    simp
  · rw [hscene] at hscope ⊢
    rw [hlost]
    exact ⟨s, hl.at hscope o, hst.sameAt_or_newAt (hl.scoped hscope) o⟩

/-- What a step does to an object that is there. -/
theorem Grounded.step_known (hm : m.Grounded) (hp : m.heap.phase? o = some p) :
    m.starts? = some o ∧ StartsAt m.scene m.step.scene o ∨
      m.starts? ≠ some o ∧ (SameAt m.scene m.step.scene o ∨ LeaksAt m.scene m.step.scene o ∨
        EndsAt m.scene m.step.scene o) := by
  have hp : m.scene.1.phase? o = some p := hp
  obtain ⟨s, hat, hst⟩ := hm.step_at o
  have hknown : s.1.phase? o ≠ none := by
    rcases hat with ⟨-, hat⟩ | ⟨-, hat | hat | hat⟩
    all_goals
      rw [hat.phase, hp]
      simp
  have hsame := hst.resolve_right fun hnew => hknown hnew.unknown
  rcases hat with ⟨hs, hat⟩ | ⟨hs, hat | hat | hat⟩
  · exact .inl ⟨hs, hat.trans hsame⟩
  · exact .inr ⟨hs, .inl (hat.trans hsame)⟩
  · exact .inr ⟨hs, .inr (.inl (hat.trans hsame))⟩
  · exact .inr ⟨hs, .inr (.inr (hat.trans hsame))⟩

/-- What a step does to an object that was not there. -/
theorem Grounded.step_unknown (hm : m.Grounded) (hp : m.heap.phase? o = none) :
    m.step.heap.phase? o = none ∨
      m.step.heap.phase? o = some .alive ∧ owners m.step.scene o = 1 := by
  have hp : m.scene.1.phase? o = none := hp
  obtain ⟨s, hat, hst⟩ := hm.step_at o
  have hunknown : s.1.phase? o = none := by
    rcases hat with ⟨-, hat⟩ | ⟨-, hat | hat | hat⟩
    all_goals
      rw [hat.phase, hp]
      try rfl
  rcases hst with hst | hst
  · exact .inl (hst.phase.trans hunknown)
  · exact .inr ⟨hst.phase, hst.owners⟩

theorem owners_scene (m : Machine) (o : ObjectId) :
    owners m.scene o = m.uniques o + m.raws o + m.heap.managers o := by
  simp only [owners, scene, tally_owns?, tally_rawOf?]

theorem Reachable.alive_of_owners (hm : m.Reachable) (ho : 0 < owners m.scene o) :
    m.heap.phase? o = some .alive :=
  hm.owned.alive hm.grounded.scope ho

/-- The object whose destructor the next action starts is owned by a pointer or by a block. -/
theorem owner_of_starts? (h : m.starts? = some o) : 0 < m.uniques o ∨ 0 < m.heap.managers o := by
  unfold starts? at h
  split at h
  · next x rest hagenda =>
    have hx : .pointer x ∈ m.stakes := by
      refine pointer_mem_stakes_iff.mpr (List.mem_append_right _ ?_)
      rw [hagenda]
      exact List.mem_cons_self
    match x with
    | .unique u =>
      rw [← tally_owns?]
      exact .inl (tally_pos hx h)
    | .strong q =>
      obtain ⟨b, -, hb⟩ := Option.bind_eq_some_iff.mp h
      split at hb
      · obtain ⟨y, hy, ho⟩ := Option.bind_eq_some_iff.mp hb
        exact .inr (Heap.managers_pos ⟨b, y, hy, ho⟩)
      · cases hb
    | .weak _ | .raw _ => cases h
  · cases h

theorem Grounded.alive_of_starts? (hm : m.Grounded) (howned : Owned m.scene)
    (h : m.starts? = some o) : m.heap.phase? o = some .alive := by
  refine howned.alive hm.scope ?_
  rw [owners_scene]
  rcases owner_of_starts? h with h | h <;> omega

theorem Grounded.dying_of_starts? (hm : m.Grounded) (howned : Owned m.scene)
    (h : m.starts? = some o) : m.step.heap.phase? o = some .dying := by
  have halive := hm.alive_of_starts? howned h
  rcases hm.step_known halive with ⟨-, hat⟩ | ⟨hne, -⟩
  · have hp : m.scene.1.phase? o = some .alive := halive
    exact hat.phase.trans (by rw [hp]; rfl)
  · exact absurd h hne

theorem Reachable.alive_of_starts? (hm : m.Reachable) (h : m.starts? = some o) :
    m.heap.phase? o = some .alive :=
  hm.grounded.alive_of_starts? hm.owned h

theorem Reachable.dying_of_starts? (hm : m.Reachable) (h : m.starts? = some o) :
    m.step.heap.phase? o = some .dying :=
  hm.grounded.dying_of_starts? hm.owned h

/-- Only a destructor's start ends the life of an object. -/
theorem Grounded.step_phase (hm : m.Grounded) (howned : Owned m.scene)
    (hp : m.heap.phase? o = some p) (h : m.starts? ≠ some o) :
    ∃ q, m.step.heap.phase? o = some q ∧ (q = .alive ↔ p = .alive) := by
  have hs : m.scene.1.phase? o = some p := hp
  rcases hm.step_known hp with ⟨heq, -⟩ | ⟨-, hat | hat | hat⟩
  · exact absurd heq h
  · exact ⟨p, hat.phase.trans hs, .rfl⟩
  · exact ⟨p, hat.phase.trans hs, .rfl⟩
  · refine ⟨.gone, hat.phase.trans (by rw [hs]; rfl), ?_⟩
    have hallows := howned o p hp
    have hends := hat.destructors
    cases p
    · simp only [Phase.Allows] at hallows
      omega
    all_goals simp

theorem Reachable.step_phase (hm : m.Reachable) (hp : m.heap.phase? o = some p)
    (h : m.starts? ≠ some o) :
    ∃ q, m.step.heap.phase? o = some q ∧ (q = .alive ↔ p = .alive) :=
  hm.grounded.step_phase hm.owned hp h

end Step

/-! ## Runs -/

section Run

variable {run : Nat → Machine} {i j n : Nat}

/-- After its destructor has started an object is never alive again. -/
theorem IsRationed.phase_of_starts (hr : IsRationed run) (h : (run i).starts? = some o)
    (hin : i < n) :
    ∃ p, (run n).heap.phase? o = some p ∧ p ≠ .alive := by
  induction n, hin using Nat.le_induction with
  | base =>
    obtain ⟨limits, hnext⟩ := hr.next i
    rw [hnext]
    exact ⟨.dying, ((hr.reachable i).ration limits).dying_of_starts? h, by simp⟩
  | succ n _ ih =>
    obtain ⟨p, hp, hne⟩ := ih
    have hs : (run n).starts? ≠ some o := by
      intro hs
      have := (hr.reachable n).alive_of_starts? hs
      rw [hp] at this
      exact hne (Option.some.inj this)
    obtain ⟨limits, hnext⟩ := hr.next n
    obtain ⟨q, hq, hiff⟩ := ((hr.reachable n).ration limits).step_phase hp hs
    exact ⟨q, hnext ▸ hq, fun heq => hne (hiff.mp heq)⟩

/-- What is not alive any more has had its destructor started. -/
theorem IsRationed.starts_of_phase (hr : IsRationed run) (hp : (run n).heap.phase? o = some p)
    (hne : p ≠ .alive) : ∃ i < n, (run i).starts? = some o := by
  induction n generalizing p with
  | zero =>
    rw [hr.heap_zero] at hp
    cases hp
  | succ n ih =>
    by_cases hs : (run n).starts? = some o
    · exact ⟨n, Nat.lt_succ_self n, hs⟩
    obtain ⟨limits, hnext⟩ := hr.next n
    have hm := (hr.reachable n).ration limits
    rw [hnext] at hp
    cases hq : (run n).heap.phase? o with
    | none =>
      rcases hm.grounded.step_unknown hq with h | ⟨h, -⟩
      · rw [h] at hp
        cases hp
      · rw [h] at hp
        cases hp
        exact absurd rfl hne
    | some q =>
      obtain ⟨p', hp', hiff⟩ := hm.step_phase hq hs
      rw [hp] at hp'
      cases hp'
      obtain ⟨i, hi, h⟩ := ih hq fun heq => hne (hiff.mpr heq)
      exact ⟨i, Nat.lt_succ_of_lt hi, h⟩

/-- An object is not alive just when its destructor has started. -/
theorem IsRationed.starts_iff (hr : IsRationed run) (hp : (run n).heap.phase? o = some p) :
    (∃ i < n, (run i).starts? = some o) ↔ p ≠ .alive := by
  constructor
  · rintro ⟨i, hi, h⟩
    obtain ⟨q, hq, hne⟩ := hr.phase_of_starts h hi
    rw [hp] at hq
    cases hq
    exact hne
  · exact hr.starts_of_phase hp

/-- The destructor of an object starts at most once. -/
theorem IsRationed.starts_once (hr : IsRationed run) (hi : (run i).starts? = some o)
    (hj : (run j).starts? = some o) : i = j := by
  have hlt {i j : Nat} (hi : (run i).starts? = some o) (hj : (run j).starts? = some o) :
      ¬ i < j := by
    intro h
    obtain ⟨p, hp, hne⟩ := hr.phase_of_starts hi h
    rw [(hr.reachable j).alive_of_starts? hj] at hp
    exact hne (Option.some.inj hp).symm
  exact Nat.le_antisymm (Nat.le_of_not_lt (hlt hj hi)) (Nat.le_of_not_lt (hlt hi hj))

end Run

end Machine

end Custody
