import Custody.Proofs.Grounded

/-!
# How the agenda unwinds

What ends a destructor is scheduled in one go, and an operand that will return to its table is
followed by an action that lets go of the table.

* `Unwinds`: an agenda of this form, and the nodes whose destructors it ends.
* `Machine.Planned.unwinds`: so are the actions of every effect, but for what a move puts at its
  destination.
* `Machine.unwinds_startDestructor`, `Machine.unwinds_dropSlot`: so is what a destructor that starts
  leaves to be done, and what the drop of a slot does.
-/

namespace Custody

/-- The action is of no group that is scheduled in one go. -/
def Action.isPlain : Action → Bool
  | leave | unlink _ | reclaim _ | putBack _ _ _ => false
  | _ => true

theorem Action.Inner.isPlain {body : List Step} {a : Action} (ha : a.Inner body) :
    a.isPlain = true := by cases ha <;> rfl

/-- The agenda ends the destructors of the nodes on the left, innermost first. -/
inductive Unwinds : List ObjectId → List Action → Prop
  | nil : Unwinds [] []
  | plain {os a as} (ha : a.isPlain = true) (h : Unwinds os as) : Unwinds os (a :: as)
  | putBack {os loc x counted as} (ht : loc.table = .root ∨ ∃ a ∈ as, a.worksOn loc.table = true)
      (h : Unwinds os as) : Unwinds os (.putBack loc x counted :: as)
  | unlink {os o as} (h : Unwinds os as) : Unwinds os (.unlink o :: .reclaim o :: as)
  | leave {os o as} (h : Unwinds os as) :
      Unwinds (o :: os) (.leave :: .unlink o :: .reclaim o :: as)

namespace Unwinds

variable {os os' : List ObjectId} {as bs : List Action} {o : ObjectId}

theorem append (h : Unwinds os as) (h' : Unwinds os' bs) : Unwinds (os ++ os') (as ++ bs) := by
  induction h with
  | nil => exact h'
  | plain ha _ ih => exact .plain ha ih
  | putBack ht _ ih =>
    refine .putBack (ht.imp_right fun ⟨a, ha, hat⟩ => ?_) ih
    exact ⟨a, List.mem_append_left _ ha, hat⟩
  | unlink _ ih => exact .unlink ih
  | leave _ ih => exact .leave ih

theorem of_plain (h : ∀ a ∈ as, a.isPlain = true) : Unwinds [] as := by
  induction as with
  | nil => exact .nil
  | cons a as ih =>
    exact .plain (h a List.mem_cons_self) (ih fun b hb => h b (List.mem_cons_of_mem _ hb))

/-- The memory of a node whose destructor runs is still to be returned. -/
theorem reclaim_mem (h : Unwinds os as) (ho : o ∈ os) : .reclaim o ∈ as := by
  induction h with
  | nil => cases ho
  | plain _ _ ih => exact List.mem_cons_of_mem _ (ih ho)
  | putBack _ _ ih => exact List.mem_cons_of_mem _ (ih ho)
  | unlink _ ih => exact List.mem_cons_of_mem _ (List.mem_cons_of_mem _ (ih ho))
  | leave _ ih =>
    rcases List.mem_cons.mp ho with rfl | ho
    · simp
    · simp [ih ho]

end Unwinds

/-! ## Settlements -/

namespace Settlement

variable {s : Settlement} {ts : List TableId}

theorem plain_letGos (ts : List TableId) : ∀ a ∈ letGos ts, a.isPlain = true := by
  intro a ha
  obtain ⟨t, -, rfl⟩ := List.mem_map.mp ha
  rfl

theorem unwinds_putBacks (counted : Bool) {xs : List (Location × Slot)} {as : List Action}
    (hx : ∀ x ∈ xs, x.1.table = .root ∨ ∃ a ∈ as, a.worksOn x.1.table = true)
    (h : Unwinds [] as) : Unwinds [] (putBacks counted xs ++ as) := by
  induction xs generalizing counted with
  | nil => exact h
  | cons x xs ih =>
    refine .putBack ?_ (ih false fun y hy => hx y (List.mem_cons_of_mem _ hy))
    refine (hx x List.mem_cons_self).imp_right fun ⟨a, ha, hat⟩ => ?_
    exact ⟨a, List.mem_append_right _ ha, hat⟩

/-- What is left of an operation that lets go of the tables of its operands. -/
theorem unwinds (ho : ∀ x ∈ s.operands, x.1.table ∈ ts) : Unwinds [] (s.actions ts) := by
  have hletGo {t : TableId} (ht : t ∈ ts) : t = .root ∨ .letGo t ∈ letGos ts := by
    by_cases hroot : t = .root
    · exact .inl hroot
    · exact .inr (List.mem_map.mpr ⟨t, List.mem_filter.mpr ⟨ht, by simpa using hroot⟩, rfl⟩)
  have hsurplus : Unwinds [] (s.surplus.map .drop) := .of_plain (by simp [Action.isPlain])
  have hrest : Unwinds [] ((s.made.toList.map fun x => .place x.1 x.2.1 x.2.2) ++
      s.reply.toList.map .answer ++ letGos ts) := by
    refine .of_plain fun a ha => ?_
    simp only [List.mem_append, List.mem_map] at ha
    rcases ha with (⟨x, -, rfl⟩ | ⟨r, -, rfl⟩) | ha
    · rfl
    · rfl
    · exact plain_letGos ts a ha
  have hoperands := unwinds_putBacks s.counted (fun x (hx : x ∈ s.operands) => ?_) hrest
  · simpa [actions_eq, List.append_assoc] using hsurplus.append hoperands
  · refine (hletGo (ho x hx)).imp_right fun h => ⟨_, List.mem_append_right _ h, ?_⟩
    simp [Action.worksOn]

end Settlement

/-! ## Effects -/

namespace Effect

variable {e : Effect} {h : Heap}

theorem unwinds_closing {ts : List TableId} {call : Heap → Heap × Settlement}
    (ho : ∀ x ∈ (call h).2.operands, x.1.table ∈ ts) : Unwinds [] ((closing ts call).call h).2 :=
  Settlement.unwinds ho

theorem unwinds_settling {taken : List Location} {call : Heap → Heap × Settlement}
    (ho : ∀ x ∈ (call h).2.operands, x.1 ∈ taken) :
    Unwinds [] ((settling taken call).call h).2 :=
  Settlement.unwinds fun x hx => List.mem_map_of_mem (ho x hx)

theorem unwinds_closure (called : Bool) (during : List Step) (listed : Bool) :
    Unwinds [] (closure called during listed) :=
  .of_plain fun _ ha => (inner_closure ha).isPlain

theorem unwinds_mapWeak {j : Projection} {w : Weak} {during : List Step} :
    Unwinds [] ((mapWeak j w during).call h).2 := by
  unfold mapWeak
  dsimp only
  split
  · exact (unwinds_closure _ _ _).append (.plain rfl .nil)
  · exact (unwinds_closure _ _ _).append (Settlement.unwinds (by simp))

end Effect

namespace Machine

variable {m n : Machine} {s : Step} {e : Effect} {a : Action}

/-- A move alone has a destination that it has taken nothing from. -/
theorem Planned.unwinds (hp : m.Planned s e) : (∀ h, Unwinds [] (e.call h).2) ∨
    ∃ loc x target dst, e = .move loc x target ∧ m.resolve? dst = some target := by
  cases hp with
  | @move src dst loc x target hd hx => exact .inr ⟨loc, x, target, dst, rfl, hd⟩
  | mapWeak => exact .inl fun _ => Effect.unwinds_mapWeak
  | map | tryMap => exact .inl fun _ => (Effect.unwinds_closure _ _ _).append (.plain rfl .nil)
  | answer | write | setBudget | resetMetrics | remember | loop =>
    exact .inl fun _ => .plain rfl .nil
  | store | adoptUnique | drop | cloneStrong | cloneWeak | takeStrong | swap | reset | downgrade |
      aliasLike | assignStrong | assignWeak =>
    refine .inl fun h => Effect.unwinds_settling ?_
    simp [Strong.assign, Weak.assign]
  | construct | constructUnique | constructRaw | adopt | promote | share | release | lock | cast =>
    refine .inl fun h => Effect.unwinds_settling ?_
    repeat' split
    all_goals simp
  | resetRaw | resetWith =>
    refine .inl fun h => Effect.unwinds_settling ?_
    unfold Effect.replace
    split <;> simp

/-! ## Actions -/

theorem unwinds_startDestructor (m : Machine) (o : ObjectId) :
    ∃ os as, (m.startDestructor o).env.agenda = as ++ m.env.agenda ∧
      (m.startDestructor o).env.running = os ++ m.env.running ∧ Unwinds os as := by
  obtain ⟨h, env⟩ := m
  simp only [startDestructor, onHeap]
  split
  · next n hn =>
    refine ⟨[o], _, agenda_schedule _, rfl, ?_⟩
    refine (Unwinds.of_plain fun a ha => ?_).append (.leave .nil)
    obtain ⟨s, -, hs⟩ := List.mem_flatMap.mp ha
    rcases List.mem_pair.mp hs with rfl | rfl <;> rfl
  · exact ⟨[], _, agenda_schedule _, rfl, .unlink .nil⟩

theorem unwinds_dropSlot (m : Machine) (x : Slot) :
    ∃ os as, (m.dropSlot x).env.agenda = as ++ m.env.agenda ∧
      (m.dropSlot x).env.running = os ++ m.env.running ∧ Unwinds os as := by
  obtain ⟨h, env⟩ := m
  have hrelease (b : BlockId) : ∃ os as,
      (releaseOwner b ⟨h, env⟩).env.agenda = as ++ env.agenda ∧
      (releaseOwner b ⟨h, env⟩).env.running = os ++ env.running ∧ Unwinds os as := by
    by_cases last : h.strongCount b = 1
    · rw [releaseOwner_last last]
      cases h.blocks[b]?.bind (·.pointee) with
      | none => exact ⟨[], [.giveUpImplicit b], rfl, rfl, .plain rfl .nil⟩
      | some o =>
        obtain ⟨os, as, hagenda, hrunning, hw⟩ := unwinds_startDestructor
          (schedule [.giveUpImplicit b] ⟨((h.releaseStrong b).1.takePointee b).1, env⟩) o
        refine ⟨os, as ++ [.giveUpImplicit b], by simp [hagenda], hrunning, ?_⟩
        simpa using hw.append (.plain rfl .nil)
    · rw [releaseOwner_others last]
      exact ⟨[], [], rfl, rfl, .nil⟩
  rcases x with ⟨k, _ | b, v⟩ | ⟨k, _ | b, v⟩ | ⟨k, a, _ | o⟩ | r
  case strong.some => exact hrelease b
  case unique.some => exact unwinds_startDestructor ⟨h, env⟩ o
  all_goals exact ⟨[], [], rfl, rfl, .nil⟩

theorem plain_roundOf (n : Nat) (body : List Step) :
    ∀ a ∈ roundOf n body, a.isPlain = true := fun _ ha => (inner_roundOf ha).isPlain

end Machine

end Custody
