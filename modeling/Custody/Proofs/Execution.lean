import Custody.Proofs.Remains

/-!
# Which tables an action works on

* `Machine.step_exec`: what the execution of a step comes to.
* `Action.Touches`: the action takes the slot at a location, or puts one there.
* `Machine.get?_perform`: what is at any other location stays.
-/

namespace Custody

/-- What is left of a table without its first slot. -/
theorem Table.get?_popFirst? {t rest : Table} {x : Slot} {name : String}
    (h : t.popFirst? = some (x, rest)) (hn : t.names.head? ≠ some name) :
    rest.get? name = t.get? name := by
  obtain ⟨_ | ⟨⟨n, y⟩, es⟩, hes⟩ := t
  · cases h
  · cases h
    have hne : n ≠ name := by simpa [names] using hn
    simp [get?, hne]

/-- Two locations in one table have different names. -/
theorem Location.name_ne {loc other : Location} (h : other ≠ loc) (ht : loc.table = other.table) :
    other.name ≠ loc.name := by
  intro hn
  obtain ⟨t, name⟩ := loc
  obtain ⟨t', name'⟩ := other
  obtain rfl : t = t' := ht
  obtain rfl : name' = name := hn
  exact h rfl

namespace Machine

variable {m : Machine} {loc : Location} {t : TableId} {x : Slot} {s : Step} {rest : List Action}

/-! ## Execution -/

theorem takeOut_mapEnv (locs : List Location) :
    (m.mapEnv fun e => { e with agenda := rest }).takeOut locs =
      (m.takeOut locs).mapEnv fun e => { e with agenda := rest } := by
  induction locs generalizing m with
  | nil => rfl
  | cons loc locs ih =>
    obtain ⟨t, name⟩ := loc
    rw [takeOut_cons, takeOut_cons, ← ih]
    cases t <;> rfl

theorem takeOut_ration (limits : Alloc → Option Nat) (locs : List Location) :
    (m.ration limits).takeOut locs = (m.takeOut locs).ration limits := by
  induction locs generalizing m with
  | nil => rfl
  | cons loc locs ih =>
    obtain ⟨t, name⟩ := loc
    rw [takeOut_cons, takeOut_cons, ← ih]
    cases t <;> rfl

/-- Operands are out of their tables; nothing else changes in the heap. -/
theorem heap_takeOut (locs : List Location) :
    ∃ xs, (m.takeOut locs).heap = { m.heap with objects := xs } := by
  induction locs generalizing m with
  | nil => exact ⟨_, rfl⟩
  | cons loc locs ih =>
    obtain ⟨t, name⟩ := loc
    obtain ⟨xs, hxs⟩ := ih (m := m.erase ⟨t, name⟩)
    rw [takeOut_cons, hxs]
    cases t <;> exact ⟨xs, rfl⟩

/-- A plan does not depend on what is left to do. -/
theorem plan_mapEnv (m : Machine) (rest : List Action) (s : Step) :
    (m.mapEnv fun e => { e with agenda := rest }).plan s = m.plan s := by
  obtain ⟨h, env⟩ := m
  cases s <;> rfl

/-- The step does what its plan says. -/
theorem step_exec {e : Effect} (ha : m.env.agenda = .exec s :: rest) (hplan : m.plan s = .ok e) :
    m.step = ⟨(e.call (m.takeOut e.taken).heap).1,
      { (m.takeOut e.taken).env with
        agenda := (e.call (m.takeOut e.taken).heap).2 ++ rest }⟩ := by
  rw [step_eq_perform (next?_of_agenda ha), perform, plan_mapEnv, hplan]
  simp only [carryOut, takeOut_mapEnv]
  rfl

/-! ## Other locations -/

end Machine

/-- The action takes the slot at `loc` out of its table, or puts one there. -/
def Action.Touches (m : Machine) (loc : Location) : Action → Prop
  | exec s => ∃ e, m.plan s = .ok e ∧ loc ∈ e.taken
  | putBack target _ _ => target = loc
  | place _ dst _ => m.resolve? dst = some loc
  | unlink o => loc.table = .links o ∧ (m.table loc.table).names.head? = some loc.name
  | clear => loc.table = .root ∧ (m.table loc.table).names.head? = some loc.name
  | letGo t => loc.table = t ∧ m.isGone t = true ∧ m.env.agenda.any (·.worksOn t) = false
  | _ => False

namespace Machine

variable {m n : Machine} {loc loc' : Location} {t : TableId} {x : Slot} {a : Action}

/-- The tables of the two machines are the same. -/
structure SameTables (m n : Machine) : Prop where
  root : n.env.root = m.env.root
  links : n.heap.linksOf = m.heap.linksOf

theorem SameTables.get? (h : m.SameTables n) : n.get? = m.get? := by
  funext loc
  obtain ⟨t, name⟩ := loc
  cases t with
  | root => exact congrArg (·.get? name) h.root
  | links o => exact congrArg (fun links => (links o).get? name) h.links

/-- A table that changes elsewhere has the same slot at the location. -/
theorem get?_withTable {new : Table}
    (h : loc.table = t → new.get? loc.name = (m.table t).get? loc.name) :
    (m.withTable t new).get? loc = m.get? loc := by
  by_cases ht : t = loc.table
  · subst ht
    by_cases hhas : m.heap.Has loc.table
    · rw [get?, table_withTable hhas, h rfl, get?]
    · obtain ⟨_ | o, name⟩ := loc
      · exact absurd trivial hhas
      · have hnone : m.heap.objects[o]? = none :=
          Array.getElem?_eq_none (Nat.le_of_not_lt hhas)
        have hsame : m.withTable (.links o) new = m := by
          obtain ⟨h, env⟩ := m
          simp only [withTable, mapHeap, Heap.withLinks, Heap.updateObject,
            Array.modify_eq_self _ hnone]
        rw [hsame]
  · rw [get?, table_withTable_of_ne ht, get?]

theorem get?_erase (h : loc' ≠ loc) : (m.erase loc').get? loc = m.get? loc := by
  refine get?_withTable fun ht => ?_
  rw [Table.get?_erase, if_neg (Location.name_ne h ht)]

theorem get?_takeOut {locs : List Location} (h : loc ∉ locs) :
    (m.takeOut locs).get? loc = m.get? loc := by
  induction locs generalizing m with
  | nil => rfl
  | cons loc' locs ih =>
    obtain ⟨hne, hnot⟩ := List.ne_and_not_mem_of_not_mem_cons h
    rw [takeOut_cons, ih hnot, get?_erase hne.symm]

theorem get?_carryOut {e : Effect} (h : loc ∉ e.taken)
    (he : (e.call (m.takeOut e.taken).heap).1.SameLinks (m.takeOut e.taken).heap) :
    (m.carryOut e).get? loc = m.get? loc := by
  have hsame : (m.takeOut e.taken).SameTables (m.carryOut e) := ⟨rfl, he.linksOf⟩
  rw [hsame.get?, get?_takeOut h]

theorem get?_schedule (as : List Action) : (m.schedule as).get? loc = m.get? loc := by
  have hsame : m.SameTables (m.schedule as) := ⟨rfl, rfl⟩
  rw [hsame.get?]

theorem get?_store_of_ne (h : loc' ≠ loc) : (m.store loc' x).get? loc = m.get? loc := by
  rw [store, get?_schedule, insert]
  refine get?_withTable fun ht => ?_
  rw [Table.get?_insert, if_neg (Location.name_ne h ht)]

theorem get?_store (ht : m.heap.Has loc.table) : (m.store loc x).get? loc = some x := by
  rw [store, get?_schedule, insert, get?, table_withTable ht, Table.get?_insert, if_pos rfl]

theorem get?_emptyOut (a : Action)
    (h : ¬ (loc.table = t ∧ (m.table loc.table).names.head? = some loc.name)) :
    (m.emptyOut t a).get? loc = m.get? loc := by
  unfold emptyOut
  split
  · next y rest hpop =>
    rw [get?_schedule]
    refine get?_withTable fun ht => Table.get?_popFirst? hpop fun hn => h ⟨ht, ?_⟩
    rw [ht]
    exact hn
  · rfl

theorem get?_letGoOf
    (h : ¬ (loc.table = t ∧ m.isGone t = true ∧ m.env.agenda.any (·.worksOn t) = false)) :
    (m.letGoOf t).get? loc = m.get? loc := by
  unfold letGoOf
  split
  · next hgone =>
    simp only [Bool.and_eq_true, Bool.not_eq_true'] at hgone
    dsimp only
    rw [get?_schedule]
    exact get?_withTable fun ht => absurd ⟨ht, hgone⟩ h
  · rfl

theorem sameTables_startDestructor (m : Machine) (o : ObjectId) :
    m.SameTables (m.startDestructor o) := by
  refine ⟨?_, linksOf_startDestructor m o⟩
  obtain ⟨h, env⟩ := m
  simp only [startDestructor, onHeap]
  split <;> rfl

/-- A drop leaves all tables alone. -/
theorem sameTables_dropSlot (m : Machine) (x : Slot) : m.SameTables (m.dropSlot x) := by
  refine ⟨?_, linksOf_dropSlot m x⟩
  obtain ⟨h, env⟩ := m
  have hrelease (b : BlockId) : (releaseOwner b ⟨h, env⟩).env.root = env.root := by
    by_cases last : h.strongCount b = 1
    · rw [releaseOwner_last last]
      cases h.blocks[b]?.bind (·.pointee) with
      | none => rfl
      | some o => exact (sameTables_startDestructor _ o).root
    · rw [releaseOwner_others last]
  rcases x with ⟨k, _ | b, v⟩ | ⟨k, _ | b, v⟩ | ⟨k, a, _ | o'⟩ | r
  case strong.some => exact hrelease b
  case unique.some => exact (sameTables_startDestructor ⟨h, env⟩ o').root
  all_goals rfl

/-- What an action does not take or replace stays where it is. -/
theorem get?_perform (hm : m.Grounded) (h : ¬ a.Touches m loc) :
    (m.perform a).get? loc = m.get? loc := by
  have hsame {n : Machine} (hn : m.SameTables n) : n.get? loc = m.get? loc := by rw [hn.get?]
  have hclosing {call : Heap → Heap × Settlement} {ts : List TableId}
      (hc : (call m.heap).1.SameLinks m.heap) :
      (m.carryOut (.closing ts call)).get? loc = m.get? loc :=
    get?_carryOut List.not_mem_nil hc
  cases a with
  | exec s =>
    simp only [perform]
    split
    · next e he =>
      obtain ⟨xs, -, hfits⟩ := plan_admits hm.resolves he
      exact get?_carryOut (fun hmem => h ⟨e, he, hmem⟩) hfits.changes.sameLinks
    · exact hsame ⟨rfl, rfl⟩
  | drop x => exact hsame (sameTables_dropSlot m x)
  | unlink o => exact get?_emptyOut _ h
  | clear => exact get?_emptyOut _ h
  | reclaim o =>
    have hend : (m.heap.endDestruction o).SameLinks m.heap :=
      .modify Heap.objects_endDestruction fun _ => rfl
    exact hsame ⟨rfl, hend.linksOf⟩
  | giveUpImplicit b =>
    have hgive : (m.heap.giveUpImplicit b).SameLinks m.heap := .of_eq (by simp)
    exact hsame ⟨rfl, hgive.linksOf⟩
  | putBack target x counted =>
    cases counted with
    | false => exact get?_store_of_ne h
    | true => exact get?_store_of_ne (m := m.reply _) h
  | place x dst form =>
    obtain ⟨rs, hplace⟩ := placeAt_eq m x dst form
    simp only [perform]
    rw [hplace]
    split
    · next target htarget =>
      exact get?_store_of_ne (m := m.mapEnv fun e => { e with replies := rs }) fun heq =>
        h (heq ▸ htarget)
    · exact get?_schedule (m := m.mapEnv fun e => { e with replies := rs }) _
  | letGo t => exact get?_letGoOf h
  | project j source total =>
    refine hclosing ?_
    dsimp only
    cases total || (if total then j.view m.heap source else j.part? m.heap source).isSome with
    | false => exact .refl m.heap
    | true => exact .of_eq (Strong.objects_acquire source.block m.heap)
  | projectWeak j source locked =>
    refine hclosing (.trans (.of_eq (Weak.objects_acquire _ _)) (.of_eq ?_))
    exact Strong.objects_acquire locked.block m.heap
  | did | leave | answer | gather | forget | round | record | remember => exact hsame ⟨rfl, rfl⟩

end Machine

end Custody
