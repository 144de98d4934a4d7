import Custody.Proofs.Disposal
import Custody.Proofs.Unwinding
import Custody.Proofs.Views

/-!
# What is left of an object

* `Machine.Tidy`: a node that is gone holds nothing, unless an operation in progress still works on
  its table; and the agenda unwinds. Steps keep it.
* `Machine.Reachable.tidy`: so it is in every reachable state.
-/

namespace Custody

variable {o : ObjectId}

/-! ## Ends of destructors -/

/-- What is gone was gone, or its memory has just been returned. -/
theorem Loss.dying_or_gone {h : Heap} {K : Multiset Stake} {k : Stake} {t : Scene}
    (hl : Loss h K k t) (hp : t.1.phase? o = some .gone) :
    h.phase? o = some .gone ∨ k = .destruction o := by
  have hsame {h' : Heap} (ho : h'.objects = h.objects) (hp : h'.phase? o = some .gone) :
      h.phase? o = some .gone ∨ k = .destruction o :=
    .inl (Heap.phase?_congr ho o ▸ hp)
  have hbegin {g : Heap} {o' : ObjectId} (hg : g.objects = h.objects)
      (hp : (g.beginDestruction o').1.phase? o = some .gone) :
      h.phase? o = some .gone ∨ k = .destruction o := by
    rw [Heap.phase?_modify Heap.objects_beginDestruction] at hp
    split at hp
    · rw [Option.map_map] at hp
      obtain ⟨x, -, hx⟩ := Option.map_eq_some_iff.mp hp
      cases hx
    · exact hsame hg hp
  cases hl with
  | free | leak => exact .inl hp
  | release | disposeNothing | unobserve | giveUp => exact hsame (by simp) hp
  | dispose => exact hbegin (by simp) hp
  | destroy => exact hbegin rfl hp
  | @reclaim o' =>
    by_cases heq : o' = o
    · exact .inr (heq ▸ rfl)
    · rw [Heap.phase?_modify Heap.objects_endDestruction, if_neg heq] at hp
      exact .inl hp

namespace Machine

variable {m n : Machine} {a : Action} {t : TableId} {loc : Location} {x : Slot}

/-- An object is gone after a step if it was before, or if its memory was returned. -/
theorem Reachable.gone_of_step (hm : m.Reachable) (hp : m.step.heap.phase? o = some .gone) :
    m.heap.phase? o = some .gone ∨ ∃ rest, m.env.agenda = .reclaim o :: rest := by
  have hp : m.step.scene.1.phase? o = some .gone := hp
  have hscope := hm.grounded.scope
  have hbefore {s : Scene} (hs : Scoped s) (hst : Shifts m.yield? s m.step.scene) :
      s.1.phase? o = some .gone := by
    rcases hst.sameAt_or_newAt hs o with hat | hat
    · rw [← hat.phase]
      exact hp
    · rw [hat.phase] at hp
      cases hp
  rcases hm.grounded.step_cases with ⟨-, hst⟩ | ⟨k, K, s, hlost, hscene, hl, hst⟩
  · exact .inl (hbefore hscope hst)
  · rw [hscene] at hscope
    refine (hl.dying_or_gone (hbefore (hl.scoped hscope) hst)).imp_right fun hk => ?_
    rw [hk, lost?] at hlost
    cases hagenda : m.env.agenda with
    | nil => simp [hagenda] at hlost
    | cons a rest =>
      rw [hagenda] at hlost
      cases a <;> cases hlost
      exact ⟨rest, rfl⟩

theorem isGone_links : m.isGone (.links o) = true ↔ m.heap.phase? o = some .gone := by
  unfold isGone Heap.phase?
  dsimp only
  split
  · next x hx => simp [hx]
  · next hx => simp [hx]

/-! ## Tables that are empty -/

/-- A table that was empty is empty still if it was not the one that was filled. -/
theorem linksOf_withTable {new : Table} (hempty : m.heap.linksOf o = .empty)
    (hnew : t = .links o → new = .empty) : (m.withTable t new).heap.linksOf o = .empty := by
  by_cases ht : t = .links o
  · by_cases h : m.heap.Has t
    · have := table_withTable h new
      rw [hnew ht] at this ⊢
      rw [ht] at this ⊢
      exact this
    · subst ht
      have hnone : (m.withTable (.links o) new).heap.objects[o]? = none := by
        rw [Array.getElem?_eq_none_iff, size_withTable]
        exact Nat.le_of_not_lt h
      simp [Heap.linksOf, hnone]
  · have := table_withTable_of_ne (m := m) ht new
    exact this.trans hempty

theorem linksOf_takeOut {locs : List Location} (hempty : m.heap.linksOf o = .empty) :
    (m.takeOut locs).heap.linksOf o = .empty := by
  induction locs generalizing m with
  | nil => exact hempty
  | cons loc locs ih =>
    refine ih (linksOf_withTable hempty fun ht => ?_)
    have hempty : m.table loc.table = .empty := ht ▸ hempty
    rw [hempty]
    rfl

theorem linksOf_carryOut {e : Effect} (hempty : m.heap.linksOf o = .empty)
    (he : (e.call (m.takeOut e.taken).heap).1.SameLinks (m.takeOut e.taken).heap) :
    (m.carryOut e).heap.linksOf o = .empty := by
  have hcall := congrFun he.linksOf o
  rw [linksOf_takeOut hempty] at hcall
  exact hcall

theorem linksOf_store (hempty : m.heap.linksOf o = .empty) (ht : loc.table ≠ .links o)
    (x : Slot) : (m.store loc x).heap.linksOf o = .empty :=
  linksOf_withTable hempty fun h => absurd h ht

theorem linksOf_emptyOut (hempty : m.heap.linksOf o = .empty) (t : TableId) (a : Action) :
    (m.emptyOut t a).heap.linksOf o = .empty := by
  unfold emptyOut
  split
  · next y rest hpop =>
    refine linksOf_withTable hempty fun ht => ?_
    have hempty : m.table t = .empty := ht ▸ hempty
    rw [hempty] at hpop
    cases hpop
  · exact hempty

theorem linksOf_letGoOf (hempty : m.heap.linksOf o = .empty) (t : TableId) :
    (m.letGoOf t).heap.linksOf o = .empty := by
  unfold letGoOf
  split
  · exact linksOf_withTable hempty fun _ => rfl
  · exact hempty

theorem linksOf_startDestructor (m : Machine) (o' : ObjectId) :
    (m.startDestructor o').heap.linksOf = m.heap.linksOf := by
  obtain ⟨h, env⟩ := m
  have hbegin : (h.beginDestruction o').1.SameLinks h :=
    .modify Heap.objects_beginDestruction fun _ => rfl
  simp only [startDestructor, onHeap]
  split <;> exact hbegin.linksOf

/-- A drop leaves all links alone. -/
theorem linksOf_dropSlot (m : Machine) (x : Slot) :
    (m.dropSlot x).heap.linksOf = m.heap.linksOf := by
  obtain ⟨h, env⟩ := m
  have hrelease (b : BlockId) : (releaseOwner b ⟨h, env⟩).heap.linksOf = h.linksOf := by
    have htake : ((h.releaseStrong b).1.takePointee b).1.SameLinks h := .of_eq (by simp)
    by_cases last : h.strongCount b = 1
    · rw [releaseOwner_last last]
      cases h.blocks[b]?.bind (·.pointee) with
      | none => exact htake.linksOf
      | some o => exact (linksOf_startDestructor _ o).trans htake.linksOf
    · rw [releaseOwner_others last]
      exact (Heap.SameLinks.of_eq (by simp)).linksOf
  rcases x with ⟨k, _ | b, v⟩ | ⟨k, _ | b, v⟩ | ⟨k, a, _ | o'⟩ | r
  case strong.some => exact hrelease b
  case weak.some => exact (Heap.SameLinks.of_eq Heap.objects_releaseWeak).linksOf
  case unique.some => exact linksOf_startDestructor ⟨h, env⟩ o'
  all_goals rfl

/-- The table that the action puts a pointer into. -/
def storesIn? (m : Machine) : Action → Option TableId
  | .putBack loc _ _ => some loc.table
  | .place _ dst _ => (m.resolve? dst).map (·.table)
  | _ => none

/-- Nothing but what is stored fills a table. -/
theorem linksOf_perform (hm : m.Grounded) (hempty : m.heap.linksOf o = .empty)
    (ht : m.storesIn? a ≠ some (.links o)) : (m.perform a).heap.linksOf o = .empty := by
  have hclosing {call : Heap → Heap × Settlement} {ts : List TableId}
      (hc : (call m.heap).1.SameLinks m.heap) :
      (m.carryOut (.closing ts call)).heap.linksOf o = .empty :=
    linksOf_carryOut hempty hc
  cases a with
  | exec s =>
    simp only [perform]
    split
    · next e he =>
      obtain ⟨xs, -, hfits⟩ := plan_admits hm.resolves he
      exact linksOf_carryOut hempty hfits.changes.sameLinks
    · exact hempty
  | drop x => exact (congrFun (linksOf_dropSlot m x) o).trans hempty
  | unlink o' => exact linksOf_emptyOut hempty _ _
  | clear => exact linksOf_emptyOut hempty _ _
  | reclaim o' =>
    have hend : (m.heap.endDestruction o').SameLinks m.heap :=
      .modify Heap.objects_endDestruction fun _ => rfl
    exact (congrFun hend.linksOf o).trans hempty
  | giveUpImplicit b =>
    have hgive : (m.heap.giveUpImplicit b).SameLinks m.heap := .of_eq (by simp)
    exact (congrFun hgive.linksOf o).trans hempty
  | putBack loc x counted =>
    have hne : loc.table ≠ .links o := fun h => ht (by rw [storesIn?, h])
    cases counted with
    | false => exact linksOf_store hempty hne x
    | true => exact linksOf_store (m := m.reply _) hempty hne x
  | place x dst form =>
    simp only [perform, placeAt]
    cases form with
    | plain | promoted =>
      dsimp only
      split
      · exact hempty
      · next loc hloc =>
        refine linksOf_store (m := m.reply _) hempty (fun h => ht ?_) x
        simp only [storesIn?, hloc, Option.map_some, h]
    | during =>
      dsimp only
      split
      · exact hempty
      · next loc hloc =>
        have hloc : m.resolve? dst = some loc := hloc
        refine linksOf_store (m := m.takeReply.1.reply _) hempty (fun h => ht ?_) x
        simp only [storesIn?, hloc, Option.map_some, h]
  | letGo t => exact linksOf_letGoOf hempty t
  | project j source total =>
    refine hclosing ?_
    dsimp only
    cases total || (if total then j.view m.heap source else j.part? m.heap source).isSome with
    | false => exact .refl m.heap
    | true => exact .of_eq (Strong.objects_acquire source.block m.heap)
  | projectWeak j source locked =>
    refine hclosing (.trans (.of_eq (Weak.objects_acquire _ _)) (.of_eq ?_))
    exact Strong.objects_acquire locked.block m.heap
  | did | leave | answer | gather | forget | round | record | remember => exact hempty

/-! ## The agenda -/

/-- The agenda unwinds, but for what it begins with: the memory of a node that holds nothing is
returned next, or something is put into a table that is not that of a node that is gone. -/
inductive Unwinding (m : Machine) : Prop
  | whole (h : Unwinds m.env.running m.env.agenda)
  | reclaim {o rest} (ha : m.env.agenda = .reclaim o :: rest) (h : Unwinds m.env.running rest)
      (hempty : m.heap.linksOf o = .empty)
  | putBack {loc x counted rest} (ha : m.env.agenda = .putBack loc x counted :: rest)
      (h : Unwinds m.env.running rest) (ht : m.isGone loc.table = false)

theorem Unwinding.ration (h : m.Unwinding) (limits : Alloc → Option Nat) :
    (m.ration limits).Unwinding := by
  cases h with
  | whole h => exact .whole h
  | reclaim ha h hempty => exact .reclaim ha h hempty
  | putBack ha h ht => exact .putBack ha h ht

theorem Unwinding.prepend {os : List ObjectId} {as : List Action}
    (h : Unwinds m.env.running m.env.agenda) (hagenda : n.env.agenda = as ++ m.env.agenda)
    (hrunning : n.env.running = os ++ m.env.running) (hw : Unwinds os as) : n.Unwinding :=
  .whole (by rw [hagenda, hrunning]; exact hw.append h)

theorem Unwinding.prepend_plain {as : List Action} (h : Unwinds m.env.running m.env.agenda)
    (hagenda : n.env.agenda = as ++ m.env.agenda) (hrunning : n.env.running = m.env.running)
    (has : ∀ a ∈ as, a.isPlain = true) : n.Unwinding :=
  .whole (by rw [hagenda, hrunning]; exact (Unwinds.of_plain has).append h)

/-- A node whose destructor runs has its memory still to be returned. -/
theorem Unwinding.reclaim_mem (h : m.Unwinding) (ho : o ∈ m.env.running) :
    .reclaim o ∈ m.env.agenda := by
  cases h with
  | whole h => exact h.reclaim_mem ho
  | reclaim ha h => exact ha ▸ List.mem_cons_of_mem _ (h.reclaim_mem ho)
  | putBack ha h => exact ha ▸ List.mem_cons_of_mem _ (h.reclaim_mem ho)

/-- No path leads to the table of a node that is gone. -/
theorem Reachable.isGone_of_resolve? (hm : m.Reachable) (hw : m.Unwinding) {p : Path}
    (hl : m.resolve? p = some loc) : m.isGone loc.table = false := by
  have halive {o : ObjectId} {q : Phase} (hp : m.heap.phase? o = some q) (hq : q ≠ .gone) :
      m.isGone (.links o) = false := by
    rw [← Bool.not_eq_true, isGone_links, hp]
    exact fun h => hq (Option.some.inj h)
  refine resolve?_induction (P := fun t => m.isGone t = false) rfl (fun o ho => ?_)
    (fun x o hx ho => ?_) hl
  · exact halive (hm.dying_of_reclaim (hw.reclaim_mem ho)) (by simp)
  · exact halive (hm.alive_of_node? hx ho) (by simp)

theorem unwinding_carryOut {e : Effect} (h : Unwinds m.env.running m.env.agenda)
    (he : Unwinds [] (e.call (m.takeOut e.taken).heap).2) : (m.carryOut e).Unwinding :=
  .prepend h (agenda_carryOut e) (running_carryOut e) he

theorem unwinding_closing {ts : List TableId} {call : Heap → Heap × Settlement}
    (h : Unwinds m.env.running m.env.agenda)
    (ho : ∀ x ∈ (call m.heap).2.operands, x.1.table ∈ ts) :
    (m.carryOut (.closing ts call)).Unwinding :=
  unwinding_carryOut h (Effect.unwinds_closing ho)

theorem isGone_congr (hheap : n.heap = m.heap) (t : TableId) : n.isGone t = m.isGone t := by
  cases t with
  | root => rfl
  | links o => simp only [isGone, hheap]

/-- The end of an object is not a matter of tables. -/
theorem isGone_withTable (t t' : TableId) (new : Table) :
    (m.withTable t new).isGone t' = m.isGone t' := by
  cases t' with
  | root => rfl
  | links o =>
    rw [Bool.eq_iff_iff, isGone_links, isGone_links]
    cases t with
    | root => rfl
    | links o' =>
      have hobjects : (m.withTable (.links o') new).heap.objects =
          m.heap.objects.modify o' fun x => { x with links := new } := rfl
      rw [Heap.phase?_modify hobjects]
      split
      · next heq =>
        subst heq
        rw [Option.map_map]
        rfl
      · rfl

/-- A move begins with what it puts at its destination. -/
theorem unwinding_move {loc target : Location} (h : Unwinds m.env.running m.env.agenda) (x : Slot)
    (ht : m.isGone target.table = false) : (m.carryOut (.move loc x target)).Unwinding := by
  refine .putBack (agenda_carryOut _) ?_ ?_
  · have hrest : Unwinds [] (.answer .done :: Settlement.letGos [loc.table]) :=
      .plain rfl (.of_plain (Settlement.plain_letGos _))
    rw [running_carryOut]
    exact hrest.append h
  · exact (isGone_withTable _ _ _).trans ht

theorem unwinding_store {loc : Location} (h : Unwinds m.env.running m.env.agenda) (x : Slot) :
    (m.store loc x).Unwinding :=
  .prepend_plain h (agenda_store loc x) (running_store loc x) (by simp [Action.isPlain])

theorem unwinding_emptyOut (h : Unwinds m.env.running m.env.agenda) (t : TableId)
    (ha : a.isPlain = true) : (m.emptyOut t a).Unwinding := by
  unfold emptyOut
  split
  · next y rest hpop =>
    refine .prepend_plain h (by rw [agenda_schedule, agenda_withTable])
      (by rw [running_schedule, running_withTable]) fun b hb => ?_
    rcases List.mem_pair.mp hb with rfl | rfl
    · rfl
    · exact ha
  · exact .whole h

/-- A plain action leaves an agenda of the form. -/
theorem unwinding_perform (ha : a.isPlain = true)
    (h : Unwinds m.env.running m.env.agenda)
    (hopen : ∀ p loc, m.resolve? p = some loc → m.isGone loc.table = false) :
    (m.perform a).Unwinding := by
  have hschedule (as : List Action) (has : ∀ a ∈ as, a.isPlain = true) :
      (m.schedule as).Unwinding :=
    .prepend_plain h (agenda_schedule as) rfl has
  cases a with
  | leave | unlink | reclaim | putBack => cases ha
  | exec s =>
    simp only [perform]
    split
    · next e he =>
      rcases (plan_planned he).unwinds with hw | ⟨loc, x, target, dst, rfl, hd⟩
      · exact unwinding_carryOut h (hw _)
      · exact unwinding_move h x (hopen dst target hd)
    · exact .whole h
  | drop x =>
    obtain ⟨os, as, hagenda, hrunning, hw⟩ := unwinds_dropSlot m x
    exact .prepend h hagenda hrunning hw
  | place x dst form =>
    have hdrop {n : Machine} (hagenda : n.env.agenda = m.env.agenda)
        (hrunning : n.env.running = m.env.running) (r : Reply) :
        ((n.reply r).schedule [.drop x]).Unwinding :=
      .prepend_plain h (by rw [agenda_schedule, ← hagenda]; rfl) hrunning (by simp [Action.isPlain])
    simp only [perform, placeAt]
    cases form with
    | plain | promoted =>
      dsimp only
      split
      · exact hdrop rfl rfl _
      · exact unwinding_store (m := m.reply _) h x
    | during =>
      dsimp only
      split
      · exact hdrop (n := m.takeReply.1) rfl rfl _
      · exact unwinding_store (m := m.takeReply.1.reply _) h x
  | letGo t =>
    simp only [perform, letGoOf]
    split
    · refine .prepend_plain h (by rw [agenda_schedule, agenda_withTable])
        (by rw [running_schedule, running_withTable]) ?_
      simp [Action.isPlain]
    · exact .whole h
  | round n body => exact hschedule _ (plain_roundOf n body)
  | project j source total =>
    simp only [perform, finishProjection]
    exact unwinding_closing h (by simp)
  | projectWeak j source locked =>
    simp only [perform, finishWeakProjection]
    exact unwinding_closing h (by simp)
  | clear => exact unwinding_emptyOut h _ rfl
  | did | giveUpImplicit | answer | gather | forget | record | remember => exact .whole h

theorem resolve?_next {p : Path} (hn : m.next? = some (a, n)) : n.resolve? p = m.resolve? p := by
  unfold next? at hn
  split at hn
  · cases hn
  · cases hn
    rfl

/-- The agenda keeps its form. -/
theorem Reachable.step_unwinding (hm : m.Reachable) (hw : m.Unwinding) : m.step.Unwinding := by
  have hopen {p : Path} {loc : Location} (hl : m.resolve? p = some loc) :
      m.isGone loc.table = false := hm.isGone_of_resolve? hw hl
  cases hn : m.next? with
  | none => rwa [step_eq_self hn]
  | some an =>
    obtain ⟨a, n⟩ := an
    obtain ⟨hheap, hrunning, hagenda, -⟩ := next?_eq_some hn
    rw [step_eq_perform hn]
    have hputBack {loc : Location} {x : Slot} {counted : Bool}
        (h : Unwinds n.env.running n.env.agenda) :
        (n.perform (.putBack loc x counted)).Unwinding := by
      cases counted with
      | false => exact unwinding_store h x
      | true => exact unwinding_store (m := n.reply _) h x
    cases hw with
    | reclaim ha h hempty =>
      cases hagenda.symm.trans ha
      exact .whole (hrunning ▸ h)
    | putBack ha h ht =>
      cases hagenda.symm.trans ha
      exact hputBack (hrunning ▸ h)
    | whole h =>
      rw [hagenda, ← hrunning] at h
      generalize hos : n.env.running = os at h
      generalize has : n.env.agenda = as at h
      cases h with
      | plain ha h =>
        rw [← hos, ← has] at h
        refine unwinding_perform ha h fun p loc hl => ?_
        rw [resolve?_next hn] at hl
        exact (isGone_congr hheap _).trans (hopen hl)
      | putBack ht h =>
        rw [← hos, ← has] at h
        exact hputBack h
      | unlink h =>
        rw [← hos] at h
        simp only [perform, emptyOut]
        split
        · next x rest hpop =>
          refine .whole ?_
          rw [agenda_schedule, agenda_withTable, running_schedule, running_withTable, has]
          exact .plain rfl (.unlink h)
        · next hpop =>
          refine .reclaim has h ?_
          exact Table.eq_empty_of_popFirst? hpop
      | leave h =>
        refine .whole ?_
        simp only [perform, mapEnv, hos, has]
        exact .unlink h

/-! ## Nodes that are gone -/

/-- The agenda unwinds, and a node that is gone holds nothing once nothing works on its table. -/
structure Tidy (m : Machine) : Prop where
  unwinding : m.Unwinding
  gone : ∀ o, m.heap.phase? o = some .gone →
    m.heap.linksOf o = .empty ∨ ∃ a ∈ m.env.agenda, a.worksOn (.links o) = true

/-- What is returned to the table of a node that is gone is not the last that works on it. -/
theorem Unwinding.worksOn_of_putBack {counted : Bool} {rest : List Action} (hw : m.Unwinding)
    (ha : m.env.agenda = .putBack loc x counted :: rest) (ht : loc.table = .links o)
    (hp : m.heap.phase? o = some .gone) : ∃ a ∈ rest, a.worksOn (.links o) = true := by
  cases hw with
  | reclaim ha' => cases ha.symm.trans ha'
  | putBack ha' _ hopen =>
    cases ha.symm.trans ha'
    rw [ht, isGone_links.mpr hp] at hopen
    cases hopen
  | whole h =>
    rw [ha] at h
    generalize m.env.running = os at h
    cases h with
    | plain ha => cases ha
    | putBack htable =>
      rw [ht] at htable
      exact htable.resolve_left nofun

/-- A node whose memory is returned next holds nothing. -/
theorem Unwinding.linksOf_of_reclaim {rest : List Action} (hw : m.Unwinding)
    (ha : m.env.agenda = .reclaim o :: rest) : m.heap.linksOf o = .empty := by
  cases hw with
  | reclaim ha' _ hempty =>
    cases ha.symm.trans ha'
    exact hempty
  | putBack ha' => cases ha.symm.trans ha'
  | whole h =>
    rw [ha] at h
    generalize m.env.running = os at h
    cases h with
    | plain ha => cases ha

/-- With the last that works on it the table of a node that is gone is emptied. -/
theorem linksOf_letGoOf_last (hp : m.heap.phase? o = some .gone)
    (hlast : ∀ a ∈ m.env.agenda, a.worksOn (.links o) = false) :
    (m.letGoOf (.links o)).heap.linksOf o = .empty := by
  have hany : m.env.agenda.any (·.worksOn (.links o)) = false := by simpa using hlast
  obtain ⟨y, hy, -⟩ := Option.map_eq_some_iff.mp hp
  obtain ⟨ho, -⟩ := Array.getElem?_eq_some_iff.mp hy
  rw [letGoOf, isGone_links.mpr hp, hany]
  exact table_withTable (t := .links o) ho .empty

theorem worksOn_closing {ts : List TableId} {call : Heap → Heap × Settlement} (ht : .links o ∈ ts) :
    ∃ a ∈ (m.carryOut (.closing ts call)).env.agenda, a.worksOn (.links o) = true := by
  refine ⟨.letGo (.links o), ?_, by simp [Action.worksOn]⟩
  rw [agenda_carryOut]
  refine List.mem_append_left _ (List.mem_append_right _ ?_)
  exact List.mem_map.mpr ⟨_, List.mem_filter.mpr ⟨ht, rfl⟩, rfl⟩

/-- Tables of what is gone are empty, or about to be. -/
theorem Reachable.step_tidy (hm : m.Reachable) (ht : m.Tidy) : m.step.Tidy := by
  refine ⟨hm.step_unwinding ht.unwinding, fun o hp => ?_⟩
  cases hn : m.next? with
  | none =>
    rw [step_eq_self hn] at hp ⊢
    exact ht.gone o hp
  | some an =>
    obtain ⟨a, n⟩ := an
    obtain ⟨hheap, -, hagenda, -⟩ := next?_eq_some hn
    obtain ⟨hg, -, -⟩ := hm.grounded.next hn
    obtain ⟨as, has⟩ := hm.step_agenda hagenda
    have hempty (h : m.heap.linksOf o = .empty) (hs : n.storesIn? a ≠ some (.links o)) :
        m.step.heap.linksOf o = .empty := by
      rw [step_eq_perform hn]
      exact linksOf_perform hg (by rwa [hheap]) hs
    rcases hm.gone_of_step hp with hgone | ⟨rest, ha⟩
    · by_cases hlater : ∃ c ∈ n.env.agenda, c.worksOn (.links o) = true
      · obtain ⟨c, hc, hct⟩ := hlater
        exact .inr ⟨c, has ▸ List.mem_append_right _ hc, hct⟩
      have hputBack {loc : Location} {x : Slot} {counted : Bool} (ha : a = .putBack loc x counted) :
          loc.table ≠ .links o := fun h =>
        hlater (ht.unwinding.worksOn_of_putBack (ha ▸ hagenda) h hgone)
      have hstores : n.storesIn? a ≠ some (.links o) := by
        intro hs
        cases a with
        | putBack loc x counted => exact hputBack rfl (Option.some.inj hs)
        | place x dst form =>
          obtain ⟨loc, hloc, hlo⟩ := Option.map_eq_some_iff.mp hs
          rw [resolve?_next hn] at hloc
          have hopen := hm.isGone_of_resolve? ht.unwinding hloc
          rw [hlo, isGone_links.mpr hgone] at hopen
          cases hopen
        | _ => cases hs
      rcases ht.gone o hgone with h | ⟨c, hc, hct⟩
      · exact .inl (hempty h hstores)
      rcases List.mem_cons.mp (hagenda ▸ hc) with rfl | hc
      · rw [step_eq_perform hn]
        cases c with
        | putBack loc x counted => exact absurd (by simpa [Action.worksOn] using hct) (hputBack rfl)
        | letGo t =>
          obtain rfl : t = .links o := by simpa [Action.worksOn] using hct
          refine .inl (linksOf_letGoOf_last (by rwa [hheap]) fun c hc => ?_)
          rw [← Bool.not_eq_true]
          exact fun h => hlater ⟨c, hc, h⟩
        | project j source total =>
          have hj : j.source.table = .links o := by simpa [Action.worksOn] using hct
          exact .inr (worksOn_closing (by simp [hj]))
        | projectWeak j source locked =>
          have hj : j.source.table = .links o := by simpa [Action.worksOn] using hct
          exact .inr (worksOn_closing (by simp [hj]))
        | _ => cases hct
      · exact absurd ⟨c, hc, hct⟩ hlater
    · cases hagenda.symm.trans ha
      exact .inl (hempty (ht.unwinding.linksOf_of_reclaim ha) fun hs => by cases hs)

/-- Every reachable state is tidy. -/
theorem Reachable.tidy (hm : m.Reachable) : m.Tidy := by
  induction hm with
  | start steps watch =>
    refine ⟨.whole ?_, fun o hp => ?_⟩
    · refine .of_plain fun a ha => ?_
      rcases List.mem_append.mp ha with ha | ha
      · obtain ⟨s, -, hs⟩ := List.mem_flatMap.mp ha
        rcases List.mem_pair.mp hs with rfl | rfl <;> rfl
      · obtain rfl := List.mem_singleton.mp ha
        rfl
    · cases hp
  | step hm ih => exact hm.step_tidy ih
  | ration limits _ ih => exact ⟨ih.unwinding.ration limits, ih.gone⟩

end Machine

end Custody
