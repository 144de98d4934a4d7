import Custody.Proofs.Remains
import Custody.Proofs.Teardown

/-!
# The moments of a teardown

* `Machine.Reports`: what the destructors report that have started since a moment.
* `Machine.Torn`: the moments of a teardown.
* `Machine.Torn.exec`, `Machine.Torn.own`, `Machine.Torn.falls`, `Machine.Torn.unlink`,
  `Machine.Torn.quiet`: the steps by what they do.
* `Machine.Torn.step`: a step of a teardown leads from one such moment to the next.
-/

namespace Custody

namespace Machine

open Scene

variable {m s : Machine} {o : ObjectId}

/-! ## What is reported -/

/-- The events are what the destructors report that have started since. -/
def Reports (m s : Machine) (es : List Event) : Prop :=
  ∃ os : List ObjectId, os.Nodup ∧
    (∀ o, o ∈ os ↔ m.heap.phase? o = some .alive ∧ s.heap.phase? o ≠ some .alive) ∧
    es.Perm (os.flatMap m.heap.partingsOf)

/-- What the destructor is going to report that starts with the next action. -/
def partings (m : Machine) : List Event :=
  match m.starts? with
  | some o => m.heap.partingsOf o
  | none => []

theorem partings_eq_nil (hm : m.starts? = none) : m.partings = [] := by
  simp [partings, hm]

theorem reports_self (m : Machine) : m.Reports m [] :=
  ⟨[], .nil, fun o => by simp, .nil⟩

/-- What a destructor that starts is going to report is added to what is reported in all. -/
theorem Reports.step {es es' ds : List Event} (hr : m.Reports s es)
    (hs : s.Grounded) (howned : Owned s.scene) (hd : m.scene.Decays s.scene ds)
    (hes : es'.Perm (s.partings ++ es)) : m.Reports s.step es' := by
  obtain ⟨os, hnodup, hos, hperm⟩ := hr
  -- what was alive in the beginning ends when its destructor starts, and stays as it is otherwise
  have hstep {o : ObjectId} (hm : m.heap.phase? o = some .alive) (hne : s.starts? ≠ some o) :
      s.step.heap.phase? o = some .alive ↔ s.heap.phase? o = some .alive := by
    obtain ⟨p, hp⟩ := hd.erodes.phase?_isSome hm
    have hp : s.heap.phase? o = some p := hp
    obtain ⟨q, hq, hiff⟩ := hs.step_phase howned hp hne
    rw [hq, hp, Option.some_inj, Option.some_inj, hiff]
  cases hstart : s.starts? with
  | none =>
    rw [partings_eq_nil hstart, List.nil_append] at hes
    refine ⟨os, hnodup, fun o => ?_, hes.trans hperm⟩
    rw [hos o]
    refine and_congr_right fun hm => not_congr (hstep hm ?_).symm
    simp [hstart]
  | some o =>
    rw [partings, hstart] at hes
    have halive := hs.alive_of_starts? howned hstart
    have hdying := hs.dying_of_starts? howned hstart
    have hm : m.heap.phase? o = some .alive := hd.erodes.alive halive
    refine ⟨o :: os, List.nodup_cons.mpr ⟨fun ho => ((hos o).mp ho).2 halive, hnodup⟩,
      fun o' => ?_, ?_⟩
    · by_cases heq : o' = o
      · subst heq
        simp [hm, hdying]
      · rw [List.mem_cons, or_iff_right heq, hos o']
        refine and_congr_right fun hm => not_congr (hstep hm ?_).symm
        rw [hstart, ne_eq, Option.some_inj]
        exact Ne.symm heq
    · have hsame : s.heap.partingsOf o = m.heap.partingsOf o := by
        rw [Heap.partingsOf, Heap.partingsOf]
        exact congrArg (fun x => (x.map Object.partings).getD [])
          (hd.erodes.object_of_alive halive).symm
      rw [List.flatMap_cons, ← hsame]
      exact hes.trans (hperm.append_left _)

/-- Where the same is alive in the end, the same is reported. -/
theorem Reports.perm {n n' : Machine} {es es' : List Event} (hn : m.Reports n es)
    (hn' : m.Reports n' es')
    (hiff : ∀ o, n.heap.phase? o = some .alive ↔ n'.heap.phase? o = some .alive) :
    es.Perm es' := by
  obtain ⟨os, hnodup, hos, hperm⟩ := hn
  obtain ⟨os', hnodup', hos', hperm'⟩ := hn'
  have hsame : os.Perm os' := by
    refine (List.perm_ext_iff_of_nodup hnodup hnodup').mpr fun o => ?_
    rw [hos o, hos' o]
    exact and_congr_right fun _ => not_congr (hiff o)
  exact hperm.trans ((hsame.flatMap_right _).trans hperm'.symm)

/-! ## Moments of a teardown -/

/-- The environment while slots are dropped: what is new lies on top of what was there. -/
def meantime (e : Environment) (root : Table) (j : Nat) (fs : List Frame) (rs : List Reply)
    (as : List Action) : Environment :=
  { e with
    root
    running := fs.map (·.object) ++ e.running
    agenda := as ++ e.agenda
    replies := rs ++ (List.replicate j .done ++ e.replies) }

/-- The machine has come from the first one, where the slots of `names` were to be dropped. Those of
`ns` still are. -/
structure Torn (m : Machine) (names ns : List String) (k : Nat) (fs : List Frame)
    (es : List Event) (rs : List Reply) (as : List Action) (s : Machine) : Prop where
  tearing : Tearing ns k fs es rs as
  env : ∃ j, j + k = names.length ∧ s.env = meantime m.env s.env.root j fs rs as
  root : ns.foldl .erase s.env.root = names.foldl .erase m.env.root
  slots : ∀ n ∈ ns, (s.env.root.get? n).isSome
  nodup : ns.Nodup
  tables : ∀ f ∈ fs, s.heap.linksOf f.object = f.table
  grounded : s.Grounded
  sound : Sound s.scene
  decays : ∃ ds, m.scene.Decays s.scene ds ∧ m.Reports s (ds ++ es)
  emptied : ∀ o, m.heap.phase? o = some .alive → s.heap.phase? o ≠ some .alive →
    s.heap.linksOf o = .empty ∨ .unlink o ∈ as

section Torn

variable {names ns ns' : List String} {k k' : Nat} {fs fs' : List Frame} {es es' : List Event}
  {rs rs' : List Reply} {a : Action} {as as' : List Action}

theorem Torn.agenda (hs : Torn m names ns k fs es rs as s) :
    s.env.agenda = as ++ m.env.agenda := by
  obtain ⟨j, -, henv⟩ := hs.env
  rw [henv]
  rfl

/-- The destructors that are under way are those of distinct objects, which are dying. -/
theorem Torn.destructions (hs : Torn m names ns k fs es rs as s) (os : List ObjectId)
    (hos : ((os.map Stake.destruction : List Stake) : Multiset Stake) ≤ stakesOf as) :
    os.Nodup ∧ ∀ o ∈ os, s.heap.phase? o = some .dying := by
  have hle : ((os.map Stake.destruction : List Stake) : Multiset Stake) ≤ s.stakes := by
    refine hos.trans ?_
    rw [stakes, hs.agenda, stakesOf_append, ← add_assoc]
    exact (Multiset.le_add_left _ _).trans (Multiset.le_add_right _ _)
  have hdying (o : ObjectId) (ho : o ∈ os) : s.heap.phase? o = some .dying := by
    refine hs.sound.owned.dying hs.sound.scope (tally_pos (k := .destruction o) ?_ rfl)
    exact Multiset.mem_of_le hle (Multiset.mem_coe.mpr (List.mem_map_of_mem ho))
  refine ⟨List.nodup_iff_count_le_one.mpr fun o => ?_, hdying⟩
  by_cases ho : o ∈ os
  · have hone : tally Stake.destroys? s.stakes o = 1 :=
      (hs.sound.owned o .dying (hdying o ho)).2
    have hcount : tally Stake.destroys? (os.map Stake.destruction : List Stake) o = os.count o := by
      rw [tally, Multiset.coe_countP, List.countP_map, List.count]
      refine List.countP_congr fun o' _ => ?_
      simp [Stake.destroys?]
    rw [← hcount, ← hone]
    exact Multiset.countP_le_of_le _ hle
  · rw [List.count_eq_zero_of_not_mem ho]
    exact Nat.zero_le 1

theorem Torn.frames (hs : Torn m names ns k fs es rs as s) :
    (fs.map (·.object)).Nodup ∧ ∀ o ∈ fs.map (·.object), s.heap.phase? o = some .dying := by
  refine hs.destructions _ ?_
  rw [List.map_map]
  exact hs.tearing.destructions_le

theorem Torn.dying (hs : Torn m names ns k fs es rs as s) :
    ∀ f ∈ fs, s.heap.phase? f.object = some .dying :=
  fun _ hf => hs.frames.2 _ (List.mem_map_of_mem hf)

/-- The form of the agenda is kept by a step that leaves the tables of the other frames alone. -/
theorem Torn.next (hs : Torn m names ns k fs es rs as s) (ht : Tearing ns' k' fs' es' rs' as')
    {root : Table}
    (henv : ∃ j, j + k' = names.length ∧ s.step.env = meantime m.env root j fs' rs' as')
    (hroot : ns'.foldl .erase root = ns.foldl .erase s.env.root)
    (hslots : ∀ n ∈ ns', (root.get? n).isSome) (hnodup : ns'.Nodup)
    (htables : ∀ f ∈ fs', s.step.heap.linksOf f.object = f.table)
    (hdecays : ∃ ds, s.scene.Decays s.step.scene ds ∧ (ds ++ es').Perm (s.partings ++ es))
    (hunlink : ∀ o, s.heap.linksOf o = .empty ∨ .unlink o ∈ as →
      s.step.heap.linksOf o = .empty ∨ .unlink o ∈ as')
    (hstarts : ∀ o, s.starts? = some o → .unlink o ∈ as') :
    Torn m names ns' k' fs' es' rs' as' s.step := by
  obtain ⟨j, hj, henv⟩ := henv
  have hroot' : s.step.env.root = root := by rw [henv, meantime]
  obtain ⟨ds, hds, hreports⟩ := hs.decays
  obtain ⟨ds', hds', hperm⟩ := hdecays
  refine ⟨ht, ⟨j, hj, hroot'.symm ▸ henv⟩, (hroot' ▸ hroot).trans hs.root, hroot' ▸ hslots, hnodup,
    htables, hs.grounded.step, ?_, ⟨ds ++ ds', hds.trans hds', ?_⟩, fun o hm hne => ?_⟩
  · exact step_induction hs.grounded hs.sound (fun _ h hl => h.loss hl) fun _ h hc => h.shift hc
  · refine hreports.step hs.grounded hs.sound.owned hds ?_
    rw [List.append_assoc]
    refine (hperm.append_left ds).trans ?_
    rw [← List.append_assoc, ← List.append_assoc]
    exact List.perm_append_comm.append_right es
  · by_cases halive : s.heap.phase? o = some .alive
    · by_cases hstart : s.starts? = some o
      · exact .inr (hstarts o hstart)
      · obtain ⟨q, hq, hiff⟩ := hs.grounded.step_phase hs.sound.owned halive hstart
        rw [hq, hiff.mpr rfl] at hne
        exact absurd rfl hne
    · exact hunlink o (hs.emptied o hm halive)

/-- A step at which no destructor starts. -/
theorem Torn.calm {root : Table} {ds : List Event} (hs : Torn m names ns k fs es rs as s)
    (hstarts : s.starts? = none) (ht : Tearing ns' k' fs' es' rs' as')
    (henv : ∃ j, j + k' = names.length ∧ s.step.env = meantime m.env root j fs' rs' as')
    (hroot : ns'.foldl .erase root = ns.foldl .erase s.env.root)
    (hslots : ∀ n ∈ ns', (root.get? n).isSome) (hnodup : ns'.Nodup)
    (htables : ∀ f ∈ fs', s.step.heap.linksOf f.object = f.table)
    (hdecays : s.scene.Decays s.step.scene ds) (hes : ds ++ es' = es)
    (hunlink : ∀ o, s.heap.linksOf o = .empty ∨ .unlink o ∈ as →
      s.step.heap.linksOf o = .empty ∨ .unlink o ∈ as') :
    Torn m names ns' k' fs' es' rs' as' s.step := by
  have hreports : ds ++ es' = s.partings ++ es := by
    rw [partings_eq_nil hstarts, List.nil_append, hes]
  refine hs.next ht henv hroot hslots hnodup htables ⟨ds, hdecays, .of_eq hreports⟩ hunlink ?_
  intro o ho
  rw [hstarts] at ho
  cases ho

/-- The machine without the first action of its agenda. -/
theorem Torn.rest (hs : Torn m names ns k fs es rs (a :: as) s) :
    ∃ n, s.next? = some (a, n) ∧ n.heap = s.heap ∧ s.stakes = a.stakes + n.stakes ∧
      ∃ j, j + k = names.length ∧ n.env = meantime m.env s.env.root j fs rs as := by
  have hn := next?_of_agenda hs.agenda
  obtain ⟨hheap, -, -, hstakes⟩ := next?_eq_some hn
  obtain ⟨j, hj, henv⟩ := hs.env
  refine ⟨_, hn, hheap, hstakes, j, hj, ?_⟩
  have hrest : (s.mapEnv fun e => { e with agenda := as ++ m.env.agenda }).env =
      { s.env with agenda := as ++ m.env.agenda } := rfl
  exact hrest.trans (by rw [henv]; rfl)

/-- A stake is given up. -/
theorem Torn.falls {l : Stake} (hs : Torn m names ns k fs es [] (a :: as) s)
    (ht : Tearing ns k fs es [] as) (ha : a.loses? = some l) (hu : ∀ o, a ≠ .unlink o)
    (hfalls : ∀ n, s.next? = some (a, n) → n.Falls l s.step) :
    ∃ ns k fs es rs as, Torn m names ns k fs es rs as s.step := by
  obtain ⟨n, hn, hheap, hstakes, j, hj, henv⟩ := hs.rest
  obtain ⟨⟨t, hl, hscene⟩, fs', as', htear, htables, hunlink, henv'⟩ := hfalls n hn
  have hsound := hs.sound
  rw [Action.stakes_of_loses? ha, Multiset.singleton_add] at hstakes
  rw [scene, hstakes] at hsound
  rw [hheap] at hl hscene htear htables hunlink
  have htop : s.step.env = meantime m.env s.env.root j (fs' ++ fs) [] (as' ++ as) := by
    rw [henv', henv]
    simp [meantime]
  have hlost : s.lost? = some l := by simp [lost?, hs.agenda, ha]
  have hstarts : s.starts? = l.starts? s.heap := by rw [starts?_eq, hlost, Option.bind_some]
  have hpartings : s.partings = l.partings s.heap := by
    cases hstart : l.starts? s.heap <;> simp [partings, Stake.partings, hstarts, hstart]
  have hlinks : s.step.heap.linksOf = s.heap.linksOf := by
    have hheap : s.step.heap = _ := congrArg Prod.fst hscene
    rw [hheap]
    exact hl.sameLinks.linksOf
  refine ⟨ns, k, fs' ++ fs, l.partings s.heap ++ es, [], as' ++ as,
    hs.next (htear.append ht) ⟨j, hj, htop⟩ rfl hs.slots hs.nodup ?_ ⟨[], ?_, ?_⟩ ?_ ?_⟩
  · rw [hlinks]
    intro f hf
    rcases List.mem_append.mp hf with hf | hf
    · exact htables f hf
    · exact hs.tables f hf
  · rw [hscene, scene, hstakes]
    exact hl.decays hsound
  · rw [List.nil_append, hpartings]
  · intro o ho
    rw [hlinks]
    refine ho.imp_right fun ho => List.mem_append_right _ ?_
    exact (List.mem_cons.mp ho).resolve_left fun h => hu o h.symm
  · intro o ho
    exact List.mem_append_left _ (hunlink o (hstarts ▸ ho))

/-- What is alive drops no more than slots of its own. -/
theorem Torn.sheds (hs : Torn m names ns k fs es rs as s)
    (hsheds : ∀ y ∈ m.heap.objects, y.phase = .alive → ∃ xs, y.Sheds xs) :
    ∀ y ∈ s.heap.objects, y.phase = .alive → ∃ xs, y.Sheds xs := by
  intro y hy halive
  obtain ⟨o, hy⟩ := Array.mem_iff_getElem?.mp hy
  obtain ⟨ds, hds, -⟩ := hs.decays
  have hphase : s.heap.phase? o = some .alive := by rw [Heap.phase?, hy, Option.map_some, halive]
  have hsame : m.heap.objects[o]? = s.heap.objects[o]? := hds.erodes.object_of_alive hphase
  exact hsheds y (Array.mem_of_getElem? (hsame.trans hy)) halive

/-- No action but a drop starts a destructor. -/
theorem Torn.starts?_eq_none (hs : Torn m names ns k fs es rs (a :: as) s)
    (ha : a.loses? = none) : s.starts? = none := by
  have hlost : s.lost? = none := by simp [lost?, hs.agenda, ha]
  rw [starts?_eq, hlost]
  rfl

/-- An action that gives nothing up, and after which the tables are as they were. -/
theorem Torn.still {root : Table} {ds : List Event} (hs : Torn m names ns k fs es rs (a :: as) s)
    (ha : a.loses? = none) (hu : ∀ o, a ≠ .unlink o) (ht : Tearing ns' k' fs' es' rs' as')
    (hmem : ∀ o, .unlink o ∈ as → .unlink o ∈ as')
    (henv : ∃ j, j + k' = names.length ∧ s.step.env = meantime m.env root j fs' rs' as')
    (hroot : ns'.foldl .erase root = ns.foldl .erase s.env.root)
    (hslots : ∀ n ∈ ns', (root.get? n).isSome) (hnodup : ns'.Nodup) (hfs : ∀ f ∈ fs', f ∈ fs)
    (hlinks : s.step.heap.linksOf = s.heap.linksOf)
    (hdecays : s.scene.Decays s.step.scene ds) (hes : ds ++ es' = es) :
    Torn m names ns' k' fs' es' rs' as' s.step := by
  refine hs.calm (hs.starts?_eq_none ha) ht henv hroot hslots hnodup (fun f hf => ?_) hdecays hes
    fun o ho => ?_
  · rw [hlinks]
    exact hs.tables f (hfs f hf)
  · rw [hlinks]
    refine ho.imp_right fun ho => hmem o ?_
    exact (List.mem_cons.mp ho).resolve_left fun h => hu o h.symm

/-- A step that drops a slot of the root table takes the slot out first. -/
theorem perform_exec_drop {name : String} {x : Slot} (hx : m.env.root.get? name = some x) :
    m.perform (.exec (.drop ⟨false, [], name⟩)) =
      (m.erase ⟨.root, name⟩).schedule [.drop x, .answer .done] := by
  obtain ⟨h, env⟩ := m
  have hfind : find ⟨h, env⟩ ⟨false, [], name⟩ = .ok (⟨.root, name⟩, x) := by
    have hlookup : lookup ⟨h, env⟩ ⟨.root, name⟩ = .ok x := by simp only [lookup, get?, table, hx]
    have hlocate : locate ⟨h, env⟩ ⟨false, [], name⟩ = .ok ⟨.root, name⟩ := rfl
    simp only [find, hlocate]
    exact congrArg (Except.map _) hlookup
  have hplan : plan ⟨h, env⟩ (.drop ⟨false, [], name⟩) = .ok (.drop ⟨.root, name⟩ x) := by
    simp only [plan, hfind]
    rfl
  simp only [perform, hplan]
  rfl

/-- The next slot leaves the root table. -/
theorem Torn.exec {name : String}
    (hs : Torn m names (name :: ns) (k + 1) fs es [] (.exec (.drop ⟨false, [], name⟩) :: as) s)
    (ht : Tearing ns k fs es [] as) :
    ∃ x, Torn m names ns (k + 1) fs es [] (.drop x :: .answer .done :: as) s.step := by
  obtain ⟨n, hn, hheap, hstakes, j, hj, henv⟩ := hs.rest
  obtain ⟨x, hx⟩ := Option.isSome_iff_exists.mp (hs.slots name List.mem_cons_self)
  have hroot : n.env.root = s.env.root := by rw [henv, meantime]
  rw [← hroot] at hx
  have hstep : s.step = (n.erase ⟨.root, name⟩).schedule [.drop x, .answer .done] := by
    rw [step_eq_perform hn, perform_exec_drop hx]
  have henv' : s.step.env =
      meantime m.env (s.env.root.erase name) j fs [] (.drop x :: .answer .done :: as) := by
    have hstep' : s.step.env = { n.env with
        root := n.env.root.erase name, agenda := .drop x :: .answer .done :: n.env.agenda } := by
      rw [hstep]
      rfl
    rw [hstep', hroot, henv]
    rfl
  have hscene : s.step.scene = s.scene := by
    have herase : n.stakes = .pointer x ::ₘ (n.erase ⟨.root, name⟩).stakes := stakes_erase hx
    have hnothing : (Action.exec (.drop ⟨false, [], name⟩)).stakes = 0 := rfl
    have hone : stakesOf [.drop x, .answer .done] = {.pointer x} := rfl
    rw [scene, scene, hstakes, herase, hstep, stakes_schedule, ← hheap, hnothing, hone, zero_add,
      Multiset.singleton_add]
    rfl
  obtain ⟨hne, hnodup⟩ := List.nodup_cons.mp hs.nodup
  refine ⟨x, hs.still rfl (by simp) (.drop x (.answer ht)) (by simp) ⟨j, hj, henv'⟩ rfl ?_
    hnodup (fun _ hf => hf) (congrArg (·.1.linksOf) hscene) (Decays.of_eq hscene) rfl⟩
  intro n' hn'
  have hne' : name ≠ n' := fun heq => hne (heq ▸ hn')
  rw [Table.get?_erase, if_neg hne']
  exact hs.slots n' (List.mem_cons_of_mem _ hn')

/-- An action that changes no table, and neither the heap nor what is at stake. -/
theorem Torn.quiet {f : Environment → Environment} (hs : Torn m names ns k fs es rs (a :: as) s)
    (ha : a.stakes = 0) (hl : a.loses? = none) (hu : ∀ o, a ≠ .unlink o)
    (ht : Tearing ns k' fs' es rs' as) (hfs : ∀ f ∈ fs', f ∈ fs)
    (hf : ∀ n : Machine, n.heap = s.heap → n.perform a = n.mapEnv f)
    (hagenda : ∀ e, (f e).agenda = e.agenda)
    (henv : ∀ j root, j + k = names.length → ∃ j', j' + k' = names.length ∧
      f (meantime m.env root j fs rs as) = meantime m.env root j' fs' rs' as) :
    Torn m names ns k' fs' es rs' as s.step := by
  obtain ⟨n, hn, hheap, hstakes, j, hj, htop⟩ := hs.rest
  obtain ⟨j', hj', hf'⟩ := henv j s.env.root hj
  have hstep : s.step = n.mapEnv f := by rw [step_eq_perform hn, hf n hheap]
  have henv' : s.step.env = meantime m.env s.env.root j' fs' rs' as := by
    rw [← hf', ← htop, hstep]
    rfl
  have hscene : s.step.scene = s.scene := by
    have hsame : (n.mapEnv f).stakes = n.stakes := by
      have hroot' : (f n.env).root = n.env.root := by
        rw [htop, hf']
        rfl
      simp only [stakes, mapEnv, hagenda, hroot']
    rw [scene, scene, hstakes, ha, zero_add, hstep, hsame, ← hheap]
    rfl
  exact hs.still hl hu ht (fun o ho => ho) ⟨j', hj', henv'⟩ rfl hs.slots hs.nodup hfs
    (congrArg (·.1.linksOf) hscene) (Decays.of_eq hscene) rfl

/-- A destructor reports of a step. -/
theorem Torn.did {id : Int64} {r : Reply}
    (hs : Torn m names ns k fs (.did id r :: es) [r] (.did id :: as) s)
    (ht : Tearing ns k fs es [] as) : Torn m names ns k fs es [] as s.step := by
  obtain ⟨n, hn, hheap, hstakes, j, hj, htop⟩ := hs.rest
  obtain ⟨h, env⟩ := n
  have henv : env = meantime m.env s.env.root j fs [r] as := htop
  have hheap : h = s.heap := hheap
  have hstep : s.step = ⟨s.heap.emit (.did id r), meantime m.env s.env.root j fs [] as⟩ := by
    rw [step_eq_perform hn, ← hheap, henv]
    rfl
  have hscene : s.step.scene = (s.heap.emit (.did id r), s.stakes) := by
    have hroot : (meantime m.env s.env.root j fs [] as).root = env.root := by rw [henv]; rfl
    have hagenda : (meantime m.env s.env.root j fs [] as).agenda = env.agenda := by rw [henv]; rfl
    have hnothing : (Action.did id).stakes = 0 := rfl
    rw [hstakes, hnothing, zero_add, hstep, scene, stakes, stakes, hroot, hagenda, hheap]
    rfl
  have hdecays : s.scene.Decays s.step.scene [.did id r] := by
    rw [hscene]
    exact decays_report s.heap s.stakes id r
  exact hs.still rfl (by simp) ht (fun o ho => ho) ⟨j, hj, by rw [hstep]⟩ rfl hs.slots hs.nodup
    (fun _ hf => hf) (congrArg (·.1.linksOf) hscene) hdecays rfl

/-- The table of the object becomes smaller. -/
theorem Torn.relink {o : ObjectId} {t : Table} (hs : Torn m names ns k fs es rs as s)
    (ht : Tearing ns k fs' es rs' as') (hdying : s.heap.phase? o = some .dying)
    (henv : ∃ j, j + k = names.length ∧ s.step.env = meantime m.env s.env.root j fs' rs' as')
    (hscene : s.step.scene = (s.heap.withLinks o t, s.stakes)) (hstarts : s.starts? = none)
    (htables : ∀ f ∈ fs', f.object = o ∧ f.table = t ∨ f.object ≠ o ∧ f ∈ fs)
    (hmem : ∀ o, .unlink o ∈ as → .unlink o ∈ as') (ho : .unlink o ∈ as') :
    Torn m names ns k fs' es rs' as' s.step := by
  have hheap : s.step.heap = s.heap.withLinks o t := congrArg Prod.fst hscene
  have hother {o' : ObjectId} (hne : o ≠ o') :
      (s.heap.withLinks o t).linksOf o' = s.heap.linksOf o' := by
    rw [Heap.linksOf, Heap.linksOf, Heap.withLinks, Heap.updateObject, Array.getElem?_modify,
      if_neg hne]
  have hdecays : s.scene.Decays s.step.scene [] := hscene ▸ decays_relink hdying t
  refine hs.calm hstarts ht henv rfl hs.slots hs.nodup (fun f hf => ?_) hdecays rfl fun o' ho' => ?_
  · rw [hheap]
    rcases htables f hf with ⟨rfl, rfl⟩ | ⟨hne, hf⟩
    · obtain ⟨y, hy, -⟩ := Option.map_eq_some_iff.mp hdying
      simp [Heap.linksOf, Heap.withLinks, Heap.updateObject, Array.getElem?_modify, hy]
    · rw [hother hne.symm]
      exact hs.tables f hf
  · rw [hheap]
    by_cases heq : o = o'
    · exact .inr (heq ▸ ho)
    · rw [hother heq]
      exact ho'.imp_right (hmem o')

/-- The table of the object loses a slot, or is empty. -/
theorem Torn.unlink {o : ObjectId}
    (hs : Torn m names ns k fs es [] (.unlink o :: .reclaim o :: as) s)
    (ht : Tearing ns k fs es [] as) : ∃ as, Torn m names ns k fs es [] as s.step := by
  obtain ⟨n, hn, hheap, hstakes, j, hj, henv⟩ := hs.rest
  have hstep : s.step = n.emptyOut (.links o) (.unlink o) := step_eq_perform hn
  have hnothing : (Action.unlink o).stakes = 0 := rfl
  rw [hnothing, zero_add] at hstakes
  have hstarts := hs.starts?_eq_none rfl
  cases hpop : (n.table (.links o)).popFirst? with
  | none =>
    have hsame : s.step = n := by rw [hstep, emptyOut, hpop]
    have hempty : s.heap.linksOf o = .empty := by
      rw [← hheap]
      exact Table.eq_empty_of_popFirst? hpop
    have hscene : s.step.scene = s.scene := by rw [scene, scene, hstakes, hsame, hheap]
    refine ⟨_, hs.calm hstarts (.reclaim o ht) ⟨j, hj, hsame ▸ henv⟩ rfl hs.slots hs.nodup ?_
      (Decays.of_eq hscene) rfl fun o' ho' => ?_⟩
    · rw [hsame, hheap]
      exact hs.tables
    · rw [hsame, hheap]
      rcases ho' with ho' | ho'
      · exact .inl ho'
      · rcases List.mem_cons.mp ho' with ho' | ho'
        · cases ho'
          exact .inl hempty
        · exact .inr ho'
  | some xt =>
    obtain ⟨x, t⟩ := xt
    have henv' : s.step.env =
        meantime m.env s.env.root j fs [] (.drop x :: .unlink o :: .reclaim o :: as) := by
      have hstep' : s.step.env = { n.env with agenda := .drop x :: .unlink o :: n.env.agenda } := by
        rw [hstep, emptyOut, hpop]
        rfl
      rw [hstep', henv]
      rfl
    have hscene : s.step.scene = (s.heap.withLinks o t, s.stakes) := by
      rw [hstep, scene_emptyOut rfl hpop, hstakes, ← hheap]
      rfl
    -- the destructors that run are those of other nodes, since this one has been left
    have hleft : stakesOf (.unlink o :: .reclaim o :: as) = .destruction o ::ₘ stakesOf as := by
      simp [Action.stakes, Action.slots]
    obtain ⟨hnodup, hdying⟩ := hs.destructions (o :: fs.map (·.object)) (by
      rw [hleft, List.map_cons, List.map_map, ← Multiset.cons_coe]
      exact Multiset.cons_le_cons _ ht.destructions_le)
    refine ⟨_, hs.relink (.drop x (.unlink o ht)) (hdying o List.mem_cons_self) ⟨j, hj, henv'⟩
      hscene hstarts (fun f hf => .inr ⟨fun heq => ?_, hf⟩)
      (fun o' ho' => List.mem_cons_of_mem _ ho') (by simp)⟩
    exact (List.nodup_cons.mp hnodup).1 (heq ▸ List.mem_map_of_mem hf)

/-- A destructor drops a slot of its own node. If there is none, that is what it will report. -/
theorem Torn.own {f : Frame} {id : Int64} {name : String}
    (hs : Torn m names ns k (f :: fs) (.did id (f.table.parting name) :: es) []
      (.exec (.dropOwn name) :: .did id :: as) s)
    (ht : Tearing ns k (⟨f.object, f.table.erase name⟩ :: fs) es [] as) :
    ∃ fs es rs as, Torn m names ns k fs es rs as s.step := by
  obtain ⟨n, hn, hheap, hstakes, j, hj, henv⟩ := hs.rest
  obtain ⟨h, env⟩ := n
  have hheap : h = s.heap := hheap
  subst hheap
  have henv : env = meantime m.env s.env.root j (f :: fs) [] (.did id :: as) := henv
  have hrunning : env.running.head? = some f.object := by
    rw [henv]
    rfl
  have hplan := plan_dropOwn (h := s.heap) hrunning name
  rw [hs.tables f List.mem_cons_self] at hplan
  have hnothing : (Action.exec (.dropOwn name)).stakes = 0 := rfl
  rw [hnothing, zero_add] at hstakes
  obtain ⟨hdistinct, -⟩ := List.nodup_cons.mp hs.frames.1
  have hdying := hs.dying f List.mem_cons_self
  cases hx : f.table.get? name with
  | none =>
    rw [hx] at hplan
    have hstep : s.step = reply (.failed .noSlot) ⟨s.heap, env⟩ := by
      rw [step_eq_perform hn, perform, hplan]
    have hparting : f.table.parting name = .failed .noSlot := by rw [Table.parting, hx]
    have htear := ht
    rw [Table.erase_eq_self hx] at htear
    have henv' : s.step.env =
        meantime m.env s.env.root j (f :: fs) [.failed .noSlot] (.did id :: as) := by
      rw [hstep, henv]
      rfl
    have hscene : s.step.scene = s.scene := by
      rw [hstep, scene, scene, hstakes]
      rfl
    refine ⟨f :: fs, _, [.failed .noSlot], .did id :: as,
      hs.still rfl (by simp [Step.dropOwn]) (.did id (.failed .noSlot) htear) (fun o ho => ho)
        ⟨j, hj, henv'⟩ rfl hs.slots hs.nodup (fun _ hf => hf) (by rw [hstep]; rfl)
        (Decays.of_eq hscene) (by rw [hparting]; rfl)⟩
  | some x =>
    rw [hx] at hplan
    have hparting : f.table.parting name = .done := by rw [Table.parting, hx]
    rw [hparting] at hs
    have hget : get? ⟨s.heap, env⟩ ⟨.links f.object, name⟩ = some x := by
      rw [get?, table, hs.tables f List.mem_cons_self, hx]
    have hstep : s.step = (erase ⟨.links f.object, name⟩ ⟨s.heap, env⟩).schedule
        [.drop x, .answer .done, .letGo (.links f.object)] := by
      rw [step_eq_perform hn, perform, hplan]
      rfl
    have hlinks : table ⟨s.heap, env⟩ (.links f.object) = f.table := hs.tables f List.mem_cons_self
    have htear := Tearing.drop x (.reply (.letGo ⟨f.object, f.table.erase name⟩ (.did id .done ht)))
    refine ⟨_, _, _, _, hs.relink (t := f.table.erase name) htear hdying ⟨j, hj, ?_⟩ ?_
      (hs.starts?_eq_none rfl) (fun g hg => ?_) (fun o' ho' => ?_) ?_⟩
    · rw [hstep, henv]
      rfl
    · have herase := stakes_erase hget
      have hone : stakesOf [.drop x, .answer .done, .letGo (.links f.object)] = {.pointer x} := rfl
      rw [hstep, scene, stakes_schedule, hone, Multiset.singleton_add, ← herase, hstakes, ← hlinks]
      rfl
    · rcases List.mem_cons.mp hg with rfl | hg
      · exact .inl ⟨rfl, rfl⟩
      · refine .inr ⟨fun heq => hdistinct ?_, List.mem_cons_of_mem _ hg⟩
        exact List.mem_map.mpr ⟨g, hg, heq⟩
    · have ho' := (List.mem_cons.mp ho').resolve_left (by simp)
      simpa using ho'
    · have := ht.unlink_mem ⟨f.object, f.table.erase name⟩ List.mem_cons_self
      simpa using this

/-- One step, by what comes first on the agenda. -/
theorem Torn.step (hs : Torn m names ns k fs es rs (a :: as) s)
    (hsheds : ∀ y ∈ m.heap.objects, y.phase = .alive → ∃ xs, y.Sheds xs) :
    ∃ ns k fs es rs as, Torn m names ns k fs es rs as s.step := by
  have htear := hs.tearing
  cases htear with
  | exec name ht =>
    obtain ⟨x, hx⟩ := hs.exec ht
    exact ⟨_, _, _, _, _, _, hx⟩
  | @answer _ k _ _ _ ht =>
    exact ⟨_, _, _, _, _, _, hs.quiet (f := fun e => { e with replies := .done :: e.replies })
      rfl rfl (by simp) ht (fun _ hf => hf) (fun _ _ => rfl) (fun _ => rfl)
      fun j root hj => ⟨j + 1, by omega, rfl⟩⟩
  | reply ht =>
    exact ⟨_, _, _, _, _, _, hs.quiet (f := fun e => { e with replies := .done :: e.replies })
      rfl rfl (by simp) ht (fun _ hf => hf) (fun _ _ => rfl) (fun _ => rfl)
      fun j root hj => ⟨j, hj, rfl⟩⟩
  | letGo f ht =>
    refine ⟨_, _, _, _, _, _, hs.quiet (f := id) rfl rfl (by simp) ht (fun _ hf => hf)
      (fun n hn => ?_) (fun _ => rfl) fun j root hj => ⟨j, hj, rfl⟩⟩
    have hgone : n.isGone (.links f.object) = false := by
      rw [← Bool.not_eq_true, isGone_links, hn, hs.dying f List.mem_cons_self]
      simp
    simp only [perform, letGoOf, hgone, Bool.false_and, Bool.false_eq_true, ↓reduceIte]
    rfl
  | did id r ht => exact ⟨_, _, _, _, _, _, hs.did ht⟩
  | own f id n ht =>
    obtain ⟨fs, es, rs, as, h⟩ := hs.own ht
    exact ⟨_, _, _, _, _, _, h⟩
  | leave f ht =>
    exact ⟨_, _, _, _, _, _, hs.quiet (f := fun e => { e with running := e.running.tail })
      rfl rfl (by simp) (.unlink f.object ht) (fun _ hf => List.mem_cons_of_mem _ hf)
      (fun _ _ => rfl) (fun _ => rfl) fun j root hj => ⟨j, hj, rfl⟩⟩
  | unlink o ht =>
    obtain ⟨as, h⟩ := hs.unlink ht
    exact ⟨_, _, _, _, _, _, h⟩
  | drop x ht =>
    refine hs.falls ht rfl (by simp) fun n hn => ?_
    obtain ⟨hheap, -, -, hstakes⟩ := next?_eq_some hn
    have hsound := hs.sound
    rw [scene, hstakes, ← hheap] at hsound
    rw [step_eq_perform hn]
    exact falls_dropSlot hsound (hheap ▸ hs.sheds hsheds)
  | reclaim o ht =>
    refine hs.falls ht rfl (by simp) fun n hn => ?_
    rw [step_eq_perform hn]
    exact .still .reclaim rfl
  | giveUp b ht =>
    refine hs.falls ht rfl (by simp) fun n hn => ?_
    rw [step_eq_perform hn]
    exact .still .giveUp rfl

end Torn

end Machine

end Custody
