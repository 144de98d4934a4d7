import Custody.Proofs.Dismantling

/-!
# The order of drops

Where destructors do no more than drop what their objects hold, in whatever order of their own, it
does not matter in which order slots are dropped.

* `Machine.Torn.spares`: what is alive after all drops in one order is alive at every moment of the
  drops in another. Otherwise its destructor started at some moment, when all that is left in the end
  was there, and the owner that was given up as well.
* `Machine.Reachable.drop_order`: so the heap in the end is the same, but for the order of what was
  logged.
-/

namespace Custody

section

variable {h h' : Heap} {due ds : List Event} {o : ObjectId}

/-- A pointee was that block's pointee from the beginning. -/
theorem Heap.Erodes.pointee (he : h.Erodes h' due ds) {b : BlockId} {y : Block}
    (hy : h'.blocks[b]? = some y) (ho : y.pointee = some o) :
    ∃ x, h.blocks[b]? = some x ∧ x.pointee = some o := by
  have hb := he.blocks b
  rw [hy] at hb
  cases hx : h.blocks[b]? with
  | none =>
    rw [hx] at hb
    cases Option.Rel.of_none hb
  | some x =>
    rw [hx] at hb
    obtain ⟨z, hz, hxz⟩ := Option.Rel.of_some hb
    cases hz
    rcases hxz.pointee with hp | hp
    · exact ⟨x, rfl, hp.symm.trans ho⟩
    · rw [ho] at hp
      cases hp

theorem Heap.Erodes.manages (he : h.Erodes h' due ds) (hm : h'.Manages o) : h.Manages o := by
  obtain ⟨b, y, hy, ho⟩ := hm
  exact ⟨b, he.pointee hy ho⟩

/-- What is alive, or was not to begin with, holds what it held. -/
theorem Heap.Erodes.linksOf (he : h.Erodes h' due ds)
    (hp : h'.phase? o = some .alive ∨ h.phase? o ≠ some .alive ∧ h.phase? o ≠ some .dying) :
    h'.linksOf o = h.linksOf o := by
  have ho := he.objects o
  rw [Heap.phase?, Heap.phase?] at hp
  rw [Heap.linksOf, Heap.linksOf]
  cases hx : h.objects[o]? with
  | none =>
    rw [hx] at ho
    rw [Option.Rel.of_none ho]
  | some x =>
    rw [hx] at ho
    obtain ⟨y, hy, hxy⟩ := Option.Rel.of_some ho
    rw [hx, hy] at hp
    rw [hy]
    rcases hxy.phase with ⟨-, hl, -⟩ | ⟨hgone, halive, -⟩
    · simp [hl]
    · exfalso
      cases hxp : x.phase <;> simp_all

/-- Less is stored where tables are the same or empty. -/
theorem pointersOf_stored_le (hsize : h'.objects.size = h.objects.size)
    (hlinks : ∀ o, h'.linksOf o = h.linksOf o ∨ h'.linksOf o = .empty) :
    pointersOf h'.stored ≤ pointersOf h.stored := by
  have hsub {xs ys : List Object}
      (hxy : List.Forall₂ (fun x y => x.links = y.links ∨ x.links = .empty) xs ys) :
      (xs.flatMap (·.links.slots)).Sublist (ys.flatMap (·.links.slots)) := by
    induction hxy with
    | nil => exact .refl _
    | cons hxy _ ih =>
      rw [List.flatMap_cons, List.flatMap_cons]
      refine .append ?_ ih
      rcases hxy with hxy | hxy
      · rw [hxy]
      · rw [hxy]
        exact List.nil_sublist _
  refine Multiset.coe_le.mpr (List.Sublist.map _ (hsub ?_)).subperm
  refine List.forall₂_iff_get.mpr ⟨by simpa using hsize, fun i hi hi' => ?_⟩
  have hl := hlinks i
  have hi : i < h'.objects.size := by simpa using hi
  have hi' : i < h.objects.size := by simpa using hi'
  simpa [Heap.linksOf, hi, hi'] using hl

/-- No object is taken away. -/
theorem Heap.Erodes.size_objects (he : h.Erodes h' due ds) : h'.objects.size = h.objects.size := by
  have hiff (o : Nat) : h'.objects.size ≤ o ↔ h.objects.size ≤ o := by
    have ho := he.objects o
    rw [← Array.getElem?_eq_none_iff, ← Array.getElem?_eq_none_iff]
    cases hx : h.objects[o]? with
    | none =>
      rw [hx] at ho
      simp [Option.Rel.of_none ho]
    | some x =>
      rw [hx] at ho
      obtain ⟨y, hy, -⟩ := Option.Rel.of_some ho
      simp [hy]
  have := hiff h.objects.size
  have := hiff h'.objects.size
  omega

theorem Table.slots_erase_sublist (t : Table) (name : String) :
    (t.erase name).slots.Sublist t.slots :=
  List.Sublist.map _ List.filter_sublist

theorem Table.slots_foldl_erase_sublist (t : Table) (names : List String) :
    (names.foldl .erase t).slots.Sublist t.slots := by
  induction names generalizing t with
  | nil => exact .refl _
  | cons n names ih => exact (ih _).trans (t.slots_erase_sublist n)

instance : RightCommutative Table.erase where
  right_comm t n n' := by
    simp only [Table.erase, Table.mk.injEq, List.filter_filter]
    refine List.filter_congr fun e _ => ?_
    exact Bool.and_comm _ _

end

namespace Machine

variable {m n s : Machine} {names names' ns : List String} {k : Nat} {fs : List Frame}
  {es : List Event} {rs : List Reply} {as : List Action} {o : ObjectId} {x : Slot}

/-! ## What is left in the end -/

section Spares

variable (hm : Sound m.scene) (hs : Torn m names ns k fs es rs (.drop x :: as) s)
  (hn : Torn m names' [] 0 [] [] [] [] n)
  (hroot : names.foldl .erase m.env.root = names'.foldl .erase m.env.root)
  (hcalm : ∀ o, m.heap.phase? o ≠ some .dying)
  (hspared : ∀ o, n.heap.phase? o = some .alive → s.heap.phase? o = some .alive)

include hm hs hn hroot hcalm hspared

omit hm in
/-- What is left in the end was there, and the slot that was dropped as well. -/
theorem Torn.stakes_le : .pointer x ::ₘ n.stakes ≤ s.stakes := by
  obtain ⟨ds, hsd, -⟩ := hs.decays
  obtain ⟨ds', hnd, -⟩ := hn.decays
  have hstored : pointersOf n.heap.stored ≤ pointersOf s.heap.stored := by
    refine pointersOf_stored_le ?_ fun o => ?_
    · exact hnd.erodes.size_objects.trans hsd.erodes.size_objects.symm
    · by_cases hm : m.heap.phase? o = some .alive
      · by_cases halive : n.heap.phase? o = some .alive
        · refine .inl ?_
          have hsl := hsd.erodes.linksOf (.inl (hspared o halive))
          have hnl := hnd.erodes.linksOf (.inl halive)
          exact hnl.trans hsl.symm
        · exact .inr ((hn.emptied o hm halive).resolve_right (by simp))
      · have hsl := hsd.erodes.linksOf (.inr ⟨hm, hcalm o⟩)
        have hnl := hnd.erodes.linksOf (.inr ⟨hm, hcalm o⟩)
        exact .inl (hnl.trans hsl.symm)
  have hslots : pointersOf n.env.root.slots ≤ pointersOf s.env.root.slots := by
    have hnr : n.env.root = ns.foldl .erase s.env.root := by
      rw [hs.root, hroot]
      exact hn.root
    rw [hnr]
    exact Multiset.coe_le.mpr (List.Sublist.map _ (Table.slots_foldl_erase_sublist _ _)).subperm
  have hagenda : stakesOf s.env.agenda = .pointer x ::ₘ (stakesOf as + stakesOf n.env.agenda) := by
    rw [hs.agenda, hn.agenda, List.cons_append, stakesOf_cons, stakesOf_append]
    rfl
  rw [stakes, stakes, hagenda, Multiset.add_cons]
  refine Multiset.cons_le_cons _ ?_
  exact add_le_add (add_le_add hslots hstored) (Multiset.le_add_left _ _)

/-- The destructor of what is alive in the end does not start. -/
theorem Torn.not_starts (halive : n.heap.phase? o = some .alive) :
    (Stake.pointer x).starts? s.heap ≠ some o := by
  intro hstarts
  obtain ⟨ds, hsd, -⟩ := hs.decays
  obtain ⟨ds', hnd, -⟩ := hn.decays
  have htally (f : Stake → Option Nat) (i : Nat) :
      tally f n.stakes i + (if f (.pointer x) = some i then 1 else 0) ≤ tally f s.stakes i := by
    rw [← tally_cons]
    exact Multiset.countP_le_of_le _ (hs.stakes_le hn hroot hcalm hspared)
  -- in the beginning the object had one owner; if that is no raw pointer, it has it in the end
  have hle : Scene.owners m.scene o ≤ 1 := (hm.owned o .alive (hnd.erodes.alive halive)).1
  have hle' : Scene.owners s.scene o ≤ 1 := (hs.sound.owned o .alive (hspared o halive)).1
  have hkept := hnd.owners o halive
  have hraw := hnd.raw o
  have howned := hnd.owned o
  have howned' := hsd.owned o
  simp only [Scene.owners, scene] at hle hle' hkept hraw howned howned'
  cases x with
  | weak | raw => cases hstarts
  | unique u =>
    have hone := htally Stake.owns? o
    have howns : u.object = some o := hstarts
    simp only [Stake.reads_pointer, Slot.reads_unique, howns, ↓reduceIte] at hone
    have hmanagers : n.heap.managers o = 0 := by
      refine Heap.managers_eq_zero fun hmanages => ?_
      have := Heap.managers_pos (hnd.erodes.manages hmanages)
      simp only [scene] at this
      omega
    omega
  | strong p =>
    obtain ⟨b, hb, hpointee⟩ := Option.bind_eq_some_iff.mp hstarts
    split at hpointee
    · next last =>
      obtain ⟨y, hy, hyo⟩ := Option.bind_eq_some_iff.mp hpointee
      obtain ⟨z, hz, hzo⟩ := hsd.erodes.pointee hy hyo
      have hpos := Heap.managers_pos ⟨b, z, hz, hzo⟩
      simp only [scene] at hpos
      -- so its block still has it, and the block no owner
      have hmanages : n.heap.Manages o := by
        by_contra hnone
        have := Heap.managers_eq_zero hnone
        omega
      obtain ⟨c, w, hw, hwo⟩ := hmanages
      obtain ⟨v, hv, hvo⟩ := hnd.erodes.pointee hw hwo
      obtain rfl := Heap.pointee_injective (by simp only [scene]; omega) hz hzo hv hvo
      have hagree := hn.sound.counted b w hw
      have hstrong : w.strong ≠ 0 := hagree.pointee.mp (by rw [hwo]; rfl)
      have hone := htally Stake.strongOn? b
      have hy' := (hs.sound.counted b y hy).strong
      rw [Heap.strongCount_eq hy] at last
      simp only [Stake.reads_pointer, Slot.reads_strong, hb, ↓reduceIte] at hone
      have hw' := hagree.strong
      simp only [scene] at hy' hw'
      omega
    · cases hpointee

end Spares

/-- What every step of a teardown keeps holds at its end. -/
theorem Torn.settles_induction {P : Machine → Prop}
    (hsheds : ∀ y ∈ m.heap.objects, y.phase = .alive → ∃ xs, y.Sheds xs)
    (hs : Torn m names ns k fs es rs as s) (hend : Settles m.env.agenda s n) (hP : P s)
    (hstep : ∀ {ns k fs es rs a as s}, Torn m names ns k fs es rs (a :: as) s → P s → P s.step) :
    Torn m names [] 0 [] [] [] [] n ∧ P n := by
  induction hend generalizing ns k fs es rs as with
  | done ha =>
    have hnil : as = [] := by
      rw [hs.agenda] at ha
      exact List.append_left_eq_self.mp ha
    subst hnil
    have htear := hs.tearing
    cases htear
    exact ⟨hs, hP⟩
  | @step s n a bs ha _ ih =>
    have hcons : as = a :: bs := by
      rw [hs.agenda, ← List.cons_append] at ha
      exact List.append_cancel_right ha
    subst hcons
    obtain ⟨ns', k', fs', es', rs', as', hnext⟩ := hs.step hsheds
    exact ih hnext (hstep hs hP)

/-- What is alive after all drops in one order is alive after the drops in another. -/
theorem Torn.spares {n' : Machine} (hm : Sound m.scene) (hcalm : ∀ o, m.heap.phase? o ≠ some .dying)
    (hsheds : ∀ y ∈ m.heap.objects, y.phase = .alive → ∃ xs, y.Sheds xs)
    (hroot : names.foldl .erase m.env.root = names'.foldl .erase m.env.root)
    (hs : Torn m names ns k fs es rs as s) (hend : Settles m.env.agenda s n)
    (hn : Torn m names' [] 0 [] [] [] [] n')
    (hspared : ∀ o, n'.heap.phase? o = some .alive → s.heap.phase? o = some .alive) :
    ∀ o, n'.heap.phase? o = some .alive → n.heap.phase? o = some .alive := by
  refine (hs.settles_induction
    (P := fun s => ∀ o, n'.heap.phase? o = some .alive → s.heap.phase? o = some .alive)
    hsheds hend hspared ?_).2
  intro ns k fs es rs a as s hs hspared o ho
  have hnot : s.starts? ≠ some o := by
    intro hstarts
    rw [starts?, hs.agenda, List.cons_append] at hstarts
    cases a with
    | drop x => exact hs.not_starts hm hn hroot hcalm hspared ho hstarts
    | _ => cases hstarts
  obtain ⟨q, hq, hiff⟩ := hs.grounded.step_phase hs.sound.owned (hspared o ho) hnot
  rw [hq, hiff.mpr rfl]

/-! ## The same heap -/

/-- The slots have left the root table, and each drop was answered. -/
def afterDrops (names : List String) (e : Environment) : Environment :=
  { e with
    root := names.foldl .erase e.root
    replies := List.replicate names.length .done ++ e.replies }

theorem Torn.env_eq (hn : Torn m names [] 0 [] [] [] [] n) : n.env = afterDrops names m.env := by
  obtain ⟨j, hj, he⟩ := hn.env
  obtain rfl : j = names.length := hj
  have hroot : n.env.root = names.foldl .erase m.env.root := hn.root
  rw [he, hroot]
  rfl

section Agree

variable {n' : Machine} (hn : Torn m names [] 0 [] [] [] [] n)
  (hn' : Torn m names' [] 0 [] [] [] [] n')

include hn

/-- In the end no destructor is in progress that was not in the beginning. -/
theorem Torn.not_dying (hm : Sound m.scene) (hcalm : ∀ o, m.heap.phase? o ≠ some .dying)
    (o : ObjectId) : n.heap.phase? o ≠ some .dying := by
  intro hp
  have hone : tally Stake.destroys? n.stakes o = 1 := (hn.sound.owned o .dying hp).2
  obtain ⟨k, hk, hko⟩ := Multiset.countP_pos.mp (Nat.lt_of_lt_of_eq Nat.one_pos hone.symm)
  match k with
  | .destruction o' =>
    cases hko
    refine hcalm o (hm.owned.dying hm.scope (tally_pos (k := .destruction o) ?_ rfl))
    rw [destruction_mem_stakes_iff, hn.agenda] at hk
    exact destruction_mem_stakes_iff.mpr hk
  | .pointer _ | .disposal _ => cases hko

include hn'

/-- If the same is alive in the end, the objects are the same. -/
theorem Torn.objects_eq (hm : Sound m.scene) (hcalm : ∀ o, m.heap.phase? o ≠ some .dying)
    (hiff : ∀ o, n.heap.phase? o = some .alive ↔ n'.heap.phase? o = some .alive) :
    n.heap.objects = n'.heap.objects := by
  obtain ⟨ds, hnd, -⟩ := hn.decays
  obtain ⟨ds', hnd', -⟩ := hn'.decays
  have hlinks (o : ObjectId) : n.heap.linksOf o = n'.heap.linksOf o := by
    by_cases hmo : m.heap.phase? o = some .alive
    · by_cases halive : n.heap.phase? o = some .alive
      · have hl := hnd.erodes.linksOf (.inl halive)
        have hl' := hnd'.erodes.linksOf (.inl ((hiff o).mp halive))
        exact hl.trans hl'.symm
      · have hempty := (hn.emptied o hmo halive).resolve_right (by simp)
        have hempty' := (hn'.emptied o hmo (mt (hiff o).mpr halive)).resolve_right (by simp)
        rw [hempty, hempty']
    · have hl := hnd.erodes.linksOf (.inr ⟨hmo, hcalm o⟩)
      have hl' := hnd'.erodes.linksOf (.inr ⟨hmo, hcalm o⟩)
      exact hl.trans hl'.symm
  refine Array.ext_getElem? fun o => ?_
  have ho := hnd.erodes.objects o
  have ho' := hnd'.erodes.objects o
  cases hx : m.scene.1.objects[o]? with
  | none =>
    rw [hx] at ho ho'
    exact (Option.Rel.of_none ho).trans (Option.Rel.of_none ho').symm
  | some x =>
    rw [hx] at ho ho'
    obtain ⟨y, hy, hxy⟩ := Option.Rel.of_some ho
    obtain ⟨z, hz, hxz⟩ := Option.Rel.of_some ho'
    have hy : n.heap.objects[o]? = some y := hy
    have hz : n'.heap.objects[o]? = some z := hz
    have hphase : y.phase = z.phase := by
      have hiff := hiff o
      have hdying := hn.not_dying hm hcalm o
      have hdying' := hn'.not_dying hm hcalm o
      simp only [Heap.phase?, hy, hz, Option.map_some, Option.some.injEq] at hiff hdying hdying'
      cases hyp : y.phase <;> cases hzp : z.phase <;> simp_all
    have hlink : y.links = z.links := by
      have hlinks := hlinks o
      simpa only [Heap.linksOf, hy, hz, Option.map_some, Option.getD_some] using hlinks
    have hcalm : x.phase ≠ .dying := by
      have hcalm := hcalm o
      have hx : m.heap.objects[o]? = some x := hx
      simpa only [Heap.phase?, hx, Option.map_some, ne_eq, Option.some.injEq] using hcalm
    exact hy.trans ((hxy.eq_of_settled hxz hcalm hphase hlink) ▸ hz.symm)

/-- Two ends in which the same objects are alive are one, up to the order in the log. -/
theorem Torn.agree (hm : Sound m.scene) (hcalm : ∀ o, m.heap.phase? o ≠ some .dying)
    (hroot : names.foldl .erase m.env.root = names'.foldl .erase m.env.root)
    (hlength : names.length = names'.length)
    (hiff : ∀ o, n.heap.phase? o = some .alive ↔ n'.heap.phase? o = some .alive) :
    n'.env = n.env ∧ n.heap = { n'.heap with log := n.heap.log } ∧
      ∃ es es', es.Perm es' ∧ n.heap.log.toList = m.heap.log.toList ++ es ∧
        n'.heap.log.toList = m.heap.log.toList ++ es' := by
  have hobjects := hn.objects_eq hn' hm hcalm hiff
  obtain ⟨ds, hnd, hreports⟩ := hn.decays
  obtain ⟨ds', hnd', hreports'⟩ := hn'.decays
  rw [List.append_nil] at hreports hreports'
  have henv : n'.env = n.env := by
    rw [hn.env_eq, hn'.env_eq, afterDrops, afterDrops, hroot, hlength]
  have hstakes : n.stakes = n'.stakes := by
    rw [stakes, stakes, henv, Heap.stored, Heap.stored, hobjects]
  have hsound := hn.sound
  rw [scene, hstakes] at hsound
  exact ⟨henv, hnd.erodes.unique hnd'.erodes (hreports.perm hreports' hiff) hsound hn'.sound
    (hnd.breaches.trans hnd'.breaches.symm) hobjects⟩

end Agree

/-! ## Any order -/

/-- The drops of named slots are such a beginning. -/
theorem torn_schedule_drops (hm : m.Reachable) (hslots : ∀ n ∈ names, (m.env.root.get? n).isSome)
    (hnames : names.Nodup) :
    Torn m names names names.length [] [] [] (drops names) (m.schedule (drops names)) := by
  have hstakes : stakesOf (drops names) = 0 := by
    refine stakesOf_eq_zero fun a ha => ?_
    obtain ⟨n, -, rfl⟩ := List.mem_map.mp ha
    rfl
  have hscene : (m.schedule (drops names)).scene = m.scene := by
    rw [scene, stakes_schedule, hstakes, zero_add]
    rfl
  refine ⟨tearing_drops names, ⟨0, Nat.zero_add _, rfl⟩, rfl, hslots, hnames, by simp, ?_,
    hscene ▸ hm.sound, ⟨[], hscene ▸ .refl _, m.reports_self⟩, fun o hp hne => absurd hp hne⟩
  refine ⟨⟨fun a ha => ?_, hm.grounded.running⟩, hscene ▸ hm.grounded.scope⟩
  rcases List.mem_append.mp ha with ha | ha
  · obtain ⟨n, -, rfl⟩ := List.mem_map.mp ha
    exact lands_of_not_worksOn fun _ => rfl
  · exact hm.grounded.agenda a ha

/-- Slots of the root table are dropped in two orders, when no destructor is in progress and those
of what is alive do no more than drop what their objects hold. Each time there is one end. All is the
same there, but for the order of what was logged. -/
theorem Reachable.drop_order (hm : m.Reachable) (hcalm : ∀ y ∈ m.heap.objects, y.phase ≠ .dying)
    (hsheds : ∀ y ∈ m.heap.objects, y.phase = .alive → ∃ xs, y.Sheds xs)
    (hslots : ∀ n ∈ names, (m.env.root.get? n).isSome) (hnames : names.Nodup)
    (hperm : names.Perm names') :
    ∃ n n', (∀ l, Settles m.env.agenda (m.schedule (drops names)) l ↔ l = n) ∧
      (∀ l, Settles m.env.agenda (m.schedule (drops names')) l ↔ l = n') ∧
      n.env = afterDrops names m.env ∧ n'.env = n.env ∧
      n.heap = { n'.heap with log := n.heap.log } ∧
      ∃ es es', es.Perm es' ∧ n.heap.log.toList = m.heap.log.toList ++ es ∧
        n'.heap.log.toList = m.heap.log.toList ++ es' := by
  have hcalm (o : ObjectId) : m.heap.phase? o ≠ some .dying := by
    intro hp
    obtain ⟨y, hy, hphase⟩ := Option.map_eq_some_iff.mp hp
    exact hcalm y (Array.mem_of_getElem? hy) hphase
  have hroot : names.foldl .erase m.env.root = names'.foldl .erase m.env.root := hperm.foldl_eq _
  have hs := torn_schedule_drops hm hslots hnames
  have hs' := torn_schedule_drops hm (fun n hn => hslots n (hperm.mem_iff.mpr hn))
    (hperm.nodup_iff.mp hnames)
  obtain ⟨n, hend⟩ := hs.grounded.settles hs.agenda
  obtain ⟨n', hend'⟩ := hs'.grounded.settles hs'.agenda
  obtain ⟨hn, -⟩ := hs.settles_induction (P := fun _ => True) hsheds hend trivial fun _ _ => trivial
  obtain ⟨hn', -⟩ :=
    hs'.settles_induction (P := fun _ => True) hsheds hend' trivial fun _ _ => trivial
  obtain ⟨ds, hnd, -⟩ := hn.decays
  obtain ⟨ds', hnd', -⟩ := hn'.decays
  have hspared := hs.spares hm.sound hcalm hsheds hroot hend hn' fun o => hnd'.erodes.alive
  have hspared' := hs'.spares hm.sound hcalm hsheds hroot.symm hend' hn fun o => hnd.erodes.alive
  exact ⟨n, n', fun l => ⟨fun hl => hl.unique hend, fun hl => hl ▸ hend⟩,
    fun l => ⟨fun hl => hl.unique hend', fun hl => hl ▸ hend'⟩, hn.env_eq,
    hn.agree hn' hm.sound hcalm hroot hperm.length_eq fun o => ⟨hspared' o, hspared o⟩⟩

/-- The second node is held by the first, which it observes, and by one that a unique pointer owns.
The destructors of the first two drop slots of their own, also such as are not there. -/
def intertwined : List Step :=
  [.new .node (.node ⟨1, 0, .ofString "", []⟩ [.dropOwn "next", .dropOwn "next"]) .global
    ⟨false, [], "a"⟩,
   .new .node (.node ⟨2, 0, .ofString "", []⟩ [.dropOwn "none", .dropOwn "back"]) .arena
    ⟨false, [], "b"⟩,
   .unique .node (.node ⟨3, 0, .ofString "", []⟩ []) .global ⟨false, [], "c"⟩,
   .clone ⟨false, [], "b"⟩ ⟨false, ["a"], "next"⟩,
   .downgrade ⟨false, [], "a"⟩ ⟨false, ["b"], "back"⟩,
   .clone ⟨false, [], "b"⟩ ⟨false, ["c"], "next"⟩]

theorem drop_order_intertwined :
    (moment intertwined false 21).env.root.names = ["a", "b", "c"] ∧
      (moment intertwined false 21).heap.objects.toList.map (·.onDrop.length) = [2, 2, 0] ∧
      ∃ n n',
        (∀ l, Settles (moment intertwined false 21).env.agenda
          ((moment intertwined false 21).schedule (drops ["a", "b", "c"])) l ↔ l = n) ∧
        (∀ l, Settles (moment intertwined false 21).env.agenda
          ((moment intertwined false 21).schedule (drops ["c", "b", "a"])) l ↔ l = n') ∧
        n.env = afterDrops ["a", "b", "c"] (moment intertwined false 21).env ∧ n'.env = n.env ∧
        n.heap = { n'.heap with log := n.heap.log } ∧
        ∃ es es', es.Perm es' ∧
          n.heap.log.toList = (moment intertwined false 21).heap.log.toList ++ es ∧
          n'.heap.log.toList = (moment intertwined false 21).heap.log.toList ++ es' :=
  ⟨by decide, by decide, (reachable_moment intertwined false 21).drop_order (by decide) (by decide)
    (by decide) (by decide) (by decide)⟩

end Machine

end Custody
