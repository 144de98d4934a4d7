import Custody.Proofs.Disposal
import Custody.Proofs.Erosion
import Custody.Proofs.Shedding
import Custody.Proofs.Termination

/-!
# Taking things down

Slots of the root table are dropped, and destructors do no more than drop what their objects hold.

* `Scene.Decays`: what such drops do to a scene. `Loss.decays`: so does every loss.
* `Machine.Tearing`: what can stand on the agenda meanwhile.
* `Machine.Falls`, `Machine.falls_dropSlot`: a slot that is dropped is a loss, after which no more
  than a teardown of its own stands on the agenda.
-/

namespace Custody

open Scene

/-! ## Decay -/

/-- The second scene comes of the first by losses, of which all has been told, and destructors have
reported `ds`. -/
structure Scene.Decays (s t : Scene) (ds : List Event) : Prop where
  erodes : s.1.Erodes t.1 [] ds
  breaches : t.1.breaches = s.1.breaches
  owned : ∀ o, tally Stake.owns? t.2 o ≤ tally Stake.owns? s.2 o
  raw : ∀ o, tally Stake.rawOf? t.2 o ≤ tally Stake.rawOf? s.2 o
  /-- Only what a raw pointer led to can have lost its owner and be alive. -/
  owners : ∀ o, t.1.phase? o = some .alive →
    0 < tally Stake.rawOf? s.2 o ∨ owners t o = owners s o

/-- What the destructor of the object reports, if it does no more than drop the object's slots. -/
def Heap.partingsOf (h : Heap) (o : ObjectId) : List Event :=
  (h.objects[o]?.map Object.partings).getD []

/-- What the destructor is going to report that starts when the stake is given up. -/
def Stake.partings (h : Heap) (k : Stake) : List Event :=
  match k.starts? h with
  | some o => h.partingsOf o
  | none => []

section

variable {h : Heap} {K : Multiset Stake} {k : Stake} {o : ObjectId} {s t u : Scene}

/-- What is alive is as it was. -/
theorem Heap.Erodes.object_of_alive {h h' : Heap} {due ds : List Event} (he : h.Erodes h' due ds)
    (hp : h'.phase? o = some .alive) : h.objects[o]? = h'.objects[o]? := by
  obtain ⟨y, hy, hphase⟩ := Option.map_eq_some_iff.mp hp
  have hw := he.objects o
  rw [hy] at hw
  cases hx : h.objects[o]? with
  | none =>
    rw [hx] at hw
    cases Option.Rel.of_none hw
  | some x =>
    rw [hx] at hw
    obtain ⟨z, hz, hxz⟩ := Option.Rel.of_some hw
    cases hz
    rw [hy, hxz.eq_of_alive hphase]

/-- What is alive was alive. -/
theorem Heap.Erodes.alive {h h' : Heap} {due ds : List Event} (he : h.Erodes h' due ds)
    (hp : h'.phase? o = some .alive) : h.phase? o = some .alive := by
  rw [phase?, he.object_of_alive hp]
  exact hp

/-- What was there is still there. -/
theorem Heap.Erodes.phase?_isSome {h h' : Heap} {due ds : List Event} {p : Phase}
    (he : h.Erodes h' due ds) (hp : h.phase? o = some p) : ∃ q, h'.phase? o = some q := by
  obtain ⟨x, hx, -⟩ := Option.map_eq_some_iff.mp hp
  have hw := he.objects o
  rw [hx] at hw
  obtain ⟨y, hy, -⟩ := Option.Rel.of_some hw
  exact ⟨y.phase, by rw [phase?, hy, Option.map_some]⟩

theorem Scene.Decays.refl (s : Scene) : s.Decays s [] :=
  ⟨.refl _, rfl, fun _ => Nat.le_refl _, fun _ => Nat.le_refl _, fun _ _ => .inr rfl⟩

theorem Scene.Decays.of_eq (h : t = s) : s.Decays t [] := h ▸ .refl s

theorem Scene.Decays.trans {ds ds' : List Event} (h₁ : s.Decays t ds) (h₂ : t.Decays u ds') :
    s.Decays u (ds ++ ds') where
  erodes := h₁.erodes.trans h₂.erodes
  breaches := h₂.breaches.trans h₁.breaches
  owned o := Nat.le_trans (h₂.owned o) (h₁.owned o)
  raw o := Nat.le_trans (h₂.raw o) (h₁.raw o)
  owners o hp := by
    rcases h₂.owners o hp with hraw | howners
    · exact .inl (Nat.lt_of_lt_of_le hraw (h₁.raw o))
    · rw [howners]
      exact h₁.owners o (h₂.erodes.alive hp)

/-- A loss decays a scene, and what it ends says farewell. -/
theorem Loss.decays {t : Scene} (hl : Loss h K k t) (hs : Sound (h, k ::ₘ K)) :
    Decays (h, k ::ₘ K) (t.1.say (k.farewell h), t.2) [] where
  erodes := by
    refine (hl.erodes hs).say ?_
    unfold Stake.farewell
    split
    · unfold Content.farewell
      split <;> rfl
    · rfl
  breaches := hl.breaches hs
  owned o := by cases hl <;> simp
  raw o := by cases hl <;> simp
  owners o hp := by
    have hp : t.1.phase? o = some .alive := hp
    rcases hl.at hs.scope o with ⟨-, hat⟩ | ⟨-, hat | hat | hat⟩
    · have hstart := hat.phase.symm.trans hp
      cases hx : h.phase? o <;> simp [hx] at hstart
    · exact .inr hat.owners
    · exact .inl hat.raw
    · have hend := hat.phase.symm.trans hp
      cases hx : h.phase? o <;> simp [hx] at hend

/-- The table of an object whose destructor has started may change. -/
theorem decays_relink (hp : h.phase? o = some .dying) (t : Table) :
    Decays (h, K) (h.withLinks o t, K) [] := by
  obtain ⟨x, hx, hphase⟩ := Option.map_eq_some_iff.mp hp
  refine ⟨?_, rfl, fun _ => Nat.le_refl _, fun _ => Nat.le_refl _, fun _ _ => .inr rfl⟩
  refine .object _ hx ?_ rfl (by simp [Object.told])
  exact ⟨rfl, rfl, rfl, .inl rfl, .inr ⟨by simp [hphase], by simp [hphase], by simp [hphase]⟩⟩

/-- A destructor reports of a step. -/
theorem decays_report (h : Heap) (K : Multiset Stake) (node : Int64) (r : Reply) :
    Decays (h, K) (h.emit (.did node r), K) [.did node r] :=
  ⟨.report h node r, rfl, fun _ => Nat.le_refl _, fun _ => Nat.le_refl _, fun _ _ => .inr rfl⟩

end

namespace Machine

/-! ## What is on the agenda -/

/-- The slots of the root table are dropped one after another. -/
def drops (names : List String) : List Action := names.map fun n => .exec (.drop ⟨false, [], n⟩)

/-- A node whose destructor runs, and the slots that it has left. -/
structure Frame where
  object : ObjectId
  table : Table

/-- What stands on the agenda while slots are dropped: the names that are still to come, how many
replies are due, the nodes whose destructors run, what these are going to report, and the reply that
waits to be reported. -/
inductive Tearing : List String → Nat → List Frame → List Event → List Reply → List Action → Prop
  | nil : Tearing [] 0 [] [] [] []
  | exec {ns k fs es as} (n : String) (h : Tearing ns k fs es [] as) :
      Tearing (n :: ns) (k + 1) fs es [] (.exec (.drop ⟨false, [], n⟩) :: as)
  | answer {ns k fs es as} (h : Tearing ns k fs es [] as) :
      Tearing ns (k + 1) fs es [] (.answer .done :: as)
  | drop {ns k fs es as} (x : Slot) (h : Tearing ns k fs es [] as) :
      Tearing ns k fs es [] (.drop x :: as)
  | own {ns k fs es as} (f : Frame) (id : Int64) (n : String)
      (h : Tearing ns k (⟨f.object, f.table.erase n⟩ :: fs) es [] as) :
      Tearing ns k (f :: fs) (.did id (f.table.parting n) :: es) []
        (.exec (.dropOwn n) :: .did id :: as)
  | reply {ns k fs es as} (h : Tearing ns k fs es [.done] as) :
      Tearing ns k fs es [] (.answer .done :: as)
  | letGo {ns k fs es rs as} (f : Frame) (h : Tearing ns k (f :: fs) es rs as) :
      Tearing ns k (f :: fs) es rs (.letGo (.links f.object) :: as)
  | did {ns k fs es as} (id : Int64) (r : Reply) (h : Tearing ns k fs es [] as) :
      Tearing ns k fs (.did id r :: es) [r] (.did id :: as)
  | leave {ns k fs es as} (f : Frame) (h : Tearing ns k fs es [] as) :
      Tearing ns k (f :: fs) es [] (.leave :: .unlink f.object :: .reclaim f.object :: as)
  | unlink {ns k fs es as} (o : ObjectId) (h : Tearing ns k fs es [] as) :
      Tearing ns k fs es [] (.unlink o :: .reclaim o :: as)
  | reclaim {ns k fs es as} (o : ObjectId) (h : Tearing ns k fs es [] as) :
      Tearing ns k fs es [] (.reclaim o :: as)
  | giveUp {ns k fs es as} (b : BlockId) (h : Tearing ns k fs es [] as) :
      Tearing ns k fs es [] (.giveUpImplicit b :: as)

section Tearing

variable {ns : List String} {k : Nat} {fs fs' : List Frame} {es es' : List Event} {rs : List Reply}
  {as as' : List Action}

/-- What is put before the agenda puts its frames and its reports before the others. -/
theorem Tearing.append (h : Tearing [] 0 fs es rs as) (h' : Tearing ns k fs' es' [] as') :
    Tearing ns k (fs ++ fs') (es ++ es') rs (as ++ as') := by
  generalize hns : ([] : List String) = ns₀ at h
  generalize hk : 0 = k₀ at h
  induction h with
  | nil => exact h'
  | exec => cases hns
  | answer => cases hk
  | drop x _ ih => exact .drop x (ih hns hk)
  | own f id n _ ih => exact .own f id n (ih hns hk)
  | reply _ ih => exact .reply (ih hns hk)
  | letGo f _ ih => exact .letGo f (ih hns hk)
  | did id r _ ih => exact .did id r (ih hns hk)
  | leave f _ ih => exact .leave f (ih hns hk)
  | unlink o _ ih => exact .unlink o (ih hns hk)
  | reclaim o _ ih => exact .reclaim o (ih hns hk)
  | giveUp b _ ih => exact .giveUp b (ih hns hk)

theorem tearing_drops (names : List String) :
    Tearing names names.length [] [] [] (drops names) := by
  induction names with
  | nil => exact .nil
  | cons n names ih => exact .exec n ih

/-- The steps of a destructor that drops slots of its own node. -/
theorem tearing_execAll (o : ObjectId) (t : Table) (id : Int64) (names : List String) :
    Tearing [] 0 [⟨o, t⟩] (t.partings id names) []
      (execAll id (names.map .dropOwn) ++ [.leave, .unlink o, .reclaim o]) := by
  induction names generalizing t with
  | nil => exact .leave ⟨o, t⟩ .nil
  | cons n names ih => exact .own ⟨o, t⟩ id n (ih (t.erase n))

/-- What a node holds is dropped after it is left. -/
theorem Tearing.unlink_mem (h : Tearing ns k fs es rs as) :
    ∀ f ∈ fs, .unlink f.object ∈ as := by
  induction h with
  | nil => simp
  | own f id n _ ih =>
    intro g hg
    refine List.mem_cons_of_mem _ (List.mem_cons_of_mem _ ?_)
    rcases List.mem_cons.mp hg with rfl | hg
    · exact ih ⟨g.object, g.table.erase n⟩ List.mem_cons_self
    · exact ih g (List.mem_cons_of_mem _ hg)
  | leave f _ ih =>
    intro g hg
    rcases List.mem_cons.mp hg with rfl | hg
    · simp
    · simp [ih g hg]
  | exec _ _ ih | answer _ ih | drop _ _ ih | reply _ ih | letGo _ _ ih | did _ _ _ ih
  | reclaim _ _ ih | giveUp _ _ ih => exact fun g hg => List.mem_cons_of_mem _ (ih g hg)
  | unlink _ _ ih =>
    exact fun g hg => List.mem_cons_of_mem _ (List.mem_cons_of_mem _ (ih g hg))

theorem stakesOf_le_append (as bs : List Action) : stakesOf bs ≤ stakesOf (as ++ bs) := by
  rw [stakesOf_append]
  exact Multiset.le_add_left _ _

/-- Each of the nodes has a destructor of its own under way. -/
theorem Tearing.destructions_le (h : Tearing ns k fs es rs as) :
    ((fs.map fun f => Stake.destruction f.object : List Stake) : Multiset Stake) ≤ stakesOf as := by
  induction h with
  | nil => exact Multiset.zero_le _
  | @own _ _ _ _ as f id n _ ih =>
    exact ih.trans (stakesOf_le_append [.exec (.dropOwn n), .did id] as)
  | @leave _ _ fs _ as f _ ih =>
    have hleft : stakesOf (.leave :: .unlink f.object :: .reclaim f.object :: as) =
        .destruction f.object ::ₘ stakesOf as := by
      simp [Action.stakes, Action.slots]
    rw [hleft, List.map_cons, ← Multiset.cons_coe]
    exact Multiset.cons_le_cons _ ih
  | @unlink _ _ _ _ as o _ ih => exact ih.trans (stakesOf_le_append [.unlink o, .reclaim o] as)
  | exec _ _ ih | answer _ ih | drop _ _ ih | reply _ ih | letGo _ _ ih | did _ _ _ ih
  | reclaim _ _ ih | giveUp _ _ ih => exact ih.trans (stakesOf_le_append [_] _)

end Tearing

/-! ## Dropping a slot -/

variable {m : Machine} {h : Heap} {env : Environment} {o : ObjectId} {x : Object}

/-- The node whose destructor runs while that of the object does. -/
def framesOf (x : Object) (o : ObjectId) : List Frame :=
  match x.content with
  | .node _ => [⟨o, x.links⟩]
  | _ => []

/-- What the destructor of the object has to do. -/
def endingOf (x : Object) (o : ObjectId) : List Action :=
  match x.content with
  | .node c => execAll c.id x.onDrop ++ [.leave, .unlink o, .reclaim o]
  | _ => [.unlink o, .reclaim o]

theorem tearing_ending {xs : List Slot} (hx : x.Sheds xs) (o : ObjectId) :
    Tearing [] 0 (framesOf x o) x.partings [] (endingOf x o) := by
  cases hx with
  | @node c names hc hn =>
    simp only [framesOf, Object.partings, endingOf, hc, hn, Step.filterMap_droppedOwn?]
    exact tearing_execAll o x.links c.id names
  | other hc =>
    simp only [framesOf, Object.partings, endingOf]
    cases hxc : x.content with
    | node c => exact absurd hxc (hc c)
    | _ => exact .unlink o .nil

theorem stakesOf_ending (x : Object) (o : ObjectId) :
    stakesOf (endingOf x o) = {.destruction o} := by
  unfold endingOf
  split
  · rw [stakesOf_append, stakesOf_execAll, zero_add]
    rfl
  · rfl

theorem unlink_mem_ending (x : Object) (o : ObjectId) : .unlink o ∈ endingOf x o := by
  unfold endingOf
  split <;> simp

theorem linksOf_framesOf (hx : h.objects[o]? = some x) :
    ∀ f ∈ framesOf x o, h.linksOf f.object = f.table := by
  unfold framesOf
  split
  · intro f hf
    obtain rfl := List.mem_singleton.mp hf
    simp only [Heap.linksOf, hx, Option.map_some, Option.getD_some]
  · simp

theorem startDestructor_eq (hx : h.objects[o]? = some x) :
    startDestructor o ⟨h, env⟩ =
      ⟨(h.beginDestruction o).1.say x.content.farewell,
        { env with
          running := (framesOf x o).map (·.object) ++ env.running
          agenda := endingOf x o ++ env.agenda }⟩ := by
  have hsnd : (h.beginDestruction o).2 = ⟨x.content, x.onDrop⟩ := by
    simp only [Heap.beginDestruction, hx]
  simp only [startDestructor, onHeap, hsnd, endingOf, framesOf]
  generalize (h.beginDestruction o).1 = g
  cases x.content <;> simp [mapHeap, mapEnv, schedule, Content.farewell]

/-- What starts no destructor says nothing. -/
theorem Stake.farewell_of_starts?_eq_none {k : Stake} (hk : k.starts? h = none) :
    k.farewell h = [] := by
  simp [Stake.farewell, hk]

theorem Stake.farewell_of_starts? {k : Stake} (hk : k.starts? h = some o)
    (hx : h.objects[o]? = some x) : k.farewell h = x.content.farewell := by
  simp [Stake.farewell, hk, hx]

theorem Stake.partings_of_starts?_eq_none {k : Stake} (hk : k.starts? h = none) :
    k.partings h = [] := by
  simp [Stake.partings, hk]

theorem Stake.partings_of_starts? {k : Stake} (hk : k.starts? h = some o)
    (hx : h.objects[o]? = some x) : k.partings h = x.partings := by
  simp [Stake.partings, Heap.partingsOf, hk, hx]

/-- What becomes of a machine when a slot is dropped: what was lost is told, and the destructor that
starts has only its object's table to empty. -/
structure Falls (m : Machine) (k : Stake) (n : Machine) : Prop where
  loss : ∃ t, Loss m.heap m.stakes k t ∧ n.scene = (t.1.say (k.farewell m.heap), t.2)
  env : ∃ fs as, Tearing [] 0 fs (k.partings m.heap) [] as ∧
    (∀ f ∈ fs, m.heap.linksOf f.object = f.table) ∧
    (∀ o, k.starts? m.heap = some o → .unlink o ∈ as) ∧
    n.env = { m.env with
      running := fs.map (·.object) ++ m.env.running, agenda := as ++ m.env.agenda }

theorem Falls.still {k : Stake} {h' : Heap}
    (hl : Loss h (Machine.mk h env).stakes k (h', (Machine.mk h env).stakes))
    (hk : k.starts? h = none) : Falls ⟨h, env⟩ k ⟨h', env⟩ where
  loss := by
    refine ⟨_, hl, ?_⟩
    rw [Stake.farewell_of_starts?_eq_none hk, Heap.say_nil, scene,
      stakes_of_stored hl.sameLinks.stored]
  env := by
    refine ⟨[], [], ?_, by simp, by simp [hk], rfl⟩
    rw [Stake.partings_of_starts?_eq_none hk]
    exact .nil

/-- The destructor of the object starts, and `due` is left to be done after it. -/
theorem Falls.starts {k : Stake} {g : Heap} {due : List Action} {xs : List Slot}
    (hl : Loss h (Machine.mk h env).stakes k
      ((g.beginDestruction o).1, .destruction o ::ₘ (stakesOf due + (Machine.mk h env).stakes)))
    (hdue : Tearing [] 0 [] [] [] due) (hk : k.starts? h = some o) (hg : g.objects = h.objects)
    (hx : h.objects[o]? = some x) (hsheds : x.Sheds xs) :
    Falls ⟨h, env⟩ k (startDestructor o (schedule due ⟨g, env⟩)) := by
  have hstart : startDestructor o (schedule due ⟨g, env⟩) = _ := startDestructor_eq (hg ▸ hx)
  have hlinks : (g.beginDestruction o).1.stored = h.stored := hl.sameLinks.stored
  rw [hstart]
  constructor
  · refine ⟨_, hl, ?_⟩
    rw [Stake.farewell_of_starts? hk hx]
    refine Prod.ext rfl ?_
    have hsay (es : List Event) : ((g.beginDestruction o).1.say es).stored = h.stored := hlinks
    simp only [scene, stakes, hsay, stakesOf_append, stakesOf_ending]
    rw [← Multiset.singleton_add]
    abel
  · refine ⟨framesOf x o, endingOf x o ++ due, ?_, linksOf_framesOf hx, ?_, ?_⟩
    · rw [Stake.partings_of_starts? hk hx]
      simpa using (tearing_ending hsheds o).append hdue
    · intro o' ho'
      rw [hk] at ho'
      cases ho'
      exact List.mem_append_left _ (unlink_mem_ending _ _)
    · simp

/-- A slot that is dropped falls, with what its destructor leaves to be done. -/
theorem falls_dropSlot {x : Slot} (hs : Sound (m.heap, .pointer x ::ₘ m.stakes))
    (hsheds : ∀ y ∈ m.heap.objects, y.phase = .alive → ∃ xs, y.Sheds xs) :
    m.Falls (.pointer x) (m.dropSlot x) := by
  obtain ⟨h, env⟩ := m
  have hmem := Multiset.mem_cons_self (.pointer x) (Machine.mk h env).stakes
  have hobject {o : ObjectId} (hp : h.phase? o = some .alive) :
      ∃ y xs, h.objects[o]? = some y ∧ y.Sheds xs := by
    obtain ⟨y, hy, hphase⟩ := Option.map_eq_some_iff.mp hp
    obtain ⟨xs, hxs⟩ := hsheds y (Array.mem_of_getElem? hy) hphase
    exact ⟨y, xs, hy, hxs⟩
  rcases x with ⟨k, _ | b, v⟩ | ⟨k, _ | b, v⟩ | ⟨k, a, _ | o⟩ | r
  case strong.none => exact .still (.free (Slot.free_strong rfl)) rfl
  case strong.some =>
    by_cases last : h.strongCount b = 1
    · obtain ⟨y, hy, -, -, hpointee⟩ := hs.strong hmem rfl
      obtain ⟨o, ho⟩ := Option.isSome_iff_exists.mp hpointee
      have hstarts : (Stake.pointer (.strong ⟨k, some b, v⟩)).starts? h = some o := by
        simp [Stake.starts?, last, hy, ho]
      obtain ⟨z, xs, hz, hxs⟩ := hobject (hs.alive hmem hstarts)
      simp only [dropSlot, releaseOwner_last last, hy, Option.bind_some, ho]
      refine .starts (.dispose rfl last ?_) (.giveUp b .nil) hstarts (by simp) hz hxs
      simp [Heap.takePointee_releaseStrong_snd, hy, ho]
    · simp only [dropSlot, releaseOwner_others last]
      exact .still (.release rfl last) (by simp [Stake.starts?, last])
  case weak.none => exact .still (.free (Slot.free_weak rfl)) rfl
  case weak.some => exact .still (.unobserve rfl) rfl
  case unique.none => exact .still (.free (Slot.free_unique rfl)) rfl
  case unique.some =>
    obtain ⟨z, xs, hz, hxs⟩ := hobject (hs.alive hmem rfl)
    refine .starts (g := h) ?_ .nil rfl rfl hz hxs
    rw [stakesOf_nil, zero_add]
    exact .destroy rfl
  case raw => exact .still .leak rfl

end Machine

end Custody
