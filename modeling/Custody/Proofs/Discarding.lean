import Custody.Proofs.Completion
import Custody.Proofs.Promotion
import Custody.Proofs.Turns

/-!
# The end of an object that a unique pointer owns

* `Heap.Alters`: between two heaps one object changes, and nothing else.
* `Machine.step_discard`, `Machine.step_reclaim`: the steps at which a destructor begins and ends.
* `Machine.Discards`, `Machine.IsRationed.discards`: when a unique pointer is dropped, the
  destructor runs once and the memory is returned. Apart from what the destructor does itself,
  nothing else changes.
-/

namespace Custody

namespace Heap

variable {h h' h'' : Heap} {o : ObjectId} {f : Object → Object} {x : Object}

/-- Heap `h'` is `h` but for object `o`, which `f` has changed. The log and the ledgers are left
aside. -/
structure Alters (o : ObjectId) (f : Object → Object) (h h' : Heap) : Prop where
  blocks : h'.blocks = h.blocks
  objects : h'.objects = h.objects.modify o f
  statics : h'.statics = h.statics
  metrics : h'.metrics = h.metrics
  nextId : h'.nextId = h.nextId
  breaches : h'.breaches = h.breaches

/-- What allocators grant from now on does not change what they have granted. -/
theorem entries_ration (a : Alloc) (live : Bool) (limits : Alloc → Option Nat) (h : Heap) :
    ((h.ration limits).ledger a).entries live = (h.ledger a).entries live := by
  cases a <;> rfl

theorem alters_updateObject (o : ObjectId) (f : Object → Object) (h : Heap) :
    h.Alters o f (h.updateObject o f) :=
  ⟨rfl, rfl, rfl, rfl, rfl, rfl⟩

theorem Alters.of_ration {limits : Alloc → Option Nat}
    (ha : Alters o f (h.ration limits) h') : h.Alters o f h' :=
  ⟨ha.blocks, ha.objects, ha.statics, ha.metrics, ha.nextId, ha.breaches⟩

theorem Alters.ration (ha : h.Alters o f h') (limits : Alloc → Option Nat) :
    h.Alters o f (h'.ration limits) :=
  ⟨ha.blocks, ha.objects, ha.statics, ha.metrics, ha.nextId, ha.breaches⟩

theorem Alters.trans {g : Object → Object} (h₁ : h.Alters o f h') (h₂ : h'.Alters o g h'') :
    h.Alters o (fun x => g (f x)) h'' where
  blocks := h₂.blocks.trans h₁.blocks
  objects := by rw [h₂.objects, h₁.objects, Array.modify_modify]
  statics := h₂.statics.trans h₁.statics
  metrics := h₂.metrics.trans h₁.metrics
  nextId := h₂.nextId.trans h₁.nextId
  breaches := h₂.breaches.trans h₁.breaches

theorem Alters.emit (ha : h.Alters o f h') (e : Event) : h.Alters o f (h'.emit e) :=
  ⟨ha.blocks, ha.objects, ha.statics, ha.metrics, ha.nextId, ha.breaches⟩

theorem Alters.giveBack {a : Alloc} {n : Nat} {l : Layout} (ha : h.Alters o f h')
    (hl : (h'.ledger a).holds n l = true) : h.Alters o f (h'.giveBack a n l) := by
  obtain ⟨hblocks, hobjects, hstatics, hmetrics, hnext, hbreaches⟩ := ha
  unfold Heap.giveBack
  rw [if_pos hl]
  cases a <;> exact ⟨hblocks, hobjects, hstatics, hmetrics, hnext, hbreaches⟩

theorem alters_beginDestruction (hx : h.objects[o]? = some x) (hp : x.phase = .alive) :
    h.Alters o (fun x => { x with phase := .dying, onDrop := [] }) (h.beginDestruction o).1 := by
  rw [beginDestruction_eq hx hp]
  exact alters_updateObject _ _ _

/-- The destructor ends, and the memory of the object is returned. -/
theorem alters_endDestruction (hs : Booked h) (hx : h.objects[o]? = some x)
    (hp : x.phase ≠ .gone) :
    h.Alters o (fun x => { x with phase := .gone }) (h.endDestruction o) ∧
      ∀ a, ((h.endDestruction o).ledger a).entries true + (returnsTo a x.storage? : Multiset _) =
        (h.ledger a).entries true := by
  have hupdate := alters_updateObject o (fun x => { x with phase := .gone }) h
  have heq := endDestruction_eq hx
  cases hn : x.serial with
  | none =>
    rw [hn] at heq
    rw [heq]
    refine ⟨hupdate, fun a => ?_⟩
    rw [Object.storage?, hn]
    exact add_zero _
  | some n =>
    rw [hn] at heq
    have hholds := hs.holds_object hx hp hn
    rw [heq]
    refine ⟨hupdate.giveBack hholds, fun a => ?_⟩
    have hledger : (h.updateObject o fun x => { x with phase := .gone }).ledger = h.ledger := rfl
    rw [ledger_giveBack, Object.storage?, hn, hledger]
    by_cases ha : x.alloc = a
    · subst ha
      simpa [returnsTo] using Ledger.entries_giveBack true hholds
    · simp [returnsTo, ha]

/-- The node whose destructor runs steps, if the object is one. -/
def runnerOf (h : Heap) (o : ObjectId) : List ObjectId :=
  match h.objects[o]?.map (·.content) with
  | some (Content.node _) => [o]
  | _ => []

/-- A node runs steps, and leaves when they are over. Any other object has links to drop only. -/
theorem duties_cases (h : Heap) (o : ObjectId) :
    (h.runnerOf o = [o] ∧ ∃ id, h.dutiesOf o =
      Machine.execAll id (h.stepsOf o) ++ [.leave, .unlink o, .reclaim o]) ∨
    (h.runnerOf o = [] ∧ h.dutiesOf o = [.unlink o, .reclaim o]) := by
  unfold runnerOf dutiesOf
  cases h.objects[o]?.map (·.content) with
  | none => exact .inr ⟨rfl, rfl⟩
  | some c =>
    cases c with
    | node n => exact .inl ⟨rfl, n.id, rfl⟩
    | _ => exact .inr ⟨rfl, rfl⟩

end Heap

namespace Machine

variable {m : Machine} {o : ObjectId} {rest : List Action} {k : Kind} {a : Alloc}

/-! ## One step -/

/-- A destructor starts: what it has to do comes first, and only the object changes. -/
structure Begins (m m' : Machine) (o : ObjectId) (rest : List Action) : Prop where
  heap : m.heap.Alters o (fun x => { x with phase := .dying, onDrop := [] }) m'.heap
  ledger : ∀ a live, (m'.heap.ledger a).entries live = (m.heap.ledger a).entries live
  env : m'.env =
    { m.env with
      agenda := m.heap.dutiesOf o ++ rest, running := m.heap.runnerOf o ++ m.env.running }

/-- A destructor ends: the object is gone, and its memory is returned. -/
structure Ends (m m' : Machine) (o : ObjectId) (rest : List Action) : Prop where
  heap : m.heap.Alters o (fun x => { x with phase := .gone }) m'.heap
  returned : ∀ a, (m'.heap.ledger a).entries true +
    (returnsTo a (m.heap.objects[o]?.bind Object.storage?) : Multiset _) =
      (m.heap.ledger a).entries true
  env : m'.env = { m.env with agenda := rest }

theorem Begins.of_ration {m' : Machine} {limits : Alloc → Option Nat}
    (h : (m.ration limits).Begins m' o rest) : m.Begins m' o rest where
  heap := h.heap.of_ration
  ledger a live := (h.ledger a live).trans (Heap.entries_ration a live limits m.heap)
  env := h.env

theorem Ends.of_ration {m' : Machine} {limits : Alloc → Option Nat}
    (h : (m.ration limits).Ends m' o rest) : m.Ends m' o rest where
  heap := h.heap.of_ration
  returned a := (h.returned a).trans (Heap.entries_ration a true limits m.heap)
  env := h.env

/-- A destructor starts, and what it has to do comes first. -/
theorem begins_startDestructor {x : Object} (hx : m.heap.objects[o]? = some x)
    (hp : x.phase = .alive) : m.Begins (m.startDestructor o) o m.env.agenda := by
  obtain ⟨h, env⟩ := m
  have hx : h.objects[o]? = some x := hx
  have halters := Heap.alters_beginDestruction hx hp
  have hledger := Heap.ledger_beginDestruction (h := h) (o := o)
  have hsnd : (h.beginDestruction o).2 = ⟨x.content, x.onDrop⟩ := by
    simp only [Heap.beginDestruction, hx]
  constructor
  case heap =>
    simp only [startDestructor, onHeap, hsnd]
    split
    · exact halters.emit _
    · exact halters
  case ledger =>
    intro a live
    simp only [startDestructor, onHeap, hsnd]
    split <;> exact congrArg (fun g => (g a).entries live) hledger
  case env =>
    simp only [startDestructor, onHeap, hsnd, Heap.runnerOf, Heap.dutiesOf, Heap.stepsOf, hx,
      Option.map_some, Option.getD_some]
    cases x.content <;> rfl

/-- The object of a unique pointer that is dropped is alive, and its destructor starts. -/
theorem step_discard (hs : Sound m.scene)
    (ha : m.env.agenda = .drop (.unique ⟨k, a, some o⟩) :: rest) :
    m.starts? = some o ∧ m.heap.phase? o = some .alive ∧ m.Begins m.step o rest := by
  have hstarts : m.starts? = some o := by
    simp only [starts?, ha, Stake.starts?]
  have hmem : .pointer (.unique ⟨k, a, some o⟩) ∈ m.stakes := by
    refine pointer_mem_stakes_iff.mpr (List.mem_append_right _ ?_)
    rw [ha]
    exact List.mem_cons_self
  have halive : m.heap.phase? o = some .alive := hs.alive hmem rfl
  refine ⟨hstarts, halive, ?_⟩
  obtain ⟨x, hx, hp⟩ := Option.map_eq_some_iff.mp halive
  have hbegins := begins_startDestructor
    (m := m.mapEnv fun e => { e with agenda := rest }) (o := o) hx hp
  rw [step_eq_perform (next?_of_agenda ha)]
  exact ⟨hbegins.heap, hbegins.ledger, hbegins.env⟩

/-- With its memory returned an object is gone. -/
theorem step_reclaim (hs : Sound m.scene) (ha : m.env.agenda = .reclaim o :: rest) :
    m.heap.phase? o = some .dying ∧ m.Ends m.step o rest ∧
      m.step.heap.phase? o = some .gone := by
  have hmem : .destruction o ∈ m.stakes := destruction_mem_stakes_iff.mpr (by simp [ha])
  have hdying : m.heap.phase? o = some .dying := hs.owned.dying hs.scope (tally_pos hmem rfl)
  obtain ⟨x, hx, hp⟩ := Option.map_eq_some_iff.mp hdying
  obtain ⟨halters, hreturned⟩ := Heap.alters_endDestruction hs.booked hx (by simp [hp])
  rw [step_eq_perform (next?_of_agenda ha)]
  refine ⟨hdying, ⟨halters, fun a => ?_, rfl⟩, ?_⟩
  · rw [hx]
    exact hreturned a
  · have hphase := Heap.phase?_modify_self (p := .gone) halters.objects fun _ => rfl
    exact hphase.trans (congrArg _ hdying)

/-! ## Runs -/

section Run

variable {run : Nat → Machine} {i j n : Nat}

theorem IsRationed.gone_of_le (hr : IsRationed run) (h : (run i).heap.phase? o = some .gone)
    (hin : i ≤ n) : (run n).heap.phase? o = some .gone := by
  induction n, hin using Nat.le_induction with
  | base => exact h
  | succ n _ ih =>
    obtain ⟨limits, hnext⟩ := hr.next n
    exact hnext ▸ ((hr.reachable n).ration limits).step_gone ih

theorem IsRationed.lasts {x : Object} (hr : IsRationed run) (hx : (run i).heap.objects[o]? = some x)
    (hin : i ≤ n) : ∃ y, (run n).heap.objects[o]? = some y ∧ x.Lasts y := by
  induction n, hin using Nat.le_induction with
  | base => exact ⟨x, hx, .refl x⟩
  | succ n _ ih =>
    obtain ⟨y, hy, hxy⟩ := ih
    obtain ⟨limits, hnext⟩ := hr.next n
    obtain ⟨z, hz, hyz⟩ := ((hr.grounded n).ration limits).step_lasts o y hy
    exact ⟨z, hnext ▸ hz, hxy.trans hyz⟩

/-- A unique pointer to object `o` is dropped at moment `i`, where `rest` is to be done after it.
The destructor of the object is over after moment `j`. -/
structure Discards (run : Nat → Machine) (i : Nat) (o : ObjectId) (rest : List Action)
    (j : Nat) : Prop where
  alive : (run i).heap.phase? o = some .alive
  /-- The destructor starts then, and at no other moment. -/
  once : ∀ n, (run n).starts? = some o ↔ n = i
  later : i < j
  begins : (run i).Begins (run (i + 1)) o rest
  /-- What the destructor itself does comes before everything else. -/
  inside : ∀ n, i < n → n < j → (run n).heap.phase? o = some .dying ∧
    ∃ a as, (run n).env.agenda = a :: (as ++ .reclaim o :: rest)
  last : (run j).env.agenda = .reclaim o :: rest
  /-- The memory that is returned is that which the object was in. -/
  memory : (run j).heap.objects[o]?.bind Object.storage? =
    (run i).heap.objects[o]?.bind Object.storage?
  ends : (run j).Ends (run (j + 1)) o rest
  gone : ∀ n, j < n → (run n).heap.phase? o = some .gone

/-- What a unique pointer owns is destroyed once when the pointer is dropped, whatever its
destructor does and the allocators refuse. -/
theorem IsRationed.discards (hr : IsRationed run)
    (ha : (run i).env.agenda = .drop (.unique ⟨k, a, some o⟩) :: rest) :
    ∃ j, Discards run i o rest j := by
  obtain ⟨limits, hnext⟩ := hr.next i
  obtain ⟨hstarts, halive, hbegins⟩ :=
    step_discard (m := (run i).ration limits) ((hr.sound i).ration limits) ha
  rw [← hnext] at hbegins
  obtain ⟨as, has⟩ : ∃ as, (run i).heap.dutiesOf o = as ++ [.reclaim o] := by
    rcases (run i).heap.duties_cases o with ⟨-, id, hduties⟩ | ⟨-, hduties⟩
    · refine ⟨execAll id ((run i).heap.stepsOf o) ++ [.leave, .unlink o], ?_⟩
      rw [hduties, List.append_assoc]
      rfl
    · exact ⟨[.unlink o], hduties⟩
  have hagenda : (run (i + 1)).env.agenda = as ++ .reclaim o :: rest := by
    have hduties : ((run i).ration limits).heap.dutiesOf o = (run i).heap.dutiesOf o := rfl
    rw [hbegins.env, hduties, has, List.append_assoc]
    rfl
  obtain ⟨j, hj, hlast, -, hfront⟩ := hr.sequel.reaches hagenda
  obtain ⟨limits', hnext'⟩ := hr.next j
  obtain ⟨-, hends, hgone⟩ :=
    step_reclaim (m := (run j).ration limits') ((hr.sound j).ration limits') hlast
  rw [← hnext'] at hends hgone
  refine ⟨j, ?_⟩
  constructor
  case alive => exact halive
  case once => exact fun n => ⟨fun hn => hr.starts_once hn hstarts, fun hn => hn ▸ hstarts⟩
  case later => omega
  case begins => exact hbegins.of_ration
  case inside =>
    intro n hin hnj
    obtain ⟨a, bs, hn⟩ := hfront n hin hnj
    have hmem : .destruction o ∈ (run n).stakes := destruction_mem_stakes_iff.mpr (by simp [hn])
    exact ⟨(hr.owned n).dying (hr.grounded n).scope (tally_pos hmem rfl), a, bs, hn⟩
  case last => exact hlast
  case memory =>
    obtain ⟨x, hx, -⟩ : ∃ x, (run i).heap.objects[o]? = some x ∧ x.phase = .alive :=
      Option.map_eq_some_iff.mp halive
    obtain ⟨y, hy, hxy⟩ := hr.lasts hx (by omega : i ≤ j)
    rw [hx, hy]
    exact hxy.storage?
  case ends => exact hends.of_ration
  case gone => exact fun n hn => hr.gone_of_le hgone hn

/-- The memory of the object is returned as soon as nothing stands before that. -/
theorem Discards.le (hd : Discards run i o rest j) (hin : i < n)
    (ha : (run n).env.agenda = .reclaim o :: rest) : j ≤ n := by
  by_contra hlt
  obtain ⟨-, b, bs, hfront⟩ := hd.inside n hin (by omega)
  have hlength := congrArg List.length (ha.symm.trans hfront)
  simp only [List.length_cons, List.length_append] at hlength
  omega

theorem Discards.lt (hd : Discards run i o rest j) (hnj : n ≤ j)
    (ha : (run n).env.agenda ≠ .reclaim o :: rest) : n < j :=
  Nat.lt_of_le_of_ne hnj fun heq => ha (heq ▸ hd.last)

theorem IsRationed.step_leave (hr : IsRationed run) (ha : (run n).env.agenda = .leave :: rest) :
    ∃ limits, run (n + 1) = ((run n).ration limits).mapEnv fun e =>
      { e with agenda := rest, running := e.running.tail } :=
  hr.sequel.exists_perform ha

/-- There are no links to drop, and then the memory is returned. -/
theorem IsRationed.last_of_unlink (hr : IsRationed run) (hd : Discards run i o rest j)
    (hin : i < n) (hnj : n ≤ j) (hl : (run n).heap.linksOf o = .empty)
    (ha : (run n).env.agenda = .unlink o :: .reclaim o :: rest) :
    ∃ limits, run j = ((run n).ration limits).mapEnv fun e =>
      { e with agenda := .reclaim o :: rest } := by
  obtain ⟨limits, hnext⟩ := hr.sequel.exists_perform ha
  have hempty : (((run n).ration limits).mapEnv fun e =>
      { e with agenda := .reclaim o :: rest }).table (.links o) = .empty := hl
  have hunlink : run (n + 1) =
      ((run n).ration limits).mapEnv fun e => { e with agenda := .reclaim o :: rest } := by
    rw [hnext, perform, emptyOut, hempty]
    rfl
  have hlt : n < j := hd.lt hnj (by simp [ha])
  have hle : j ≤ n + 1 := hd.le (by omega) (by rw [hunlink]; rfl)
  obtain rfl : j = n + 1 := by omega
  exact ⟨limits, hunlink⟩

/-- The destructor of an object without steps and links has nothing to do before its end. -/
theorem IsRationed.idle (hr : IsRationed run) (hd : Discards run i o rest j)
    (hsteps : (run i).heap.stepsOf o = []) (hlinks : (run i).heap.linksOf o = .empty) :
    (∃ limits, (run j).heap = (run (i + 1)).heap.ration limits) ∧
      (run j).env = { (run i).env with agenda := .reclaim o :: rest } := by
  have henv := hd.begins.env
  have hlinks' : (run (i + 1)).heap.linksOf o = .empty := by
    rw [Heap.linksOf, hd.begins.heap.objects, Array.getElem?_modify, if_pos rfl, Option.map_map]
    exact hlinks
  rcases (run i).heap.duties_cases o with ⟨hrunner, id, hduties⟩ | ⟨hrunner, hduties⟩
  · rw [hrunner, hduties, hsteps] at henv
    have ha : (run (i + 1)).env.agenda = .leave :: .unlink o :: .reclaim o :: rest := by
      rw [henv]
      rfl
    obtain ⟨limits, hleave⟩ := hr.step_leave ha
    obtain ⟨limits', hlast⟩ := hr.last_of_unlink (n := i + 2) hd (by omega)
      (hd.lt hd.later (by simp [ha])) (by rw [hleave]; exact hlinks') (by rw [hleave]; rfl)
    refine ⟨⟨limits', by rw [hlast, hleave]; rfl⟩, ?_⟩
    rw [hlast, hleave]
    simp only [mapEnv, ration, mapHeap, henv]
    rfl
  · rw [hrunner, hduties] at henv
    obtain ⟨limits, hlast⟩ := hr.last_of_unlink (n := i + 1) hd (by omega) hd.later hlinks'
      (by rw [henv]; rfl)
    refine ⟨⟨limits, by rw [hlast]; rfl⟩, ?_⟩
    rw [hlast]
    simp only [mapEnv, ration, mapHeap, henv]
    rfl

/-- So it changes nothing but the object, whose memory is returned. -/
theorem IsRationed.quiet (hr : IsRationed run) (hd : Discards run i o rest j)
    (hsteps : (run i).heap.stepsOf o = []) (hlinks : (run i).heap.linksOf o = .empty) :
    (run i).heap.Alters o (fun x => { x with phase := .gone, onDrop := [] }) (run (j + 1)).heap ∧
      (∀ a, ((run (j + 1)).heap.ledger a).entries true +
        (returnsTo a ((run i).heap.objects[o]?.bind Object.storage?) : Multiset _) =
          ((run i).heap.ledger a).entries true) ∧
      (run (j + 1)).env = { (run i).env with agenda := rest } := by
  obtain ⟨⟨limits, hheap⟩, henv⟩ := hr.idle hd hsteps hlinks
  have hbegun := hd.begins.heap.ration limits
  rw [← hheap] at hbegun
  refine ⟨hbegun.trans hd.ends.heap, fun a => ?_, ?_⟩
  · rw [← hd.memory, hd.ends.returned a, hheap, Heap.entries_ration]
    exact hd.begins.ledger a true
  · rw [hd.ends.env, henv]

end Run

end Machine

end Custody
