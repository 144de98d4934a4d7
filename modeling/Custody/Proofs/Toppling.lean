import Custody.Proofs.Branching
import Custody.Proofs.Discarding
import Custody.Proofs.Remains
import Custody.Proofs.StrongSide

/-!
# Trees are felled from the top

When the only pointer to the top of a tree is dropped, members are disposed of on the way down and
freed on the way up.

* `Machine.IsRationed.disposes`, `Machine.IsRationed.unlinks_first`, `Machine.IsRationed.takes_own`,
  `Machine.IsRationed.reclaims`, `Machine.IsRationed.frees`: the steps on the way, each with the
  little that it changes.
* `Machine.Topples`: a tree is felled whenever it is dropped.
* `Machine.IsRationed.unlinks`, `Machine.IsRationed.unloads`: a destructor fells what hangs on its
  object, one tree after another.
* `Machine.IsRationed.topples`, `Machine.IsRationed.each_topples`: by induction every tree is
  felled.
* `Machine.Felled`, `Machine.IsRationed.felling`: the orders of what is told, the counts, and that
  all else stays as it is.
-/

namespace Custody

namespace Heap

variable {h g h' : Heap} {v : Member} {o : ObjectId} {y : Object} {es : List Event}
  {os : List ObjectId} {vs : List Member}

/-! ## What changes little -/

theorem Confined.of_ration {limits : Alloc → Option Nat}
    (hc : (h.ration limits).Confined vs os es h') : h.Confined vs os es h' :=
  ⟨hc.blocks, hc.objects, hc.statics, hc.nextId, hc.logs.log, hc.logs.metrics⟩

theorem confined_ration (limits : Alloc → Option Nat) (h : Heap) :
    h.Confined vs os [] (h.ration limits) :=
  ⟨fun _ _ => rfl, fun _ _ _ => rfl, rfl, rfl, .silent rfl rfl⟩

theorem Alters.confined {f : Object → Object} (ha : h.Alters o f h')
    (hlog : h'.log.toList = h.log.toList ++ es) (hes : es.foldl .note h.metrics = h.metrics) :
    h.Confined [] [o] es h' where
  blocks _ _ := by rw [ha.blocks]
  objects o' ho' _ := by
    have hne : o ≠ o' := fun heq => ho' (by simp [heq])
    rw [ha.objects, Array.getElem?_modify, if_neg hne]
  statics := ha.statics
  nextId := ha.nextId
  logs := ⟨hlog, ha.metrics.trans hes.symm⟩

theorem confined_updateObject (o : ObjectId) (f : Object → Object) (h : Heap) :
    h.Confined [] [o] [] (h.updateObject o f) :=
  (alters_updateObject o f h).confined (by simp [updateObject]) rfl

theorem confined_emit {e : Event} (he : e.IsRemark) (h : Heap) :
    h.Confined [] os [e] (h.emit e) :=
  ⟨fun _ _ => rfl, fun _ _ _ => rfl, rfl, rfl, ⟨by simp [emit], by cases he <;> rfl⟩⟩

/-- Storage is returned, which is told. -/
theorem confined_giveBack (a : Alloc) (n : Nat) (l : Layout) (h : Heap) :
    h.Confined vs os [.dealloc a n l] (h.giveBack a n l) where
  blocks _ _ := by rw [blocks_giveBack]
  objects _ _ _ := by rw [objects_giveBack]
  statics := statics_giveBack a n l
  nextId := nextId_giveBack a n l
  logs := by
    refine ⟨log_giveBack a n l h, ?_⟩
    unfold giveBack
    cases a <;> dsimp only <;> split <;> rfl

/-- The only owner goes, and with it the pointee. -/
theorem confined_takePointee {x : Block} (hx : h.blocks[v.block]? = some x)
    (hf : x.freed = false) (hs : x.strong = 1) (hp : x.pointee.isSome = true) :
    h.Confined [v] [] [.pointeeDisposed x.id]
      ((h.releaseStrong v.block).1.takePointee v.block).1 := by
  rw [takePointee_releaseStrong hx hf hs hp]
  refine ⟨fun b hb => ?_, fun _ _ _ => rfl, rfl, rfl, ⟨by simp, rfl⟩⟩
  have hne : v.block ≠ b := hb v List.mem_cons_self
  simp [Array.getElem?_modify, hne]

/-- The destructor of an object is over. -/
theorem confined_endDestruction (hs : Booked h) (hy : h.objects[o]? = some y)
    (hp : y.phase ≠ .gone) : h.Confined [] [o] y.returned (h.endDestruction o) := by
  refine (alters_endDestruction hs hy hp).1.confined (log_endDestruction hy) ?_
  rw [Object.returned]
  cases y.storage? <;> rfl

/-- The block, which nothing owns any more, is freed. -/
theorem confined_giveUpImplicit {x : Block} (hx : h.blocks[v.block]? = some x)
    (hf : x.freed = false) (hw : x.weak = 1) (hs : x.strong = 0) :
    h.Confined [v] [] [.blockFreed x.id, .dealloc x.alloc x.serial (.block x.kind.isSized)]
      (h.giveUpImplicit v.block) := by
  have hx' : (h.updateBlock v.block fun x => { x with implicitWeak := false }).blocks[v.block]? =
      some { x with implicitWeak := false } := by
    simp [updateBlock, Array.getElem?_modify, hx]
  rw [giveUpImplicit, releaseWeak_last hx' hf hw hs]
  have hfree : h.Confined [v] [] [.blockFreed x.id]
      { h with
        blocks := (h.blocks.modify v.block fun x => { x with implicitWeak := false }).modify v.block
          fun x => { x with weak := x.weak - 1, freed := true }
        metrics := h.metrics.recordBlockFreed
        log := h.log.push (.blockFreed x.id) } := by
    refine ⟨fun b hb => ?_, fun _ _ _ => rfl, rfl, rfl, ⟨by simp, rfl⟩⟩
    have hne : v.block ≠ b := hb v List.mem_cons_self
    simp [Array.getElem?_modify, hne]
  exact hfree.trans (confined_giveBack _ _ _ _)

end Heap

namespace Machine

variable {run : Nat → Machine} {n : Nat} {a : Action} {rest : List Action} {o : ObjectId}
  {y : Object} {t : Table} {b : BlockId} {name : String} {x : Slot} {v : Member}

/-! ## One step -/

theorem IsRationed.exists_perform (hr : IsRationed run) (ha : (run n).env.agenda = a :: rest) :
    ∃ limits, run (n + 1) =
      perform a ⟨(run n).heap.ration limits, { (run n).env with agenda := rest }⟩ :=
  hr.sequel.exists_perform ha

theorem IsRationed.unlinks_nothing (hr : IsRationed run)
    (ha : (run n).env.agenda = .unlink o :: rest) (hl : (run n).heap.linksOf o = .empty) :
    (run n).heap.Confined [] [] [] (run (n + 1)).heap ∧
      (run (n + 1)).env = { (run n).env with agenda := rest } := by
  obtain ⟨limits, hnext⟩ := hr.exists_perform ha
  have hempty : table ⟨(run n).heap.ration limits, { (run n).env with agenda := rest }⟩
      (.links o) = .empty := hl
  rw [hnext, perform, emptyOut, hempty]
  exact ⟨Heap.confined_ration _ _, rfl⟩

/-- The first link goes off its table, to be dropped. -/
theorem IsRationed.unlinks_first {t' : Table} (hr : IsRationed run)
    (ha : (run n).env.agenda = .unlink o :: rest) (hl : (run n).heap.linksOf o = t)
    (hpop : t.popFirst? = some (x, t')) :
    (run n).heap.Confined [] [o] [] (run (n + 1)).heap ∧
      (run (n + 1)).heap.objects =
        (run n).heap.objects.modify o (fun y => { y with links := t' }) ∧
      (run (n + 1)).env = { (run n).env with agenda := .drop x :: .unlink o :: rest } := by
  obtain ⟨limits, hnext⟩ := hr.exists_perform ha
  have htable : table ⟨(run n).heap.ration limits, { (run n).env with agenda := rest }⟩
      (.links o) = t := hl
  rw [hnext, perform, emptyOut, htable, hpop]
  exact ⟨.of_ration (Heap.confined_updateObject o _ _), rfl, rfl⟩

/-- A slot of the object that is dropped is taken out first. -/
theorem IsRationed.takes_own (hr : IsRationed run)
    (ha : (run n).env.agenda = .exec (.dropOwn name) :: rest)
    (ho : (run n).env.running.head? = some o) (hl : (run n).heap.linksOf o = t)
    (hx : t.get? name = some x) :
    (run n).heap.Confined [] [o] [] (run (n + 1)).heap ∧
      (run (n + 1)).heap.objects =
        (run n).heap.objects.modify o (fun y => { y with links := t.erase name }) ∧
      (run (n + 1)).env = { (run n).env with
        agenda := .drop x :: .answer .done :: .letGo (.links o) :: rest } := by
  obtain ⟨limits, hnext⟩ := hr.exists_perform ha
  have hplan := plan_dropOwn (h := (run n).heap.ration limits)
    (e := { (run n).env with agenda := rest }) ho name
  have hlinks : ((run n).heap.ration limits).linksOf o = t := hl
  rw [hlinks, hx] at hplan
  rw [hnext, perform, hplan]
  refine ⟨.of_ration (Heap.confined_updateObject o _ _), ?_, rfl⟩
  subst hl
  rfl

/-- If the slot is not there, that is the reply. -/
theorem IsRationed.misses_own (hr : IsRationed run)
    (ha : (run n).env.agenda = .exec (.dropOwn name) :: rest)
    (ho : (run n).env.running.head? = some o) (hx : ((run n).heap.linksOf o).get? name = none) :
    (run n).heap.Confined [] [] [] (run (n + 1)).heap ∧
      (run (n + 1)).env = { (run n).env with
        agenda := rest, replies := .failed .noSlot :: (run n).env.replies } := by
  obtain ⟨limits, hnext⟩ := hr.exists_perform ha
  have hplan := plan_dropOwn (h := (run n).heap.ration limits)
    (e := { (run n).env with agenda := rest }) ho name
  have hlinks : (((run n).heap.ration limits).linksOf o).get? name = none := hx
  rw [hlinks] at hplan
  rw [hnext, perform, hplan]
  exact ⟨Heap.confined_ration _ _, rfl⟩

theorem IsRationed.answers {r : Reply} (hr : IsRationed run)
    (ha : (run n).env.agenda = .answer r :: rest) :
    (run n).heap.Confined [] [] [] (run (n + 1)).heap ∧
      (run (n + 1)).env = { (run n).env with
        agenda := rest, replies := r :: (run n).env.replies } := by
  obtain ⟨limits, hnext⟩ := hr.exists_perform ha
  rw [hnext]
  exact ⟨Heap.confined_ration _ _, rfl⟩

/-- What a node holds that is not gone stays. -/
theorem IsRationed.keeps_links (hr : IsRationed run)
    (ha : (run n).env.agenda = .letGo (.links o) :: rest)
    (hp : (run n).heap.phase? o ≠ some .gone) :
    (run n).heap.Confined [] [] [] (run (n + 1)).heap ∧
      (run (n + 1)).env = { (run n).env with agenda := rest } := by
  obtain ⟨limits, hnext⟩ := hr.exists_perform ha
  have hgone : isGone ⟨(run n).heap.ration limits, { (run n).env with agenda := rest }⟩
      (.links o) = false := by
    rw [← Bool.not_eq_true, isGone_links]
    exact hp
  rw [hnext, perform, letGoOf, hgone]
  exact ⟨Heap.confined_ration _ _, rfl⟩

theorem IsRationed.reports {node : Int64} {r : Reply} {rs : List Reply} (hr : IsRationed run)
    (ha : (run n).env.agenda = .did node :: rest) (hreplies : (run n).env.replies = r :: rs) :
    (run n).heap.Confined [] [] [.did node r] (run (n + 1)).heap ∧
      (run (n + 1)).env = { (run n).env with agenda := rest, replies := rs } := by
  obtain ⟨limits, hnext⟩ := hr.exists_perform ha
  have htake : takeReply ⟨(run n).heap.ration limits, { (run n).env with agenda := rest }⟩ =
      (⟨(run n).heap.ration limits, { (run n).env with agenda := rest, replies := rs }⟩, r) := by
    simp only [takeReply, takeReplies, hreplies]
    rfl
  rw [hnext, perform, htake]
  exact ⟨.of_ration (Heap.confined_emit (.did _ _) _), rfl⟩

theorem IsRationed.leaves (hr : IsRationed run) (ha : (run n).env.agenda = .leave :: rest) :
    (run n).heap.Confined [] [] [] (run (n + 1)).heap ∧
      (run (n + 1)).env = { (run n).env with
        agenda := rest, running := (run n).env.running.tail } := by
  obtain ⟨limits, hnext⟩ := hr.step_leave ha
  rw [hnext]
  exact ⟨Heap.confined_ration _ _, rfl⟩

/-- The memory of a pointee is returned, and nothing else happens. -/
theorem IsRationed.reclaims (hr : IsRationed run)
    (ha : (run n).env.agenda = .reclaim o :: rest) (hy : (run n).heap.objects[o]? = some y) :
    (run n).heap.Confined [] [o] y.returned (run (n + 1)).heap ∧
      (run (n + 1)).heap.objects =
        (run n).heap.objects.modify o (fun y => { y with phase := .gone }) ∧
      (run (n + 1)).env = { (run n).env with agenda := rest } := by
  obtain ⟨limits, hnext⟩ := hr.exists_perform ha
  have hmem : .destruction o ∈ (run n).stakes := destruction_mem_stakes_iff.mpr (by simp [ha])
  have hp : y.phase = .dying := by
    have hdying := (hr.owned n).dying (hr.grounded n).scope (tally_pos hmem rfl)
    obtain ⟨x, hx, hp⟩ := Option.map_eq_some_iff.mp hdying
    cases hx.symm.trans hy
    exact hp
  have hconfined := Heap.confined_endDestruction (h := (run n).heap.ration limits)
    ((hr.sound n).ration limits).booked hy (by simp [hp])
  rw [hnext]
  exact ⟨hconfined.of_ration, Heap.objects_endDestruction, rfl⟩

/-- A block without weak pointers is freed with its implicit reference. -/
theorem IsRationed.frees {x : Block} (hr : IsRationed run)
    (ha : (run n).env.agenda = .giveUpImplicit v.block :: rest)
    (hx : (run n).heap.blocks[v.block]? = some x) (hf : x.freed = false) (hw : x.weak = 1)
    (hs : x.strong = 0) :
    (run n).heap.Confined [v] []
        [.blockFreed x.id, .dealloc x.alloc x.serial (.block x.kind.isSized)] (run (n + 1)).heap ∧
      (run (n + 1)).heap.blocks[v.block]? =
        some { x with implicitWeak := false, weak := 0, freed := true } ∧
      (run (n + 1)).heap.objects = (run n).heap.objects ∧
      (run (n + 1)).env = { (run n).env with agenda := rest } := by
  obtain ⟨limits, hnext⟩ := hr.exists_perform ha
  have hx' : ((run n).heap.ration limits).blocks[v.block]? = some x := hx
  have hconfined := Heap.confined_giveUpImplicit hx' hf hw hs
  have hobjects : (((run n).heap.ration limits).giveUpImplicit v.block).objects =
      (run n).heap.objects := by
    rw [Heap.objects_giveUpImplicit]
    rfl
  have hblock : (((run n).heap.ration limits).giveUpImplicit v.block).blocks[v.block]? =
      some { x with implicitWeak := false, weak := 0, freed := true } := by
    simp [Array.getElem?_modify, hx', hw]
  rw [hnext]
  exact ⟨hconfined.of_ration, hblock, hobjects, rfl⟩

theorem perform_drop_last {h : Heap} {p : Strong} {z : Block} (hp : p.block = some b)
    (hz : h.blocks[b]? = some z) (hs : z.strong = 1) (ho : z.pointee = some o) (e : Environment) :
    perform (.drop (.strong p)) ⟨h, e⟩ = startDestructor o
      (schedule [.giveUpImplicit b] ⟨((h.releaseStrong b).1.takePointee b).1, e⟩) := by
  have hperform : perform (.drop (.strong p)) ⟨h, e⟩ = releaseOwner b ⟨h, e⟩ := by
    obtain ⟨k, c, w⟩ := p
    cases hp
    rfl
  have hbind : h.blocks[b]?.bind (·.pointee) = some o := by rw [hz, Option.bind_some, ho]
  rw [hperform, releaseOwner_last ((Heap.strongCount_eq hz).trans hs), hbind]

/-- With the only pointer to a member the destructor of the pointee starts. -/
theorem IsRationed.disposes {p : Strong} (hr : IsRationed run)
    (ha : (run n).env.agenda = .drop (.strong p) :: rest) (hp : p.block = some v.block)
    (hv : (run n).heap.HasMember v) (hs : v.Sole) :
    (run n).heap.Confined [v] [] (.pointeeDisposed v.header.id :: v.pointee.content.farewell)
        (run (n + 1)).heap ∧
      (run (n + 1)).heap.blocks[v.block]? =
        some { v.header with strong := 0, pointee := none } ∧
      (run (n + 1)).heap.objects[v.object]? =
        some { v.pointee with phase := .dying, onDrop := [] } ∧
      (run (n + 1)).env = { (run n).env with
        agenda := (run n).heap.dutiesOf v.object ++ .giveUpImplicit v.block :: rest
        running := (run n).heap.runnerOf v.object ++ (run n).env.running } := by
  obtain ⟨limits, hnext⟩ := hr.exists_perform ha
  have halive : v.pointee.phase = .alive := by
    simpa [Heap.phase?, hv.object] using hr.member_alive hv
  have hx : ((run n).heap.ration limits).blocks[v.block]? = some v.header := hv.block
  have htake := Heap.confined_takePointee hx hs.unfreed hs.strong (by simp [hv.pointee])
  rw [perform_drop_last hp hx hs.strong hv.pointee] at hnext
  generalize hg : ((((run n).heap.ration limits).releaseStrong v.block).1.takePointee v.block).1 = g
    at hnext htake
  have hobjects : g.objects = (run n).heap.objects := by
    rw [← hg, Heap.objects_takePointee, Heap.objects_releaseStrong]
    rfl
  have hblock : g.blocks[v.block]? = some { v.header with strong := 0, pointee := none } := by
    rw [← hg, Heap.blocks_takePointee_releaseStrong, Array.getElem?_modify, if_pos rfl, hx]
    simp [hs.strong]
  have hobject : g.objects[v.object]? = some v.pointee := hobjects ▸ hv.object
  have hbegins := begins_startDestructor (o := v.object)
    (m := schedule [.giveUpImplicit v.block] ⟨g, { (run n).env with agenda := rest }⟩)
    hobject halive
  have hstart := hbegins.heap.confined (log_startDestructor _ hobject)
    ((Narrates.farewell _).foldl_note _)
  rw [← hnext] at hbegins hstart
  have hown : ∀ o ∈ [v.object], o ∈ [] ∨ ∃ u ∈ [v], u.object = o := by simp
  refine ⟨.of_ration (htake.trans (hstart.mono (List.nil_subset _) hown)), ?_, ?_, ?_⟩
  · rw [hbegins.heap.blocks]
    exact hblock
  · rw [hbegins.heap.objects, Array.getElem?_modify, if_pos rfl]
    exact congrArg _ hobject
  · have hduties : g.dutiesOf v.object = (run n).heap.dutiesOf v.object := by
      rw [Heap.dutiesOf, Heap.dutiesOf, Heap.stepsOf, Heap.stepsOf, hobjects]
    have hrunner : g.runnerOf v.object = (run n).heap.runnerOf v.object := by
      rw [Heap.runnerOf, Heap.runnerOf, hobjects]
    rw [hbegins.env, ← hduties, ← hrunner]
    rfl

/-- After the drop the step is over, and that is told. -/
theorem IsRationed.concludes {node : Int64} {r : Reply} (hr : IsRationed run)
    (ha : (run n).env.agenda = .answer r :: .letGo (.links o) :: .did node :: rest)
    (hy : (run n).heap.objects[o]? = some y) (hp : y.phase = .dying) :
    (run n).heap.Confined [] [] [.did node r] (run (n + 3)).heap ∧
      (run (n + 3)).env = { (run n).env with agenda := rest } := by
  obtain ⟨hanswer, henv⟩ := hr.answers ha
  have hdying : (run (n + 1)).heap.phase? o ≠ some .gone := by
    rw [Heap.phase?, hanswer.objects o (by simp) (by simp), hy]
    simp [hp]
  obtain ⟨hletGo, henv'⟩ := hr.keeps_links (n := n + 1) (by rw [henv]) hdying
  obtain ⟨hdid, henv''⟩ := hr.reports (n := n + 2) (by rw [henv']) (by rw [henv', henv])
  refine ⟨(hanswer.trans hletGo).trans hdid, ?_⟩
  rw [henv'', henv', henv]

/-! ## Whole trees -/

/-- Whenever the pointer that carries the tree is dropped, the tree is felled. -/
def Topples (run : Nat → Machine) (v : Member) (ks : Forest) : Prop :=
  ∀ n p rest, (run n).env.agenda = .drop (.strong p) :: rest →
    (run n).heap.Carries [.strong p] (.cons v ks .nil) →
    ∃ j es, n < j ∧ (run j).env = { (run n).env with agenda := rest } ∧
      (run n).heap.Fells (.cons v ks .nil) [] es (run j).heap

section Children

variable {f : Forest} {xs : List Slot} {as : List Action} {t' : Table} {id : Int64}

/-- A slot leaves the table of an object and is dropped, and with it the first tree is felled. -/
theorem drops_first (hf : f.Each (Topples run)) (hc : (run n).heap.Carries (x :: xs) f)
    (ho : ∀ u ∈ f.preorder, u.object ≠ o)
    (hy : (run n).heap.objects[o]? = some { y with links := t })
    (hconfined : (run n).heap.Confined [] [o] [] (run (n + 1)).heap)
    (hobjects : (run (n + 1)).heap.objects =
      (run n).heap.objects.modify o (fun y => { y with links := t' }))
    (ha : (run (n + 1)).env.agenda = .drop x :: as) :
    ∃ v ks ts j es, f = .cons v ks ts ∧ n ≤ j ∧
      (run j).env = { (run (n + 1)).env with agenda := as } ∧
      (run n).heap.Fells (.cons v ks .nil) [o] es (run j).heap ∧
      (run j).heap.objects[o]? = some { y with links := t' } ∧ (run j).heap.Carries xs ts := by
  obtain ⟨p, v, ks, ts, rfl, rfl, hfirst, hothers, hapart⟩ := hc.uncons
  rw [Forest.preorder_cons] at ho
  obtain ⟨ho, ho'⟩ := List.forall_mem_append.mp ho
  have hnot {g : Forest} (hg : ∀ u ∈ g.preorder, u.object ≠ o) :
      ∀ u ∈ g.preorder, u.object ∉ [o] := by simpa using hg
  obtain ⟨j, es, hj, henv, hfells⟩ :=
    hf.1 (n + 1) p as ha (hfirst.confined hconfined (by simp) (hnot ho))
  have hfells' : (run n).heap.Fells (.cons v ks .nil) [o] es (run j).heap := by
    have hmono : (run (n + 1)).heap.Confined _ [o] es _ :=
      hfells.confined.mono (List.Subset.refl _) nofun
    exact .after hconfined .nil ⟨hmono, hfells.spent, hfells.narrates⟩
  refine ⟨v, ks, ts, j, es, rfl, by omega, henv, hfells', ?_, ?_⟩
  · rw [hfells.confined.objects o (by simp) ho, hobjects, Array.getElem?_modify, if_pos rfl, hy]
    rfl
  · exact hothers.confined hfells'.confined hapart (hnot ho')

/-- What an object holds is dropped, smallest name first. -/
theorem IsRationed.unlinks (hr : IsRationed run) (hf : f.Each (Topples run))
    (hc : (run n).heap.Carries t.slots f) (ho : ∀ u ∈ f.preorder, u.object ≠ o)
    (hy : (run n).heap.objects[o]? = some { y with links := t })
    (ha : (run n).env.agenda = .unlink o :: rest) :
    ∃ j es, n ≤ j ∧ (run j).env = { (run n).env with agenda := rest } ∧
      (run n).heap.Fells f [o] es (run j).heap ∧
      (run j).heap.objects[o]? = some { y with links := .empty } := by
  obtain ⟨entries, hrising⟩ := t
  -- with each slot that leaves the table a tree goes
  induction entries generalizing n f with
  | nil =>
    obtain ⟨hconfined, henv⟩ := hr.unlinks_nothing ha (Heap.linksOf_of_getElem? hy)
    cases hc.bears with
    | nil =>
      refine ⟨n + 1, [], by omega, henv, Heap.Fells.nil hconfined .nil, ?_⟩
      rw [hconfined.objects o (by simp) (by simp), hy]
      rfl
  | cons e entries ih =>
    have hpop : (Table.mk (e :: entries) hrising).popFirst? =
        some (e.2, ⟨entries, hrising.of_cons⟩) := rfl
    obtain ⟨hconfined, hobjects, henv⟩ := hr.unlinks_first ha (Heap.linksOf_of_getElem? hy) hpop
    obtain ⟨v, ks, ts, j, es, rfl, hj, henv', hfells, hy', hcarries⟩ :=
      drops_first hf hc ho hy hconfined hobjects (by rw [henv])
    rw [Forest.preorder_cons] at ho
    obtain ⟨ho, ho'⟩ := List.forall_mem_append.mp ho
    have hagenda : (run j).env.agenda = .unlink o :: rest := by rw [henv']
    obtain ⟨k, ds, hk, hend, hfells', hempty⟩ := ih hf.2 ho' hagenda hrising.of_cons hcarries hy'
    refine ⟨k, es ++ ds, by omega, ?_, hfells.cons hfells' hc.distinct (by simpa using ho), hempty⟩
    rw [hend, henv', henv]

/-- The destructor of a node drops what its steps say, and then what is left. -/
theorem IsRationed.unloads {names : List String} (hr : IsRationed run) (hf : f.Each (Topples run))
    (hc : (run n).heap.Carries (t.dropped names) f) (ho : ∀ u ∈ f.preorder, u.object ≠ o)
    (hy : (run n).heap.objects[o]? = some { y with links := t }) (hp : y.phase = .dying)
    (hrunning : (run n).env.running.head? = some o)
    (ha : (run n).env.agenda =
      execAll id (names.map Step.dropOwn) ++ .leave :: .unlink o :: rest) :
    ∃ j es, n ≤ j ∧
      (run j).env =
        { (run n).env with agenda := rest, running := (run n).env.running.tail } ∧
      (run n).heap.Fells f [o] es (run j).heap ∧
      (run j).heap.objects[o]? = some { y with links := .empty } := by
  have hl : (run n).heap.linksOf o = t := Heap.linksOf_of_getElem? hy
  induction names generalizing n f t with
  | nil =>
    obtain ⟨hconfined, henv⟩ := hr.leaves ha
    have hy' : (run (n + 1)).heap.objects[o]? = some { y with links := t } := by
      rw [hconfined.objects o (by simp) (by simp), hy]
    have hc' := hc.confined hconfined (by simp) (by simp)
    obtain ⟨j, es, hj, hend, hfells, hempty⟩ := hr.unlinks hf hc' ho hy' (by rw [henv])
    refine ⟨j, es, by omega, ?_, .after hconfined.of_nil .nil hfells, hempty⟩
    rw [hend, henv]
  | cons name names ih =>
    have ha : (run n).env.agenda = .exec (.dropOwn name) :: .did id ::
        (execAll id (names.map Step.dropOwn) ++ .leave :: .unlink o :: rest) := ha
    cases hx : t.get? name with
    | none =>
      -- it has been dropped before, and nothing happens but that the failure is told
      have hdropped : t.dropped (name :: names) = t.dropped names := by rw [Table.dropped, hx]
      obtain ⟨hexec, henv⟩ := hr.misses_own ha hrunning (by rw [hl, hx])
      obtain ⟨hdid, henv'⟩ := hr.reports (n := n + 1) (by rw [henv]) (by rw [henv])
      have hconfined := hexec.trans hdid
      have hy' : (run (n + 2)).heap.objects[o]? = some { y with links := t } := by
        rw [hconfined.objects o (by simp) (by simp), hy]
      obtain ⟨j, es, hj, hend, hfells, hempty⟩ := ih hf
        ((hdropped ▸ hc).confined hconfined (by simp) (by simp)) ho hy'
        (by rw [henv', henv]; exact hrunning) (by rw [henv'])
        (Heap.linksOf_of_getElem? hy')
      refine ⟨j, _, by omega, ?_, .after hconfined.of_nil (.remark (.did _ _)) hfells, hempty⟩
      rw [hend, henv', henv]
    | some x =>
      have hdropped : t.dropped (name :: names) = x :: (t.erase name).dropped names := by
        rw [Table.dropped, hx]
      rw [hdropped] at hc
      obtain ⟨hexec, hobjects, henv⟩ := hr.takes_own ha hrunning hl hx
      obtain ⟨v, ks, ts, j, es, rfl, hj, henv', hfells, hy', hc'⟩ :=
        drops_first hf hc ho hy hexec hobjects (by rw [henv])
      rw [Forest.preorder_cons] at ho
      obtain ⟨ho, ho'⟩ := List.forall_mem_append.mp ho
      obtain ⟨hreply, henv''⟩ := hr.concludes (n := j) (by rw [henv']) hy' hp
      have hy'' : (run (j + 3)).heap.objects[o]? = some { y with links := t.erase name } := by
        rw [hreply.objects o (by simp) (by simp), hy']
      obtain ⟨k, ds, hk, hend, hfells', hempty⟩ := ih hf.2
        (hc'.confined hreply (by simp) (by simp)) ho' hy''
        (by rw [henv'', henv', henv]; exact hrunning) (by rw [henv''])
        (Heap.linksOf_of_getElem? hy'')
      refine ⟨k, _, by omega, ?_, hfells.cons (.after hreply.of_nil (.remark (.did _ _)) hfells')
        hc.distinct (by simpa using ho), hempty⟩
      rw [hend, henv'', henv', henv]

/-- The destructor of an object that does no more than drop what the object holds. -/
theorem IsRationed.sheds {h : Heap} {e : Environment} (hr : IsRationed run)
    (hf : f.Each (Topples run)) (hsheds : y.Sheds xs) (hc : (run n).heap.Carries xs f)
    (ho : ∀ u ∈ f.preorder, u.object ≠ o) (hbefore : h.objects[o]? = some y)
    (hy : (run n).heap.objects[o]? = some { y with phase := .dying, onDrop := [] })
    (henv : (run n).env =
      { e with agenda := h.dutiesOf o ++ rest, running := h.runnerOf o ++ e.running }) :
    ∃ j es, n ≤ j ∧ (run j).env = { e with agenda := .reclaim o :: rest } ∧
      (run n).heap.Fells f [o] es (run j).heap ∧
      (run j).heap.objects[o]? =
        some { y with phase := .dying, onDrop := [], links := .empty } := by
  cases hsheds with
  | @node c names hcontent hdrop =>
    have hduties : h.dutiesOf o =
        execAll c.id (names.map Step.dropOwn) ++ [.leave, .unlink o, .reclaim o] := by
      rw [Heap.dutiesOf, Heap.stepsOf, hbefore, Option.map_some, Option.map_some, hcontent, hdrop,
        Option.getD_some]
    have hrunner : h.runnerOf o = [o] := by
      rw [Heap.runnerOf, hbefore, Option.map_some, hcontent]
    rw [hduties, hrunner] at henv
    have ha : (run n).env.agenda =
        execAll c.id (names.map Step.dropOwn) ++ .leave :: .unlink o :: .reclaim o :: rest := by
      rw [henv, List.append_assoc]
      rfl
    obtain ⟨j, es, hj, hend, hfells, hempty⟩ := hr.unloads
      (y := { y with phase := .dying, onDrop := [] }) hf hc ho hy rfl (by rw [henv]; rfl) ha
    refine ⟨j, es, hj, ?_, hfells, hempty⟩
    rw [hend, henv]
    rfl
  | other hcontent =>
    have hduties : h.dutiesOf o = [.unlink o, .reclaim o] ∧ h.runnerOf o = [] := by
      rw [Heap.dutiesOf, Heap.runnerOf, hbefore, Option.map_some]
      cases hkind : y.content with
      | node c => exact absurd hkind (hcontent c)
      | _ => exact ⟨rfl, rfl⟩
    rw [hduties.1, hduties.2] at henv
    have ha : (run n).env.agenda = .unlink o :: .reclaim o :: rest := by
      rw [henv]
      rfl
    obtain ⟨j, es, hj, hend, hfells, hempty⟩ :=
      hr.unlinks (y := { y with phase := .dying, onDrop := [] }) hf hc ho hy ha
    refine ⟨j, es, hj, ?_, hfells, hempty⟩
    rw [hend, henv]
    rfl

/-- If the trees that hang on a member are felled whenever they are dropped, so is the tree. -/
theorem IsRationed.topples {ks : Forest} (hr : IsRationed run) (hks : ks.Each (Topples run)) :
    Topples run v ks := by
  intro n p rest ha ⟨hbears, hdistinct, hsole⟩
  obtain ⟨hv, hsole⟩ := List.forall_mem_cons.mp hsole
  rw [Forest.preorder, List.append_nil] at hsole
  obtain ⟨hapart, hdistinct'⟩ := Forest.distinct_tree.mp hdistinct
  have hne : ∀ u ∈ ks.preorder, u.object ≠ v.object := fun u hu => (hapart u hu).2.symm
  cases hbears with
  | cons hp hmember hsheds hbears =>
    obtain ⟨hstart, hblock, hdying, henv⟩ := hr.disposes ha hp hmember hv
    have hcarries : (run n).heap.Carries _ ks := ⟨hbears, hdistinct', hsole⟩
    -- what hangs on the member is felled while its destructor is in progress
    obtain ⟨j, es, hj, henv, hfells, hempty⟩ := hr.sheds hks hsheds
      (hcarries.confined hstart (by simpa using hapart) (by simp)) hne hmember.object hdying henv
    -- nothing of that has touched the block, which goes after the memory of the pointee
    obtain ⟨hreclaim, hgone, henv'⟩ := hr.reclaims (n := j) (by rw [henv]) hempty
    have hblock : (run (j + 1)).heap.blocks[v.block]? =
        some { v.header with strong := 0, pointee := none } := by
      rw [hreclaim.blocks _ (by simp), hfells.confined.blocks _ fun u hu => (hapart u hu).1.symm,
        hblock]
    obtain ⟨hfree, hspent, hobjects, henv''⟩ :=
      hr.frees (n := j + 1) (by rw [henv', henv]) hblock hv.unfreed hv.weak rfl
    have hreturned : (run j).heap.Confined [v] [] _ _ :=
      hreclaim.mono (List.nil_subset _) (by simp)
    have hobject : (run (j + 2)).heap.objects[v.object]? = some v.pointee.spent := by
      rw [hobjects, hgone, Array.getElem?_modify, if_pos rfl, hempty]
      rfl
    refine ⟨j + 2, _, by omega, ?_, .around hstart hfells (hreturned.trans hfree) hdistinct
      hspent hobject (hfells.narrates.around)⟩
    rw [henv'', henv', henv]

/-- Whatever the tree, it is felled when it is dropped. -/
theorem IsRationed.each_topples (hr : IsRationed run) (f : Forest) : f.Each (Topples run) := by
  induction f with
  | nil => trivial
  | cons v ks ts ihk iht => exact ⟨hr.topples ihk, iht⟩

end Children

/-- Between the machines the trees have been felled, and `es` is what was told meanwhile. -/
structure Felled (m m' : Machine) (f : Forest) (es : List Event) : Prop where
  /-- No member is met twice. -/
  distinct : f.Distinct
  /-- Every member is spent. No other block or object changes, and of nothing else is told. -/
  fells : m.heap.Fells f [] es m'.heap
  /-- What hangs on a member is disposed of after it, and freed before it. -/
  disposed : es.filterMap Event.disposed? = f.preorder.map (·.header.id)
  freed : es.filterMap Event.freed? = f.postorder.map (·.header.id)
  /-- The memory of a pointee is returned before its block is freed. -/
  returned : ∀ v ∈ f.preorder, ∀ s ∈ v.pointee.storage?,
    [Turn.returned s, .freed v.header.id].Sublist (es.filterMap Event.turn?)
  metrics : m'.heap.metrics =
    { m.heap.metrics with
      pointeesDisposed := m.heap.metrics.pointeesDisposed + f.preorder.length
      blocksFreed := m.heap.metrics.blocksFreed + f.preorder.length }

theorem felled_of_fells {m m' : Machine} {f : Forest} {es : List Event} (hd : f.Distinct)
    (hf : m.heap.Fells f [] es m'.heap) : m.Felled m' f es where
  distinct := hd
  fells := hf
  disposed := hf.narrates.disposed.trans f.story_disposed
  freed := hf.narrates.freed.trans f.story_freed
  returned v hv s hs := hf.narrates.turns ▸ Forest.returned_before_freed hv hs
  metrics := by rw [hf.confined.logs.metrics, hf.narrates.foldl_note, Forest.foldl_story]

/-- When the only pointer to the top of a tree is dropped, the whole tree goes, and nothing else
does: just one pointer is on each of the members, none observes them, and their destructors do no
more than drop what they hold. -/
theorem IsRationed.felling {f : Forest} {p : Strong} (hr : IsRationed run)
    (ha : (run n).env.agenda = .drop (.strong p) :: rest)
    (hbears : (run n).heap.Bears [.strong p] f)
    (hstrong : ∀ u ∈ f.preorder, (run n).strongs u.block = 1)
    (hweak : ∀ u ∈ f.preorder, (run n).weaks u.block = 0) :
    ∃ j es, n < j ∧ (run j).env = { (run n).env with agenda := rest } ∧
      (run n).Felled (run j) f es := by
  have hcarries := hr.carries ha hbears hstrong hweak
  cases hbears with
  | @cons _ v _ _ ks _ _ _ _ _ hts =>
    cases hts
    obtain ⟨j, es, hj, henv, hfells⟩ := (hr.each_topples (.cons v ks .nil)).1 n p rest ha hcarries
    exact ⟨j, es, hj, henv, felled_of_fells hcarries.distinct hfells⟩

/-- Two nodes hang on a node, whose destructor drops the later one first, and a number on that. -/
def planting : List Step :=
  [.new .node (.node ⟨1, 0, .ofString "", []⟩ [.dropOwn "r"]) .global ⟨false, [], "a"⟩,
    .new .node (.node ⟨2, 0, .ofString "", []⟩ []) .global ⟨false, ["a"], "l"⟩,
    .new .node (.node ⟨3, 0, .ofString "", []⟩ []) .global ⟨false, ["a"], "r"⟩,
    .new .int (.int 5) .global ⟨false, ["a", "r"], "n"⟩, .drop ⟨false, [], "a"⟩]

theorem felling_planting : ∃ (f : Forest) (p : Strong) (rest : List Action),
    f.preorder.map (·.header.id) = [1, 3, 4, 2] ∧ f.postorder.map (·.header.id) = [4, 3, 2, 1] ∧
      (moment planting false 13).env.agenda = .drop (.strong p) :: rest ∧
      (moment planting false 13).heap.Bears [.strong p] f ∧
      (∀ u ∈ f.preorder, (moment planting false 13).strongs u.block = 1) ∧
      (∀ u ∈ f.preorder, (moment planting false 13).weaks u.block = 0) ∧
      ∃ j es, 13 < j ∧
        (moment planting false j).env = { (moment planting false 13).env with agenda := rest } ∧
        (moment planting false 13).Felled (moment planting false j) f es := by
  have ha : (moment planting false 13).env.agenda =
      .drop (.strong ⟨.node, some 0, some ⟨.object 0, []⟩⟩) ::
        (moment planting false 13).env.agenda.tail := by rfl
  have hread : ((moment planting false 13).heap.forest? 4
      [.strong ⟨.node, some 0, some ⟨.object 0, []⟩⟩]).map
      (fun f => (f.preorder.map (·.header.id), f.postorder.map (·.header.id),
        f.preorder.map (·.block))) = some ([1, 3, 4, 2], [4, 3, 2, 1], [0, 2, 3, 1]) := by decide
  obtain ⟨f, hf, heq⟩ := Option.map_eq_some_iff.mp hread
  simp only [Prod.mk.injEq] at heq
  obtain ⟨hpre, hpost, hblocks⟩ := heq
  have hbears := Heap.bears_of_forest? hf
  have hall : ∀ u ∈ f.preorder, u.block ∈ [0, 2, 3, 1] := fun u hu =>
    hblocks ▸ List.mem_map_of_mem hu
  have hstrong : ∀ b ∈ [0, 2, 3, 1], (moment planting false 13).strongs b = 1 := by decide
  have hweak : ∀ b ∈ [0, 2, 3, 1], (moment planting false 13).weaks b = 0 := by decide
  exact ⟨f, _, _, hpre, hpost, ha, hbears, fun u hu => hstrong _ (hall u hu),
    fun u hu => hweak _ (hall u hu),
    (isRationed_moment planting false).felling ha hbears (fun u hu => hstrong _ (hall u hu))
      fun u hu => hweak _ (hall u hu)⟩

end Machine

end Custody
