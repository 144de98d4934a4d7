import Custody.Proofs.Census
import Custody.Proofs.Turns

/-!
# The chronicle of a run

* `Heap.attempts`: the attempts at blocks. With few enough of them no id comes twice, and
  `Machine.IsRationed.chronicle` says what the log tells.
* `Block.life`, `Block.story`: all that is told of a block, its pointee and their memory, and as
  much of it as has been told.
* `Machine.Chronicled`, `Machine.IsRationed.chronicled`: the ids rise, what is told of each of them
  is how a life begins, the turns come in order and once, and nothing is told of what was refused.
-/

namespace Custody

variable {Y : Option Place}

/-! ## Ids that are used up -/

namespace Heap

/-- Blocks that have been asked for. Those that were refused count too. -/
def attempts (h : Heap) : Nat := h.nextId - 1

/-- The ids from `N` on are still to be given, or are those of the blocks from `B` on. -/
structure Since (B : BlockId) (N : Nat) (h : Heap) : Prop where
  nextId : N ≤ h.nextId
  ids : h.nextId ≤ UInt64.size → ∀ b ≥ B, ∀ x, h.blocks[b]? = some x → N ≤ x.id

end Heap

section

variable {h : Heap} {K : Multiset Stake} {k : Stake} {B : BlockId} {N : Nat}

/-- New blocks have ids from the next attempt on. -/
theorem Shift.since {s t : Scene} (hc : Shift Y s t) (hsound : Sound s) (hs : s.1.Since B N) :
    t.1.Since B N := by
  cases hc with
  | relink => exact ⟨hs.nextId, hs.ids⟩
  | change hc =>
    have hle := hc.nextId_le
    refine ⟨Nat.le_trans hs.nextId hle, fun hsize b hb y hy => ?_⟩
    cases hx : s.1.blocks[b]? with
    | some x =>
      obtain ⟨y', hy', hxy⟩ := hc.gains hsound.counted hx
      rw [hy] at hy'
      cases hy'
      rw [hxy.keeps.id]
      exact hs.ids (Nat.le_trans hle hsize) b hb x hx
    | none =>
      obtain ⟨k, a, o, -, hcreate, heq⟩ := hc.made hx hy
      have hnext := Heap.nextId_createBlock (h := s.1) k a o
      rw [hcreate] at hnext
      dsimp only at hnext
      rw [hnext] at hsize
      rw [heq, Heap.newId, Nat.mod_eq_of_lt hsize]
      exact hs.nextId

/-- No id is given by a loss. -/
theorem Loss.since {t : Scene} (hl : Loss h K k t) (hsound : Sound (h, k ::ₘ K))
    (hs : h.Since B N) : t.1.Since B N := by
  have hnext := (hl.erodes hsound).nextId
  refine ⟨hnext ▸ hs.nextId, fun hsize b hb y hy => ?_⟩
  cases hx : h.blocks[b]? with
  | none =>
    rw [hl.unborn hx] at hy
    cases hy
  | some x =>
    obtain ⟨y', hy', hxy⟩ := hl.loses hx
    rw [hy] at hy'
    cases hy'
    rw [hxy.becomes.id]
    exact hs.ids (hnext ▸ hsize) b hb x hx

theorem Shift.chronicle {s t : Scene} (hc : Shift Y s t) (hsound : Sound s)
    (hs : s.1.nextId ≤ UInt64.size → s.1.Chronicle) (hn : t.1.nextId ≤ UInt64.size) :
    t.1.Chronicle := by
  cases hc with
  | change hc => exact hc.chronicle hsound hn (hs (Nat.le_trans hc.nextId_le hn))
  | relink =>
    exact (hs hn).of_blocks rfl (Nat.le_refl _) (List.append_nil _).symm nofun

end

/-! ## Lives -/

/-- The return of the memory that the object is in. -/
def Object.returns (y : Object) : List Turn := y.storage?.toList.map .returned

/-- What is told of the block, of its pointee and of their memory. -/
def Block.life (x : Block) (y : Object) : List Turn :=
  y.grants ++ x.makes ++ .disposed x.id :: (y.returns ++ x.frees)

/-- What has been told of the end of the block and the pointee, in their present states. -/
def Block.ending (x : Block) (y : Object) : List Turn :=
  match y.phase with
  | .alive => []
  | .dying => [.disposed x.id]
  | .gone => .disposed x.id :: (y.returns ++ if x.freed then x.frees else [])

/-- As much of the life as has been told. -/
def Block.story (x : Block) (y : Object) : List Turn := y.grants ++ x.makes ++ x.ending y

theorem Block.story_prefix_life (x : Block) (y : Object) : x.story y <+: x.life y := by
  refine (List.prefix_append_right_inj _).mpr ?_
  rw [ending]
  cases y.phase with
  | alive => exact List.nil_prefix
  | dying => exact List.prefix_append [_] _
  | gone =>
    refine (List.prefix_cons_inj _).mpr ((List.prefix_append_right_inj _).mpr ?_)
    split
    · exact List.prefix_refl _
    · exact List.nil_prefix

/-- Of a list without repetitions, what is in a part that has all of it is that part. -/
theorem List.filter_mem_eq_of_sublist {α : Type} [DecidableEq α] {l s w : List α} (hl : l.Nodup)
    (hs : s.Sublist l) (hsw : s ⊆ w) (hw : ∀ t ∈ l, t ∈ w → t ∈ s) : l.filter (· ∈ w) = s := by
  have hsub : s.Sublist (l.filter (· ∈ w)) := by
    have h := hs.filter (· ∈ w)
    rwa [List.filter_eq_self.mpr fun t ht => by simpa using hsw ht] at h
  have hsubset : l.filter (· ∈ w) ⊆ s := by
    intro t ht
    obtain ⟨ht, htw⟩ := List.mem_filter.mp ht
    exact hw t ht (by simpa using htw)
  exact (hsub.eq_of_length_le ((hl.filter _).subperm hsubset).length_le).symm

/-- What is told later of what was not told before is told in between. -/
theorem sublist_of_notMem {α : Type} {l es w : List α} {t : α} (h : (t :: w).Sublist (l ++ es))
    (ht : t ∉ l) : (t :: w).Sublist es := by
  obtain ⟨w₁, w₂, heq, h₁, h₂⟩ := List.sublist_append_iff.mp h
  cases w₁ with
  | nil =>
    rw [List.nil_append] at heq
    exact heq ▸ h₂
  | cons t' w₁ =>
    obtain ⟨rfl, -⟩ := List.cons.inj heq
    exact absurd (h₁.subset List.mem_cons_self) ht

namespace Machine

variable {run : Nat → Machine} {i n : Nat} {m : Machine} {b : BlockId} {o : ObjectId} {x z : Block}
  {y : Object}

/-! ## The start of a destructor -/

theorem log_startDestructor (m : Machine) (hy : m.heap.objects[o]? = some y) :
    (m.startDestructor o).heap.log.toList = m.heap.log.toList ++ y.content.farewell := by
  obtain ⟨h, env⟩ := m
  have hsnd : (h.beginDestruction o).2 = ⟨y.content, y.onDrop⟩ := by
    simp only [Heap.beginDestruction, hy]
  simp only [startDestructor, onHeap, hsnd]
  cases y.content <;> simp [mapHeap, mapEnv, schedule, Heap.emit, Content.farewell]

/-- Before the destructor of a pointee says anything, it is said that the pointee is disposed
of. -/
theorem Reachable.log_of_starts? (hm : m.Reachable) (hx : m.heap.blocks[b]? = some x)
    (ho : x.pointee = some o) (hy : m.heap.objects[o]? = some y) (hs : m.starts? = some o) :
    m.step.heap.log.toList = m.heap.log.toList ++ .pointeeDisposed x.id :: y.content.farewell := by
  obtain ⟨k, v, rest, hagenda, last⟩ := hm.agenda_of_starts? hx ho hs
  have hagrees := hm.counted b x hx
  have hstrong : x.strong = 1 := (Heap.strongCount_eq hx).symm.trans last
  have hf : x.freed = false := hagrees.unfreed (hagrees.weak_of_strong (by omega))
  have htake := Heap.takePointee_releaseStrong hx hf hstrong (by simp [ho])
  obtain ⟨h, env⟩ := m
  have hbind : h.blocks[b]?.bind (·.pointee) = some o := by
    have hx : h.blocks[b]? = some x := hx
    rw [hx, Option.bind_some, ho]
  rw [step_eq_perform (next?_of_agenda hagenda)]
  simp only [perform, dropSlot, mapEnv, releaseOwner_last last, hbind]
  rw [log_startDestructor (y := y)]
  · have hlog := congrArg (·.log.toList) htake
    simp only [Array.toList_push] at hlog
    rw [heap_schedule, hlog, List.append_assoc]
    rfl
  · simpa using hy

/-! ## Runs -/

theorem IsRationed.chronicle (hr : IsRationed run) (hn : (run n).heap.nextId ≤ UInt64.size) :
    (run n).heap.Chronicle :=
  ((hr.reachable n).sound_induction
    (P := fun s => s.1.nextId ≤ UInt64.size → s.1.Chronicle) (fun _ => .empty)
    (fun _ hs hn => (hs hn).of_blocks rfl (Nat.le_refl _) (List.append_nil _).symm nofun)
    (fun hsound hs hl hn => hl.chronicle hsound (hs ((hl.erodes hsound).nextId ▸ hn)))
    (fun hsound hs hc => hc.chronicle hsound hs)).2 hn

theorem IsRationed.orderly (hr : IsRationed run) (n : Nat) : (run n).heap.Orderly := by
  refine ((hr.reachable n).sound_induction (P := fun s => s.1.Entered ∧ s.1.Orderly)
    ⟨fun a => ?_, nofun⟩
    (fun limits hs => ⟨fun a => ?_, fun b x hx => ⟨(hs.2 b x hx).made, (hs.2 b x hx).freed⟩⟩)
    (fun hsound hs hl => ⟨hl.entered hsound hs.1, hl.orderly hsound hs.2⟩)
    (fun hsound hs hc => ⟨hc.entered hs.1, hc.orderly hsound hs.1 hs.2⟩)).2.2
  · cases a <;> rfl
  · cases a
    · exact hs.1 .global
    · exact hs.1 .arena

/-- What holds at one moment, and is kept by losses, shifts and new budgets, holds later. -/
theorem IsRationed.scene_later {P : Scene → Prop} (hr : IsRationed run) (hi : P (run i).scene)
    (hration : ∀ {m : Machine} limits, P m.scene → P (m.ration limits).scene)
    (hloss : ∀ {h K k s}, Sound (h, k ::ₘ K) → P (h, k ::ₘ K) → Loss h K k s → P s)
    (hshift : ∀ {Y s t}, Sound s → P s → Shift Y s t → P t) (hin : i ≤ n) : P (run n).scene := by
  suffices Sound (run n).scene ∧ P (run n).scene from this.2
  induction n, hin using Nat.le_induction with
  | base => exact ⟨(hr.reachable i).sound, hi⟩
  | succ n _ ih =>
    obtain ⟨limits, hnext⟩ := hr.next n
    rw [hnext]
    exact step_induction (P := fun s => Sound s ∧ P s) ((hr.grounded n).ration limits)
      ⟨ih.1.ration limits, hration limits ih.2⟩
      (fun _ hs hl => ⟨hs.1.loss hl, hloss hs.1 hs.2 hl⟩)
      (fun _ hs hc => ⟨hs.1.shift hc, hshift hs.1 hs.2 hc⟩)

/-- What is new has an id that had not been used. -/
theorem IsRationed.since (hr : IsRationed run) (hin : i ≤ n) :
    (run n).heap.Since (run i).heap.blocks.size (run i).heap.nextId := by
  refine hr.scene_later (P := fun s => s.1.Since _ _) ⟨Nat.le_refl _, fun _ b hb x hx => ?_⟩
    (fun _ hs => ⟨hs.nextId, hs.ids⟩) (fun hsound hs hl => hl.since hsound hs)
    (fun hsound hs hc => hc.since hsound hs) hin
  obtain ⟨hlt, -⟩ := Array.getElem?_eq_some_iff.mp hx
  exact absurd hlt (Nat.not_lt.mpr hb)

/-- So it is with fewer attempts than there are ids. -/
theorem IsRationed.chronicle_of_attempts (hr : IsRationed run)
    (hn : (run n).heap.attempts < 2 ^ 64 - 1) :
    (run n).heap.Chronicle := by
  refine hr.chronicle ?_
  rw [Heap.attempts] at hn
  simp only [UInt64.size]
  omega

/-- An id that is used up, and is that of no block, was refused. Nothing is told of it, then or
later. -/
theorem IsRationed.refused (hr : IsRationed run) (hn : (run n).heap.attempts < 2 ^ 64 - 1)
    (hin : i ≤ n) {id : Nat} (hused : id < (run i).heap.nextId)
    (hno : ∀ x ∈ (run i).heap.blocks.toList, x.id ≠ id) {e : Event}
    (he : e ∈ (run n).heap.log.toList) : e.block? ≠ some id := by
  intro hid
  obtain ⟨x, hx, rfl⟩ := (hr.chronicle_of_attempts hn).known e he id hid
  obtain ⟨b, hb⟩ := List.mem_iff_getElem?.mp hx
  have hb : (run n).heap.blocks[b]? = some x := by simpa using hb
  cases hw : (run i).heap.blocks[b]? with
  | some w =>
    obtain ⟨x', hx', hwx⟩ := hr.becomes hw hin
    rw [hb] at hx'
    cases hx'
    exact hno w (List.mem_iff_getElem?.mpr ⟨b, by simpa using hw⟩) hwx.id.symm
  | none =>
    have hsize : (run n).heap.nextId ≤ UInt64.size := by
      rw [Heap.attempts] at hn
      simp only [UInt64.size]
      omega
    have := (hr.since hin).ids hsize b (Array.getElem?_eq_none_iff.mp hw) x hb
    omega

/-! ## The story of a block -/

/-- The block has strong owners as long as its pointee is alive. -/
theorem Reachable.strong_eq_zero_iff (hm : m.Reachable) (hc : m.Course b o)
    (hz : m.heap.blocks[b]? = some z) (hy : m.heap.objects[o]? = some y) :
    z.strong = 0 ↔ y.phase ≠ .alive := by
  have hp : m.heap.phase? o = some y.phase := by rw [Heap.phase?, hy, Option.map_some]
  constructor
  · intro hzero halive
    cases hc with
    | owned hx ho =>
      rw [hz] at hx
      cases hx
      exact (hm.counted b z hz).pointee.mp (by simp [ho]) hzero
    | dying ha =>
      rw [hm.dying_of_reclaim (by simp [ha]), halive] at hp
      cases hp
    | reclaimed hgone | ended hgone =>
      rw [hgone, halive] at hp
      cases hp
  · intro hne
    by_contra hstrong
    rw [hm.strong_eq hz] at hstrong
    rw [hm.alive_of_strongs hc hz hstrong] at hp
    exact hne (Option.some.inj hp).symm

/-- When it is freed, its pointee is gone. -/
theorem Reachable.gone_of_freed (hm : m.Reachable) (hc : m.Course b o)
    (hz : m.heap.blocks[b]? = some z) (hf : z.freed = true) : m.heap.phase? o = some .gone :=
  hm.gone_of_implicitWeak hc hz ((hm.counted b z hz).implicitWeak_of_freed hf)

/-- What the turns that have been told say of a block and of what was its pointee. -/
structure Reflects (m : Machine) (z : Block) (y : Object) : Prop where
  disposed : .disposed z.id ∈ m.heap.turns ↔ y.phase ≠ .alive
  returned : ∀ r ∈ y.storage?, .returned r ∈ m.heap.turns ↔ y.phase = .gone
  freed : .freed z.id ∈ m.heap.turns ↔ z.freed = true
  released : .returned z.storage ∈ m.heap.turns ↔ z.freed = true
  gone : z.freed = true → y.phase = .gone

/-- What has been told of a block and its pointee is how they are. -/
theorem Reachable.reflects (hm : m.Reachable) (hs : m.heap.Chronicle) (he : m.heap.Entered)
    (hc : m.Course b o) (hz : m.heap.blocks[b]? = some z) (hy : m.heap.objects[o]? = some y) :
    m.Reflects z y where
  disposed := by
    rw [hs.disposed_mem_turns (List.mem_iff_getElem?.mpr ⟨b, by simpa using hz⟩)]
    exact hm.strong_eq_zero_iff hc hz hy
  returned r hr := (he.mem_turns_of_object hm.sound.booked hy hr).2
  freed := by
    refine hs.freed_mem_turns (List.mem_iff_getElem?.mpr ⟨b, by simpa using hz⟩) fun hf => ?_
    have hagrees := hm.counted b z hz
    exact hagrees.strong_of_implicitWeak (hagrees.implicitWeak_of_freed hf)
  released := (he.mem_turns_of_block hm.sound.booked hz).2
  gone hf := by
    have hp := hm.gone_of_freed hc hz hf
    rw [Heap.phase?, hy] at hp
    exact Option.some.inj hp

/-- The phases of what was the pointee follow one another, and the block is freed after them. -/
inductive Proceeds (z : Block) (y : Object) (z' : Block) (y' : Object) : Prop
  | stay (hp : y'.phase = y.phase) (hf : z'.freed = z.freed)
  | start (hp : y.phase = .alive) (hp' : y'.phase = .dying)
  | finish (hp : y.phase = .dying) (hp' : y'.phase = .gone) (hf : z'.freed = false)
  | free (hp : y.phase = .gone) (hp' : y'.phase = .gone) (hf : z.freed = false)
      (hf' : z'.freed = true)

/-- A step takes a block and its pointee on by what it tells of them. -/
theorem Reachable.proceeds {z' : Block} {y' : Object} (hm : m.Reachable) (hc : m.Course b o)
    (hz : m.heap.blocks[b]? = some z) (hy : m.heap.objects[o]? = some y)
    (hz' : m.step.heap.blocks[b]? = some z') (hy' : m.step.heap.objects[o]? = some y') :
    Proceeds z y z' y' := by
  have hp : m.heap.phase? o = some y.phase := by rw [Heap.phase?, hy, Option.map_some]
  have hp' : m.step.heap.phase? o = some y'.phase := by rw [Heap.phase?, hy', Option.map_some]
  obtain ⟨w, hw, hfreed⟩ := hm.step_freed hz
  rw [hz'] at hw
  cases hw
  -- the block is freed only when the pointee is gone
  have hkeep (hne : y.phase ≠ .gone) : z.freed = false ∧ z'.freed = false := by
    have hgone {q : Prop} (h : m.heap.phase? o = some .gone) : q := by
      rw [hp] at h
      exact absurd (Option.some.inj h) hne
    have hf : z.freed = false := by
      rw [← Bool.not_eq_true]
      exact fun hf => hgone (hm.gone_of_freed hc hz hf)
    refine ⟨hf, ?_⟩
    rw [← Bool.not_eq_true, hfreed]
    rintro (h | h)
    · rw [hf] at h
      cases h
    · exact hgone (hm.gone_of_frees? hc h)
  have hstep (hs : m.starts? ≠ some o) : y'.phase = .alive ↔ y.phase = .alive := by
    obtain ⟨q, hq, hiff⟩ := hm.step_phase hp hs
    rw [hp'] at hq
    cases hq
    exact hiff
  cases hphase : y.phase with
  | alive =>
    obtain ⟨hf, hf'⟩ := hkeep (by simp [hphase])
    by_cases hs : m.starts? = some o
    · rw [hm.dying_of_starts? hs] at hp'
      exact .start hphase (Option.some.inj hp').symm
    · exact .stay (((hstep hs).mpr hphase).trans hphase.symm) (hf'.trans hf.symm)
  | dying =>
    obtain ⟨hf, hf'⟩ := hkeep (by simp [hphase])
    have hs : m.starts? ≠ some o := by
      intro hs
      rw [hm.alive_of_starts? hs, hphase] at hp
      cases hp
    cases hphase' : y'.phase with
    | alive =>
      rw [(hstep hs).mp hphase'] at hphase
      cases hphase
    | dying => exact .stay (hphase'.trans hphase.symm) (hf'.trans hf.symm)
    | gone => exact .finish hphase hphase' hf'
  | gone =>
    rw [hphase] at hp
    rw [hm.step_gone hp] at hp'
    have hphase' : y'.phase = .gone := (Option.some.inj hp').symm
    cases hf : z.freed with
    | true => exact .stay (hphase'.trans hphase.symm) ((hfreed.mpr (.inl hf)).trans hf.symm)
    | false =>
      cases hf' : z'.freed with
      | true => exact .free hphase hphase' hf hf'
      | false => exact .stay (hphase'.trans hphase.symm) (hf'.trans hf.symm)

/-- What has been told later is what was told before, and what the step tells. -/
theorem Proceeds.story_eq {z' : Block} {y' : Object} (h : Proceeds z y z' y')
    (hz : z.Becomes z') (hy : y.Lasts y') :
    z'.story y' = z.story y ++
      match y.phase, y'.phase with
      | .alive, .dying => [.disposed z'.id]
      | .dying, .gone => y'.returns
      | .gone, _ => if z.freed = false ∧ z'.freed = true then z'.frees else []
      | _, _ => [] := by
  have hreturns : y'.returns = y.returns := by rw [Object.returns, hy.storage?, Object.returns]
  rw [Block.story, Block.story, Block.ending, Block.ending, hy.grants, hz.makes, hreturns, hz.frees,
    hz.id]
  cases h with
  | stay hp hf =>
    rw [hp, hf]
    cases y.phase <;> simp
  | start hp hp' => simp [hp, hp']
  | finish hp hp' hf => simp [hp, hp', hf]
  | free hp hp' hf hf' => simp [hp, hp', hf, hf']

theorem IsRationed.reflects (hr : IsRationed run) (hn : (run n).heap.attempts < 2 ^ 64 - 1)
    (hx : (run i).heap.blocks[b]? = some x) (ho : x.pointee = some o) (hin : i ≤ n)
    (hz : (run n).heap.blocks[b]? = some z) (hy : (run n).heap.objects[o]? = some y) :
    (run n).Reflects z y :=
  (hr.reachable n).reflects (hr.chronicle_of_attempts hn) (hr.entered n) (hr.course hx ho hin) hz hy

/-- A step tells the next part of the story, or none of it. -/
theorem IsRationed.story_succ (hr : IsRationed run) (hn : (run (n + 1)).heap.attempts < 2 ^ 64 - 1)
    (hx : (run i).heap.blocks[b]? = some x) (ho : x.pointee = some o) (hin : i ≤ n)
    (hw : (run n).heap.blocks[b]? = some w) (hv : (run n).heap.objects[o]? = some v)
    (hz : (run (n + 1)).heap.blocks[b]? = some z) (hy : (run (n + 1)).heap.objects[o]? = some y)
    (htold : (w.story v).Sublist (run n).heap.turns) :
    (z.story y).Sublist (run (n + 1)).heap.turns := by
  obtain ⟨limits, hnext⟩ := hr.next n
  have hm := (hr.reachable n).ration limits
  have hn₀ : (run n).heap.attempts < 2 ^ 64 - 1 :=
    Nat.lt_of_le_of_lt (Nat.sub_le_sub_right (hr.since (Nat.le_succ n)).nextId 1) hn
  have hwz : w.Becomes z := by
    obtain ⟨z', hz', hwz⟩ := hr.becomes hw (Nat.le_succ n)
    rw [hz] at hz'
    cases hz'
    exact hwz
  obtain ⟨y', hy', hvy⟩ := hm.grounded.step_lasts o v hv
  rw [← hnext, hy] at hy'
  cases hy'
  have before := hr.reflects hn₀ hx ho hin hw hv
  have after := hr.reflects hn hx ho (Nat.le_succ_of_le hin) hz hy
  have hproceeds := hm.proceeds ((hr.course hx ho hin).ration limits) hw hv (hnext ▸ hz)
    (hnext ▸ hy)
  have hturns := Heap.turns_append (hr.logsStep n).log
  have hnew {t : Turn} {ts : List Turn} (hsub : (t :: ts).Sublist (run (n + 1)).heap.turns)
      (ht : t ∉ (run n).heap.turns) :
      (w.story v ++ t :: ts).Sublist (run (n + 1)).heap.turns := by
    rw [hturns] at hsub ⊢
    exact htold.append (sublist_of_notMem hsub ht)
  have hold : (w.story v ++ []).Sublist (run (n + 1)).heap.turns := by
    rw [hturns]
    exact htold.append (List.nil_sublist _)
  rw [hproceeds.story_eq hwz hvy]
  cases hproceeds with
  | stay hp hf =>
    rw [hp, hf]
    cases hphase : v.phase with
    | alive | dying => exact hold
    | gone =>
      dsimp only
      rwa [if_neg (by simp)]
  | start hp hp' =>
    rw [hp, hp']
    refine hnew (List.singleton_sublist.mpr (after.disposed.mpr (by simp [hp']))) ?_
    rw [hwz.id, before.disposed]
    simp [hp]
  | finish hp hp' hf =>
    rw [hp, hp']
    dsimp only
    rw [Object.returns]
    cases hr' : y.storage? with
    | none => exact hold
    | some r =>
      refine hnew (List.singleton_sublist.mpr ((after.returned r hr').mpr hp')) ?_
      rw [before.returned r (hvy.storage? ▸ hr')]
      simp [hp]
  | free hp hp' hf hf' =>
    rw [hp]
    dsimp only
    rw [if_pos ⟨hf, hf'⟩]
    refine hnew ((hr.orderly (n + 1) b z hz).freed hf') ?_
    rw [hwz.id, before.freed]
    simp [hf]

/-- The story has been told in order. -/
theorem IsRationed.story_sublist (hr : IsRationed run) (hn : (run n).heap.attempts < 2 ^ 64 - 1)
    (hx : (run i).heap.blocks[b]? = some x) (ho : x.pointee = some o) (hin : i ≤ n)
    (hz : (run n).heap.blocks[b]? = some z) (hy : (run n).heap.objects[o]? = some y) :
    (z.story y).Sublist (run n).heap.turns := by
  induction n, hin using Nat.le_induction generalizing z y with
  | base =>
    rw [hx] at hz
    cases hz
    have hp := (hr.reachable i).managed_alive hx ho
    have halive : y.phase = .alive := by simpa [Heap.phase?, hy] using hp
    rw [Block.story, Block.ending, halive, List.append_nil]
    exact (hr.orderly i b x hx).made o y ho hy
  | succ n hin ih =>
    obtain ⟨w, hw, -⟩ := hr.becomes hx hin
    obtain ⟨p, hp⟩ := (hr.reachable n).known_of_course (hr.course hx ho hin)
    obtain ⟨v, hv, -⟩ := Option.map_eq_some_iff.mp hp
    have hn₀ : (run n).heap.attempts < 2 ^ 64 - 1 :=
      Nat.lt_of_le_of_lt (Nat.sub_le_sub_right (hr.since (Nat.le_succ n)).nextId 1) hn
    exact hr.story_succ hn hx ho hin hw hv hz hy (ih hn₀ hw hv)

/-- Of what is told of a block, its pointee and their memory, just the story has been told. -/
theorem IsRationed.filter_turns (hr : IsRationed run) (hn : (run n).heap.attempts < 2 ^ 64 - 1)
    (hx : (run i).heap.blocks[b]? = some x) (ho : x.pointee = some o) (hin : i ≤ n)
    (hz : (run n).heap.blocks[b]? = some z) (hy : (run n).heap.objects[o]? = some y) :
    (run n).heap.turns.filter (· ∈ z.life y) = z.story y := by
  have hreflects := hr.reflects hn hx ho hin hz hy
  refine List.filter_mem_eq_of_sublist
    ((hr.chronicle_of_attempts hn).nodup_turns (hr.entered n)) (hr.story_sublist hn hx ho hin hz hy)
    (z.story_prefix_life y).subset fun t ht hlife => ?_
  have hends (h : t ∈ z.ending y) : t ∈ z.story y := List.mem_append_right _ h
  rcases List.mem_append.mp hlife with h | h
  · exact List.mem_append_left _ h
  rcases List.mem_cons.mp h with rfl | h
  · have hne := hreflects.disposed.mp ht
    refine hends ?_
    rw [Block.ending]
    cases hp : y.phase with
    | alive => exact absurd hp hne
    | dying | gone => exact List.mem_cons_self
  rcases List.mem_append.mp h with h | h
  · obtain ⟨r, hr', rfl⟩ := List.mem_map.mp h
    refine hends ?_
    rw [Block.ending, (hreflects.returned r (by simpa using hr')).mp ht]
    exact List.mem_cons_of_mem _ (List.mem_append_left _ h)
  · have hf : z.freed = true := by
      rcases List.mem_pair.mp h with rfl | rfl
      · exact hreflects.freed.mp ht
      · exact hreflects.released.mp ht
    refine hends ?_
    rw [Block.ending, hreflects.gone hf, hf]
    exact List.mem_cons_of_mem _ (List.mem_append_right _ h)

/-- A destructor goes on until the memory is returned. -/
theorem Reachable.reclaim_mem_iff (hm : m.Reachable) (hc : m.Course b o)
    (hy : m.heap.objects[o]? = some y) : .reclaim o ∈ m.env.agenda ↔ y.phase = .dying := by
  have hp : m.heap.phase? o = some y.phase := by rw [Heap.phase?, hy, Option.map_some]
  constructor
  · intro h
    rw [hm.dying_of_reclaim h] at hp
    exact (Option.some.inj hp).symm
  · intro hdying
    rw [hdying] at hp
    cases hc with
    | owned hx ho =>
      rw [hm.managed_alive hx ho] at hp
      cases hp
    | dying ha => simp [ha]
    | reclaimed hgone | ended hgone =>
      rw [hgone] at hp
      cases hp

theorem IsRationed.said_eq {es : List Event} (hr : IsRationed run)
    (h : (run (n + 1)).heap.log.toList = (run n).heap.log.toList ++ es) : said run n = es := by
  rw [(hr.logsStep n).log] at h
  exact List.append_cancel_left h

/-- What is told of block `z` and of the object `o`, in state `y`, that was its pointee. -/
structure Accounted (run : Nat → Machine) (n : Nat) (o : ObjectId) (z : Block) (y : Object) :
    Prop where
  /-- Of their life just the story has been told, in this order and once. -/
  story : (run n).heap.turns.filter (· ∈ z.life y) = z.story y
  beginning : z.story y <+: z.life y
  /-- The pointee is alive until its destructor starts, and dies until its memory is returned. -/
  started : (∃ i < n, (run i).starts? = some o) ↔ y.phase ≠ .alive
  running : .reclaim o ∈ (run n).env.agenda ↔ y.phase = .dying
  /-- When the block is freed, all of that is over. -/
  freed : z.freed = true → y.phase = .gone

/-- What the log tells after `n` steps. -/
structure Chronicled (run : Nat → Machine) (n : Nat) : Prop where
  /-- The ids of the blocks that are created rise. -/
  rising : ((run n).heap.log.toList.filterMap Event.created?).Pairwise (· < ·)
  /-- What is told of an id is how a life begins. -/
  tales : ∀ id, ∃ w ∈ lifecycle.matches', (run n).heap.tale id <+: w
  once : (run n).heap.turns.Nodup
  /-- Each block has had a pointee, and what is told of both is in order. -/
  pointees : ∀ (b : BlockId) (z : Block), (run n).heap.blocks[b]? = some z →
    ∃ i ≤ n, ∃ x o, (run i).heap.blocks[b]? = some x ∧ x.pointee = some o
  accounted : ∀ (i : Nat) (b : BlockId) (x : Block) (o : ObjectId), i ≤ n →
    (run i).heap.blocks[b]? = some x → x.pointee = some o →
    ∃ z y, (run n).heap.blocks[b]? = some z ∧ z.id = x.id ∧ (run n).heap.objects[o]? = some y ∧
      Accounted run n o z y
  /-- The step that starts the destructor says first that the pointee is disposed of. -/
  starts : ∀ (b : BlockId) (x : Block) (o : ObjectId) (y : Object),
    (run n).heap.blocks[b]? = some x → x.pointee = some o → (run n).heap.objects[o]? = some y →
    (run n).starts? = some o → said run n = .pointeeDisposed x.id :: y.content.farewell
  /-- An id that is used up, and is that of no block, was refused. Nothing is told of it, then or
  later. -/
  refused : ∀ i ≤ n, ∀ id < (run i).heap.nextId, (∀ x ∈ (run i).heap.blocks.toList, x.id ≠ id) →
    ∀ e ∈ (run n).heap.log.toList, e.block? ≠ some id

/-- With fewer attempts at blocks than there are ids, the log tells of lives in order. -/
theorem IsRationed.chronicled (hr : IsRationed run) (hn : (run n).heap.attempts < 2 ^ 64 - 1) :
    Chronicled run n where
  rising := by
    have hchronicle := hr.chronicle_of_attempts hn
    exact hchronicle.created ▸ hchronicle.rising
  tales := (hr.chronicle_of_attempts hn).prefix_lifecycle
  once := (hr.chronicle_of_attempts hn).nodup_turns (hr.entered n)
  pointees b z hz := by
    obtain ⟨i, hi, -, x, hx, hne⟩ := hr.born hz
    have hsome := ((hr.reachable (i + 1)).counted b x hx).pointee.mpr hne
    obtain ⟨o, ho⟩ := Option.isSome_iff_exists.mp hsome
    exact ⟨i + 1, hi, x, o, hx, ho⟩
  accounted i b x o hin hx ho := by
    have hm := hr.reachable n
    have hc := hr.course hx ho hin
    obtain ⟨z, hz, hxz⟩ := hr.becomes hx hin
    obtain ⟨p, hp⟩ := hm.known_of_course hc
    obtain ⟨y, hy, rfl⟩ := Option.map_eq_some_iff.mp hp
    exact ⟨z, y, hz, hxz.id, hy, hr.filter_turns hn hx ho hin hz hy, z.story_prefix_life y,
      hr.starts_iff hp, hm.reclaim_mem_iff hc hy, (hr.reflects hn hx ho hin hz hy).gone⟩
  starts b x o y hx ho hy hs := by
    obtain ⟨limits, hnext⟩ := hr.next n
    refine hr.said_eq ?_
    rw [hnext]
    exact ((hr.reachable n).ration limits).log_of_starts? hx ho hy hs
  refused i hin id hused hno e he := hr.refused hn hin hused hno he

/-- The lock that the destructor tries is told of between the disposal and the end of the block. -/
theorem chronicled_selfObserving :
    (moment selfObserving false 20).heap.attempts < 2 ^ 64 - 1 ∧
      (moment selfObserving false 20).heap.tale 1 = [.allocated, .disposed, .expired, .freed] ∧
      Chronicled (moment selfObserving false) 20 :=
  ⟨by decide, by decide, IsRationed.chronicled (isRationed_moment _ _) (by decide)⟩

end Machine

end Custody
