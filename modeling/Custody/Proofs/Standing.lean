import Custody.Proofs.Destruction

/-!
# Who answers for an object

* `Machine.Standing`, `Machine.Stands`: the four ways in which an object is accounted for at a
  moment of a run.
* `Machine.EndsUnique`: a unique pointer is dropped, reset or overwritten.
* `Machine.SingleOwnership`, `Machine.IsRationed.singleOwnership`: every object is accounted for in
  one way, and its destructor starts once, when its last owner goes.
-/

namespace Custody

namespace Machine

variable {m : Machine} {o : ObjectId} {b : BlockId} {x : Block}

/-- Where an object stands: who is answerable for it. -/
inductive Standing
  | unique | managed | givenOut | destroyed
  deriving DecidableEq, Repr

/-- An object that was given out has been led to by a raw pointer, which may be lost since, and
has had no owner since. -/
def Stands (run : Nat → Machine) (n : Nat) (o : ObjectId) : Standing → Prop
  | .unique => (run n).uniques o = 1
  | .managed => (run n).heap.managers o = 1
  | .givenOut => ∃ i ≤ n, 0 < (run i).raws o ∧
      ∀ j, i ≤ j → j ≤ n → (run j).uniques o = 0 ∧ (run j).heap.managers o = 0
  | .destroyed => ∃ i < n, (run i).starts? = some o

/-! ## Pointees of blocks -/

theorem Reachable.managed_alive (hm : m.Reachable) (hx : m.heap.blocks[b]? = some x)
    (ho : x.pointee = some o) : m.heap.phase? o = some .alive := by
  refine hm.alive_of_owners ?_
  rw [owners_scene]
  have := Heap.managers_pos ⟨b, x, hx, ho⟩
  omega

/-- A block has its pointee as long as it has a strong owner. -/
theorem Reachable.pointee_iff (hm : m.Reachable) (hx : m.heap.blocks[b]? = some x) :
    x.pointee.isSome ↔ m.strongs b ≠ 0 := by
  rw [(hm.counted b x hx).pointee, hm.strong_eq hx]

/-- Where the pointee's destructor starts, the last strong owner goes. -/
theorem Reachable.last_of_starts? (hm : m.Reachable) (hx : m.heap.blocks[b]? = some x)
    (ho : x.pointee = some o) (hs : m.starts? = some o) :
    m.heap.strongCount b = 1 ∧ m.step.heap.strongCount b = 0 := by
  obtain ⟨y, z, hxy, hyz, hz⟩ := hm.step_block hx
  rw [Heap.strongCount_eq hx, Heap.strongCount_eq hz]
  have hgone : y.pointee ≠ some o := by
    intro hyo
    have halive := hm.step.managed_alive hz (hyz.samePointee.trans hyo)
    rw [hm.dying_of_starts? hs] at halive
    cases halive
  cases hxy with
  | pointee last _ => exact ⟨last, hyz.strong (by simp [last])⟩
  | nothing | strong | weak | implicit => exact absurd ho hgone

/-- Where the last strong owner goes, the pointee's destructor starts. -/
theorem Reachable.starts?_of_last (hm : m.Reachable) (hx : m.heap.blocks[b]? = some x)
    (ho : x.pointee = some o) (hzero : m.step.heap.strongCount b = 0) : m.starts? = some o := by
  obtain ⟨y, z, hxy, hyz, hz⟩ := hm.step_block hx
  have hne : x.strong ≠ 0 := (hm.counted b x hx).pointee.mp (by simp [ho])
  rw [Heap.strongCount_eq hz] at hzero
  have hle := hyz.strongLe
  cases hxy with
  | pointee _ hstarts => exact hstarts ▸ ho
  | nothing => omega
  | strong | weak | implicit =>
    dsimp only at hle
    omega

section Run

variable {run : Nat → Machine} {i j n n' : Nat}

/-- The pointee of a block is destroyed just when the block has no strong pointer left. -/
theorem IsRationed.starts_iff_strongs (hr : IsRationed run) (hx : (run n).heap.blocks[b]? = some x)
    (ho : x.pointee = some o) (hn : n ≤ n') :
    (∃ i < n', (run i).starts? = some o) ↔ (run n').strongs b = 0 := by
  have hpointee {n' : Nat} (hn : n ≤ n') (hs : (run n').strongs b ≠ 0) :
      ∃ y, (run n').heap.blocks[b]? = some y ∧ y.pointee = some o := by
    obtain ⟨y, hy, hxy⟩ := hr.becomes hx hn
    have hsome := ((hr.reachable n').pointee_iff hy).mpr hs
    rcases hxy.pointee with h | h
    · exact ⟨y, hy, h.trans ho⟩
    · rw [h] at hsome
      cases hsome
  constructor
  · rintro ⟨i, hi, hs⟩
    by_contra hne
    obtain ⟨y, hy, hyo⟩ := hpointee hn hne
    obtain ⟨p, hp, halive⟩ := hr.phase_of_starts hs hi
    rw [(hr.reachable n').managed_alive hy hyo] at hp
    exact halive (Option.some.inj hp).symm
  · intro hzero
    induction n', hn using Nat.le_induction with
    | base =>
      have := ((hr.reachable n).pointee_iff hx).mp (by simp [ho])
      exact absurd hzero this
    | succ n' hn ih =>
      by_cases hne : (run n').strongs b = 0
      · obtain ⟨i, hi, hs⟩ := ih hne
        exact ⟨i, Nat.lt_succ_of_lt hi, hs⟩
      · obtain ⟨y, hy, hyo⟩ := hpointee hn hne
        obtain ⟨limits, hnext⟩ := hr.next n'
        refine ⟨n', Nat.lt_succ_self n', ((hr.reachable n').ration limits).starts?_of_last hy hyo ?_⟩
        rw [← hnext]
        obtain ⟨z, hz, -⟩ := hr.becomes hx (Nat.le_succ_of_le hn)
        rw [Heap.strongCount_eq hz, (hr.reachable (n' + 1)).strong_eq hz]
        exact hzero

/-! ## Objects of unique pointers -/

/-- Where a unique pointer owns the object, nothing but its end starts the destructor. -/
theorem Reachable.starts?_iff_unique (hm : m.Reachable) (hu : m.uniques o = 1) :
    m.starts? = some o ↔ ∃ u rest, m.env.agenda = .drop (.unique u) :: rest ∧ u.object = some o := by
  constructor
  · intro hs
    have hallows := hm.owned o .alive (hm.alive_of_starts? hs)
    rw [owners_scene] at hallows
    have hmanagers : m.heap.managers o = 0 := by
      have := hallows.1
      omega
    unfold starts? at hs
    split at hs
    · next x rest hagenda =>
      match x with
      | .unique u => exact ⟨u, rest, hagenda, hs⟩
      | .strong q =>
        obtain ⟨b, -, hb⟩ := Option.bind_eq_some_iff.mp hs
        split at hb
        · obtain ⟨y, hy, ho⟩ := Option.bind_eq_some_iff.mp hb
          have := Heap.managers_pos ⟨b, y, hy, ho⟩
          omega
        · cases hb
      | .weak _ | .raw _ => cases hs
    · cases hs
  · rintro ⟨u, rest, hagenda, ho⟩
    simp only [starts?, hagenda, Stake.starts?, ho]

/-- A unique pointer to the object is dropped or reset, something is stored in its place, or the
table that it is in comes to its end. -/
inductive EndsUnique (m : Machine) (o : ObjectId) : Prop
  | drop {target loc u rest} (ha : m.env.agenda = .exec (.drop target) :: rest)
      (hu : m.find target = .ok (loc, .unique u)) (ho : u.object = some o)
  | reset {target loc u rest} (ha : m.env.agenda = .exec (.reset target) :: rest)
      (hu : m.find target = .ok (loc, .unique u)) (ho : u.object = some o)
  | putBack {loc x counted u rest} (ha : m.env.agenda = .putBack loc x counted :: rest)
      (hu : m.get? loc = some (.unique u)) (ho : u.object = some o)
  | place {x dst form loc u rest} (ha : m.env.agenda = .place x dst form :: rest)
      (hl : m.resolve? dst = some loc) (hu : m.get? loc = some (.unique u))
      (ho : u.object = some o)
  | unlink {node u t rest} (ha : m.env.agenda = .unlink node :: rest)
      (hu : (m.heap.linksOf node).popFirst? = some (.unique u, t)) (ho : u.object = some o)
  | clear {u t rest} (ha : m.env.agenda = .clear :: rest)
      (hu : m.env.root.popFirst? = some (.unique u, t)) (ho : u.object = some o)

theorem EndsUnique.ration (h : m.EndsUnique o) (limits : Alloc → Option Nat) :
    (m.ration limits).EndsUnique o := by
  cases h with
  | drop ha hu ho => exact .drop ha hu ho
  | reset ha hu ho => exact .reset ha hu ho
  | putBack ha hu ho => exact .putBack ha hu ho
  | place ha hl hu ho => exact .place ha hl hu ho
  | unlink ha hu ho => exact .unlink ha hu ho
  | clear ha hu ho => exact .clear ha hu ho

/-- The next action then starts the destructor. -/
theorem EndsUnique.starts? (h : m.EndsUnique o) : m.step.starts? = some o := by
  obtain ⟨heap, env⟩ := m
  have hstep {a : Action} {rest : List Action} {u : Unique} (ha : env.agenda = a :: rest)
      (ho : u.object = some o)
      (hp : ∃ as, (perform a ⟨heap, { env with agenda := rest }⟩).env.agenda =
        .drop (.unique u) :: as) :
      (Machine.mk heap env).step.starts? = some o := by
    have hn : (Machine.mk heap env).next? = some (a, ⟨heap, { env with agenda := rest }⟩) := by
      simp only [next?, ha, mapEnv]
    obtain ⟨as, has⟩ := hp
    rw [step_eq_perform hn]
    simp only [Machine.starts?, has, Stake.starts?, ho]
  have hstore {n : Machine} {loc : Location} {u : Unique} (x : Slot)
      (hu : n.get? loc = some (.unique u)) :
      ∃ as, (n.store loc x).env.agenda = .drop (.unique u) :: as := by
    rw [agenda_store, hu]
    exact ⟨_, rfl⟩
  have hempty {n : Machine} {t : TableId} {u : Unique} {new : Table} (a : Action)
      (hu : (n.table t).popFirst? = some (.unique u, new)) :
      ∃ as, (n.emptyOut t a).env.agenda = .drop (.unique u) :: as := by
    simp only [emptyOut, hu]
    exact ⟨_, rfl⟩
  have hexec {s : Step} {n : Machine} {e : Effect} {u : Unique} (hs : n.plan s = .ok e)
      (hu : ∀ h, ∃ as, (e.call h).2 = .drop (.unique u) :: as) :
      ∃ as, (perform (.exec s) n).env.agenda = .drop (.unique u) :: as := by
    obtain ⟨as, has⟩ := hu (n.takeOut e.taken).heap
    simp only [perform, hs, agenda_carryOut, has]
    exact ⟨_, rfl⟩
  cases h with
  | @drop target loc u rest ha hu ho =>
    have hu : find ⟨heap, { env with agenda := rest }⟩ target = .ok (loc, .unique u) := hu
    refine hstep ha ho (hexec (e := .drop loc (.unique u)) ?_ fun h => ⟨_, rfl⟩)
    simp only [plan, hu]
    rfl
  | @reset target loc u rest ha hu ho =>
    have hu : find ⟨heap, { env with agenda := rest }⟩ target = .ok (loc, .unique u) := hu
    refine hstep ha ho (hexec (e := .reset loc (.unique u) (.unique (.null u.kind u.alloc))) ?_
      fun h => ⟨_, rfl⟩)
    simp only [plan, planReset, hu]
    rfl
  | @putBack loc x counted u rest ha hu ho =>
    refine hstep ha ho ?_
    cases counted with
    | false => exact hstore x hu
    | true => exact hstore (n := reply _ ⟨heap, { env with agenda := rest }⟩) x hu
  | @place x dst form loc u rest ha hl hu ho =>
    have hl : resolve? ⟨heap, { env with agenda := rest }⟩ dst = some loc := hl
    refine hstep ha ho ?_
    cases form with
    | plain | promoted =>
      simp only [perform, placeAt, hl]
      exact hstore x hu
    | during =>
      have hl : resolve? (takeReply ⟨heap, { env with agenda := rest }⟩).1 dst = some loc := hl
      simp only [perform, placeAt, hl]
      exact hstore x hu
  | unlink ha hu ho => exact hstep ha ho (hempty _ hu)
  | clear ha hu ho => exact hstep ha ho (hempty _ hu)

/-! ## Every object stands in one way -/

/-- What is alive and has no owner has been given out. -/
theorem IsRationed.givenOut (hr : IsRationed run) (hp : (run n).heap.phase? o = some .alive)
    (hzero : Scene.owners (run n).scene o = 0) : Stands run n o .givenOut := by
  induction n with
  | zero =>
    rw [hr.heap_zero] at hp
    cases hp
  | succ n ih =>
    obtain ⟨limits, hnext⟩ := hr.next n
    have hm : ((run n).ration limits).Grounded := (hr.grounded n).ration limits
    rw [owners_scene] at hzero
    have hextend {i : Nat} (hi : i ≤ n) (hraw : 0 < (run i).raws o)
        (hnone : ∀ j, i ≤ j → j ≤ n → (run j).uniques o = 0 ∧ (run j).heap.managers o = 0) :
        Stands run (n + 1) o .givenOut := by
      refine ⟨i, Nat.le_succ_of_le hi, hraw, fun j hij hj => ?_⟩
      rcases Nat.lt_or_eq_of_le hj with hj | rfl
      · exact hnone j hij (Nat.le_of_lt_succ hj)
      · omega
    have hstep := owners_scene (run (n + 1)) o
    -- rationing changes neither owners nor phases
    have hsame : Scene.owners ((run n).ration limits).scene o = Scene.owners (run n).scene o := rfl
    have hp' : ((run n).ration limits).step.scene.1.phase? o = some .alive := hnext ▸ hp
    cases hq : (run n).heap.phase? o with
    | none =>
      rcases hm.step_unknown hq with h | ⟨-, h⟩
      · have := h.symm.trans hp'
        cases this
      · rw [← hnext] at h
        omega
    | some p =>
      have hq' : ((run n).ration limits).scene.1.phase? o = some p := hq
      rcases hm.step_known hq with ⟨-, hat⟩ | ⟨-, hat | hat | hat⟩
      · rw [hat.phase, hq'] at hp'
        cases hp'
      · have howners := hat.owners
        rw [← hnext, hsame, owners_scene] at howners
        obtain ⟨i, hi, hraw, hnone⟩ := ih (hat.phase.symm.trans hp') (by omega)
        exact hextend hi hraw hnone
      · have howners := hat.owners
        have hraw := hat.raw
        rw [← hnext, hsame, owners_scene, owners_scene] at howners
        have hraws : tally Stake.rawOf? ((run n).ration limits).stakes o = (run n).raws o :=
          tally_rawOf? (run n) o
        simp only [scene, hraws] at hraw
        refine hextend (Nat.le_refl n) hraw fun j hij hj => ?_
        obtain rfl := Nat.le_antisymm hj hij
        omega
      · rw [hat.phase, hq'] at hp'
        cases hp'

/-- What has been given out is alive, however long ago that was. -/
theorem IsRationed.alive_of_givenOut (hr : IsRationed run) (hs : Stands run n o .givenOut) :
    (run n).heap.phase? o = some .alive := by
  obtain ⟨i, hi, hraw, hnone⟩ := hs
  induction n, hi using Nat.le_induction with
  | base =>
    refine (hr.owned i).alive (hr.grounded i).scope ?_
    rw [owners_scene]
    omega
  | succ n hi ih =>
    obtain ⟨limits, hnext⟩ := hr.next n
    have hp := ih fun j hij hj => hnone j hij (Nat.le_succ_of_le hj)
    have hne : ((run n).ration limits).starts? ≠ some o := by
      intro h
      have := owner_of_starts? (m := run n) h
      have := hnone n hi (Nat.le_succ n)
      omega
    have hm : ((run n).ration limits).Grounded := (hr.grounded n).ration limits
    obtain ⟨q, hq, hiff⟩ := hm.step_phase (hr.owned n) hp hne
    rw [hnext, hq, hiff.mpr rfl]

/-- What each standing says of the moment itself. -/
theorem IsRationed.stands_now (hr : IsRationed run) {s : Standing} (hs : Stands run n o s) :
    ((run n).heap.phase? o = some .alive ↔ s ≠ .destroyed) ∧
      (run n).uniques o = (if s = .unique then 1 else 0) ∧
      (run n).heap.managers o = if s = .managed then 1 else 0 := by
  have howned (h : 0 < Scene.owners (run n).scene o) :
      (run n).heap.phase? o = some .alive ∧ Scene.owners (run n).scene o ≤ 1 := by
    have hp := (hr.reachable n).alive_of_owners h
    exact ⟨hp, ((hr.reachable n).owned o .alive hp).1⟩
  rw [owners_scene] at howned
  cases s with
  | unique =>
    have hs : (run n).uniques o = 1 := hs
    obtain ⟨hp, hle⟩ := howned (by omega)
    simp [hp, hs]
    omega
  | managed =>
    have hs : (run n).heap.managers o = 1 := hs
    obtain ⟨hp, hle⟩ := howned (by omega)
    simp [hp, hs]
    omega
  | givenOut =>
    have hp := hr.alive_of_givenOut hs
    obtain ⟨i, hi, -, hnone⟩ := hs
    have := hnone n hi (Nat.le_refl n)
    simp [hp, this]
  | destroyed =>
    obtain ⟨i, hi, h⟩ := hs
    obtain ⟨p, hp, hne⟩ := hr.phase_of_starts h hi
    have hnone : ¬ 0 < (run n).uniques o + (run n).raws o + (run n).heap.managers o := by
      intro hpos
      rw [hp] at howned
      exact hne (Option.some.inj (howned hpos).1)
    simp [hp, hne]
    omega

/-- An object always stands in one of four ways, and never in two. -/
theorem IsRationed.existsUnique_stands (hr : IsRationed run) (ho : o < (run n).heap.objects.size) :
    ∃! s, Stands run n o s := by
  have hunique {s t : Standing} (hs : Stands run n o s) (ht : Stands run n o t) : s = t := by
    obtain ⟨hs₁, hs₂, hs₃⟩ := hr.stands_now hs
    obtain ⟨ht₁, ht₂, ht₃⟩ := hr.stands_now ht
    rw [hs₁] at ht₁
    rw [hs₂] at ht₂
    rw [hs₃] at ht₃
    cases s <;> cases t <;> simp at ht₁ ht₂ ht₃ ⊢
  suffices ∃ s, Stands run n o s by
    obtain ⟨s, hs⟩ := this
    exact ⟨s, hs, fun t ht => hunique ht hs⟩
  have hp : (run n).heap.phase? o = some (run n).heap.objects[o].phase := by
    simp [Heap.phase?, ho]
  by_cases halive : (run n).heap.objects[o].phase = .alive
  · rw [halive] at hp
    have hle := ((hr.reachable n).owned o .alive hp).1
    by_cases hzero : Scene.owners (run n).scene o = 0
    · exact ⟨.givenOut, hr.givenOut hp hzero⟩
    · rw [owners_scene] at hle hzero
      have hcases : (run n).uniques o = 1 ∨ (run n).heap.managers o = 1 ∨
          0 < (run n).raws o ∧ (run n).uniques o = 0 ∧ (run n).heap.managers o = 0 := by
        omega
      rcases hcases with h | h | ⟨hraw, hnone⟩
      · exact ⟨.unique, h⟩
      · exact ⟨.managed, h⟩
      · refine ⟨.givenOut, n, Nat.le_refl n, hraw, fun j hj hj' => ?_⟩
        obtain rfl := Nat.le_antisymm hj' hj
        exact hnone
  · exact ⟨.destroyed, (hr.starts_iff hp).mpr halive⟩

end Run

/-- Who owns what in a run, and when it is destroyed. -/
structure SingleOwnership (run : Nat → Machine) : Prop where
  /-- Every object stands in exactly one way at every moment. -/
  standing : ∀ n o, o < (run n).heap.objects.size → ∃! s, Stands run n o s
  /-- A destructor starts on what is alive, which is dying then. -/
  starts : ∀ n o, (run n).starts? = some o ↔
    (run n).heap.phase? o = some .alive ∧ (run (n + 1)).heap.phase? o = some .dying
  /-- A destructor starts at most once. -/
  once : ∀ i j o, (run i).starts? = some o → (run j).starts? = some o → i = j
  /-- That of a block's pointee starts where the strong count falls from one to zero. -/
  last : ∀ n b x o, (run n).heap.blocks[b]? = some x → x.pointee = some o →
    ((run n).starts? = some o ↔
      (run n).heap.strongCount b = 1 ∧ (run (n + 1)).heap.strongCount b = 0)
  /-- It has started just when no strong pointer on the block is left, however many weak ones
  there are. -/
  managed : ∀ n n' b x o, (run n).heap.blocks[b]? = some x → x.pointee = some o → n ≤ n' →
    ((∃ i < n', (run i).starts? = some o) ↔ (run n').strongs b = 0)
  /-- That of an object of a unique pointer starts where a unique pointer to it is given up. -/
  unique : ∀ n o, (run n).uniques o = 1 → ((run n).starts? = some o ↔
    ∃ u rest, (run n).env.agenda = .drop (.unique u) :: rest ∧ u.object = some o)
  /-- It is given up when it is dropped, reset or overwritten. -/
  ends : ∀ n o, (run n).EndsUnique o → (run (n + 1)).starts? = some o

/-- Every object is accounted for in one way, and is destroyed once, when its owner is gone. -/
theorem IsRationed.singleOwnership {run : Nat → Machine} (hr : IsRationed run) :
    SingleOwnership run where
  standing n o ho := hr.existsUnique_stands ho
  starts n o := by
    obtain ⟨limits, hnext⟩ := hr.next n
    have hm := (hr.reachable n).ration limits
    rw [hnext]
    constructor
    · exact fun h => ⟨hm.alive_of_starts? h, hm.dying_of_starts? h⟩
    · rintro ⟨hp, hq⟩
      by_contra h
      obtain ⟨q, hq', hiff⟩ := hm.step_phase hp h
      rw [hq, hiff.mpr rfl] at hq'
      cases hq'
  once i j o hi hj := hr.starts_once hi hj
  last n b x o hx ho := by
    obtain ⟨limits, hnext⟩ := hr.next n
    have hm := (hr.reachable n).ration limits
    rw [hnext]
    exact ⟨hm.last_of_starts? hx ho, fun h => hm.starts?_of_last hx ho h.2⟩
  managed n n' b x o hx ho hn := hr.starts_iff_strongs hx ho hn
  unique n o hu := (hr.reachable n).starts?_iff_unique hu
  ends n o h := by
    obtain ⟨limits, hnext⟩ := hr.next n
    rw [hnext]
    exact (h.ration limits).starts?

theorem singleOwnership_selfObserving :
    (moment selfObserving false 8).starts? = some 0 ∧
      SingleOwnership (moment selfObserving false) :=
  ⟨by decide, IsRationed.singleOwnership (isRationed_moment _ _)⟩

end Machine

end Custody
