import Custody.Proofs.Completion
import Custody.Proofs.Freeing

/-!
# The last release

With the last strong pointer the destructor of the pointee starts. What it does it does inside the
release, also to the block that is being released.

* `Machine.DropsLast`: the next action drops the last strong pointer to a block.
* `Machine.Disposing`: what the block is until the disposal is over.
* `Machine.Reenters`, `Machine.IsRationed.reenters`: whatever the destructor does, the block is so
  when the disposal is over, and the implicit reference is given up then, and only then.
-/

namespace Custody.Machine

variable {m : Machine} {b : BlockId} {o : ObjectId} {x : Block} {rest : List Action}

/-- The next action drops the last strong pointer to the block. `rest` is to be done after it. -/
structure DropsLast (m : Machine) (b : BlockId) (rest : List Action) : Prop where
  agenda : ∃ p : Strong, p.block = some b ∧ m.env.agenda = .drop (.strong p) :: rest
  last : m.heap.strongCount b = 1

/-- What block `b`, in state `x`, is during the disposal of its pointee. -/
structure Disposing (m : Machine) (b : BlockId) (x : Block) : Prop where
  block : m.heap.blocks[b]? = some x
  unfreed : x.freed = false
  /-- Its memory has not been given back. -/
  memory : (x.serial, .block x.kind.isSized) ∈ (m.heap.ledger x.alloc).entries true
  strong : x.strong = 0
  implicitWeak : x.implicitWeak = true
  weak : x.weak = 1 + m.weaks b
  /-- What a weak pointer on it reports. -/
  observed : ∀ w : Weak, w.block = some b →
    w.use m.heap = 0 ∧ w.observers m.heap = m.weaks b ∧ (w.lock? m.heap).2 = none

/-! ## One step -/

/-- So it is as long as the implicit reference is due to be given up. -/
theorem exists_disposing (hs : Sound m.scene) (hdue : .giveUpImplicit b ∈ m.env.agenda) :
    ∃ x, m.Disposing b x := by
  have hmem : .disposal b ∈ m.stakes := disposal_mem_stakes_iff.mpr hdue
  obtain ⟨x, hx, hf, hagree⟩ := hs.block hmem rfl
  have hstrong := (hagree.disposing hmem).2
  have hweak := hagree.weak
  have hi : x.implicitWeak = true := by
    cases h : x.implicitWeak with
    | true => rfl
    | false =>
      have himplicit := hagree.implicit
      have hpos : 0 < tally Stake.disposes? m.stakes b := tally_pos hmem rfl
      rw [h, Bool.toNat_false] at himplicit
      omega
  rw [tally_weakOn?, hi, Bool.toNat_true] at hweak
  have hcount : m.heap.strongCount b = 0 := (Heap.strongCount_eq hx).trans hstrong
  have hobservers : m.heap.observerCount b = m.weaks b := by
    rw [Heap.observerCount, hx, Option.map_some, Option.getD_some, Block.observers, hi, hweak]
    exact Nat.add_sub_cancel _ _
  refine ⟨x, hx, hf, ?_, hstrong, hi, by omega, fun w hw => ?_⟩
  · have hentry := hs.booked.block hx
    rwa [hf] at hentry
  · simp only [Weak.use, Weak.observers, Weak.lock?, hw, Option.map_some, Option.getD_some, hcount,
      hobservers, ↓reduceIte, and_self]

/-- What gives up the implicit reference leaves the block to the weak pointers. -/
theorem step_giveUpImplicit (hx : m.heap.blocks[b]? = some x) (hf : x.freed = false)
    (hweak : x.weak = 1 + m.weaks b) (ha : m.env.agenda = .giveUpImplicit b :: rest) :
    m.step.env.agenda = rest ∧ m.step.heap.blocks[b]? =
      some { x with implicitWeak := false, weak := m.weaks b, freed := m.weaks b == 0 } := by
  rw [step_eq_perform (next?_of_agenda ha)]
  refine ⟨rfl, ?_⟩
  have hleft : x.weak - 1 = m.weaks b := by
    rw [hweak]
    omega
  have hlast : (x.freed || x.weak == 1) = (m.weaks b == 0) := by
    rw [hf, hweak, Bool.false_or, Bool.eq_iff_iff, beq_iff_eq, beq_iff_eq]
    omega
  have hself := congrArg (·[b]?) (Heap.blocks_giveUpImplicit (h := m.heap) (b := b))
  rw [Array.getElem?_modify_self _ hx, hleft, hlast] at hself
  exact hself

theorem Disposing.frees?_iff (h : m.Disposing b x)
    (ha : m.env.agenda = .giveUpImplicit b :: rest) : m.frees? = some b ↔ m.weaks b = 0 := by
  have hweak := h.weak
  simp only [frees?, ha, Stake.frees?, Heap.weakCount_eq h.block]
  split
  · simp only [true_iff]
    omega
  · simp only [reduceCtorEq, false_iff]
    omega

/-- The pointee's destructor starts. Its memory is due to be returned then, and after that the
implicit reference to be given up. -/
theorem DropsLast.step (h : m.DropsLast b rest) (hs : Sound m.scene) :
    ∃ o as, m.starts? = some o ∧
      m.step.env.agenda = as ++ .reclaim o :: .giveUpImplicit b :: rest := by
  obtain ⟨⟨p, hp, ha⟩, last⟩ := h
  have hmem : .pointer (.strong p) ∈ m.stakes := by
    refine pointer_mem_stakes_iff.mpr (List.mem_append_right _ ?_)
    rw [ha]
    exact List.mem_cons_self
  obtain ⟨x, hx, -, -, hsome⟩ := hs.strong hmem hp
  obtain ⟨o, ho⟩ := Option.isSome_iff_exists.mp hsome
  have hbind : m.heap.blocks[b]?.bind (·.pointee) = some o := by rw [hx, Option.bind_some, ho]
  obtain ⟨as, has, -⟩ := agenda_releaseOwner
    (m := m.mapEnv fun e => { e with agenda := rest }) last hbind
  obtain ⟨k, _, v⟩ := p
  cases hp
  refine ⟨o, as, ?_, ?_⟩
  · simp only [starts?, ha, Stake.starts?, Option.bind_some, last, hbind, ↓reduceIte]
  · rw [step_eq_perform (next?_of_agenda ha)]
    exact has

/-! ## Runs -/

section Run

variable {run : Nat → Machine} {i j k n : Nat}

theorem givesUp?_eq_some_iff : m.givesUp? = some b ↔
    ∃ rest, m.env.agenda = .giveUpImplicit b :: rest := by
  rw [givesUp?]
  split
  · next c rest hagenda => simp [hagenda, eq_comm]
  · next hne =>
    simp only [reduceCtorEq, false_iff, not_exists]
    exact fun rest ha => hne b rest ha

theorem IsRationed.step_giveUpImplicit (hr : IsRationed run) (h : (run j).Disposing b x)
    (ha : (run j).env.agenda = .giveUpImplicit b :: rest) :
    (run (j + 1)).env.agenda = rest ∧ (run (j + 1)).heap.blocks[b]? =
      some { x with
        implicitWeak := false, weak := (run j).weaks b, freed := (run j).weaks b == 0 } := by
  obtain ⟨limits, hnext⟩ := hr.next j
  rw [hnext]
  exact Machine.step_giveUpImplicit (m := (run j).ration limits) h.block h.unfreed h.weak ha

/-- The implicit reference is not there when it has been given up. -/
theorem IsRationed.implicitWeak_of_givesUp? (hr : IsRationed run) (h : (run k).givesUp? = some b)
    (hkn : k < n) : ∃ x, (run n).heap.blocks[b]? = some x ∧ x.implicitWeak = false := by
  obtain ⟨rest, ha⟩ := givesUp?_eq_some_iff.mp h
  obtain ⟨x, hx⟩ := exists_disposing (b := b) (hr.sound k) (by simp [ha])
  obtain ⟨y, hy, hxy⟩ := hr.becomes (hr.step_giveUpImplicit hx ha).2 hkn
  exact ⟨y, hy, hxy.implicitWeak rfl⟩

/-- Once the last strong pointer has been dropped there is none to be dropped. -/
theorem IsRationed.not_dropsLast_of_lt {rest' : List Action} (hr : IsRationed run)
    (h : (run i).DropsLast b rest) (hin : i < n) : ¬ (run n).DropsLast b rest' := by
  obtain ⟨limits, hnext⟩ := hr.next i
  have hlast : ((run i).ration limits).DropsLast b rest := ⟨h.agenda, h.last⟩
  obtain ⟨o, as, -, has⟩ := hlast.step ((hr.sound i).ration limits)
  rw [← hnext] at has
  obtain ⟨x, hx⟩ := exists_disposing (b := b) (hr.sound (i + 1)) (by simp [has])
  obtain ⟨y, hy, hxy⟩ := hr.becomes hx.block hin
  intro h'
  have hone := h'.last
  rw [Heap.strongCount_eq hy, hxy.strong hx.strong] at hone
  cases hone

/-- Nor is the implicit reference given up a second time. -/
theorem IsRationed.not_givesUp?_of_lt (hr : IsRationed run) (h : (run i).givesUp? = some b)
    (hin : i < n) : (run n).givesUp? ≠ some b := by
  intro h'
  obtain ⟨rest, ha⟩ := givesUp?_eq_some_iff.mp h'
  obtain ⟨x, hx⟩ := exists_disposing (b := b) (hr.sound n) (by simp [ha])
  obtain ⟨y, hy, hi⟩ := hr.implicitWeak_of_givesUp? h hin
  rw [hx.block] at hy
  cases hy
  rw [hx.implicitWeak] at hi
  cases hi

/-- What does not happen again happens once. -/
theorem eq_of_not_later {P : Nat → Prop} (h : ∀ i n, P i → i < n → ¬ P n) (hi : P i) (hn : P n) :
    n = i := by
  rcases Nat.lt_trichotomy n i with hlt | heq | hlt
  · exact absurd hi (h n i hn hlt)
  · exact heq
  · exact absurd hn (h i n hi hlt)

/-- A block that a step frees is freed from then on. -/
theorem IsRationed.freed_of_frees? (hr : IsRationed run) (h : (run k).frees? = some b)
    (hkn : k < n) : ∃ x, (run n).heap.blocks[b]? = some x ∧ x.freed = true := by
  obtain ⟨l, -, hl⟩ := Option.bind_eq_some_iff.mp ((frees?_eq (run k)).symm.trans h)
  have hcount := (Stake.block?_of_frees? hl).2
  cases hx : (run k).heap.blocks[b]? with
  | none =>
    rw [Heap.weakCount, hx] at hcount
    cases hcount
  | some x =>
    obtain ⟨limits, hnext⟩ := hr.next k
    obtain ⟨y, hy, hfreed⟩ :=
      ((hr.grounded k).ration limits).step_freed (hr.counted k) (x := x) hx
    rw [← hnext] at hy
    obtain ⟨z, hz, hyz⟩ := hr.becomes hy hkn
    exact ⟨z, hz, hyz.freed (hfreed.mpr (.inr h))⟩

/-- From the release on, the destructor and all that it leads to comes first. At its end the
pointee is gone, and the implicit reference is due. -/
theorem IsRationed.exists_over (hr : IsRationed run) (h : (run i).DropsLast b rest) :
    ∃ o j, (run i).starts? = some o ∧ i < j ∧
      (∀ k, i < k → k < j → (run k).heap.phase? o = some .dying ∧
        ∃ a as, (run k).env.agenda = a :: (as ++ .giveUpImplicit b :: rest)) ∧
      (run j).heap.phase? o = some .gone ∧ (run j).env.agenda = .giveUpImplicit b :: rest := by
  obtain ⟨limits, hnext⟩ := hr.next i
  have hlast : ((run i).ration limits).DropsLast b rest := ⟨h.agenda, h.last⟩
  obtain ⟨o, as, hstarts, has⟩ := hlast.step ((hr.sound i).ration limits)
  rw [← hnext] at has
  -- the memory of the pointee is returned at moment `l`
  obtain ⟨l, hl, hreclaim, -, hfront⟩ := hr.sequel.reaches has
  have hdying (k : Nat) (hk : .reclaim o ∈ (run k).env.agenda) :
      (run k).heap.phase? o = some .dying :=
    (hr.owned k).dying (hr.grounded k).scope (tally_pos (destruction_mem_stakes_iff.mpr hk) rfl)
  refine ⟨o, l + 1, hstarts, by omega, fun k hik hkl => ?_, ?_⟩
  · rcases Nat.lt_or_eq_of_le (Nat.le_of_lt_succ hkl) with hkl | rfl
    · obtain ⟨a, bs, hk⟩ := hfront k hik hkl
      exact ⟨hdying k (by simp [hk]), a, bs ++ [.reclaim o], by simp [hk]⟩
    · exact ⟨hdying k (by simp [hreclaim]), .reclaim o, [], hreclaim⟩
  · obtain ⟨limits', hnext'⟩ := hr.sequel.exists_perform hreclaim
    have hbefore : ((run l).ration limits').heap.phase? o = some .dying :=
      hdying l (by simp [hreclaim])
    have hphase := Heap.phase?_modify_self (h := ((run l).ration limits').heap) (p := .gone)
      (Heap.objects_endDestruction (o := o)) fun _ => rfl
    rw [hbefore] at hphase
    rw [hnext']
    exact ⟨hphase, rfl⟩

/-- The last strong pointer to block `b` is dropped at moment `i`, where `rest` is to be done after
it. The disposal of its pointee, `o`, is over at moment `j`. -/
structure Reenters (run : Nat → Machine) (i : Nat) (b : BlockId) (rest : List Action)
    (o : ObjectId) (j : Nat) : Prop where
  starts : (run i).starts? = some o
  later : i < j
  /-- All that the destructor leads to is done first. -/
  inside : ∀ k, i < k → k < j → (run k).heap.phase? o = some .dying ∧
    ∃ a as, (run k).env.agenda = a :: (as ++ .giveUpImplicit b :: rest)
  ended : (run j).heap.phase? o = some .gone ∧ (run j).env.agenda = .giveUpImplicit b :: rest
  disposing : ∀ k, i < k → k ≤ j → ∃ x, (run k).Disposing b x
  /-- No other release is the last one. -/
  single : ∀ k rest', (run k).DropsLast b rest' → k = i
  unfreed : ∀ k < j, (run k).frees? ≠ some b
  /-- The implicit reference is given up once. -/
  once : ∀ k, (run k).givesUp? = some b ↔ k = j
  /-- The step that gives it up frees the block if no weak pointer is left. -/
  frees : (run j).frees? = some b ↔ (run j).weaks b = 0
  after : (run (j + 1)).env.agenda = rest ∧
    ∃ x, (run (j + 1)).heap.blocks[b]? = some x ∧ x.strong = 0 ∧ x.implicitWeak = false ∧
      x.weak = (run j).weaks b ∧ (x.freed = true ↔ (run j).weaks b = 0) ∧
      (x.serial, .block x.kind.isSized) ∈ ((run (j + 1)).heap.ledger x.alloc).entries !x.freed

/-- The release of the last strong pointer comes to its end, and the block is as it should be until
then, whatever the destructor does and the allocators refuse. -/
theorem IsRationed.reenters (hr : IsRationed run) (h : (run i).DropsLast b rest) :
    ∃ o j, Reenters run i b rest o j := by
  obtain ⟨o, j, hstarts, hlater, hinside, hgone, hover⟩ := hr.exists_over h
  have hdue (k : Nat) (hik : i < k) (hkj : k ≤ j) : .giveUpImplicit b ∈ (run k).env.agenda := by
    rcases Nat.lt_or_eq_of_le hkj with hkj | rfl
    · obtain ⟨-, a, as, hk⟩ := hinside k hik hkj
      simp [hk]
    · simp [hover]
  obtain ⟨x, hx⟩ := exists_disposing (hr.sound j) (hdue j hlater (Nat.le_refl j))
  have hend := hr.step_giveUpImplicit hx hover
  have hgives : (run j).givesUp? = some b := givesUp?_eq_some_iff.mpr ⟨rest, hover⟩
  refine ⟨o, j, ?_⟩
  constructor
  case starts => exact hstarts
  case later => exact hlater
  case inside => exact hinside
  case ended => exact ⟨hgone, hover⟩
  case disposing => exact fun k hik hkj => exists_disposing (hr.sound k) (hdue k hik hkj)
  case single =>
    intro k rest' hk
    refine eq_of_not_later (P := fun n => ∃ rest, (run n).DropsLast b rest) ?_ ⟨rest, h⟩ ⟨rest', hk⟩
    rintro i n ⟨_, hi⟩ hin ⟨_, hn⟩
    exact hr.not_dropsLast_of_lt hi hin hn
  case unfreed =>
    intro k hk hfrees
    obtain ⟨y, hy, hfreed⟩ := hr.freed_of_frees? hfrees hk
    rw [hx.block] at hy
    cases hy
    rw [hx.unfreed] at hfreed
    cases hfreed
  case once =>
    refine fun k => ⟨fun hk => ?_, fun hk => hk ▸ hgives⟩
    exact eq_of_not_later (P := fun n => (run n).givesUp? = some b)
      (fun _ _ hi hin => hr.not_givesUp?_of_lt hi hin) hgives hk
  case frees => exact hx.frees?_iff hover
  case after =>
    refine ⟨hend.1, _, hend.2, hx.strong, rfl, rfl, beq_iff_eq, ?_⟩
    exact (hr.sound (j + 1)).booked.block hend.2

end Run

/-- A node whose destructor tries to lock a weak pointer to its own block, keeps another one, is
refused a block, and drops a node that does the like. -/
def reentering : List Step :=
  [.new .node (.node ⟨1, 0, .ofString "", []⟩
      [.lock ⟨true, [], "self"⟩ ⟨false, [], "b"⟩, .clone ⟨true, [], "self"⟩ ⟨false, [], "kept"⟩,
        .budget (some 0), .new .int (.int 5) .arena ⟨false, [], "c"⟩, .drop ⟨true, [], "other"⟩])
      .global ⟨false, [], "a"⟩,
    .downgrade ⟨false, [], "a"⟩ ⟨false, ["a"], "self"⟩,
    .new .node (.node ⟨2, 0, .ofString "", []⟩ [.lock ⟨true, [], "back"⟩ ⟨false, [], "d"⟩])
      .global ⟨false, ["a"], "other"⟩,
    .downgrade ⟨false, [], "a"⟩ ⟨false, ["a", "other"], "back"⟩,
    .drop ⟨false, [], "a"⟩]

theorem reenters_reentering :
    ∃ rest, (moment reentering false 15).DropsLast 0 rest ∧
      ∃ o j, Reenters (moment reentering false) 15 0 rest o j :=
  ⟨_, ⟨⟨_, rfl, rfl⟩, rfl⟩, IsRationed.reenters (isRationed_moment _ _) ⟨⟨_, rfl, rfl⟩, rfl⟩⟩

end Custody.Machine
