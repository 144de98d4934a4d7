import Custody.Proofs.Disposal
import Custody.Proofs.Faults

/-!
# Freed blocks

* `Machine.frees?`: the block that the next action frees. `Machine.Reachable.step_freed`: no other
  one is freed.
* `Machine.Faultless`, `Machine.IsRationed.faultless`: no use is a fault, a block stays for as long
  as anything refers to it, and it is freed once, when its pointee is gone and the pointee's memory
  has been given back.
-/

namespace Custody

/-- The block that is freed when the stake is given up. -/
def Stake.frees? (h : Heap) : Stake → Option BlockId
  | pointer (.weak w) => w.block.bind fun b => if h.weakCount b = 1 then some b else none
  | disposal b => if h.weakCount b = 1 then some b else none
  | _ => none

section

variable {h : Heap} {K : Multiset Stake} {k : Stake} {b : BlockId} {x : Block}

/-- What frees a block is on the block, and holds its last weak reference. -/
theorem Stake.block?_of_frees? (hk : k.frees? h = some b) :
    k.block? = some b ∧ h.weakCount b = 1 := by
  match k with
  | .pointer (.weak w) =>
    obtain ⟨c, hc, hb⟩ := Option.bind_eq_some_iff.mp hk
    split at hb
    · next last =>
      cases hb
      exact ⟨hc, last⟩
    · cases hb
  | .disposal c =>
    simp only [frees?] at hk
    split at hk
    · next last =>
      cases hk
      exact ⟨rfl, last⟩
    · cases hk
  | .pointer (.strong _) | .pointer (.unique _) | .pointer (.raw _) | .destruction _ => cases hk

/-- A block is freed by the loss that is said to free it. -/
theorem Loss.freed {t : Scene} (hl : Loss h K k t) (hx : h.blocks[b]? = some x) :
    ∃ y, t.1.blocks[b]? = some y ∧ (y.freed = true ↔ x.freed = true ∨ k.frees? h = some b) := by
  have hsame (hk : k.frees? h ≠ some b) :
      x.freed = true ↔ x.freed = true ∨ k.frees? h = some b := by
    simp [hk]
  have hmodify {h' : Heap} {c : BlockId} {f : Block → Block}
      (hb : h'.blocks = h.blocks.modify c f)
      (hself : c = b → ((f x).freed = true ↔ x.freed = true ∨ k.frees? h = some b))
      (hother : c ≠ b → k.frees? h ≠ some b) :
      ∃ y, h'.blocks[b]? = some y ∧ (y.freed = true ↔ x.freed = true ∨ k.frees? h = some b) :=
    getElem?_of_modify (R := fun x y => y.freed = true ↔ x.freed = true ∨ k.frees? h = some b)
      hb hx hself fun hne => hsame (hother hne)
  cases hl with
  | @free y hy =>
    refine ⟨x, hx, hsame fun hk => ?_⟩
    have hb := (Stake.block?_of_frees? hk).1
    rw [Stake.block?, hy.block?] at hb
    cases hb
  | leak => exact ⟨x, hx, hsame nofun⟩
  | release => exact hmodify Heap.blocks_releaseStrong (fun _ => hsame nofun) fun _ => nofun
  | dispose =>
    rw [Heap.blocks_beginDestruction]
    exact hmodify Heap.blocks_takePointee_releaseStrong (fun _ => hsame nofun) fun _ => nofun
  | disposeNothing =>
    exact hmodify Heap.blocks_takePointee_releaseStrong (fun _ => hsame nofun) fun _ => nofun
  | destroy => exact ⟨x, by rwa [Heap.blocks_beginDestruction], hsame nofun⟩
  | reclaim => exact ⟨x, by rwa [Heap.blocks_endDestruction], hsame nofun⟩
  | @unobserve w c hb =>
    refine hmodify Heap.blocks_releaseWeak (fun heq => ?_) fun hne => ?_
    · subst heq
      simp [Stake.frees?, hb, Heap.weakCount_eq hx]
    · simp [Stake.frees?, hb, hne]
  | @giveUp c =>
    refine hmodify (Heap.blocks_giveUpImplicit (h := h) (b := c)) (fun heq => ?_) fun hne => ?_
    · subst heq
      simp [Stake.frees?, Heap.weakCount_eq hx]
    · simp [Stake.frees?, hne]

end

namespace Machine

variable {m : Machine} {b : BlockId} {o : ObjectId} {x : Block}

/-- The block that the next action frees. -/
def frees? (m : Machine) : Option BlockId :=
  match m.env.agenda with
  | .drop x :: _ => (Stake.pointer x).frees? m.heap
  | .giveUpImplicit b :: _ => (Stake.disposal b).frees? m.heap
  | _ => none

theorem frees?_eq (m : Machine) : m.frees? = m.lost?.bind (·.frees? m.heap) := by
  unfold frees? lost?
  cases m.env.agenda with
  | nil => rfl
  | cons a rest => cases a <;> rfl

/-- Of the blocks that are there, a step frees the one that it gives up the last reference to. -/
theorem Grounded.step_freed (hm : m.Grounded) (hcounted : Counted m.scene)
    (hx : m.heap.blocks[b]? = some x) :
    ∃ y, m.step.heap.blocks[b]? = some y ∧
      (y.freed = true ↔ x.freed = true ∨ m.frees? = some b) := by
  have hscope := hm.scope
  rw [frees?_eq]
  rcases hm.step_cases with ⟨hlost, hst⟩ | ⟨k, K, s, hlost, hscene, hl, hst⟩
  · obtain ⟨z, hz, hxz⟩ := hst.keeps hscope hcounted hx
    refine ⟨z, hz, ?_⟩
    rw [hxz.sameFreed, hlost]
    simp
  · rw [hscene] at hscope hcounted
    obtain ⟨y, hy, hxy⟩ := hl.freed hx
    obtain ⟨z, hz, hyz⟩ := hst.keeps (hl.scoped hscope) (hl.counted hcounted) hy
    refine ⟨z, hz, ?_⟩
    rw [hyz.sameFreed, hxy, hlost]
    rfl

theorem Reachable.step_freed (hm : m.Reachable) (hx : m.heap.blocks[b]? = some x) :
    ∃ y, m.step.heap.blocks[b]? = some y ∧
      (y.freed = true ↔ x.freed = true ∨ m.frees? = some b) :=
  hm.grounded.step_freed hm.counted hx

/-- A block that is freed has one reference left, and that is a weak one. -/
theorem Reachable.block_of_frees? (hm : m.Reachable) (h : m.frees? = some b) :
    ∃ x, m.heap.blocks[b]? = some x ∧ x.freed = false ∧ x.weak = 1 ∧ x.strong = 0 := by
  rw [frees?_eq, Option.bind_eq_some_iff] at h
  obtain ⟨k, hlost, hk⟩ := h
  have hmem : k ∈ m.stakes := by
    rcases hm.grounded.step_cases with ⟨hnone, -⟩ | ⟨l, K, s, hlost', hscene, -⟩
    · rw [hnone] at hlost
      cases hlost
    · rw [hlost'] at hlost
      cases hlost
      have hstakes : m.stakes = k ::ₘ K := congrArg Prod.snd hscene
      rw [hstakes]
      exact Multiset.mem_cons_self k K
  obtain ⟨hb, hcount⟩ := Stake.block?_of_frees? hk
  obtain ⟨x, hx, hf, hagree⟩ := hm.sound.block hmem hb
  have hweak : x.weak = 1 := (Heap.weakCount_eq hx).symm.trans hcount
  refine ⟨x, hx, hf, hweak, ?_⟩
  match k with
  | .pointer (.weak w) => exact (hagree.observed hmem hb).2 hweak
  | .disposal c =>
    cases hb
    exact (hagree.disposing hmem).2
  | .pointer (.strong _) | .pointer (.unique _) | .pointer (.raw _) | .destruction _ => cases hk

/-- What was its pointee is gone. -/
theorem Reachable.gone_of_frees? (hm : m.Reachable) (hc : m.Course b o) (h : m.frees? = some b) :
    m.heap.phase? o = some .gone := by
  obtain ⟨x, hx, hf, hweak, hstrong⟩ := hm.block_of_frees? h
  obtain ⟨y, hy, hfreed⟩ := hm.step_freed hx
  have hgone : m.step.heap.phase? o = some .gone := by
    refine hm.step.gone_of_implicitWeak (hm.step_course hc) hy ?_
    exact (hm.step.counted b y hy).implicitWeak_of_freed (hfreed.mpr (.inr h))
  cases hc with
  | owned hz ho =>
    rw [hx] at hz
    cases hz
    have := (hm.counted b x hx).pointee.mp (by simp [ho])
    exact absurd hstrong this
  | @dying before after ha =>
    cases before with
    | nil =>
      unfold frees? at h
      rw [ha] at h
      cases h
    | cons a before =>
      obtain ⟨as, has⟩ := hm.step_agenda ha
      rw [hm.step.dying_of_reclaim (by simp [has])] at hgone
      cases hgone
  | reclaimed hp => exact hp
  | ended hp => exact hp

/-! ## Runs -/

section Run

variable {run : Nat → Machine} {i j n : Nat}

/-- A block is freed once it has been, and not before. -/
theorem IsRationed.freed_iff (hr : IsRationed run) (hx : (run n).heap.blocks[b]? = some x) :
    x.freed = true ↔ ∃ i < n, (run i).frees? = some b := by
  induction n generalizing x with
  | zero =>
    rw [hr.heap_zero] at hx
    cases hx
  | succ n ih =>
    obtain ⟨limits, hnext⟩ := hr.next n
    have hm := (hr.reachable n).ration limits
    cases hw : (run n).heap.blocks[b]? with
    | some w =>
      obtain ⟨y, hy, hfreed⟩ := hm.step_freed hw
      have hfreed : y.freed = true ↔ w.freed = true ∨ (run n).frees? = some b := hfreed
      rw [← hnext, hx] at hy
      cases hy
      rw [hfreed, ih hw]
      simp only [Nat.lt_succ_iff_lt_or_eq, or_and_right, exists_or, exists_eq_left]
    | none =>
      have hagree := (hr.reachable (n + 1)).counted b x hx
      have hborn := hm.step_born hw (hnext ▸ hx)
      have hf := hagree.unfreed (hagree.weak_of_strong (Nat.pos_of_ne_zero hborn))
      simp only [hf, Bool.false_eq_true, false_iff, not_exists, not_and]
      intro i hi h
      obtain ⟨y, hy, -⟩ := (hr.reachable i).block_of_frees? h
      obtain ⟨z, hz, -⟩ := hr.becomes hy (Nat.le_of_lt_succ hi)
      rw [hw] at hz
      cases hz

/-- A block is freed at most once. -/
theorem IsRationed.frees_once (hr : IsRationed run) (hi : (run i).frees? = some b)
    (hj : (run j).frees? = some b) : i = j := by
  have hlt {i j : Nat} (hi : (run i).frees? = some b) (hj : (run j).frees? = some b) :
      ¬ i < j := by
    intro h
    obtain ⟨x, hx, hf, -⟩ := (hr.reachable j).block_of_frees? hj
    rw [(hr.freed_iff hx).mpr ⟨i, h, hi⟩] at hf
    cases hf
  exact Nat.le_antisymm (Nat.le_of_not_lt (hlt hj hi)) (Nat.le_of_not_lt (hlt hi hj))

end Run

/-- What is true of faults and of freed blocks in a run. -/
structure Faultless (run : Nat → Machine) : Prop where
  /-- No call touches a freed block, takes from a counter that is zero, adds an owner to an expired
  block or disposes of a pointee twice. -/
  breaches : ∀ n, (run n).heap.breaches = []
  /-- Nothing refers to a block that is not there or is freed. -/
  pointers : ∀ n p b, p ∈ (run n).pointers → p.block? = some b →
    ∃ x, (run n).heap.blocks[b]? = some x ∧ x.freed = false
  unfreed : ∀ n b x, (run n).heap.blocks[b]? = some x → (x.freed = false ↔
    0 < (run n).strongs b ∨ 0 < (run n).weaks b ∨ .giveUpImplicit b ∈ (run n).env.agenda)
  /-- A disposal goes on from the start of the pointee's destructor until, with the pointee gone,
  the implicit reference is given up. -/
  disposing : ∀ i n b x o, i ≤ n → (run i).heap.blocks[b]? = some x → x.pointee = some o →
    (.giveUpImplicit b ∈ (run n).env.agenda ↔ (run n).heap.phase? o = some .dying ∨
      (run n).heap.phase? o = some .gone ∧ ∃ rest, (run n).env.agenda = .giveUpImplicit b :: rest)
  /-- The memory of a block is out until the block is freed, and has been given back then. -/
  memory : ∀ (n : Nat) (b : BlockId) (x : Block), (run n).heap.blocks[b]? = some x →
    (x.serial, .block x.kind.isSized) ∈ ((run n).heap.ledger x.alloc).entries !x.freed
  frees : ∀ n b x, (run n).heap.blocks[b]? = some x →
    (x.freed = true ↔ ∃ i < n, (run i).frees? = some b)
  once : ∀ i j b, (run i).frees? = some b → (run j).frees? = some b → i = j
  /-- What is freed has no strong owner and no weak reference but the one that goes. -/
  last : ∀ n b, (run n).frees? = some b →
    ∃ x, (run n).heap.blocks[b]? = some x ∧ x.freed = false ∧ x.weak = 1 ∧ x.strong = 0
  /-- Its pointee is gone then, and the pointee's memory has been given back. -/
  disposed : ∀ i n b x o, i ≤ n → (run i).heap.blocks[b]? = some x → x.pointee = some o →
    (run n).frees? = some b → ∃ y, (run n).heap.objects[o]? = some y ∧ y.phase = .gone ∧
      ∀ serial, y.serial = some serial →
        (serial, y.content.layout) ∈ ((run n).heap.ledger y.alloc).entries false

/-- No fault is reachable, and blocks are freed in time and once. -/
theorem IsRationed.faultless {run : Nat → Machine} (hr : IsRationed run) : Faultless run where
  breaches n := (hr.reachable n).breaches
  pointers n p b hp hb := by
    obtain ⟨x, hx, hf, -⟩ := (hr.reachable n).sound.block (pointer_mem_stakes_iff.mpr hp) hb
    exact ⟨x, hx, hf⟩
  unfreed n b x hx := by
    have hm := hr.reachable n
    rw [← or_assoc, or_right_comm, ← hm.implicitWeak_iff hx]
    rw [← Bool.not_eq_true, (hm.counted b x hx).freed, hm.weak_eq hx]
    cases x.implicitWeak <;> simp
  disposing i n b x o hi hx ho := by
    have hm := hr.reachable n
    have hc := hr.course hx ho hi
    obtain ⟨y, hy, -⟩ := hr.becomes hx hi
    constructor
    · exact hm.dying_of_due hc hy
    · rintro (hp | ⟨-, rest, ha⟩)
      · exact hm.due_of_dying hc hp
      · simp [ha]
  memory n b x hx := (hr.reachable n).sound.booked.block hx
  frees n b x hx := hr.freed_iff hx
  once i j b hi hj := hr.frees_once hi hj
  last n b h := (hr.reachable n).block_of_frees? h
  disposed i n b x o hi hx ho h := by
    have hm := hr.reachable n
    have hp := hm.gone_of_frees? (hr.course hx ho hi) h
    obtain ⟨y, hy, hphase⟩ := Option.map_eq_some_iff.mp hp
    refine ⟨y, hy, hphase, fun serial hs => ?_⟩
    have hentry := hm.sound.booked.object hy hs
    rw [hphase] at hentry
    exact hentry

/-- The last weak pointer to the block goes before the implicit reference does. -/
theorem faultless_selfObserving :
    (moment selfObserving false 19).frees? = some 0 ∧ Faultless (moment selfObserving false) :=
  ⟨by decide, IsRationed.faultless (isRationed_moment _ _)⟩

end Machine

end Custody
