import Custody.Proofs.Counting

/-!
# The life of a block

* `Block.Gains`, `Block.Loses`: what a change and a loss do to a block that is there.
* `Block.Becomes`: what a block can be later. Nothing strong comes back, and neither does a
  pointee or the implicit reference.
-/

namespace Custody

variable {Y : Option Place}

/-- The object whose destructor starts when the stake is given up: that of a unique pointer, or
the pointee of a block that loses its last strong owner. -/
def Stake.starts? (h : Heap) : Stake → Option ObjectId
  | pointer (.unique u) => u.object
  | pointer (.strong p) =>
    p.block.bind fun b => if h.strongCount b = 1 then h.blocks[b]?.bind (·.pointee) else none
  | _ => none

namespace Block

/-- References are added, and no strong one to a block that has none. -/
inductive Gains : Block → Block → Prop
  | nothing {x} : Gains x x
  | strong {x} (alive : x.strong ≠ 0) : Gains x { x with strong := x.strong + 1 }
  | weak {x} : Gains x { x with weak := x.weak + 1 }

/-- What a block loses when destructors `start` and the implicit reference is given up if
`given`. -/
inductive Loses (start : Option ObjectId) (given : Prop) : Block → Block → Prop
  | nothing {x} : Loses start given x x
  | strong {x} (others : x.strong ≠ 1) : Loses start given x { x with strong := x.strong - 1 }
  | pointee {x} (last : x.strong = 1) (ho : x.pointee = start) :
      Loses start given x { x with strong := x.strong - 1, pointee := none }
  | weak {x} :
      Loses start given x { x with weak := x.weak - 1, freed := x.freed || x.weak == 1 }
  | implicit {x} (hg : given) : Loses start given x
      { x with implicitWeak := false, weak := x.weak - 1, freed := x.freed || x.weak == 1 }

end Block

section

variable {h h' : Heap} {K : Multiset Stake} {k : Stake} {b c : BlockId} {x y : Block}
  {f : Block → Block}

/-- Of the blocks one is changed, or none is. -/
theorem getElem?_of_modify {R : Block → Block → Prop} (hb : h'.blocks = h.blocks.modify c f)
    (hx : h.blocks[b]? = some x) (hself : c = b → R x (f x)) (hother : c ≠ b → R x x) :
    ∃ y, h'.blocks[b]? = some y ∧ R x y := by
  rw [hb, Array.getElem?_modify]
  split
  · next heq => exact ⟨f x, by rw [hx]; rfl, hself heq⟩
  · next hne => exact ⟨x, hx, hother hne⟩

/-- A change takes nothing from a block. -/
theorem Change.gains {s t : Scene} (hc : Change Y s t) (hs : Counted s)
    (hx : s.1.blocks[b]? = some x) : ∃ y, t.1.blocks[b]? = some y ∧ x.Gains y := by
  have hsame {h h' : Heap} (hb : h'.blocks = h.blocks) (hx : h.blocks[b]? = some x) :
      ∃ y, h'.blocks[b]? = some y ∧ x.Gains y := ⟨x, hb ▸ hx, .nothing⟩
  cases hc with
  | null | copy | forget | revise | release | adopt | setBudget | resetMetrics | remark =>
    exact ⟨x, hx, .nothing⟩
  | @share h K p q c hp hc hq =>
    refine getElem?_of_modify Heap.blocks_addStrong hx (fun heq => .strong ?_) fun _ => .nothing
    have : 0 < x.strong := (hs b x hx).strong ▸ tally_pos hp (heq ▸ hc)
    omega
  | observe => exact getElem?_of_modify Heap.blocks_addWeak hx (fun _ => .weak) fun _ => .nothing
  | lock hw hb alive =>
    refine getElem?_of_modify (Heap.blocks_addStrongIfAlive alive) hx (fun heq => .strong ?_)
      fun _ => .nothing
    subst heq
    rwa [Heap.strongCount_eq hx] at alive
  | refuseLock => exact hsame Heap.blocks_recordExpiredLock hx
  | construct _ hc =>
    obtain ⟨h₁, o, hc₁, -, rfl⟩ := Unique.construct_eq hc
    exact hsame (Heap.construct_eq hc₁).2.1 hx
  | copyIn _ hc => exact hsame (Heap.construct_eq hc).2.1 hx
  | promote hc =>
    obtain ⟨-, -, n, -, hb, -⟩ := Heap.createBlock_ok hc
    refine ⟨x, ?_, .nothing⟩
    obtain ⟨hlt, -⟩ := Array.getElem?_eq_some_iff.mp hx
    rw [hb, Array.getElem?_push, if_neg (Nat.ne_of_lt hlt)]
    exact hx
  | refuseBlock _ hc => exact hsame (Heap.createBlock_error hc).2.2.1 hx
  | write => exact hsame (Heap.blocks_write _ _) hx

/-- A loss takes one thing from one block. -/
theorem Loss.loses {t : Scene} (hl : Loss h K k t) (hx : h.blocks[b]? = some x) :
    ∃ y, t.1.blocks[b]? = some y ∧ x.Loses (k.starts? h) (k = .disposal b) y := by
  have hsame {h' : Heap} (hb : h'.blocks = h.blocks) :
      ∃ y, h'.blocks[b]? = some y ∧ x.Loses (k.starts? h) (k = .disposal b) y :=
    ⟨x, hb ▸ hx, .nothing⟩
  cases hl with
  | free | leak => exact ⟨x, hx, .nothing⟩
  | release hb others =>
    refine getElem?_of_modify Heap.blocks_releaseStrong hx (fun heq => .strong ?_) fun _ => .nothing
    subst heq
    rwa [Heap.strongCount_eq hx] at others
  | @dispose p c o hb last ho =>
    rw [Heap.blocks_beginDestruction]
    refine getElem?_of_modify Heap.blocks_takePointee_releaseStrong hx (fun heq => .pointee ?_ ?_)
      fun _ => .nothing
    all_goals subst heq
    · rwa [Heap.strongCount_eq hx] at last
    · simp [Stake.starts?, hb, last, hx]
  | @disposeNothing p c hb last ho =>
    refine getElem?_of_modify Heap.blocks_takePointee_releaseStrong hx (fun heq => .pointee ?_ ?_)
      fun _ => .nothing
    all_goals subst heq
    · rwa [Heap.strongCount_eq hx] at last
    · simp [Stake.starts?, hb, last, hx]
  | unobserve =>
    exact getElem?_of_modify Heap.blocks_releaseWeak hx (fun _ => .weak) fun _ => .nothing
  | destroy => exact hsame Heap.blocks_beginDestruction
  | reclaim => exact hsame Heap.blocks_endDestruction
  | @giveUp c =>
    have hb := Heap.blocks_giveUpImplicit (h := h) (b := c)
    exact getElem?_of_modify hb hx (fun heq => .implicit (heq ▸ rfl)) fun _ => .nothing

/-! ## New blocks -/

theorem getElem?_modify_eq_none (hb : h'.blocks = h.blocks.modify c f)
    (hnone : h.blocks[b]? = none) : h'.blocks[b]? = none := by
  rw [hb, Array.getElem?_modify, hnone]
  split <;> rfl

/-- A block that is new has been made of an object that a unique pointer owned. -/
theorem Change.made {s t : Scene} (hc : Change Y s t) (hnone : s.1.blocks[b]? = none)
    (hy : t.1.blocks[b]? = some y) : ∃ k a o, .pointer (.unique ⟨k, a, some o⟩) ∈ s.2 ∧
      s.1.createBlock k a o = (t.1, .ok b) ∧
      y = { id := s.1.newId, kind := k, alloc := a, serial := y.serial, pointee := some o } := by
  have hsame {h h' : Heap} {q : Prop} (hb : h'.blocks = h.blocks) (hnone : h.blocks[b]? = none)
      (hy : h'.blocks[b]? = some y) : q := by
    rw [hb, hnone] at hy
    cases hy
  have hmodify {h h' : Heap} {c : BlockId} {f : Block → Block} {q : Prop}
      (hb : h'.blocks = h.blocks.modify c f) (hnone : h.blocks[b]? = none)
      (hy : h'.blocks[b]? = some y) : q := by
    rw [getElem?_modify_eq_none hb hnone] at hy
    cases hy
  cases hc with
  | null | copy | forget | revise | release | adopt | setBudget | resetMetrics | remark =>
    exact hsame rfl hnone hy
  | share => exact hmodify Heap.blocks_addStrong hnone hy
  | observe => exact hmodify Heap.blocks_addWeak hnone hy
  | lock _ _ alive => exact hmodify (Heap.blocks_addStrongIfAlive alive) hnone hy
  | refuseLock => exact hsame Heap.blocks_recordExpiredLock hnone hy
  | construct _ hc =>
    obtain ⟨h₁, o, hc₁, -, rfl⟩ := Unique.construct_eq hc
    exact hsame (Heap.construct_eq hc₁).2.1 hnone hy
  | copyIn _ hc => exact hsame (Heap.construct_eq hc).2.1 hnone hy
  | @promote h K k a o h' c hc =>
    obtain ⟨rfl, -, n, -, hb, -⟩ := Heap.createBlock_ok hc
    dsimp only at hy hnone
    rw [hb, Array.getElem?_push, hnone] at hy
    split at hy
    · next heq =>
      subst heq
      cases hy
      exact ⟨k, a, o, Multiset.mem_cons_self _ _, hc, rfl⟩
    · cases hy
  | refuseBlock _ hc => exact hsame (Heap.createBlock_error hc).2.2.1 hnone hy
  | write => exact hsame (Heap.blocks_write _ _) hnone hy

/-- It has a strong owner. -/
theorem Change.born {s t : Scene} (hc : Change Y s t) (hnone : s.1.blocks[b]? = none)
    (hy : t.1.blocks[b]? = some y) : y.strong ≠ 0 := by
  obtain ⟨k, a, o, -, -, heq⟩ := hc.made hnone hy
  rw [heq]
  exact Nat.succ_ne_zero 0

/-- A loss makes no block. -/
theorem Loss.unborn {t : Scene} (hl : Loss h K k t) (hnone : h.blocks[b]? = none) :
    t.1.blocks[b]? = none := by
  cases hl with
  | free | leak => exact hnone
  | release => exact getElem?_modify_eq_none Heap.blocks_releaseStrong hnone
  | dispose =>
    rw [Heap.blocks_beginDestruction]
    exact getElem?_modify_eq_none Heap.blocks_takePointee_releaseStrong hnone
  | disposeNothing => exact getElem?_modify_eq_none Heap.blocks_takePointee_releaseStrong hnone
  | unobserve => exact getElem?_modify_eq_none Heap.blocks_releaseWeak hnone
  | destroy => rwa [Heap.blocks_beginDestruction]
  | reclaim => rwa [Heap.blocks_endDestruction]
  | @giveUp c => exact getElem?_modify_eq_none (Heap.blocks_giveUpImplicit (h := h) (b := c)) hnone

/-! ## Later -/

namespace Block

/-- What the second block is later, if the first one is it now. -/
structure Becomes (x y : Block) : Prop where
  id : y.id = x.id
  kind : y.kind = x.kind
  alloc : y.alloc = x.alloc
  serial : y.serial = x.serial
  pointee : y.pointee = x.pointee ∨ y.pointee = none
  strong : x.strong = 0 → y.strong = 0
  implicitWeak : x.implicitWeak = false → y.implicitWeak = false
  freed : x.freed = true → y.freed = true

/-- Nothing but references was added. -/
structure Keeps (x y : Block) : Prop extends Becomes x y where
  samePointee : y.pointee = x.pointee
  sameImplicit : y.implicitWeak = x.implicitWeak
  sameFreed : y.freed = x.freed
  strongLe : x.strong ≤ y.strong

theorem Becomes.refl (x : Block) : x.Becomes x :=
  ⟨rfl, rfl, rfl, rfl, .inl rfl, fun h => h, fun h => h, fun h => h⟩

theorem Becomes.trans {x y z : Block} (h : x.Becomes y) (h' : y.Becomes z) : x.Becomes z where
  id := h'.id.trans h.id
  kind := h'.kind.trans h.kind
  alloc := h'.alloc.trans h.alloc
  serial := h'.serial.trans h.serial
  pointee := by
    rcases h'.pointee with hp | hp
    · exact hp ▸ h.pointee
    · exact .inr hp
  strong hx := h'.strong (h.strong hx)
  implicitWeak hx := h'.implicitWeak (h.implicitWeak hx)
  freed hx := h'.freed (h.freed hx)

theorem Keeps.trans {x y z : Block} (h : x.Keeps y) (h' : y.Keeps z) : x.Keeps z where
  toBecomes := h.toBecomes.trans h'.toBecomes
  samePointee := h'.samePointee.trans h.samePointee
  sameImplicit := h'.sameImplicit.trans h.sameImplicit
  sameFreed := h'.sameFreed.trans h.sameFreed
  strongLe := h.strongLe.trans h'.strongLe

theorem Keeps.refl (x : Block) : x.Keeps x := ⟨.refl x, rfl, rfl, rfl, Nat.le_refl _⟩

theorem Gains.keeps (h : x.Gains y) : x.Keeps y := by
  cases h with
  | nothing => exact .refl x
  | strong alive =>
    exact ⟨⟨rfl, rfl, rfl, rfl, .inl rfl, fun h => absurd h alive, fun h => h, fun h => h⟩,
      rfl, rfl, rfl, Nat.le_succ _⟩
  | weak =>
    exact ⟨⟨rfl, rfl, rfl, rfl, .inl rfl, fun h => h, fun h => h, fun h => h⟩,
      rfl, rfl, rfl, Nat.le_refl _⟩

theorem Loses.becomes {start : Option ObjectId} {given : Prop} (h : x.Loses start given y) :
    x.Becomes y := by
  cases h with
  | nothing => exact .refl x
  | strong others =>
    refine ⟨rfl, rfl, rfl, rfl, .inl rfl, fun h => ?_, fun h => h, fun h => h⟩
    simp [h]
  | pointee last ho =>
    exact ⟨rfl, rfl, rfl, rfl, .inr rfl, fun h => by simp [h], fun h => h, fun h => h⟩
  | weak =>
    exact ⟨rfl, rfl, rfl, rfl, .inl rfl, fun h => h, fun h => h, fun h => by simp [h]⟩
  | implicit =>
    exact ⟨rfl, rfl, rfl, rfl, .inl rfl, fun h => h, fun _ => rfl, fun h => by simp [h]⟩

end Block

theorem Shift.keeps {s t : Scene} (hc : Shift Y s t) (hs : Counted s)
    (hx : s.1.blocks[b]? = some x) : ∃ y, t.1.blocks[b]? = some y ∧ x.Keeps y := by
  cases hc with
  | change hc =>
    obtain ⟨y, hy, hxy⟩ := hc.gains hs hx
    exact ⟨y, hy, hxy.keeps⟩
  | relink => exact ⟨x, hx, .refl x⟩

theorem Shifts.counted {s t : Scene} (hc : Shifts Y s t) (hscope : Scoped s) (hs : Counted s) :
    Counted t := by
  induction hc with
  | refl => exact hs
  | tail hst hc ih => exact hc.counted (Shifts.scoped hst hscope) ih

theorem Shifts.keeps {s t : Scene} (hc : Shifts Y s t) (hscope : Scoped s) (hs : Counted s)
    (hx : s.1.blocks[b]? = some x) : ∃ y, t.1.blocks[b]? = some y ∧ x.Keeps y := by
  induction hc with
  | refl => exact ⟨x, hx, .refl x⟩
  | tail hst hc ih =>
    obtain ⟨y, hy, hxy⟩ := ih
    obtain ⟨z, hz, hyz⟩ := hc.keeps (Shifts.counted hst hscope hs) hy
    exact ⟨z, hz, hxy.trans hyz⟩

/-- A block has an owner when it is made. -/
theorem Shifts.born {s t : Scene} (hc : Shifts Y s t) (hscope : Scoped s) (hs : Counted s)
    (hnone : s.1.blocks[b]? = none) (hy : t.1.blocks[b]? = some y) : y.strong ≠ 0 := by
  induction hc generalizing y with
  | refl =>
    rw [hnone] at hy
    cases hy
  | @tail u t hst hc ih =>
    cases hx : u.1.blocks[b]? with
    | some x =>
      obtain ⟨z, hz, hxz⟩ := hc.keeps (Shifts.counted hst hscope hs) hx
      rw [hy] at hz
      cases hz
      have := ih hx
      have := hxz.strongLe
      omega
    | none =>
      cases hc with
      | change hc => exact hc.born hx hy
      | relink => exact absurd (hx.symm.trans hy) (by simp)

namespace Machine

variable {m : Machine}

theorem Reachable.counted (hm : m.Reachable) : Counted m.scene :=
  hm.scene_induction counted_empty (fun _ hs => hs) (fun _ hs hl => hl.counted hs)
    fun hs ho hc => hc.counted hs ho

theorem IsRationed.counted {run : Nat → Machine} (hr : IsRationed run) (n : Nat) :
    Counted (run n).scene :=
  (hr.reachable n).counted

/-- The strong counter is the number of strong pointers. -/
theorem Reachable.strong_eq (hm : m.Reachable) (hx : m.heap.blocks[b]? = some x) :
    x.strong = m.strongs b :=
  (hm.counted b x hx).strong.trans (tally_strongOn? m b)

/-- The weak counter is the number of weak pointers, and the implicit reference. -/
theorem Reachable.weak_eq (hm : m.Reachable) (hx : m.heap.blocks[b]? = some x) :
    x.weak = m.weaks b + x.implicitWeak.toNat := by
  rw [(hm.counted b x hx).weak]
  congr 1
  exact tally_weakOn? m b

/-- The object whose destructor the next action starts. -/
def starts? (m : Machine) : Option ObjectId :=
  match m.env.agenda with
  | .drop x :: _ => (Stake.pointer x).starts? m.heap
  | _ => none

/-- The block whose disposal the next action ends. -/
def givesUp? (m : Machine) : Option BlockId :=
  match m.env.agenda with
  | .giveUpImplicit b :: _ => some b
  | _ => none

theorem starts?_eq (m : Machine) : m.starts? = m.lost?.bind (·.starts? m.heap) := by
  unfold starts? lost?
  cases m.env.agenda with
  | nil => rfl
  | cons a rest => cases a <;> rfl

theorem givesUp?_eq_some : m.givesUp? = some b ↔ m.lost? = some (.disposal b) := by
  unfold givesUp? lost?
  cases m.env.agenda with
  | nil => simp
  | cons a rest => cases a <;> simp [Action.loses?]

/-- A block after a step: it loses what the next action takes from it, then gains references. -/
theorem Grounded.step_block (hm : m.Grounded) (hcounted : Counted m.scene)
    (hx : m.heap.blocks[b]? = some x) :
    ∃ y z, x.Loses m.starts? (m.givesUp? = some b) y ∧ y.Keeps z ∧
      m.step.heap.blocks[b]? = some z := by
  have hscope := hm.scope
  rcases hm.step_cases with ⟨-, hst⟩ | ⟨k, K, s, hlost, hscene, hl, hst⟩
  · obtain ⟨z, hz, hxz⟩ := hst.keeps hscope hcounted hx
    exact ⟨x, z, .nothing, hxz, hz⟩
  · rw [hscene] at hscope hcounted
    obtain ⟨y, hy, hxy⟩ := hl.loses hx
    obtain ⟨z, hz, hyz⟩ := hst.keeps (hl.scoped hscope) (hl.counted hcounted) hy
    refine ⟨y, z, ?_, hyz, hz⟩
    rwa [starts?_eq, givesUp?_eq_some, hlost, Option.bind_some, Option.some_inj]

theorem Reachable.step_block (hm : m.Reachable) (hx : m.heap.blocks[b]? = some x) :
    ∃ y z, x.Loses m.starts? (m.givesUp? = some b) y ∧ y.Keeps z ∧
      m.step.heap.blocks[b]? = some z :=
  hm.grounded.step_block hm.counted hx

/-- A block that a step has made has a strong owner. -/
theorem Reachable.step_born (hm : m.Reachable) (hnone : m.heap.blocks[b]? = none)
    (hy : m.step.heap.blocks[b]? = some y) : y.strong ≠ 0 := by
  have hscope := hm.grounded.scope
  have hcounted := hm.counted
  rcases hm.grounded.step_cases with ⟨-, hst⟩ | ⟨k, K, s, -, hscene, hl, hst⟩
  · exact hst.born hscope hcounted hnone hy
  · rw [hscene] at hscope hcounted
    exact hst.born (hl.scoped hscope) (hl.counted hcounted) (hl.unborn hnone) hy

/-- A block is never taken away. -/
theorem IsRationed.becomes {run : Nat → Machine} {n n' : Nat} (hr : IsRationed run)
    (hx : (run n).heap.blocks[b]? = some x) (hn : n ≤ n') :
    ∃ y, (run n').heap.blocks[b]? = some y ∧ x.Becomes y := by
  induction n', hn using Nat.le_induction with
  | base => exact ⟨x, hx, .refl x⟩
  | succ n' _ ih =>
    obtain ⟨y, hy, hxy⟩ := ih
    obtain ⟨limits, hnext⟩ := hr.next n'
    obtain ⟨z, w, hyz, hzw, hw⟩ := ((hr.reachable n').ration limits).step_block hy
    exact ⟨w, hnext ▸ hw, hxy.trans (hyz.becomes.trans hzw.toBecomes)⟩

/-- A block was made once. -/
theorem IsRationed.born {run : Nat → Machine} {n : Nat} (hr : IsRationed run)
    (hx : (run n).heap.blocks[b]? = some x) :
    ∃ i < n, (run i).heap.blocks[b]? = none ∧
      ∃ y, (run (i + 1)).heap.blocks[b]? = some y ∧ y.strong ≠ 0 := by
  induction n generalizing x with
  | zero =>
    rw [hr.heap_zero] at hx
    cases hx
  | succ n ih =>
    cases hw : (run n).heap.blocks[b]? with
    | some w =>
      obtain ⟨i, hi, hborn⟩ := ih hw
      exact ⟨i, Nat.lt_succ_of_lt hi, hborn⟩
    | none =>
      refine ⟨n, Nat.lt_succ_self n, hw, x, hx, ?_⟩
      obtain ⟨limits, hnext⟩ := hr.next n
      exact ((hr.reachable n).ration limits).step_born hw (hnext ▸ hx)

end Machine

end

end Custody
