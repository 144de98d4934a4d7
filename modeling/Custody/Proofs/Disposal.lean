import Custody.Proofs.Standing

/-!
# The course of a disposal

* `Machine.Reachable.step_agenda`: the agenda is a stack.
* `Machine.Course`: what has become of an object that a block had as its pointee. It is destroyed,
  then its memory is returned, and then the implicit reference is given up.
* `Machine.IsRationed.course`: so it is at every later moment.
-/

namespace Custody

variable {b c : BlockId} {o : ObjectId} {x y : Block}

/-- An object that has one owner is not the pointee of two blocks. -/
theorem Heap.pointee_injective {h : Heap} (hle : h.managers o ≤ 1) (hx : h.blocks[b]? = some x)
    (hxo : x.pointee = some o) (hy : h.blocks[c]? = some y) (hyo : y.pointee = some o) : b = c := by
  by_contra hne
  let h' := h.updateBlock b fun x => { x with pointee := none }
  have hb : h'.blocks = h.blocks.modify b fun x => { x with pointee := none } := rfl
  have hcount := managers_modify hb hx o
  simp only [hxo, ↓reduceIte, reduceCtorEq] at hcount
  have hy' : h'.blocks[c]? = some y := by
    simp only [h', updateBlock, Array.getElem?_modify, if_neg hne, hy]
  have := managers_pos ⟨c, y, hy', hyo⟩
  omega

namespace Machine

variable {m : Machine} {a : Action} {rest : List Action}

/-- What is due later stays due. -/
theorem Reachable.step_agenda (hm : m.Reachable) (ha : m.env.agenda = a :: rest) :
    ∃ as, m.step.env.agenda = as ++ rest :=
  hm.grounded.step_agenda ha

/-- What has become of an object that the block had as its pointee. -/
inductive Course (m : Machine) (b : BlockId) (o : ObjectId) : Prop
  | owned {x : Block} (hx : m.heap.blocks[b]? = some x) (ho : x.pointee = some o)
  | dying {before after : List Action}
      (ha : m.env.agenda = before ++ .reclaim o :: .giveUpImplicit b :: after)
  | reclaimed {after : List Action} (hp : m.heap.phase? o = some .gone)
      (ha : m.env.agenda = .giveUpImplicit b :: after)
  | ended {x : Block} (hp : m.heap.phase? o = some .gone) (hx : m.heap.blocks[b]? = some x)
      (hi : x.implicitWeak = false)

theorem Course.ration (h : m.Course b o) (limits : Alloc → Option Nat) :
    (m.ration limits).Course b o := by
  cases h with
  | owned hx ho => exact .owned hx ho
  | dying ha => exact .dying ha
  | reclaimed hp ha => exact .reclaimed hp ha
  | ended hp hx hi => exact .ended hp hx hi

/-- What is gone stays gone. -/
theorem Reachable.step_gone (hm : m.Reachable) (hp : m.heap.phase? o = some .gone) :
    m.step.heap.phase? o = some .gone := by
  have hs : m.scene.1.phase? o = some .gone := hp
  rcases hm.grounded.step_known hp with ⟨hstarts, -⟩ | ⟨-, hat | hat | hat⟩
  · rw [hm.alive_of_starts? hstarts] at hp
    cases hp
  · exact hat.phase.trans hs
  · exact hat.phase.trans hs
  · exact hat.phase.trans (by rw [hs]; rfl)

theorem Reachable.dying_of_reclaim (hm : m.Reachable) (h : .reclaim o ∈ m.env.agenda) :
    m.heap.phase? o = some .dying := by
  have hmem : .destruction o ∈ m.stakes := destruction_mem_stakes_iff.mpr h
  exact hm.owned.dying hm.grounded.scope (tally_pos hmem rfl)

/-- The destructor of a block's pointee starts where the last strong pointer to the block is
dropped. -/
theorem Reachable.agenda_of_starts? (hm : m.Reachable) (hx : m.heap.blocks[b]? = some x)
    (ho : x.pointee = some o) (hs : m.starts? = some o) :
    ∃ k v rest, m.env.agenda = .drop (.strong ⟨k, some b, v⟩) :: rest ∧
      m.heap.strongCount b = 1 := by
  have hallows := hm.owned o .alive (hm.alive_of_starts? hs)
  have hle : m.heap.managers o ≤ 1 ∧ m.uniques o = 0 := by
    have := Heap.managers_pos ⟨b, x, hx, ho⟩
    rw [owners_scene] at hallows
    have := hallows.1
    omega
  unfold starts? at hs
  split at hs
  · next k rest hagenda =>
    match k with
    | .unique u =>
      have hmem : .pointer (.unique u) ∈ m.stakes := by
        refine pointer_mem_stakes_iff.mpr (List.mem_append_right _ ?_)
        rw [hagenda]
        exact List.mem_cons_self
      have := tally_pos hmem (f := Stake.owns?) hs
      rw [tally_owns?] at this
      omega
    | .strong ⟨kind, block, view⟩ =>
      obtain ⟨c, rfl, hc⟩ := Option.bind_eq_some_iff.mp hs
      split at hc
      · next last =>
        obtain ⟨y, hy, hyo⟩ := Option.bind_eq_some_iff.mp hc
        obtain rfl := Heap.pointee_injective hle.1 hx ho hy hyo
        exact ⟨kind, view, rest, hagenda, last⟩
      · cases hc
    | .weak _ | .raw _ => cases hs
  · cases hs

/-- The last owner of a block leaves the disposal of its pointee to be done. -/
theorem Reachable.course_of_starts? (hm : m.Reachable) (hx : m.heap.blocks[b]? = some x)
    (ho : x.pointee = some o) (hs : m.starts? = some o) : m.step.Course b o := by
  obtain ⟨k, v, rest, hagenda, last⟩ := hm.agenda_of_starts? hx ho hs
  have hbind : m.heap.blocks[b]?.bind (·.pointee) = some o := by rw [hx, Option.bind_some, ho]
  obtain ⟨as, has, -⟩ := agenda_releaseOwner
    (m := m.mapEnv fun e => { e with agenda := rest }) last hbind
  rw [step_eq_perform (next?_of_agenda hagenda)]
  exact .dying has

/-- A step takes a block and its pointee on in their course. -/
theorem Reachable.step_course (hm : m.Reachable) (h : m.Course b o) : m.step.Course b o := by
  cases h with
  | @owned x hx ho =>
    by_cases hs : m.starts? = some o
    · exact hm.course_of_starts? hx ho hs
    obtain ⟨y, z, hxy, hyz, hz⟩ := hm.step_block hx
    have hyo : y.pointee = some o := by
      cases hxy with
      | pointee _ hstarts => exact absurd (hstarts ▸ ho) hs
      | nothing | strong | weak | implicit => exact ho
    exact .owned hz (hyz.samePointee.trans hyo)
  | @dying before after ha =>
    cases before with
    | nil =>
      have hn := next?_of_agenda ha
      have hp := hm.dying_of_reclaim (o := o) (by simp [ha])
      rw [step_eq_perform hn]
      refine .reclaimed ?_ (rfl : _ = .giveUpImplicit b :: after)
      have hgone := Heap.phase?_modify_self (h := m.heap) (p := .gone)
        (Heap.objects_endDestruction (o := o)) fun _ => rfl
      rw [hp] at hgone
      exact hgone
    | cons a before =>
      obtain ⟨as, has⟩ := hm.step_agenda ha
      exact .dying (has.trans (List.append_assoc as before _).symm)
  | @reclaimed after hp ha =>
    have hn := next?_of_agenda ha
    have hmem : .disposal b ∈ m.stakes := disposal_mem_stakes_iff.mpr (by simp [ha])
    have hb : b < m.heap.blocks.size := hm.grounded.scope.stakes _ hmem
    have hgone := hm.step_gone hp
    rw [step_eq_perform hn] at hgone ⊢
    have hy := Heap.blocks_giveUpImplicit (h := m.heap) (b := b)
    have hb := Array.getElem?_eq_getElem hb
    have hy := congrArg (·[b]?) hy
    simp only [Array.getElem?_modify, ↓reduceIte, hb, Option.map_some] at hy
    exact .ended hgone hy rfl
  | @ended x hp hx hi =>
    obtain ⟨y, z, hxy, hyz, hz⟩ := hm.step_block hx
    exact .ended (hm.step_gone hp) hz (hyz.implicitWeak (hxy.becomes.implicitWeak hi))

theorem IsRationed.course {run : Nat → Machine} {n n' : Nat} (hr : IsRationed run)
    (hx : (run n).heap.blocks[b]? = some x) (ho : x.pointee = some o) (hn : n ≤ n') :
    (run n').Course b o := by
  induction n', hn using Nat.le_induction with
  | base => exact .owned hx ho
  | succ n' _ ih =>
    obtain ⟨limits, hnext⟩ := hr.next n'
    exact hnext ▸ ((hr.reachable n').ration limits).step_course (ih.ration limits)

/-- The object is there, whatever has become of it. -/
theorem Reachable.known_of_course (hm : m.Reachable) (hc : m.Course b o) :
    ∃ p, m.heap.phase? o = some p := by
  cases hc with
  | owned hx ho => exact ⟨_, hm.managed_alive hx ho⟩
  | dying ha => exact ⟨_, hm.dying_of_reclaim (by simp [ha])⟩
  | reclaimed hp | ended hp => exact ⟨_, hp⟩

/-! ## The implicit reference -/

/-- The implicit reference stands for the strong owners, and after them for the disposal. -/
theorem Reachable.implicitWeak_iff (hm : m.Reachable) (hx : m.heap.blocks[b]? = some x) :
    x.implicitWeak = true ↔ 0 < m.strongs b ∨ .giveUpImplicit b ∈ m.env.agenda := by
  have hstrong := hm.strong_eq hx
  have himplicit := (hm.counted b x hx).implicit
  have hdue : 0 < tally Stake.disposes? m.stakes b ↔ .giveUpImplicit b ∈ m.env.agenda := by
    rw [← disposal_mem_stakes_iff]
    constructor
    · intro hpos
      obtain ⟨k, hk, hb⟩ := Multiset.countP_pos.mp hpos
      cases k <;> cases hb
      exact hk
    · exact fun hk => tally_pos hk rfl
  rw [← hdue, ← hstrong]
  simp only [scene] at himplicit
  cases h : x.implicitWeak
  all_goals
    simp only [h, Bool.toNat_false, Bool.toNat_true] at himplicit
    simp
    omega

theorem Reachable.implicitWeak_eq_false_iff (hm : m.Reachable)
    (hx : m.heap.blocks[b]? = some x) :
    x.implicitWeak = false ↔ m.strongs b = 0 ∧ .giveUpImplicit b ∉ m.env.agenda := by
  rw [← Bool.not_eq_true, hm.implicitWeak_iff hx, not_or, Nat.not_lt, Nat.le_zero_eq]

/-- While the disposal is going on there is no strong owner. -/
theorem Reachable.strongs_of_due (hm : m.Reachable) (hx : m.heap.blocks[b]? = some x)
    (hdue : .giveUpImplicit b ∈ m.env.agenda) : m.strongs b = 0 := by
  have hstrong := hm.strong_eq hx
  have himplicit := (hm.counted b x hx).implicit
  simp only [scene] at himplicit
  have hpos : 0 < tally Stake.disposes? m.stakes b :=
    tally_pos (disposal_mem_stakes_iff.mpr hdue) rfl
  have hle := x.implicitWeak.toNat_le
  omega

/-- As long as the block has an owner, it has its pointee. -/
theorem Reachable.alive_of_strongs (hm : m.Reachable) (hc : m.Course b o)
    (hx : m.heap.blocks[b]? = some x) (hs : m.strongs b ≠ 0) :
    m.heap.phase? o = some .alive := by
  cases hc with
  | owned hy ho => exact hm.managed_alive hy ho
  | dying ha => exact absurd (hm.strongs_of_due hx (by simp [ha])) hs
  | reclaimed _ ha => exact absurd (hm.strongs_of_due hx (by simp [ha])) hs
  | ended _ hy hi =>
    have := (hm.implicitWeak_iff hy).mpr (.inl (Nat.pos_of_ne_zero hs))
    rw [hi] at this
    cases this

/-- While the disposal is going on the pointee is dying, or only the implicit reference is left to
be given up. -/
theorem Reachable.dying_of_due (hm : m.Reachable) (hc : m.Course b o)
    (hx : m.heap.blocks[b]? = some x) (hdue : .giveUpImplicit b ∈ m.env.agenda) :
    m.heap.phase? o = some .dying ∨
      m.heap.phase? o = some .gone ∧ ∃ rest, m.env.agenda = .giveUpImplicit b :: rest := by
  cases hc with
  | owned hy ho =>
    have := (hm.pointee_iff hy).mp (by simp [ho])
    exact absurd (hm.strongs_of_due hx hdue) this
  | dying ha => exact .inl (hm.dying_of_reclaim (by simp [ha]))
  | reclaimed hp ha => exact .inr ⟨hp, _, ha⟩
  | ended _ hy hi =>
    have := (hm.implicitWeak_iff hy).mpr (.inr hdue)
    rw [hi] at this
    cases this

/-- A pointee that is dying is one whose disposal is going on. -/
theorem Reachable.due_of_dying (hm : m.Reachable) (hc : m.Course b o)
    (hp : m.heap.phase? o = some .dying) : .giveUpImplicit b ∈ m.env.agenda := by
  cases hc with
  | owned hy ho =>
    rw [hm.managed_alive hy ho] at hp
    cases hp
  | dying ha => simp [ha]
  | reclaimed hgone | ended hgone =>
    rw [hgone] at hp
    cases hp

/-- It is given up after the memory of the pointee has been returned. -/
theorem Reachable.gone_of_implicitWeak (hm : m.Reachable) (hc : m.Course b o)
    (hx : m.heap.blocks[b]? = some x) (hi : x.implicitWeak = false) :
    m.heap.phase? o = some .gone := by
  have hnone := mt (hm.implicitWeak_iff hx).mpr (by simp [hi])
  cases hc with
  | @owned y hy ho =>
    rw [hx] at hy
    cases hy
    have := (hm.pointee_iff hx).mp (by simp [ho])
    omega
  | dying ha => exact absurd (.inr (by simp [ha])) hnone
  | reclaimed hp => exact hp
  | ended hp => exact hp

/-- And then at once. -/
theorem Reachable.implicitWeak_of_gone (hm : m.Reachable) (hc : m.Course b o)
    (hx : m.heap.blocks[b]? = some x) (hp : m.heap.phase? o = some .gone) :
    x.implicitWeak = false ∨ ∃ rest, m.env.agenda = .giveUpImplicit b :: rest := by
  cases hc with
  | owned hy ho =>
    rw [hm.managed_alive hy ho] at hp
    cases hp
  | dying ha =>
    rw [hm.dying_of_reclaim (by simp [ha])] at hp
    cases hp
  | reclaimed _ ha => exact .inr ⟨_, ha⟩
  | ended _ hy hi =>
    rw [hx] at hy
    cases hy
    exact .inl hi

end Machine

end Custody
