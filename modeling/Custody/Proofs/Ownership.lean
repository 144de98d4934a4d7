import Custody.Proofs.Blocks

/-!
# Owners of objects

* `Scene.owners`: how many pointers and blocks answer for an object.
* `Phase.Allows`, `Owned`: an object that is alive has at most one; of one that is dying, one
  destructor is under way; one that is gone is nobody's. Losses and shifts keep it.
-/

namespace Custody

variable {Y : Option Place}

/-- How many blocks have the object as their pointee. -/
def Heap.managers (h : Heap) (o : ObjectId) : Nat := h.blocks.toList.countP (·.pointee = some o)

/-- How far the object has come, if it is there. -/
def Heap.phase? (h : Heap) (o : ObjectId) : Option Phase := h.objects[o]?.map (·.phase)

/-- How many things answer for the object: unique pointers, raw pointers, and blocks. -/
def Scene.owners (s : Scene) (o : ObjectId) : Nat :=
  tally Stake.owns? s.2 o + tally Stake.rawOf? s.2 o + s.1.managers o

/-- How many owners and how many destructors an object in this phase has. -/
def Phase.Allows : Phase → Nat → Nat → Prop
  | alive, owners, destructors => owners ≤ 1 ∧ destructors = 0
  | dying, owners, destructors => owners = 0 ∧ destructors = 1
  | gone, owners, destructors => owners = 0 ∧ destructors = 0

namespace Phase.Allows

variable {p : Phase} {n n' d d' : Nat}

/-- Only what is alive has an owner to lose. -/
theorem start (h : p.Allows n d) (hn : n = n' + 1) (hd : d' = d + 1) : dying.Allows n' d' := by
  cases p <;> simp only [Allows] at h ⊢ <;> omega

theorem leak (h : p.Allows n d) (hn : n = n' + 1) (hd : d' = d) : p.Allows n' d' := by
  cases p <;> simp only [Allows] at h ⊢ <;> omega

/-- Only what is dying has a destructor to end. -/
theorem finish (h : p.Allows n d) (hn : n' = n) (hd : d = d' + 1) : gone.Allows n' d' := by
  cases p <;> simp only [Allows] at h ⊢ <;> omega

end Phase.Allows

/-- Every object has as many owners, and as many destructions under way, as its phase allows. -/
def Owned (s : Scene) : Prop :=
  ∀ o p, s.1.phase? o = some p → p.Allows (Scene.owners s o) (tally Stake.destroys? s.2 o)

section

variable {h h' : Heap} {K : Multiset Stake} {k : Stake} {b : BlockId} {o : ObjectId} {x : Block}
  {f : Block → Block}

theorem Heap.managers_congr (hb : h'.blocks = h.blocks) (o : ObjectId) :
    h'.managers o = h.managers o := by
  rw [managers, hb, managers]

theorem Heap.managers_push (hb : h'.blocks = h.blocks.push x) (o : ObjectId) :
    h'.managers o = h.managers o + if x.pointee = some o then 1 else 0 := by
  simp [managers, hb, List.countP_append, List.countP_singleton]

/-- What the changed block had as its pointee, and what it has. -/
theorem Heap.managers_modify (hb : h'.blocks = h.blocks.modify b f) (hx : h.blocks[b]? = some x)
    (o : ObjectId) :
    h'.managers o + (if x.pointee = some o then 1 else 0) =
      h.managers o + if (f x).pointee = some o then 1 else 0 := by
  obtain ⟨l, r, hl, hr, -⟩ := Array.toList_modify_split f hx
  simp only [managers, hb, hl, hr, List.countP_append, List.countP_cons, decide_eq_true_eq]
  omega

theorem Heap.managers_modify_of_pointee (hb : h'.blocks = h.blocks.modify b f)
    (hf : ∀ x, (f x).pointee = x.pointee) (o : ObjectId) : h'.managers o = h.managers o := by
  cases hx : h.blocks[b]? with
  | none => exact managers_congr (hb.trans (Array.modify_eq_self f hx)) o
  | some x =>
    have := managers_modify hb hx o
    rw [hf x] at this
    omega

theorem Heap.phase?_congr (ho : h'.objects = h.objects) (o : ObjectId) :
    h'.phase? o = h.phase? o := by
  rw [phase?, ho, phase?]

theorem Heap.phase?_push {y : Object} (ho : h'.objects = h.objects.push y) (o : ObjectId) :
    h'.phase? o = if o = h.objects.size then some y.phase else h.phase? o := by
  rw [phase?, ho, Array.getElem?_push, phase?]
  split <;> rfl

theorem Heap.phase?_modify {g : Object → Object} (ho : h'.objects = h.objects.modify o g)
    (o' : ObjectId) :
    h'.phase? o' = if o = o' then (h.objects[o]?.map g).map (·.phase) else h.phase? o' := by
  rw [phase?, ho, Array.getElem?_modify, phase?]
  split
  · next heq => rw [heq]
  · rfl

/-- A write keeps all phases. -/
theorem Heap.phase?_write (p : Place) (c : Content) (o : ObjectId) :
    (h.write p c).phase? o = h.phase? o := by
  cases hp : p.origin with
  | static s => exact phase?_congr (objects_write_static hp c) o
  | object o' =>
    rw [phase?_modify (objects_write_object hp c)]
    split
    · next heq =>
      subst heq
      rw [phase?, Option.map_map]
      rfl
    · rfl

theorem Heap.managers_eq_zero (hm : ¬ h.Manages o) : h.managers o = 0 := by
  refine List.countP_eq_zero.mpr fun x hx hp => hm ?_
  obtain ⟨b, hb⟩ := List.mem_iff_getElem?.mp hx
  exact ⟨b, x, by simpa using hb, by simpa using hp⟩

theorem Heap.managers_pos (hm : h.Manages o) : 0 < h.managers o := by
  obtain ⟨b, x, hx, ho⟩ := hm
  refine List.countP_pos_iff.mpr ⟨x, ?_, by simpa using ho⟩
  exact List.mem_iff_getElem?.mpr ⟨b, by simpa using hx⟩

/-- What is owned or destroyed is there. -/
theorem Stake.Within.object (hk : k.Within h)
    (ho : k.owns? = some o ∨ k.rawOf? = some o ∨ k.destroys? = some o) : o < h.objects.size := by
  match k with
  | .pointer (.unique ⟨_, _, some o'⟩) =>
    obtain rfl : o' = o := by simpa using ho
    exact Slot.within_unique.mp hk
  | .pointer (.raw ⟨_, _, o'⟩) =>
    obtain rfl : o' = o := by simpa using ho
    exact Slot.within_raw.mp hk
  | .destruction o' =>
    obtain rfl : o' = o := by simpa using ho
    exact hk
  | .pointer (.unique ⟨_, _, none⟩) | .pointer (.strong _) | .pointer (.weak _) | .disposal _ =>
    simp at ho

/-- Nobody owns an object that is not there. -/
theorem Scoped.owners_eq_zero {s : Scene} (hs : Scoped s) (ho : s.1.phase? o = none) :
    Scene.owners s o = 0 ∧ tally Stake.destroys? s.2 o = 0 := by
  obtain ⟨h, K⟩ := s
  have hsize : h.objects.size ≤ o := by simpa [Heap.phase?] using ho
  have howns := hs.tally_eq_zero fun l hl h => Nat.not_le_of_lt (hl.object (.inl h)) hsize
  have hraws := hs.tally_eq_zero fun l hl h => Nat.not_le_of_lt (hl.object (.inr (.inl h))) hsize
  have hdestroys := hs.tally_eq_zero fun l hl h =>
    Nat.not_le_of_lt (hl.object (.inr (.inr h))) hsize
  have hmanagers := Heap.managers_eq_zero fun hm => Nat.not_le_of_lt (hs.pointees o hm) hsize
  exact ⟨by simp [Scene.owners, howns, hraws, hmanagers], hdestroys⟩

/-- What has an owner is alive. -/
theorem Owned.alive {s : Scene} (hs : Owned s) (hscope : Scoped s) (ho : 0 < Scene.owners s o) :
    s.1.phase? o = some .alive := by
  cases hp : s.1.phase? o with
  | none =>
    obtain ⟨hzero, -⟩ := hscope.owners_eq_zero hp
    omega
  | some p =>
    have hallows := hs o p hp
    cases p
    · rfl
    all_goals
      simp only [Phase.Allows] at hallows
      omega

/-- What has a destructor under way is dying. -/
theorem Owned.dying {s : Scene} (hs : Owned s) (hscope : Scoped s)
    (ho : 0 < tally Stake.destroys? s.2 o) : s.1.phase? o = some .dying := by
  cases hp : s.1.phase? o with
  | none =>
    obtain ⟨-, hzero⟩ := hscope.owners_eq_zero hp
    omega
  | some p =>
    have hallows := hs o p hp
    cases p
    case dying => rfl
    all_goals
      simp only [Phase.Allows] at hallows
      omega

/-! ## What a change does to an object -/

/-- The object is in the phase it was in, and has the owners it had. -/
structure Scene.SameAt (s t : Scene) (o : ObjectId) : Prop where
  phase : t.1.phase? o = s.1.phase? o
  owners : Scene.owners t o = Scene.owners s o
  destructors : tally Stake.destroys? t.2 o = tally Stake.destroys? s.2 o

/-- The object is new, with one owner. -/
structure Scene.NewAt (s t : Scene) (o : ObjectId) : Prop where
  unknown : s.1.phase? o = none
  phase : t.1.phase? o = some .alive
  owners : Scene.owners t o = 1
  destructors : tally Stake.destroys? t.2 o = 0

open Scene in
/-- A change leaves an object as it is owned, or makes it. -/
theorem Change.sameAt_or_newAt {s t : Scene} (hc : Change Y s t) (hs : Scoped s) (o : ObjectId) :
    SameAt s t o ∨ NewAt s t o := by
  have hfresh {h g : Heap} {K : Multiset Stake} {k : Kind} {a : Alloc} {y : Object}
      (hs : Scoped (h, K)) (hb : g.blocks = h.blocks) (ho : g.objects = h.objects.push y)
      (hy : y.phase = .alive) (o : ObjectId) :
      SameAt (h, K) (g, .pointer (.unique ⟨k, a, some h.objects.size⟩) ::ₘ K) o ∨
        NewAt (h, K) (g, .pointer (.unique ⟨k, a, some h.objects.size⟩) ::ₘ K) o := by
    by_cases hnew : o = h.objects.size
    · subst hnew
      have hnone : h.phase? h.objects.size = none := by simp [Heap.phase?]
      obtain ⟨howners, hdestroys⟩ := hs.owners_eq_zero hnone
      refine .inr ⟨hnone, by simp [Heap.phase?_push ho, hy], ?_, ?_⟩
      · simp [Scene.owners] at howners
        simp [Scene.owners, Heap.managers_congr hb, howners]
      · simpa using hdestroys
    · refine .inl ⟨by simp [Heap.phase?_push ho, hnew], ?_, by simp⟩
      simp [Scene.owners, Heap.managers_congr hb, Ne.symm hnew]
  cases hc with
  | null hx =>
    refine .inl ⟨rfl, ?_, by simp⟩
    simp [Scene.owners, hx.owns, hx.raw]
  | copy _ hy =>
    refine .inl ⟨rfl, ?_, by simp⟩
    simp [Scene.owners, hy.owns, hy.raw]
  | forget hx =>
    refine .inl ⟨rfl, ?_, by simp⟩
    simp [Scene.owners, hx.owns, hx.raw]
  | revise hy =>
    refine .inl ⟨rfl, ?_, by simp⟩
    simp [Scene.owners, hy.owns, hy.raw]
  | share =>
    refine .inl ⟨Heap.phase?_congr (by simp) o, ?_, by simp⟩
    simp [Scene.owners, Heap.managers_modify_of_pointee Heap.blocks_addStrong]
  | observe =>
    refine .inl ⟨Heap.phase?_congr (by simp) o, ?_, by simp⟩
    simp [Scene.owners, Heap.managers_modify_of_pointee Heap.blocks_addWeak]
  | lock hw hb alive =>
    refine .inl ⟨Heap.phase?_congr (by simp) o, ?_, by simp⟩
    simp [Scene.owners, Heap.managers_modify_of_pointee (Heap.blocks_addStrongIfAlive alive)]
  | refuseLock =>
    refine .inl ⟨Heap.phase?_congr (by simp) o, ?_, by simp⟩
    simp [Scene.owners, Heap.managers_congr Heap.blocks_recordExpiredLock]
  | construct _ hc =>
    obtain ⟨h₁, o', hc₁, rfl, rfl⟩ := Unique.construct_eq hc
    obtain ⟨rfl, hb, serial, ho, -⟩ := Heap.construct_eq hc₁
    exact hfresh (g := Heap.measure _ h₁) hs hb ho rfl o
  | copyIn _ hc =>
    obtain ⟨rfl, hb, serial, ho, -⟩ := Heap.construct_eq hc
    exact hfresh hs hb ho rfl o
  | release =>
    refine .inl ⟨rfl, ?_, by simp⟩
    simp [Scene.owners]
    omega
  | adopt =>
    refine .inl ⟨rfl, ?_, by simp⟩
    simp [Scene.owners]
    omega
  | promote hc =>
    obtain ⟨-, ho, n, -, hb, -⟩ := Heap.createBlock_ok hc
    refine .inl ⟨Heap.phase?_congr ho o, ?_, by simp⟩
    simp [Scene.owners, Heap.managers_push hb]
    omega
  | refuseBlock _ hc =>
    obtain ⟨-, ho, hb, -⟩ := Heap.createBlock_error hc
    refine .inl ⟨Heap.phase?_congr ho o, ?_, by simp⟩
    simp [Scene.owners, Heap.managers_congr hb]
  | write =>
    refine .inl ⟨Heap.phase?_write _ _ o, ?_, rfl⟩
    simp [Scene.owners, Heap.managers_congr (Heap.blocks_write _ _)]
  | setBudget | resetMetrics | remark => exact .inl ⟨rfl, rfl, rfl⟩

/-! ## What a loss does to an object -/

/-- An owner is lost, and the destructor starts. -/
structure Scene.StartsAt (s t : Scene) (o : ObjectId) : Prop where
  phase : t.1.phase? o = (s.1.phase? o).map fun _ => .dying
  owners : Scene.owners s o = Scene.owners t o + 1
  destructors : tally Stake.destroys? t.2 o = tally Stake.destroys? s.2 o + 1

/-- The last that led to the object is lost. -/
structure Scene.LeaksAt (s t : Scene) (o : ObjectId) : Prop where
  phase : t.1.phase? o = s.1.phase? o
  raw : 0 < tally Stake.rawOf? s.2 o
  owners : Scene.owners s o = Scene.owners t o + 1
  destructors : tally Stake.destroys? t.2 o = tally Stake.destroys? s.2 o

/-- The destructor is over. -/
structure Scene.EndsAt (s t : Scene) (o : ObjectId) : Prop where
  phase : t.1.phase? o = (s.1.phase? o).map fun _ => .gone
  owners : Scene.owners t o = Scene.owners s o
  destructors : tally Stake.destroys? s.2 o = tally Stake.destroys? t.2 o + 1

theorem Heap.phase?_modify_self {g : Object → Object} {p : Phase}
    (ho : h'.objects = h.objects.modify o g) (hg : ∀ x, (g x).phase = p) :
    h'.phase? o = (h.phase? o).map fun _ => p := by
  rw [phase?_modify ho, if_pos rfl, phase?, Option.map_map, Option.map_map]
  congr 1
  funext x
  exact hg x

open Scene in
/-- One owner of an object is gone from the stakes `L` and the heap `h'`, and its destructor
starts. -/
theorem beginDestruction_at {s : Scene} {L : Multiset Stake} {o' : ObjectId}
    (hobjects : h'.objects = s.1.objects)
    (howners : ∀ o, Scene.owners s o = Scene.owners (h', L) o + if o' = o then 1 else 0)
    (hdestroys : ∀ o, tally Stake.destroys? s.2 o = tally Stake.destroys? L o) (o : ObjectId) :
    (o' = o ∧ StartsAt s ((h'.beginDestruction o').1, .destruction o' ::ₘ L) o) ∨
      (o' ≠ o ∧ SameAt s ((h'.beginDestruction o').1, .destruction o' ::ₘ L) o) := by
  have hobj := Heap.objects_beginDestruction (h := h') (o := o')
  have hrest : Scene.owners ((h'.beginDestruction o').1, .destruction o' ::ₘ L) o =
      Scene.owners (h', L) o := by
    simp [Scene.owners, Heap.managers_congr Heap.blocks_beginDestruction]
  have ho := howners o
  have hd := hdestroys o
  by_cases heq : o' = o
  · subst heq
    rw [if_pos rfl] at ho
    refine .inl ⟨rfl, ?_, ?_, ?_⟩
    · rw [Heap.phase?_modify_self hobj fun _ => rfl, Heap.phase?_congr hobjects]
    · rw [ho, hrest]
    · simp [hd]
  · rw [if_neg heq] at ho
    refine .inr ⟨heq, ?_, ?_, ?_⟩
    · rw [Heap.phase?_modify hobj, if_neg heq]
      exact Heap.phase?_congr hobjects o
    · rw [ho, hrest, Nat.add_zero]
    · simp [hd, heq]

/-- The block loses its pointee with its last owner. -/
theorem owners_dispose {p : Strong} {y : Option ObjectId}
    (ho : h.blocks[b]?.bind (·.pointee) = y) (hlt : b < h.blocks.size) (o : ObjectId) :
    Scene.owners (h, .pointer (.strong p) ::ₘ K) o =
      Scene.owners (((h.releaseStrong b).1.takePointee b).1, .disposal b ::ₘ K) o +
        if y = some o then 1 else 0 := by
  have hx := Array.getElem?_eq_getElem hlt
  have hxo : h.blocks[b].pointee = y := by simpa [hx] using ho
  have hmanagers := Heap.managers_modify Heap.blocks_takePointee_releaseStrong hx o
  rw [hxo] at hmanagers
  simp only [reduceCtorEq, ↓reduceIte] at hmanagers
  simp [Scene.owners]
  omega

open Scene in
/-- What a loss is to an object: the start of its destructor, its end, a leak, or nothing. -/
theorem Loss.at {t : Scene} (hl : Loss h K k t) (hs : Scoped (h, k ::ₘ K)) (o : ObjectId) :
    (k.starts? h = some o ∧ StartsAt (h, k ::ₘ K) t o) ∨
      (k.starts? h ≠ some o ∧
        (SameAt (h, k ::ₘ K) t o ∨ LeaksAt (h, k ::ₘ K) t o ∨ EndsAt (h, k ::ₘ K) t o)) := by
  cases hl with
  | @free x hx =>
    refine .inr ⟨?_, .inl ⟨rfl, ?_, by simp⟩⟩
    · have hblock := hx.block?
      have howns := hx.owns
      cases x <;> simp_all [Stake.starts?, Slot.block?]
    · simp [Scene.owners, hx.owns, hx.raw]
  | @leak r =>
    refine .inr ⟨by simp [Stake.starts?], ?_⟩
    by_cases ho : r.object = o
    · refine .inr (.inl ⟨rfl, ?_, ?_, by simp⟩)
      · exact tally_pos (Multiset.mem_cons_self _ _) (by simp [ho])
      · simp [Scene.owners, ho]
        omega
    · exact .inl ⟨rfl, by simp [Scene.owners, ho], by simp⟩
  | @release p b hb others =>
    refine .inr ⟨by simp [Stake.starts?, hb, others], .inl ⟨?_, ?_, by simp⟩⟩
    · exact Heap.phase?_congr (by simp) o
    · simp [Scene.owners, Heap.managers_modify_of_pointee Heap.blocks_releaseStrong]
  | @dispose p b o' hb last ho =>
    rw [Heap.takePointee_releaseStrong_snd] at ho
    have hstarts : (Stake.pointer (.strong p)).starts? h = some o' := by
      simpa [Stake.starts?, hb, last] using ho
    have howners := owners_dispose (K := K) (p := p) ho (hs.head.block hb)
    rw [hstarts, ne_eq, Option.some.injEq]
    exact (beginDestruction_at (by simp) (by simpa using howners) (by simp) o).imp_right
      fun hat => ⟨by simpa using hat.1, .inl hat.2⟩
  | @disposeNothing p b hb last ho =>
    rw [Heap.takePointee_releaseStrong_snd] at ho
    have howners := owners_dispose (K := K) (p := p) ho (hs.head.block hb) o
    refine .inr ⟨by simp [Stake.starts?, hb, last, ho], .inl ⟨?_, ?_, by simp⟩⟩
    · exact Heap.phase?_congr (by simp) o
    · simpa using howners.symm
  | @unobserve w b hb =>
    refine .inr ⟨by simp [Stake.starts?], .inl ⟨?_, ?_, by simp⟩⟩
    · exact Heap.phase?_congr (by simp) o
    · simp [Scene.owners, Heap.managers_modify_of_pointee Heap.blocks_releaseWeak]
  | @destroy u o' ho =>
    have hstarts : (Stake.pointer (.unique u)).starts? h = some o' := ho
    rw [hstarts, ne_eq, Option.some.injEq]
    refine (beginDestruction_at rfl (fun o => ?_) (by simp) o).imp_right
      fun hat => ⟨by simpa using hat.1, .inl hat.2⟩
    simp [Scene.owners, ho]
    omega
  | @reclaim o' =>
    have hsame := Heap.managers_congr (Heap.blocks_endDestruction (h := h) (o := o')) o
    refine .inr ⟨by simp [Stake.starts?], ?_⟩
    by_cases heq : o' = o
    · subst heq
      refine .inr (.inr ⟨Heap.phase?_modify_self Heap.objects_endDestruction fun _ => rfl, ?_, ?_⟩)
      · simp [Scene.owners, hsame]
      · simp
    · refine .inl ⟨?_, ?_, ?_⟩
      · rw [Heap.phase?_modify Heap.objects_endDestruction, if_neg heq]
      · simp [Scene.owners, hsame]
      · simp [heq]
  | @giveUp b =>
    refine .inr ⟨by simp [Stake.starts?], .inl ⟨?_, ?_, by simp⟩⟩
    · exact Heap.phase?_congr (by simp) o
    · simp [Scene.owners, Heap.managers_modify_of_pointee Heap.blocks_giveUpImplicit]

/-! ## The invariant -/

theorem Scene.SameAt.owned {s t : Scene} (h : SameAt s t o)
    (hs : ∀ p, s.1.phase? o = some p → p.Allows (Scene.owners s o) (tally Stake.destroys? s.2 o)) :
    ∀ p, t.1.phase? o = some p → p.Allows (Scene.owners t o) (tally Stake.destroys? t.2 o) := by
  rw [h.phase, h.owners, h.destructors]
  exact hs

/-- Phases allow what there is of owners after every loss. -/
theorem Loss.owned {t : Scene} (hl : Loss h K k t) (hscope : Scoped (h, k ::ₘ K))
    (hs : Owned (h, k ::ₘ K)) : Owned t := by
  intro o
  have ho := hs o
  rcases hl.at hscope o with ⟨-, hat⟩ | ⟨-, hat | hat | hat⟩
  · rw [hat.phase]
    intro p hp
    obtain ⟨q, hq, rfl⟩ := Option.map_eq_some_iff.mp hp
    exact (ho q hq).start hat.owners hat.destructors
  · exact hat.owned ho
  · rw [hat.phase]
    intro p hp
    exact (ho p hp).leak hat.owners hat.destructors
  · rw [hat.phase]
    intro p hp
    obtain ⟨q, hq, rfl⟩ := Option.map_eq_some_iff.mp hp
    exact (ho q hq).finish hat.owners hat.destructors

/-- A shift leaves an object as it is owned, or makes it. -/
theorem Shift.sameAt_or_newAt {s t : Scene} (hc : Shift Y s t) (hs : Scoped s) (o : ObjectId) :
    Scene.SameAt s t o ∨ Scene.NewAt s t o := by
  cases hc with
  | change hc => exact hc.sameAt_or_newAt hs o
  | relink o' t =>
    refine .inl ⟨?_, rfl, rfl⟩
    rw [Heap.phase?_modify (g := fun x => { x with links := t }) rfl]
    split
    · next heq =>
      subst heq
      rw [Heap.phase?, Option.map_map]
      rfl
    · rfl

theorem Shift.owned {s t : Scene} (hc : Shift Y s t) (hscope : Scoped s) (hs : Owned s) :
    Owned t := by
  intro o
  rcases hc.sameAt_or_newAt hscope o with h | h
  · exact h.owned (hs o)
  · rw [h.phase, h.owners, h.destructors]
    rintro p ⟨⟩
    exact ⟨Nat.le_refl 1, rfl⟩

/-- Over any number of shifts as well, an object that was there keeps its phase and its owners. -/
theorem Shifts.sameAt_or_newAt {s t : Scene} (hc : Shifts Y s t) (hs : Scoped s) (o : ObjectId) :
    Scene.SameAt s t o ∨ Scene.NewAt s t o := by
  induction hc with
  | refl => exact .inl ⟨rfl, rfl, rfl⟩
  | tail hst hc ih =>
    rcases ih with ih | ih
    · rcases hc.sameAt_or_newAt (Shifts.scoped hst hs) o with h | h
      · exact .inl ⟨h.phase.trans ih.phase, h.owners.trans ih.owners,
          h.destructors.trans ih.destructors⟩
      · exact .inr ⟨ih.phase ▸ h.unknown, h.phase, h.owners, h.destructors⟩
    · rcases hc.sameAt_or_newAt (Shifts.scoped hst hs) o with h | h
      · exact .inr ⟨ih.unknown, h.phase.trans ih.phase, h.owners.trans ih.owners,
          h.destructors.trans ih.destructors⟩
      · exact absurd (ih.phase.symm.trans h.unknown) (by simp)

theorem owned_empty : Owned (.empty, 0) := by
  intro o p hp
  simp [Heap.phase?, Heap.empty] at hp

theorem Machine.Reachable.owned {m : Machine} (hm : m.Reachable) : Owned m.scene :=
  hm.scene_induction owned_empty (fun _ hs => hs) (fun hs ho hl => hl.owned hs ho)
    fun hs ho hc => hc.owned hs ho

theorem Machine.IsRationed.owned {run : Nat → Machine} (hr : Machine.IsRationed run) (n : Nat) :
    Owned (run n).scene :=
  (hr.reachable n).owned

end

end Custody
