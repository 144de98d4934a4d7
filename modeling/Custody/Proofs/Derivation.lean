import Custody.Proofs.Execution
import Custody.Proofs.Locks

/-!
# Pointers that are made from others

* `Derivation`, `Derivation.apply`: the ways to make a pointer from another one.
* `Derivation.Refused`: when they come to nothing.
* `Derivation.Yields`, `Derivation.yields_of_apply`: what each of them makes.
* `Heap.Shares`: some references more on one block.
* `Derivation.Derived`, `Derivation.derived`: a pointer that is derived has the owner of its source,
  and is the only reference more.
* `Derivation.apply_null`: from a null pointer without a block comes another one.
-/

namespace Custody

/-- How a pointer comes of another one. -/
inductive Derivation
  | clone
  /-- To a part, or to a standing value if it is `total` and there is no such part. -/
  | project (j : Projection) (total : Bool)
  | cast (c : Cast)
  | downgrade
  | lock

/-! ## What a derivation does -/

namespace Strong

/-- A projection of a strong pointer. One that yields nothing has no owner either. -/
def project (p : Strong) (j : Projection) (total : Bool) (h : Heap) : Heap × Strong :=
  let view := if total then j.view h p else j.part? h p
  if total || view.isSome then p.aliasing j.target view h else (h, .null j.target)

/-- A cast of a strong pointer, if it is one that is there. -/
def cast? (p : Strong) (c : Cast) (h : Heap) : Option (Heap × Strong) :=
  match Machine.castView h p c with
  | .ok (k, some view) => some (p.aliasing k view h)
  | .ok (k, none) => some (h, .null k)
  | .error _ => none

/-- An owner is given up that is not the last one. -/
def giveUp (p : Strong) (h : Heap) : Heap :=
  match p.block with
  | some b => (h.releaseStrong b).1
  | none => h

/-- What a lock is for when it is made for a projection. The owner of the part is given up when the
weak pointer has been made, and after it the lock. -/
def projectLock (l : Strong) (j : Projection) (h : Heap) : Heap × Weak :=
  let (h, mapped) := l.aliasing j.target (j.view h l) h
  let (h, made) := mapped.downgrade h
  (l.giveUp (mapped.giveUp h), made)

end Strong

namespace Weak

/-- What a lock obtains. Where it is refused, a null pointer. -/
def lock (w : Weak) (h : Heap) : Heap × Strong :=
  match w.lock? h with
  | (h, some p) => (h, p)
  | (h, none) => (h, .null w.kind)

/-- A projection of a weak pointer, under a lock where one is granted. -/
def project (w : Weak) (j : Projection) (h : Heap) : Heap × Weak :=
  match w.lock? h with
  | (h, some l) => l.projectLock j h
  | (h, none) => ({ w with kind := j.target, view := none } : Weak).clone h

end Weak

namespace Derivation

/-- The heap after the derivation, and the pointer that is made. `none` is for pointers that it is
not defined on. -/
def apply : Derivation → Slot → Heap → Option (Heap × Slot)
  | clone, .strong p, h => some ((p.clone h).map id .strong)
  | clone, .weak w, h => some ((w.clone h).map id .weak)
  | project j total, .strong p, h => some ((p.project j total h).map id .strong)
  | project j true, .weak w, h => some ((w.project j h).map id .weak)
  | cast c, .strong p, h => (p.cast? c h).map (·.map id .strong)
  | downgrade, .strong p, h => some ((p.downgrade h).map id .weak)
  | lock, .weak w, h => some ((w.lock h).map id .strong)
  | _, _, _ => none

/-- A projection that may yield no part does not, a checked cast is of a null pointer or to another
kind, or there is nothing to lock. -/
def Refused : Derivation → Slot → Heap → Prop
  | project j false, .strong p, h => j.part? h p = none
  | cast (.dynamic k), .strong p, h => ∀ c, p.get? h = some c → c.kind ≠ k
  | lock, .weak w, h => w.use h = 0
  | _, _, _ => False

/-- The derivation of `y` from `x` at heap `h`, by what it is made of. -/
inductive Yields (h : Heap) : Derivation → Slot → Heap → Slot → Prop
  | cloneStrong (p : Strong) : Yields h clone (.strong p) (p.clone h).1 (.strong (p.clone h).2)
  | cloneWeak (w : Weak) : Yields h clone (.weak w) (w.clone h).1 (.weak (w.clone h).2)
  | project (p : Strong) (j : Projection) (total : Bool) : Yields h (project j total) (.strong p)
      (p.project j total h).1 (.strong (p.project j total h).2)
  | projectWeak (w : Weak) (j : Projection) : Yields h (.project j true) (.weak w)
      (w.project j h).1 (.weak (w.project j h).2)
  | cast {p q : Strong} {c : Cast} {h' : Heap} : p.cast? c h = some (h', q) →
      Yields h (cast c) (.strong p) h' (.strong q)
  | downgrade (p : Strong) : Yields h downgrade (.strong p) (p.downgrade h).1
      (.weak (p.downgrade h).2)
  | lock (w : Weak) : Yields h lock (.weak w) (w.lock h).1 (.strong (w.lock h).2)

/-- What is computed is one of these. -/
theorem yields_of_apply {d : Derivation} {x y : Slot} {h h' : Heap}
    (hd : d.apply x h = some (h', y)) : Yields h d x h' y := by
  cases d with
  | clone =>
    cases x with
    | strong p =>
      cases hd
      exact .cloneStrong p
    | weak w =>
      cases hd
      exact .cloneWeak w
    | unique | raw => cases hd
  | project j total =>
    cases x with
    | strong p =>
      cases hd
      exact .project p j total
    | weak w =>
      cases total with
      | true =>
        cases hd
        exact .projectWeak w j
      | false => cases hd
    | unique | raw => cases total <;> cases hd
  | cast c =>
    cases x with
    | strong p =>
      obtain ⟨⟨g, q⟩, hcast, hd⟩ := Option.map_eq_some_iff.mp hd
      cases hd
      exact .cast hcast
    | weak | unique | raw => cases hd
  | downgrade =>
    cases x with
    | strong p =>
      cases hd
      exact .downgrade p
    | weak | unique | raw => cases hd
  | lock =>
    cases x with
    | weak w =>
      cases hd
      exact .lock w
    | strong | unique | raw => cases hd

end Derivation

/-! ## One reference more -/

/-- There are `s` owners and `w` weak references more on block `b`. Nothing else differs, but for
what is counted and told of. -/
structure Heap.Shares (b : BlockId) (s w : Nat) (h h' : Heap) : Prop where
  blocks : h'.blocks =
    h.blocks.modify b fun x => { x with strong := x.strong + s, weak := x.weak + w }
  objects : h'.objects = h.objects
  statics : h'.statics = h.statics
  ledger : h'.ledger = h.ledger
  nextId : h'.nextId = h.nextId
  breaches : h'.breaches = h.breaches

section

variable {h h' h'' : Heap} {b : BlockId} {s s' w w' : Nat} {x : Block}

namespace Heap

theorem modify_add_zero (b : BlockId) (h : Heap) : h.blocks.modify b
    (fun x => { x with strong := x.strong + 0, weak := x.weak + 0 }) = h.blocks :=
  congrArg Heap.blocks (updateBlock_eq_self fun _ => rfl)

theorem shares_of_eq (hb : h'.blocks = h.blocks) (ho : h'.objects = h.objects)
    (hs : h'.statics = h.statics) (hl : h'.ledger = h.ledger) (hn : h'.nextId = h.nextId)
    (hbr : h'.breaches = h.breaches) : h.Shares b 0 0 h' :=
  ⟨hb.trans (modify_add_zero b h).symm, ho, hs, hl, hn, hbr⟩

theorem Shares.refl (b : BlockId) (h : Heap) : h.Shares b 0 0 h :=
  shares_of_eq rfl rfl rfl rfl rfl rfl

theorem Shares.trans (h₁ : h.Shares b s w h') (h₂ : h'.Shares b s' w' h'') :
    h.Shares b (s + s') (w + w') h'' where
  blocks := by
    rw [h₂.blocks, h₁.blocks, Array.modify_modify]
    simp only [Nat.add_assoc]
  objects := h₂.objects.trans h₁.objects
  statics := h₂.statics.trans h₁.statics
  ledger := h₂.ledger.trans h₁.ledger
  nextId := h₂.nextId.trans h₁.nextId
  breaches := h₂.breaches.trans h₁.breaches

theorem Shares.getElem? (hs : h.Shares b s w h') (hx : h.blocks[b]? = some x) :
    h'.blocks[b]? = some { x with strong := x.strong + s, weak := x.weak + w } := by
  rw [hs.blocks]
  exact Array.getElem?_modify_self _ hx

theorem Shares.blocks_eq (hs : h.Shares b 0 0 h') : h'.blocks = h.blocks :=
  hs.blocks.trans (modify_add_zero b h)

theorem shares_addStrong (b : BlockId) (h : Heap) :
    h.Shares b 1 0 (h.updateBlock b fun x => { x with strong := x.strong + 1 }) :=
  ⟨rfl, rfl, rfl, rfl, rfl, rfl⟩

theorem shares_addWeak (b : BlockId) (h : Heap) :
    h.Shares b 0 1 (h.updateBlock b fun x => { x with weak := x.weak + 1 }) :=
  ⟨rfl, rfl, rfl, rfl, rfl, rfl⟩

/-- An owner more and an owner fewer. -/
theorem Shares.giveUpStrong (hs : h.Shares b (s + 1) w h') :
    h.Shares b s w (h'.updateBlock b fun x => { x with strong := x.strong - 1 }) where
  blocks := by
    rw [updateBlock, hs.blocks, Array.modify_modify]
    rfl
  objects := hs.objects
  statics := hs.statics
  ledger := hs.ledger
  nextId := hs.nextId
  breaches := hs.breaches

theorem Shares.giveUpWeak (hs : h.Shares b s (w + 1) h') :
    h.Shares b s w (h'.updateBlock b fun x => { x with weak := x.weak - 1 }) where
  blocks := by
    rw [updateBlock, hs.blocks, Array.modify_modify]
    rfl
  objects := hs.objects
  statics := hs.statics
  ledger := hs.ledger
  nextId := hs.nextId
  breaches := hs.breaches

theorem shares_locked (b : BlockId) (h : Heap) : h.Shares b 1 0 (h.locked b) :=
  ⟨rfl, rfl, rfl, rfl, rfl, rfl⟩

theorem shares_lockRefused (b : BlockId) (h : Heap) : h.Shares b 0 0 (h.lockRefused b) :=
  shares_of_eq rfl rfl rfl rfl rfl rfl

end Heap

end

namespace Derivation

/-- Pointer `y` is derived from `x`, which is on block `b`. -/
structure Derived (d : Derivation) (x : Slot) (b : BlockId) (h h' : Heap) (y : Slot) : Prop where
  /-- Nothing is made of it, and no counter of any block changes. -/
  refused : d.Refused x h → y.block? = none ∧ y.view? = none ∧ h'.blocks = h.blocks
  /-- What is not checked is never refused. -/
  granted : ¬ d.Refused x h → y.block? = some b
  /-- The new pointer is the only reference more, and there is no block or object more. -/
  shares : h.Shares b (if y.strongOn? = some b then 1 else 0)
    (if y.weakOn? = some b then 1 else 0) h'
  null : x.view? = none → y.view? = none

variable {d : Derivation} {x : Slot} {b : BlockId} {h h' : Heap} {y : Slot} {z : Block}
  {p q : Strong} {v w : Weak} {j : Projection} {c : Cast} {total : Bool} {k : Kind}
  {view : Option Place}

theorem Derived.strong (hn : ¬ d.Refused x h) (hs : h.Shares b 1 0 h') (hb : q.block = some b)
    (hv : x.view? = none → q.view = none) : d.Derived x b h h' (.strong q) where
  refused hr := absurd hr hn
  granted _ := hb
  shares := by
    rw [if_pos (show (Slot.strong q).strongOn? = some b from hb), if_neg nofun]
    exact hs
  null := hv

theorem Derived.weak (hn : ¬ d.Refused x h) (hs : h.Shares b 0 1 h') (hb : v.block = some b)
    (hv : x.view? = none → v.view = none) : d.Derived x b h h' (.weak v) where
  refused hr := absurd hr hn
  granted _ := hb
  shares := by
    rw [if_neg nofun, if_pos (show (Slot.weak v).weakOn? = some b from hb)]
    exact hs
  null := hv

theorem Derived.refuse (hr : d.Refused x h) (hs : h.Shares b 0 0 h') (k : Kind) :
    d.Derived x b h h' (.strong (.null k)) where
  refused _ := ⟨rfl, rfl, hs.blocks_eq⟩
  granted hn := absurd hr hn
  shares := by
    rw [if_neg nofun, if_neg nofun]
    exact hs
  null _ := rfl

/-- A cast that is not refused keeps a null view. -/
theorem castView_ok {r : Option (Option Place)} (hc : Machine.castView h p c = .ok (k, r)) :
    r = none ∧ (cast c).Refused (.strong p) h ∨
    ∃ view, r = some view ∧ ¬ (cast c).Refused (.strong p) h ∧ (p.view = none → view = none) := by
  cases c with
  | const =>
    cases hc
    exact .inr ⟨_, rfl, id, id⟩
  | static target =>
    simp only [Machine.castView] at hc
    split at hc
    · cases hc
      refine .inr ⟨_, rfl, id, fun hp => ?_⟩
      rw [hp]
      rfl
    · cases hc
  | reinterpret target =>
    simp only [Machine.castView] at hc
    split at hc
    · split at hc
      · cases hc
        exact .inr ⟨_, rfl, id, fun _ => rfl⟩
      · next hv =>
        split at hc
        · cases hc
          exact .inr ⟨_, rfl, id, fun hp => absurd (hp.symm.trans hv) nofun⟩
        · cases hc
    · cases hc
  | dynamic target =>
    simp only [Machine.castView] at hc
    split at hc
    · cases hc
    split at hc
    · cases hc
    split at hc
    · next content hread =>
      cases hc
      by_cases hkind : content.kind = k
      · rw [if_pos hkind]
        exact .inr ⟨_, rfl, fun hr => hr content hread hkind, id⟩
      · rw [if_neg hkind]
        refine .inl ⟨rfl, fun content' hread' => ?_⟩
        cases hread.symm.trans hread'
        exact hkind
    · next hread =>
      cases hc
      exact .inl ⟨rfl, fun content' hread' => absurd (hread.symm.trans hread') nofun⟩

theorem view_null (hp : p.view = none) : j.view h p = none := by
  rw [Projection.view, hp]

theorem part?_null (hp : p.view = none) : j.part? h p = none := by
  rw [Projection.part?, hp]
  rfl

section

variable (hx : h.blocks[b]? = some z) (hf : z.freed = false)

include hx hf

theorem aliasing_eq (hb : p.block = some b) (hs : 0 < z.strong) : p.aliasing k view h =
    (h.updateBlock b fun x => { x with strong := x.strong + 1 }, ⟨k, some b, view⟩) := by
  simp only [Strong.aliasing, Strong.acquire, hb, Heap.addStrong_eq hx hf hs]

theorem clone_strong_eq (hb : p.block = some b) (hs : 0 < z.strong) :
    p.clone h = (h.updateBlock b fun x => { x with strong := x.strong + 1 }, p) := by
  simp only [Strong.clone, Strong.acquire, hb, Heap.addStrong_eq hx hf hs]

theorem clone_weak_eq (hb : w.block = some b) :
    w.clone h = (h.updateBlock b fun x => { x with weak := x.weak + 1 }, w) := by
  simp only [Weak.clone, Weak.acquire, hb, Heap.addWeak_eq hx hf]

theorem downgrade_eq (hb : p.block = some b) : p.downgrade h =
    (h.updateBlock b fun x => { x with weak := x.weak + 1 }, ⟨p.kind, some b, p.view⟩) := by
  simp only [Strong.downgrade, Weak.acquire, hb, Heap.addWeak_eq hx hf]

theorem giveUp_eq (hb : p.block = some b) (hs : 1 < z.strong) : p.giveUp h =
    h.updateBlock b fun x => { x with strong := x.strong - 1 } := by
  simp only [Strong.giveUp, hb]
  exact Heap.releaseStrong_others hx hf (by omega) (by omega)

/-- The lock is given up. -/
theorem projectLock_eq (hb : p.block = some b) (hs : 1 < z.strong) : p.projectLock j h =
    ((((h.updateBlock b fun x => { x with strong := x.strong + 1 }).updateBlock b
      fun x => { x with weak := x.weak + 1 }).updateBlock b
        fun x => { x with strong := x.strong - 1 }).updateBlock b
          fun x => { x with strong := x.strong - 1 }, ⟨j.target, some b, j.view h p⟩) := by
  have hone := Heap.shares_addStrong b h
  have htwo := hone.trans (Heap.shares_addWeak b _)
  have hthree := htwo.giveUpStrong
  have halias : p.aliasing j.target (j.view h p) h = (_, ⟨j.target, some b, j.view h p⟩) :=
    aliasing_eq hx hf hb (by omega)
  have hweak := downgrade_eq (p := ⟨j.target, some b, j.view h p⟩) (hone.getElem? hx) hf rfl
  have hgive := giveUp_eq (p := ⟨j.target, some b, j.view h p⟩) (htwo.getElem? hx) hf rfl
    (by dsimp only; omega)
  have hback := giveUp_eq (hthree.getElem? hx) hf hb (by dsimp only; omega)
  simp only [Strong.projectLock, halias, hweak, hgive, hback]

/-- A weak reference comes, and two owners come and go. -/
theorem project_weak_granted (hb : w.block = some b) (hs : 0 < z.strong) : ∃ h',
    w.project j h = (h', ⟨j.target, some b, j.view (h.locked b) w.owner⟩) ∧ h.Shares b 0 1 h' := by
  have hlocked := Heap.shares_locked b h
  have hthree := (hlocked.trans (Heap.shares_addStrong b _)).trans (Heap.shares_addWeak b _)
  refine ⟨_, ?_, hthree.giveUpStrong.giveUpStrong⟩
  rw [Weak.project, Weak.lock?_granted hb hx hf (Nat.ne_of_gt hs)]
  exact projectLock_eq (p := w.owner) (hlocked.getElem? hx) hf hb (Nat.lt_add_of_pos_left hs)

/-- Without a lock there is no part. -/
theorem project_weak_refused (hb : w.block = some b) (hs : z.strong = 0) : ∃ h',
    w.project j h = (h', ⟨j.target, some b, none⟩) ∧ h.Shares b 0 1 h' := by
  have hrefused := Heap.shares_lockRefused b h
  refine ⟨_, ?_, hrefused.trans (Heap.shares_addWeak b _)⟩
  rw [Weak.project, Weak.lock?_refused hb hx hf hs]
  simp only [Weak.clone, Weak.acquire, hb, Heap.addWeak_eq (hrefused.getElem? hx) hf]

theorem derived_clone_strong (hb : p.block = some b) (hs : 0 < z.strong) :
    clone.Derived (.strong p) b h (p.clone h).1 (.strong (p.clone h).2) := by
  rw [clone_strong_eq hx hf hb hs]
  exact .strong id (Heap.shares_addStrong b h) hb id

theorem derived_clone_weak (hb : w.block = some b) :
    clone.Derived (.weak w) b h (w.clone h).1 (.weak (w.clone h).2) := by
  rw [clone_weak_eq hx hf hb]
  exact .weak id (Heap.shares_addWeak b h) hb id

/-- A projection adds an owner to the same block, unless it yields nothing. -/
theorem derived_project (hb : p.block = some b) (hs : 0 < z.strong) :
    (project j total).Derived (.strong p) b h (p.project j total h).1
      (.strong (p.project j total h).2) := by
  cases total with
  | true =>
    have hproject : p.project j true h = p.aliasing j.target (j.view h p) h := rfl
    rw [hproject, aliasing_eq hx hf hb hs]
    exact .strong id (Heap.shares_addStrong b h) rfl view_null
  | false =>
    cases hpart : j.part? h p with
    | none =>
      have hproject : p.project j false h = (h, .null j.target) := by
        simp only [Strong.project, hpart]
        rfl
      have hr : (project j false).Refused (.strong p) h := hpart
      rw [hproject]
      exact .refuse hr (.refl b h) _
    | some part =>
      have hproject : p.project j false h = p.aliasing j.target (some part) h := by
        simp only [Strong.project, hpart]
        rfl
      rw [hproject, aliasing_eq hx hf hb hs]
      refine .strong (fun hr => ?_) (Heap.shares_addStrong b h) rfl fun hp => ?_
      · cases hpart.symm.trans hr
      · cases hpart.symm.trans (part?_null hp)

theorem derived_project_weak (hb : w.block = some b) :
    (project j true).Derived (.weak w) b h (w.project j h).1 (.weak (w.project j h).2) := by
  by_cases hzero : z.strong = 0
  · obtain ⟨g, hproject, hshares⟩ := project_weak_refused (j := j) hx hf hb hzero
    rw [hproject]
    exact .weak id hshares rfl fun _ => rfl
  · have hpos := Nat.pos_of_ne_zero hzero
    obtain ⟨g, hproject, hshares⟩ := project_weak_granted (j := j) hx hf hb hpos
    rw [hproject]
    exact .weak id hshares rfl (view_null (p := w.owner))

/-- A cast adds an owner to the same block, unless it yields nothing. -/
theorem derived_cast (hb : p.block = some b) (hs : 0 < z.strong)
    (hc : p.cast? c h = some (h', q)) : (cast c).Derived (.strong p) b h h' (.strong q) := by
  unfold Strong.cast? at hc
  split at hc
  · next k view hview =>
    rw [aliasing_eq hx hf hb hs] at hc
    cases hc
    obtain ⟨heq, -⟩ | ⟨view', heq, hn, hnull⟩ := castView_ok hview
    · cases heq
    · cases heq
      exact .strong hn (Heap.shares_addStrong b h) rfl hnull
  · next k hview =>
    cases hc
    obtain ⟨-, hr⟩ | ⟨view', heq, -⟩ := castView_ok hview
    · exact .refuse hr (.refl b h) k
    · cases heq
  · cases hc

theorem derived_downgrade (hb : p.block = some b) :
    downgrade.Derived (.strong p) b h (p.downgrade h).1 (.weak (p.downgrade h).2) := by
  rw [downgrade_eq hx hf hb]
  exact .weak id (Heap.shares_addWeak b h) rfl id

theorem derived_lock (hb : w.block = some b) :
    lock.Derived (.weak w) b h (w.lock h).1 (.strong (w.lock h).2) := by
  have huse : w.use h = z.strong := by
    rw [Weak.use, hb, Option.map_some, Option.getD_some, Heap.strongCount_eq hx]
  by_cases hzero : z.strong = 0
  · have hr : lock.Refused (.weak w) h := huse.trans hzero
    rw [Weak.lock, Weak.lock?_refused hb hx hf hzero]
    exact .refuse hr (Heap.shares_lockRefused b h) _
  · rw [Weak.lock, Weak.lock?_granted hb hx hf hzero]
    exact .strong (fun hr => hzero (huse.symm.trans hr)) (Heap.shares_locked b h) hb id

/-- A pointer has one owner or one weak reference more. -/
theorem derived (hs : x.strongOn? = some b → 0 < z.strong) (hb : x.block? = some b)
    (hd : d.apply x h = some (h', y)) : d.Derived x b h h' y := by
  cases yields_of_apply hd with
  | cloneStrong p => exact derived_clone_strong hx hf hb (hs hb)
  | cloneWeak w => exact derived_clone_weak hx hf hb
  | project p j total => exact derived_project hx hf hb (hs hb)
  | projectWeak w j => exact derived_project_weak hx hf hb
  | cast hcast => exact derived_cast hx hf hb (hs hb) hcast
  | downgrade p => exact derived_downgrade hx hf hb
  | lock w => exact derived_lock hx hf hb

end

/-- Only strong and weak pointers are derived. -/
theorem isCounted_apply (hd : d.apply x h = some (h', y)) :
    (∃ q, y = .strong q) ∨ ∃ v, y = .weak v := by
  cases yields_of_apply hd with
  | cloneStrong | project | cast | lock => exact .inl ⟨_, rfl⟩
  | cloneWeak | projectWeak | downgrade => exact .inr ⟨_, rfl⟩

/-- Nothing is shared, and nothing changes. -/
theorem apply_null (hb : x.block? = none) (hv : x.view? = none)
    (hd : d.apply x h = some (h', y)) : h' = h ∧ y.block? = none ∧ y.view? = none := by
  cases yields_of_apply hd with
  | cloneStrong p =>
    have hb : p.block = none := hb
    have hclone : p.clone h = (h, p) := by simp only [Strong.clone, Strong.acquire, hb]
    rw [hclone]
    exact ⟨rfl, hb, hv⟩
  | cloneWeak w =>
    have hb : w.block = none := hb
    have hclone : w.clone h = (h, w) := by simp only [Weak.clone, Weak.acquire, hb]
    rw [hclone]
    exact ⟨rfl, hb, hv⟩
  | project p j total =>
    have hproject : p.project j total h = (h, .null j.target) := by
      cases total with
      | true =>
        have hb : p.block = none := hb
        have hview : j.view h p = none := view_null hv
        simp only [Strong.project, Bool.true_or, ↓reduceIte, hview, Strong.aliasing,
          Strong.acquire, hb]
        rfl
      | false =>
        have hpart : j.part? h p = none := part?_null hv
        simp only [Strong.project, hpart]
        rfl
    rw [hproject]
    exact ⟨rfl, rfl, rfl⟩
  | projectWeak w j =>
    have hb : w.block = none := hb
    have hproject : w.project j h = (h, ⟨j.target, none, none⟩) := by
      simp only [Weak.project, Weak.lock?_null hb, Weak.clone, Weak.acquire, hb]
    rw [hproject]
    exact ⟨rfl, rfl, rfl⟩
  | @cast p q c h' hcast =>
    have hb : p.block = none := hb
    unfold Strong.cast? at hcast
    split at hcast
    · next k view hview =>
      obtain ⟨heq, -⟩ | ⟨view', heq, -, hnull⟩ := castView_ok hview
      · cases heq
      · simp only [Strong.aliasing, Strong.acquire, hb] at hcast
        cases hcast
        cases heq
        exact ⟨rfl, rfl, hnull hv⟩
    · cases hcast
      exact ⟨rfl, rfl, rfl⟩
    · cases hcast
  | downgrade p =>
    have hb : p.block = none := hb
    have hdowngrade : p.downgrade h = (h, ⟨p.kind, none, p.view⟩) := by
      simp only [Strong.downgrade, Weak.acquire, hb]
    rw [hdowngrade]
    exact ⟨rfl, rfl, hv⟩
  | lock w =>
    rw [Weak.lock, Weak.lock?_null hb]
    exact ⟨rfl, rfl, rfl⟩

end Derivation

end Custody
