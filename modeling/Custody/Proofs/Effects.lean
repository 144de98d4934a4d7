import Custody.Proofs.Change

/-!
# What effects do to stakes

* `Strong.acquire_changes`, `Weak.acquire_changes`, `Unique.promote_ok`, `Strong.construct_ok` and
  their kind: the operations on pointers as changes.
* `Settlement.held`: the pointers that a settlement leaves in its actions.
* `Action.Inner`: the actions of closures and of the rounds of a loop.
* `Effect.Fits`: the operands of an effect, which are out of their tables, become by changes what
  its actions hold, and these work on tables that are there. One lemma for each effect.
-/

namespace Custody

variable {Y : Option Place} {h h' : Heap} {K : Multiset Stake}

theorem Changes.single {s t : Scene} (hc : Change Y s t) : Changes Y s t :=
  Relation.ReflTransGen.single hc

/-! ## Pointers that neither own nor count -/

namespace Slot

theorem free_strong {p : Strong} (hp : p.block = none) : (strong p).Free := ⟨hp, rfl, rfl, rfl⟩

theorem free_weak {w : Weak} (hw : w.block = none) : (weak w).Free := ⟨rfl, hw, rfl, rfl⟩

theorem free_unique {u : Unique} (hu : u.object = none) : (unique u).Free := ⟨rfl, rfl, hu, rfl⟩

theorem free_nullLike? {x null : Slot} (hx : Machine.nullLike? x = some null) :
    null.Free ∧ null.view? = none := by
  cases x with
  | raw => cases hx
  | strong | weak | unique =>
    cases hx
    exact ⟨⟨rfl, rfl, rfl, rfl⟩, rfl⟩

end Slot

theorem null_changes {x : Slot} (hx : x.Free) (hv : x.view? = none) :
    Changes Y (h, K) (h, .pointer x ::ₘ K) :=
  .single (.null hx hv)

theorem null_strong_changes (k : Kind) : Changes Y (h, K) (h, .pointer (.strong (.null k)) ::ₘ K) :=
  null_changes (Slot.free_strong rfl) rfl

/-! ## Operations on pointers -/

theorem Strong.acquire_changes {p q : Strong} (hp : .pointer (.strong p) ∈ K)
    (hq : (Slot.strong p).Begets Y h (.strong q)) :
    Changes Y (h, K) (Strong.acquire p.block h, .pointer (.strong q) ::ₘ K) := by
  have hblock : q.block = p.block := hq.block
  cases hb : p.block with
  | none => exact .single (.copy hp (Slot.free_strong (hblock.trans hb)) hq)
  | some b => exact .single (.share hp hb hq)

theorem Strong.aliasing_changes {p : Strong} {k : Kind} {v : Option Place}
    (hp : .pointer (.strong p) ∈ K) (hv : LeadsInto Y h p.kind p.view k v) :
    Changes Y (h, K) ((p.aliasing k v h).1, .pointer (.strong (p.aliasing k v h).2) ::ₘ K) :=
  Strong.acquire_changes hp ⟨rfl, hv⟩

theorem Weak.acquire_changes {x : Slot} {w : Weak} (hx : .pointer x ∈ K)
    (hw : x.Begets Y h (.weak w)) :
    Changes Y (h, K) (Weak.acquire x.block? h, .pointer (.weak w) ::ₘ K) := by
  have hblock : w.block = x.block? := hw.block
  cases hb : x.block? with
  | none => exact .single (.copy hx (Slot.free_weak (hblock.trans hb)) hw)
  | some b => exact .single (.observe hx hb hw)

/-- A lock that is granted makes a strong pointer with the owner and the view of the weak one. -/
theorem Weak.lock_some {w : Weak} {p : Strong} (hl : w.lock? h = (h', some p))
    (hw : .pointer (.weak w) ∈ K) :
    p = ⟨w.kind, w.block, w.view⟩ ∧ Changes Y (h, K) (h', .pointer (.strong p) ::ₘ K) := by
  unfold Weak.lock? at hl
  split at hl
  · cases hl
  · next b hb =>
    split at hl
    · cases hl
    · next alive =>
      cases hl
      exact ⟨rfl, .single (.lock hw hb alive ⟨rfl, .refl _⟩)⟩

/-- A lock that is refused changes nothing but what is counted and told. -/
theorem Weak.lock_none {w : Weak} (hl : w.lock? h = (h', none)) (hw : .pointer (.weak w) ∈ K) :
    Changes Y (h, K) (h', K) := by
  unfold Weak.lock? at hl
  split at hl
  · cases hl
    exact .refl
  · next b hb =>
    split at hl
    · next dead =>
      cases hl
      exact .single (.refuseLock hw hb dead)
    · cases hl

/-- A promotion turns the unique pointer into a strong one. -/
theorem Unique.promote_ok {u v : Unique} {s : Strong} (hp : u.promote h = (h', v, .ok s)) :
    v.object = none ∧
      Changes Y (h, .pointer (.unique u) ::ₘ K) (h', .pointer (.strong s) ::ₘ K) := by
  obtain ⟨k, a, o⟩ := u
  cases o with
  | none =>
    cases hp
    refine ⟨rfl, .tail (.single (.forget (Slot.free_unique rfl))) (.null ?_ rfl)⟩
    exact Slot.free_strong rfl
  | some o =>
    simp only [Unique.promote] at hp
    split at hp
    · next hc =>
      cases hp
      exact ⟨rfl, .single (.promote hc)⟩
    · cases hp

/-- A promotion that is refused leaves the unique pointer as it is. -/
theorem Unique.promote_error {u v : Unique} {l : Layout} (hp : u.promote h = (h', v, .error l)) :
    v = u ∧ Changes Y (h, .pointer (.unique u) ::ₘ K) (h', .pointer (.unique u) ::ₘ K) := by
  obtain ⟨k, a, o⟩ := u
  cases o with
  | none => cases hp
  | some o =>
    simp only [Unique.promote] at hp
    split at hp
    · cases hp
    · next hc =>
      cases hp
      exact ⟨rfl, .single (.refuseBlock (Multiset.mem_cons_self _ _) hc)⟩

/-- A construction that is granted leaves nothing over. -/
theorem Strong.construct_ok {k : Kind} {p : Pointee} {a : Alloc} {s : Strong}
    {surplus : List Unique} (hk : k.Suits p.content)
    (hc : Strong.construct k p a h = (h', .ok s, surplus)) :
    surplus = [] ∧ Changes Y (h, K) (h', .pointer (.strong s) ::ₘ K) := by
  unfold Strong.construct at hc
  split at hc
  · cases hc
  · next hu =>
    split at hc
    · next hp =>
      cases hc
      exact ⟨rfl, .head (.construct hk hu) (Unique.promote_ok hp).2⟩
    · cases hc

/-- What a refused construction leaves over are pointers to what has been made of it. -/
theorem Strong.construct_error {k : Kind} {p : Pointee} {a : Alloc} {l : Layout}
    {surplus : List Unique} (hk : k.Suits p.content)
    (hc : Strong.construct k p a h = (h', .error l, surplus)) :
    Changes Y (h, K) (h', pointersOf (surplus.map .unique) + K) := by
  unfold Strong.construct at hc
  split at hc
  · next hu =>
    cases hc
    exact .single (.construct hk hu)
  · next hu =>
    split at hc
    · cases hc
    · next hp =>
      cases hc
      obtain ⟨rfl, hp⟩ := Unique.promote_error hp
      exact .head (.construct hk hu) hp

theorem Strong.adopt_ok {r : Raw} {s : Strong} {surplus : List Unique}
    (hc : Strong.adopt r h = (h', .ok s, surplus)) :
    surplus = [] ∧ Changes Y (h, .pointer (.raw r) ::ₘ K) (h', .pointer (.strong s) ::ₘ K) := by
  unfold Strong.adopt at hc
  split at hc
  · next hp =>
    cases hc
    exact ⟨rfl, .head .adopt (Unique.promote_ok hp).2⟩
  · cases hc

theorem Strong.adopt_error {r : Raw} {l : Layout} {surplus : List Unique}
    (hc : Strong.adopt r h = (h', .error l, surplus)) :
    Changes Y (h, .pointer (.raw r) ::ₘ K) (h', pointersOf (surplus.map .unique) + K) := by
  unfold Strong.adopt at hc
  split at hc
  · cases hc
  · next hp =>
    cases hc
    obtain ⟨rfl, hp⟩ := Unique.promote_error hp
    exact .head .adopt hp

/-- Assignment leaves the source, and as surplus what it replaces. -/
theorem Strong.assign_changes {p source q : Strong} {surplus : List Strong}
    (ha : p.assign source h = (h', q, surplus)) (hk : p.kind = source.kind)
    (hs : .pointer (.strong source) ∈ K) :
    Changes Y (h, .pointer (.strong p) ::ₘ K)
      (h', pointersOf (surplus.map .strong) + .pointer (.strong q) ::ₘ K) := by
  have hview : LeadsInto Y h source.kind source.view p.kind source.view :=
    .same fun _ _ hp => hk ▸ hp
  unfold Strong.assign at ha
  split at ha
  · next hb =>
    cases ha
    rw [List.map_nil, pointersOf_nil, zero_add]
    refine .single (.revise ?_ hs ?_)
    · exact ⟨rfl, rfl, rfl, rfl, rfl, rfl⟩
    · exact ⟨hb, hview⟩
  · cases ha
    rw [List.map_singleton, pointersOf_singleton, Multiset.singleton_add, Multiset.cons_swap]
    exact Strong.acquire_changes (Multiset.mem_cons_of_mem hs) ⟨rfl, hview⟩

/-- The assigned pointer is a copy of the source, and the old one is left over. -/
theorem Weak.assign_changes {w source v : Weak} {surplus : List Weak}
    (ha : w.assign source h = (h', v, surplus)) (hk : w.kind = source.kind)
    (hs : .pointer (.weak source) ∈ K) :
    Changes Y (h, .pointer (.weak w) ::ₘ K)
      (h', pointersOf (surplus.map .weak) + .pointer (.weak v) ::ₘ K) := by
  have hview : LeadsInto Y h source.kind source.view w.kind source.view :=
    .same fun _ _ hp => hk ▸ hp
  unfold Weak.assign at ha
  split at ha
  · next hb =>
    cases ha
    rw [List.map_nil, pointersOf_nil, zero_add]
    refine .single (.revise ?_ hs ?_)
    · exact ⟨rfl, rfl, rfl, rfl, rfl, rfl⟩
    · exact ⟨hb, hview⟩
  · cases ha
    rw [List.map_singleton, pointersOf_singleton, Multiset.singleton_add, Multiset.cons_swap]
    exact Weak.acquire_changes (x := .weak source) (Multiset.mem_cons_of_mem hs) ⟨rfl, hview⟩

/-! ## Settlements -/

namespace Settlement

/-- The pointers that the actions of a settlement hold. -/
def held (s : Settlement) : List Slot :=
  s.surplus ++ s.operands.map (·.2) ++ s.made.toList.map (·.1)

theorem stakesOf_putBacks (counted : Bool) (xs : List (Location × Slot)) :
    stakesOf (putBacks counted xs) = pointersOf (xs.map (·.2)) := by
  induction xs generalizing counted with
  | nil => rfl
  | cons x xs ih =>
    rw [putBacks, stakesOf_cons, ih, List.map_cons, pointersOf_cons]
    rfl

theorem stakesOf_letGos (ts : List TableId) : stakesOf (letGos ts) = 0 := by
  refine stakesOf_eq_zero fun a ha => ?_
  obtain ⟨t, -, rfl⟩ := List.mem_map.mp ha
  rfl

/-- What a settlement leaves to do, with what it made read by its parts. -/
theorem actions_eq (s : Settlement) (ts : List TableId) :
    s.actions ts = s.surplus.map .drop ++ putBacks s.counted s.operands ++
      (s.made.toList.map fun x => .place x.1 x.2.1 x.2.2) ++ s.reply.toList.map .answer ++
      letGos ts :=
  rfl

theorem stakesOf_actions (s : Settlement) (ts : List TableId) :
    stakesOf (s.actions ts) = pointersOf s.held := by
  obtain ⟨surplus, operands, counted, made, reply⟩ := s
  have hreply : stakesOf (reply.toList.map .answer) = 0 := by
    cases reply <;> rfl
  cases made <;>
    simp [actions, held, stakesOf_putBacks, stakesOf_letGos, hreply, Action.stakes, Action.slots]

theorem mem_putBacks {counted : Bool} {xs : List (Location × Slot)} {a : Action}
    (ha : a ∈ putBacks counted xs) : ∃ loc x counted, a = .putBack loc x counted := by
  induction xs generalizing counted with
  | nil => cases ha
  | cons x xs ih =>
    rcases List.mem_cons.mp ha with rfl | ha
    · exact ⟨_, _, _, rfl⟩
    · exact ih ha

theorem worksOn_putBacks {counted : Bool} {xs : List (Location × Slot)} {a : Action} {t : TableId}
    (ha : a ∈ putBacks counted xs) (ht : a.worksOn t) : ∃ x ∈ xs, x.1.table = t := by
  induction xs generalizing counted with
  | nil => cases ha
  | cons x xs ih =>
    rcases List.mem_cons.mp ha with rfl | ha
    · exact ⟨x, List.mem_cons_self, by simpa [Action.worksOn] using ht⟩
    · obtain ⟨y, hy, hyt⟩ := ih ha
      exact ⟨y, List.mem_cons_of_mem _ hy, hyt⟩

/-- The actions of a settlement work on the tables of its operands, and let go of those named. -/
theorem worksOn_actions {s : Settlement} {ts : List TableId} {a : Action} {t : TableId}
    (ha : a ∈ s.actions ts) (ht : a.worksOn t) : t ∈ ts ∨ ∃ x ∈ s.operands, x.1.table = t := by
  simp only [actions, List.mem_append, List.mem_map, letGos] at ha
  rcases ha with (((⟨x, -, rfl⟩ | ha) | ⟨x, -, rfl⟩) | ⟨r, -, rfl⟩) | ⟨s, hs, rfl⟩
  · cases ht
  · exact .inr (worksOn_putBacks ha ht)
  · cases ht
  · cases ht
  · obtain rfl : s = t := by simpa [Action.worksOn] using ht
    exact .inl (List.mem_filter.mp hs).1

end Settlement

/-- A projection leads to the kind that its selector is typed to lead to. -/
def Projection.IsTyped (j : Projection) (k : Kind) : Prop :=
  j.selector.target? k = some j.target ∨ j.selector.tryTarget? k = some j.target

/-- What is projected has such a part as its kind. -/
def Action.IsTyped : Action → Prop
  | project j source _ => j.IsTyped source.kind
  | projectWeak j _ locked => j.IsTyped locked.kind
  | _ => True

/-- The tables that the action will work on are there, and it does what it is typed to do. -/
structure Action.Lands (h : Heap) (a : Action) : Prop where
  tables : ∀ t, a.worksOn t → h.Has t
  typed : a.IsTyped

theorem Machine.lands_of_not_worksOn {a : Action} (ha : ∀ t, a.worksOn t = false) : a.Lands h where
  tables t ht := by
    rw [ha t] at ht
    cases ht
  typed := by
    cases a with
    | project j | projectWeak j =>
      have := ha j.source.table
      simp [Action.worksOn] at this
    | _ => trivial

/-- What runs inside a step: the steps of its body, and what collects their replies. -/
inductive Action.Inner (body : List Step) : Action → Prop
  | exec {s : Step} (hs : s ∈ body) : Inner body (.exec s)
  | answer (r : Reply) : Inner body (.answer r)
  | gather (n : Nat) : Inner body (.gather n)
  | forget (n : Nat) : Inner body (.forget n)
  | round (n : Nat) : Inner body (.round n body)

namespace Action.Inner

variable {body : List Step} {a : Action}

theorem stakes (ha : a.Inner body) : a.stakes = 0 := by cases ha <;> rfl

theorem worksOn (ha : a.Inner body) (t : TableId) : a.worksOn t = false := by cases ha <;> rfl

end Action.Inner

theorem Settlement.typed_actions {s : Settlement} {ts : List TableId} {a : Action}
    (ha : a ∈ s.actions ts) : a.IsTyped := by
  simp only [actions, List.mem_append, List.mem_map, letGos] at ha
  rcases ha with (((⟨x, -, rfl⟩ | ha) | ⟨x, -, rfl⟩) | ⟨r, -, rfl⟩) | ⟨s, hs, rfl⟩
  case inl.inl.inl.inr =>
    obtain ⟨loc, x, counted, rfl⟩ := mem_putBacks ha
    trivial
  all_goals trivial

namespace Effect

/-- With `xs` out of their tables and `K` besides, the call makes changes only. -/
structure Fits (Y : Option Place) (e : Effect) (h : Heap) (xs : List Slot) (K : Multiset Stake) :
    Prop where
  changes : Changes Y (h, pointersOf xs + K) ((e.call h).1, stakesOf (e.call h).2 + K)
  tables : ∀ a ∈ (e.call h).2, a.Lands h

/-- A call whose settlement accounts for all stakes fits. -/
theorem fits_closing {ts : List TableId} {call : Heap → Heap × Settlement} {s : Settlement}
    {xs : List Slot} (hc : call h = (h', s))
    (hs : Changes Y (h, pointersOf xs + K) (h', pointersOf s.held + K))
    (ht : ∀ t ∈ ts, h.Has t) (ho : ∀ x ∈ s.operands, h.Has x.1.table) :
    (closing ts call).Fits Y h xs K := by
  constructor
  · simpa [closing, hc, Settlement.stakesOf_actions] using hs
  · intro a ha
    simp only [closing, hc] at ha
    refine ⟨fun t hat => ?_, Settlement.typed_actions ha⟩
    rcases Settlement.worksOn_actions ha hat with hts | ⟨x, hx, rfl⟩
    · exact ht t hts
    · exact ho x hx

theorem fits_settling {taken : List Location} {call : Heap → Heap × Settlement} {s : Settlement}
    {xs : List Slot} (hc : call h = (h', s))
    (hs : Changes Y (h, pointersOf xs + K) (h', pointersOf s.held + K))
    (ht : ∀ l ∈ taken, h.Has l.table) (ho : ∀ x ∈ s.operands, h.Has x.1.table) :
    (settling taken call).Fits Y h xs K := by
  have hf := fits_closing hc hs (List.forall_mem_map.mpr ht) ho
  exact ⟨hf.changes, hf.tables⟩

/-! ## Reading and writing -/

theorem answer_fits (r : Reply) : (answer r).Fits Y h [] K where
  changes := .refl
  tables := by
    rintro a (- | ⟨-, ⟨⟩⟩)
    exact Machine.lands_of_not_worksOn fun _ => rfl

theorem setBudget_fits (limit : Option Nat) : (setBudget limit).Fits Y h [] K where
  changes := by simpa [setBudget, Action.stakes, Action.slots] using .single (.setBudget limit)
  tables := by
    rintro a (- | ⟨-, ⟨⟩⟩)
    exact Machine.lands_of_not_worksOn fun _ => rfl

theorem resetMetrics_fits : resetMetrics.Fits Y h [] K where
  changes := by simpa [resetMetrics, Action.stakes, Action.slots] using .single .resetMetrics
  tables := by
    rintro a (- | ⟨-, ⟨⟩⟩)
    exact Machine.lands_of_not_worksOn fun _ => rfl

theorem remember_fits (name : String) : (remember name).Fits Y h [] K where
  changes := .refl
  tables := by
    rintro a (- | ⟨-, ⟨⟩⟩)
    exact Machine.lands_of_not_worksOn fun _ => rfl

theorem loop_fits (n : Nat) (body : List Step) :
    (Effect.mk [] fun h => (h, [.round n body])).Fits Y h [] K where
  changes := .refl
  tables := by
    rintro a (- | ⟨-, ⟨⟩⟩)
    exact Machine.lands_of_not_worksOn fun _ => rfl

theorem write_fits {x : Slot} {p : Place} {c : Content} {value : Literal} (hx : .pointer x ∈ K)
    (hp : x.writable? h = some (some p)) (hc : written? h x.kind p value = some c) :
    (write p c).Fits Y h [] K where
  changes := by simpa [write, Action.stakes, Action.slots] using .single (.write hx hp hc)
  tables := by
    rintro a (- | ⟨-, ⟨⟩⟩)
    exact Machine.lands_of_not_worksOn fun _ => rfl

/-! ## Construction -/

theorem store_fits {x : Slot} {dst : Path} (hx : x.Free) (hv : x.view? = none) :
    (store x dst).Fits Y h [] K := by
  refine fits_settling rfl ?_ (by simp) (by simp)
  simpa [Settlement.held] using null_changes hx hv

theorem construct_fits {k : Kind} {p : Pointee} {a : Alloc} {dst : Path}
    (hk : k.Suits p.content) :
    (construct k p a dst).Fits Y h [] K := by
  rcases hc : Strong.construct k p a h with ⟨h', l | s, surplus⟩
  · refine fits_settling (by rw [hc]) ?_ (by simp) (by simp)
    simpa [Settlement.held] using Strong.construct_error hk hc
  · obtain ⟨rfl, hs⟩ := Strong.construct_ok (Y := Y) (K := K) hk hc
    refine fits_settling (by rw [hc]) ?_ (by simp) (by simp)
    simpa [Settlement.held] using hs

theorem constructUnique_fits {k : Kind} {p : Pointee} {a : Alloc} {dst : Path}
    (hs : k.Suits p.content) :
    (constructUnique k p a dst).Fits Y h [] K := by
  by_cases hk : isCopied k
  · rcases hc : h.construct p a with ⟨h', o, _ | l⟩
    all_goals
      refine fits_settling (by simp only [hk, hc]; rfl) ?_ (by simp) (by simp)
      simpa [Settlement.held] using .single (.copyIn hs hc)
  · rcases hc : Unique.construct k p a h with ⟨h', u, _ | l⟩
    all_goals
      refine fits_settling (by simp only [hk, hc]; rfl) ?_ (by simp) (by simp)
      simpa [Settlement.held] using .single (.construct hs hc)

theorem constructRaw_fits {k : Kind} {p : Pointee} {dst : Path} (hk : k.Suits p.content) :
    (constructRaw k p dst).Fits Y h [] K := by
  rcases hc : Unique.construct k p .global h with ⟨h', u, r⟩
  obtain ⟨h₁, o, -, rfl, -⟩ := Unique.construct_eq hc
  cases r with
  | some l =>
    refine fits_settling (by rw [hc]) ?_ (by simp) (by simp)
    simpa [Settlement.held] using .single (.construct hk hc)
  | none =>
    refine fits_settling (by rw [hc]) ?_ (by simp) (by simp)
    simpa [Settlement.held, Unique.release] using .tail (.single (.construct hk hc)) .release

/-! ## Ownership -/

section Ownership

variable {loc srcLoc : Location} {dst : Path}

theorem promote_fits {u : Unique} (hl : h.Has loc.table) :
    (promote loc u dst).Fits Y h [.unique u] K := by
  rcases hp : u.promote h with ⟨h', v, l | s⟩
  · obtain ⟨rfl, hc⟩ := Unique.promote_error (K := K) hp
    refine fits_settling (by rw [hp]) ?_ (by simpa using hl) (by simpa using hl)
    simpa [Settlement.held] using hc
  · obtain ⟨hv, hc⟩ := Unique.promote_ok (K := K) hp
    refine fits_settling (by rw [hp]) ?_ (by simpa using hl) (by simpa using hl)
    have hview : v.view = none := by rw [Unique.view, hv, Option.map_none]
    simpa [Settlement.held] using hc.trans (null_changes (Slot.free_unique hv) hview)

theorem share_fits {u : Unique} (hl : h.Has loc.table) :
    (share loc u dst).Fits Y h [.unique u] K := by
  rcases hp : u.promote h with ⟨h', v, l | s⟩
  · obtain ⟨rfl, hc⟩ := Unique.promote_error (K := K) hp
    refine fits_settling (by rw [hp]) ?_ (by simpa using hl) (by simpa using hl)
    simpa [Settlement.held] using hc
  · obtain ⟨-, hc⟩ := Unique.promote_ok (K := K) hp
    refine fits_settling (by rw [hp]) ?_ (by simpa using hl) (by simp)
    simpa [Settlement.held] using hc

theorem release_fits {u : Unique} {keep : Bool} (hl : h.Has loc.table) :
    (release loc u dst keep).Fits Y h [.unique u] K := by
  obtain ⟨k, a, o⟩ := u
  cases o with
  | none =>
    cases keep
    · refine fits_settling rfl ?_ (by simpa using hl) (by simp)
      simpa [Settlement.held, Unique.release] using .single (.forget (Slot.free_unique rfl))
    · exact fits_settling rfl .refl (by simpa using hl) (by simpa using hl)
  | some o =>
    have hr : Changes Y (h, .pointer (.unique ⟨k, a, some o⟩) ::ₘ K)
      (h, .pointer (.raw ⟨k, a, o⟩) ::ₘ K) := .single .release
    cases keep
    · refine fits_settling rfl ?_ (by simpa using hl) (by simp)
      simpa [Settlement.held, Unique.release] using hr
    · refine fits_settling rfl ?_ (by simpa using hl) (by simpa using hl)
      have hnull := null_changes (Y := Y) (h := h) (K := .pointer (.raw ⟨k, a, o⟩) ::ₘ K)
        (Slot.free_unique (u := .null k a) rfl) rfl
      simpa [Settlement.held, Unique.release] using hr.trans hnull

theorem adoptUnique_fits {r : Raw} (hl : h.Has loc.table) :
    (adoptUnique loc r dst).Fits Y h [.raw r] K := by
  refine fits_settling rfl ?_ (by simpa using hl) (by simp)
  simpa [Settlement.held] using .single .adopt

theorem adopt_fits {r : Raw} (hl : h.Has loc.table) : (adopt loc r dst).Fits Y h [.raw r] K := by
  rcases hc : Strong.adopt r h with ⟨h', l | s, surplus⟩
  · refine fits_settling (by rw [hc]) ?_ (by simpa using hl) (by simp)
    simpa [Settlement.held] using Strong.adopt_error hc
  · obtain ⟨rfl, hs⟩ := Strong.adopt_ok (K := K) hc
    refine fits_settling (by rw [hc]) ?_ (by simpa using hl) (by simp)
    simpa [Settlement.held] using hs

theorem resetRaw_fits {p : Strong} {r : Raw} (hl : h.Has loc.table) (hs : h.Has srcLoc.table) :
    (resetRaw loc p srcLoc r).Fits Y h [.strong p, .raw r] K := by
  rcases hc : Strong.adopt r h with ⟨h', l | s, surplus⟩
  · refine fits_settling (by rw [hc, replace]) ?_ (by simpa using ⟨hl, hs⟩) (by simpa using hl)
    have := Strong.adopt_error (Y := Y) (K := .pointer (.strong p) ::ₘ K) hc
    simpa [Settlement.held, Multiset.cons_swap, add_assoc] using this
  · obtain ⟨rfl, ha⟩ := Strong.adopt_ok (K := .pointer (.strong p) ::ₘ K) hc
    refine fits_settling (by rw [hc, replace]) ?_ (by simpa using ⟨hl, hs⟩) (by simpa using hl)
    simpa [Settlement.held, Multiset.cons_swap] using ha

theorem resetWith_fits {p : Strong} {value : Pointee} (hk : p.kind.Suits value.content)
    (hl : h.Has loc.table) :
    (resetWith loc p value).Fits Y h [.strong p] K := by
  rcases hc : Strong.construct p.kind value .global h with ⟨h', l | s, surplus⟩
  · refine fits_settling (by rw [hc, replace]) ?_ (by simpa using hl) (by simpa using hl)
    have := Strong.construct_error (Y := Y) (K := .pointer (.strong p) ::ₘ K) hk hc
    simpa [Settlement.held, add_assoc] using this
  · obtain ⟨rfl, hs⟩ := Strong.construct_ok (Y := Y) (K := .pointer (.strong p) ::ₘ K) hk hc
    refine fits_settling (by rw [hc, replace]) ?_ (by simpa using hl) (by simpa using hl)
    simpa [Settlement.held, Multiset.cons_swap] using hs

theorem move_fits {x : Slot} (hl : h.Has loc.table) (hd : h.Has srcLoc.table) :
    (move loc x srcLoc).Fits Y h [x] K :=
  fits_settling rfl .refl (by simpa using hl) (by simpa using hd)

theorem drop_fits {x : Slot} (hl : h.Has loc.table) : (drop loc x).Fits Y h [x] K :=
  fits_settling rfl .refl (by simpa using hl) (by simp)

theorem cloneStrong_fits {p : Strong} (hl : h.Has loc.table) :
    (cloneStrong loc p dst).Fits Y h [.strong p] K := by
  refine fits_settling rfl ?_ (by simpa using hl) (by simpa using hl)
  have := Strong.acquire_changes (Y := Y) (h := h) (Multiset.mem_cons_self (.pointer (.strong p)) K)
    ⟨rfl, .refl _⟩
  simpa [Settlement.held, Multiset.cons_swap] using this

theorem cloneWeak_fits {w : Weak} (hl : h.Has loc.table) :
    (cloneWeak loc w dst).Fits Y h [.weak w] K := by
  refine fits_settling rfl ?_ (by simpa using hl) (by simpa using hl)
  have := Weak.acquire_changes (Y := Y) (h := h) (w := w)
    (Multiset.mem_cons_self (.pointer (.weak w)) K)
    ⟨rfl, .refl _⟩
  simpa [Settlement.held, Multiset.cons_swap, Slot.block?] using this

theorem assignStrong_fits {p source : Strong} (hk : p.kind = source.kind) (hl : h.Has loc.table)
    (hs : h.Has srcLoc.table) :
    (assignStrong loc p srcLoc source).Fits Y h [.strong p, .strong source] K := by
  rcases ha : p.assign source h with ⟨h', q, surplus⟩
  have := Strong.assign_changes (Y := Y) ha hk (Multiset.mem_cons_self _ K)
  refine fits_settling (by rw [ha]) ?_ (by simpa using ⟨hl, hs⟩) (by simpa using ⟨hl, hs⟩)
  simpa [Settlement.held, add_assoc] using this

theorem assignWeak_fits {w source : Weak} (hk : w.kind = source.kind) (hl : h.Has loc.table)
    (hs : h.Has srcLoc.table) :
    (assignWeak loc w srcLoc source).Fits Y h [.weak w, .weak source] K := by
  rcases ha : w.assign source h with ⟨h', v, surplus⟩
  have := Weak.assign_changes (Y := Y) ha hk (Multiset.mem_cons_self _ K)
  refine fits_settling (by rw [ha]) ?_ (by simpa using ⟨hl, hs⟩) (by simpa using ⟨hl, hs⟩)
  simpa [Settlement.held, add_assoc] using this

theorem takeStrong_fits {p : Strong} (hl : h.Has loc.table) :
    (takeStrong loc p dst).Fits Y h [.strong p] K := by
  refine fits_settling rfl ?_ (by simpa using hl) (by simpa using hl)
  simpa [Settlement.held] using null_strong_changes p.kind

theorem swap_fits {x y : Slot} (hl : h.Has loc.table) (hs : h.Has srcLoc.table) :
    (swap loc x srcLoc y).Fits Y h [x, y] K := by
  refine fits_settling rfl ?_ (by simpa using ⟨hl, hs⟩) (by simpa using ⟨hl, hs⟩)
  simp [Settlement.held, Multiset.cons_swap, Relation.ReflTransGen.refl]

theorem reset_fits {x null : Slot} (hx : Machine.nullLike? x = some null) (hl : h.Has loc.table) :
    (reset loc x null).Fits Y h [x] K := by
  obtain ⟨hfree, hview⟩ := Slot.free_nullLike? hx
  refine fits_settling rfl ?_ (by simpa using hl) (by simpa using hl)
  have := null_changes (Y := Y) (h := h) (K := .pointer x ::ₘ K) hfree hview
  simpa [Settlement.held, Multiset.cons_swap] using this

end Ownership

/-! ## Views -/

section Views

variable {loc likeLoc : Location} {dst : Path} {j : Projection}

theorem downgrade_fits {p : Strong} (hl : h.Has loc.table) :
    (downgrade loc p dst).Fits Y h [.strong p] K := by
  refine fits_settling rfl ?_ (by simpa using hl) (by simpa using hl)
  have := Weak.acquire_changes (Y := Y) (h := h) (x := .strong p) (w := ⟨p.kind, p.block, p.view⟩)
    (Multiset.mem_cons_self (.pointer (.strong p)) K) ⟨rfl, .refl _⟩
  simpa [Settlement.held, Multiset.cons_swap, Slot.block?] using this

theorem lock_fits {w : Weak} {fail : Bool} (hl : h.Has loc.table) :
    (lock loc w dst fail).Fits Y h [.weak w] K := by
  rcases hw : w.lock? h with ⟨h', _ | p⟩
  · have hc := Weak.lock_none (Y := Y) hw (Multiset.mem_cons_self _ K)
    cases fail
    · refine fits_settling (by simp only [hw]; rfl) ?_ (by simpa using hl) (by simpa using hl)
      have := hc.trans (null_strong_changes w.kind)
      simpa [Settlement.held, Multiset.cons_swap] using this
    · refine fits_settling (by simp only [hw]; rfl) ?_ (by simpa using hl) (by simpa using hl)
      simpa [Settlement.held] using hc
  · obtain ⟨-, hc⟩ := Weak.lock_some (Y := Y) hw (Multiset.mem_cons_self _ K)
    refine fits_settling (by simp only [hw]; rfl) ?_ (by simpa using hl) (by simpa using hl)
    simpa [Settlement.held, Multiset.cons_swap] using hc

theorem cast_fits {p : Strong} {k : Kind} {view : Option (Option Place)}
    (hv : ∀ v, view = some v → LeadsInto Y h p.kind p.view k v) (hl : h.Has loc.table) :
    (cast loc p k view dst).Fits Y h [.strong p] K := by
  cases view with
  | none =>
    refine fits_settling rfl ?_ (by simpa using hl) (by simpa using hl)
    have := null_strong_changes (Y := Y) (h := h) (K := .pointer (.strong p) ::ₘ K) k
    simpa [Settlement.held, Multiset.cons_swap] using this
  | some v =>
    refine fits_settling rfl ?_ (by simpa using hl) (by simpa using hl)
    have := Strong.aliasing_changes (Y := Y) (h := h) (k := k)
      (Multiset.mem_cons_self (.pointer (.strong p)) K) (hv v rfl)
    simpa [Settlement.held, Multiset.cons_swap, Strong.aliasing] using this

theorem aliasLike_fits {p like : Strong} (hb : p.block = like.block) (hl : h.Has loc.table)
    (hk : h.Has likeLoc.table) :
    (aliasLike loc p likeLoc like dst).Fits Y h [.strong p, .strong like] K := by
  refine fits_settling rfl ?_ (by simpa using ⟨hl, hk⟩) (by simpa using ⟨hl, hk⟩)
  have := Strong.aliasing_changes (Y := Y) (h := h) (k := like.kind)
    (Multiset.mem_cons_of_mem (a := .pointer (.strong like)) (b := .pointer (.strong p))
      (Multiset.mem_cons_self _ K)) (.refl like.view)
  simpa [Settlement.held, Multiset.cons_swap, Strong.aliasing, hb] using this

theorem inner_closure {called listed : Bool} {during : List Step} {a : Action}
    (ha : a ∈ closure called during listed) : a.Inner during := by
  unfold closure at ha
  cases called <;> cases listed <;> simp at ha
  · subst ha
    exact .answer _
  all_goals
    rcases ha with ⟨s, hs, rfl⟩ | rfl
    · exact .exec hs
    · constructor

theorem stakesOf_closure (called : Bool) (during : List Step) (listed : Bool) :
    stakesOf (closure called during listed) = 0 :=
  stakesOf_eq_zero fun _ ha => (inner_closure ha).stakes

/-- The pointer that is projected waits in an action for the steps of the closure. -/
theorem projecting_fits {p : Strong} {during : List Step} (total : Bool)
    (hj : j.IsTyped p.kind) (hl : h.Has j.source.table) :
    (Effect.mk [j.source] fun h =>
      (h, closure p.view.isSome during j.listed ++ [.project j p total])).Fits Y h [.strong p] K where
  changes := by
    simp only [stakesOf_append, stakesOf_closure, zero_add]
    exact .refl
  tables := by
    intro a ha
    rcases List.mem_append.mp ha with ha | ha
    · exact Machine.lands_of_not_worksOn (inner_closure ha).worksOn
    · obtain rfl := List.mem_singleton.mp ha
      refine ⟨fun t ht => ?_, hj⟩
      obtain rfl : j.source.table = t := by simpa [Action.worksOn] using ht
      exact hl

/-- It fits whether the lock is granted or refused. -/
theorem mapWeak_fits {w : Weak} {during : List Step} (hj : j.IsTyped w.kind)
    (hl : h.Has j.source.table) :
    (mapWeak j w during).Fits Y h [.weak w] K := by
  rcases hw : w.lock? h with ⟨h', _ | p⟩
  · have hc := (Weak.lock_none (Y := Y) hw (Multiset.mem_cons_self _ K)).trans
      (Weak.acquire_changes (x := .weak w) (w := { w with kind := j.target, view := none })
        (Multiset.mem_cons_self _ K) ⟨rfl, .null _ _ _⟩)
    constructor
    · simpa [mapWeak, hw, stakesOf_closure, Settlement.stakesOf_actions, Settlement.held,
        Weak.clone, Slot.block?, Multiset.cons_swap] using hc
    · intro a ha
      simp only [mapWeak, hw, Weak.clone] at ha
      rcases List.mem_append.mp ha with ha | ha
      · exact Machine.lands_of_not_worksOn (inner_closure ha).worksOn
      · refine ⟨fun t ht => ?_, Settlement.typed_actions ha⟩
        rcases Settlement.worksOn_actions ha ht with hts | ⟨x, hx, rfl⟩
        · obtain rfl := List.mem_singleton.mp hts
          exact hl
        · obtain rfl := List.mem_singleton.mp hx
          exact hl
  · obtain ⟨rfl, hc⟩ := Weak.lock_some (Y := Y) hw (Multiset.mem_cons_self _ K)
    constructor
    · simpa [mapWeak, hw, stakesOf_closure, Action.stakes, Action.slots, Multiset.cons_swap] using hc
    · intro a ha
      simp only [mapWeak, hw] at ha
      rcases List.mem_append.mp ha with ha | ha
      · exact Machine.lands_of_not_worksOn (inner_closure ha).worksOn
      · obtain rfl := List.mem_singleton.mp ha
        refine ⟨fun t ht => ?_, hj⟩
        obtain rfl : j.source.table = t := by simpa [Action.worksOn] using ht
        exact hl

end Views

end Effect

end Custody
