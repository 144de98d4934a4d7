import Custody.Proofs.Effects

/-!
# What plans may be

* `Machine.Finds`: slots at locations, no two of them the same.
* `Machine.Planned`: the effects that a step can have, with what was found for them.
* `Machine.Admits`: the operands of an effect are where it takes them from, and the effect fits
  the machine without them. So it is with all effects that a step can have
  (`Machine.Planned.admits`).
-/

namespace Custody

theorem bind_eq_ok {ε α β : Type} {x : Except ε α} {f : α → Except ε β} {b : β} :
    x >>= f = .ok b ↔ ∃ a, x = .ok a ∧ f a = .ok b := by
  cases x <;> simp [bind, Except.bind]

theorem pure_eq_ok {ε α : Type} {a b : α} : (pure a : Except ε α) = .ok b ↔ a = b := by
  simp [pure, Except.pure]

/-- The view that the step yields from nowhere. -/
def Step.yield? : Step → Option Place
  | .aliasStatic _ s _ => some (.static s)
  | _ => none

namespace Machine

/-- The weak pointer that the step tries to lock. -/
def attempted? (m : Machine) : Step → Option Weak
  | .lock src _ | .tryLock src _ =>
    match m.findWeak src with
    | .ok (_, w) => some w
    | .error _ => none
  | .map src part _ _ _ =>
    match m.find src with
    | .ok (_, .weak w) => if (part.bind (·.target? w.kind)).isSome then some w else none
    | _ => none
  | _ => none

variable {Y : Option Place} {m : Machine} {p q : Path} {loc other : Location} {x y : Slot}
  {e : Effect}

/-! ## Finding slots -/

theorem lookup_ok (h : m.lookup loc = .ok x) : m.get? loc = some x := by
  unfold lookup at h
  split at h
  · next hg =>
    cases h
    exact hg
  · cases h

theorem locate_ok (h : m.locate p = .ok loc) : m.resolve? p = some loc := by
  unfold locate at h
  split at h
  · next hr =>
    cases h
    exact hr
  · cases h

theorem find_ok (h : m.find p = .ok (loc, x)) : m.get? loc = some x := by
  simp only [find, bind_eq_ok, pure_eq_ok] at h
  obtain ⟨l, -, y, hy, hxy⟩ := h
  cases hxy
  exact lookup_ok hy

/-- Two slots, and not one slot twice. -/
structure FindsTwo (m : Machine) (loc : Location) (x : Slot) (other : Location) (y : Slot) :
    Prop where
  ne : loc ≠ other
  first : m.get? loc = some x
  second : m.get? other = some y

/-- Two slots that are found are at different locations. -/
theorem findTwo_ok (h : m.findTwo p q = .ok ((loc, x), (other, y))) :
    m.FindsTwo loc x other y := by
  unfold findTwo at h
  split at h
  · cases h
  · simp only [bind_eq_ok] at h
    obtain ⟨first, -, second, -, z, hz, h⟩ := h
    split at h
    · cases h
    · next hne =>
      simp only [bind_eq_ok, pure_eq_ok] at h
      obtain ⟨w, hw, h⟩ := h
      cases h
      exact ⟨hne, lookup_ok hz, lookup_ok hw⟩

/-- A slot that was found to be of the family `c` is where it was found. -/
theorem findFamily_ok {α : Type} {c : α → Slot} {s : α}
    {f : Location × Slot → Except Failure (Location × α)} (h : m.find p >>= f = .ok (loc, s))
    (hf : ∀ found, f found = .ok (loc, s) → found = (loc, c s)) : m.get? loc = some (c s) := by
  obtain ⟨found, hfound, h⟩ := bind_eq_ok.mp h
  obtain rfl := hf found h
  exact find_ok hfound

theorem findStrong_ok {s : Strong} (h : m.findStrong p = .ok (loc, s)) :
    m.get? loc = some (.strong s) := by
  refine findFamily_ok h fun found hf => ?_
  obtain ⟨l, x⟩ := found
  cases x <;> cases hf
  rfl

theorem findWeak_ok {w : Weak} (h : m.findWeak p = .ok (loc, w)) :
    m.get? loc = some (.weak w) := by
  refine findFamily_ok h fun found hf => ?_
  obtain ⟨l, x⟩ := found
  cases x <;> cases hf
  rfl

theorem findUnique_ok {u : Unique} (h : m.findUnique p = .ok (loc, u)) :
    m.get? loc = some (.unique u) := by
  refine findFamily_ok h fun found hf => ?_
  obtain ⟨l, x⟩ := found
  cases x <;> cases hf
  rfl

theorem findRaw_ok {r : Raw} (h : m.findRaw p = .ok (loc, r)) :
    m.get? loc = some (.raw r) := by
  refine findFamily_ok h fun found hf => ?_
  obtain ⟨l, x⟩ := found
  cases x <;> cases hf
  rfl

/-! ## Taking slots out -/

@[simp] theorem size_withTable (t : TableId) (new : Table) :
    (m.withTable t new).heap.objects.size = m.heap.objects.size := by
  cases t <;> simp [withTable, mapEnv, mapHeap, Heap.withLinks, Heap.updateObject]

theorem table_withTable {t : TableId} (ht : m.heap.Has t) (new : Table) :
    (m.withTable t new).table t = new := by
  cases t with
  | root => rfl
  | links o =>
    have ho : o < m.heap.objects.size := ht
    simp [withTable, mapHeap, table, Heap.withLinks, Heap.updateObject, Heap.linksOf, ho,
      Array.getElem_modify]

theorem table_withTable_of_ne {t t' : TableId} (ht : t ≠ t') (new : Table) :
    (m.withTable t new).table t' = m.table t' := by
  cases t <;> cases t'
  · exact absurd rfl ht
  · rfl
  · rfl
  · next o o' =>
    have ho : o ≠ o' := fun h => ht (h ▸ rfl)
    simp [withTable, mapHeap, table, Heap.withLinks, Heap.updateObject, Heap.linksOf,
      Array.getElem?_modify, ho]

theorem get?_erase_of_ne (hx : m.get? loc = some x) (hne : loc ≠ other) :
    (m.erase loc).get? other = m.get? other := by
  obtain ⟨t, name⟩ := loc
  obtain ⟨t', name'⟩ := other
  by_cases ht : t = t'
  · subst ht
    have hn : name ≠ name' := fun h => hne (h ▸ rfl)
    simp only [get?, erase, table_withTable (has_of_get? hx)]
    rw [Table.get?_erase, if_neg hn]
  · simp only [get?, erase, table_withTable_of_ne ht]

/-- The slots `xs` are at the locations `locs`, all different. -/
def Finds (m : Machine) : List Location → List Slot → Prop
  | [], [] => True
  | loc :: locs, x :: xs => m.get? loc = some x ∧ (m.erase loc).Finds locs xs
  | _, _ => False

theorem finds_nil : m.Finds [] [] := trivial

theorem finds_one (hx : m.get? loc = some x) : m.Finds [loc] [x] := ⟨hx, trivial⟩

theorem FindsTwo.finds (h : m.FindsTwo loc x other y) : m.Finds [loc, other] [x, y] :=
  ⟨h.first, (get?_erase_of_ne h.first h.ne).trans h.second, trivial⟩

@[simp] theorem takeOut_nil : m.takeOut [] = m := rfl

@[simp] theorem takeOut_cons (loc : Location) (locs : List Location) :
    m.takeOut (loc :: locs) = (m.erase loc).takeOut locs := rfl

/-- Slots that are taken out are stakes no more. -/
theorem stakes_takeOut {locs : List Location} {xs : List Slot} (h : m.Finds locs xs) :
    m.stakes = pointersOf xs + (m.takeOut locs).stakes := by
  induction locs generalizing m xs with
  | nil =>
    cases xs with
    | nil => simp
    | cons x xs => cases h
  | cons loc locs ih =>
    cases xs with
    | nil => cases h
    | cons x xs =>
      rw [stakes_erase h.1, ih h.2, pointersOf_cons, Multiset.cons_add, takeOut_cons]

@[simp] theorem size_takeOut (locs : List Location) :
    (m.takeOut locs).heap.objects.size = m.heap.objects.size := by
  induction locs generalizing m with
  | nil => rfl
  | cons loc locs ih => rw [takeOut_cons, ih, erase, size_withTable]

theorem has_takeOut {t : TableId} (locs : List Location) :
    (m.takeOut locs).heap.Has t ↔ m.heap.Has t := by
  cases t <;> simp [Heap.Has]

@[simp] theorem read?_withTable (t : TableId) (new : Table) :
    (m.withTable t new).heap.read? = m.heap.read? := by
  cases t with
  | root => rfl
  | links o => exact m.heap.read?_withLinks o new

theorem read?_takeOut (locs : List Location) : (m.takeOut locs).heap.read? = m.heap.read? := by
  induction locs generalizing m with
  | nil => rfl
  | cons loc locs ih => rw [takeOut_cons, ih, erase, read?_withTable]

/-! ## Plans -/

theorem suits_pointee {k : Kind} {value : Literal} {p : Pointee} (h : pointee k value = .ok p) :
    k.Suits p.content := by
  unfold pointee at h
  split at h
  · next hp =>
    cases h
    exact Literal.suits_pointee? hp
  · cases h

/-- The effect that a step has, with what was found for it. -/
inductive Planned (m : Machine) : Step → Effect → Prop
  | answer (s : Step) (r : Reply) : m.Planned s (.answer r)
  -- construction
  | store (s : Step) {x dst} (hx : x.Free) (hv : x.view? = none) : m.Planned s (.store x dst)
  | construct {kind value p a dst} (hp : pointee kind value = .ok p) :
      m.Planned (.new kind value a dst) (.construct kind p a dst)
  | constructUnique {kind value p a dst} (hp : pointee kind value = .ok p) :
      m.Planned (.unique kind value a dst) (.constructUnique kind p a dst)
  | constructRaw {kind value p dst} (hp : pointee kind value = .ok p) :
      m.Planned (.raw kind value dst) (.constructRaw kind p dst)
  -- ownership
  | promote (s : Step) {loc u dst} (hu : m.get? loc = some (.unique u)) :
      m.Planned s (.promote loc u dst)
  | share (s : Step) {loc u dst} (hu : m.get? loc = some (.unique u)) :
      m.Planned s (.share loc u dst)
  | release (s : Step) {loc u dst keep} (hu : m.get? loc = some (.unique u)) :
      m.Planned s (.release loc u dst keep)
  | adoptUnique (s : Step) {loc r dst} (hr : m.get? loc = some (.raw r)) :
      m.Planned s (.adoptUnique loc r dst)
  | adopt (s : Step) {loc r dst} (hr : m.get? loc = some (.raw r)) :
      m.Planned s (.adopt loc r dst)
  | resetRaw (s : Step) {loc p rawLoc r} (hxy : m.FindsTwo loc (.strong p) rawLoc (.raw r)) :
      m.Planned s (.resetRaw loc p rawLoc r)
  | move {src dst loc x target} (hd : m.resolve? dst = some target) (hx : m.get? loc = some x) :
      m.Planned (.move src dst) (.move loc x target)
  | drop (s : Step) {loc x} (hx : m.get? loc = some x) : m.Planned s (.drop loc x)
  | cloneStrong (s : Step) {loc p dst} (hp : m.get? loc = some (.strong p)) :
      m.Planned s (.cloneStrong loc p dst)
  | cloneWeak (s : Step) {loc w dst} (hw : m.get? loc = some (.weak w)) :
      m.Planned s (.cloneWeak loc w dst)
  | assignStrong (s : Step) {loc p srcLoc q}
      (hxy : m.FindsTwo loc (.strong p) srcLoc (.strong q)) (hk : p.kind = q.kind) :
      m.Planned s (.assignStrong loc p srcLoc q)
  | assignWeak (s : Step) {loc w srcLoc v} (hxy : m.FindsTwo loc (.weak w) srcLoc (.weak v))
      (hk : w.kind = v.kind) :
      m.Planned s (.assignWeak loc w srcLoc v)
  | takeStrong (s : Step) {loc p dst} (hp : m.get? loc = some (.strong p)) :
      m.Planned s (.takeStrong loc p dst)
  | swap (s : Step) {loc x otherLoc y} (hxy : m.FindsTwo loc x otherLoc y) :
      m.Planned s (.swap loc x otherLoc y)
  | reset (s : Step) {loc x null} (hx : m.get? loc = some x) (hnull : nullLike? x = some null) :
      m.Planned s (.reset loc x null)
  | resetWith {target value loc p v} (hp : m.get? loc = some (.strong p))
      (hv : pointee p.kind value = .ok v) :
      m.Planned (.resetWith target value) (.resetWith loc p v)
  -- access
  | write (s : Step) {loc x p c value} (hx : m.get? loc = some x)
      (hp : x.writable? m.heap = some (some p)) (hc : written? m.heap x.kind p value = some c) :
      m.Planned s (.write p c)
  -- weak pointers
  | downgrade (s : Step) {loc p dst} (hp : m.get? loc = some (.strong p)) :
      m.Planned s (.downgrade loc p dst)
  | lock {s loc w dst fail} (hw : m.get? loc = some (.weak w)) (ha : m.attempted? s = some w) :
      m.Planned s (.lock loc w dst fail)
  -- views
  | map {src part dst during listed j p} (hp : m.get? j.source = some (.strong p))
      (hj : j.IsTyped p.kind) :
      m.Planned (.map src part dst during listed) (.map j p during)
  | mapWeak {src part dst during listed j w} (hw : m.get? j.source = some (.weak w))
      (hj : j.IsTyped w.kind) (ha : m.attempted? (.map src part dst during listed) = some w) :
      m.Planned (.map src part dst during listed) (.mapWeak j w during)
  | tryMap {src part dst during listed j p} (hp : m.get? j.source = some (.strong p))
      (hj : j.IsTyped p.kind) :
      m.Planned (.tryMap src part dst during listed) (.tryMap j p during)
  | cast (s : Step) {loc p kind view dst} (hp : m.get? loc = some (.strong p))
      (hv : ∀ v, view = some v → LeadsInto s.yield? m.heap p.kind p.view kind v) :
      m.Planned s (.cast loc p kind view dst)
  | aliasLike (s : Step) {loc p likeLoc q dst}
      (hxy : m.FindsTwo loc (.strong p) likeLoc (.strong q)) (hb : p.block = q.block) :
      m.Planned s (.aliasLike loc p likeLoc q dst)
  -- surroundings
  | setBudget (s : Step) (limit : Option Nat) : m.Planned s (.setBudget limit)
  | resetMetrics : m.Planned .resetMetrics .resetMetrics
  | remember {name} : m.Planned (.mark name) (.remember name)
  | loop {rounds body} :
      m.Planned (.loop rounds body) ⟨[], fun h => (h, [.round rounds body])⟩

/-! ## Admitted effects -/

/-- The operands are there, and the effect fits the machine without them. -/
def Admits (Y : Option Place) (m : Machine) (e : Effect) : Prop :=
  ∃ xs, m.Finds e.taken xs ∧ e.Fits Y (m.takeOut e.taken).heap xs (m.takeOut e.taken).stakes

theorem admits_none (ht : e.taken = []) (he : e.Fits Y m.heap [] m.stakes) : m.Admits Y e := by
  refine ⟨[], ht ▸ finds_nil, ?_⟩
  rw [ht]
  exact he

theorem admits_one (hx : m.get? loc = some x) (ht : e.taken = [loc])
    (he : ∀ {h K}, h.Has loc.table → e.Fits Y h [x] K) : m.Admits Y e := by
  refine ⟨[x], ht ▸ finds_one hx, he ?_⟩
  exact (has_takeOut _).mpr (has_of_get? hx)

theorem admits_two (h : m.FindsTwo loc x other y) (ht : e.taken = [loc, other])
    (he : ∀ {h K}, h.Has loc.table → h.Has other.table → e.Fits Y h [x, y] K) : m.Admits Y e := by
  refine ⟨[x, y], ht ▸ h.finds, he ?_ ?_⟩
  · exact (has_takeOut _).mpr (has_of_get? h.first)
  · exact (has_takeOut _).mpr (has_of_get? h.second)


/-- Every path that leads somewhere leads to a table that is there. -/
def Resolves (m : Machine) : Prop := ∀ p l, m.resolve? p = some l → m.heap.Has l.table

/-- Every effect that a step can have fits. -/
theorem Planned.admits {s : Step} (h : m.Planned s e) (hm : m.Resolves) : m.Admits s.yield? e := by
  cases h with
  | answer => exact admits_none rfl (Effect.answer_fits _)
  | store _ hx hv => exact admits_none rfl (Effect.store_fits hx hv)
  | construct hp => exact admits_none rfl (Effect.construct_fits (suits_pointee hp))
  | constructUnique hp => exact admits_none rfl (Effect.constructUnique_fits (suits_pointee hp))
  | constructRaw hp => exact admits_none rfl (Effect.constructRaw_fits (suits_pointee hp))
  | promote _ hu => exact admits_one hu rfl Effect.promote_fits
  | share _ hu => exact admits_one hu rfl Effect.share_fits
  | release _ hu => exact admits_one hu rfl Effect.release_fits
  | adoptUnique _ hr => exact admits_one hr rfl Effect.adoptUnique_fits
  | adopt _ hr => exact admits_one hr rfl Effect.adopt_fits
  | resetRaw _ hxy => exact admits_two hxy rfl Effect.resetRaw_fits
  | @move src dst loc x target hd hx =>
    refine ⟨[x], finds_one hx, Effect.move_fits ?_ ?_⟩
    · exact (has_takeOut _).mpr (has_of_get? hx)
    · exact (has_takeOut _).mpr (hm dst target hd)
  | drop _ hx => exact admits_one hx rfl Effect.drop_fits
  | cloneStrong _ hp => exact admits_one hp rfl Effect.cloneStrong_fits
  | cloneWeak _ hw => exact admits_one hw rfl Effect.cloneWeak_fits
  | assignStrong _ hxy hk => exact admits_two hxy rfl (Effect.assignStrong_fits hk)
  | assignWeak _ hxy hk => exact admits_two hxy rfl (Effect.assignWeak_fits hk)
  | takeStrong _ hp => exact admits_one hp rfl Effect.takeStrong_fits
  | swap _ hxy => exact admits_two hxy rfl Effect.swap_fits
  | reset _ hx hnull => exact admits_one hx rfl (Effect.reset_fits hnull)
  | resetWith hp hv => exact admits_one hp rfl (Effect.resetWith_fits (suits_pointee hv))
  | write _ hx hp hc =>
    exact admits_none rfl
      (Effect.write_fits (pointer_mem_stakes_iff.mpr (mem_pointers_of_get? hx)) hp hc)
  | downgrade _ hp => exact admits_one hp rfl Effect.downgrade_fits
  | lock hw => exact admits_one hw rfl Effect.lock_fits
  | map hp hj => exact admits_one hp rfl (Effect.projecting_fits true hj)
  | mapWeak hw hj => exact admits_one hw rfl (Effect.mapWeak_fits hj)
  | tryMap hp hj => exact admits_one hp rfl (Effect.projecting_fits false hj)
  | cast _ hp hv =>
    refine ⟨[_], finds_one hp, Effect.cast_fits (fun v h => ?_) ?_⟩
    · exact (hv v h).congr (read?_takeOut _)
    · exact (has_takeOut _).mpr (has_of_get? hp)
  | aliasLike _ hxy hb => exact admits_two hxy rfl (Effect.aliasLike_fits hb)
  | setBudget => exact admits_none rfl (Effect.setBudget_fits _)
  | resetMetrics => exact admits_none rfl Effect.resetMetrics_fits
  | remember => exact admits_none rfl (Effect.remember_fits _)
  | loop => exact admits_none rfl (Effect.loop_fits _ _)

end Machine

end Custody
