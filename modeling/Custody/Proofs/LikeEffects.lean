import Custody.Proofs.Concord

/-!
# Effects in concord

* `Effect.Alike`: effects that do alike things to alike heaps, and answer once. The lemmas
  `Effect.alike_*` are of the effects of all steps on strong, unique and raw pointers.
-/

namespace Custody

/-- Effects that take alike operands and, on alike heaps, leave alike actions, among them one that
answers. -/
structure Effect.Alike (P : Pairing) (e f : Effect) : Prop where
  taken : List.Forall₂ (Location.Alike P) e.taken f.taken
  call : ∀ h k, h.estate.Alike P k.estate →
    Concurs P h k (fun Q as bs => Agenda.Alike Q as bs ∧ serves false 0 as = some 1)
      (e.call h) (f.call k)

/-- A settlement that answers once, and not with a list of replies. -/
structure Settlement.Concludes (P : Pairing) (s t : Settlement) : Prop extends s.Alike P t where
  yields : s.yields = 1
  plain : ∀ x ∈ s.made, x.2.2 ≠ .during

namespace Settlement.Concludes

variable {P : Pairing} {xs ys : List Slot} {ls ms : List (Location × Slot)} {x y : Slot}
  {l l' : Location}

/-- A pointer is made. -/
theorem of_made (hs : List.Forall₂ (Slot.Alike P) xs ys)
    (ho : List.Forall₂ (fun x y => x.1.Alike P y.1 ∧ x.2.Alike P y.2) ls ms) (hx : x.Alike P y)
    (dst : Path) {form : Form} (hform : form ≠ .during) :
    Settlement.Concludes P { surplus := xs, operands := ls, made := some (x, dst, form) }
      { surplus := ys, operands := ms, made := some (y, dst, form) } where
  surplus := hs
  operands := ho
  counted := rfl
  made := .some ⟨hx, rfl⟩
  reply := .none
  yields := rfl
  plain := by
    rintro _ ⟨⟩
    exact hform

/-- A reply is given. -/
theorem of_reply (hs : List.Forall₂ (Slot.Alike P) xs ys)
    (ho : List.Forall₂ (fun x y => x.1.Alike P y.1 ∧ x.2.Alike P y.2) ls ms) (r : Reply) :
    Settlement.Concludes P { surplus := xs, operands := ls, reply := some r }
      { surplus := ys, operands := ms, reply := some r } where
  surplus := hs
  operands := ho
  counted := rfl
  made := .none
  reply := .some rfl
  yields := rfl
  plain := by simp

/-- The counts of the first operand are the reply. -/
theorem of_counted (hs : List.Forall₂ (Slot.Alike P) xs ys) (hl : l.Alike P l') (hx : x.Alike P y)
    (ho : List.Forall₂ (fun x y => x.1.Alike P y.1 ∧ x.2.Alike P y.2) ls ms) :
    Settlement.Concludes P { surplus := xs, operands := (l, x) :: ls, counted := true }
      { surplus := ys, operands := (l', y) :: ms, counted := true } where
  surplus := hs
  operands := .cons ⟨hl, hx⟩ ho
  counted := rfl
  made := .none
  reply := .none
  yields := rfl
  plain := by simp

end Settlement.Concludes

theorem forall₂_unique {Q : Pairing} {us vs : List Unique}
    (h : List.Forall₂ (Unique.Alike Q) us vs) :
    List.Forall₂ (Slot.Alike Q) (us.map .unique) (vs.map .unique) :=
  List.forall₂_map_left_iff.mpr (List.forall₂_map_right_iff.mpr (h.imp fun _ _ => .unique))

namespace Effect

variable {P Q : Pairing} {loc loc' other other' : Location} {p p' q q' : Strong} {u v : Unique}
  {r s : Raw} {x y : Slot} {h k : Heap}

theorem alike_settling {taken taken' : List Location} {call call' : Heap → Heap × Settlement}
    (ht : List.Forall₂ (Location.Alike P) taken taken')
    (hc : ∀ h k, h.estate.Alike P k.estate → Concurs P h k Settlement.Concludes (call h) (call' k)) :
    (settling taken call).Alike P (settling taken' call') := by
  refine ⟨ht, fun h k he => ?_⟩
  obtain ⟨Q, hQ, halike, hs⟩ := hc h k he
  have htables : List.Forall₂ (TableId.Alike Q) (taken.map (·.table)) (taken'.map (·.table)) :=
    List.forall₂_map_left_iff.mpr (List.forall₂_map_right_iff.mpr
      (ht.imp fun _ _ hl => (hl.mono hQ.le).table))
  refine ⟨Q, hQ, halike, hs.actions htables, ?_⟩
  exact (Settlement.serves_actions hs.plain false 0).trans (by rw [hs.yields])

/-- An effect that needs nothing from the heap. -/
theorem alike_settling_same {taken taken' : List Location} {s s' : Settlement}
    (ht : List.Forall₂ (Location.Alike P) taken taken') (hs : s.Concludes P s') :
    (settling taken fun h => (h, s)).Alike P (settling taken' fun h => (h, s')) :=
  alike_settling ht fun _ _ he => .same he hs

theorem alike_answer {r s : Reply} (hr : r.heard = s.heard) :
    (Effect.answer r).Alike P (Effect.answer s) :=
  ⟨.nil, fun _ _ he => .same he ⟨.one (.answer hr), rfl⟩⟩

/-! ### Construction -/

theorem alike_store (hx : x.Alike P y) (dst : Path) : (store x dst).Alike P (store y dst) :=
  alike_settling_same .nil (.of_made .nil .nil hx dst nofun)

theorem alike_construct (kind : Kind) (v : Pointee) (a : Alloc) (dst : Path) :
    (construct kind v a dst).Alike P (construct kind v a dst) := by
  refine alike_settling .nil fun h k he => ?_
  obtain ⟨Q, hQ, halike, hmeets, hsurplus⟩ := he.constructStrong kind v a
  rcases hc : Strong.construct kind v a h with ⟨h', x, us⟩
  rcases hc' : Strong.construct kind v a k with ⟨k', y, vs⟩
  rw [hc, hc'] at halike hmeets hsurplus
  cases hmeets with
  | ok hst => exact ⟨Q, hQ, halike, .of_made (forall₂_unique hsurplus) .nil (.strong hst) dst nofun⟩
  | error l => exact ⟨Q, hQ, halike, .of_reply (forall₂_unique hsurplus) .nil _⟩

/-- A unique pointer to an object that is made in place or copied into the allocation. -/
theorem concurs_construct (he : h.estate.Alike P k.estate) (kind : Kind) (v : Pointee) (a : Alloc) :
    Concurs P h k (fun Q x y => ∃ o o' r, Q.object o o' ∧
        x = ((⟨kind, a, some o⟩ : Unique), r) ∧ y = ((⟨kind, a, some o'⟩ : Unique), r))
      (if isCopied kind then
        let (h, o, refused) := h.construct v a
        (h, (⟨kind, a, some o⟩ : Unique), refused)
      else Unique.construct kind v a h)
      (if isCopied kind then
        let (h, o, refused) := k.construct v a
        (h, (⟨kind, a, some o⟩ : Unique), refused)
      else Unique.construct kind v a k) := by
  split
  · obtain ⟨Q, hQ, halike, ho, hrefused⟩ := he.construct v a
    exact ⟨Q, hQ, halike, _, _, _, ho, rfl, Prod.ext rfl hrefused.symm⟩
  · exact he.constructUnique kind v a

theorem alike_constructUnique (kind : Kind) (v : Pointee) (a : Alloc) (dst : Path) :
    (constructUnique kind v a dst).Alike P (constructUnique kind v a dst) := by
  refine alike_settling .nil fun h k he => ?_
  have hmade := concurs_construct he kind v a
  dsimp only at hmade ⊢
  generalize (if isCopied kind then _ else Unique.construct kind v a h) = A,
    (if isCopied kind then _ else Unique.construct kind v a k) = B at hmade
  obtain ⟨h', x⟩ := A
  obtain ⟨k', y⟩ := B
  obtain ⟨Q, hQ, halike, o, o', r, ho, rfl, rfl⟩ := hmade
  have hu : Slot.Alike Q (.unique ⟨kind, a, some o⟩) (.unique ⟨kind, a, some o'⟩) :=
    .unique ⟨rfl, rfl, .some ho⟩
  cases r with
  | none => exact ⟨Q, hQ, halike, .of_made .nil .nil hu dst (by decide)⟩
  | some l => exact ⟨Q, hQ, halike, .of_reply (.cons hu .nil) .nil _⟩

theorem alike_constructRaw (kind : Kind) (v : Pointee) (dst : Path) :
    (constructRaw kind v dst).Alike P (constructRaw kind v dst) := by
  refine alike_settling .nil fun h k he => ?_
  obtain ⟨Q, hQ, halike, o, o', r, ho, hx, hy⟩ := he.constructUnique kind v .global
  rcases hc : Unique.construct kind v .global h with ⟨h', x⟩
  rcases hc' : Unique.construct kind v .global k with ⟨k', y⟩
  rw [hc, hc'] at halike
  rw [hc] at hx
  rw [hc'] at hy
  cases hx
  cases hy
  have hu : Slot.Alike Q (.unique ⟨kind, .global, some o⟩) (.unique ⟨kind, .global, some o'⟩) :=
    .unique ⟨rfl, rfl, .some ho⟩
  have hr : Slot.Alike Q (.raw ⟨kind, .global, o⟩) (.raw ⟨kind, .global, o'⟩) := .raw ⟨rfl, rfl, ho⟩
  cases r with
  | none => exact ⟨Q, hQ, halike, .of_made .nil .nil hr dst nofun⟩
  | some l => exact ⟨Q, hQ, halike, .of_reply (.cons hu .nil) .nil _⟩

/-! ### Ownership -/

theorem alike_share (hl : loc.Alike P loc') (hu : u.Alike P v) (dst : Path) :
    (share loc u dst).Alike P (share loc' v dst) := by
  refine alike_settling (.cons hl .nil) fun h k he => ?_
  obtain ⟨Q, hQ, halike, hu', hmeets⟩ := he.promote hu
  rcases hc : u.promote h with ⟨h', u', x⟩
  rcases hc' : v.promote k with ⟨k', v', y⟩
  rw [hc, hc'] at halike hu' hmeets
  cases hmeets with
  | ok hst => exact ⟨Q, hQ, halike, .of_made .nil .nil (.strong hst) dst nofun⟩
  | error l => exact ⟨Q, hQ, halike, .of_reply .nil (.cons ⟨hl.mono hQ.le, .unique hu'⟩ .nil) _⟩

/-- A new owner leads to the object that its unique pointer led to. -/
theorem address_promote {h' : Heap} {u u' : Unique} {q : Strong}
    (hp : u.promote h = (h', u', .ok q)) : (q.address h' == h.addressOf u.view) = true := by
  obtain ⟨kind, a, o⟩ := u
  cases o with
  | none =>
    cases hp
    exact beq_self_eq_true _
  | some o =>
    have hobjects := Unique.objects_promote ⟨kind, a, some o⟩ h
    rw [hp] at hobjects
    simp only [Unique.promote] at hp
    split at hp
    · cases hp
      replace hobjects : h'.objects = h.objects := hobjects
      have hwhole : h'.addressOf (some (.whole o)) = h.addressOf (some (.whole o)) := by
        simp only [Heap.addressOf, Place.whole, Heap.origin?, Heap.originAddress, hobjects]
      exact beq_iff_eq.mpr hwhole
    · cases hp

theorem alike_promote (hl : loc.Alike P loc') (hu : u.Alike P v) (dst : Path) :
    (promote loc u dst).Alike P (promote loc' v dst) := by
  refine alike_settling (.cons hl .nil) fun h k he => ?_
  obtain ⟨Q, hQ, halike, hu', hmeets⟩ := he.promote hu
  rcases hc : u.promote h with ⟨h', u', x⟩
  rcases hc' : v.promote k with ⟨k', v', y⟩
  rw [hc, hc'] at halike hu' hmeets
  have hops : List.Forall₂ (fun x y : Location × Slot => x.1.Alike Q y.1 ∧ x.2.Alike Q y.2)
      [(loc, .unique u')] [(loc', .unique v')] := .cons ⟨hl.mono hQ.le, .unique hu'⟩ .nil
  cases hmeets with
  | ok hst =>
    have hnull : u'.object.isNone = v'.object.isNone := by
      rw [← Option.not_isSome, ← Option.not_isSome, Option.Rel.isSome hu'.object]
    dsimp only
    rw [address_promote hc, address_promote hc', hnull]
    exact ⟨Q, hQ, halike, .of_made .nil hops (.strong hst) dst nofun⟩
  | error l => exact ⟨Q, hQ, halike, .of_reply .nil hops _⟩

theorem alike_release (hl : loc.Alike P loc') (hu : u.Alike P v) (dst : Path) (keep : Bool) :
    (release loc u dst keep).Alike P (release loc' v dst keep) := by
  obtain ⟨kind, a, o⟩ := u
  obtain ⟨kind', a', o'⟩ := v
  obtain ⟨rfl, rfl, ho⟩ := hu
  have hops : List.Forall₂ (fun x y : Location × Slot => x.1.Alike P y.1 ∧ x.2.Alike P y.2)
      (if keep then [(loc, .unique (.null kind a))] else [])
      (if keep then [(loc', .unique (.null kind a))] else []) := by
    split
    · exact .cons ⟨hl, .unique (Unique.alike_null kind a)⟩ .nil
    · exact .nil
  cases ho with
  | none => exact alike_settling_same (.cons hl .nil) (.of_reply .nil hops .nothing)
  | @some o o' ho =>
    have hr : Slot.Alike P (.raw ⟨kind, a, o⟩) (.raw ⟨kind, a, o'⟩) := .raw ⟨rfl, rfl, ho⟩
    exact alike_settling_same (.cons hl .nil) (.of_made .nil hops hr dst nofun)

theorem alike_adoptUnique (hl : loc.Alike P loc') (hr : r.Alike P s) (dst : Path) :
    (adoptUnique loc r dst).Alike P (adoptUnique loc' s dst) := by
  have hu : Slot.Alike P (.unique ⟨r.kind, r.alloc, some r.object⟩)
      (.unique ⟨s.kind, s.alloc, some s.object⟩) := .unique ⟨hr.kind, hr.alloc, .some hr.object⟩
  exact alike_settling_same (.cons hl .nil) (.of_made .nil .nil hu dst nofun)

theorem alike_adopt (hl : loc.Alike P loc') (hr : r.Alike P s) (dst : Path) :
    (adopt loc r dst).Alike P (adopt loc' s dst) := by
  refine alike_settling (.cons hl .nil) fun h k he => ?_
  obtain ⟨Q, hQ, halike, hmeets, hsurplus⟩ := he.adopt hr
  rcases hc : Strong.adopt r h with ⟨h', x, us⟩
  rcases hc' : Strong.adopt s k with ⟨k', y, vs⟩
  rw [hc, hc'] at halike hmeets hsurplus
  cases hmeets with
  | ok hst => exact ⟨Q, hQ, halike, .of_made (forall₂_unique hsurplus) .nil (.strong hst) dst nofun⟩
  | error l => exact ⟨Q, hQ, halike, .of_reply (forall₂_unique hsurplus) .nil _⟩

/-- A pointer takes over what was made, or stays where that was refused. -/
theorem concurs_replace (hl : loc.Alike P loc') (hp : p.Alike P p')
    {x : Heap × Except Layout Strong × List Unique} {y : Heap × Except Layout Strong × List Unique}
    (hxy : Concurs P h k Strong.NewAlike x y) :
    Concurs P h k Settlement.Concludes (replace loc p x) (replace loc' p' y) := by
  obtain ⟨h', x, us⟩ := x
  obtain ⟨k', y, vs⟩ := y
  obtain ⟨Q, hQ, halike, hmeets, hsurplus⟩ := hxy
  have hl := hl.mono hQ.le
  have hp := hp.mono hQ.le
  cases hmeets with
  | ok hst =>
    have hall := List.rel_append (forall₂_unique hsurplus) (.cons (.strong hp) .nil)
    exact ⟨Q, hQ, halike, .of_counted hall hl (.strong hst) .nil⟩
  | error l =>
    exact ⟨Q, hQ, halike, .of_reply (forall₂_unique hsurplus) (.cons ⟨hl, .strong hp⟩ .nil) _⟩

theorem alike_resetRaw (hl : loc.Alike P loc') (hp : p.Alike P p') (ho : other.Alike P other')
    (hr : r.Alike P s) : (resetRaw loc p other r).Alike P (resetRaw loc' p' other' s) :=
  alike_settling (.cons hl (.cons ho .nil)) fun _ _ he => concurs_replace hl hp (he.adopt hr)

theorem alike_resetWith (hl : loc.Alike P loc') (hp : p.Alike P p') (v : Pointee) :
    (resetWith loc p v).Alike P (resetWith loc' p' v) := by
  refine alike_settling (.cons hl .nil) fun h k he => ?_
  rw [hp.kind]
  exact concurs_replace hl hp (he.constructStrong p'.kind v .global)

theorem alike_move (hl : loc.Alike P loc') (hx : x.Alike P y) (ho : other.Alike P other') :
    (move loc x other).Alike P (move loc' y other') :=
  alike_settling_same (.cons hl .nil) (.of_reply .nil (.cons ⟨ho, hx⟩ .nil) .done)

theorem alike_drop (hl : loc.Alike P loc') (hx : x.Alike P y) :
    (drop loc x).Alike P (drop loc' y) :=
  alike_settling_same (.cons hl .nil) (.of_reply (.cons hx .nil) .nil .done)

theorem alike_takeStrong (hl : loc.Alike P loc') (hp : p.Alike P p') (dst : Path) :
    (takeStrong loc p dst).Alike P (takeStrong loc' p' dst) := by
  unfold takeStrong
  rw [hp.kind]
  exact alike_settling_same (.cons hl .nil)
    (.of_made .nil (.cons ⟨hl, .strong (Strong.alike_null _)⟩ .nil) (.strong hp) dst nofun)

theorem alike_swap (hl : loc.Alike P loc') (hx : x.Alike P y) (ho : other.Alike P other')
    {x' y' : Slot} (hx' : x'.Alike P y') :
    (swap loc x other x').Alike P (swap loc' y other' y') :=
  alike_settling_same (.cons hl (.cons ho .nil))
    (.of_reply .nil (.cons ⟨hl, hx'⟩ (.cons ⟨ho, hx⟩ .nil)) .done)

theorem alike_reset (hl : loc.Alike P loc') (hx : x.Alike P y) {z z' : Slot} (hz : z.Alike P z') :
    (reset loc x z).Alike P (reset loc' y z') :=
  alike_settling_same (.cons hl .nil) (.of_counted (.cons hx .nil) hl hz .nil)

theorem alike_cloneStrong (hl : loc.Alike P loc') (hp : p.Alike P p') (dst : Path) :
    (cloneStrong loc p dst).Alike P (cloneStrong loc' p' dst) :=
  alike_settling (.cons hl .nil) fun _ _ he =>
    .same (he.acquire hp.block) (.of_made .nil (.cons ⟨hl, .strong hp⟩ .nil) (.strong hp) dst nofun)

theorem alike_assignStrong (hl : loc.Alike P loc') (hp : p.Alike P p') (ho : other.Alike P other')
    (hq : q.Alike P q') : (assignStrong loc p other q).Alike P (assignStrong loc' p' other' q') := by
  refine alike_settling (.cons hl (.cons ho .nil)) fun h k he => ?_
  obtain ⟨halike, hp', hsurplus⟩ := he.assign hp hq
  have hsurplus := List.forall₂_map_left_iff.mpr (List.forall₂_map_right_iff.mpr
    (hsurplus.imp fun _ _ => Slot.Alike.strong))
  exact .same halike (.of_counted hsurplus hl (.strong hp') (.cons ⟨ho, .strong hq⟩ .nil))

/-! ### Access and views -/

theorem alike_write {p q : Place} (hpq : p.Alike P q) (c : Content) :
    (write p c).Alike P (write q c) := by
  refine ⟨.nil, fun h k he => .same ?_ ⟨.one (.answer rfl), rfl⟩⟩
  obtain ⟨i, path⟩ := p
  obtain ⟨j, path'⟩ := q
  obtain ⟨hij, rfl⟩ := hpq
  cases hij with
  | object ho =>
    simp only [write]
    rw [Heap.estate_write_object rfl, Heap.estate_write_object rfl]
    refine he.modifyObject ho fun x y hxy => ⟨?_, hxy.onDrop, hxy.phase, hxy.serial, hxy.links⟩
    exact congrArg (Content.withAt path c) hxy.content
  | static s =>
    have hstatics : h.statics = k.statics := he.statics
    simp only [write]
    rw [Heap.estate_write_static rfl, Heap.estate_write_static rfl, hstatics]
    exact ⟨he.block, he.object, rfl, he.budget⟩

theorem alike_cast (hl : loc.Alike P loc') (hp : p.Alike P p') (kind : Kind)
    {v u : Option (Option Place)} (hv : Option.Rel (Option.Rel (Place.Alike P)) v u) (dst : Path) :
    (cast loc p kind v dst).Alike P (cast loc' p' kind u dst) := by
  refine alike_settling (.cons hl .nil) fun h k he => ?_
  have hops : List.Forall₂ (fun x y : Location × Slot => x.1.Alike P y.1 ∧ x.2.Alike P y.2)
      [(loc, .strong p)] [(loc', .strong p')] := .cons ⟨hl, .strong hp⟩ .nil
  cases hv with
  | none => exact .same he (.of_made .nil hops (.strong (Strong.alike_null kind)) dst nofun)
  | @some v u hv =>
    have hmade : Slot.Alike P (.strong ⟨kind, p.block, v⟩) (.strong ⟨kind, p'.block, u⟩) :=
      .strong ⟨rfl, hp.block, hv⟩
    exact .same (he.acquire hp.block) (.of_made .nil hops hmade dst nofun)

theorem alike_aliasLike (hl : loc.Alike P loc') (hp : p.Alike P p') (ho : other.Alike P other')
    (hq : q.Alike P q') (dst : Path) :
    (aliasLike loc p other q dst).Alike P (aliasLike loc' p' other' q' dst) := by
  refine alike_settling (.cons hl (.cons ho .nil)) fun h k he => ?_
  have hmade : Slot.Alike P (.strong ⟨q.kind, p.block, q.view⟩)
      (.strong ⟨q'.kind, p'.block, q'.view⟩) := .strong ⟨hq.kind, hp.block, hq.view⟩
  exact .same (he.acquire hp.block)
    (.of_made .nil (.cons ⟨hl, .strong hp⟩ (.cons ⟨ho, .strong hq⟩ .nil)) hmade dst nofun)

/-- A projection: the closure's steps, their replies, and then the projection itself. -/
theorem alike_projecting {i j : Projection} (hj : i.Alike P j) (hp : p.Alike P p')
    (during : List Step) (total : Bool) :
    (⟨[i.source], fun h => (h, closure p.view.isSome during i.listed ++ [.project i p total])⟩ :
      Effect).Alike P
    ⟨[j.source], fun h => (h, closure p'.view.isSome during j.listed ++ [.project j p' total])⟩ := by
  refine ⟨.cons hj.source .nil, fun h k he => .same he ⟨?_, ?_⟩⟩
  · refine .append ?_ (.one (.project hj hp total))
    rw [Option.Rel.isSome hp.view, hj.listed]
    unfold closure
    split
    · refine .append (.refl_exec during) ?_
      split
      · exact .one (.gather _)
      · exact .one (.forget _)
    · split
      · exact .one (.answer rfl)
      · exact .nil
  · have hexec : serves false 0 (during.map .exec) = some during.length := by
      have hconsumes : ∀ a ∈ during.map Action.exec, a.consumes = 0 := by simp [Action.consumes]
      have := serves_of_consumes_eq_zero hconsumes false 0
      simpa [Function.comp_def, Action.produces] using this
    rw [serves_append]
    unfold closure
    cases hi : i.listed <;> cases p.view.isSome <;>
      simp [serves_append, hexec, serves, Action.consumes, Action.produces, Action.isDid, hi]

/-! ### Surroundings -/

theorem alike_setBudget (limit : Option Nat) : (setBudget limit).Alike P (setBudget limit) := by
  refine ⟨.nil, fun h k he => .same ⟨?_, ?_, ?_, ?_⟩ ⟨.one (.answer rfl), rfl⟩⟩
  · exact he.block
  · exact he.object
  · exact he.statics
  · funext a
    have hbudget : (h.ledger a).budget = (k.ledger a).budget := congrFun he.budget a
    simp only [setBudget, Heap.estate, Heap.ledger_updateLedger]
    split
    · rfl
    · exact hbudget

theorem alike_loop (rounds : Nat) (body : List Step) :
    (⟨[], fun h => (h, [.round rounds body])⟩ : Effect).Alike P
      ⟨[], fun h => (h, [.round rounds body])⟩ :=
  ⟨.nil, fun _ _ he => .same he ⟨.one (.round rounds body), rfl⟩⟩

end Effect

end Custody
