import Custody.Heap.Lemmas
import Custody.Selector

/-!
# What pointers of a kind show

* `Kind.Suits`: a content that a pointer of the kind may lead to. `Heap.Shows`: there is such a
  content at a place.
* `Literal.suits_pointee?`: what a literal makes suits the kind it is made for.
* `Heap.Shows.staticCast`, `Heap.Shows.reinterpret`, `Heap.Shows.select`: so does the part that a
  cast or a projection leads to, if its source suits the kind that it starts from.
-/

namespace Custody

/-- Pointers of a trait kind lead to contents of several kinds. -/
def Kind.isTrait : Kind → Bool
  | .any | .anySend | .anySync | .shape | .disp => true
  | _ => false

/-- A pointer of the kind may lead to the content. -/
def Kind.Suits (k : Kind) (c : Content) : Prop := k.isTrait = true ∨ c.kind = k

/-- There is something at the place that suits the kind. -/
def Heap.Shows (h : Heap) (k : Kind) (p : Place) : Prop := ∃ c, h.read? p = some c ∧ k.Suits c

namespace Kind.Suits

variable {k : Kind} {c d : Content}

theorem kind_eq (h : k.Suits c) (hk : k.isTrait = false) : c.kind = k := by
  rcases h with h | h
  · rw [hk] at h
    cases h
  · exact h

theorem congr (h : k.Suits c) (hd : d.kind = c.kind) : k.Suits d := h.imp_right hd.trans

end Kind.Suits

/-! ## Literals -/

theorem Literal.kind_concrete? {k : Kind} {l : Literal} {p : Pointee}
    (h : concrete? k l = some p) : p.content.kind = k := by
  unfold concrete? at h
  split at h
  case h_11 => cases h
  all_goals
    simp only [Option.map_eq_some_iff, Option.some.injEq] at h
    obtain ⟨v, -, rfl⟩ := h
    rfl

/-- A value is read as content of the kind that is asked for. -/
theorem Literal.suits_pointee? {k : Kind} {l : Literal} {p : Pointee}
    (h : l.pointee? k = some p) : k.Suits p.content := by
  unfold pointee? at h
  split at h
  · next hc =>
    cases h
    exact .inr (kind_concrete? hc)
  · simp only [Option.bind_eq_bind, Option.bind_eq_some_iff] at h
    obtain ⟨inner, -, h⟩ := h
    split at h
    · next hadmits =>
      -- Only a trait kind admits any.
      refine .inl ?_
      cases k <;> first | rfl | cases hadmits
    · cases h
  · cases h

/-- The standing value that stands in for a part is of the part's kind. -/
theorem Static.kind_of_ofKind? {k : Kind} {s : Static} (hs : ofKind? k = some s) : s.kind = k := by
  cases k <;> cases hs <;> rfl

/-! ## Parts -/

namespace Content

variable {c d : Content}

theorem at?_append (path rest : List Field) (c : Content) :
    c.at? (path ++ rest) = (c.at? path).bind (at? rest) := by
  induction path generalizing c with
  | nil => rfl
  | cons f path ih =>
    rw [List.cons_append, at?, at?, Option.bind_assoc]
    exact congrArg _ (funext ih)

/-- The kind of a part. -/
def partKind : Field → Kind → Kind
  | .id, _ | .value, _ | .side, _ | .asInt, _ => .int
  | .name, _ => .string
  | .items, _ => .slice
  | .text, _ | .label, _ => .str
  | .elem _, .wide => .uint
  | .elem _, _ => .int
  | .sub _ _, k => k
  | .lowByte, _ | .firstByte, _ => .byte
  | .asUint, _ => .uint
  | .asSquare, _ => .square

theorem kind_part? {f : Field} (h : c.part? f = some d) : d.kind = partKind f c.kind := by
  unfold part? at h
  split at h
  case h_17 => cases h
  all_goals
    first
    | (cases h; rfl)
    | (obtain ⟨v, -, rfl⟩ := Option.map_eq_some_iff.mp h; rfl)
    | (split at h <;> cases h; rfl)

theorem kind_at? {path : List Field} (h : c.at? path = some d) :
    d.kind = path.foldl (fun k f => partKind f k) c.kind := by
  induction path generalizing c with
  | nil =>
    cases h
    rfl
  | cons f path ih =>
    obtain ⟨e, he, h⟩ := Option.bind_eq_some_iff.mp h
    rw [ih h, kind_part? he]
    rfl

end Content

namespace Heap

variable {h h' : Heap} {k k' : Kind} {p : Place} {path : List Field}

theorem read?_into (h : Heap) (p : Place) (path : List Field) :
    h.read? (p.into path) = (h.read? p).bind (Content.at? path) := by
  simp only [read?, Place.into]
  rw [Option.bind_assoc]
  exact congrArg _ (funext (Content.at?_append p.path path))

theorem Shows.congr (hs : h.Shows k p) (hr : h'.read? p = h.read? p) : h'.Shows k p := by
  obtain ⟨c, hc, hk⟩ := hs
  exact ⟨c, hr.trans hc, hk⟩

theorem Shows.into {c : Content} (hc : h.read? p = some c) {d : Content}
    (hd : c.at? path = some d) (hk : k'.Suits d) : h.Shows k' (p.into path) :=
  ⟨d, by rw [read?_into, hc]; exact hd, hk⟩

theorem label_notMem_staticPath? (hpath : staticPath? k k' = some path) : .label ∉ path := by
  cases k <;> cases k' <;> cases hpath <;> decide

theorem label_notMem_reinterpretPath? (hpath : reinterpretPath? k k' = some path) :
    .label ∉ path := by
  cases k <;> cases k' <;> cases hpath <;> decide

/-- Links are no part of what is read. -/
theorem read?_withLinks (h : Heap) (o : ObjectId) (t : Table) :
    (h.withLinks o t).read? = h.read? := by
  have horigin : (h.withLinks o t).origin? = h.origin? := by
    funext i
    cases i with
    | static s => rfl
    | object o' =>
      simp only [origin?, withLinks, updateObject, Array.getElem?_modify]
      split
      · rw [Option.map_map]
        rfl
      · rfl
  funext p
  rw [read?, horigin, read?]

/-- Whatever suits the kind has the part that a static cast leads to. -/
theorem Shows.staticCast (hs : h.Shows k p) (hpath : staticPath? k k' = some path) :
    h.Shows k' (p.into path) := by
  obtain ⟨c, hc, hk⟩ := hs
  have hconcrete : k.isTrait = false := by
    cases k <;> first | rfl | (cases k' <;> cases hpath)
  have hkind := hk.kind_eq hconcrete
  obtain ⟨d, hd⟩ : ∃ d, c.at? path = some d := by
    cases k <;> cases k' <;> cases hpath <;> cases c <;> cases hkind <;> exact ⟨_, rfl⟩
  refine .into hc hd (.inr ?_)
  rw [Content.kind_at? hd, hkind]
  cases k <;> cases k' <;> cases hpath <;> rfl

/-- What is read through a reinterpreted place suits the kind that it is read as. -/
theorem Shows.reinterpret (hs : h.Shows k p) (hpath : reinterpretPath? k k' = some path)
    (hsome : (h.read? (p.into path)).isSome) : h.Shows k' (p.into path) := by
  obtain ⟨c, hc, hk⟩ := hs
  obtain ⟨d, hd⟩ := Option.isSome_iff_exists.mp hsome
  rw [read?_into, hc] at hd
  have hconcrete : k.isTrait = false := by
    cases k <;> first | rfl | (cases k' <;> cases hpath)
  refine .into hc hd (.inr ?_)
  rw [Content.kind_at? hd, hk.kind_eq hconcrete]
  cases k <;> cases k' <;> cases hpath <;> rfl

end Heap

/-! ## Selectors -/

namespace Selector

variable {s : Selector} {k k' : Kind} {c d : Content} {path : List Field}

/-- A path that is taken leads to something, and the selector is not the one that takes none. -/
theorem path?_eq_some (hp : s.path? k c = some path) :
    s ≠ .nothing ∧ path = s.route k c ∧ ∃ d, c.at? path = some d := by
  simp only [path?, Option.bind_eq_bind, Option.bind_eq_some_iff] at hp
  obtain ⟨d, hd, hp⟩ := hp
  have hroute : s ≠ .nothing ∧ s.route k c = path := by
    cases s with
    | nothing => cases hp
    | positive | sub =>
      obtain ⟨-, hp⟩ := Option.ite_none_right_eq_some.mp hp
      exact ⟨nofun, Option.some.inj hp⟩
    | _ => exact ⟨nofun, Option.some.inj hp⟩
  obtain ⟨hs, rfl⟩ := hroute
  exact ⟨hs, rfl, d, hd⟩

/-- The part that a selector takes suits the kind that the selector is typed to lead to. -/
theorem suits_route (ht : s.target? k = some k' ∨ s.tryTarget? k = some k') (hs : s ≠ .nothing)
    (hk : k.Suits c) (hd : c.at? (s.route k c) = some d) : k'.Suits d := by
  have hkind := Content.kind_at? hd
  cases s <;> cases k <;> rcases ht with ht | ht <;> cases ht <;> first
    | exact .inl rfl
    | (rw [hk.kind_eq rfl] at hkind; exact .inr hkind)
    | skip
  case nothing.node.inr.refl | nothing.unit.inr.refl => exact absurd rfl hs
  -- These two routes depend on what is there.
  case name.shape.inl.refl => cases c <;> exact .inr hkind
  case last.slice.inr.refl =>
    have hslice := hk.kind_eq rfl
    cases c <;> cases hslice
    exact .inr hkind

end Selector

/-- The part that a projection leads to suits the kind that it is typed to lead to. -/
theorem Heap.Shows.select {h : Heap} {s : Selector} {k k' : Kind} {p : Place} {c : Content}
    {path : List Field} (hs : h.Shows k p) (hc : h.read? p = some c)
    (ht : s.target? k = some k' ∨ s.tryTarget? k = some k') (hp : s.path? k c = some path) :
    h.Shows k' (p.into path) := by
  obtain ⟨c', hc', hk⟩ := hs
  rw [hc] at hc'
  cases hc'
  obtain ⟨hs, rfl, d, hd⟩ := Selector.path?_eq_some hp
  exact .into hc hd (Selector.suits_route ht hs hk hd)

end Custody
