import Custody.Proofs.StrongSide
import Mathlib.Logic.Relator
import Mathlib.Order.Defs.PartialOrder

/-!
# Likeness up to identities

Two strong sides are alike when blocks and objects can be paired one to one so that what is said of
them agrees.

* `Pairing`: which block, and which object, of the one stands for which of the other.
* `Slot.Alike`, `Table.Alike`, `Estate.Alike`, `StrongSide.Alike`. A weak pointer is not like
  anything: tables are compared by their strong sides.
* `Covers`: what is paired agrees, and what is live is paired. It is kept when paired entries change
  in the same way (`Covers.modify`), and when new ones are paired (`Covers.put`).
-/

namespace Custody

/-! ## Pairings -/

/-- Which blocks and objects of one heap stand for which ones of another, one to one. -/
structure Pairing where
  block : BlockId → BlockId → Prop
  object : ObjectId → ObjectId → Prop
  block_unique : Relator.BiUnique block
  object_unique : Relator.BiUnique object

/-- One pair more, of two that are in no pair. -/
theorem biUnique_insert {R : Nat → Nat → Prop} (hR : Relator.BiUnique R) {i j : Nat}
    (hi : ∀ j, ¬ R i j) (hj : ∀ i, ¬ R i j) : Relator.BiUnique fun a b => R a b ∨ a = i ∧ b = j := by
  constructor
  · rintro a b c (h | ⟨ha, hc⟩) (h' | ⟨hb, hc'⟩)
    · exact hR.1 h h'
    · exact absurd (hc' ▸ h) (hj a)
    · exact absurd (hc ▸ h') (hj b)
    · exact ha.trans hb.symm
  · rintro a b c (h | ⟨ha, hb⟩) (h' | ⟨ha', hc⟩)
    · exact hR.2 h h'
    · exact absurd (ha' ▸ h) (hi b)
    · exact absurd (ha ▸ h') (hi c)
    · exact hb.trans hc.symm

namespace Pairing

variable {P Q : Pairing} {b c : BlockId} {o o' : ObjectId}

/-- What is paired stays paired. -/
instance : Preorder Pairing where
  le P Q := (∀ b c, P.block b c → Q.block b c) ∧ ∀ o o', P.object o o' → Q.object o o'
  le_refl _ := ⟨fun _ _ => id, fun _ _ => id⟩
  le_trans _ _ _ h h' := ⟨fun b c => h'.1 b c ∘ h.1 b c, fun o o' => h'.2 o o' ∘ h.2 o o'⟩

/-- The pairing with one more pair of blocks. -/
def addBlock (P : Pairing) (b c : BlockId) (hb : ∀ c, ¬ P.block b c) (hc : ∀ b, ¬ P.block b c) :
    Pairing :=
  { P with
    block := fun b' c' => P.block b' c' ∨ b' = b ∧ c' = c
    block_unique := biUnique_insert P.block_unique hb hc }

/-- The pairing with one more pair of objects. -/
def addObject (P : Pairing) (o o' : ObjectId) (ho : ∀ o', ¬ P.object o o')
    (ho' : ∀ o, ¬ P.object o o') : Pairing :=
  { P with
    object := fun a b => P.object a b ∨ a = o ∧ b = o'
    object_unique := biUnique_insert P.object_unique ho ho' }

theorem le_addBlock (hb : ∀ c, ¬ P.block b c) (hc : ∀ b, ¬ P.block b c) :
    P ≤ P.addBlock b c hb hc :=
  ⟨fun _ _ => .inl, fun _ _ => id⟩

theorem le_addObject (ho : ∀ o', ¬ P.object o o') (ho' : ∀ o, ¬ P.object o o') :
    P ≤ P.addObject o o' ho ho' :=
  ⟨fun _ _ => id, fun _ _ => .inl⟩

end Pairing

theorem Option.Rel.mono {α β : Type} {R S : α → β → Prop} (hRS : ∀ a b, R a b → S a b)
    {x : Option α} {y : Option β} (h : Option.Rel R x y) : Option.Rel S x y := by
  cases h with
  | some h => exact .some (hRS _ _ h)
  | none => exact .none

theorem Option.Rel.isSome {α β : Type} {R : α → β → Prop} {x : Option α} {y : Option β}
    (h : Option.Rel R x y) : x.isSome = y.isSome := by
  cases h <;> rfl

theorem Option.Rel.bind {α β γ δ : Type} {R : α → β → Prop} {S : γ → δ → Prop} {x : Option α}
    {y : Option β} {f : α → Option γ} {g : β → Option δ} (h : Option.Rel R x y)
    (hfg : ∀ a b, R a b → Option.Rel S (f a) (g b)) : Option.Rel S (x.bind f) (y.bind g) := by
  cases h with
  | some h => exact hfg _ _ h
  | none => exact .none

theorem Option.Rel.map {α β γ δ : Type} {R : α → β → Prop} {S : γ → δ → Prop} {x : Option α}
    {y : Option β} {f : α → γ} {g : β → δ} (h : Option.Rel R x y)
    (hfg : ∀ a b, R a b → S (f a) (g b)) : Option.Rel S (x.map f) (y.map g) := by
  cases h with
  | some h => exact .some (hfg _ _ h)
  | none => exact .none

theorem List.Forall₂.head? {α β : Type} {R : α → β → Prop} {xs : List α} {ys : List β}
    (h : List.Forall₂ R xs ys) : Option.Rel R xs.head? ys.head? := by
  cases h with
  | nil => exact .none
  | cons h _ => exact .some h

/-! ## Pointers -/

section Pointers

variable {P Q : Pairing}

/-- Paired objects, or the same standing value. -/
inductive Origin.Alike (P : Pairing) : Origin → Origin → Prop
  | object {o o' : ObjectId} (h : P.object o o') : Origin.Alike P (.object o) (.object o')
  | static (s : Static) : Origin.Alike P (.static s) (.static s)

/-- The same part of what is paired. -/
structure Place.Alike (P : Pairing) (p q : Place) : Prop where
  origin : p.origin.Alike P q.origin
  path : p.path = q.path

/-- Strong pointers with paired owners and alike views. -/
structure Strong.Alike (P : Pairing) (p q : Strong) : Prop where
  kind : p.kind = q.kind
  block : Option.Rel P.block p.block q.block
  view : Option.Rel (Place.Alike P) p.view q.view

/-- The owners of paired objects. -/
structure Unique.Alike (P : Pairing) (u v : Unique) : Prop where
  kind : u.kind = v.kind
  alloc : u.alloc = v.alloc
  object : Option.Rel P.object u.object v.object

/-- Raw pointers to paired objects. -/
structure Raw.Alike (P : Pairing) (r s : Raw) : Prop where
  kind : r.kind = s.kind
  alloc : r.alloc = s.alloc
  object : P.object r.object s.object

/-- Alike slots of one sort. Weak pointers have none that are alike. -/
inductive Slot.Alike (P : Pairing) : Slot → Slot → Prop
  | strong {p q : Strong} (h : p.Alike P q) : Slot.Alike P (.strong p) (.strong q)
  | unique {u v : Unique} (h : u.Alike P v) : Slot.Alike P (.unique u) (.unique v)
  | raw {r s : Raw} (h : r.Alike P s) : Slot.Alike P (.raw r) (.raw s)

theorem Origin.Alike.mono (hPQ : P ≤ Q) {i j : Origin} (h : i.Alike P j) : i.Alike Q j := by
  cases h with
  | object h => exact .object (hPQ.2 _ _ h)
  | static s => exact .static s

theorem Place.Alike.mono (hPQ : P ≤ Q) {p q : Place} (h : p.Alike P q) : p.Alike Q q :=
  ⟨h.origin.mono hPQ, h.path⟩

theorem Strong.Alike.mono (hPQ : P ≤ Q) {p q : Strong} (h : p.Alike P q) : p.Alike Q q :=
  ⟨h.kind, Option.Rel.mono hPQ.1 h.block, Option.Rel.mono (fun _ _ => .mono hPQ) h.view⟩

theorem Unique.Alike.mono (hPQ : P ≤ Q) {u v : Unique} (h : u.Alike P v) : u.Alike Q v :=
  ⟨h.kind, h.alloc, Option.Rel.mono hPQ.2 h.object⟩

theorem Raw.Alike.mono (hPQ : P ≤ Q) {r s : Raw} (h : r.Alike P s) : r.Alike Q s :=
  ⟨h.kind, h.alloc, hPQ.2 _ _ h.object⟩

theorem Slot.Alike.mono (hPQ : P ≤ Q) {x y : Slot} (h : x.Alike P y) : x.Alike Q y := by
  cases h with
  | strong h => exact .strong (h.mono hPQ)
  | unique h => exact .unique (h.mono hPQ)
  | raw h => exact .raw (h.mono hPQ)

theorem Place.Alike.into {p q : Place} (h : p.Alike P q) (path : List Field) :
    (p.into path).Alike P (q.into path) :=
  ⟨h.origin, by simp [Place.into, h.path]⟩

theorem Place.Alike.object? {p q : Place} (h : p.Alike P q) :
    Option.Rel P.object p.object? q.object? := by
  obtain ⟨i, path⟩ := p
  obtain ⟨j, path'⟩ := q
  obtain ⟨hi, rfl⟩ := h
  cases hi with
  | object h =>
    cases path with
    | nil => exact .some h
    | cons => exact .none
  | static s => exact .none

theorem Place.alike_whole {o o' : ObjectId} (h : P.object o o') :
    (Place.whole o).Alike P (Place.whole o') :=
  ⟨.object h, rfl⟩

theorem Place.alike_static (s : Static) : (Place.static s).Alike P (Place.static s) :=
  ⟨.static s, rfl⟩

theorem Unique.Alike.view {u v : Unique} (h : u.Alike P v) :
    Option.Rel (Place.Alike P) u.view v.view :=
  Option.Rel.map h.object fun _ _ => Place.alike_whole

theorem Slot.Alike.kind {x y : Slot} (h : x.Alike P y) : x.kind = y.kind := by
  cases h with
  | strong h => exact h.kind
  | unique h => exact h.kind
  | raw h => exact h.kind

theorem Slot.Alike.isWeak {x y : Slot} (h : x.Alike P y) :
    x.isWeak = false ∧ y.isWeak = false := by
  cases h <;> exact ⟨rfl, rfl⟩

/-- Paths go on through alike slots to paired nodes. -/
theorem Slot.Alike.node? {x y : Slot} (h : x.Alike P y) :
    Option.Rel P.object x.node? y.node? := by
  cases h with
  | @strong p q h =>
    obtain ⟨k, b, v⟩ := p
    obtain ⟨k', b', v'⟩ := q
    obtain ⟨rfl, -, hv⟩ := h
    cases hv with
    | none => cases k <;> exact .none
    | some hv =>
      cases k with
      | node => exact hv.object?
      | _ => exact .none
  | @unique u v h =>
    obtain ⟨k, a, o⟩ := u
    obtain ⟨k', a', o'⟩ := v
    obtain ⟨rfl, rfl, ho⟩ := h
    cases k with
    | node => exact ho
    | _ => exact .none
  | raw h => exact .none

theorem Strong.alike_null (k : Kind) : (Strong.null k).Alike P (Strong.null k) :=
  ⟨rfl, .none, .none⟩

theorem Unique.alike_null (k : Kind) (a : Alloc) : (Unique.null k a).Alike P (Unique.null k a) :=
  ⟨rfl, rfl, .none⟩

end Pointers

/-! ## Tables -/

section Tables

variable {P Q : Pairing} {t u : Table} {name : String}

/-- Tables of the strong side: under each name there is the same, up to identities. -/
def Table.Alike (P : Pairing) (t u : Table) : Prop :=
  ∀ name, Option.Rel (Slot.Alike P) (t.get? name) (u.get? name)

/-- The root tables, or the links of paired objects. -/
inductive TableId.Alike (P : Pairing) : TableId → TableId → Prop
  | root : TableId.Alike P .root .root
  | links {o o' : ObjectId} (h : P.object o o') : TableId.Alike P (.links o) (.links o')

/-- The same name in alike tables. -/
structure Location.Alike (P : Pairing) (loc loc' : Location) : Prop where
  table : loc.table.Alike P loc'.table
  name : loc.name = loc'.name

theorem Table.Alike.mono (hPQ : P ≤ Q) (h : t.Alike P u) : t.Alike Q u :=
  fun name => Option.Rel.mono (fun _ _ => .mono hPQ) (h name)

theorem Table.Alike.insert {x y : Slot} (h : t.Alike P u) (hxy : x.Alike P y) (name : String) :
    (t.insert name x).Alike P (u.insert name y) := by
  intro other
  rw [get?_insert, get?_insert]
  split
  · exact .some hxy
  · exact h other

theorem Table.Alike.erase (h : t.Alike P u) (name : String) :
    (t.erase name).Alike P (u.erase name) := by
  intro other
  rw [get?_erase, get?_erase]
  split
  · exact .none
  · exact h other

theorem Table.alike_empty : Table.empty.Alike P Table.empty := fun _ => .none

theorem TableId.Alike.mono (hPQ : P ≤ Q) {t t' : TableId} (h : t.Alike P t') : t.Alike Q t' := by
  cases h with
  | root => exact .root
  | links h => exact .links (hPQ.2 _ _ h)

theorem Location.Alike.mono (hPQ : P ≤ Q) {loc loc' : Location} (h : loc.Alike P loc') :
    loc.Alike Q loc' :=
  ⟨h.table.mono hPQ, h.name⟩

/-- Pairs are one to one, so tables that are like two are like one. -/
theorem TableId.Alike.eq_iff {s s' t t' : TableId} (h : s.Alike P s') (h' : t.Alike P t') :
    s = t ↔ s' = t' := by
  cases h with
  | root => cases h' <;> simp
  | links h =>
    cases h' with
    | root => simp
    | links h' =>
      simp only [TableId.links.injEq]
      constructor
      · rintro rfl
        exact P.object_unique.2 h h'
      · rintro rfl
        exact P.object_unique.1 h h'

theorem Location.Alike.eq_iff {k k' l l' : Location} (h : k.Alike P k') (h' : l.Alike P l') :
    k = l ↔ k' = l' := by
  obtain ⟨t, n⟩ := k
  obtain ⟨t', n'⟩ := k'
  obtain ⟨ht, rfl⟩ := h
  obtain ⟨s, m⟩ := l
  obtain ⟨s', m'⟩ := l'
  obtain ⟨hs, rfl⟩ := h'
  simp only [Location.mk.injEq, ht.eq_iff hs]

/-- The entries of alike tables, in order. -/
theorem Table.Alike.entries (h : t.Alike P u) :
    List.Forall₂ (fun e f => e.1 = f.1 ∧ e.2.Alike P f.2) t.entries u.entries := by
  have hmem (t : Table) (name : String) : name ∈ t.names ↔ (t.get? name).isSome := by
    rw [names, List.mem_map, Option.isSome_iff_exists]
    constructor
    · rintro ⟨e, he, rfl⟩
      exact ⟨e.2, mem_entries.mp he⟩
    · rintro ⟨x, hx⟩
      exact ⟨(name, x), mem_entries.mpr hx, rfl⟩
  have hrising (t : Table) : t.names.Pairwise (· < ·) := List.pairwise_map.mpr t.rising
  have hnames : t.names = u.names :=
    (hrising t).eq_of_mem_iff (hrising u) fun name => by
      rw [hmem, hmem, Option.Rel.isSome (h name)]
  have hlength : t.entries.length = u.entries.length := by
    simpa [names] using congrArg List.length hnames
  refine List.forall₂_iff_get.mpr ⟨hlength, fun i hi hi' => ?_⟩
  have hname : (t.entries.get ⟨i, hi⟩).1 = (u.entries.get ⟨i, hi'⟩).1 := by
    have := List.getElem_of_eq hnames (i := i) (by simpa [names] using hi)
    simpa [names] using this
  have ht := mem_entries.mp (List.get_mem t.entries ⟨i, hi⟩)
  have hu := mem_entries.mp (List.get_mem u.entries ⟨i, hi'⟩)
  have hfound := h (t.entries.get ⟨i, hi⟩).1
  rw [ht, hname, hu] at hfound
  cases hfound with
  | some hxy => exact ⟨hname, hxy⟩

end Tables

/-! ## Estates -/

/-- What is paired is on both sides and agrees; what is live on one side is paired. -/
structure Covers {α : Type} (R : Nat → Nat → Prop) (A : α → α → Prop) (live : α → Prop)
    (f g : Nat → Option α) : Prop where
  alike : ∀ {i j}, R i j → ∃ x y, f i = some x ∧ g j = some y ∧ A x y
  left : ∀ {i x}, f i = some x → live x → ∃ j, R i j
  right : ∀ {j y}, g j = some y → live y → ∃ i, R i j

namespace Covers

variable {α : Type} {R : Nat → Nat → Prop} {A B : α → α → Prop} {live : α → Prop}
  {f g : Nat → Option α} {i j : Nat}

theorem mono (h : Covers R A live f g) (hAB : ∀ x y, A x y → B x y) : Covers R B live f g where
  alike hij :=
    let ⟨x, y, hx, hy, hxy⟩ := h.alike hij
    ⟨x, y, hx, hy, hAB x y hxy⟩
  left := h.left
  right := h.right

/-- Two paired entries change in the same way. -/
theorem modify (h : Covers R A live f g) (hR : Relator.BiUnique R) (hij : R i j) {F G : α → α}
    (hFG : ∀ x y, A x y → A (F x) (G y)) :
    Covers R A live (fun k => if i = k then (f k).map F else f k)
      (fun k => if j = k then (g k).map G else g k) where
  alike {k l} hkl := by
    obtain ⟨x, y, hx, hy, hxy⟩ := h.alike hkl
    by_cases hk : i = k
    · subst hk
      obtain rfl := hR.2 hij hkl
      exact ⟨F x, G y, by simp [hx], by simp [hy], hFG x y hxy⟩
    · have hl : j ≠ l := by
        rintro rfl
        exact hk (hR.1 hij hkl)
      exact ⟨x, y, by simp [hk, hx], by simp [hl, hy], hxy⟩
  left {k x} hx hlive := by
    by_cases hk : i = k
    · exact hk ▸ ⟨j, hij⟩
    · exact h.left (by simpa [hk] using hx) hlive
  right {l y} hy hlive := by
    by_cases hl : j = l
    · exact hl ▸ ⟨i, hij⟩
    · exact h.right (by simpa [hl] using hy) hlive

theorem not_paired (h : Covers R A live f g) (hi : f i = none) : ∀ j, ¬ R i j := by
  intro j hij
  obtain ⟨x, -, hx, -⟩ := h.alike hij
  rw [hi] at hx
  cases hx

theorem not_paired' (h : Covers R A live f g) (hj : g j = none) : ∀ i, ¬ R i j := by
  intro i hij
  obtain ⟨-, y, -, hy, -⟩ := h.alike hij
  rw [hj] at hy
  cases hy

/-- Two new entries are paired. -/
theorem put (h : Covers R A live f g) (hi : f i = none) (hj : g j = none) {x y : α} (hxy : A x y) :
    Covers (fun a b => R a b ∨ a = i ∧ b = j) A live (fun k => if k = i then some x else f k)
      (fun k => if k = j then some y else g k) where
  alike {k l} hkl := by
    rcases hkl with hkl | ⟨rfl, rfl⟩
    · have hk : k ≠ i := by
        rintro rfl
        exact h.not_paired hi l hkl
      have hl : l ≠ j := by
        rintro rfl
        exact h.not_paired' hj k hkl
      simpa [hk, hl] using h.alike hkl
    · exact ⟨x, y, by simp, by simp, hxy⟩
  left {k z} hz hlive := by
    by_cases hk : k = i
    · exact ⟨j, .inr ⟨hk, rfl⟩⟩
    · obtain ⟨l, hl⟩ := h.left (by simpa [hk] using hz) hlive
      exact ⟨l, .inl hl⟩
  right {l z} hz hlive := by
    by_cases hl : l = j
    · exact ⟨i, .inr ⟨rfl, hl⟩⟩
    · obtain ⟨k, hk⟩ := h.right (by simpa [hl] using hz) hlive
      exact ⟨k, .inl hk⟩

/-- The first `n` entries, each paired with itself. -/
theorem self {n : Nat} (hf : ∀ i x, f i = some x → i < n ∧ A x x)
    (hn : ∀ i, i < n → ∃ x, f i = some x) : Covers (fun i j => i = j ∧ i < n) A live f f where
  alike {i j} hij := by
    obtain ⟨rfl, hi⟩ := hij
    obtain ⟨x, hx⟩ := hn i hi
    exact ⟨x, x, hx, hx, (hf i x hx).2⟩
  left {i x} hx _ := ⟨i, rfl, (hf i x hx).1⟩
  right {i x} hx _ := ⟨i, rfl, (hf i x hx).1⟩

end Covers

/-- Blocks with as many strong pointers, on paired pointees. -/
structure Share.Alike (P : Pairing) (s t : Share) : Prop where
  strong : s.strong = t.strong
  pointee : Option.Rel P.object s.pointee t.pointee

/-- Objects of the strong side. Which memory they occupy does not matter. -/
structure Object.Alike (P : Pairing) (x y : Object) : Prop where
  content : x.content = y.content
  onDrop : x.onDrop = y.onDrop
  phase : x.phase = y.phase
  serial : x.serial.isSome = y.serial.isSome
  links : x.links.Alike P y.links

/-- The estates agree on paired blocks and objects, and blocks with strong owners and objects that
are alive are paired. -/
structure Estate.Alike (P : Pairing) (e f : Estate) : Prop where
  block : Covers P.block (Share.Alike P) (·.strong ≠ 0) e.block f.block
  object : Covers P.object (Object.Alike P) (·.phase = .alive) e.object f.object
  statics : e.statics = f.statics
  budget : e.budget = f.budget

section Estates

variable {P Q : Pairing} {e f : Estate} {b c : BlockId} {o o' : ObjectId}

theorem Share.Alike.mono (hPQ : P ≤ Q) {s t : Share} (h : s.Alike P t) : s.Alike Q t :=
  ⟨h.strong, Option.Rel.mono hPQ.2 h.pointee⟩

theorem Object.Alike.mono (hPQ : P ≤ Q) {x y : Object} (h : x.Alike P y) : x.Alike Q y :=
  ⟨h.content, h.onDrop, h.phase, h.serial, h.links.mono hPQ⟩

namespace Estate.Alike

theorem modifyBlock (h : e.Alike P f) (hbc : P.block b c) {F G : Share → Share}
    (hFG : ∀ s t, s.Alike P t → (F s).Alike P (G t)) :
    (e.modifyBlock b F).Alike P (f.modifyBlock c G) :=
  ⟨h.block.modify P.block_unique hbc hFG, h.object, h.statics, h.budget⟩

theorem modifyObject (h : e.Alike P f) (ho : P.object o o') {F G : Object → Object}
    (hFG : ∀ x y, x.Alike P y → (F x).Alike P (G y)) :
    (e.modifyObject o F).Alike P (f.modifyObject o' G) :=
  ⟨h.block, h.object.modify P.object_unique ho hFG, h.statics, h.budget⟩

theorem spend (h : e.Alike P f) (a : Alloc) : (e.spend a).Alike P (f.spend a) :=
  ⟨h.block, h.object, h.statics, by simp only [Estate.spend, h.budget]⟩

/-- A new block on each side, and its pair. -/
theorem addBlock (h : e.Alike P f) (hb : e.block b = none) (hc : f.block c = none) {s t : Share}
    (hst : s.Alike P t) : ∃ Q, P ≤ Q ∧ Q.object = P.object ∧ Q.block b c ∧
      (e.addBlock b s).Alike Q (f.addBlock c t) := by
  refine ⟨P.addBlock b c (h.block.not_paired hb) (h.block.not_paired' hc), Pairing.le_addBlock _ _,
    rfl, .inr ⟨rfl, rfl⟩, ?_, ?_, h.statics, h.budget⟩
  · exact (h.block.put hb hc hst).mono fun _ _ => .mono (Pairing.le_addBlock _ _)
  · exact h.object.mono fun _ _ => .mono (Pairing.le_addBlock _ _)

theorem addObject (h : e.Alike P f) (ho : e.object o = none) (ho' : f.object o' = none)
    {x y : Object} (hxy : x.Alike P y) : ∃ Q, P ≤ Q ∧
      (∀ a a', Q.object a a' → P.object a a' ∨ a = o ∧ a' = o') ∧ Q.object o o' ∧
      (e.addObject o x).Alike Q (f.addObject o' y) := by
  refine ⟨P.addObject o o' (h.object.not_paired ho) (h.object.not_paired' ho'),
    Pairing.le_addObject _ _, fun _ _ => id, .inr ⟨rfl, rfl⟩, ?_, ?_, h.statics, h.budget⟩
  · exact h.block.mono fun _ _ => .mono (Pairing.le_addObject _ _)
  · exact (h.object.put ho ho' hxy).mono fun _ _ => .mono (Pairing.le_addObject _ _)

end Estate.Alike

end Estates

/-! ## Machines -/

/-- The strong sides of two states are the same, up to how blocks and objects are numbered. -/
structure StrongSide.Alike (P : Pairing) (s t : StrongSide) : Prop where
  estate : s.estate.Alike P t.estate
  root : s.root.Alike P t.root
  running : List.Forall₂ P.object s.running t.running
  held : List.Forall₂ (Slot.Alike P) s.held t.held
  inUse : ∀ o o', P.object o o' → s.inUse o = t.inUse o'

namespace Machine

variable {P Q : Pairing} {m n m' n' : Machine}

/-- The strong sides are alike, but for what operations in progress hold. -/
structure Matches (P : Pairing) (m n : Machine) : Prop where
  estate : m.heap.estate.Alike P n.heap.estate
  root : m.env.root.strongSide.Alike P n.env.root.strongSide
  running : List.Forall₂ P.object m.env.running n.env.running

theorem Matches.table (h : m.Matches P n) {t t' : TableId} (ht : t.Alike P t') :
    (m.table t).strongSide.Alike P (n.table t').strongSide := by
  cases ht with
  | root => exact h.root
  | links ho =>
    obtain ⟨x, y, hx, hy, hxy⟩ := h.estate.object.alike ho
    rw [strongSide_table_links, strongSide_table_links, hx, hy]
    exact hxy.links

theorem Matches.isGone (h : m.Matches P n) {t t' : TableId} (ht : t.Alike P t') :
    m.isGone t = n.isGone t' := by
  cases ht with
  | root => rfl
  | links ho =>
    obtain ⟨x, y, hx, hy, hxy⟩ := h.estate.object.alike ho
    rw [isGone_links_estate, isGone_links_estate, hx, hy]
    simp [hxy.phase]

theorem Matches.withTable (h : m.Matches P n) {t t' : TableId} (ht : t.Alike P t')
    {new new' : Table} (hnew : new.strongSide.Alike P new'.strongSide) :
    (m.withTable t new).Matches P (n.withTable t' new') := by
  cases ht with
  | root => exact ⟨h.estate, hnew, h.running⟩
  | links ho =>
    refine ⟨?_, h.root, h.running⟩
    have hestate := h.estate.modifyObject ho (F := fun x => { x with links := new.strongSide })
      (G := fun y => { y with links := new'.strongSide })
      fun x y hxy => ⟨hxy.content, hxy.onDrop, hxy.phase, hxy.serial, hnew⟩
    rwa [← Heap.estate_withLinks, ← Heap.estate_withLinks] at hestate

/-- A path leads to alike places. -/
theorem Matches.resolve? (h : m.Matches P n) (p : Path) :
    Option.Rel (Location.Alike P) (m.resolve? p) (n.resolve? p) := by
  have hgoes {t t' : TableId} (ht : t.Alike P t') (name : String) :
      Option.Rel (TableId.Alike P) (m.goesTo? t name) (n.goesTo? t' name) :=
    Option.Rel.map (Option.Rel.bind (h.table ht name) fun _ _ => Slot.Alike.node?) fun _ _ => .links
  have hfold (names : List String) {t t' : TableId} (ht : t.Alike P t') :
      Option.Rel (TableId.Alike P) (names.foldlM m.goesTo? t) (names.foldlM n.goesTo? t') := by
    induction names generalizing t t' with
    | nil => exact .some ht
    | cons name names ih => exact Option.Rel.bind (hgoes ht name) fun _ _ => ih
  have hstart : Option.Rel (TableId.Alike P)
      (if p.fromRunning then m.env.running.head?.map .links else some .root)
      (if p.fromRunning then n.env.running.head?.map .links else some .root) := by
    split
    · exact Option.Rel.map (List.Forall₂.head? h.running) fun _ _ => .links
    · exact .some .root
  rw [resolve?_eq, resolve?_eq]
  exact Option.Rel.bind hstart fun _ _ ht =>
    Option.Rel.map (hfold p.through ht) fun _ _ ht => ⟨ht, rfl⟩

end Machine

/-! ## Equal strong sides -/

/-- Each block and each object of the heap stands for itself. -/
def Pairing.same (h : Heap) : Pairing where
  block b c := b = c ∧ b < h.blocks.size
  object o o' := o = o' ∧ o < h.objects.size
  block_unique := ⟨fun _ _ _ h h' => h.1.trans h'.1.symm, fun _ _ _ h h' => h.1.symm.trans h'.1⟩
  object_unique := ⟨fun _ _ _ h h' => h.1.trans h'.1.symm, fun _ _ _ h h' => h.1.symm.trans h'.1⟩

section Same

variable {h : Heap} {x : Slot} {t : Table}

theorem Place.alike_self {p : Place} (hp : p.Within h) : p.Alike (.same h) p := by
  obtain ⟨o | s, path⟩ := p
  · exact ⟨.object ⟨rfl, hp o rfl⟩, rfl⟩
  · exact ⟨.static s, rfl⟩

/-- A slot is like itself. -/
theorem Slot.alike_self (hx : x.Within h) (hw : x.isWeak = false) : x.Alike (.same h) x := by
  have hrefl {α : Type} {R : α → α → Prop} (y : Option α) (hy : ∀ a, y = some a → R a a) :
      Option.Rel R y y := by
    cases y with
    | none => exact .none
    | some a => exact .some (hy a rfl)
  cases x with
  | strong p =>
    exact .strong ⟨rfl, hrefl _ fun b hb => ⟨rfl, hx.block b hb⟩,
      hrefl _ fun v hv => Place.alike_self (hx.view v hv)⟩
  | weak w => cases hw
  | unique u =>
    refine .unique ⟨rfl, rfl, hrefl _ fun o ho => ⟨rfl, ?_⟩⟩
    exact hx.view (.whole o) (by simp [view?, Unique.view, ho]) o rfl
  | raw r => exact .raw ⟨rfl, rfl, rfl, hx.view _ rfl r.object rfl⟩

theorem Table.alike_self (ht : ∀ name x, t.get? name = some x → x.Within h) :
    t.strongSide.Alike (.same h) t.strongSide := by
  intro name
  cases hx : t.strongSide.get? name with
  | none => exact .none
  | some x =>
    rw [get?_strongSide, Option.filter_eq_some_iff] at hx
    exact .some (Slot.alike_self (ht name x hx.1) (by simpa using hx.2))

/-- So equal strong sides are alike. -/
theorem Machine.Grounded.alike_self {m : Machine} (hm : m.Grounded) :
    m.strongSide.Alike (.same m.heap) m.strongSide := by
  have hwithin {x : Slot} (hx : x ∈ m.pointers) : x.Within m.heap :=
    hm.scope.stakes _ (pointer_mem_stakes_iff.mpr hx)
  have htable (t : TableId) : (m.table t).strongSide.Alike (.same m.heap) (m.table t).strongSide := by
    refine Table.alike_self fun name x hx => hwithin ?_
    have hget : m.get? ⟨t, name⟩ = some x := hx
    exact mem_pointers_of_get? hget
  refine ⟨⟨Covers.self ?_ ?_, Covers.self ?_ ?_, rfl, rfl⟩, htable .root, ?_, ?_, ?_⟩
  · intro b s hs
    obtain ⟨x, hx, rfl⟩ := Option.map_eq_some_iff.mp hs
    refine ⟨(Array.getElem?_eq_some_iff.mp hx).1, rfl, ?_⟩
    cases ho : x.share.pointee with
    | none => exact .none
    | some o => exact .some ⟨rfl, hm.scope.pointees o ⟨b, x, hx, ho⟩⟩
  · intro b hb
    exact ⟨_, congrArg (Option.map Block.share) (Array.getElem?_eq_getElem hb)⟩
  · intro o y hy
    obtain ⟨x, hx, rfl⟩ := Option.map_eq_some_iff.mp hy
    refine ⟨(Array.getElem?_eq_some_iff.mp hx).1, rfl, rfl, rfl, rfl, ?_⟩
    have hlinks : m.table (.links o) = x.links := by simp [table, Heap.linksOf, hx]
    have hself := htable (.links o)
    rwa [hlinks] at hself
  · intro o ho
    exact ⟨_, congrArg (Option.map Object.strongSide) (Array.getElem?_eq_getElem ho)⟩
  · exact List.forall₂_same.mpr fun o ho => ⟨rfl, hm.running o ho⟩
  · refine List.forall₂_same.mpr fun x hx => ?_
    obtain ⟨hmem, hweak⟩ := List.mem_filter.mp hx
    exact Slot.alike_self (hwithin (List.mem_append_right _ hmem)) (by simpa using hweak)
  · rintro o _ ⟨rfl, -⟩
    rfl

end Same

end Custody
