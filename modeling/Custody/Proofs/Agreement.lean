import Custody.Proofs.LikeEffects
import Custody.Proofs.Views

/-!
# Slots in agreement

* `Machine.Works`: a step on pointers other than weak ones. It asks for no metrics and locks
  nothing, and writes through no strong pointer.
* `Machine.Found`: alike slots at alike places. What is read of the one is what is read of the other
  (`Machine.Found.value?` and its siblings).
* `Machine.Matches.find`: alike machines find alike slots at a path, or none for the same reason.
-/

namespace Custody

/-! ## Steps of the strong side -/

/-- The paths at which a step looks for slots. -/
def Step.operands : Step → List Path
  | .promote src _ | .share src _ | .release src _ | .intoRaw src _ | .adopt src _ _ | .move src _
  | .clone src _ | .take src _ | .map src _ _ _ _ | .tryMap src _ _ _ _ | .cast src _ _
  | .downgrade src _ | .lock src _ | .tryLock src _ => [src]
  | .aliasNull src _ _ | .aliasStatic src _ _ => [src]
  | .drop target | .reset target | .resetWith target _ | .get target | .deref target
  | .set target _ _ | .counts target | .area target | .format target _ => [target]
  | .resetRaw target src | .cloneFrom target src => [target, src]
  | .swap left right | .compare left right | .owner left right => [left, right]
  | .aliasLike src like _ => [src, like]
  | .sets keys _ probe => keys ++ probe.toList
  | _ => []

/-- Steps that neither deal with weak pointers nor ask for the metrics or for the whole state. -/
def Step.isStrong : Step → Bool
  | .weakNull _ _ | .downgrade _ _ | .lock _ _ | .tryLock _ _ | .state | .metrics | .resetMetrics
  | .mark _ | .since _ => false
  | _ => true

/-- The path at which a step looks for the pointer that it writes through. -/
def Step.written? : Step → Option Path
  | .set target _ _ => some target
  | _ => none

/-- The slot is a strong pointer. -/
def Slot.isStrong : Slot → Bool
  | .strong _ => true
  | _ => false

namespace Machine

/-- The path does not lead to a weak pointer. -/
def Weakless (m : Machine) (p : Path) : Prop :=
  ∀ loc w, m.resolve? p = some loc → m.get? loc ≠ some (.weak w)

/-- The path does not lead to a strong pointer. -/
def Strongless (m : Machine) (p : Path) : Prop :=
  ∀ loc s, m.resolve? p = some loc → m.get? loc ≠ some (.strong s)

/-- The step works on pointers that are not weak. Writing through a strong pointer depends on the
weak references to its block, so that is not among these steps. -/
structure Works (m : Machine) (s : Step) : Prop where
  strong : s.isStrong = true
  operands : ∀ p ∈ s.operands, m.Weakless p
  written : ∀ target value throughDeref, s = .set target value throughDeref → m.Strongless target

instance (m : Machine) (p : Path) : Decidable (m.Weakless p) :=
  decidable_of_iff (∀ loc ∈ m.resolve? p, ∀ x ∈ m.get? loc, x.isWeak = false) <| by
    constructor
    · intro h loc w hl hx
      cases h loc hl _ hx
    · intro h loc hl x hx
      cases x with
      | weak w => exact absurd hx (h loc w hl)
      | strong p | unique u | raw r => rfl

instance (m : Machine) (p : Path) : Decidable (m.Strongless p) :=
  decidable_of_iff (∀ loc ∈ m.resolve? p, ∀ x ∈ m.get? loc, x.isStrong = false) <| by
    constructor
    · intro h loc s hl hx
      cases h loc hl _ hx
    · intro h loc hl x hx
      cases x with
      | strong s => exact absurd hx (h loc s hl)
      | weak w | unique u | raw r => rfl

instance (m : Machine) (s : Step) : Decidable (m.Works s) :=
  decidable_of_iff (s.isStrong = true ∧ (∀ p ∈ s.operands, m.Weakless p) ∧
      ∀ p ∈ s.written?, m.Strongless p) <| by
    constructor
    · rintro ⟨hs, hp, hw⟩
      refine ⟨hs, hp, ?_⟩
      rintro target value throughDeref rfl
      exact hw target rfl
    · rintro ⟨hs, hp, hw⟩
      refine ⟨hs, hp, fun p hp => ?_⟩
      cases s with
      | set target value throughDeref =>
        cases hp
        exact hw _ _ _ rfl
      | _ => cases hp

end Machine

/-! ## Outcomes -/

namespace Meets

variable {ε α β γ δ : Type} {R : α → β → Prop} {S : γ → δ → Prop}

theorem bind {x : Except ε α} {y : Except ε β} {f : α → Except ε γ} {g : β → Except ε δ}
    (h : Meets R x y) (hfg : ∀ a b, R a b → Meets S (f a) (g b)) : Meets S (x >>= f) (y >>= g) := by
  cases h with
  | ok h => exact hfg _ _ h
  | error e => exact .error e

theorem and_eq {x : Except ε α} {y : Except ε β} (h : Meets R x y) :
    Meets (fun a b => R a b ∧ x = .ok a) x y := by
  cases h with
  | ok h => exact .ok ⟨h, rfl⟩
  | error e => exact .error e

theorem mapM {xs : List α} {ys : List β} {f : α → Except ε γ} {g : β → Except ε δ}
    (h : List.Forall₂ (fun x y => Meets S (f x) (g y)) xs ys) :
    Meets (List.Forall₂ S) (xs.mapM f) (ys.mapM g) := by
  induction h with
  | nil => exact .ok .nil
  | cons hxy _ ih =>
    simp only [List.mapM_cons]
    exact hxy.bind fun _ _ hab => ih.bind fun _ _ has => .ok (.cons hab has)

theorem mapM_option {x : Option α} {y : Option β} {f : α → Except ε γ} {g : β → Except ε δ}
    (h : Option.Rel (fun x y => Meets S (f x) (g y)) x y) :
    Meets (Option.Rel S) (x.mapM f) (y.mapM g) := by
  cases h with
  | none => exact .ok .none
  | some h => exact h.bind fun _ _ h => .ok (.some h)

end Meets

namespace Machine

variable {P : Pairing} {m n : Machine} {p q : Path} {loc loc' : Location}

/-! ## Slots -/

/-- Alike slots, at alike places. -/
structure Found (P : Pairing) (m n : Machine) (x y : Location × Slot) : Prop where
  loc : x.1.Alike P y.1
  slot : x.2.Alike P y.2
  left : m.get? x.1 = some x.2
  right : n.get? y.1 = some y.2

namespace Matches

theorem locate (h : m.Matches P n) (p : Path) :
    Meets (fun l l' => l.Alike P l' ∧ m.resolve? p = some l ∧ n.resolve? p = some l') (m.locate p)
      (n.locate p) := by
  have hl := h.resolve? p
  unfold Machine.locate
  cases hm : m.resolve? p <;> cases hn : n.resolve? p <;> rw [hm, hn] at hl <;> cases hl
  · exact .error _
  · next hl => exact .ok ⟨hl, rfl, rfl⟩

/-- Alike locations have alike slots, or none, if those are no weak pointers. -/
theorem lookup (h : m.Matches P n) (hl : loc.Alike P loc') (hm : ∀ w, m.get? loc ≠ some (.weak w))
    (hn : ∀ w, n.get? loc' ≠ some (.weak w)) :
    Meets (fun x y => Found P m n (loc, x) (loc', y)) (m.lookup loc) (n.lookup loc') := by
  have hslot := h.table hl.table loc.name
  rw [Table.get?_strongSide, hl.name, Table.get?_strongSide] at hslot
  have hkeep {k : Machine} {l : Location} (hk : ∀ w, k.get? l ≠ some (.weak w)) :
      ((k.table l.table).get? l.name).filter (!·.isWeak) = k.get? l := by
    rw [get?]
    cases hx : (k.table l.table).get? l.name with
    | none => rfl
    | some x =>
      cases x with
      | weak w => exact absurd hx (hk w)
      | strong p | unique u | raw r => rfl
  rw [hkeep hn, ← hl.name, hkeep hm] at hslot
  unfold Machine.lookup
  cases hx : m.get? loc <;> cases hy : n.get? loc' <;> rw [hx, hy] at hslot <;> cases hslot
  · exact .error _
  · next hxy => exact .ok ⟨hl, hxy, hx, hy⟩

theorem find (h : m.Matches P n) (hm : m.Weakless p) (hn : n.Weakless p) :
    Meets (Found P m n) (m.find p) (n.find p) :=
  (h.locate p).bind fun _ _ ⟨hl, hr, hr'⟩ =>
    (h.lookup hl (fun w => hm _ w hr) fun w => hn _ w hr').bind fun _ _ hf => .ok hf

/-- Alike machines find alike pairs of slots, or refuse the two paths for one reason. -/
theorem findTwo (h : m.Matches P n) (hm : m.Weakless p) (hn : n.Weakless p) (hm' : m.Weakless q)
    (hn' : n.Weakless q) :
    Meets (fun x y => Found P m n x.1 y.1 ∧ Found P m n x.2 y.2) (m.findTwo p q)
      (n.findTwo p q) := by
  unfold Machine.findTwo
  split
  · exact .error _
  · refine (h.locate p).bind fun l l' ⟨hl, hr, hr'⟩ => (h.locate q).bind fun k k' ⟨hk, hs, hs'⟩ => ?_
    refine (h.lookup hl (fun w => hm _ w hr) fun w => hn _ w hr').bind fun x y hf => ?_
    by_cases heq : l = k
    · rw [if_pos heq, if_pos ((hl.eq_iff hk).mp heq)]
      exact .error _
    · rw [if_neg heq, if_neg (mt (hl.eq_iff hk).mpr heq)]
      exact (h.lookup hk (fun w => hm' _ w hs) fun w => hn' _ w hs').bind fun _ _ hg => .ok ⟨hf, hg⟩

theorem findStrong (h : m.Matches P n) (hm : m.Weakless p) (hn : n.Weakless p) :
    Meets (fun x y => Found P m n (x.1, .strong x.2) (y.1, .strong y.2) ∧ x.2.Alike P y.2)
      (m.findStrong p) (n.findStrong p) := by
  refine (h.find hm hn).bind fun x y hf => ?_
  obtain ⟨l, x⟩ := x
  obtain ⟨l', y⟩ := y
  have hslot : x.Alike P y := hf.slot
  cases hslot with
  | strong h => exact .ok ⟨hf, h⟩
  | unique | raw => exact .error _

theorem findUnique (h : m.Matches P n) (hm : m.Weakless p) (hn : n.Weakless p) :
    Meets (fun x y => Found P m n (x.1, .unique x.2) (y.1, .unique y.2) ∧ x.2.Alike P y.2)
      (m.findUnique p) (n.findUnique p) := by
  refine (h.find hm hn).bind fun x y hf => ?_
  obtain ⟨l, x⟩ := x
  obtain ⟨l', y⟩ := y
  have hslot : x.Alike P y := hf.slot
  cases hslot with
  | unique h => exact .ok ⟨hf, h⟩
  | strong | raw => exact .error _

theorem findRaw (h : m.Matches P n) (hm : m.Weakless p) (hn : n.Weakless p) :
    Meets (fun x y => Found P m n (x.1, .raw x.2) (y.1, .raw y.2) ∧ x.2.Alike P y.2)
      (m.findRaw p) (n.findRaw p) := by
  refine (h.find hm hn).bind fun x y hf => ?_
  obtain ⟨l, x⟩ := x
  obtain ⟨l', y⟩ := y
  have hslot : x.Alike P y := hf.slot
  cases hslot with
  | raw h => exact .ok ⟨hf, h⟩
  | strong | unique => exact .error _

end Matches

/-! ## What is read of the slots -/

/-- The view of a strong or unique pointer leads into what is alive. -/
theorem Reachable.lives_strong {p : Strong} (hm : m.Reachable) (hp : m.get? loc = some (.strong p)) :
    m.heap.Lives p.view :=
  fun _ _ hv ho => hm.alive_of_view (mem_pointers_of_get? hp) hv ho

theorem Reachable.lives_unique {u : Unique} (hm : m.Reachable)
    (hu : m.get? loc = some (.unique u)) : m.heap.Lives u.view := by
  intro p o hv ho
  obtain ⟨o', ho', rfl⟩ := Option.map_eq_some_iff.mp hv
  cases ho
  exact hm.alive_of_owns (mem_pointers_of_get? hu) ho'

/-- The block of a strong pointer is not freed. -/
theorem Reachable.unfreed_strong {p : Strong} {b : BlockId} {x : Block} (hm : m.Reachable)
    (hp : m.get? loc = some (.strong p)) (hb : p.block = some b) (hx : m.heap.blocks[b]? = some x) :
    x.freed = false := by
  have hagrees := hm.sound.counted b x hx
  have hpos := tally_pos (f := Stake.strongOn?)
    (pointer_mem_stakes_iff.mpr (mem_pointers_of_get? hp)) hb
  exact hagrees.unfreed (hagrees.weak_of_strong (hagrees.strong ▸ hpos))

variable {x y : Location × Slot} {z w : Location × Slot}

/-- Alike slots are ordered by alike addresses. -/
theorem Found.key? (h : m.Matches P n) (hm : m.Reachable) (hn : n.Reachable) (hf : Found P m n x y)
    (order : OrderBy) :
    Option.Rel (Address.Alike P m.heap n.heap) (x.2.key? m.heap order) (y.2.key? n.heap order) := by
  obtain ⟨l, x⟩ := x
  obtain ⟨l', y⟩ := y
  obtain ⟨-, hxy, hx, hy⟩ := hf
  cases hxy with
  | strong hp =>
    cases order with
    | address => exact .some (h.estate.addressOf hp.view (hm.lives_strong hx))
    | owner =>
      exact .some (h.estate.ownerAddress hp.block (fun _ _ => hm.unfreed_strong hx)
        fun _ _ => hn.unfreed_strong hy)
  | unique | raw => cases order <;> exact .none

/-- Alike slots are of the same types. -/
theorem Found.sameType (hf : Found P m n x y) (hg : Found P m n z w) :
    x.2.sameType z.2 = y.2.sameType w.2 := by
  obtain ⟨l, x⟩ := x
  obtain ⟨l', y⟩ := y
  obtain ⟨k, z⟩ := z
  obtain ⟨k', w⟩ := w
  have hxy : x.Alike P y := hf.slot
  have hzw : z.Alike P w := hg.slot
  cases hxy with
  | unique | raw => cases hzw <;> rfl
  | strong hp =>
    cases hzw with
    | strong hq => simp only [Slot.sameType, hp.kind, hq.kind]
    | unique | raw => rfl

/-- The same is shown of alike slots, apart from the names of links. -/
theorem Found.value? (h : m.Matches P n) (hf : Found P m n x y) :
    Option.Rel (Meets fun v v' : Shown => v.heard = v'.heard) (x.2.value? m.heap)
      (y.2.value? n.heap) := by
  have horFail (f : Failure) {v v' : Option Shown} (hv : v.map Shown.heard = v'.map Shown.heard) :
      Meets (fun v v' : Shown => v.heard = v'.heard) (Slot.value?.orFail f v)
        (Slot.value?.orFail f v') := by
    cases v <;> cases v' <;> first | exact .error f | cases hv | exact .ok (Option.some.inj hv)
  obtain ⟨l, x⟩ := x
  obtain ⟨l', y⟩ := y
  have hxy : x.Alike P y := hf.slot
  cases hxy with
  | strong hp =>
    simp only [Slot.value?, hp.kind]
    exact .some (horFail _ (h.estate.show? _ hp.view))
  | unique hu =>
    simp only [Slot.value?, hu.kind]
    exact .some (horFail _ (h.estate.show? _ hu.view))
  | raw => exact .none

/-- Alike slots are formatted to the same text. -/
theorem Found.format? (h : m.Matches P n) (hm : m.Reachable) (hf : Found P m n x y) (f : Format) :
    x.2.format? m.heap f = y.2.format? n.heap f := by
  have hshown (spec : Text.Spec) {a b : Address} (hab : a.Alike P m.heap n.heap b) :
      Slot.pointer?.shownAddress spec a = Slot.pointer?.shownAddress spec b := by
    cases hab <;> rfl
  obtain ⟨l, x⟩ := x
  obtain ⟨l', y⟩ := y
  obtain ⟨-, hxy, hx, -⟩ := hf
  cases hxy with
  | raw => cases f <;> rfl
  | @strong p q hp =>
    have hget := h.estate.get? hp
    cases f with
    | pointer spec =>
      exact congrArg some (hshown spec (h.estate.addressOf hp.view (hm.lives_strong hx)))
    | display | debug | ownerKey =>
      simp only [Slot.format?, Slot.display?, Slot.ownerKey?, Slot.debug?, hp.kind, hget]
  | @unique u v hu =>
    cases f with
    | pointer spec =>
      exact congrArg some (hshown spec (h.estate.addressOf hu.view (hm.lives_unique hx)))
    | display | ownerKey => rfl
    | debug spec =>
      have hread : u.view.bind m.heap.read? = v.view.bind n.heap.read? := by
        have hview := hu.view
        generalize u.view = a, v.view = b at hview
        cases hview with
        | none => rfl
        | some hpq => exact h.estate.read? hpq
      simp only [Slot.format?, Slot.debug?, hu.kind, hread]

end Machine

end Custody
