import Custody.Proofs.Forest
import Custody.Proofs.Sole

/-!
# Trees do not share

Pointees that hold no more than one pointer to each other are distinct, however often they are
met.

* `Heap.Carries`: slots carry trees that nothing else holds or observes.
* `Heap.Unfolds`: the members of trees, met one after another from the top.
* `Heap.Unfolds.pairwise`: if no more than one pointer is on each of them, no member is met twice.
* `Heap.forest?`, `Heap.bears_of_forest?`: trees are read off a heap.
* `Machine.IsRationed.carries`: so a pointer that is dropped carries what hangs on it.
-/

namespace Custody

/-- Nothing but its tree holds or observes the member. -/
structure Member.Sole (v : Member) : Prop where
  strong : v.header.strong = 1
  weak : v.header.weak = 1
  unfreed : v.header.freed = false

namespace Heap

variable {h g h' : Heap} {v : Member} {o : ObjectId} {y : Object} {es : List Event}
  {os : List ObjectId} {vs us : List Member} {xs ys : List Slot} {f : Forest}

theorem linksOf_of_getElem? (hy : h.objects[o]? = some y) : h.linksOf o = y.links := by
  rw [linksOf, hy, Option.map_some, Option.getD_some]

/-! ## Trees that nothing else holds -/

/-- The slots carry the trees, and nothing else holds or observes what is in them. -/
structure Carries (h : Heap) (xs : List Slot) (f : Forest) : Prop where
  bears : h.Bears xs f
  distinct : f.Distinct
  sole : ∀ u ∈ f.preorder, u.Sole

theorem Carries.confined (hs : h.Carries xs f) (hc : h.Confined vs os es h')
    (hvs : ∀ u ∈ vs, ∀ w ∈ f.preorder, u.Apart w) (hos : ∀ w ∈ f.preorder, w.object ∉ os) :
    h'.Carries xs f :=
  ⟨hs.bears.congr fun w hw => hc.apart (fun u hu => hvs u hu w hw) (hos w hw), hs.distinct, hs.sole⟩

/-- The first tree, and the others. -/
theorem Carries.uncons {x : Slot} (hs : h.Carries (x :: xs) f) : ∃ p v ks ts, x = .strong p ∧
    f = .cons v ks ts ∧ h.Carries [.strong p] (.cons v ks .nil) ∧ h.Carries xs ts ∧
      ∀ u ∈ (Forest.cons v ks .nil).preorder, ∀ w ∈ ts.preorder, u.Apart w := by
  obtain ⟨hbears, hdistinct, hsole⟩ := hs
  cases hbears with
  | @cons p v _ ys ks ts hp hv hsheds hks hts =>
    obtain ⟨hfirst, hothers, hapart⟩ := Forest.distinct_cons.mp hdistinct
    rw [Forest.preorder_cons] at hsole
    obtain ⟨hsole, hsole'⟩ := List.forall_mem_append.mp hsole
    exact ⟨p, v, ks, ts, rfl, rfl,
      ⟨.cons hp hv hsheds hks .nil, hfirst, hsole⟩, ⟨hts, hothers, hsole'⟩, hapart⟩

/-! ## Members are met once -/

theorem Bears.hasMember (hf : h.Bears xs f) : ∀ u ∈ f.preorder, h.HasMember u := by
  induction hf with
  | nil => simp [Forest.preorder]
  | cons _ hv _ _ _ ihk iht =>
    exact List.forall_mem_cons.mpr ⟨hv, List.forall_mem_append.mpr ⟨ihk, iht⟩⟩

/-- From the slots the members are met one after another. What a member holds comes before the
other slots. -/
inductive Unfolds (h : Heap) : List Slot → List Member → Prop
  | nil : Unfolds h [] []
  | cons {p : Strong} {v : Member} {xs ys : List Slot} {us : List Member}
      (hp : p.block = some v.block) (hv : h.HasMember v) (hsheds : v.pointee.Sheds ys)
      (hus : Unfolds h (ys ++ xs) us) :
      Unfolds h (.strong p :: xs) (v :: us)

theorem Bears.unfolds (hf : h.Bears xs f) (hys : h.Unfolds ys us) :
    h.Unfolds (xs ++ ys) (f.preorder ++ us) := by
  induction hf generalizing ys us with
  | nil => exact hys
  | cons hp hv hsheds _ _ ihk iht =>
    rw [Forest.preorder, List.cons_append, List.cons_append, List.append_assoc]
    exact .cons hp hv hsheds (ihk (iht hys))

/-- How many strong pointers to the block are among the slots, and stored. -/
def strongsFrom (h : Heap) (xs : List Slot) (b : BlockId) : Nat :=
  tally Stake.strongOn? (pointersOf xs + pointersOf h.stored) b

/-- The slot of a member is dropped, and what the member holds is taken out. -/
theorem strongsFrom_cons (hy : g.objects[o]? = some y) (hsheds : y.Sheds ys)
    (p : Strong) (xs : List Slot) (b : BlockId) : g.strongsFrom (.strong p :: xs) b =
      (g.withLinks o .empty).strongsFrom (ys ++ xs) b + if p.block = some b then 1 else 0 := by
  have hsize : o < g.objects.size := (Array.getElem?_eq_some_iff.mp hy).1
  have hstored :
      pointersOf (g.withLinks o .empty).stored + pointersOf ys = pointersOf g.stored := by
    have hperm : pointersOf ys = pointersOf y.links.slots :=
      Multiset.coe_eq_coe.mpr (hsheds.perm.map _)
    rw [hperm, ← linksOf_of_getElem? hy]
    exact (stored_withLinks hsize .empty).trans (add_zero _)
  have hfirst : Stake.strongOn? (.pointer (.strong p)) = p.block := rfl
  simp only [strongsFrom, ← hstored, pointersOf_cons, pointersOf_append, tally_add, tally_cons,
    hfirst]
  omega

/-- If no more than one pointer is on each of the members that are met, none is met twice. The
objects that were met before hold nothing any more at heap `g`. -/
theorem Unfolds.pairwise (hu : h.Unfolds xs us)
    (hinj : ∀ u ∈ us, ∀ w ∈ us, u.object = w.object → u.block = w.block)
    (hone : ∀ u ∈ us, g.strongsFrom xs u.block ≤ 1)
    (hnew : ∀ u ∈ us, g.strongsFrom xs u.block ≠ 0 → g.objects[u.object]? = h.objects[u.object]?) :
    us.Pairwise (fun u w => u.block ≠ w.block) ∧ ∀ u ∈ us, g.strongsFrom xs u.block ≠ 0 := by
  induction hu generalizing g with
  | nil => exact ⟨.nil, by simp⟩
  | @cons p v xs ys us hp hv hsheds _ ih =>
    have hmem : v ∈ v :: us := List.mem_cons_self
    have hfirst (K : Heap) (zs : List Slot) :
        K.strongsFrom (.strong p :: zs) v.block = K.strongsFrom zs v.block + 1 := by
      simp [strongsFrom, Stake.strongOn?, hp]
    have hobject : g.objects[v.object]? = some v.pointee := by
      rw [hnew v hmem (by rw [hfirst]; omega), hv.object]
    have hcount := strongsFrom_cons hobject hsheds p xs
    -- the only pointer to the member is gone
    have hzero : (g.withLinks v.object .empty).strongsFrom (ys ++ xs) v.block = 0 := by
      have hle := hone v hmem
      rw [hcount, if_pos hp] at hle
      omega
    have hle (b : BlockId) : (g.withLinks v.object .empty).strongsFrom (ys ++ xs) b ≤
        g.strongsFrom (.strong p :: xs) b := by
      rw [hcount]
      omega
    have hnew' : ∀ u ∈ us, (g.withLinks v.object .empty).strongsFrom (ys ++ xs) u.block ≠ 0 →
        (g.withLinks v.object .empty).objects[u.object]? = h.objects[u.object]? := by
      intro u hu hne
      have hu' := List.mem_cons_of_mem v hu
      have hapart : v.object ≠ u.object := fun heq => hne (hinj v hmem u hu' heq ▸ hzero)
      have := hle u.block
      rw [withLinks, updateObject, Array.getElem?_modify, if_neg hapart]
      exact hnew u hu' (by omega)
    obtain ⟨hpairwise, hmet⟩ := ih
      (fun u hu w hw => hinj u (List.mem_cons_of_mem _ hu) w (List.mem_cons_of_mem _ hw))
      (fun u hu => (hle _).trans (hone u (List.mem_cons_of_mem _ hu))) hnew'
    refine ⟨List.pairwise_cons.mpr ⟨fun u hu heq => hmet u hu (heq ▸ hzero), hpairwise⟩, ?_⟩
    refine List.forall_mem_cons.mpr ⟨by rw [hfirst]; omega, fun u hu => ?_⟩
    have := hle u.block
    have := hmet u hu
    omega

end Heap

/-! ## Trees that are read off a heap -/

namespace Heap

variable {h : Heap} {b : BlockId} {v : Member} {xs : List Slot} {f : Forest} {n : Nat}

/-- The block with its pointee, if it has one. -/
def member? (h : Heap) (b : BlockId) : Option Member := do
  let x ← h.blocks[b]?
  let o ← x.pointee
  let y ← h.objects[o]?
  return ⟨b, x, o, y⟩

/-- The trees that hang on the slots, if they are neither deeper nor wider than `n`. -/
def forest? (h : Heap) : Nat → List Slot → Option Forest
  | _ + 1, [] => some .nil
  | n + 1, .strong ⟨_, some b, _⟩ :: xs => do
    let v ← h.member? b
    let ys ← v.pointee.shed?
    return .cons v (← h.forest? n ys) (← h.forest? n xs)
  | _, _ => none

end Heap

theorem Heap.hasMember_of_member? {h : Heap} {b : BlockId} {v : Member}
    (hv : h.member? b = some v) : v.block = b ∧ h.HasMember v := by
  simp only [member?, Option.bind_eq_bind, Option.bind_eq_some_iff] at hv
  obtain ⟨x, hx, o, ho, y, hy, hv⟩ := hv
  cases hv
  exact ⟨rfl, hx, ho, hy⟩

/-- What is computed is the forest that hangs on the slots. -/
theorem Heap.bears_of_forest? {h : Heap} {n : Nat} {xs : List Slot} {f : Forest}
    (hf : h.forest? n xs = some f) : h.Bears xs f := by
  fun_induction forest? h n xs generalizing f with
  | case1 n =>
    cases hf
    exact .nil
  | case2 n k b w xs ihk iht =>
    simp only [Option.bind_eq_bind, Option.bind_eq_some_iff] at hf
    obtain ⟨v, hv, ys, hys, ks, hks, ts, hts, hf⟩ := hf
    cases hf
    obtain ⟨rfl, hmember⟩ := hasMember_of_member? hv
    exact .cons rfl hmember (Object.sheds_of_shed? hys) (ihk ys hks) (iht hts)
  | case3 => cases hf

namespace Machine

variable {run : Nat → Machine} {n : Nat} {rest : List Action} {p : Strong} {f : Forest}
  {u w : Member}

theorem IsRationed.member_alive (hr : IsRationed run) (hu : (run n).heap.HasMember u) :
    (run n).heap.phase? u.object = some .alive := by
  have hpos := Heap.managers_pos ⟨u.block, u.header, hu.block, hu.pointee⟩
  refine (hr.owned n).alive (hr.grounded n).scope ?_
  rw [owners_scene]
  omega

/-- No two blocks have the same pointee. -/
theorem IsRationed.block_eq_of_object_eq (hr : IsRationed run) (hu : (run n).heap.HasMember u)
    (hw : (run n).heap.HasMember w) (heq : u.object = w.object) : u.block = w.block := by
  have hle : Scene.owners (run n).scene u.object ≤ 1 :=
    (hr.owned n u.object .alive (hr.member_alive hu)).1
  rw [owners_scene] at hle
  exact Heap.pointee_injective (by omega) hu.block hu.pointee hw.block (heq ▸ hw.pointee)

/-- The counters say no more than what pointers there are. -/
theorem IsRationed.sole (hr : IsRationed run) (hu : (run n).heap.HasMember u)
    (hstrong : (run n).strongs u.block = 1) (hweak : (run n).weaks u.block = 0) : u.Sole := by
  have hagree := hr.counted n u.block u.header hu.block
  have hone : u.header.strong = 1 := by
    rw [hagree.strong, ← hstrong]
    exact tally_strongOn? _ _
  have hnone : tally Stake.weakOn? (run n).stakes u.block = 0 := (tally_weakOn? _ _).trans hweak
  have hobserved : u.header.weak = 1 := (hagree.weak_eq_one_iff (by omega)).mpr hnone
  exact ⟨hone, hobserved, hagree.unfreed (by omega)⟩

/-- A pointer that is dropped carries what hangs on it, if there is just one pointer on each of the
members. -/
theorem IsRationed.carries (hr : IsRationed run)
    (ha : (run n).env.agenda = .drop (.strong p) :: rest)
    (hbears : (run n).heap.Bears [.strong p] f)
    (hstrong : ∀ u ∈ f.preorder, (run n).strongs u.block = 1)
    (hweak : ∀ u ∈ f.preorder, (run n).weaks u.block = 0) :
    (run n).heap.Carries [.strong p] f := by
  have hmember := hbears.hasMember
  have hunfolds := hbears.unfolds .nil
  rw [List.append_nil, List.append_nil] at hunfolds
  have hinj : ∀ u ∈ f.preorder, ∀ w ∈ f.preorder, u.object = w.object → u.block = w.block :=
    fun u hu w hw => hr.block_eq_of_object_eq (hmember u hu) (hmember w hw)
  have hone : ∀ u ∈ f.preorder, (run n).heap.strongsFrom [.strong p] u.block ≤ 1 := by
    intro u hu
    have hstakes : (run n).stakes = pointersOf (run n).env.root.slots +
        (pointersOf [.strong p] + pointersOf (run n).heap.stored) + stakesOf rest := by
      rw [stakes, ha, stakesOf_cons]
      simp only [Action.stakes, Action.slots]
      abel
    have htally := tally_strongOn? (run n) u.block
    rw [hstakes, hstrong u hu, tally_add, tally_add] at htally
    rw [Heap.strongsFrom]
    omega
  obtain ⟨hpairwise, -⟩ := hunfolds.pairwise hinj hone fun _ _ _ => rfl
  refine ⟨hbears, ?_, fun u hu => hr.sole (hmember u hu) (hstrong u hu) (hweak u hu)⟩
  exact hpairwise.imp_of_mem fun hu hw hne => ⟨hne, fun heq => hne (hinj _ hu _ hw heq)⟩

end Machine

end Custody
