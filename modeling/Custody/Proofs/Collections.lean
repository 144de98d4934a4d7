import Custody.Machine.Inspect
import Mathlib.Data.Finset.Card
import Mathlib.Data.List.Induction

/-!
# Collections of keys

* `insertKey`: the insertion of one key.
* `Collects`: the entries that are left of a list of keys, one for each address.
* `Files`, `Rising`: what is said of a collection. `keyed_files`: it is said of addresses.
-/

namespace Custody

variable {as : List Address} {es : List (Address × Nat)} {a b : Address} {n i : Nat}

/-! ## One insertion -/

/-- An address that is there already gets the new index. -/
def insertKey (a : Address) (n : Nat) (es : List (Address × Nat)) : List (Address × Nat) :=
  if es.any (·.1 == a) then es.map fun e => if e.1 == a then (e.1, n) else e else es ++ [(a, n)]

theorem lastIndices_concat (as : List Address) (a : Address) :
    lastIndices (as ++ [a]).zipIdx = insertKey a as.length (lastIndices as.zipIdx) := by
  simp only [lastIndices, List.zipIdx_append, List.foldl_append, List.zipIdx_singleton,
    List.foldl_cons, List.foldl_nil, Nat.zero_add]
  rfl

theorem any_key_iff : es.any (·.1 == a) = true ↔ a ∈ es.map Prod.fst := by
  simp

/-- What is filed under a key is the last index that it was filed with. -/
theorem mem_insertKey : (b, i) ∈ insertKey a n es ↔ if b = a then i = n else (b, i) ∈ es := by
  unfold insertKey
  by_cases hb : b = a
  · subst hb
    rw [if_pos rfl]
    split
    · next hany =>
      obtain ⟨⟨c, j⟩, hc, heq⟩ := List.any_eq_true.mp hany
      constructor
      · intro h
        obtain ⟨e, -, he⟩ := List.mem_map.mp h
        split at he
        · exact (congrArg Prod.snd he).symm
        · next hne =>
          subst he
          exact absurd (beq_self_eq_true b) hne
      · rintro rfl
        exact List.mem_map.mpr ⟨(c, j), hc, by rw [if_pos heq, beq_iff_eq.mp heq]⟩
    · next hany =>
      have hnot : (b, i) ∉ es := fun h => hany (List.any_eq_true.mpr ⟨_, h, beq_self_eq_true b⟩)
      simp [hnot]
  · rw [if_neg hb]
    split
    · constructor
      · intro h
        obtain ⟨e, he, heq⟩ := List.mem_map.mp h
        split at heq
        · next hkey =>
          cases heq
          exact absurd (beq_iff_eq.mp hkey) hb
        · exact heq ▸ he
      · exact fun h => List.mem_map.mpr ⟨(b, i), h, if_neg (by simpa using hb)⟩
    · simp [hb]

/-- No key is filed twice. -/
theorem nodup_insertKey (h : (es.map Prod.fst).Nodup) : ((insertKey a n es).map Prod.fst).Nodup := by
  unfold insertKey
  split
  · have hkeys :
        (es.map fun e => if e.1 == a then (e.1, n) else e).map Prod.fst = es.map Prod.fst := by
      rw [List.map_map]
      refine List.map_congr_left fun e _ => ?_
      dsimp only [Function.comp]
      split <;> rfl
    rwa [hkeys]
  · next hany =>
    rw [any_key_iff] at hany
    rw [List.map_append]
    refine List.nodup_append.mpr ⟨h, List.nodup_singleton a, fun c hc d hd hcd => hany ?_⟩
    rwa [hcd, List.mem_singleton.mp hd] at hc

/-! ## A list of keys -/

/-- It is at the index, and at no later one. -/
def IsLast {α : Type} (as : List α) (a : α) (i : Nat) : Prop :=
  as[i]? = some a ∧ ∀ j > i, as[j]? ≠ some a

/-- Nothing changes if everything is renamed, as long as names tell things apart. -/
theorem isLast_map_iff {α β : Type} {g : α → β} {as : List α} {a : α} {i : Nat}
    (hg : ∀ b ∈ as, g b = g a → b = a) : IsLast (as.map g) (g a) i ↔ IsLast as a i := by
  have hget (j : Nat) : (as.map g)[j]? = some (g a) ↔ as[j]? = some a := by
    rw [List.getElem?_map]
    cases hb : as[j]? with
    | none => simp
    | some b =>
      rw [Option.map_some, Option.some.injEq, Option.some.injEq]
      exact ⟨hg b (List.mem_of_getElem? hb), congrArg g⟩
  simp only [IsLast, Ne, hget]

/-- Each address that is in the list is an entry, with the last index under which it is there. -/
structure Collects (as : List Address) (es : List (Address × Nat)) : Prop where
  nodup : (es.map Prod.fst).Nodup
  mem : ∀ a, a ∈ es.map Prod.fst ↔ a ∈ as
  entry : ∀ a i, (a, i) ∈ es ↔ IsLast as a i

namespace Collects

/-- One more address is filed under its index, and what was filed under it is replaced. -/
theorem concat (h : Collects as es) (c : Address) :
    Collects (as ++ [c]) (insertKey c as.length es) where
  nodup := nodup_insertKey h.nodup
  mem b := by
    rw [List.mem_append, List.mem_singleton, ← h.mem]
    simp only [List.mem_map, Prod.exists, mem_insertKey, exists_and_right, exists_eq_right]
    by_cases hb : b = c <;> simp [hb]
  entry b i := by
    have hget (j : Nat) : (as ++ [c])[j]? = if j = as.length then some c else as[j]? := by
      grind
    rw [mem_insertKey, h.entry]
    simp only [IsLast, hget]
    split <;> grind

theorem lastIndices (as : List Address) : Collects as (Custody.lastIndices as.zipIdx) := by
  induction as using List.reverseRecOn with
  | nil =>
    exact ⟨List.nodup_nil, fun a => by simp [Custody.lastIndices],
      fun a i => by simp [Custody.lastIndices, IsLast]⟩
  | append_singleton as c ih =>
    rw [lastIndices_concat]
    exact ih.concat c

theorem length (h : Collects as es) : es.length = as.toFinset.card := by
  have hkeys : (es.map Prod.fst).toFinset = as.toFinset :=
    Finset.ext fun a => by rw [List.mem_toFinset, List.mem_toFinset, h.mem]
  rw [← hkeys, List.toFinset_card_of_nodup h.nodup, List.length_map]

theorem lookup (h : Collects as es) : es.lookup a = some i ↔ IsLast as a i := by
  rw [List.lookup_eq_some_iff, ← h.entry]
  constructor
  · rintro ⟨l, r, rfl, -⟩
    exact List.mem_append_right _ List.mem_cons_self
  · intro hmem
    obtain ⟨l, r, rfl⟩ := List.append_of_mem hmem
    refine ⟨l, r, rfl, fun e he => bne_iff_ne.mpr ?_⟩
    have hnodup := h.nodup
    rw [List.map_append, List.nodup_append] at hnodup
    exact (hnodup.2.2 _ (List.mem_map_of_mem he) _ List.mem_cons_self).symm

/-- The entries in rising order of the numbers that the addresses are. -/
theorem sort (h : Collects as es) {f : Address → Nat} {le : Address × Nat → Address × Nat → Bool}
    (hf : ∀ a ∈ as, ∀ b ∈ as, f a = f b → a = b)
    (hle : ∀ d ∈ es, ∀ e ∈ es, le d e = decide (f d.1 ≤ f e.1)) :
    (es.mergeSort le).Pairwise fun d e => f d.1 < f e.1 := by
  have hperm := List.mergeSort_perm es le
  have hsorted : (es.mergeSort le).Pairwise fun d e => f d.1 ≤ f e.1 := by
    have hmap : (es.mergeSort le).map (f ·.1) = (es.map (f ·.1)).mergeSort (decide <| · ≤ ·) :=
      List.map_mergeSort hle
    have hnumbers : ((es.map (f ·.1)).mergeSort (decide <| · ≤ ·)).Pairwise
        (decide <| · ≤ ·) :=
      List.pairwise_mergeSort (by simp only [decide_eq_true_eq]; omega)
        (by simp only [Bool.or_eq_true, decide_eq_true_eq]; omega) _
    rw [← hmap, List.pairwise_map] at hnumbers
    simpa using hnumbers
  have hne : (es.mergeSort le).Pairwise fun d e => d.1 ≠ e.1 :=
    List.pairwise_map.mp ((hperm.map Prod.fst).nodup_iff.mpr h.nodup)
  have hmem {e : Address × Nat} (he : e ∈ es.mergeSort le) : e.1 ∈ as :=
    (h.mem e.1).mp (List.mem_map_of_mem (hperm.mem_iff.mp he))
  refine (hsorted.and hne).imp_of_mem fun hd he hde => ?_
  exact Nat.lt_of_le_of_ne hde.1 fun heq => hde.2 (hf _ (hmem hd) _ (hmem he) heq)

end Collects

/-! ## What is said of them -/

/-- What is said of a collection in which one key is looked for. Keys that are equal are one, under
the last of their indices. -/
structure Files {α : Type} [DecidableEq α] (as : List α) (probe : Option α) (size : Nat)
    (order : Option (List Nat)) (found : Option Nat) : Prop where
  size : size = as.toFinset.card
  found : ∀ i, found = some i ↔ ∃ a ∈ probe, IsLast as a i
  order : ∀ is ∈ order, ∀ i, i ∈ is ↔ ∃ a ∈ as, IsLast as a i

/-- The keys at the indices are one below the other. -/
def Rising {α : Type} (as : List α) (lt : α → α → Prop) (is : List Nat) : Prop :=
  is.Pairwise fun i j => ∀ a ∈ as[i]?, ∀ b ∈ as[j]?, lt a b

theorem rising_map_iff {α β : Type} {g : α → β} {as : List α} {lt : β → β → Prop} {is : List Nat} :
    Rising (as.map g) lt is ↔ Rising as (fun a b => lt (g a) (g b)) is := by
  simp [Rising]

/-- Addresses can be renamed one to one. -/
theorem Files.of_map {α β : Type} [DecidableEq α] [DecidableEq β] {g : α → β} {as : List α}
    {probe : Option α} {size : Nat} {order : Option (List Nat)} {found : Option Nat}
    (h : Files (as.map g) (probe.map g) size order found)
    (hg : ∀ a ∈ as ++ probe.toList, ∀ b ∈ as, g b = g a → b = a) :
    Files as probe size order found where
  size := by
    have himage : (as.map g).toFinset = as.toFinset.image g := by
      ext b
      simp
    rw [h.size, himage, Finset.card_image_of_injOn]
    intro a ha b hb hab
    rw [Finset.mem_coe, List.mem_toFinset] at ha hb
    exact hg b (List.mem_append_left _ hb) a ha hab
  found i := by
    rw [h.found]
    constructor
    · rintro ⟨_, hb, hi⟩
      obtain ⟨a, ha, rfl⟩ := Option.map_eq_some_iff.mp hb
      exact ⟨a, ha, (isLast_map_iff
        (hg a (List.mem_append_right _ (Option.mem_toList.mpr ha)))).mp hi⟩
    · rintro ⟨a, ha, hi⟩
      exact ⟨g a, Option.mem_map_of_mem g ha, (isLast_map_iff
        (hg a (List.mem_append_right _ (Option.mem_toList.mpr ha)))).mpr hi⟩
  order is his i := by
    rw [h.order is his]
    constructor
    · rintro ⟨_, hb, hi⟩
      obtain ⟨a, ha, rfl⟩ := List.mem_map.mp hb
      exact ⟨a, ha, (isLast_map_iff (hg a (List.mem_append_left _ ha))).mp hi⟩
    · rintro ⟨a, ha, hi⟩
      exact ⟨g a, List.mem_map_of_mem ha,
        (isLast_map_iff (hg a (List.mem_append_left _ ha))).mpr hi⟩

/-- Addresses are filed, and in the order of the numbers that they are, if it is known for all. -/
theorem keyed_files (as : List Address) (probe : Option Address) : ∃ size order found,
    keyed as probe = .keyed size order found ∧ Files as probe size order found ∧
    ∀ f : Address → Nat, (∀ a ∈ as, ∀ b ∈ as, f a = f b → a = b) →
      (∀ a ∈ as, ∀ b ∈ as, ∀ o ∈ a.compare? b, compare (f a) (f b) = o) →
      ∀ is ∈ order, Rising as (fun a b => f a < f b) is := by
  have h := Collects.lastIndices as
  have hkey {e : Address × Nat} (he : e ∈ lastIndices as.zipIdx) : e.1 ∈ as :=
    (h.mem e.1).mp (List.mem_map_of_mem he)
  have hsorted (e : Address × Nat) : e ∈ (lastIndices as.zipIdx).mergeSort
      (fun d e => d.1.compare? e.1 != some .gt) ↔ IsLast as e.1 e.2 :=
    (List.mergeSort_perm _ _).mem_iff.trans (h.entry e.1 e.2)
  refine ⟨_, _, _, rfl, ⟨h.length, fun i => ?_, fun is his i => ?_⟩, ?_⟩
  · rw [Option.bind_eq_some_iff]
    simp only [h.lookup, Option.mem_def]
  · obtain rfl := Option.some.inj (Option.ite_none_right_eq_some.mp his).2
    simp only [List.mem_map, hsorted, Prod.exists, exists_eq_right]
    exact exists_congr fun a => ⟨fun hi => ⟨List.mem_of_getElem? hi.1, hi⟩, And.right⟩
  · intro f hf hcompare is his
    obtain ⟨hall, his⟩ := Option.ite_none_right_eq_some.mp his
    obtain rfl := Option.some.inj his
    have hle (d : Address × Nat) (hd : d ∈ lastIndices as.zipIdx) (e : Address × Nat)
        (he : e ∈ lastIndices as.zipIdx) :
        (d.1.compare? e.1 != some .gt) = decide (f d.1 ≤ f e.1) := by
      obtain ⟨o, ho⟩ := Option.isSome_iff_exists.mp
        (List.all_eq_true.mp (List.all_eq_true.mp hall d hd) e he)
      rw [ho, ← hcompare _ (hkey hd) _ (hkey he) o ho, Bool.eq_iff_iff, bne_iff_ne,
        decide_eq_true_iff, Ne, Option.some.injEq, Nat.compare_eq_gt, Nat.not_lt]
    refine List.pairwise_map.mpr ((h.sort hf hle).imp_of_mem fun hd he hde a ha b hb => ?_)
    rw [((hsorted _).mp hd).1, Option.mem_some_iff] at ha
    rw [((hsorted _).mp he).1, Option.mem_some_iff] at hb
    rwa [← ha, ← hb]

end Custody
