import Custody.Proofs.Collections
import Custody.Proofs.Conservation

/-!
# The order of owners

Two pointers are told apart by the addresses of the blocks that they are on. An allocator may use
an address again once it has been given back.

* `Placement`: where in memory the allocations of a run are. `Placement.Apart`: those that are out
  at a moment are at different addresses, and none is at null.
* `OwnerBased`: a strong or a weak pointer, compared by its owner. `OwnerKey`: one that is a key.
* `Machine.OwnerOrder`, `Machine.IsRationed.ownerOrder`: owners are the same just when the blocks
  are, their order is a total one, and it stays as it is. Collections of keys are in that order.
-/

namespace Custody

/-- Where each region begins. Two regions may begin at one address, one after the other. -/
abbrev Placement := Region → Nat

/-- The number that an address is. -/
def Address.number (σ : Placement) : Address → Nat
  | low n => n
  | inside r k => σ r + k

namespace Placement

/-- What is out at the same time is at different addresses, and not at null. -/
structure Apart (σ : Placement) (h : Heap) : Prop where
  nonnull : ∀ a e, e ∈ (h.ledger a).entries true → 0 < σ (.memory a e.1)
  apart : ∀ a e a' e', e ∈ (h.ledger a).entries true → e' ∈ (h.ledger a').entries true →
    σ (.memory a e.1) = σ (.memory a' e'.1) → a = a' ∧ e.1 = e'.1

/-- The arena hands out rising addresses. -/
def Rises (σ : Placement) : Prop :=
  StrictMono fun serial : Nat => σ (.memory .arena serial)

end Placement

/-! ## Owners -/

/-- A pointer that can be compared by its owner. -/
inductive OwnerBased
  | strong (p : Strong)
  | weak (w : Weak)

namespace OwnerBased

variable (σ : Placement) (h : Heap) (x y : OwnerBased)

/-- The slot that the pointer is kept in. -/
def slot : OwnerBased → Slot
  | strong p => .strong p
  | weak w => .weak w

/-- The block that ownership is shared through, if it is shared through one. -/
def block : OwnerBased → Option BlockId
  | strong p => p.block
  | weak w => w.block

/-- The address of the block, or null. -/
def ownerAddr : Nat := (h.ownerAddress x.block).number σ

/-- The two have the same owner, by its address. -/
def ownerEq : Bool := x.ownerAddr σ h == y.ownerAddr σ h

/-- The first one's owner comes before the second one's, by their addresses. -/
def ownerBefore : Bool := x.ownerAddr σ h < y.ownerAddr σ h

/-- The order of the owners' addresses. -/
def ownerCmp : Ordering := compare (x.ownerAddr σ h) (y.ownerAddr σ h)

theorem block?_slot : x.slot.block? = x.block := by
  cases x <;> rfl

end OwnerBased

/-- A pointer that is compared and hashed by its owner, with the blocks where they are. -/
structure OwnerKey (σ : Placement) (h : Heap) where
  pointer : OwnerBased

namespace OwnerKey

variable {σ : Placement} {h : Heap}

instance : BEq (OwnerKey σ h) := ⟨fun x y => x.pointer.ownerEq σ h y.pointer⟩

instance : Ord (OwnerKey σ h) := ⟨fun x y => x.pointer.ownerCmp σ h y.pointer⟩

instance : Hashable (OwnerKey σ h) := ⟨fun x => hash (x.pointer.ownerAddr σ h)⟩

theorem beq_iff {x y : OwnerKey σ h} :
    (x == y) = true ↔ x.pointer.ownerAddr σ h = y.pointer.ownerAddr σ h :=
  beq_iff_eq (α := Nat)

instance : EquivBEq (OwnerKey σ h) where
  rfl := beq_iff.mpr rfl
  symm h := beq_iff.mpr (beq_iff.mp h).symm
  trans h h' := beq_iff.mpr ((beq_iff.mp h).trans (beq_iff.mp h'))

instance : LawfulHashable (OwnerKey σ h) where
  hash_eq _ _ h := congrArg (fun n : Nat => hash n) (beq_iff.mp h)

instance : Std.LawfulBEqOrd (OwnerKey σ h) where
  compare_eq_iff_beq := Nat.compare_eq_eq.trans beq_iff.symm

instance : Std.TransOrd (OwnerKey σ h) where
  eq_swap := Std.OrientedOrd.eq_swap (α := Nat)
  isLE_trans := Std.TransOrd.isLE_trans (α := Nat)

end OwnerKey

/-! ## Addresses of blocks -/

section

variable {σ : Placement} {h : Heap} {K : Multiset Stake} {x y : OwnerBased} {b : BlockId}

theorem OwnerBased.ownerAddr_none (hx : x.block = none) : x.ownerAddr σ h = 0 := by
  rw [ownerAddr, hx]
  rfl

/-- The block of a pointer that exists is in memory of its own. -/
theorem OwnerBased.exists_block (hs : Sound (h, K)) (hx : .pointer x.slot ∈ K)
    (hb : x.block = some b) : ∃ z, h.blocks[b]? = some z ∧ z.freed = false ∧
      h.ownerAddress x.block = .inside (.memory z.alloc z.serial) 0 ∧
      (z.serial, .block z.kind.isSized) ∈ (h.ledger z.alloc).entries true := by
  obtain ⟨z, hz, hf, -⟩ := hs.block (k := .pointer x.slot) hx (x.block?_slot.trans hb)
  have hentry := hs.booked.block hz
  rw [hf] at hentry
  exact ⟨z, hz, hf, by rw [hb, Heap.ownerAddress, hz], hentry⟩

/-- Two blocks that are not freed are not in one allocation. -/
theorem Booked.block_injective {c : BlockId} {z w : Block} (hs : Booked h)
    (hz : h.blocks[b]? = some z) (hw : h.blocks[c]? = some w) (hzf : z.freed = false)
    (hwf : w.freed = false) (halloc : z.alloc = w.alloc) (hserial : z.serial = w.serial) :
    b = c := by
  have hzclaim := Tenant.claim?_block hz hzf
  have hwclaim := Tenant.claim?_block hw hwf
  rw [← halloc, ← hserial] at hwclaim
  exact Tenant.block.inj (hs.tenant_eq hzclaim hwclaim)

theorem OwnerBased.ownerAddr_pos (hs : Sound (h, K)) (hσ : σ.Apart h) (hx : .pointer x.slot ∈ K)
    (hb : x.block = some b) : 0 < x.ownerAddr σ h := by
  obtain ⟨z, -, -, haddress, hentry⟩ := exists_block hs hx hb
  rw [ownerAddr, haddress]
  exact hσ.nonnull _ _ hentry

/-- Addresses tell blocks apart as long as pointers are on them. -/
theorem OwnerBased.ownerAddr_eq_iff (hs : Sound (h, K)) (hσ : σ.Apart h)
    (hx : .pointer x.slot ∈ K) (hy : .pointer y.slot ∈ K) :
    x.ownerAddr σ h = y.ownerAddr σ h ↔ x.block = y.block := by
  refine ⟨fun heq => ?_, fun heq => by rw [ownerAddr, heq, ownerAddr]⟩
  cases hb : x.block with
  | none =>
    cases hc : y.block with
    | none => rfl
    | some c =>
      have := ownerAddr_pos hs hσ hy hc
      rw [← heq, ownerAddr_none hb] at this
      exact absurd this (Nat.lt_irrefl 0)
  | some b =>
    cases hc : y.block with
    | none =>
      have := ownerAddr_pos hs hσ hx hb
      rw [heq, ownerAddr_none hc] at this
      exact absurd this (Nat.lt_irrefl 0)
    | some c =>
      obtain ⟨z, hz, hzf, hzaddress, hzentry⟩ := exists_block hs hx hb
      obtain ⟨w, hw, hwf, hwaddress, hwentry⟩ := exists_block hs hy hc
      rw [ownerAddr, ownerAddr, hzaddress, hwaddress] at heq
      obtain ⟨halloc, hserial⟩ := hσ.apart _ _ _ _ hzentry hwentry heq
      exact congrArg some (hs.booked.block_injective hz hw hzf hwf halloc hserial)

theorem OwnerBased.block_eq_of_ownerAddress_eq (hs : Sound (h, K)) (hσ : σ.Apart h)
    (hx : .pointer x.slot ∈ K) (hy : .pointer y.slot ∈ K)
    (heq : h.ownerAddress x.block = h.ownerAddress y.block) : x.block = y.block := by
  refine (ownerAddr_eq_iff hs hσ hx hy).mp ?_
  rw [ownerAddr, heq, ownerAddr]

/-- Nothing comes before what has no owner. -/
theorem OwnerBased.ownerCmp_none (hs : Sound (h, K)) (hσ : σ.Apart h) (hy : .pointer y.slot ∈ K)
    (hx : x.block = none) : x.ownerCmp σ h y = if y.block = none then .eq else .lt := by
  rw [ownerCmp, ownerAddr_none hx]
  cases hc : y.block with
  | none => rw [ownerAddr_none hc, if_pos rfl, Nat.compare_eq_eq]
  | some c => exact Nat.compare_eq_lt.mpr (ownerAddr_pos hs hσ hy hc)

/-- Where the beginnings of two regions are in a known order. -/
theorem Address.compare?_inside {r s : Region} {order : Ordering}
    (h : (inside r 0).compare? (inside s 0) = some order) :
    r = s ∧ order = .eq ∨
      ∃ i j, r = .memory .arena i ∧ s = .memory .arena j ∧ order = compare i j := by
  unfold compare? at h
  split at h
  case h_4 hr hs =>
    cases hr
    cases hs
    refine .inr ⟨_, _, rfl, rfl, ?_⟩
    simpa using h.symm
  case h_5 hr hs =>
    cases hr
    cases hs
    split at h
    · next heq => exact .inl ⟨heq.1, (Option.some.inj h).symm⟩
    · cases h
  all_goals simp_all

/-- The order that a program is told of is the order of the addresses. -/
theorem OwnerBased.compare?_eq_some {order : Ordering} (hs : Sound (h, K)) (hσ : σ.Apart h)
    (hrises : σ.Rises) (hx : .pointer x.slot ∈ K) (hy : .pointer y.slot ∈ K)
    (ho : (h.ownerAddress x.block).compare? (h.ownerAddress y.block) = some order) :
    x.ownerCmp σ h y = order := by
  cases hb : x.block with
  | none =>
    rw [ownerCmp_none hs hσ hy hb]
    cases hc : y.block with
    | none =>
      rw [hb, hc] at ho
      exact Option.some.inj ho
    | some c =>
      obtain ⟨w, -, -, hwaddress, -⟩ := exists_block hs hy hc
      rw [hb, hwaddress] at ho
      exact Option.some.inj ho
  | some b =>
    obtain ⟨z, -, -, hzaddress, -⟩ := exists_block hs hx hb
    cases hc : y.block with
    | none =>
      rw [hzaddress, hc] at ho
      cases ho
      rw [ownerCmp, ownerAddr_none hc, Nat.compare_eq_gt]
      exact ownerAddr_pos hs hσ hx hb
    | some c =>
      obtain ⟨w, -, -, hwaddress, -⟩ := exists_block hs hy hc
      rw [ownerCmp, ownerAddr, ownerAddr, hzaddress, hwaddress]
      rw [hzaddress, hwaddress] at ho
      rcases Address.compare?_inside ho with ⟨heq, rfl⟩ | ⟨i, j, hi, hj, rfl⟩
      · rw [heq, Nat.compare_eq_eq]
      · rw [hi, hj]
        exact (compare_iff _ _).mpr (hrises.compares.mpr ((compare_iff i j).mp rfl))

/-- Owners are filed under the addresses of blocks as they would be under the blocks. -/
theorem OwnerBased.keyed_files {xs : List OwnerBased} {probe : Option OwnerBased}
    (hs : Sound (h, K)) (hσ : σ.Apart h) (hxs : ∀ x ∈ xs, .pointer x.slot ∈ K)
    (hprobe : ∀ x ∈ probe, .pointer x.slot ∈ K) : ∃ size order found,
      keyed (xs.map (h.ownerAddress ·.block)) (probe.map (h.ownerAddress ·.block)) =
        .keyed size order found ∧
      Files (xs.map (·.block)) (probe.map (·.block)) size order found ∧
      (σ.Rises → ∀ is ∈ order, Rising (xs.map OwnerKey.mk)
        (fun k l : OwnerKey σ h => compare k l = .lt) is) := by
  obtain ⟨size, order, found, heq, hfiles, hrising⟩ :=
    Custody.keyed_files ((xs.map (·.block)).map h.ownerAddress)
      ((probe.map (·.block)).map h.ownerAddress)
  rw [List.map_map, Option.map_map] at heq
  refine ⟨size, order, found, heq, hfiles.of_map ?_, fun hrises is his => ?_⟩
  · intro a ha b hb hab
    obtain ⟨y, hy, rfl⟩ := List.mem_map.mp hb
    obtain ⟨x, hx, rfl⟩ : ∃ x : OwnerBased, .pointer x.slot ∈ K ∧ x.block = a := by
      rcases List.mem_append.mp ha with ha | ha
      · obtain ⟨x, hx, hxa⟩ := List.mem_map.mp ha
        exact ⟨x, hxs x hx, hxa⟩
      · obtain ⟨x, hx, hxa⟩ := Option.map_eq_some_iff.mp (Option.mem_toList.mp ha)
        exact ⟨x, hprobe x hx, hxa⟩
    exact block_eq_of_ownerAddress_eq hs hσ (hxs y hy) hx hab
  · have hnumbers := hrising (Address.number σ) ?_ ?_ is his
    · rw [rising_map_iff, rising_map_iff] at hnumbers
      rw [rising_map_iff]
      exact hnumbers.imp fun hlt x hx y hy => Nat.compare_eq_lt.mpr (hlt x hx y hy)
    · simp only [List.forall_mem_map]
      exact fun x hx y hy hxy =>
        congrArg _ ((ownerAddr_eq_iff hs hσ (hxs x hx) (hxs y hy)).mp hxy)
    · simp only [List.forall_mem_map]
      exact fun x hx y hy o ho => compare?_eq_some hs hσ hrises (hxs x hx) (hxs y hy) ho

end

/-- What programs compare owners by is the address of the block. -/
theorem OwnerBased.exists_of_key? {h : Heap} {x : Slot} {a : Address}
    (ha : x.key? h .owner = some a) : ∃ p : OwnerBased, p.slot = x ∧ a = h.ownerAddress p.block := by
  cases x with
  | strong p => exact ⟨.strong p, rfl, (Option.some.inj ha).symm⟩
  | weak w => exact ⟨.weak w, rfl, (Option.some.inj ha).symm⟩
  | unique | raw => cases ha

namespace Machine

/-- The pointer that a path leads to. -/
def IsAt (m : Machine) (p : Path) (x : OwnerBased) : Prop :=
  ∃ loc, m.find p = .ok (loc, x.slot)

section

variable {m : Machine} {left right p : Path} {paths : List Path} {probe : Option Path}
variable {x : OwnerBased} {xs : List OwnerBased} {y : Option OwnerBased} {e : Effect}

theorem IsAt.mem_pointers (h : m.IsAt p x) : x.slot ∈ m.pointers := by
  obtain ⟨loc, h⟩ := h
  exact mem_pointers_of_get? (find_ok h)

/-- Two slots are found as each of them is. -/
theorem findTwo_find {loc other : Location} {x y : Slot}
    (h : m.findTwo left right = .ok ((loc, x), (other, y))) :
    m.find left = .ok (loc, x) ∧ m.find right = .ok (other, y) := by
  unfold findTwo at h
  split at h
  · cases h
  · simp only [bind_eq_ok] at h
    obtain ⟨first, hfirst, second, hsecond, z, hz, h⟩ := h
    split at h
    · cases h
    · simp only [bind_eq_ok, pure_eq_ok] at h
      obtain ⟨w, hw, h⟩ := h
      cases h
      simp only [find, bind_eq_ok, pure_eq_ok]
      exact ⟨⟨loc, hfirst, x, hz, rfl⟩, other, hsecond, y, hw, rfl⟩

/-- A program asks of two owners by paths to pointers. -/
theorem planOwner_ok (h : m.planOwner left right = .ok e) : ∃ x y, m.IsAt left x ∧ m.IsAt right y ∧
    e = .answer (.owners (m.heap.ownerAddress x.block == m.heap.ownerAddress y.block)
      ((m.heap.ownerAddress x.block).compare? (m.heap.ownerAddress y.block))) := by
  simp only [planOwner, bind_eq_ok] at h
  obtain ⟨⟨⟨loc, x⟩, ⟨other, y⟩⟩, hxy, h⟩ := h
  obtain ⟨hx, hy⟩ := findTwo_find hxy
  dsimp only at h
  split at h
  · next a b ha hb =>
    obtain ⟨p, rfl, rfl⟩ := OwnerBased.exists_of_key? ha
    obtain ⟨q, rfl, rfl⟩ := OwnerBased.exists_of_key? hb
    cases h
    exact ⟨p, q, ⟨loc, hx⟩, ⟨other, hy⟩, rfl⟩
  · cases h

/-! ## Collections of owners -/

theorem mapM_eq_ok {α β ε : Type} {f : α → Except ε β} {xs : List α} {ys : List β}
    (h : xs.mapM f = .ok ys) : List.Forall₂ (fun x y => f x = .ok y) xs ys := by
  induction xs generalizing ys with
  | nil =>
    obtain rfl := pure_eq_ok.mp h
    exact .nil
  | cons x xs ih =>
    simp only [List.mapM_cons, bind_eq_ok, pure_eq_ok] at h
    obtain ⟨y, hy, ys, hys, rfl⟩ := h
    exact .cons hy (ih hys)

theorem mapM_option_eq_ok {α β ε : Type} {f : α → Except ε β} {x : Option α} {y : Option β}
    (h : x.mapM f = .ok y) : Option.Rel (fun x y => f x = .ok y) x y := by
  cases x with
  | none =>
    obtain rfl := pure_eq_ok.mp h
    exact .none
  | some x =>
    obtain ⟨y, hy, hxy⟩ := bind_eq_ok.mp h
    obtain rfl := pure_eq_ok.mp hxy
    exact .some hy

/-- What slots are compared by, if it is their owners: they hold pointers that have one. -/
theorem exists_owners {h : Heap} {slots : List Slot} {as : List Address}
    (hkeys : List.Forall₂ (fun x a => x.key? h .owner = some a) slots as) :
    ∃ xs : List OwnerBased, slots = xs.map (·.slot) ∧ as = xs.map (h.ownerAddress ·.block) := by
  induction hkeys with
  | nil => exact ⟨[], rfl, rfl⟩
  | cons hx _ ih =>
    obtain ⟨x, rfl, rfl⟩ := OwnerBased.exists_of_key? hx
    obtain ⟨xs, rfl, rfl⟩ := ih
    exact ⟨x :: xs, rfl, rfl⟩

theorem keyed_owners {h : Heap} {slots : List Slot} {sought : Option Slot}
    {key : Slot → Except Failure Address} (hkey : ∀ x a, key x = .ok a → x.key? h .owner = some a)
    (he : (do return .answer (keyed (← slots.mapM key) (← sought.mapM key))) = Except.ok e) :
    ∃ (xs : List OwnerBased) (y : Option OwnerBased),
      slots = xs.map (·.slot) ∧ sought = y.map (·.slot) ∧
      e = .answer (keyed (xs.map (h.ownerAddress ·.block)) (y.map (h.ownerAddress ·.block))) := by
  simp only [bind_eq_ok, pure_eq_ok] at he
  obtain ⟨as, has, a, ha, rfl⟩ := he
  obtain ⟨xs, rfl, rfl⟩ := exists_owners ((mapM_eq_ok has).imp hkey)
  refine ⟨xs, ?_⟩
  cases mapM_option_eq_ok ha with
  | none => exact ⟨none, rfl, rfl, rfl⟩
  | some hb =>
    obtain ⟨y, rfl, rfl⟩ := OwnerBased.exists_of_key? (hkey _ _ hb)
    exact ⟨some y, rfl, rfl, rfl⟩

/-- The keys of a collection are the pointers at the paths, and so is what is looked for in it. -/
theorem planSets_ok (h : m.planSets paths .owner probe = .ok e) : ∃ xs y,
    List.Forall₂ m.IsAt paths xs ∧ Option.Rel m.IsAt probe y ∧
    e = .answer (keyed (xs.map (m.heap.ownerAddress ·.block))
      (y.map (m.heap.ownerAddress ·.block))) := by
  have hat {p : Path} {x : OwnerBased}
      (hx : (do return (← m.find p).2) = Except.ok x.slot) : m.IsAt p x := by
    obtain ⟨⟨loc, z⟩, hz, hzx⟩ := bind_eq_ok.mp hx
    obtain rfl := pure_eq_ok.mp hzx
    exact ⟨loc, hz⟩
  simp only [planSets, bind_eq_ok] at h
  obtain ⟨slots, hslots, sought, hsought, h⟩ := h
  obtain ⟨xs, y, rfl, rfl, rfl⟩ : ∃ (xs : List OwnerBased) (y : Option OwnerBased),
      slots = xs.map (·.slot) ∧ sought = y.map (·.slot) ∧
      e = .answer (keyed (xs.map (m.heap.ownerAddress ·.block))
        (y.map (m.heap.ownerAddress ·.block))) := by
    split at h
    on_goal 2 => split at h; · cases h
    all_goals
      refine keyed_owners (fun x a hx => ?_) h
      split at hx
      · next hsome =>
        cases hx
        exact hsome
      · cases hx
  refine ⟨xs, y, (List.forall₂_map_right_iff.mp (mapM_eq_ok hslots)).imp fun _ _ => hat, ?_, rfl⟩
  cases y with
  | none =>
    cases mapM_option_eq_ok hsought
    exact .none
  | some y =>
    cases mapM_option_eq_ok hsought with
    | some hy => exact .some (hat hy)

theorem mem_pointers_of_forall₂ (h : List.Forall₂ m.IsAt paths xs) :
    ∀ x ∈ xs, x.slot ∈ m.pointers :=
  ((List.forall₂_and_left _ _).mp (h.flip.imp fun _ _ hx => ⟨IsAt.mem_pointers hx, hx⟩)).1

theorem mem_pointers_of_rel (h : Option.Rel m.IsAt probe y) : ∀ x ∈ y, x.slot ∈ m.pointers := by
  cases h with
  | none => exact fun _ hx => absurd hx (Option.not_mem_none _)
  | some hy =>
    rintro _ ⟨rfl⟩
    exact hy.mem_pointers

end

/-- How the owners of the pointers that exist at moment `n` compare, if memory is placed as `σ`
says. -/
structure OwnerOrder (run : Nat → Machine) (n : Nat) (σ : Placement) : Prop where
  /-- Owners are equal if both pointers are on one block, or both on none. -/
  same : ∀ x y : OwnerBased, x.slot ∈ (run n).pointers → y.slot ∈ (run n).pointers →
    (x.ownerEq σ (run n).heap y = true ↔ x.block = y.block)
  equal : ∀ x y : OwnerBased,
    x.ownerCmp σ (run n).heap y = .eq ↔ x.ownerEq σ (run n).heap y = true
  before : ∀ x y : OwnerBased,
    x.ownerCmp σ (run n).heap y = .lt ↔ x.ownerBefore σ (run n).heap y = true
  /-- The empty owner is the least. -/
  least : ∀ x y : OwnerBased, y.slot ∈ (run n).pointers → x.block = none →
    x.ownerCmp σ (run n).heap y = if y.block = none then .eq else .lt
  /-- Keys are in a total order, which their equality and their hashes agree with. -/
  total : Std.TransOrd (OwnerKey σ (run n).heap)
  lawful : Std.LawfulBEqOrd (OwnerKey σ (run n).heap)
  hashes : LawfulHashable (OwnerKey σ (run n).heap)
  keys : ∀ k l : OwnerKey σ (run n).heap,
    (k == l) = k.pointer.ownerEq σ (run n).heap l.pointer ∧
      compare k l = k.pointer.ownerCmp σ (run n).heap l.pointer
  /-- Two pointers compare as they do at every later moment, whatever has become of the pointees. -/
  lasting : ∀ n' ≥ n, ∀ x y : OwnerBased, x.slot ∈ (run n).pointers → y.slot ∈ (run n).pointers →
    x.ownerEq σ (run n').heap y = x.ownerEq σ (run n).heap y ∧
    x.ownerBefore σ (run n').heap y = x.ownerBefore σ (run n).heap y ∧
    x.ownerCmp σ (run n').heap y = x.ownerCmp σ (run n).heap y ∧
    x.ownerAddr σ (run n').heap = x.ownerAddr σ (run n).heap
  /-- So programs are told; the order is told where it does not depend on the allocator. -/
  told : ∀ left right e, (run n).plan (.owner left right) = .ok e →
    ∃ x y order, (run n).IsAt left x ∧ (run n).IsAt right y ∧
      e = .answer (.owners (x.ownerEq σ (run n).heap y) order) ∧
      (σ.Rises → ∀ o ∈ order, x.ownerCmp σ (run n).heap y = o)
  /-- A collection has one key for each block, in the order of the keys. -/
  filed : ∀ paths probe e, (run n).plan (.sets paths .owner probe) = .ok e →
    ∃ xs y size order found,
      List.Forall₂ (run n).IsAt paths xs ∧ Option.Rel (run n).IsAt probe y ∧
      e = .answer (.keyed size order found) ∧
      Files (xs.map (·.block)) (y.map (·.block)) size order found ∧
      (σ.Rises → ∀ is ∈ order, Rising (xs.map OwnerKey.mk)
        (fun k l : OwnerKey σ (run n).heap => compare k l = .lt) is)

section

variable {run : Nat → Machine} {n n' : Nat} {σ : Placement} {x y : OwnerBased}

/-- A block stays where it is. -/
theorem IsRationed.ownerAddr_eq (hr : IsRationed run) (hx : x.slot ∈ (run n).pointers)
    (hn : n ≤ n') : x.ownerAddr σ (run n').heap = x.ownerAddr σ (run n).heap := by
  cases hb : x.block with
  | none => rw [OwnerBased.ownerAddr_none hb, OwnerBased.ownerAddr_none hb]
  | some b =>
    obtain ⟨z, hz, -⟩ :=
      OwnerBased.exists_block (hr.sound n) (pointer_mem_stakes_iff.mpr hx) hb
    obtain ⟨w, hw, hzw⟩ := hr.becomes hz hn
    simp only [OwnerBased.ownerAddr, hb, Heap.ownerAddress]
    rw [hz, hw]
    simp only [hzw.alloc, hzw.serial]

/-- Owners are told apart as long as pointers are on them, also where addresses are used again. -/
theorem IsRationed.ownerOrder (hr : IsRationed run) (hσ : σ.Apart (run n).heap) :
    OwnerOrder run n σ := by
  have hs := hr.sound n
  have hmem {x : OwnerBased} (hx : x.slot ∈ (run n).pointers) : .pointer x.slot ∈ (run n).stakes :=
    pointer_mem_stakes_iff.mpr hx
  have hsame (x y : OwnerBased) (hx : x.slot ∈ (run n).pointers) (hy : y.slot ∈ (run n).pointers) :
      x.ownerEq σ (run n).heap y = true ↔ x.block = y.block := by
    rw [OwnerBased.ownerEq, beq_iff_eq]
    exact OwnerBased.ownerAddr_eq_iff hs hσ (hmem hx) (hmem hy)
  constructor
  case same => exact hsame
  case equal => exact fun x y => Nat.compare_eq_eq.trans beq_iff_eq.symm
  case before => exact fun x y => Nat.compare_eq_lt.trans decide_eq_true_iff.symm
  case least => exact fun x y hy hx => OwnerBased.ownerCmp_none hs hσ (hmem hy) hx
  case total => infer_instance
  case lawful => infer_instance
  case hashes => infer_instance
  case keys => exact fun k l => ⟨rfl, rfl⟩
  case lasting =>
    intro n' hn x y hx hy
    have hxa : x.ownerAddr σ (run n').heap = x.ownerAddr σ (run n).heap := hr.ownerAddr_eq hx hn
    have hya : y.ownerAddr σ (run n').heap = y.ownerAddr σ (run n).heap := hr.ownerAddr_eq hy hn
    simp only [OwnerBased.ownerEq, OwnerBased.ownerBefore, OwnerBased.ownerCmp, hxa, hya, and_self]
  case told =>
    intro left right e he
    obtain ⟨x, y, hx, hy, rfl⟩ := planOwner_ok he
    have hxs := hmem hx.mem_pointers
    have hys := hmem hy.mem_pointers
    refine ⟨x, y, _, hx, hy, ?_, fun hrises o ho =>
      OwnerBased.compare?_eq_some hs hσ hrises hxs hys ho⟩
    congr 2
    rw [Bool.eq_iff_iff, hsame x y hx.mem_pointers hy.mem_pointers, beq_iff_eq]
    exact ⟨OwnerBased.block_eq_of_ownerAddress_eq hs hσ hxs hys, congrArg _⟩
  case filed =>
    intro paths probe e he
    obtain ⟨xs, y, hxs, hy, rfl⟩ := planSets_ok he
    obtain ⟨size, order, found, heq, hfiles, hrising⟩ := OwnerBased.keyed_files hs hσ
      (fun x hx => hmem (mem_pointers_of_forall₂ hxs x hx))
      (fun x hx => hmem (mem_pointers_of_rel hy x hx))
    exact ⟨xs, y, size, order, found, hxs, hy, congrArg _ heq, hfiles, hrising⟩

end

/-- Once its block has been freed, another pointer's may be where it was. -/
def recycling : List Step :=
  [.new .int (.int 1) .global ⟨false, [], "a"⟩, .drop ⟨false, [], "a"⟩,
    .new .int (.int 2) .global ⟨false, [], "b"⟩, .downgrade ⟨false, [], "b"⟩ ⟨false, [], "w"⟩]

/-- Allocations take turns at two addresses. -/
def recycled : Placement
  | .memory _ serial => 16 + 64 * (serial % 2)
  | _ => 8

/-- Both blocks have been at one address. -/
theorem ownerOrder_recycling :
    let h := (moment recycling false 16).heap
    (h.ownerAddress (some 0)).number recycled = (h.ownerAddress (some 1)).number recycled ∧
      recycled.Apart h ∧ OwnerOrder (moment recycling false) 16 recycled := by
  intro h
  have hglobal : (h.ledger .global).entries true = {(3, ⟨8, 8⟩), (4, .block true)} := by decide
  have harena : (h.ledger .arena).entries true = 0 := by decide
  have hout (a : Alloc) (e : Nat × Layout) (he : e ∈ (h.ledger a).entries true) :
      a = .global ∧ (e.1 = 3 ∨ e.1 = 4) := by
    cases a with
    | global =>
      rw [hglobal] at he
      rcases Multiset.mem_cons.mp he with rfl | he
      · exact ⟨rfl, .inl rfl⟩
      · exact ⟨rfl, .inr (congrArg Prod.fst (Multiset.mem_singleton.mp he))⟩
    | arena =>
      rw [harena] at he
      exact absurd he (Multiset.notMem_zero e)
  have hapart : recycled.Apart h := by
    refine ⟨fun a e _ => Nat.add_pos_left (by decide) _, fun a e a' e' he he' heq => ?_⟩
    obtain ⟨rfl, hserial⟩ := hout a e he
    obtain ⟨rfl, hserial'⟩ := hout a' e' he'
    simp only [recycled] at heq
    exact ⟨rfl, by omega⟩
  exact ⟨by decide, hapart, IsRationed.ownerOrder (isRationed_moment _ _) hapart⟩

end Machine

end Custody
