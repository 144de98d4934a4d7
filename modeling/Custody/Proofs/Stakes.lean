import Custody.Heap.Lemmas
import Custody.Machine.Run
import Mathlib.Algebra.Order.Group.Multiset
import Mathlib.Tactic.Abel

/-!
# What exists at a moment

* `Machine.pointers`: the pointers that exist, those in tables and those that operations in
  progress hold. `Machine.strongs`, `Machine.weaks`, `Machine.uniques`, `Machine.raws`: how many
  of them are on a block or an object.
* `Stake`: a pointer, or what is due when a destructor that has started is over.
  `Machine.stakes`: all of them. `tally` counts them.
* `stakes_erase`, `stakes_insert`, `stakes_schedule`: how they change when a slot leaves a table,
  enters one, or goes into an action.
-/

namespace Custody

namespace Slot

/-- The object whose address the slot is, without owning it. -/
def rawOf? : Slot → Option ObjectId
  | raw p => some p.object
  | _ => none

/-- The block that the slot holds a reference to. -/
def block? : Slot → Option BlockId
  | strong p => p.block
  | weak p => p.block
  | _ => none

/-- The view that is stored in the slot. A raw pointer leads to the whole object. -/
def view? : Slot → Option Place
  | strong p => p.view
  | weak p => p.view
  | unique p => p.view
  | raw p => some (.whole p.object)

@[simp] theorem reads_strong (p : Strong) : (strong p).strongOn? = p.block ∧
    (strong p).weakOn? = none ∧ (strong p).owns? = none ∧ (strong p).rawOf? = none :=
  ⟨rfl, rfl, rfl, rfl⟩

@[simp] theorem reads_weak (w : Weak) : (weak w).strongOn? = none ∧
    (weak w).weakOn? = w.block ∧ (weak w).owns? = none ∧ (weak w).rawOf? = none :=
  ⟨rfl, rfl, rfl, rfl⟩

@[simp] theorem reads_unique (u : Unique) : (unique u).strongOn? = none ∧
    (unique u).weakOn? = none ∧ (unique u).owns? = u.object ∧ (unique u).rawOf? = none :=
  ⟨rfl, rfl, rfl, rfl⟩

@[simp] theorem reads_raw (r : Raw) : (raw r).strongOn? = none ∧
    (raw r).weakOn? = none ∧ (raw r).owns? = none ∧ (raw r).rawOf? = some r.object :=
  ⟨rfl, rfl, rfl, rfl⟩

end Slot

/-- The slots that nodes hold. -/
def Heap.stored (h : Heap) : List Slot := h.objects.toList.flatMap (·.links.slots)

namespace Machine

/-- The pointers that exist. -/
def pointers (m : Machine) : List Slot :=
  m.env.root.slots ++ m.heap.stored ++ m.env.agenda.flatMap Action.slots

/-- How many strong pointers are on the block. -/
def strongs (m : Machine) (b : BlockId) : Nat := m.pointers.countP (·.strongOn? = some b)

/-- How many weak pointers are on the block. -/
def weaks (m : Machine) (b : BlockId) : Nat := m.pointers.countP (·.weakOn? = some b)

/-- How many unique pointers own the object. -/
def uniques (m : Machine) (o : ObjectId) : Nat := m.pointers.countP (·.owns? = some o)

/-- How many raw pointers lead to the object. -/
def raws (m : Machine) (o : ObjectId) : Nat := m.pointers.countP (·.rawOf? = some o)

end Machine

/-! ## Stakes -/

/-- Something that keeps a block or an object. -/
inductive Stake
  | pointer (x : Slot)
  /-- The implicit reference of a block whose pointee is being disposed. -/
  | disposal (b : BlockId)
  /-- The memory of an object whose destructor has started. -/
  | destruction (o : ObjectId)

namespace Stake

/-- The block that the stake is a strong pointer on. -/
def strongOn? : Stake → Option BlockId
  | pointer x => x.strongOn?
  | _ => none

/-- The block that the stake is a weak pointer on. -/
def weakOn? : Stake → Option BlockId
  | pointer x => x.weakOn?
  | _ => none

/-- The object that the stake is a unique pointer to. -/
def owns? : Stake → Option ObjectId
  | pointer x => x.owns?
  | _ => none

/-- The object that the stake is a raw pointer to. -/
def rawOf? : Stake → Option ObjectId
  | pointer x => x.rawOf?
  | _ => none

/-- The block whose implicit reference the stake is. -/
def disposes? : Stake → Option BlockId
  | disposal b => some b
  | _ => none

/-- The object whose memory the stake is. -/
def destroys? : Stake → Option ObjectId
  | destruction o => some o
  | _ => none

@[simp] theorem reads_pointer (x : Slot) : (pointer x).strongOn? = x.strongOn? ∧
    (pointer x).weakOn? = x.weakOn? ∧ (pointer x).owns? = x.owns? ∧
    (pointer x).rawOf? = x.rawOf? ∧ (pointer x).disposes? = none ∧ (pointer x).destroys? = none :=
  ⟨rfl, rfl, rfl, rfl, rfl, rfl⟩

@[simp] theorem reads_disposal (b : BlockId) : (disposal b).strongOn? = none ∧
    (disposal b).weakOn? = none ∧ (disposal b).owns? = none ∧ (disposal b).rawOf? = none ∧
    (disposal b).disposes? = some b ∧ (disposal b).destroys? = none :=
  ⟨rfl, rfl, rfl, rfl, rfl, rfl⟩

@[simp] theorem reads_destruction (o : ObjectId) : (destruction o).strongOn? = none ∧
    (destruction o).weakOn? = none ∧ (destruction o).owns? = none ∧
    (destruction o).rawOf? = none ∧ (destruction o).disposes? = none ∧
    (destruction o).destroys? = some o :=
  ⟨rfl, rfl, rfl, rfl, rfl, rfl⟩

end Stake

/-- How many stakes there are in `n`, as `f` reads them. -/
def tally (f : Stake → Option Nat) (K : Multiset Stake) (n : Nat) : Nat := K.countP (f · = some n)

section Tally

variable {f : Stake → Option Nat} {K : Multiset Stake} {k : Stake} {n : Nat}

@[simp] theorem tally_zero : tally f 0 n = 0 := Multiset.countP_zero _

@[simp] theorem tally_cons : tally f (k ::ₘ K) n = tally f K n + if f k = some n then 1 else 0 :=
  Multiset.countP_cons _ _ _

@[simp] theorem tally_add {L : Multiset Stake} : tally f (K + L) n = tally f K n + tally f L n :=
  Multiset.countP_add _ _ _

theorem tally_pos (hk : k ∈ K) (hn : f k = some n) : 0 < tally f K n :=
  Multiset.countP_pos_of_mem hk hn

theorem tally_coe (l : List Stake) : tally f l n = l.countP (f · = some n) :=
  Multiset.coe_countP _ _

end Tally

/-- The slots as stakes. -/
def pointersOf (xs : List Slot) : Multiset Stake := xs.map Stake.pointer

@[simp] theorem pointersOf_nil : pointersOf [] = 0 := rfl

@[simp] theorem pointersOf_cons (x : Slot) (xs : List Slot) :
    pointersOf (x :: xs) = .pointer x ::ₘ pointersOf xs := rfl

theorem pointersOf_singleton (x : Slot) : pointersOf [x] = {.pointer x} := rfl

theorem pointersOf_cons_add (x : Slot) (xs : List Slot) (K : Multiset Stake) :
    pointersOf (x :: xs) + K = .pointer x ::ₘ (pointersOf xs + K) := by
  rw [pointersOf_cons, Multiset.cons_add]

theorem pointersOf_nil_add (K : Multiset Stake) : pointersOf [] + K = K := zero_add K

@[simp] theorem pointersOf_append (xs ys : List Slot) :
    pointersOf (xs ++ ys) = pointersOf xs + pointersOf ys := by
  simp [pointersOf]

theorem mem_pointersOf {x : Slot} {xs : List Slot} : .pointer x ∈ pointersOf xs ↔ x ∈ xs := by
  simp [pointersOf]

theorem pointersOf_eq_of_perm {xs ys : List Slot} (h : xs.Perm ys) : pointersOf xs = pointersOf ys :=
  Multiset.coe_eq_coe.mpr (h.map _)

/-- What an action holds, or will return. -/
def Action.stakes : Action → Multiset Stake
  | .giveUpImplicit b => {.disposal b}
  | .reclaim o => {.destruction o}
  | a => pointersOf a.slots

/-- What the actions hold, or will return. -/
def stakesOf : List Action → Multiset Stake
  | [] => 0
  | a :: as => a.stakes + stakesOf as

@[simp] theorem stakesOf_nil : stakesOf [] = 0 := rfl

@[simp] theorem stakesOf_cons (a : Action) (as : List Action) :
    stakesOf (a :: as) = a.stakes + stakesOf as := rfl

@[simp] theorem stakesOf_append (as bs : List Action) :
    stakesOf (as ++ bs) = stakesOf as + stakesOf bs := by
  induction as with
  | nil => simp
  | cons a as ih => simp [ih, add_assoc]

/-- The drops that a table is emptied by hold what the table held. -/
@[simp] theorem stakesOf_drops (xs : List Slot) : stakesOf (xs.map .drop) = pointersOf xs := by
  induction xs with
  | nil => rfl
  | cons x xs ih =>
    rw [List.map_cons, stakesOf_cons, ih, pointersOf_cons]
    rfl

/-- Actions that hold no pointer and leave nothing due. -/
theorem stakesOf_eq_zero {as : List Action} (h : ∀ a ∈ as, a.stakes = 0) : stakesOf as = 0 := by
  induction as with
  | nil => rfl
  | cons a as ih =>
    rw [stakesOf_cons, h a List.mem_cons_self, ih fun b hb => h b (List.mem_cons_of_mem _ hb)]
    rfl

/-- All stakes of a machine. -/
def Machine.stakes (m : Machine) : Multiset Stake :=
  pointersOf m.env.root.slots + pointersOf m.heap.stored + stakesOf m.env.agenda

/-! ## Counting stakes and counting pointers -/

section Count

variable {f : Stake → Option Nat} {g : Slot → Option Nat}

theorem tally_pointersOf (hf : ∀ x, f (.pointer x) = g x) (xs : List Slot) (n : Nat) :
    tally f (pointersOf xs) n = xs.countP (g · = some n) := by
  rw [pointersOf, tally_coe, List.countP_map]
  exact List.countP_congr fun x _ => by simp [hf]

/-- A reading that looks at pointers alone. -/
structure ReadsPointers (f : Stake → Option Nat) (g : Slot → Option Nat) : Prop where
  pointer : ∀ x, f (.pointer x) = g x
  disposal : ∀ b, f (.disposal b) = none
  destruction : ∀ o, f (.destruction o) = none

theorem ReadsPointers.tally_action (hf : ReadsPointers f g) (a : Action) (n : Nat) :
    tally f a.stakes n = a.slots.countP (g · = some n) := by
  cases a
  case giveUpImplicit b => simp [Action.stakes, Action.slots, ← Multiset.cons_zero, hf.disposal]
  case reclaim o => simp [Action.stakes, Action.slots, ← Multiset.cons_zero, hf.destruction]
  all_goals exact tally_pointersOf hf.pointer _ n

theorem ReadsPointers.tally_stakesOf (hf : ReadsPointers f g) (as : List Action) (n : Nat) :
    tally f (stakesOf as) n = (as.flatMap Action.slots).countP (g · = some n) := by
  induction as with
  | nil => simp
  | cons a as ih => simp [hf.tally_action, ih]

theorem ReadsPointers.tally_stakes (hf : ReadsPointers f g) (m : Machine) (n : Nat) :
    tally f m.stakes n = m.pointers.countP (g · = some n) := by
  simp [Machine.stakes, Machine.pointers, tally_pointersOf hf.pointer, hf.tally_stakesOf,
    Nat.add_assoc]

end Count

theorem tally_strongOn? (m : Machine) (b : BlockId) :
    tally Stake.strongOn? m.stakes b = m.strongs b :=
  ReadsPointers.tally_stakes ⟨fun _ => rfl, fun _ => rfl, fun _ => rfl⟩ m b

theorem tally_weakOn? (m : Machine) (b : BlockId) : tally Stake.weakOn? m.stakes b = m.weaks b :=
  ReadsPointers.tally_stakes ⟨fun _ => rfl, fun _ => rfl, fun _ => rfl⟩ m b

theorem tally_owns? (m : Machine) (o : ObjectId) : tally Stake.owns? m.stakes o = m.uniques o :=
  ReadsPointers.tally_stakes ⟨fun _ => rfl, fun _ => rfl, fun _ => rfl⟩ m o

theorem tally_rawOf? (m : Machine) (o : ObjectId) : tally Stake.rawOf? m.stakes o = m.raws o :=
  ReadsPointers.tally_stakes ⟨fun _ => rfl, fun _ => rfl, fun _ => rfl⟩ m o

theorem mem_stakesOf_iff {k : Stake} {as : List Action} :
    k ∈ stakesOf as ↔ ∃ a ∈ as, k ∈ a.stakes := by
  induction as with
  | nil => simp
  | cons a as ih => simp [ih]

theorem pointer_mem_action_iff {x : Slot} {a : Action} : .pointer x ∈ a.stakes ↔ x ∈ a.slots := by
  cases a <;> simp [Action.stakes, Action.slots, pointersOf]

theorem pointer_mem_stakes_iff {m : Machine} {x : Slot} : .pointer x ∈ m.stakes ↔ x ∈ m.pointers := by
  simp [Machine.stakes, Machine.pointers, mem_pointersOf, mem_stakesOf_iff, pointer_mem_action_iff,
    or_assoc]

/-- What is at stake on an agenda are the slots in its actions, and what these will return. -/
theorem exists_stakesOf_eq (as : List Action) :
    ∃ K, stakesOf as = pointersOf (as.flatMap Action.slots) + K := by
  induction as with
  | nil => exact ⟨0, rfl⟩
  | cons a as ih =>
    obtain ⟨K, hK⟩ := ih
    obtain ⟨L, hL⟩ : ∃ L, a.stakes = pointersOf a.slots + L := by
      cases a
      case giveUpImplicit b => exact ⟨{.disposal b}, (zero_add _).symm⟩
      case reclaim o => exact ⟨{.destruction o}, (zero_add _).symm⟩
      all_goals exact ⟨0, (add_zero _).symm⟩
    refine ⟨L + K, ?_⟩
    rw [stakesOf_cons, hK, hL, List.flatMap_cons, pointersOf_append]
    abel

/-- One pointer that exists, and the stakes of the others. -/
theorem stakes_of_mem {m : Machine} {x : Slot} (hx : x ∈ m.pointers) :
    ∃ K, m.stakes = .pointer x ::ₘ K ∧ ∀ y ∈ m.pointers.erase x, .pointer y ∈ K := by
  obtain ⟨K, hK⟩ := exists_stakesOf_eq m.env.agenda
  have hstakes : m.stakes = pointersOf m.pointers + K := by
    rw [Machine.stakes, hK, Machine.pointers, pointersOf_append, pointersOf_append]
    abel
  rw [pointersOf_eq_of_perm (List.perm_cons_erase hx), pointersOf_cons_add] at hstakes
  exact ⟨_, hstakes, fun y hy => Multiset.mem_add.mpr (.inl (mem_pointersOf.mpr hy))⟩

theorem disposal_mem_stakes_iff {m : Machine} {b : BlockId} :
    .disposal b ∈ m.stakes ↔ .giveUpImplicit b ∈ m.env.agenda := by
  have hp (xs : List Slot) : .disposal b ∉ pointersOf xs := by simp [pointersOf]
  have ha (a : Action) : .disposal b ∈ a.stakes ↔ a = .giveUpImplicit b := by
    cases a <;> simp [Action.stakes, hp, eq_comm]
  simp [Machine.stakes, hp, mem_stakesOf_iff, ha]

theorem destruction_mem_stakes_iff {m : Machine} {o : ObjectId} :
    .destruction o ∈ m.stakes ↔ .reclaim o ∈ m.env.agenda := by
  have hp (xs : List Slot) : .destruction o ∉ pointersOf xs := by simp [pointersOf]
  have ha (a : Action) : .destruction o ∈ a.stakes ↔ a = .reclaim o := by
    cases a <;> simp [Action.stakes, hp, eq_comm]
  simp [Machine.stakes, hp, mem_stakesOf_iff, ha]

/-! ## Slots move -/

/-- There is such a table. -/
def Heap.Has (h : Heap) : TableId → Prop
  | .root => True
  | .links o => o < h.objects.size

theorem Heap.stored_withLinks {h : Heap} {o : ObjectId} (ho : o < h.objects.size) (t : Table) :
    pointersOf (h.withLinks o t).stored + pointersOf (h.linksOf o).slots =
      pointersOf h.stored + pointersOf t.slots := by
  have hx : h.objects[o]? = some h.objects[o] := Array.getElem?_eq_getElem ho
  obtain ⟨l, r, hl, hr, -⟩ := Array.toList_modify_split (fun x => { x with links := t }) hx
  have hlinks : h.linksOf o = h.objects[o].links := by simp [linksOf, hx]
  rw [hlinks, stored, stored, withLinks, updateObject, hl, hr]
  simp only [List.flatMap_append, List.flatMap_cons, pointersOf_append]
  abel

namespace Machine

variable {m : Machine} {loc : Location} {x : Slot}

@[simp] theorem heap_schedule (as : List Action) : (m.schedule as).heap = m.heap := rfl

@[simp] theorem stakes_schedule (as : List Action) :
    (m.schedule as).stakes = stakesOf as + m.stakes := by
  simp only [stakes, schedule, mapEnv, stakesOf_append]
  abel

@[simp] theorem heap_reply (r : Reply) : (m.reply r).heap = m.heap := rfl

@[simp] theorem stakes_reply (r : Reply) : (m.reply r).stakes = m.stakes := rfl

/-- What is put in a table instead of another one is at stake instead of it. -/
theorem stakes_withTable {t : TableId} (ht : m.heap.Has t) (new : Table) :
    (m.withTable t new).stakes + pointersOf (m.table t).slots =
      m.stakes + pointersOf new.slots := by
  cases t with
  | root =>
    simp only [withTable, mapEnv, stakes, table]
    abel
  | links o =>
    have h := Heap.stored_withLinks ht new
    simp only [withTable, mapHeap, stakes, table]
    calc _ = pointersOf m.env.root.slots +
          (pointersOf (m.heap.withLinks o new).stored + pointersOf (m.heap.linksOf o).slots) +
          stakesOf m.env.agenda := by abel
      _ = _ := by
        rw [h]
        abel

theorem has_of_get? (h : m.get? loc = some x) : m.heap.Has loc.table := by
  obtain ⟨t, name⟩ := loc
  cases t with
  | root => trivial
  | links o =>
    by_cases ho : o < m.heap.objects.size
    · exact ho
    · have hnone : m.heap.objects[o]? = none := Array.getElem?_eq_none (Nat.le_of_not_lt ho)
      simp [get?, table, Heap.linksOf, hnone, Table.get?, Table.empty] at h

theorem stakes_erase (h : m.get? loc = some x) : m.stakes = .pointer x ::ₘ (m.erase loc).stakes := by
  have hw := stakes_withTable (has_of_get? h) ((m.table loc.table).erase loc.name)
  rw [pointersOf_eq_of_perm (Table.slots_perm_erase h), pointersOf_cons, Multiset.add_cons,
    ← Multiset.cons_add] at hw
  exact (add_right_cancel hw).symm

/-- What is in a table exists. -/
theorem mem_pointers_of_get? (h : m.get? loc = some x) : x ∈ m.pointers := by
  rw [← pointer_mem_stakes_iff, stakes_erase h]
  exact Multiset.mem_cons_self _ _

/-- A slot that is put in a table is at stake, and the one under its name is not any more. -/
theorem stakes_insert (h : m.heap.Has loc.table) (x : Slot) :
    (m.insert loc x).stakes + pointersOf (m.get? loc).toList = .pointer x ::ₘ m.stakes := by
  have hw := stakes_withTable h ((m.table loc.table).insert loc.name x)
  rw [pointersOf_eq_of_perm (Table.slots_insert _ _ _), pointersOf_cons] at hw
  cases hg : m.get? loc with
  | none =>
    rw [Table.erase_eq_self hg, Multiset.add_cons, ← Multiset.cons_add] at hw
    simpa [insert] using add_right_cancel hw
  | some y =>
    rw [pointersOf_eq_of_perm (Table.slots_perm_erase hg), pointersOf_cons, Multiset.add_cons,
      Multiset.add_cons, ← Multiset.cons_add, ← Multiset.cons_add] at hw
    have := add_right_cancel hw
    simp only [Option.toList_some, pointersOf_cons, pointersOf_nil, Multiset.add_cons, add_zero]
    exact this

end Machine

end Custody
