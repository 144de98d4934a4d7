import Custody.Proofs.Grounded
import Mathlib.Data.List.Sort

/-!
# The strong side

What there is apart from weak pointers and what they count for.

* `Table.strongSide`: the slots of a table that are not weak pointers.
* `Estate`, `Heap.estate`: of each block the strong counter and the pointee, of each object all but
  its weak pointers, and what the allocators will answer. The lemmas `estate_*` say what each
  operation on the heap does to it: those on weak counters do nothing.
* `StrongSide`, `Machine.strongSide`: the estate of a machine, and the slots, stored and in
  operations that are in progress, that are not weak pointers.
-/

namespace Custody

/-- The slot is a weak pointer. -/
def Slot.isWeak : Slot → Bool
  | .weak _ => true
  | _ => false

theorem Slot.isWeak_iff {x : Slot} : x.isWeak = true ↔ ∃ w, x = .weak w := by
  cases x <;> simp [isWeak]

/-! ## Tables -/

namespace Table

variable {t u : Table} {name : String} {x : Slot}

/-- A table has one slot under a name. -/
theorem mem_entries {e : String × Slot} : e ∈ t.entries ↔ t.get? e.1 = some e.2 := by
  obtain ⟨es, hes⟩ := t
  simp only [get?]
  constructor
  · intro he
    induction es with
    | nil => cases he
    | cons d es ih =>
      obtain ⟨hd, hes⟩ := List.pairwise_cons.mp hes
      rcases List.mem_cons.mp he with rfl | he
      · rw [List.find?_cons_of_pos (by simp)]
        rfl
      · rw [List.find?_cons_of_neg (by simpa using Std.ne_of_lt (hd e he))]
        exact ih hes he
  · intro h
    obtain ⟨d, hd, hx⟩ := Option.map_eq_some_iff.mp h
    have hn : d.1 = e.1 := by simpa using List.find?_some hd
    exact Prod.ext hn hx ▸ List.mem_of_find?_eq_some hd

/-- Tables in which the same is found are the same. -/
theorem ext_get? (h : ∀ name, t.get? name = u.get? name) : t = u := by
  have hlt : Std.Irrefl fun a b : String × Slot => a.1 < b.1 := ⟨fun a => Std.lt_irrefl⟩
  have hanti : Std.Antisymm fun a b : String × Slot => a.1 < b.1 :=
    ⟨fun a b hab hba => absurd hba (Std.not_gt_of_lt hab)⟩
  have hentries : t.entries = u.entries :=
    t.rising.eq_of_mem_iff u.rising fun e => by rw [mem_entries, mem_entries, h]
  cases t
  cases u
  cases hentries
  rfl

/-- The table without weak pointers. -/
def strongSide (t : Table) : Table :=
  ⟨t.entries.filter (!·.2.isWeak), t.rising.filter _⟩

theorem get?_strongSide (t : Table) (name : String) :
    t.strongSide.get? name = (t.get? name).filter (!·.isWeak) := by
  refine Option.ext fun x => ?_
  have hmem := mem_entries (t := t.strongSide) (e := (name, x))
  rw [strongSide, List.mem_filter, mem_entries] at hmem
  exact hmem.symm.trans (by rw [Option.filter_eq_some_iff])

theorem strongSide_insert (hx : x.isWeak = false) :
    (t.insert name x).strongSide = t.strongSide.insert name x := by
  refine ext_get? fun other => ?_
  simp only [get?_strongSide, get?_insert]
  split
  · simp [hx]
  · rfl

/-- A weak pointer leaves the strong side as it is where it displaces nothing of it. -/
theorem strongSide_insert_weak (hx : x.isWeak = true) (h : t.strongSide.get? name = none) :
    (t.insert name x).strongSide = t.strongSide := by
  refine ext_get? fun other => ?_
  simp only [get?_strongSide, get?_insert] at h ⊢
  split
  · next heq =>
    subst heq
    simp [h, hx]
  · rfl

theorem strongSide_erase (t : Table) (name : String) :
    (t.erase name).strongSide = t.strongSide.erase name := by
  refine ext_get? fun other => ?_
  simp only [get?_strongSide, get?_erase]
  split <;> rfl

theorem strongSide_erase_of_none (h : t.strongSide.get? name = none) :
    (t.erase name).strongSide = t.strongSide := by
  rw [strongSide_erase, erase_eq_self h]

/-- What is taken out and put back is where it was. -/
theorem insert_erase (h : t.get? name = some x) : (t.erase name).insert name x = t := by
  refine ext_get? fun other => ?_
  rw [get?_insert, get?_erase]
  split
  · next heq => rw [← h, heq]
  · rfl

@[simp] theorem strongSide_empty : empty.strongSide = empty := rfl

theorem strongSide_popFirst? {rest : Table} (h : t.popFirst? = some (x, rest)) :
    (x.isWeak = true → t.strongSide = rest.strongSide) ∧
      (x.isWeak = false → t.strongSide.popFirst? = some (x, rest.strongSide)) := by
  obtain ⟨_ | ⟨⟨n, y⟩, es⟩, hes⟩ := t
  · cases h
  · cases h
    constructor <;> intro hx
    · simp [strongSide, hx]
    · simp [strongSide, hx, popFirst?]

end Table

/-! ## Estates -/

/-- What its strong owners have of a block. -/
structure Share where
  strong : Nat
  pointee : Option ObjectId

/-- A block without what it counts of weak references. -/
def Block.share (x : Block) : Share := ⟨x.strong, x.pointee⟩

/-- An object without weak pointers among its links. -/
def Object.strongSide (x : Object) : Object := { x with links := x.links.strongSide }

/-- What the strong side of a heap is, apart from how much of it there is. -/
structure Estate where
  block : BlockId → Option Share
  object : ObjectId → Option Object
  statics : Statics
  budget : Alloc → Option Nat

namespace Estate

/-- The block changes. -/
def modifyBlock (b : BlockId) (f : Share → Share) (e : Estate) : Estate :=
  { e with block := fun c => if b = c then (e.block c).map f else e.block c }

/-- The object changes. -/
def modifyObject (o : ObjectId) (f : Object → Object) (e : Estate) : Estate :=
  { e with object := fun o' => if o = o' then (e.object o').map f else e.object o' }

/-- A block more. -/
def addBlock (b : BlockId) (s : Share) (e : Estate) : Estate :=
  { e with block := fun c => if c = b then some s else e.block c }

/-- An object more. -/
def addObject (o : ObjectId) (x : Object) (e : Estate) : Estate :=
  { e with object := fun o' => if o' = o then some x else e.object o' }

/-- One request less will be granted. -/
def spend (a : Alloc) (e : Estate) : Estate :=
  { e with budget := fun a' => if a = a' then (e.budget a').map (· - 1) else e.budget a' }

end Estate

namespace Heap

variable {h : Heap} {b : BlockId} {o : ObjectId} {a : Alloc}

/-- The heap without weak references, metrics, ids, and events. -/
def estate (h : Heap) : Estate where
  block b := h.blocks[b]?.map Block.share
  object o := h.objects[o]?.map Object.strongSide
  statics := h.statics
  budget a := (h.ledger a).budget

theorem estate_congr {h' : Heap} (hb : h'.blocks = h.blocks) (ho : h'.objects = h.objects)
    (hs : h'.statics = h.statics) (hl : ∀ a, (h'.ledger a).budget = (h.ledger a).budget) :
    h'.estate = h.estate := by
  simp only [estate, hb, ho, hs, hl]

theorem estate_eq_of_lists {g : Heap}
    (hb : g.blocks.toList.map Block.share = h.blocks.toList.map Block.share)
    (ho : g.objects.toList.map Object.strongSide = h.objects.toList.map Object.strongSide)
    (hs : g.statics = h.statics) (hl : ∀ a, (g.ledger a).budget = (h.ledger a).budget) :
    g.estate = h.estate := by
  simp only [estate, ← Array.getElem?_toList, ← List.getElem?_map, hb, ho, hs, hl]

theorem strongCount_estate (h : Heap) (b : BlockId) :
    h.strongCount b = ((h.estate.block b).map Share.strong).getD 0 := by
  simp only [strongCount, estate, Option.map_map]
  rfl

theorem pointee_estate (h : Heap) (b : BlockId) :
    h.blocks[b]?.bind (·.pointee) = (h.estate.block b).bind Share.pointee := by
  simp only [estate]
  cases h.blocks[b]? <;> rfl

theorem isExhausted_estate (h : Heap) (a : Alloc) :
    (h.ledger a).isExhausted = (h.estate.budget a == some 0) := rfl

theorem strongSide_linksOf (h : Heap) (o : ObjectId) :
    (h.linksOf o).strongSide = ((h.estate.object o).map (·.links)).getD .empty := by
  simp only [linksOf, estate]
  cases h.objects[o]? <;> rfl

/-! ### What leaves the estate as it is -/

@[simp] theorem statics_emit (e : Event) : (h.emit e).statics = h.statics := rfl

@[simp] theorem statics_updateLedger (f : Ledger → Ledger) :
    (h.updateLedger a f).statics = h.statics := by
  cases a <;> rfl

@[simp] theorem statics_request (a : Alloc) (l : Layout) :
    (h.request a l).1.statics = h.statics := by
  have hbreach (e : Breach) : (h.breach e).statics = h.statics := rfl
  simp only [request]
  split <;> split <;> simp [hbreach]

@[simp] theorem statics_giveBack (a : Alloc) (n : Nat) (l : Layout) :
    (h.giveBack a n l).statics = h.statics := by
  have hbreach (e : Breach) : (h.breach e).statics = h.statics := rfl
  simp only [giveBack]
  split <;> simp [hbreach]

@[simp] theorem estate_emit (e : Event) : (h.emit e).estate = h.estate := rfl

@[simp] theorem estate_breach (e : Breach) : (h.breach e).estate = h.estate := rfl

@[simp] theorem estate_measure (f : Metrics → Metrics) : (h.measure f).estate = h.estate := rfl

@[simp] theorem estate_expect (ok : Block → Bool) (e : Breach) :
    (h.expect b ok e).estate = h.estate := by
  rw [expect_eq]
  rfl

theorem estate_updateBlock {f : Block → Block} {g : Share → Share}
    (hf : ∀ x, (f x).share = g x.share) :
    (h.updateBlock b f).estate = h.estate.modifyBlock b g := by
  simp only [estate, Estate.modifyBlock, updateBlock, Estate.mk.injEq]
  refine ⟨funext fun c => ?_, trivial, trivial, rfl⟩
  rw [Array.getElem?_modify]
  split
  · cases h.blocks[c]? <;> simp [hf]
  · rfl

theorem estate_updateBlock_of_share {f : Block → Block} (hf : ∀ x, (f x).share = x.share) :
    (h.updateBlock b f).estate = h.estate := by
  simp only [estate, updateBlock, Estate.mk.injEq]
  refine ⟨funext fun c => ?_, trivial, trivial, rfl⟩
  rw [Array.getElem?_modify]
  split
  · cases h.blocks[c]? <;> simp [hf]
  · rfl

@[simp] theorem estate_giveBack (n : Nat) (l : Layout) : (h.giveBack a n l).estate = h.estate := by
  refine estate_congr (blocks_giveBack a n l) (objects_giveBack a n l) (statics_giveBack a n l)
    fun a' => ?_
  rw [ledger_giveBack]
  split <;> rfl

@[simp] theorem estate_addWeak : (h.addWeak b).estate = h.estate := by
  have hweak (g : Heap) :
      (g.updateBlock b fun x => { x with weak := x.weak + 1 }).estate = g.estate :=
    estate_updateBlock_of_share fun _ => rfl
  simp only [addWeak, hweak, estate_expect]

@[simp] theorem estate_releaseWeak : (h.releaseWeak b).estate = h.estate := by
  have hweak (g : Heap) :
      (g.updateBlock b fun x => { x with weak := x.weak - 1 }).estate = g.estate :=
    estate_updateBlock_of_share fun _ => rfl
  have hfreed (g : Heap) : (g.updateBlock b fun x => { x with freed := true }).estate = g.estate :=
    estate_updateBlock_of_share fun _ => rfl
  simp only [releaseWeak]
  split
  · split <;> simp only [estate_giveBack, hfreed, estate_emit, estate_measure, estate_expect, hweak]
  · simp only [hweak, estate_expect]

@[simp] theorem estate_giveUpImplicit : (h.giveUpImplicit b).estate = h.estate := by
  unfold giveUpImplicit
  rw [estate_releaseWeak]
  exact estate_updateBlock_of_share fun _ => rfl

/-! ### What changes it -/

theorem estate_addStrong : (h.addStrong b).estate =
    h.estate.modifyBlock b fun s => { s with strong := s.strong + 1 } := by
  unfold addStrong
  rw [estate_updateBlock (g := fun s => { s with strong := s.strong + 1 }) fun _ => rfl,
    estate_expect]

theorem estate_releaseStrong : (h.releaseStrong b).1.estate =
    h.estate.modifyBlock b fun s => { s with strong := s.strong - 1 } := by
  have hstrong (g : Heap) : (g.updateBlock b fun x => { x with strong := x.strong - 1 }).estate =
      g.estate.modifyBlock b fun s => { s with strong := s.strong - 1 } :=
    estate_updateBlock fun _ => rfl
  simp only [releaseStrong]
  split <;> simp only [estate_emit, estate_measure, hstrong, estate_expect]

theorem estate_takePointee : (h.takePointee b).1.estate =
    h.estate.modifyBlock b fun s => { s with pointee := none } := by
  unfold takePointee
  rw [estate_updateBlock (g := fun s => { s with pointee := none }) fun _ => rfl, estate_expect]

theorem estate_updateObject {f g : Object → Object}
    (hf : ∀ x, (f x).strongSide = g x.strongSide) :
    (h.updateObject o f).estate = h.estate.modifyObject o g := by
  simp only [estate, Estate.modifyObject, updateObject, Estate.mk.injEq, true_and]
  refine ⟨funext fun o' => ?_, rfl⟩
  rw [Array.getElem?_modify]
  split
  · cases h.objects[o']? <;> simp [hf]
  · rfl

theorem estate_beginDestruction : (h.beginDestruction o).1.estate =
    h.estate.modifyObject o fun x => { x with phase := .dying, onDrop := [] } := by
  rw [← estate_updateObject (f := fun x => { x with phase := .dying, onDrop := [] }) fun _ => rfl]
  refine estate_congr blocks_beginDestruction objects_beginDestruction ?_ ?_
  · unfold beginDestruction
    split
    · dsimp only
      split <;> rfl
    · rfl
  · simp only [ledger_beginDestruction]
    exact fun _ => rfl

/-- With its memory returned an object is gone, to the strong side. -/
theorem estate_endDestruction : (h.endDestruction o).estate =
    h.estate.modifyObject o fun x => { x with phase := .gone } := by
  rw [← estate_updateObject (f := fun x => { x with phase := .gone }) fun _ => rfl]
  cases hx : h.objects[o]? with
  | none =>
    unfold endDestruction updateObject
    rw [hx, Array.modify_eq_self _ hx]
  | some x =>
    rw [endDestruction_eq hx]
    split
    · exact estate_giveBack _ _
    · rfl

theorem estate_withLinks (t : Table) : (h.withLinks o t).estate =
    h.estate.modifyObject o fun x => { x with links := t.strongSide } :=
  estate_updateObject fun _ => rfl

/-- Another table with the same strong side. -/
theorem estate_withLinks_of_strongSide {t : Table} (ht : t.strongSide = (h.linksOf o).strongSide) :
    (h.withLinks o t).estate = h.estate := by
  rw [estate_withLinks, ht]
  simp only [Estate.modifyObject, estate, Estate.mk.injEq, true_and, and_true]
  funext o'
  split
  · next heq =>
    subst heq
    simp only [linksOf]
    cases h.objects[o]? <;> rfl
  · rfl

theorem estate_write_object {p : Place} (hp : p.origin = .object o) (c : Content) :
    (h.write p c).estate =
      h.estate.modifyObject o fun x => { x with content := Content.withAt p.path c x.content } := by
  simp only [write, hp]
  exact estate_updateObject fun _ => rfl

theorem estate_write_static {p : Place} {s : Static} (hp : p.origin = .static s) (c : Content) :
    (h.write p c).estate = { h.estate with
      statics := h.statics.set s (Content.withAt p.path c (h.statics.get s)) } := by
  simp only [write, hp]
  rfl

/-! ### What is new -/

theorem isExhausted_iff : (h.ledger a).isExhausted = true ↔ h.estate.budget a = some 0 := beq_iff_eq

/-- A request is granted, or refused because the budget is used up. -/
theorem request_cases (a : Alloc) (l : Layout) (h : Heap) :
    ∃ g, g.blocks = h.blocks ∧ g.objects = h.objects ∧
      (h.estate.budget a = some 0 ∧ h.request a l = (g, none) ∧ g.estate = h.estate ∨
        h.estate.budget a ≠ some 0 ∧ (∃ n, h.request a l = (g, some n)) ∧
          g.estate = h.estate.spend a) := by
  refine ⟨_, blocks_request a l, objects_request a l, ?_⟩
  cases hr : (h.ledger a).isExhausted with
  | true =>
    obtain ⟨hnone, hledger⟩ := request_refused l hr
    refine .inl ⟨isExhausted_iff.mp hr, Prod.ext rfl hnone, ?_⟩
    exact estate_congr (blocks_request a l) (objects_request a l) (statics_request a l)
      fun a' => by rw [hledger]
  | false =>
    obtain ⟨hsome, hledger⟩ := request_granted l hr
    refine .inr ⟨fun h0 => ?_, ⟨_, Prod.ext rfl hsome⟩, ?_⟩
    · rw [isExhausted_iff.mpr h0] at hr
      cases hr
    · simp only [estate, Estate.spend, blocks_request, objects_request, statics_request,
        Estate.mk.injEq, true_and]
      funext a'
      rw [hledger]
      split <;> rfl

theorem estate_addObject (x : Object) : (h.addObject x).1.estate =
    h.estate.addObject h.objects.size x.strongSide := by
  simp only [addObject, estate, Estate.addObject, Estate.mk.injEq, true_and]
  refine ⟨funext fun c => ?_, rfl⟩
  rw [Array.getElem?_push]
  split <;> rfl

theorem estate_pushBlock (x : Block) : ({ h with blocks := h.blocks.push x } : Heap).estate =
    h.estate.addBlock h.blocks.size x.share := by
  simp only [estate, Estate.addBlock, Estate.mk.injEq]
  refine ⟨funext fun c => ?_, trivial, trivial, rfl⟩
  rw [Array.getElem?_push]
  split <;> rfl

/-- A new block has one strong owner. -/
theorem createBlock_cases (k : Kind) (a : Alloc) (o : ObjectId) (h : Heap) :
    (h.estate.budget a = some 0 ∧ ∃ h', h.createBlock k a o = (h', .error (.block k.isSized)) ∧
        h'.estate = h.estate) ∨
      (h.estate.budget a ≠ some 0 ∧ ∃ h', h.createBlock k a o = (h', .ok h.blocks.size) ∧
        h'.estate = (h.estate.spend a).addBlock h.blocks.size ⟨1, some o⟩) := by
  obtain ⟨g, hblocks, -, ⟨h0, hreq, hestate⟩ | ⟨h0, ⟨n, hreq⟩, hestate⟩⟩ :=
    request_cases a (.block k.isSized) { h with nextId := h.nextId + 1 }
  · refine .inl ⟨h0, _, by simp only [createBlock, hreq]; rfl, ?_⟩
    rw [estate_measure, hestate]
    rfl
  · refine .inr ⟨h0, _, by simp only [createBlock, hreq, hblocks]; rfl, ?_⟩
    rw [estate_emit, estate_measure, ← hblocks, estate_pushBlock, hestate, hblocks]
    rfl

/-- What is made of a pointee, in the memory of the serial number. -/
def made (p : Pointee) (a : Alloc) (serial : Option Nat) : Object :=
  { content := p.content, onDrop := p.onDrop, alloc := a, serial }

/-- A new object asks for memory if its content takes any. -/
theorem construct_cases (p : Pointee) (a : Alloc) (h : Heap) :
    (p.content.layout.size = 0 ∧ ∃ h', h.construct p a = (h', h.objects.size, none) ∧
        h'.estate = h.estate.addObject h.objects.size (made p a none)) ∨
      (p.content.layout.size ≠ 0 ∧ h.estate.budget a = some 0 ∧
        ∃ h', h.construct p a = (h', h.objects.size, some p.content.layout) ∧
          h'.estate = h.estate.addObject h.objects.size (made p a none)) ∨
      (p.content.layout.size ≠ 0 ∧ h.estate.budget a ≠ some 0 ∧
        ∃ h' n, h.construct p a = (h', h.objects.size, none) ∧
          h'.estate = (h.estate.spend a).addObject h.objects.size (made p a (some n))) := by
  by_cases hl : p.content.layout.size = 0
  · exact .inl ⟨hl, _, by simp only [construct, hl, ↓reduceIte]; rfl, estate_addObject _⟩
  obtain ⟨g, -, hobjects, ⟨h0, hreq, hestate⟩ | ⟨h0, ⟨n, hreq⟩, hestate⟩⟩ :=
    request_cases a p.content.layout h
  · refine .inr (.inl ⟨hl, h0, (g.addObject (made p a none)).1, ?_, ?_⟩)
    · simp only [construct, hl, ↓reduceIte, hreq, addObject, ← hobjects]
      rfl
    · rw [estate_addObject, hestate, hobjects]
      rfl
  · refine .inr (.inr ⟨hl, h0, (g.addObject (made p a (some n))).1, n, ?_, ?_⟩)
    · simp only [construct, hl, ↓reduceIte, hreq, addObject, ← hobjects]
      rfl
    · rw [estate_addObject, hestate, hobjects]
      rfl

end Heap

@[simp] theorem Weak.estate_acquire (block : Option BlockId) (h : Heap) :
    (Weak.acquire block h).estate = h.estate := by
  cases block with
  | none => rfl
  | some b => exact Heap.estate_addWeak

@[simp] theorem Weak.estate_assign (w source : Weak) (h : Heap) :
    (w.assign source h).1.estate = h.estate := by
  unfold assign
  split <;> simp

/-! ## Machines -/

/-- All of a state that does not depend on weak references. -/
structure StrongSide where
  estate : Estate
  root : Table
  /-- The nodes whose destructors run, innermost first. -/
  running : List ObjectId
  /-- The slots in operations that are in progress. -/
  held : List Slot
  /-- The nodes whose tables such operations will still work on. -/
  inUse : ObjectId → Bool

namespace Machine

variable {m n l : Machine} {t : TableId} {loc : Location} {x : Slot}

/-- The machine without weak pointers, metrics, events, replies, and the steps that are left. -/
def strongSide (m : Machine) : StrongSide where
  estate := m.heap.estate
  root := m.env.root.strongSide
  running := m.env.running
  held := (m.env.agenda.flatMap Action.slots).filter (!·.isWeak)
  inUse o := m.env.agenda.any (·.worksOn (.links o))

/-- A path goes on through slots of the strong side only. -/
def goesTo? (m : Machine) (t : TableId) (name : String) : Option TableId :=
  (((m.table t).strongSide.get? name).bind Slot.node?).map .links

/-- A path leads from table to table, and then to a name. -/
theorem resolve?_eq (m : Machine) (p : Path) : m.resolve? p =
    (if p.fromRunning then m.env.running.head?.map .links else some .root).bind fun t =>
      (p.through.foldlM m.goesTo? t).map (⟨·, p.name⟩) := by
  have hgoes (t : TableId) (name : String) : (do
      let x ← (m.table t).get? name
      return TableId.links (← x.node?)) = m.goesTo? t name := by
    rw [goesTo?, Table.get?_strongSide]
    rcases (m.table t).get? name with _ | x
    · rfl
    · cases x with
      | weak w => rfl
      | strong p | unique u | raw r => simp [Slot.isWeak, Option.filter, Option.map_eq_bind]
  simp only [resolve?, hgoes, Option.map_eq_bind]
  split <;> rfl

theorem strongSide_table_links (m : Machine) (o : ObjectId) : (m.table (.links o)).strongSide =
    ((m.heap.estate.object o).map (·.links)).getD .empty :=
  Heap.strongSide_linksOf m.heap o

theorem isGone_links_estate (m : Machine) (o : ObjectId) : m.isGone (.links o) =
    (((m.heap.estate.object o).map (·.phase)).any (· == .gone)) := by
  simp only [isGone, Heap.estate]
  cases m.heap.objects[o]? <;> rfl

end Machine

end Custody
