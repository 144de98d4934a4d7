import Custody.Proofs.Branching
import Custody.Proofs.Lineage
import Custody.Proofs.Observation
import Custody.Proofs.OwnerOrder

/-!
# Two identities

Strong pointers can be told apart by the addresses that they store, and by the addresses of their
blocks. Where the pointers are to whole pointees, both say the same.

* `Placement.Disjoint`: no two allocations that are out at the same time share a byte.
* `Strong.ptrEq`, `Strong.cmp`, `Strong.addrHash`: comparisons by the stored address.
* `Strong.Whole`: a pointer that stores where the pointee of its block is.
* `Machine.FirstHand`: the pointers that are made of an object itself, and the copies of them.
* `Machine.IsRationed.isHoused`: what a block manages is in the memory that it needs.
* `Machine.Identities`, `Machine.IsRationed.identities`: the comparisons agree.
-/

namespace Custody

/-! ## Disjoint memory -/

/-- No two allocations that are out share a byte. -/
def Placement.Disjoint (σ : Placement) (h : Heap) : Prop :=
  ∀ a e a' e', e ∈ (h.ledger a).entries true → e' ∈ (h.ledger a').entries true →
    (a, e.1) ≠ (a', e'.1) →
    σ (.memory a e.1) + e.2.size ≤ σ (.memory a' e'.1) ∨
      σ (.memory a' e'.1) + e'.2.size ≤ σ (.memory a e.1)

section

variable {σ : Placement} {h : Heap} {K : Multiset Stake} {a a' : Alloc} {t t' : Tenant}
  {e e' : Nat × Layout} {x y : OwnerBased} {b c : BlockId}

/-- What is in memory is known by where it begins. -/
theorem Placement.Disjoint.tenant_eq (hσ : σ.Disjoint h) (hs : Booked h)
    (ht : t.claim? h a = some e) (ht' : t'.claim? h a' = some e') (he : e.2.size ≠ 0)
    (he' : e'.2.size ≠ 0) (heq : σ (.memory a e.1) = σ (.memory a' e'.1)) : t = t' := by
  have hsame : (a, e.1) = (a', e'.1) := by
    by_contra hne
    rcases hσ a e a' e' (hs.mem_entries ht) (hs.mem_entries ht') hne with hle | hle
    · omega
    · omega
  obtain ⟨rfl, hserial⟩ := Prod.mk.inj hsame
  obtain ⟨serial, l⟩ := e
  obtain ⟨serial', l'⟩ := e'
  obtain rfl : serial = serial' := hserial
  exact hs.tenant_eq ht ht'

/-- Two pointers on blocks have the same owner just when they are on the same block. -/
theorem OwnerBased.ownerEq_iff (hs : Sound (h, K)) (hσ : σ.Disjoint h) (hx : .pointer x.slot ∈ K)
    (hy : .pointer y.slot ∈ K) (hb : x.block = some b) (hc : y.block = some c) :
    x.ownerEq σ h y = true ↔ b = c := by
  obtain ⟨z, hz, hzf, hzaddress, -⟩ := exists_block hs hx hb
  obtain ⟨w, hw, hwf, hwaddress, -⟩ := exists_block hs hy hc
  have hzclaim := Tenant.claim?_block hz hzf
  have hwclaim := Tenant.claim?_block hw hwf
  rw [ownerEq, beq_iff_eq, ownerAddr, ownerAddr]
  constructor
  · intro heq
    rw [hzaddress, hwaddress] at heq
    have htenant := hσ.tenant_eq hs.booked hzclaim hwclaim (Layout.size_block _)
      (Layout.size_block _) heq
    exact Tenant.block.inj htenant
  · rintro rfl
    rw [hb, hc]

end

/-! ## Stored addresses -/

namespace Address

/-- Whether two addresses are the same is always known. -/
theorem compare?_eq_some_eq {a a' : Address} : a.compare? a' = some .eq ↔ a = a' := by
  cases a with
  | low m =>
    cases a' with
    | low n => simp [compare?]
    | inside s n => simp [compare?]
  | inside r m =>
    cases a' with
    | low n => simp [compare?]
    | inside s n =>
      unfold compare?
      split <;> simp_all [Ordering.then_eq_eq]

end Address

namespace Strong

variable (σ : Placement) (h : Heap) (p q : Strong)

/-- The address that is stored. -/
def addr : Nat := (p.address h).number σ

/-- Whether the stored addresses are the same, which is what pointers are equal by. -/
def ptrEq : Bool := p.addr σ h == q.addr σ h

/-- The order of the stored addresses. -/
def cmp : Ordering := compare (p.addr σ h) (q.addr σ h)

/-- The hash of the stored address. -/
def addrHash : UInt64 := hash (p.addr σ h)

/-- The stored pointer is to the pointee of the block, which is object `o` as a whole. -/
structure Whole (o : ObjectId) : Prop where
  view : p.view = some (.whole o)
  managed : ∃ b x, p.block = some b ∧ h.blocks[b]? = some x ∧ x.pointee = some o

/-- The pointer stores the beginning of allocation `e` of `a`, in which the pointee of its block is.
Block and pointee are member `v`. -/
structure Resides (v : Member) (a : Alloc) (e : Nat × Layout) : Prop where
  member : h.HasMember v
  block : p.block = some v.block
  view : p.view = some (.whole v.object)
  claim : (Tenant.object v.object).claim? h a = some e
  sized : e.2.size ≠ 0
  address : p.address h = .inside (.memory a e.1) 0

/-- The pointers are the same, or are not, by all that they can be compared by. -/
structure Agrees : Prop where
  /-- By owner. -/
  owner : p.ptrEq σ h q = (OwnerBased.strong p).ownerEq σ h (.strong q)
  block : p.ptrEq σ h q = true ↔ p.block = q.block
  /-- No pointee is managed by two blocks. -/
  pointee : p.ptrEq σ h q = true ↔ p.view = q.view
  order : p.cmp σ h q = .eq ↔ p.ptrEq σ h q = true
  hash : p.ptrEq σ h q = true → p.addrHash σ h = q.addrHash σ h
  /-- By the weak pointers that are made of them, at whatever moments. -/
  weak : ∀ g g', (p.downgrade g).2.ptrEq (q.downgrade g').2 = p.ptrEq σ h q
  /-- By the addresses as programs are told of them. -/
  address : (p.address h == q.address h) = p.ptrEq σ h q
  ownerAddress : (h.ownerAddress p.block == h.ownerAddress q.block) = p.ptrEq σ h q

end Strong

theorem Strong.whole_iff {h : Heap} {p : Strong} {o : ObjectId} : p.Whole h o ↔
    p.view = some (.whole o) ∧ (p.block.bind (h.blocks[·]?)).bind (·.pointee) = some o := by
  simp only [Option.bind_eq_some_iff]
  constructor
  · rintro ⟨hview, b, x, hb, hx, ho⟩
    exact ⟨hview, x, ⟨b, hb, hx⟩, ho⟩
  · rintro ⟨hview, x, ⟨b, hb, hx⟩, ho⟩
    exact ⟨hview, b, x, hb, hx, ho⟩

instance (h : Heap) (p : Strong) (o : ObjectId) : Decidable (p.Whole h o) :=
  decidable_of_iff _ Strong.whole_iff.symm

/-- How many bytes the object takes. -/
def Heap.bytes (h : Heap) (o : ObjectId) : Nat :=
  ((h.objects[o]?).map (·.content.layout.size)).getD 0

/-! ## Pointers to whole objects -/

section

variable {h h' : Heap} {o : ObjectId} {q : Strong} {x y : Slot} {d : Derivation}

/-- The strong pointer is made of object `o` itself: of a new one, of what a unique pointer owns,
or of what a raw pointer leads to. -/
inductive Strong.Made (o : ObjectId) (h h' : Heap) (q : Strong) : Prop
  | new {k v a us} : Strong.construct k v a h = (h', .ok q, us) → h.objects.size = o →
      Made o h h' q
  | fromUnique {u u' : Unique} : u.promote h = (h', u', .ok q) → u.object = some o → Made o h h' q
  | fromRaw {r : Raw} {us} : Strong.adopt r h = (h', .ok q, us) → r.object = o → Made o h h' q

theorem Unique.promote_whole {u u' : Unique} (hq : u.promote h = (h', u', .ok q))
    (ho : u.object = some o) : q.Whole h' o := by
  unfold promote at hq
  rw [ho] at hq
  dsimp only at hq
  split at hq
  · next b hc =>
    cases hq
    obtain ⟨rfl, -, serial, -, hblocks, -⟩ := Heap.createBlock_ok hc
    exact ⟨rfl, _, _, rfl, hblocks ▸ Array.getElem?_push_size, rfl⟩
  · cases hq

/-- However it is made, the object has come under a block. -/
theorem Strong.Made.whole (hq : Made o h h' q) : q.Whole h' o := by
  cases hq with
  | new hc ho =>
    unfold construct at hc
    split at hc
    · cases hc
    · next u hu =>
      obtain ⟨hobject, -⟩ := Unique.construct_refused hu
      split at hc
      · next hpromote =>
        cases hc
        exact Unique.promote_whole hpromote (hobject.trans (congrArg some ho))
      · cases hc
  | fromUnique hpromote ho => exact Unique.promote_whole hpromote ho
  | fromRaw hc ho =>
    unfold adopt at hc
    split at hc
    · next hpromote =>
      cases hc
      exact Unique.promote_whole hpromote (congrArg some ho)
    · cases hc

/-- What the source stores is stored again. -/
def Derivation.Copies : Derivation → Prop
  | .clone | .downgrade | .lock => True
  | .project _ _ | .cast _ => False

/-- A derivation that copies keeps the view. -/
theorem Derivation.Copies.view? (hc : d.Copies) (hd : d.apply x h = some (h', y))
    (hn : ¬ d.Refused x h) : y.view? = x.view? := by
  cases yields_of_apply hd with
  | cloneStrong | cloneWeak | downgrade => rfl
  | project | projectWeak | cast => exact hc.elim
  | lock w =>
    have huse : w.use h ≠ 0 := hn
    unfold Weak.use at huse
    unfold Weak.lock Weak.lock?
    cases hb : w.block with
    | none => simp [hb] at huse
    | some b =>
      have halive : h.strongCount b ≠ 0 := by simpa [hb] using huse
      simp only [halive, ↓reduceIte]
      rfl

end

namespace Machine

/-- By moment `n` of the run slot `x` has been made of object `o` itself, or copied from such a
pointer by cloning, downgrading and locking. Anything may have happened in between. -/
inductive FirstHand (run : Nat → Machine) (o : ObjectId) : Nat → Slot → Prop
  | made {n h h' q} : Strong.Made o h h' q → h'.blocks = (run n).heap.blocks →
      FirstHand run o n (.strong q)
  | copied {i n h h' d x y} : FirstHand run o i x → i ≤ n → x ∈ (run n).pointers →
      h.blocks = (run n).heap.blocks → Derivation.Copies d → d.apply x h = some (h', y) →
      ¬ d.Refused x h → FirstHand run o n y

/-- The strong pointer exists, and stores where the pointee of its block is, which has a size. -/
structure HasWhole (m : Machine) (p : Strong) : Prop where
  pointer : .strong p ∈ m.pointers
  whole : ∃ o, p.Whole m.heap o ∧ m.heap.bytes o ≠ 0

section

variable {m : Machine} {left right : Path} {loc other : Location} {x y : Slot} {p q : Strong}

/-- Two paths to different slots are found. -/
theorem findTwo_eq_ok (hx : m.find left = .ok (loc, x)) (hy : m.find right = .ok (other, y))
    (hne : loc ≠ other) : m.findTwo left right = .ok ((loc, x), (other, y)) := by
  simp only [find, bind_eq_ok, pure_eq_ok] at hx hy
  obtain ⟨l, hl, x', hx', heq⟩ := hx
  cases heq
  obtain ⟨r, hr, y', hy', heq⟩ := hy
  cases heq
  have hpaths : left ≠ right := by
    rintro rfl
    exact hne (Except.ok.inj (hl.symm.trans hr))
  simp only [findTwo, hpaths, hl, hr, hx', hy', hne, bind, Except.bind, ↓reduceIte]
  rfl

/-- Two strong pointers of one type are compared by the addresses that they store. -/
theorem planCompare_strong (hp : m.find left = .ok (loc, .strong p))
    (hq : m.find right = .ok (other, .strong q)) (hne : loc ≠ other) (hk : p.kind = q.kind) :
    m.plan (.compare left right) = .ok (.answer (.compared (p.address m.heap == q.address m.heap)
      ((p.address m.heap).compare? (q.address m.heap)))) := by
  simp only [plan, planCompare, findTwo_eq_ok hp hq hne, bind, Except.bind, Slot.sameType, hk,
    beq_self_eq_true, Bool.not_true, Bool.false_eq_true, ↓reduceIte]
  rfl

theorem planCompare_weak {w v : Weak} (hw : m.find left = .ok (loc, .weak w))
    (hv : m.find right = .ok (other, .weak v)) (hne : loc ≠ other) (hk : w.kind = v.kind) :
    m.plan (.compare left right) = .ok (.answer (.sameBlock (w.ptrEq v))) := by
  simp only [plan, planCompare, findTwo_eq_ok hw hv hne, bind, Except.bind, Slot.sameType, hk,
    beq_self_eq_true, Bool.not_true, Bool.false_eq_true, ↓reduceIte]
  rfl

theorem planOwner_strong (hp : m.find left = .ok (loc, .strong p))
    (hq : m.find right = .ok (other, .strong q)) (hne : loc ≠ other) :
    m.plan (.owner left right) = .ok (.answer (.owners
      (m.heap.ownerAddress p.block == m.heap.ownerAddress q.block)
      ((m.heap.ownerAddress p.block).compare? (m.heap.ownerAddress q.block)))) := by
  simp only [plan, planOwner, findTwo_eq_ok hp hq hne, bind, Except.bind, Slot.key?]
  rfl

end

/-! ## Where pointees are -/

section

variable {run : Nat → Machine} {n k : Nat} {o : ObjectId} {x : Slot} {p q : Strong} {u v : Member}
  {a a' : Alloc} {e e' : Nat × Layout} {σ : Placement}

/-- An object that a block manages is in the memory that it needs: what is abandoned is not shared. -/
theorem IsRationed.isHoused (hr : IsRationed run) (hv : (run n).heap.HasMember v) :
    v.pointee.IsHoused := by
  intro hs
  by_contra hl
  obtain ⟨i, hi, -, habandons⟩ := hr.abandoned hv.object hs hl
  have halive := hr.member_alive hv
  rcases Nat.lt_or_eq_of_le (show i + 1 ≤ n from hi) with hlt | rfl
  · obtain ⟨phase, hphase, hne⟩ := hr.phase_of_starts habandons.starts? hlt
    rw [halive] at hphase
    exact hne (Option.some.inj hphase).symm
  · -- both the unique pointer and the block would own it
    obtain ⟨w, rest, hagenda, hw⟩ := habandons
    have hmem : .unique w ∈ (run (i + 1)).pointers :=
      mem_pointers_of_first hagenda (List.mem_singleton_self _)
    have hunique := tally_pos (f := Stake.owns?) (pointer_mem_stakes_iff.mpr hmem) hw
    rw [tally_owns?] at hunique
    have hmanagers := Heap.managers_pos ⟨v.block, v.header, hv.block, hv.pointee⟩
    have howned := (hr.owned (i + 1) v.object .alive halive).1
    rw [owners_scene] at howned
    omega

/-- A pointer to a whole object that has a size stores where its memory begins. -/
theorem IsRationed.exists_resides (hr : IsRationed run) (hp : (run n).HasWhole p) :
    ∃ v a e, p.Resides (run n).heap v a e := by
  obtain ⟨hmem, o, ⟨hview, b, x, hb, hx, ho⟩, hbytes⟩ := hp
  obtain ⟨-, -, -, -, -, halive⟩ := hr.block_of_strong hx ho (Nat.le_refl n) hmem hb
  obtain ⟨y, hy, hphase⟩ := Option.map_eq_some_iff.mp halive
  have hmember : (run n).heap.HasMember ⟨b, x, o, y⟩ := ⟨hx, ho, hy⟩
  have hsize : y.content.layout.size ≠ 0 := by simpa [Heap.bytes, hy] using hbytes
  cases hs : y.serial with
  | none => exact absurd (hr.isHoused hmember hs) hsize
  | some serial =>
    refine ⟨⟨b, x, o, y⟩, y.alloc, (serial, y.content.layout), hmember, hb, hview, ?_, hsize, ?_⟩
    · exact Tenant.claim?_object hy (by simp [hphase]) hs
    · rw [Strong.address, hview]
      simp [Heap.addressOf, Place.whole, Heap.origin?, hy, Address.follow, Heap.originAddress, hs]

/-- Two members are in one block just when they are one object. -/
theorem IsRationed.object_eq_iff (hr : IsRationed run) (hu : (run n).heap.HasMember u)
    (hv : (run n).heap.HasMember v) : u.object = v.object ↔ u.block = v.block := by
  constructor
  · exact hr.block_eq_of_object_eq hu hv
  · intro heq
    have hheader : u.header = v.header := by
      have := hu.block
      rw [heq, hv.block] at this
      exact (Option.some.inj this).symm
    exact Option.some.inj (hu.pointee.symm.trans (hheader ▸ hv.pointee))

/-- Stored addresses are equal just when the pointees are. -/
theorem IsRationed.ptrEq_iff (hr : IsRationed run) (hσ : σ.Disjoint (run n).heap)
    (hp : p.Resides (run n).heap u a e) (hq : q.Resides (run n).heap v a' e') :
    p.ptrEq σ (run n).heap q = true ↔ u.object = v.object := by
  rw [Strong.ptrEq, beq_iff_eq, Strong.addr, Strong.addr]
  constructor
  · intro heq
    rw [hp.address, hq.address] at heq
    have htenant := hσ.tenant_eq (hr.sound n).booked hp.claim hq.claim hp.sized hq.sized heq
    exact Tenant.object.inj htenant
  · intro heq
    rw [Strong.address, Strong.address, hp.view, hq.view, heq]

/-- Where the pointers are to whole objects, they are the same by all that they can be compared
by. -/
theorem IsRationed.agrees (hr : IsRationed run) (hσ : σ.Disjoint (run n).heap)
    (hp : (run n).HasWhole p) (hq : (run n).HasWhole q) : p.Agrees σ (run n).heap q := by
  obtain ⟨u, a, e, hu⟩ := hr.exists_resides hp
  obtain ⟨v, a', e', hv⟩ := hr.exists_resides hq
  have hobject : p.ptrEq σ (run n).heap q = true ↔ u.object = v.object := hr.ptrEq_iff hσ hu hv
  have hblock : p.ptrEq σ (run n).heap q = true ↔ p.block = q.block := by
    rw [hu.block, hv.block, Option.some_inj]
    exact hobject.trans (hr.object_eq_iff hu.member hv.member)
  have hview : p.ptrEq σ (run n).heap q = true ↔ p.view = q.view := by
    rw [hobject, hu.view, hv.view]
    simp [Place.whole]
  have howner : p.ptrEq σ (run n).heap q =
      (OwnerBased.strong p).ownerEq σ (run n).heap (.strong q) := by
    have hiff := OwnerBased.ownerEq_iff (x := .strong p) (y := .strong q) (hr.sound n) hσ
      (pointer_mem_stakes_iff.mpr hp.pointer) (pointer_mem_stakes_iff.mpr hq.pointer)
      hu.block hv.block
    rw [Bool.eq_iff_iff, hblock, hiff, hu.block, hv.block, Option.some_inj]
  constructor
  case owner => exact howner
  case block => exact hblock
  case pointee => exact hview
  case order => exact Nat.compare_eq_eq.trans beq_iff_eq.symm
  case hash => exact fun heq => congrArg hash (beq_iff_eq.mp heq)
  case weak =>
    intro g g'
    rw [Bool.eq_iff_iff, hblock]
    exact beq_iff_eq
  case address =>
    rw [Bool.eq_iff_iff, beq_iff_eq]
    constructor
    · intro heq
      rw [Strong.ptrEq, Strong.addr, Strong.addr, heq, beq_self_eq_true]
    · intro heq
      rw [Strong.address, Strong.address, hview.mp heq]
  case ownerAddress =>
    rw [Bool.eq_iff_iff, beq_iff_eq]
    constructor
    · intro heq
      rw [howner, OwnerBased.ownerEq, beq_iff_eq]
      exact congrArg (Address.number σ) heq
    · intro heq
      rw [hblock.mp heq]

/-- What is made of an object itself stays with that object and its block. -/
theorem FirstHand.stores (hr : IsRationed run) (hx : FirstHand run o k x) :
    x.view? = some (.whole o) ∧ ∃ b, x.block? = some b ∧
      ∃ i ≤ k, ∃ z, (run i).heap.blocks[b]? = some z ∧ z.pointee = some o := by
  induction hx with
  | @made n h h' q hmade hblocks =>
    obtain ⟨hview, b, z, hb, hz, ho⟩ := hmade.whole
    exact ⟨hview, b, hb, n, Nat.le_refl n, z, hblocks ▸ hz, ho⟩
  | copied _ hin hx hblocks hcopies happly hn ih =>
    obtain ⟨hview, b, hb, i, hi, z, hz, ho⟩ := ih
    have hderived := hr.derived_of_pointer hx hb hblocks happly
    exact ⟨(hcopies.view? happly hn).trans hview, b, hderived.granted hn, i, hi.trans hin, z, hz,
      ho⟩

end

/-- How strong pointers compare that exist at moment `n`, if memory is placed as `σ` says. -/
structure Identities (run : Nat → Machine) (n : Nat) (σ : Placement) : Prop where
  /-- What has been made of an object itself, and not of another pointer's part, stores where the
  pointee of its block is for as long as it is there. -/
  firsthand : ∀ k o p, FirstHand run o k (.strong p) → k ≤ n → .strong p ∈ (run n).pointers →
    p.Whole (run n).heap o
  /-- The memory of that pointee has not been returned. -/
  kept : ∀ p, (run n).HasWhole p → ∃ v a e, p.Resides (run n).heap v a e ∧
    e ∈ ((run n).heap.ledger a).entries true
  /-- The stored addresses say the same as the owners, also for pointers of two types. -/
  agree : ∀ p q, (run n).HasWhole p → (run n).HasWhole q → p.Agrees σ (run n).heap q
  /-- So programs are told, whichever of the two they ask for. -/
  told : ∀ left right loc other p q, (run n).find left = .ok (loc, .strong p) →
    (run n).find right = .ok (other, .strong q) → loc ≠ other → p.kind = q.kind →
    (run n).HasWhole p → (run n).HasWhole q → ∃ order,
      (order = some .eq ↔ p.ptrEq σ (run n).heap q = true) ∧
      (run n).plan (.compare left right) =
        .ok (.answer (.compared (p.ptrEq σ (run n).heap q) order))
  toldOwner : ∀ left right loc other p q, (run n).find left = .ok (loc, .strong p) →
    (run n).find right = .ok (other, .strong q) → loc ≠ other →
    (run n).HasWhole p → (run n).HasWhole q → ∃ order,
      (order = some .eq ↔ p.ptrEq σ (run n).heap q = true) ∧
      (run n).plan (.owner left right) =
        .ok (.answer (.owners (p.ptrEq σ (run n).heap q) order))
  /-- And so they are told of the weak pointers that are made of them. -/
  toldWeak : ∀ left right loc other p q g g',
    (run n).find left = .ok (loc, .weak (Strong.downgrade p g).2) →
    (run n).find right = .ok (other, .weak (Strong.downgrade q g').2) → loc ≠ other →
    p.kind = q.kind → (run n).HasWhole p → (run n).HasWhole q →
    (run n).plan (.compare left right) =
      .ok (.answer (.sameBlock (p.ptrEq σ (run n).heap q)))

section

variable {run : Nat → Machine} {n : Nat} {σ : Placement}

/-- The two identities agree, also where memory is used again. -/
theorem IsRationed.identities (hr : IsRationed run) (hσ : σ.Disjoint (run n).heap) :
    Identities run n σ := by
  constructor
  case firsthand =>
    intro k o p hp hkn hmem
    obtain ⟨hview, b, hb, i, hik, z, hz, ho⟩ := hp.stores hr
    obtain ⟨y, hy, -, -, hyo, -⟩ := hr.block_of_strong hz ho (hik.trans hkn) hmem hb
    exact ⟨hview, b, y, hb, hy, hyo⟩
  case kept =>
    intro p hp
    obtain ⟨v, a, e, hv⟩ := hr.exists_resides hp
    exact ⟨v, a, e, hv, (hr.sound n).booked.mem_entries hv.claim⟩
  case agree => exact fun p q hp hq => hr.agrees hσ hp hq
  case told =>
    intro left right loc other p q hleft hright hne hk hp hq
    have hagrees := hr.agrees hσ hp hq
    refine ⟨(p.address (run n).heap).compare? (q.address (run n).heap), ?_, ?_⟩
    · rw [Address.compare?_eq_some_eq, ← beq_iff_eq, hagrees.address]
    · rw [planCompare_strong hleft hright hne hk, hagrees.address]
  case toldOwner =>
    intro left right loc other p q hleft hright hne hp hq
    have hagrees := hr.agrees hσ hp hq
    refine ⟨((run n).heap.ownerAddress p.block).compare? ((run n).heap.ownerAddress q.block),
      ?_, ?_⟩
    · rw [Address.compare?_eq_some_eq, ← beq_iff_eq, hagrees.ownerAddress]
    · rw [planOwner_strong hleft hright hne, hagrees.ownerAddress]
  case toldWeak =>
    intro left right loc other p q g g' hleft hright hne hk hp hq
    rw [planCompare_weak hleft hright hne hk, (hr.agrees hσ hp hq).weak]

end

/-- A block is refused before it is granted. Once the pointee and the block have been returned,
others may be where they were. -/
def reusing : List Step :=
  [.budget (some 1), .unique .int (.int 1) .arena ⟨false, [], "u"⟩,
    .promote ⟨false, [], "u"⟩ ⟨false, [], "p"⟩, .budget none,
    .promote ⟨false, [], "u"⟩ ⟨false, [], "p"⟩, .drop ⟨false, [], "p"⟩,
    .new .int (.int 2) .arena ⟨false, [], "p"⟩,
    .downgrade ⟨false, [], "p"⟩ ⟨false, [], "w"⟩, .lock ⟨false, [], "w"⟩ ⟨false, [], "q"⟩,
    .new .int (.int 2) .arena ⟨false, [], "r"⟩]

/-- Allocations take turns at four addresses. -/
def reused : Placement
  | .memory _ serial => 16 + 64 * (serial % 4)
  | _ => 8

/-- The third pointee is where the first one was. -/
theorem identities_reusing :
    let m := moment reusing false 37
    let p : Strong := ⟨.int, some 1, some (.whole 1)⟩
    let r : Strong := ⟨.int, some 2, some (.whole 2)⟩
    reused (.memory .arena 1) = reused (.memory .arena 5) ∧ m.heap.metrics.allocFailures = 1 ∧
      FirstHand (moment reusing false) 1 25 (.strong p) ∧ m.HasWhole p ∧ m.HasWhole r ∧
      p.ptrEq reused m.heap p = true ∧ p.ptrEq reused m.heap r = false ∧
      reused.Disjoint m.heap ∧ Identities (moment reusing false) 37 reused := by
  intro m p r
  have hglobal : (m.heap.ledger .global).entries true = 0 := by decide
  have harena : (m.heap.ledger .arena).entries true =
      {(3, ⟨8, 8⟩), (4, .block true), (5, ⟨8, 8⟩), (6, .block true)} := by decide
  have hout (a : Alloc) (e : Nat × Layout) (he : e ∈ (m.heap.ledger a).entries true) :
      a = .arena ∧ 3 ≤ e.1 ∧ e.1 ≤ 6 ∧ e.2.size ≤ 64 := by
    cases a with
    | global =>
      rw [hglobal] at he
      exact absurd he (Multiset.notMem_zero e)
    | arena =>
      rw [harena] at he
      simp only [Multiset.insert_eq_cons, Multiset.mem_cons, Multiset.mem_singleton] at he
      rcases he with rfl | rfl | rfl | rfl <;> decide
  have hdisjoint : reused.Disjoint m.heap := by
    intro a e a' e' he he' hne
    obtain ⟨rfl, hlow, hhigh, hsize⟩ := hout a e he
    obtain ⟨rfl, hlow', hhigh', hsize'⟩ := hout a' e' he'
    have hserial : e.1 ≠ e'.1 := fun heq => hne (congrArg _ heq)
    simp only [reused]
    omega
  have hnew : Strong.construct .int ⟨.int 2, []⟩ .arena (moment reusing false 24).heap =
      ((moment reusing false 25).heap, .ok p, []) := rfl
  have hmade : FirstHand (moment reusing false) 1 25 (.strong p) :=
    .made (.new hnew (by decide)) rfl
  exact ⟨rfl, by decide, hmade, ⟨by decide, 1, by decide, by decide⟩,
    ⟨by decide, 2, by decide, by decide⟩, by decide, by decide, hdisjoint,
    IsRationed.identities (isRationed_moment _ _) hdisjoint⟩

end Machine

end Custody
