import Custody.Proofs.Conservation
import Custody.Proofs.Likeness

/-!
# What alike machines show

* `Reply.heard`: a reply without the counts of weak references, the names of a node's slots and the
  order of addresses.
* `Estate.Alike.read?`, `Estate.Alike.show?`: what is read at alike places.
* `Address.Alike`: addresses of the same part of paired objects, or of paired blocks. What memory
  they have does not matter, and they are equal on both sides or on none (`Address.Alike.eq_iff`).
* `heard_keyed`: collections of alike keys.
-/

namespace Custody

/-! ## Replies -/

/-- The counts without what they say of weak references. -/
def Counts.heard : Counts → Counts
  | strong use _ _ null block => strong use 0 0 null block
  | weak use _ _ block => weak use 0 0 block
  | c => c

/-- What is shown without the names of links, some of which may be of weak pointers. -/
def Shown.heard : Shown → Shown
  | node n _ => node n []
  | concrete k v => concrete k v.heard
  | v => v

mutual

/-- What a reply says of the strong side: all but weak counts, the names of links, and the order of
addresses, which may depend on weak pointers. -/
def Reply.heard : Reply → Reply
  | shown v => shown v.heard
  | counts c => counts c.heard
  | placed c => placed c.heard
  | placedDuring c during => placedDuring c.heard (Reply.heardAll during)
  | promoted c sameAddress sourceNull => promoted c.heard sameAddress sourceNull
  | compared same _ => compared same none
  | owners same _ => owners same none
  | keyed size _ found => keyed size none found
  | list replies => list (Reply.heardAll replies)
  | r => r

/-- What replies say of the strong side. -/
def Reply.heardAll : List Reply → List Reply
  | [] => []
  | r :: rest => r.heard :: Reply.heardAll rest

end

theorem Reply.heardAll_eq_map (replies : List Reply) : heardAll replies = replies.map heard := by
  induction replies with
  | nil => rfl
  | cons r rest ih => simp [heardAll, ih]

theorem Content.heard_shownAs (k : Kind) (links links' : List String) (c : Content) :
    (c.shownAs k links).heard = (c.shownAs k links').heard := by
  cases k <;> cases c <;> rfl

/-! ## Reading -/

section Reading

variable {P : Pairing} {h k : Heap} {p q : Place}

theorem Heap.origin?_estate (h : Heap) (i : Origin) : h.origin? i =
    match i with
    | .object o => (h.estate.object o).map (·.content)
    | .static s => some (h.statics.get s) := by
  cases i with
  | object o =>
    simp only [origin?, estate]
    cases h.objects[o]? <;> rfl
  | static s => rfl

namespace Estate.Alike

theorem origin? (he : h.estate.Alike P k.estate) {i j : Origin} (hij : i.Alike P j) :
    h.origin? i = k.origin? j := by
  cases hij with
  | object ho =>
    obtain ⟨x, y, hx, hy, hxy⟩ := he.object.alike ho
    simp only [Heap.origin?_estate, hx, hy, Option.map_some, hxy.content]
  | static s =>
    have hstatics : h.statics = k.statics := he.statics
    simp only [Heap.origin?_estate, hstatics]

theorem read? (he : h.estate.Alike P k.estate) (hpq : p.Alike P q) : h.read? p = k.read? q := by
  rw [Heap.read?, Heap.read?, he.origin? hpq.origin, hpq.path]

theorem show? (he : h.estate.Alike P k.estate) (kind : Kind) {v u : Option Place}
    (hv : Option.Rel (Place.Alike P) v u) :
    (h.show? kind v).map Shown.heard = (k.show? kind u).map Shown.heard := by
  cases hv with
  | none => rfl
  | some hpq =>
    simp only [Heap.show?, Option.bind_eq_bind, Option.bind_some, he.read? hpq]
    cases k.read? _ with
    | none => rfl
    | some c => exact congrArg some (Content.heard_shownAs _ _ _ _)

theorem get? (he : h.estate.Alike P k.estate) {s t : Strong} (hst : s.Alike P t) :
    s.get? h = t.get? k := by
  have hview := hst.view
  unfold Strong.get?
  cases hs : s.view <;> cases ht : t.view <;> rw [hs, ht] at hview <;> cases hview
  · rfl
  · next hpq => exact he.read? hpq

theorem strongCount (he : h.estate.Alike P k.estate) {b c : BlockId} (hbc : P.block b c) :
    h.strongCount b = k.strongCount c := by
  obtain ⟨s, t, hs, ht, hst⟩ := he.block.alike hbc
  rw [Heap.strongCount_estate, Heap.strongCount_estate, hs, ht]
  exact hst.strong

theorem use (he : h.estate.Alike P k.estate) {s t : Strong} (hst : s.Alike P t) :
    s.use h = t.use k := by
  have hblock := hst.block
  unfold Strong.use
  cases hs : s.block <;> cases ht : t.block <;> rw [hs, ht] at hblock <;> cases hblock
  · rfl
  · next hbc => exact he.strongCount hbc

/-- The counts of alike slots are the same as far as the strong side goes. -/
theorem counts (he : h.estate.Alike P k.estate) {x y : Slot} (hxy : x.Alike P y) :
    (x.counts h).heard = (y.counts k).heard := by
  cases hxy with
  | strong hst =>
    have hnull := Option.Rel.isSome hst.view
    simp only [Slot.counts, Strong.counts, Counts.heard, he.use hst, Option.Rel.isSome hst.block,
      ← Option.not_isSome, hnull]
  | unique huv =>
    have hnull := Option.Rel.isSome huv.object
    simp only [Slot.counts, Unique.counts, Counts.heard, ← Option.not_isSome, hnull]
  | raw => rfl

end Estate.Alike

end Reading

/-! ## Addresses -/

/-- Paired tenants. -/
inductive Tenant.Alike (P : Pairing) : Tenant → Tenant → Prop
  | object {o o' : ObjectId} (h : P.object o o') : Tenant.Alike P (.object o) (.object o')
  | block {b c : BlockId} (h : P.block b c) : Tenant.Alike P (.block b) (.block c)

/-- Memory is known by what is in it. -/
inductive Region.Alike (P : Pairing) (h k : Heap) : Region → Region → Prop
  | memory {t t' : Tenant} {a a' n n' l l'} (htt : t.Alike P t') (ht : t.claim? h a = some (n, l))
      (ht' : t'.claim? k a' = some (n', l')) : Region.Alike P h k (.memory a n) (.memory a' n')
  | buffer {i j : Origin} (hij : i.Alike P j) (path : List Field) :
      Region.Alike P h k (.buffer i path) (.buffer j path)
  | static (s : Static) : Region.Alike P h k (.static s) (.static s)
  | label : Region.Alike P h k .label .label

/-- The same offset in alike regions. -/
inductive Address.Alike (P : Pairing) (h k : Heap) : Address → Address → Prop
  | low (n : Nat) : Address.Alike P h k (.low n) (.low n)
  | inside {r s : Region} (hrs : r.Alike P h k s) (offset : Nat) :
      Address.Alike P h k (.inside r offset) (.inside s offset)

section Addresses

variable {P : Pairing} {h k : Heap} {a : Alloc} {t t' s s' : Tenant}

theorem Origin.Alike.eq_iff {i i' j j' : Origin} (hi : i.Alike P i') (hj : j.Alike P j') :
    i = j ↔ i' = j' := by
  cases hi with
  | static s => cases hj <;> simp
  | object ho =>
    cases hj with
    | static s => simp
    | object ho' =>
      simp only [Origin.object.injEq]
      exact ⟨fun h => P.object_unique.2 ho (h ▸ ho'), fun h => P.object_unique.1 ho (h ▸ ho')⟩

/-- As pairs are one to one, equal tenants have equal ones alike to them. -/
theorem Tenant.Alike.eq_iff (ht : t.Alike P t') (hs : s.Alike P s') : t = s ↔ t' = s' := by
  cases ht with
  | object ho =>
    cases hs with
    | block hb => simp
    | object ho' =>
      simp only [Tenant.object.injEq]
      exact ⟨fun h => P.object_unique.2 ho (h ▸ ho'), fun h => P.object_unique.1 ho (h ▸ ho')⟩
  | block hb =>
    cases hs with
    | object ho => simp
    | block hb' =>
      simp only [Tenant.block.injEq]
      exact ⟨fun h => P.block_unique.2 hb (h ▸ hb'), fun h => P.block_unique.1 hb (h ▸ hb')⟩

/-- What is in memory is in one place. -/
theorem Tenant.claim?_unique {a b : Alloc} {e f : Nat × Layout} (ha : t.claim? h a = some e)
    (hb : t.claim? h b = some f) : a = b ∧ e = f := by
  cases t with
  | object o =>
    obtain ⟨x, hx, hxa⟩ := Option.bind_eq_some_iff.mp ha
    obtain ⟨y, hy, hyb⟩ := Option.bind_eq_some_iff.mp hb
    cases hx.symm.trans hy
    unfold Object.claim? at hxa hyb
    split at hxa <;> split at hyb <;> simp_all
  | block c =>
    obtain ⟨x, hx, hxa⟩ := Option.bind_eq_some_iff.mp ha
    obtain ⟨y, hy, hyb⟩ := Option.bind_eq_some_iff.mp hb
    cases hx.symm.trans hy
    unfold Block.claim? at hxa hyb
    split at hxa <;> split at hyb <;> simp_all

/-- Alike regions are equal on both sides or on neither, since no allocation has two tenants. -/
theorem Region.Alike.eq_iff (hh : Booked h) (hk : Booked k) {r r' q q' : Region}
    (hr : r.Alike P h k r') (hq : q.Alike P h k q') : r = q ↔ r' = q' := by
  cases hr with
  | memory htt ht ht' =>
    cases hq with
    | memory hss hs hs' =>
      simp only [Region.memory.injEq]
      constructor
      · rintro ⟨rfl, rfl⟩
        have heq := (htt.eq_iff hss).mp (hh.tenant_eq ht hs)
        subst heq
        obtain ⟨rfl, he⟩ := Tenant.claim?_unique ht' hs'
        exact ⟨rfl, congrArg Prod.fst he⟩
      · rintro ⟨rfl, rfl⟩
        have heq := (htt.eq_iff hss).mpr (hk.tenant_eq ht' hs')
        subst heq
        obtain ⟨rfl, he⟩ := Tenant.claim?_unique ht hs
        exact ⟨rfl, congrArg Prod.fst he⟩
    | buffer | static | label => simp
  | buffer hij path =>
    cases hq with
    | buffer hij' path' => simp only [Region.buffer.injEq, hij.eq_iff hij']
    | memory | static | label => simp
  | static s => cases hq <;> simp
  | label => cases hq <;> simp

/-- Alike addresses are equal on both sides or on none. -/
theorem Address.Alike.eq_iff (hh : Booked h) (hk : Booked k) {x x' y y' : Address}
    (hx : x.Alike P h k x') (hy : y.Alike P h k y') : x = y ↔ x' = y' := by
  cases hx with
  | low n => cases hy <;> simp
  | inside hr i =>
    cases hy with
    | low n => simp
    | inside hq j => simp only [Address.inside.injEq, hr.eq_iff hh hk hq]

namespace Address.Alike

variable {x x' : Address}

theorem add (hx : x.Alike P h k x') (i : Nat) : (x.add i).Alike P h k (x'.add i) := by
  cases hx with
  | low n => exact .low _
  | inside hr j => exact .inside hr _

/-- A field is as far into the one as into the other. -/
theorem field {i j : Origin} (hij : i.Alike P j) (path : List Field) (hx : x.Alike P h k x')
    (c : Content) (f : Field) :
    (Address.field i path x c f).Alike P h k (Address.field j path x' c f) := by
  cases f with
  | value => exact hx.add 8
  | name => exact .inside (.buffer hij _) 0
  | items =>
    simp only [Address.field]
    split
    · exact .low 8
    · exact .inside (.buffer hij _) 0
  | text =>
    simp only [Address.field]
    split
    · exact .low 1
    · exact .inside (.buffer hij _) 0
  | elem i => exact hx.add _
  | sub i j => exact hx.add _
  | label => exact .inside .label 0
  | id | side | lowByte | firstByte | asUint | asInt | asSquare => exact hx

theorem follow {i j : Origin} (hij : i.Alike P j) (rest : List Field) (path : List Field)
    (hx : x.Alike P h k x') (c : Content) :
    (Address.follow i path x c rest).Alike P h k (Address.follow j path x' c rest) := by
  induction rest generalizing path x x' c with
  | nil => exact hx
  | cons f rest ih =>
    have hfield := hx.field hij path c f
    simp only [Address.follow]
    split
    · exact ih _ hfield _
    · exact hfield

end Address.Alike

/-- What the place is in is alive. -/
def Heap.Lives (h : Heap) (v : Option Place) : Prop :=
  ∀ p o, v = some p → p.origin = .object o → h.phase? o = some .alive

/-- Two objects that are alive, and alike, are at alike addresses. -/
theorem Estate.Alike.originAddress (he : h.estate.Alike P k.estate) {i j : Origin}
    (hij : i.Alike P j) (hlives : ∀ o, i = .object o → h.phase? o = some .alive) :
    (h.originAddress i).Alike P h k (k.originAddress j) := by
  cases hij with
  | static s => exact .inside (.static s) 0
  | @object o o' ho =>
    obtain ⟨_, _, hx', hy', hxy⟩ := he.object.alike ho
    obtain ⟨x, hx, rfl⟩ := Option.map_eq_some_iff.mp hx'
    obtain ⟨y, hy, rfl⟩ := Option.map_eq_some_iff.mp hy'
    have halive : x.phase = .alive := by simpa [Heap.phase?, hx] using hlives o rfl
    have halive' : y.phase = .alive := hxy.phase.symm.trans halive
    have hserial : x.serial.isSome = y.serial.isSome := hxy.serial
    simp only [Heap.originAddress, hx, hy]
    rcases hn : x.serial with _ | n <;> rcases hn' : y.serial with _ | n' <;>
      rw [hn, hn'] at hserial <;> cases hserial
    · have hcontent : x.content = y.content := hxy.content
      rw [hcontent]
      exact .low _
    · have hclaim := Tenant.claim?_object hx (by simp [halive]) hn
      have hclaim' := Tenant.claim?_object hy (by simp [halive']) hn'
      exact .inside (.memory (.object ho) hclaim hclaim') 0

theorem Estate.Alike.addressOf (he : h.estate.Alike P k.estate) {v u : Option Place}
    (hv : Option.Rel (Place.Alike P) v u) (hlives : h.Lives v) :
    (h.addressOf v).Alike P h k (k.addressOf u) := by
  cases hv with
  | none => exact .low 0
  | @some p q hpq =>
    simp only [Heap.addressOf, he.origin? hpq.origin, hpq.path]
    split
    · next c hc =>
      exact .follow hpq.origin _ _ (he.originAddress hpq.origin fun o => hlives p o rfl) _
    · exact .low 0

/-- Blocks with strong owners, and alike, are at alike addresses. -/
theorem Estate.Alike.ownerAddress (he : h.estate.Alike P k.estate) {b c : Option BlockId}
    (hbc : Option.Rel P.block b c) (hlives : ∀ i x, b = some i → h.blocks[i]? = some x →
      x.freed = false) (hlives' : ∀ i x, c = some i → k.blocks[i]? = some x → x.freed = false) :
    (h.ownerAddress b).Alike P h k (k.ownerAddress c) := by
  cases hbc with
  | none => exact .low 0
  | @some b c hbc =>
    obtain ⟨_, _, hx', hy', -⟩ := he.block.alike hbc
    obtain ⟨x, hx, rfl⟩ := Option.map_eq_some_iff.mp hx'
    obtain ⟨y, hy, rfl⟩ := Option.map_eq_some_iff.mp hy'
    have hclaim := Tenant.claim?_block hx (hlives _ x rfl hx)
    have hclaim' := Tenant.claim?_block hy (hlives' _ y rfl hy)
    simp only [Heap.ownerAddress, hx, hy]
    exact .inside (.memory (.block hbc) hclaim hclaim') 0

end Addresses

/-! ## Keys -/

section Keys

variable {P : Pairing} {h k : Heap} {a b : Address} {as bs : List Address}

/-- The entries of alike collections stand under the same indices. -/
def Indexed (P : Pairing) (h k : Heap) : List (Address × Nat) → List (Address × Nat) → Prop :=
  List.Forall₂ fun e f => e.1.Alike P h k f.1 ∧ e.2 = f.2

/-- Alike addresses are told apart on both sides or on none. -/
theorem Address.Alike.beq {x y : Address} (hab : a.Alike P h k b) (hh : Booked h) (hk : Booked k)
    (hxy : x.Alike P h k y) : (a == x) = (b == y) := by
  rw [Bool.eq_iff_iff, beq_iff_eq, beq_iff_eq, hab.eq_iff hh hk hxy]

theorem Indexed.any {es fs : List (Address × Nat)} (he : Indexed P h k es fs) (hh : Booked h)
    (hk : Booked k) (hab : a.Alike P h k b) : es.any (·.1 == a) = fs.any (·.1 == b) := by
  induction he with
  | nil => rfl
  | cons hef _ ih => rw [List.any_cons, List.any_cons, ih, hef.1.beq hh hk hab]

theorem Indexed.lookup {es fs : List (Address × Nat)} (he : Indexed P h k es fs) (hh : Booked h)
    (hk : Booked k) (hab : a.Alike P h k b) : es.lookup a = fs.lookup b := by
  induction he with
  | nil => rfl
  | @cons e f es fs hef _ ih =>
    obtain ⟨x, i⟩ := e
    obtain ⟨y, j⟩ := f
    obtain ⟨hxy, rfl⟩ := hef
    simp only [List.lookup_cons, hab.beq hh hk hxy, ih]

/-- Of alike addresses the same ones are the last under their key. -/
theorem Indexed.lastIndices {es fs : List (Address × Nat)} (he : Indexed P h k es fs)
    (hh : Booked h) (hk : Booked k) :
    Indexed P h k (Custody.lastIndices es) (Custody.lastIndices fs) := by
  refine List.rel_foldl ?_ .nil he
  rintro seen seen' (hs : Indexed P h k seen seen') ⟨x, i⟩ ⟨y, j⟩ ⟨hxy, rfl⟩
  dsimp only
  rw [hs.any hh hk hxy]
  split
  · refine List.forall₂_map_left_iff.mpr (List.forall₂_map_right_iff.mpr (hs.imp ?_))
    rintro ⟨u, l⟩ ⟨v, l'⟩ ⟨huv, rfl⟩
    dsimp only
    rw [huv.beq hh hk hxy]
    split <;> exact ⟨huv, rfl⟩
  · exact List.rel_append hs (.cons ⟨hxy, rfl⟩ .nil)

theorem indexed_zipIdx (has : List.Forall₂ (Address.Alike P h k) as bs) (n : Nat) :
    Indexed P h k (as.zipIdx n) (bs.zipIdx n) := by
  induction has generalizing n with
  | nil => exact .nil
  | cons hab _ ih => exact .cons ⟨hab, rfl⟩ (ih (n + 1))

/-- Collections of alike keys are of one size, and the same is found in them. -/
theorem heard_keyed (hh : Booked h) (hk : Booked k) (has : List.Forall₂ (Address.Alike P h k) as bs)
    {probe probe' : Option Address} (hp : Option.Rel (Address.Alike P h k) probe probe') :
    (keyed as probe).heard = (keyed bs probe').heard := by
  have hlast := (indexed_zipIdx has 0).lastIndices hh hk
  have hfound : (probe.bind fun a => (lastIndices as.zipIdx).lookup a) =
      probe'.bind fun b => (lastIndices bs.zipIdx).lookup b := by
    cases hp with
    | none => rfl
    | some hab => exact hlast.lookup hh hk hab
  simp only [keyed, Reply.heard, hlast.length_eq, hfound]

end Keys

end Custody
