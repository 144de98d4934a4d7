import Custody.Proofs.Ownership

/-!
# What memory is handed out

* `Content.layout_withAt`: a content that is written in a part keeps its layout.
* `Heap.claims`: the allocations that objects and blocks are in, and those that they were in.
* `Ledger.entries`: the allocations that are out, and those that have been given back.
* `Booked`: these are the same. Changes, losses and shifts keep it.
-/

namespace Custody

variable {Y : Option Place}

/-! ## What is written keeps its layout -/

namespace Content

/-- A value that takes the place of another one is as large. -/
theorem layout_overwrite? {c v : Content} {l : Literal} (h : c.overwrite? l = some v) :
    v.kind = c.kind ∧ v.layout = c.layout := by
  cases c with
  | slice items =>
    cases items with
    | nil => cases h
    | cons n rest =>
      obtain ⟨v, -, rfl⟩ := Option.map_eq_some_iff.mp h
      exact ⟨rfl, rfl⟩
  | str s =>
    cases h
    exact ⟨rfl, by simp [layout, Utf8.toUpperAscii, Utf8.size]⟩
  | unit =>
    cases h
    exact ⟨rfl, rfl⟩
  | _ =>
    obtain ⟨v, -, rfl⟩ := Option.map_eq_some_iff.mp h
    exact ⟨rfl, rfl⟩

theorem kind_withPart (f : Field) (v c : Content) : (withPart f v c).kind = c.kind := by
  unfold withPart
  split <;> rfl

/-- A part is replaced by one of its own size. -/
theorem layout_withPart {f : Field} {c p v : Content} (hp : c.part? f = some p)
    (hl : v.layout = p.layout) : (withPart f v c).layout = c.layout := by
  unfold withPart
  split
  case h_7 i v xs => simp [layout]
  case h_9 i j v xs =>
    simp only [part?] at hp
    split at hp
    · cases hp
      simp [layout] at hl ⊢
      omega
    · cases hp
  case h_10 i j v s =>
    simp only [part?] at hp
    split at hp
    · cases hp
      simp [layout, Utf8.size] at hl ⊢
      omega
    · cases hp
  case h_12 v s => simp [layout, Utf8.size]
  all_goals rfl

/-- A part that changes to one as large leaves the whole as large. -/
theorem layout_withAt {path : List Field} {c p v : Content} (hp : c.at? path = some p)
    (hk : v.kind = p.kind) (hl : v.layout = p.layout) :
    (withAt path v c).kind = c.kind ∧ (withAt path v c).layout = c.layout := by
  induction path generalizing c with
  | nil =>
    cases hp
    exact ⟨hk, hl⟩
  | cons f path ih =>
    simp only [at?, Option.bind_eq_some_iff] at hp
    obtain ⟨q, hq, hp⟩ := hp
    simp only [withAt, hq]
    exact ⟨kind_withPart _ _ _, layout_withPart hq (ih hp).2⟩

end Content

/-! ## Ledgers -/

namespace Ledger

variable {l : Ledger} {n : Nat} {layout : Layout}

/-- The allocations that are still out, or those that have been given back, with their serials. -/
def entries (live : Bool) (l : Ledger) : Multiset (Nat × Layout) :=
  (l.allocations.toList.zipIdx 1).filterMap fun (x, n) =>
    if x.live = live then some (n, x.layout) else none

/-- No allocation is listed twice. -/
theorem nodup_entries (live : Bool) (l : Ledger) : (l.entries live).Nodup := by
  rw [entries, Multiset.coe_nodup]
  refine List.Nodup.filterMap ?_ ?_
  · rintro ⟨⟨layout, live'⟩, n⟩ ⟨⟨layout', live''⟩, n'⟩ e h h'
    obtain ⟨hlive, he⟩ := Option.ite_none_right_eq_some.mp h
    obtain ⟨hlive', he'⟩ := Option.ite_none_right_eq_some.mp h'
    cases he
    cases he'
    cases hlive
    cases hlive'
    rfl
  · refine List.Nodup.of_map Prod.snd ?_
    rw [List.zipIdx_map_snd]
    exact List.nodup_range'

theorem entries_grant (live : Bool) (layout : Layout) (l : Ledger) :
    (l.grant layout).entries live = l.entries live +
      (if live = true then some (l.allocations.size + 1, layout) else none).toList := by
  rw [entries, entries, Multiset.coe_add, Multiset.coe_eq_coe]
  simp only [grant, Array.toList_push, List.zipIdx_append, List.filterMap_append]
  cases live <;> simp [Nat.add_comm 1]

/-- An allocation that is returned is entered as returned instead of as out. -/
theorem entries_giveBack (live : Bool) (h : l.holds n layout = true) :
    (l.giveBack n).entries live + (if live = true then some (n, layout) else none).toList =
      l.entries live + (if live = false then some (n, layout) else none).toList := by
  simp only [holds, Bool.and_eq_true, bne_iff_ne, ne_eq, beq_iff_eq] at h
  obtain ⟨hn, hx⟩ := h
  obtain ⟨as, bs, has, hbs, hlen⟩ := Array.toList_modify_split (fun x => { x with live := false }) hx
  have hserial : 1 + as.length = n := by omega
  rw [entries, entries, Multiset.coe_add, Multiset.coe_add, Multiset.coe_eq_coe]
  simp only [giveBack, has, hbs, List.zipIdx_append, List.zipIdx_cons, List.filterMap_append,
    List.filterMap_cons, hserial]
  cases live
  · simpa using List.perm_middle.trans (List.perm_append_singleton _ _).symm
  · simpa using (List.perm_middle.trans (List.perm_append_singleton _ _).symm).symm

/-- What the books have under a serial. -/
theorem mem_entries {live : Bool} :
    (n, layout) ∈ l.entries live ↔ n ≠ 0 ∧ l.allocations[n - 1]? = some ⟨layout, live⟩ := by
  simp only [entries, Multiset.mem_coe, List.mem_filterMap, Prod.exists,
    List.mk_mem_zipIdx_iff_le_and_getElem?_sub]
  constructor
  · rintro ⟨⟨layout', live'⟩, i, ⟨hi, hx⟩, hlive⟩
    split at hlive
    · next heq =>
      cases hlive
      obtain rfl : live' = live := heq
      exact ⟨by omega, by simpa using hx⟩
    · cases hlive
  · rintro ⟨hn, hx⟩
    exact ⟨_, n, ⟨by omega, by simpa using hx⟩, if_pos rfl⟩

/-- An allocation is out or has been given back. -/
theorem entries_unique {live live' : Bool} (h : (n, layout) ∈ l.entries live) :
    (n, layout) ∈ l.entries live' ↔ live' = live := by
  rw [mem_entries] at h ⊢
  rw [h.2]
  simp [h.1, eq_comm]

theorem holds_iff : l.holds n layout = true ↔ (n, layout) ∈ l.entries true := by
  rw [mem_entries]
  simp only [holds, Bool.and_eq_true, bne_iff_ne, beq_iff_eq]

end Ledger

/-! ## Claims -/

/-- The allocation of `a` that the object is in, if it is `live`; otherwise that which it was in. -/
def Object.claim? (live : Bool) (a : Alloc) (x : Object) : Option (Nat × Layout) :=
  if (x.phase ≠ .gone ↔ live = true) ∧ x.alloc = a then
    x.serial.map fun n => (n, x.content.layout)
  else none

/-- The allocation of `a` that the block is in, if it is `live`; otherwise that which it was in. -/
def Block.claim? (live : Bool) (a : Alloc) (x : Block) : Option (Nat × Layout) :=
  if x.freed ≠ live ∧ x.alloc = a then some (x.serial, .block x.kind.isSized) else none

/-- The allocations of `a` that objects and blocks are in, or those that they were in. -/
def Heap.claims (h : Heap) (live : Bool) (a : Alloc) : Multiset (Nat × Layout) :=
  (h.objects.toList.filterMap (·.claim? live a) : Multiset (Nat × Layout)) +
    (h.blocks.toList.filterMap (·.claim? live a) : Multiset (Nat × Layout))

/-- What is out is what objects and blocks are in; what has been given back is what they were in. -/
def Booked (h : Heap) : Prop := ∀ live a, h.claims live a = (h.ledger a).entries live

section Claims

variable {h h' : Heap} {a : Alloc} {b : BlockId} {o : ObjectId} {live : Bool}

theorem coe_filterMap_split {α β : Type} (f : α → Option β) (l r : List α) (x : α) :
    ((l ++ x :: r).filterMap f : Multiset β) =
      ((l ++ r).filterMap f : Multiset β) + (f x).toList := by
  rw [Multiset.coe_add, Multiset.coe_eq_coe]
  cases hx : f x with
  | none => simp [hx]
  | some y =>
    simp only [List.filterMap_append, List.filterMap_cons, hx, Option.toList_some]
    exact List.perm_middle.trans (List.perm_append_singleton y _).symm

/-- What is gone and what is freed is in no memory. -/
theorem Heap.claims_eq_zero
    (ho : ∀ (o : ObjectId) (x : Object), h.objects[o]? = some x → x.phase = .gone)
    (hb : ∀ (b : BlockId) (x : Block), h.blocks[b]? = some x → x.freed = true) :
    h.claims true a = 0 := by
  have hobjects : h.objects.toList.filterMap (·.claim? true a) = [] := by
    refine List.filterMap_eq_nil_iff.mpr fun x hx => ?_
    obtain ⟨o, hx⟩ := List.mem_iff_getElem?.mp hx
    simp [Object.claim?, ho o x (by simpa using hx)]
  have hblocks : h.blocks.toList.filterMap (·.claim? true a) = [] := by
    refine List.filterMap_eq_nil_iff.mpr fun x hx => ?_
    obtain ⟨b, hx⟩ := List.mem_iff_getElem?.mp hx
    simp [Block.claim?, hb b x (by simpa using hx)]
  rw [claims, hobjects, hblocks]
  rfl

theorem Heap.claims_congr (ho : h'.objects = h.objects) (hb : h'.blocks = h.blocks) :
    h'.claims = h.claims := by
  funext live a
  rw [claims, ho, hb, claims]

/-- What the changed object was in, and what it is in. -/
theorem Heap.claims_modify_object {f : Object → Object} {x : Object}
    (ho : h'.objects = h.objects.modify o f) (hb : h'.blocks = h.blocks)
    (hx : h.objects[o]? = some x) (live : Bool) (a : Alloc) :
    h'.claims live a + (x.claim? live a).toList =
      h.claims live a + ((f x).claim? live a).toList := by
  obtain ⟨l, r, hl, hr, -⟩ := Array.toList_modify_split f hx
  simp only [claims, ho, hb, hl, hr, coe_filterMap_split]
  abel

/-- What the changed block was in, and what it is in. -/
theorem Heap.claims_modify_block {f : Block → Block} {x : Block}
    (ho : h'.objects = h.objects) (hb : h'.blocks = h.blocks.modify b f)
    (hx : h.blocks[b]? = some x) (live : Bool) (a : Alloc) :
    h'.claims live a + (x.claim? live a).toList =
      h.claims live a + ((f x).claim? live a).toList := by
  obtain ⟨l, r, hl, hr, -⟩ := Array.toList_modify_split f hx
  simp only [claims, ho, hb, hl, hr, coe_filterMap_split]
  abel

theorem Heap.claims_push_object {x : Object} (ho : h'.objects = h.objects.push x)
    (hb : h'.blocks = h.blocks) (live : Bool) (a : Alloc) :
    h'.claims live a = h.claims live a + (x.claim? live a).toList := by
  have hpush := coe_filterMap_split (Object.claim? live a) h.objects.toList [] x
  rw [List.append_nil] at hpush
  simp only [claims, ho, hb, Array.toList_push, hpush]
  abel

theorem Heap.claims_push_block {x : Block} (ho : h'.objects = h.objects)
    (hb : h'.blocks = h.blocks.push x) (live : Bool) (a : Alloc) :
    h'.claims live a = h.claims live a + (x.claim? live a).toList := by
  have hpush := coe_filterMap_split (Block.claim? live a) h.blocks.toList [] x
  rw [List.append_nil] at hpush
  simp only [claims, ho, hb, Array.toList_push, hpush]
  abel

/-- A change of the object that leaves it where it is. -/
theorem Heap.claims_keep_object {f : Object → Object} (ho : h'.objects = h.objects.modify o f)
    (hb : h'.blocks = h.blocks)
    (hf : ∀ x live a, h.objects[o]? = some x → (f x).claim? live a = x.claim? live a) :
    h'.claims = h.claims := by
  cases hx : h.objects[o]? with
  | none => exact claims_congr (ho.trans (Array.modify_eq_self f hx)) hb
  | some x =>
    funext live a
    have h := claims_modify_object ho hb hx live a
    rw [hf x live a hx] at h
    exact add_right_cancel h

/-- A change of the block that leaves it where it is. -/
theorem Heap.claims_keep_block {f : Block → Block} (ho : h'.objects = h.objects)
    (hb : h'.blocks = h.blocks.modify b f)
    (hf : ∀ x live a, h.blocks[b]? = some x → (f x).claim? live a = x.claim? live a) :
    h'.claims = h.claims := by
  cases hx : h.blocks[b]? with
  | none => exact claims_congr ho (hb.trans (Array.modify_eq_self f hx))
  | some x =>
    funext live a
    have h := claims_modify_block ho hb hx live a
    rw [hf x live a hx] at h
    exact add_right_cancel h

/-- A request that is granted is entered, and one that is refused is not. -/
theorem Heap.entries_request (h : Heap) (a a' : Alloc) (l : Layout) (live : Bool) :
    ((h.request a l).1.ledger a').entries live = (h.ledger a').entries live +
      (if live = true ∧ a = a' then (h.request a l).2.map fun n => (n, l) else none).toList := by
  cases hr : (h.ledger a).isExhausted with
  | true =>
    obtain ⟨hnone, hledger⟩ := request_refused l hr
    rw [hnone, hledger]
    split <;> simp
  | false =>
    obtain ⟨hsome, hledger⟩ := request_granted l hr
    rw [hsome, hledger]
    by_cases heq : a = a'
    · subst heq
      simp only [↓reduceIte, and_true, Ledger.entries_grant, Option.map_some]
    · simp [heq]

end Claims

/-! ## Changes -/

section

variable {h h' : Heap} {K : Multiset Stake} {k : Stake} {a : Alloc}

theorem Booked.next (hs : Booked h) (hc : h'.claims = h.claims) (hl : h'.ledger = h.ledger) :
    Booked h' := by
  intro live a
  rw [hc, hl]
  exact hs live a

theorem Booked.construct {p : Pointee} {o : ObjectId} {r : Option Layout} (hs : Booked h)
    (hc : h.construct p a = (h', o, r)) : Booked h' := by
  obtain ⟨-, hb, serial, ho, hcases⟩ := Heap.construct_eq hc
  intro live a'
  rw [Heap.claims_push_object ho hb, hs live a']
  rcases hcases with ⟨-, rfl, hl, -⟩ | ⟨-, rfl, hl, -⟩
  · rw [hl]
    simp [Object.claim?]
  · rw [hl, Heap.entries_request]
    simp [Object.claim?]

/-- What a literal leaves at a place is of the kind and the layout of what was there. -/
theorem written?_eq_some {k : Kind} {p : Place} {value : Literal} {c : Content}
    (hc : written? h k p value = some c) :
    ∃ d, h.read? p = some d ∧ c.kind = d.kind ∧ c.layout = d.layout := by
  have hread : (h.read? p).bind (·.overwrite? value) = some c := by
    unfold written? at hc
    split at hc
    all_goals first | cases hc | exact hc
  obtain ⟨d, hd, hdc⟩ := Option.bind_eq_some_iff.mp hread
  exact ⟨d, hd, Content.layout_overwrite? hdc⟩

/-- What is written over a part of an object leaves the object's kind and layout as they were. -/
theorem layout_written {kind : Kind} {p : Place} {value : Literal} {c : Content} {o : ObjectId}
    {x : Object} (hc : written? h kind p value = some c) (hp : p.origin = .object o)
    (hx : h.objects[o]? = some x) :
    (Content.withAt p.path c x.content).kind = x.content.kind ∧
      (Content.withAt p.path c x.content).layout = x.content.layout := by
  obtain ⟨d, hd, hk, hl⟩ := written?_eq_some hc
  rw [Heap.read?, hp, Heap.origin?, hx] at hd
  exact Content.layout_withAt hd hk hl

/-- The books agree with blocks and objects after every change. -/
theorem Change.booked {s t : Scene} (hc : Change Y s t) (hs : Booked s.1) : Booked t.1 := by
  cases hc with
  | null | copy | forget | revise | release | adopt | resetMetrics | remark => exact hs
  | share =>
    refine hs.next (Heap.claims_keep_block ?_ Heap.blocks_addStrong fun _ _ _ _ => rfl) ?_
    all_goals simp
  | observe =>
    refine hs.next (Heap.claims_keep_block ?_ Heap.blocks_addWeak fun _ _ _ _ => rfl) ?_
    all_goals simp
  | lock _ _ alive =>
    have hb := Heap.blocks_addStrongIfAlive alive
    refine hs.next (Heap.claims_keep_block ?_ hb fun _ _ _ _ => rfl) ?_
    all_goals simp
  | refuseLock =>
    refine hs.next (Heap.claims_congr ?_ ?_) ?_
    all_goals simp
  | construct _ hc =>
    obtain ⟨h₁, o, hc₁, -, rfl⟩ := Unique.construct_eq hc
    have h₁ : Booked h₁ := Booked.construct hs hc₁
    exact h₁
  | copyIn _ hc => exact Booked.construct hs hc
  | promote hc =>
    obtain ⟨-, ho, n, hn, hb, hl, -⟩ := Heap.createBlock_ok hc
    intro live a'
    rw [Heap.claims_push_block ho hb, hs live a', hl, Heap.entries_request, hn]
    simp only [Block.claim?, Option.map_some, ne_eq, Bool.false_eq, Bool.not_eq_false]
    rfl
  | refuseBlock _ hc =>
    obtain ⟨-, ho, hb, hn, hl, -⟩ := Heap.createBlock_error hc
    intro live a'
    rw [Heap.claims_congr ho hb, hs live a', hl, Heap.entries_request, hn]
    simp only [Option.map_none, ite_self, Option.toList_none, Multiset.coe_nil, add_zero]
    rfl
  | @write h K x p c value _ _ hc =>
    refine hs.next ?_ (by simp)
    cases hp : p.origin with
    | static s => exact Heap.claims_congr (Heap.objects_write_static hp c) (by simp)
    | object o =>
      refine Heap.claims_keep_object (Heap.objects_write_object hp c) (by simp) fun y _ _ hy => ?_
      simp only [Object.claim?, (layout_written hc hp hy).2]
  | setBudget limit =>
    intro live a
    cases a <;> exact hs live _

/-! ## Losses -/

/-- The memory of a block is out as long as the block is not freed. -/
theorem Booked.block {b : BlockId} {x : Block} (hs : Booked h) (hx : h.blocks[b]? = some x) :
    (x.serial, .block x.kind.isSized) ∈ (h.ledger x.alloc).entries !x.freed := by
  rw [← hs]
  refine Multiset.mem_add.mpr (.inr (Multiset.mem_coe.mpr (List.mem_filterMap.mpr ⟨x, ?_, ?_⟩)))
  · exact List.mem_iff_getElem?.mpr ⟨b, by simpa using hx⟩
  · cases hf : x.freed <;> simp [Block.claim?, hf]

/-- That of an object is out as long as the object is not gone. -/
theorem Booked.object {o n : Nat} {x : Object} (hs : Booked h) (hx : h.objects[o]? = some x)
    (hn : x.serial = some n) :
    (n, x.content.layout) ∈ (h.ledger x.alloc).entries (x.phase ≠ .gone) := by
  rw [← hs]
  refine Multiset.mem_add.mpr (.inl (Multiset.mem_coe.mpr (List.mem_filterMap.mpr ⟨x, ?_, ?_⟩)))
  · exact List.mem_iff_getElem?.mpr ⟨o, by simpa using hx⟩
  · simp [Object.claim?, hn]

theorem Booked.holds_block {b : BlockId} {x : Block} (hs : Booked h) (hx : h.blocks[b]? = some x)
    (hf : x.freed = false) :
    (h.ledger x.alloc).holds x.serial (.block x.kind.isSized) = true := by
  have hmem := hs.block hx
  rw [hf] at hmem
  exact Ledger.holds_iff.mpr hmem

theorem Booked.holds_object {o n : Nat} {x : Object} (hs : Booked h) (hx : h.objects[o]? = some x)
    (hp : x.phase ≠ .gone) (hn : x.serial = some n) :
    (h.ledger x.alloc).holds n x.content.layout = true := by
  have hmem := hs.object hx hn
  rw [decide_eq_true hp] at hmem
  exact Ledger.holds_iff.mpr hmem

/-- An allocation is given back when what was in it is in it no more. -/
theorem Booked.giveBack {g : Heap} {n : Nat} {l : Layout} (hs : Booked h)
    (hl : (h.ledger a).holds n l = true) (hg : g.ledger = h.ledger)
    (hh : h' = g.giveBack a n l)
    (hc : ∀ live a', h'.claims live a' +
        (if live = true ∧ a = a' then some (n, l) else none).toList =
      h.claims live a' + (if live = false ∧ a = a' then some (n, l) else none).toList) :
    Booked h' := by
  intro live a'
  have hc := hc live a'
  rw [hs live a'] at hc
  rw [hh, Heap.ledger_giveBack, ← hh, hg]
  by_cases heq : a = a'
  · subst heq
    simp only [and_true] at hc
    rw [← Ledger.entries_giveBack live hl] at hc
    rw [if_pos rfl]
    exact add_right_cancel hc
  · simpa [heq] using hc

/-- They do when a weak reference goes. -/
theorem Booked.releaseWeak {b : BlockId} {x : Block} (hs : Booked h) (hx : h.blocks[b]? = some x)
    (hf : x.freed = false) (hw : 0 < x.weak) (hstrong : x.weak = 1 → x.strong = 0) :
    Booked (h.releaseWeak b) := by
  by_cases last : x.weak = 1
  · have hlast := Heap.releaseWeak_last hx hf last (hstrong last)
    refine hs.giveBack (hs.holds_block hx hf) ?_ hlast fun live a' => ?_
    · rfl
    have hc := Heap.claims_modify_block (by simp) Heap.blocks_releaseWeak hx live a'
    cases live <;> simpa [Block.claim?, hf, last] using hc
  · have hmore : (x.weak == 1) = false := by simpa using last
    refine hs.next ?_ ?_
    · refine Heap.claims_keep_block (by simp) Heap.blocks_releaseWeak fun y _ _ hy => ?_
      rw [hx] at hy
      cases hy
      simp only [Block.claim?, hmore, Bool.or_false]
    · rw [Heap.releaseWeak_others hx hf hw last]
      rfl

theorem Booked.clearImplicit (hs : Booked h) (b : BlockId) :
    Booked (h.updateBlock b fun x => { x with implicitWeak := false }) :=
  hs.next (Heap.claims_keep_block (f := fun x => { x with implicitWeak := false }) rfl rfl
    fun _ _ _ _ => rfl) rfl

/-- The destructor of an object that is alive leaves it where it is. -/
theorem Booked.beginDestruction {o : ObjectId} (hs : Booked h) (hp : h.phase? o = some .alive) :
    Booked (h.beginDestruction o).1 := by
  refine hs.next ?_ Heap.ledger_beginDestruction
  refine Heap.claims_keep_object Heap.objects_beginDestruction (by simp) fun x _ _ hx => ?_
  have hx : x.phase = .alive := by simpa [Heap.phase?, hx] using hp
  simp [Object.claim?, hx]

/-- They do when an object is gone. -/
theorem Booked.endDestruction {o : ObjectId} (hs : Booked h) (hp : h.phase? o = some .dying) :
    Booked (h.endDestruction o) := by
  obtain ⟨x, hx, hphase⟩ := Option.map_eq_some_iff.mp hp
  have hc := Heap.claims_modify_object Heap.objects_endDestruction (by simp) hx
  have heq := Heap.endDestruction_eq hx
  cases hn : x.serial with
  | none =>
    rw [hn] at heq
    refine hs.next ?_ (by rw [heq]; rfl)
    funext live a
    simpa [Object.claim?, hn] using hc live a
  | some n =>
    rw [hn] at heq
    refine hs.giveBack (g := h.updateObject o fun x => { x with phase := .gone })
      (hs.holds_object hx (by simp [hphase]) hn) rfl heq fun live a' => ?_
    simpa [Object.claim?, hn, hphase] using hc live a'

/-- They do after every loss. -/
theorem Loss.booked {t : Scene} (hl : Loss h K k t) (hscope : Scoped (h, k ::ₘ K))
    (hcounted : Counted (h, k ::ₘ K)) (howned : Owned (h, k ::ₘ K)) (hs : Booked h) :
    Booked t.1 := by
  have hkeep {b : BlockId} {g : Heap} {f : Block → Block} (hg : g.objects = h.objects)
      (hb : g.blocks = h.blocks.modify b f) (hl : g.ledger = h.ledger)
      (hf : ∀ x live a, (f x).claim? live a = x.claim? live a) : Booked g :=
    hs.next (Heap.claims_keep_block hg hb fun x live a _ => hf x live a) hl
  cases hl with
  | free | leak => exact hs
  | release => exact hkeep (by simp) Heap.blocks_releaseStrong (by simp) fun _ _ _ => rfl
  | @dispose p b o hb last ho =>
    have htake : Booked ((h.releaseStrong b).1.takePointee b).1 :=
      hkeep (by simp) Heap.blocks_takePointee_releaseStrong (by simp) fun _ _ _ => rfl
    refine htake.beginDestruction ?_
    rw [Heap.phase?_congr (h := h) (by simp) o]
    rw [Heap.takePointee_releaseStrong_snd] at ho
    obtain ⟨x, hx, ho⟩ := Option.bind_eq_some_iff.mp ho
    have := Heap.managers_pos ⟨b, x, hx, ho⟩
    refine howned.alive hscope ?_
    simp only [Scene.owners]
    omega
  | disposeNothing =>
    exact hkeep (by simp) Heap.blocks_takePointee_releaseStrong (by simp) fun _ _ _ => rfl
  | @unobserve w b hb =>
    have hx := Array.getElem?_eq_getElem (hscope.head.block hb)
    have hagree := hcounted b _ hx
    obtain ⟨hw, hlast⟩ := hagree.observed (Multiset.mem_cons_self _ _) hb
    exact hs.releaseWeak hx (hagree.unfreed hw) hw hlast
  | destroy ho =>
    refine hs.beginDestruction (howned.alive hscope ?_)
    simp only [Scene.owners, tally_cons, Stake.reads_pointer, Slot.reads_unique, ho, ↓reduceIte]
    omega
  | reclaim => exact hs.endDestruction (howned.dying hscope (by simp))
  | @giveUp b =>
    have hx := Array.getElem?_eq_getElem (hscope.head.block rfl)
    have hagree := hcounted b _ hx
    obtain ⟨hw, hstrong⟩ := hagree.disposing (Multiset.mem_cons_self _ _)
    have hx' := Array.getElem?_modify_self (fun x : Block => { x with implicitWeak := false }) hx
    have hdone := (hs.clearImplicit b).releaseWeak hx' (hagree.unfreed hw) hw fun _ => hstrong
    unfold Heap.giveUpImplicit
    exact hdone

theorem Shift.booked {s t : Scene} (hc : Shift Y s t) (hs : Booked s.1) : Booked t.1 := by
  cases hc with
  | change hc => exact hc.booked hs
  | @relink h K o t =>
    refine hs.next ?_ rfl
    exact Heap.claims_keep_object (f := fun x => { x with links := t }) rfl rfl fun _ _ _ _ => rfl

/-! ## All invariants -/

/-- What holds of a scene at every moment, also in the middle of a step. -/
structure Sound (s : Scene) : Prop where
  scope : Scoped s
  counted : Counted s
  owned : Owned s
  booked : Booked s.1

theorem Sound.loss {t : Scene} (hs : Sound (h, k ::ₘ K)) (hl : Loss h K k t) : Sound t where
  scope := hl.scoped hs.scope
  counted := hl.counted hs.counted
  owned := hl.owned hs.scope hs.owned
  booked := hl.booked hs.scope hs.counted hs.owned hs.booked

theorem Sound.shift {s t : Scene} (hs : Sound s) (hc : Shift Y s t) : Sound t where
  scope := hc.scoped hs.scope
  counted := hc.counted hs.scope hs.counted
  owned := hc.owned hs.scope hs.owned
  booked := hc.booked hs.booked

/-- How many requests will be granted is nothing that an invariant says. -/
theorem Sound.ration {m : Machine} (hs : Sound m.scene) (limits : Alloc → Option Nat) :
    Sound (m.ration limits).scene where
  scope := ⟨fun k hk => (hs.scope.stakes k hk).mono ⟨Nat.le_refl _, Nat.le_refl _⟩,
    hs.scope.pointees⟩
  counted := hs.counted
  owned := hs.owned
  booked live a := by cases a <;> exact hs.booked live _

theorem Sound.empty : Sound (.empty, 0) where
  scope := scoped_empty
  counted := counted_empty
  owned := owned_empty
  booked live a := by cases live <;> cases a <;> rfl

/-- What losses, shifts and new budgets keep of a sound scene holds in every reachable state. -/
theorem Machine.Reachable.sound_induction {P : Scene → Prop} {m : Machine} (hm : m.Reachable)
    (hempty : P (.empty, 0))
    (hration : ∀ {m : Machine} limits, P m.scene → P (m.ration limits).scene)
    (hloss : ∀ {h K k s}, Sound (h, k ::ₘ K) → P (h, k ::ₘ K) → Loss h K k s → P s)
    (hshift : ∀ {Y s t}, Sound s → P s → Shift Y s t → P t) : Sound m.scene ∧ P m.scene :=
  hm.scene_induction (P := fun s => Sound s ∧ P s) ⟨.empty, hempty⟩
    (fun limits hs => ⟨hs.1.ration limits, hration limits hs.2⟩)
    (fun _ hs hl => ⟨hs.1.loss hl, hloss hs.1 hs.2 hl⟩)
    fun _ hs hc => ⟨hs.1.shift hc, hshift hs.1 hs.2 hc⟩

theorem Machine.Reachable.sound {m : Machine} (hm : m.Reachable) : Sound m.scene :=
  (hm.sound_induction (P := fun _ => True) trivial (fun _ _ => trivial) (fun _ _ _ => trivial)
    fun _ _ _ => trivial).1

theorem Machine.IsRationed.sound {run : Nat → Machine} (hr : Machine.IsRationed run) (n : Nat) :
    Sound (run n).scene :=
  (hr.reachable n).sound

end

end Custody
