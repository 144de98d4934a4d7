import Custody.Proofs.Exclusion
import Custody.Proofs.StrongSide

/-!
# Every pointer shows what suits its kind

* `Content.exists_at?_withAt`: where something was written there still is something of its kind.
* `Kind.isRigid`, `Content.at?_of_rigid`: contents whose parts depend on their kind and layout
  alone.
* `Slot.Reaches`: where a pointer leads now, or leads always, as to a standing value.
* `Legible`: what pointers reach is there, and suits their kinds. Changes, losses and shifts keep
  it, so it holds in every reachable state (`Machine.IsRationed.legible`).
-/

namespace Custody

variable {Y : Option Place}

/-! ## Contents -/

/-- Contents of these kinds have the parts that their layout says. What a node or a string has
depends on what it is. -/
def Kind.isRigid : Kind → Bool
  | .node | .string | .any | .anySend | .anySync | .shape | .disp => false
  | .int | .uint | .byte | .wide | .square | .unit | .str | .slice => true

theorem Static.isRigid_kind (s : Static) : s.kind.isRigid = true := by
  cases s <;> rfl

namespace Content

variable {f : Field} {path : List Field} {c c' d v w : Content}

theorem drop_take_splice {α : Type} {xs ys : List α} {i j : Nat} (hi : i ≤ xs.length)
    (hy : ys.length = j - i) : ((xs.take i ++ ys ++ xs.drop j).drop i).take (j - i) = ys := by
  have hlen : (xs.take i).length = i := List.length_take_of_le hi
  rw [List.append_assoc, List.drop_left' hlen, List.take_left' hy]

theorem toUInt8_shiftLeft (n : UInt64) : (n >>> 8 <<< 8).toUInt8 = 0 := by
  apply UInt8.toBitVec_inj.mp
  ext i hi
  simp

/-- What was written is read there. -/
theorem part?_withPart (hf : f ≠ .label) (hv : c.part? f = some v) (hk : w.kind = v.kind)
    (hl : w.layout = v.layout) : (withPart f w c).part? f = some w := by
  unfold part? at hv
  split at hv
  case h_7 i xs =>
    obtain ⟨n, hn, rfl⟩ := Option.map_eq_some_iff.mp hv
    obtain ⟨hi, -⟩ := List.getElem?_eq_some_iff.mp hn
    cases w with
    | int m => simp [withPart, part?, hi]
    | _ => cases hk
  case h_8 i lanes =>
    obtain ⟨n, hn, rfl⟩ := Option.map_eq_some_iff.mp hv
    obtain ⟨hi, -⟩ := Vector.getElem?_eq_some_iff.mp hn
    cases w with
    | uint m => simp [withPart, part?, hi]
    | _ => cases hk
  case h_9 i j xs =>
    obtain ⟨hij, hv⟩ := Option.ite_none_right_eq_some.mp hv
    cases hv
    cases w with
    | slice ys =>
      have hy : ys.length = j - i := by
        simp [layout] at hl
        omega
      have hlen : j ≤ (xs.take i ++ ys ++ xs.drop j).length := by
        simp
        omega
      simp only [withPart, part?, hij.1, hlen, and_self, ↓reduceIte]
      rw [drop_take_splice (by omega) hy]
    | _ => cases hk
  case h_10 i j s =>
    obtain ⟨hij, hv⟩ := Option.ite_none_right_eq_some.mp hv
    cases hv
    cases w with
    | str t =>
      simp only [Utf8.size] at hij
      have hy : t.bytes.length = j - i := by
        simp [layout, Utf8.size] at hl
        omega
      have hlen : j ≤ (s.bytes.take i ++ t.bytes ++ s.bytes.drop j).length := by
        simp
        omega
      simp only [withPart, part?, Utf8.size, hij.1, hlen, and_self, ↓reduceIte]
      rw [drop_take_splice (by omega) hy]
    | _ => cases hk
  case h_11 => exact absurd rfl hf
  case h_12 n =>
    cases hv
    cases w with
    | byte b => simp [withPart, part?, toUInt8_shiftLeft]
    | _ => cases hk
  case h_13 s =>
    obtain ⟨n, hn, rfl⟩ := Option.map_eq_some_iff.mp hv
    cases w with
    | byte b =>
      obtain ⟨_ | ⟨x, xs⟩⟩ := s
      · cases hn
      · rfl
    | _ => cases hk
  case h_17 => cases hv
  all_goals
    cases hv
    cases w <;> cases hk
    rfl

/-- Where something was written there still is something of its kind. It need not be what was
written: the label of a square is not. -/
theorem exists_at?_withAt (hv : c.at? path = some v) (hk : w.kind = v.kind)
    (hl : w.layout = v.layout) : ∃ u, (withAt path w c).at? path = some u ∧ u.kind = v.kind := by
  induction path generalizing c with
  | nil =>
    cases hv
    exact ⟨w, rfl, hk⟩
  | cons f path ih =>
    obtain ⟨d, hd, hv⟩ := Option.bind_eq_some_iff.mp hv
    simp only [withAt, hd, at?]
    by_cases hf : f = .label
    · subst hf
      have hsame : withPart .label (withAt path w d) c = c := by
        unfold withPart
        split <;> first | rfl | contradiction
      rw [hsame]
      exact ⟨v, hv, rfl⟩
    · obtain ⟨hkind, hlayout⟩ := layout_withAt hv hk hl
      rw [part?_withPart hf hd hkind hlayout]
      exact ih hv

/-- What has a part of some kind and layout shares that with all of its kind and layout. -/
theorem part?_of_rigid (hc : c.kind.isRigid = true) (hk : c'.kind = c.kind)
    (hl : c'.layout = c.layout) (hd : c.part? f = some d) : ∃ d', c'.part? f = some d' ∧
      d'.kind = d.kind ∧ d'.layout = d.layout ∧ d.kind.isRigid = true := by
  unfold part? at hd
  split at hd
  case h_7 i xs =>
    obtain ⟨n, hn, rfl⟩ := Option.map_eq_some_iff.mp hd
    obtain ⟨hi, -⟩ := List.getElem?_eq_some_iff.mp hn
    cases c' with
    | slice ys =>
      have hlen : i < ys.length := by
        simp only [layout, Layout.mk.injEq] at hl
        omega
      exact ⟨.int ys[i], by simp [part?, hlen], rfl, rfl, rfl⟩
    | _ => cases hk
  case h_8 i lanes =>
    obtain ⟨n, hn, rfl⟩ := Option.map_eq_some_iff.mp hd
    obtain ⟨hi, -⟩ := Vector.getElem?_eq_some_iff.mp hn
    cases c' with
    | wide lanes' => exact ⟨.uint lanes'[i], by simp [part?, hi], rfl, rfl, rfl⟩
    | _ => cases hk
  case h_9 i j xs =>
    obtain ⟨hij, hd⟩ := Option.ite_none_right_eq_some.mp hd
    cases hd
    cases c' with
    | slice ys =>
      have hlen : j ≤ ys.length := by
        simp only [layout, Layout.mk.injEq] at hl
        omega
      refine ⟨.slice ((ys.drop i).take (j - i)), by simp [part?, hij.1, hlen], rfl, ?_, rfl⟩
      simp only [layout, Layout.mk.injEq, List.length_take, List.length_drop, and_true]
      omega
    | _ => cases hk
  case h_10 i j t =>
    obtain ⟨hij, hd⟩ := Option.ite_none_right_eq_some.mp hd
    cases hd
    cases c' with
    | str u =>
      have hsize : u.size = t.size := by simpa [layout] using hl
      refine ⟨.str ⟨(u.bytes.drop i).take (j - i)⟩, by simp [part?, hsize, hij], rfl, ?_, rfl⟩
      simp only [Utf8.size] at hij hsize
      simp only [layout, Utf8.size, Layout.mk.injEq, List.length_take, List.length_drop, and_true]
      omega
    | _ => cases hk
  case h_13 t =>
    obtain ⟨n, hn, rfl⟩ := Option.map_eq_some_iff.mp hd
    cases c' with
    | str u =>
      have hsize : u.bytes.length = t.bytes.length := by simpa [layout, Utf8.size] using hl
      obtain ⟨_ | ⟨x, xs⟩⟩ := u
      · cases ht : t.bytes with
        | nil => simp [ht] at hn
        | cons => simp [ht] at hsize
      · exact ⟨.byte x, rfl, rfl, rfl, rfl⟩
    | _ => cases hk
  case h_17 => cases hd
  -- The other parts are of numbers, which are all alike, or of a node or a string.
  all_goals
    cases hd
    first
    | (cases c' <;> cases hk; exact ⟨_, rfl, rfl, rfl, rfl⟩)
    | cases hc

/-- Content of a fixed form has the same parts, whatever is in them. -/
theorem at?_of_rigid (hc : c.kind.isRigid = true) (hk : c'.kind = c.kind)
    (hl : c'.layout = c.layout) (hd : c.at? path = some d) :
    ∃ d', c'.at? path = some d' ∧ d'.kind = d.kind := by
  induction path generalizing c c' with
  | nil =>
    cases hd
    exact ⟨c', rfl, hk⟩
  | cons f path ih =>
    obtain ⟨e, he, hd⟩ := Option.bind_eq_some_iff.mp hd
    obtain ⟨e', he', hkind, hlayout, hrigid⟩ := part?_of_rigid hc hk hl he
    obtain ⟨d', hd', hd'k⟩ := ih hrigid hkind hlayout hd
    exact ⟨d', by rw [at?, he', Option.bind_some, hd'], hd'k⟩

end Content

/-! ## Heaps -/

namespace Statics

theorem get_set (s : Statics) (i j : Static) (c : Content) :
    (s.set i c).get j = if j = i then c else s.get j := by
  cases i <;> cases j <;> rfl

end Statics

namespace Heap

variable {h h' h'' : Heap} {p : Place} {b : BlockId} {o : ObjectId} {a : Alloc} {c d : Content}
  {k : Kind}

@[simp] theorem statics_expect (ok : Block → Bool) (e : Breach) :
    (h.expect b ok e).statics = h.statics :=
  congrArg Estate.statics (estate_expect ok e)

@[simp] theorem statics_addStrong : (h.addStrong b).statics = h.statics :=
  congrArg Estate.statics estate_addStrong

@[simp] theorem statics_recordExpiredLock : (h.recordExpiredLock b).statics = h.statics :=
  statics_expect _ _

@[simp] theorem statics_addStrongIfAlive : (h.addStrongIfAlive b).statics = h.statics := by
  unfold addStrongIfAlive
  split
  · exact statics_recordExpiredLock
  · exact statics_expect _ _

@[simp] theorem statics_addWeak : (h.addWeak b).statics = h.statics :=
  congrArg Estate.statics estate_addWeak

@[simp] theorem statics_releaseStrong : (h.releaseStrong b).1.statics = h.statics :=
  congrArg Estate.statics estate_releaseStrong

@[simp] theorem statics_takePointee : (h.takePointee b).1.statics = h.statics :=
  congrArg Estate.statics estate_takePointee

@[simp] theorem statics_releaseWeak : (h.releaseWeak b).statics = h.statics :=
  congrArg Estate.statics estate_releaseWeak

@[simp] theorem statics_giveUpImplicit : (h.giveUpImplicit b).statics = h.statics :=
  congrArg Estate.statics estate_giveUpImplicit

@[simp] theorem statics_beginDestruction : (h.beginDestruction o).1.statics = h.statics :=
  congrArg Estate.statics estate_beginDestruction

@[simp] theorem statics_endDestruction : (h.endDestruction o).statics = h.statics :=
  congrArg Estate.statics estate_endDestruction

theorem statics_createBlock (k : Kind) (a : Alloc) (o : ObjectId) :
    (h.createBlock k a o).1.statics = h.statics := by
  have hrequest := statics_request (h := { h with nextId := h.nextId + 1 }) a (.block k.isSized)
  simp only [createBlock]
  split <;> exact hrequest

theorem statics_construct (q : Pointee) (a : Alloc) : (h.construct q a).1.statics = h.statics := by
  simp only [construct]
  split
  · rfl
  · exact statics_request a q.content.layout

theorem read?_of_origin (hp : p.origin = .object o) :
    h.read? p = h.objects[o]?.bind fun x => x.content.at? p.path := by
  rw [read?, hp, origin?, Option.bind_map]
  rfl

theorem read?_of_static {i : Static} (hp : p.origin = .static i) :
    h.read? p = (h.statics.get i).at? p.path := by
  rw [read?, hp, origin?, Option.bind_some]

/-- What is to be read in the first heap is to be read in the second one. -/
structure Retains (h h' : Heap) : Prop where
  objects : ∀ (o : ObjectId) (x : Object), h.objects[o]? = some x →
    ∃ y, h'.objects[o]? = some y ∧ y.content = x.content
  statics : h'.statics = h.statics

namespace Retains

theorem of_eq (ho : h'.objects = h.objects) (hs : h'.statics = h.statics) : h.Retains h' :=
  ⟨fun o x hx => ⟨x, by rwa [ho], rfl⟩, hs⟩

theorem trans (hr : h.Retains h') (hr' : h'.Retains h'') : h.Retains h'' := by
  refine ⟨fun o x hx => ?_, hr'.statics.trans hr.statics⟩
  obtain ⟨y, hy, hxy⟩ := hr.objects o x hx
  obtain ⟨z, hz, hyz⟩ := hr'.objects o y hy
  exact ⟨z, hz, hyz.trans hxy⟩

theorem push {x : Object} (ho : h'.objects = h.objects.push x) (hs : h'.statics = h.statics) :
    h.Retains h' := by
  refine ⟨fun o y hy => ?_, hs⟩
  obtain ⟨hlt, -⟩ := Array.getElem?_eq_some_iff.mp hy
  exact ⟨y, by rw [ho, Array.getElem?_push_lt hlt, ← hy, Array.getElem?_eq_getElem hlt], rfl⟩

theorem modify {f : Object → Object} (ho : h'.objects = h.objects.modify o f)
    (hf : ∀ x, (f x).content = x.content) (hs : h'.statics = h.statics) : h.Retains h' := by
  refine ⟨fun o' x hx => ?_, hs⟩
  rw [ho, Array.getElem?_modify]
  split
  · exact ⟨f x, by rw [hx, Option.map_some], hf x⟩
  · exact ⟨x, hx, rfl⟩

/-- What could be read is still read. -/
theorem read? (hr : h.Retains h') (hc : h.read? p = some c) : h'.read? p = some c := by
  cases hp : p.origin with
  | static i =>
    rw [read?_of_static hp] at hc ⊢
    rw [hr.statics]
    exact hc
  | object o =>
    rw [read?_of_origin hp] at hc ⊢
    obtain ⟨x, hx, hc⟩ := Option.bind_eq_some_iff.mp hc
    obtain ⟨y, hy, hxy⟩ := hr.objects o x hx
    rw [hy, Option.bind_some, hxy]
    exact hc

theorem shows (hr : h.Retains h') (hs : h.Shows k p) : h'.Shows k p := by
  obtain ⟨c, hc, hk⟩ := hs
  exact ⟨c, hr.read? hc, hk⟩

end Retains

/-- Where something is written there still is something of its kind. -/
theorem Shows.write (hs : h.Shows k p) (hd : h.read? p = some d) (hk : c.kind = d.kind)
    (hl : c.layout = d.layout) : (h.write p c).Shows k p := by
  obtain ⟨d', hd', hsuits⟩ := hs
  obtain rfl : d' = d := Option.some.inj (hd'.symm.trans hd)
  cases hp : p.origin with
  | static i =>
    rw [read?_of_static hp] at hd
    obtain ⟨u, hu, huk⟩ := Content.exists_at?_withAt hd hk hl
    refine ⟨u, ?_, hsuits.congr huk⟩
    rw [read?_of_static hp]
    simp only [Heap.write, hp, Statics.get_set, ↓reduceIte]
    exact hu
  | object o =>
    rw [read?_of_origin hp] at hd
    obtain ⟨x, hx, hd⟩ := Option.bind_eq_some_iff.mp hd
    obtain ⟨u, hu, huk⟩ := Content.exists_at?_withAt hd hk hl
    refine ⟨u, ?_, hsuits.congr huk⟩
    rw [read?_of_origin hp, objects_write_object hp, Array.getElem?_modify, if_pos rfl, hx]
    exact hu

end Heap

/-! ## Pointers -/

section

variable {h h' : Heap} {K : Multiset Stake} {k : Stake} {x y : Slot} {p : Place} {s t : Scene}

/-- Where the pointer leads now, or leads always: standing values do not go. -/
def Slot.Reaches (h : Heap) (x : Slot) (p : Place) : Prop :=
  x.leads? h = some p ∨ x.view? = some p ∧ ∃ i, p.origin = .static i

theorem Slot.Reaches.view? (hp : x.Reaches h p) : x.view? = some p :=
  hp.elim view?_of_leads? And.left

/-- What is written leads nowhere else. -/
theorem Slot.reaches_congr (hb : h'.blocks = h.blocks) : x.Reaches h' p ↔ x.Reaches h p := by
  rw [Reaches, leads?_congr hb, Reaches]

/-- What leads somewhere later led there before, if no block comes back to life. -/
theorem Slot.leads?_of_becomes (hx : x.Within h)
    (hb : ∀ (b : BlockId) (x : Block), h.blocks[b]? = some x →
      ∃ y, h'.blocks[b]? = some y ∧ x.Becomes y)
    (hp : x.leads? h' = some p) : x.leads? h = some p := by
  cases x with
  | weak w =>
    obtain ⟨hview, b, hblock, hne⟩ := leads?_weak.mp hp
    obtain ⟨y, hy, hxy⟩ := hb b _ (Array.getElem?_eq_getElem (hx.block b hblock))
    refine leads?_weak.mpr ⟨hview, b, hblock, fun hzero => hne ?_⟩
    rw [Heap.strongCount_eq hy]
    refine hxy.strong ?_
    rwa [← Heap.strongCount_eq (Array.getElem?_eq_getElem (hx.block b hblock))]
  | strong | unique | raw => exact hp

/-- What pointers reach suits their kinds, and so do the standing values theirs. -/
structure Legible (s : Scene) : Prop where
  statics : ∀ i, (s.1.statics.get i).kind = i.kind
  shows : ∀ x p, .pointer x ∈ s.2 → x.Reaches s.1 p → s.1.Shows x.kind p

theorem legible_empty : Legible (.empty, 0) where
  statics i := by cases i <;> rfl
  shows x p hx := by simp at hx

theorem Legible.tail (hs : Legible (h, k ::ₘ K)) : Legible (h, K) where
  statics := hs.statics
  shows x p hx := hs.shows x p (Multiset.mem_cons_of_mem hx)

theorem Legible.cons (hs : Legible (h, K)) (hx : ∀ p, x.Reaches h p → h.Shows x.kind p) :
    Legible (h, .pointer x ::ₘ K) where
  statics := hs.statics
  shows y p hy := by
    rcases Multiset.mem_cons.mp hy with hy | hy
    · cases hy
      exact hx p
    · exact hs.shows y p hy

/-- What is due after a destructor shows nothing. -/
theorem Legible.due (hs : Legible (h, K)) (hk : ∀ x, k ≠ .pointer x) : Legible (h, k ::ₘ K) where
  statics := hs.statics
  shows x p hx := by
    rcases Multiset.mem_cons.mp hx with hx | hx
    · exact absurd hx.symm (hk x)
    · exact hs.shows x p hx

theorem Legible.next (hs : Legible (h, K)) (hscope : Scoped (h, K))
    (hb : ∀ (b : BlockId) (x : Block), h.blocks[b]? = some x →
      ∃ y, h'.blocks[b]? = some y ∧ x.Becomes y)
    (hr : h.Retains h') : Legible (h', K) where
  statics i := by
    rw [hr.statics]
    exact hs.statics i
  shows x p hx hp :=
    hr.shows (hs.shows x p hx (hp.imp_left (Slot.leads?_of_becomes (hscope.stakes _ hx) hb)))

/-- A pointer that is made from another one shows a part of what that shows, or a standing value. -/
theorem Legible.begets (hs : Legible (h, K)) (hv : Viewed (h, K)) (hx : .pointer x ∈ K)
    (hxy : x.Begets Y h y) (hp : y.view? = some p)
    (halive : (∃ i, p.origin = .static i) ∨ ∀ b, y.block? = some b → h.strongCount b ≠ 0) :
    h.Shows y.kind p := by
  have hview := hxy.view
  rw [hp] at hview
  generalize hu : x.lends? = u at hview
  cases hview with
  | @static _ _ i hY hk => exact ⟨h.statics.get i, rfl, .inr ((hs.statics i).trans hk)⟩
  | @part _ q path _ hshows =>
    refine hshows (hs.shows x q hx ?_)
    cases hq : q.origin with
    | static i => exact .inr ⟨Slot.view?_of_lends? hu, i, hq⟩
    | object o =>
      obtain ⟨b, z, hb, -, -⟩ := hv x q o hx hu hq
      rcases halive with ⟨i, hi⟩ | halive
      · have hi : q.origin = .static i := hi
        rw [hq] at hi
        cases hi
      cases x with
      | strong r => exact .inl hu
      | weak w => exact .inl (Slot.leads?_weak.mpr ⟨hu, b, hb, halive b (hxy.block.trans hb)⟩)
      | unique | raw => cases hu

/-- A pointer to a whole object shows it. -/
theorem Heap.shows_whole {o : ObjectId} {z : Object} {k : Kind} (hz : h.objects[o]? = some z)
    (hk : k.Suits z.content) : h.Shows k (.whole o) :=
  ⟨z.content, by rw [read?_of_origin (o := o) rfl, hz]; rfl, hk⟩

theorem Heap.construct_shows {q : Pointee} {a : Alloc} {o : ObjectId} {r : Option Layout}
    {k : Kind} (hk : k.Suits q.content) (hc : h.construct q a = (h', o, r)) :
    h.Retains h' ∧ h'.Shows k (.whole o) := by
  obtain ⟨rfl, -, serial, ho, -⟩ := Heap.construct_eq hc
  have hstatics : h'.statics = h.statics :=
    (congrArg (·.1.statics) hc).symm.trans (Heap.statics_construct q a)
  exact ⟨.push ho hstatics, shows_whole (by rw [ho, Array.getElem?_push_size]) hk⟩

theorem Unique.construct_shows {q : Pointee} {a : Alloc} {u : Unique} {r : Option Layout}
    {k : Kind} (hk : k.Suits q.content) (hc : Unique.construct k q a h = (h', u, r)) :
    ∃ o, u = ⟨k, a, some o⟩ ∧ h.Retains h' ∧ h'.Shows k (.whole o) := by
  obtain ⟨h₁, o, hc₁, rfl, rfl⟩ := Unique.construct_eq hc
  obtain ⟨hr, hshows⟩ := Heap.construct_shows hk hc₁
  exact ⟨o, rfl, hr.trans (.of_eq rfl rfl), hshows⟩

theorem Legible.cons_whole {o : ObjectId} (hs : Legible (h, K)) (hx : x.view? = some (.whole o))
    (hshows : h.Shows x.kind (.whole o)) : Legible (h, .pointer x ::ₘ K) := by
  refine hs.cons fun p hp => ?_
  obtain rfl : Place.whole o = p := Option.some.inj (hx.symm.trans hp.view?)
  exact hshows

/-- A write keeps what the pointer itself reaches of its kind. No other pointer reaches into the
same object, and of a standing value the parts stay whatever is written. -/
theorem Legible.write {c : Content} {value : Literal} (hs : Legible (h, K)) (hsound : Sound (h, K))
    (hv : Viewed (h, K)) (hx : .pointer x ∈ K) (hp : x.writable? h = some (some p))
    (hc : written? h x.kind p value = some c) : Legible (h.write p c, K) := by
  obtain ⟨d, hd, hk, hl⟩ := written?_eq_some hc
  have hlead := Slot.leads?_of_writable? hp
  refine ⟨fun i => ?_, fun y v hy hreach => ?_⟩
  · cases ho : p.origin with
    | object o =>
      have hsame : (h.write p c).statics = h.statics := by
        simp only [Heap.write, ho]
        rfl
      rw [hsame]
      exact hs.statics i
    | static j =>
      rw [Heap.read?_of_static ho] at hd
      have hkind := (Content.layout_withAt hd hk hl).1
      simp only [Heap.write, ho, Statics.get_set]
      split
      · next heq =>
        subst heq
        exact hkind.trans (hs.statics i)
      · exact hs.statics i
  rw [Slot.reaches_congr (Heap.blocks_write p c)] at hreach
  have hshows := hs.shows y v hy hreach
  cases ho : p.origin with
  | static i =>
    by_cases hvi : v.origin = .static i
    · obtain ⟨e, he, hsuits⟩ := hshows
      rw [Heap.read?_of_static ho] at hd
      rw [Heap.read?_of_static hvi] at he
      obtain ⟨hkind, hlayout⟩ := Content.layout_withAt hd hk hl
      have hrigid : (h.statics.get i).kind.isRigid = true := hs.statics i ▸ i.isRigid_kind
      obtain ⟨e', he', hk'⟩ := Content.at?_of_rigid hrigid hkind hlayout he
      refine ⟨e', ?_, hsuits.congr hk'⟩
      rw [Heap.read?_of_static hvi]
      simpa only [Heap.write, ho, Statics.get_set, ↓reduceIte] using he'
    · exact hshows.congr (Heap.read?_write_of_ne (ho ▸ hvi))
  | object o =>
    by_cases hvo : v.origin = .object o
    · obtain hleads | ⟨-, i, hi⟩ := hreach
      · obtain ⟨L, rfl⟩ := Multiset.exists_cons_of_mem hx
        rcases Multiset.mem_cons.mp hy with hy | hy
        · cases hy
          obtain rfl : v = p := Option.some.inj (hleads.symm.trans hlead)
          exact hshows.write hd hk hl
        · exact absurd hvo (hsound.alone hv hp ho hy hleads)
      · rw [hvo] at hi
        cases hi
    · exact hshows.congr (Heap.read?_write_of_ne (ho ▸ hvo))

/-- Views are legible after every change. -/
theorem Change.legible (hc : Change Y s t) (hsound : Sound s) (hv : Viewed s) (hs : Legible s) :
    Legible t := by
  have hb : ∀ (b : BlockId) (x : Block), s.1.blocks[b]? = some x →
      ∃ y, t.1.blocks[b]? = some y ∧ x.Becomes y := by
    intro b x hx
    obtain ⟨y, hy, hxy⟩ := hc.gains hsound.counted hx
    exact ⟨y, hy, hxy.keeps.toBecomes⟩
  have ht : Sound t := hsound.shift (.change hc)
  -- What a pointer that is made from another one leads to.
  have hmade {x y : Slot} (hx : .pointer x ∈ s.2) (hxy : x.Begets Y s.1 y) (hy : .pointer y ∈ t.2)
      (hr : s.1.Retains t.1) (p : Place) (hp : y.Reaches t.1 p) : t.1.Shows y.kind p := by
    refine hr.shows (hs.begets hv hx hxy hp.view? ?_)
    obtain hleads | ⟨-, hi⟩ := hp
    · refine .inr fun b hblock hzero => ?_
      obtain ⟨z, hz, hne⟩ := ht.strongCount_of_leads? hy hleads hblock
      obtain ⟨w, hw, -, -⟩ := hsound.block (k := .pointer x) hx (hxy.block ▸ hblock)
      obtain ⟨z', hz', hwz⟩ := hb b w hw
      obtain rfl : z' = z := Option.some.inj (hz'.symm.trans hz)
      exact hne (hwz.strong (by rwa [← Heap.strongCount_eq hw]))
    · exact .inl hi
  cases hc with
  | @null h K x _ hnone =>
    refine hs.cons fun p hp => ?_
    rw [hp.view?] at hnone
    cases hnone
  | copy hx hy hxy => exact hs.cons (hmade hx hxy (Multiset.mem_cons_self _ _) (.of_eq rfl rfl))
  | forget => exact hs.tail
  | revise _ hz hzy =>
    exact hs.tail.cons (hmade (Multiset.mem_cons_of_mem hz) hzy (Multiset.mem_cons_self _ _)
      (.of_eq rfl rfl))
  | share hx _ hxy | observe hx _ hxy | lock hx _ _ hxy =>
    exact (hs.next hsound.scope hb (.of_eq (by simp) (by simp))).cons
      (hmade hx hxy (Multiset.mem_cons_self _ _) (.of_eq (by simp) (by simp)))
  | construct hk hc =>
    obtain ⟨o, rfl, hr, hshows⟩ := Unique.construct_shows hk hc
    exact (hs.next hsound.scope hb hr).cons_whole rfl hshows
  | copyIn hk hc =>
    obtain ⟨hr, hshows⟩ := Heap.construct_shows hk hc
    exact (hs.next hsound.scope hb hr).cons_whole rfl hshows
  | @release h K k a o =>
    exact hs.tail.cons_whole rfl
      (hs.shows (.unique ⟨k, a, some o⟩) _ (Multiset.mem_cons_self _ _) (.inl rfl))
  | @adopt h K k a o =>
    exact hs.tail.cons_whole rfl (hs.shows (.raw ⟨k, a, o⟩) _ (Multiset.mem_cons_self _ _) (.inl rfl))
  | @promote h K k a o h' b hc =>
    have hstatics : h'.statics = h.statics :=
      (congrArg (·.1.statics) hc).symm.trans (Heap.statics_createBlock k a o)
    have hr := Heap.Retains.of_eq (Heap.createBlock_ok hc).2.1 hstatics
    refine (hs.tail.next hsound.scope.tail hb hr).cons_whole rfl (hr.shows ?_)
    exact hs.shows (.unique ⟨k, a, some o⟩) _ (Multiset.mem_cons_self _ _) (.inl rfl)
  | @refuseBlock h K k a o h' l _ hc =>
    have hstatics : h'.statics = h.statics :=
      (congrArg (·.1.statics) hc).symm.trans (Heap.statics_createBlock k a o)
    exact hs.next hsound.scope hb (.of_eq (Heap.createBlock_error hc).2.1 hstatics)
  | write hx hp hc => exact hs.write hsound hv hx hp hc
  | refuseLock => exact hs.next hsound.scope hb (.of_eq (by simp) (by simp))
  | setBudget | resetMetrics | remark => exact hs.next hsound.scope hb (.of_eq rfl rfl)

/-- They are so after every loss. -/
theorem Loss.legible (hl : Loss h K k t) (hscope : Scoped (h, k ::ₘ K))
    (hs : Legible (h, k ::ₘ K)) : Legible t := by
  have hb : ∀ (b : BlockId) (x : Block), h.blocks[b]? = some x →
      ∃ y, t.1.blocks[b]? = some y ∧ x.Becomes y := by
    intro b x hx
    obtain ⟨y, hy, hxy⟩ := hl.loses hx
    exact ⟨y, hy, hxy.becomes⟩
  have hbegin {h : Heap} {o : ObjectId} : h.Retains (h.beginDestruction o).1 :=
    .modify Heap.objects_beginDestruction (fun _ => rfl) Heap.statics_beginDestruction
  have hnext (hr : h.Retains t.1) : Legible (t.1, K) := hs.tail.next hscope.tail hb hr
  cases hl with
  | free | leak => exact hs.tail
  | release | unobserve | giveUp => exact hnext (.of_eq (by simp) (by simp))
  | reclaim =>
    exact hnext (.modify Heap.objects_endDestruction (fun _ => rfl) Heap.statics_endDestruction)
  | @dispose p b o =>
    have hr : h.Retains ((h.releaseStrong b).1.takePointee b).1 := .of_eq (by simp) (by simp)
    have hs : Legible (_, .disposal b ::ₘ K) := (hnext (hr.trans hbegin)).due nofun
    exact hs.due nofun
  | disposeNothing => exact (hnext (.of_eq (by simp) (by simp))).due nofun
  | destroy => exact (hnext hbegin).due nofun

theorem Shift.legible (hc : Shift Y s t) (hsound : Sound s) (hv : Viewed s) (hs : Legible s) :
    Legible t := by
  cases hc with
  | change hc => exact hc.legible hsound hv hs
  | @relink h K o table =>
    have hr : h.Retains (h.withLinks o table) :=
      .modify (f := fun x => { x with links := table }) rfl (fun _ => rfl) rfl
    exact hs.next hsound.scope (fun b x hx => ⟨x, hx, .refl x⟩) hr

theorem Legible.ration {m : Machine} (hs : Legible m.scene) (limits : Alloc → Option Nat) :
    Legible (m.ration limits).scene := by
  have hblocks : (m.ration limits).heap.blocks = m.heap.blocks := rfl
  exact ⟨hs.statics, fun x p hx hp => hs.shows x p hx ((Slot.reaches_congr hblocks).mp hp)⟩

end

namespace Machine

theorem IsRationed.legible {run : Nat → Machine} (hr : IsRationed run) (n : Nat) :
    Viewed (run n).scene ∧ Legible (run n).scene :=
  ((hr.reachable n).sound_induction (P := fun s => Viewed s ∧ Legible s) ⟨viewed_empty, legible_empty⟩
    (fun limits hs => ⟨hs.1, hs.2.ration limits⟩)
    (fun hsound hs hl => ⟨hl.viewed hs.1, hl.legible hsound.scope hs.2⟩)
    (fun hsound hs hc => ⟨hc.viewed hsound.counted hs.1, hc.legible hsound hs.1 hs.2⟩)).2

/-- In every reachable state what a strong pointer leads to is there, and suits its kind. -/
theorem IsRationed.shows {run : Nat → Machine} {n : Nat} {q : Strong} {p : Place}
    (hr : IsRationed run) (hq : .strong q ∈ (run n).pointers) (hp : q.view = some p) :
    (run n).heap.Shows q.kind p :=
  (hr.legible n).2.shows (.strong q) p (pointer_mem_stakes_iff.mpr hq) (.inl hp)

end Machine

end Custody
