import Custody.Proofs.Disposal
import Custody.Proofs.Faults
import Custody.Proofs.Views

/-!
# A pointer that may be written is alone

* `Place.within?`: the object that a place is in. `Slot.leads?`: where a pointer leads now.
* `Sound.answers`: what leads into an object owns it, or is on the block that owns it.
* `Sound.alone`: while one pointer to an object may be written, no other one leads into it.
* `Machine.Reachable.written_unseen`: a write through a strong pointer is seen through no other
  pointer, if it is a write into an object. A standing value has no owner to be alone.
-/

namespace Custody

/-- The object that a place is in. The standing values are in none, and neither is the label that
squares share. -/
def Place.within? (p : Place) : Option ObjectId :=
  match p.origin with
  | .object o => if .label ∈ p.path then none else some o
  | .static _ => none

theorem Place.origin_of_within? {p : Place} {o : ObjectId} (h : p.within? = some o) :
    p.origin = .object o ∧ .label ∉ p.path := by
  obtain ⟨_ | s, path⟩ := p
  · simpa [within?, and_comm] using h
  · cases h

/-- Where the pointer leads now. A weak pointer leads where a lock would. -/
def Slot.leads? (h : Heap) : Slot → Option Place
  | strong p => p.view
  | weak w => (w.lock? h).2.bind (·.view)
  | unique u => u.view
  | raw r => some (.whole r.object)

/-- What is read through the pointer now. -/
def Slot.sees? (h : Heap) (x : Slot) : Option Content := (x.leads? h).bind h.read?

section Scene

variable {h h' : Heap} {K : Multiset Stake} {x y : Slot} {p q : Place} {o : ObjectId} {c : Content}

theorem Slot.leads?_weak {w : Weak} : (weak w).leads? h = some p ↔
    w.view = some p ∧ ∃ b, w.block = some b ∧ h.strongCount b ≠ 0 := by
  obtain ⟨k, b, v⟩ := w
  simp only [leads?, Weak.lock?]
  cases b with
  | none => simp
  | some b => by_cases hzero : h.strongCount b = 0 <;> simp [hzero]

theorem Slot.view?_of_leads? (hp : x.leads? h = some p) : x.view? = some p := by
  cases x with
  | weak w => exact (leads?_weak.mp hp).1
  | strong | unique | raw => exact hp

/-- A pointer leads somewhere only if its block has a strong owner. -/
theorem Sound.strongCount_of_leads? {b : BlockId} (hs : Sound (h, K)) (hx : .pointer x ∈ K)
    (hp : x.leads? h = some p) (hb : x.block? = some b) :
    ∃ z, h.blocks[b]? = some z ∧ z.strong ≠ 0 := by
  cases x with
  | strong q =>
    obtain ⟨z, hz, -, hpos, -⟩ := hs.strong hx hb
    exact ⟨z, hz, Nat.ne_of_gt hpos⟩
  | weak w =>
    obtain ⟨-, c, hc, hne⟩ := Slot.leads?_weak.mp hp
    obtain rfl : c = b := Option.some.inj (hc.symm.trans hb)
    obtain ⟨z, hz, -, -⟩ := hs.block (k := .pointer (.weak w)) hx hb
    exact ⟨z, hz, by rwa [← Heap.strongCount_eq hz]⟩
  | unique | raw => cases hb

/-- What leads into an object answers for it. -/
theorem Sound.answers (hs : Sound (h, K)) (hv : Viewed (h, K)) (hx : .pointer x ∈ K)
    (hp : x.leads? h = some p) (ho : p.origin = .object o) :
    x.owns? = some o ∨ x.rawOf? = some o ∨
      ∃ b z, x.block? = some b ∧ h.blocks[b]? = some z ∧ z.pointee = some o := by
  have hshared (hlends : x.lends? = some p) :
      ∃ b z, x.block? = some b ∧ h.blocks[b]? = some z ∧ z.pointee = some o := by
    obtain ⟨b, z, hb, hz, hzo⟩ := hv x p o hx hlends ho
    obtain ⟨z', hz', hne⟩ := hs.strongCount_of_leads? hx hp hb
    obtain rfl : z' = z := Option.some.inj (hz'.symm.trans hz)
    obtain ⟨o', ho'⟩ := Option.isSome_iff_exists.mp ((hs.counted b _ hz).pointee.mpr hne)
    exact ⟨b, _, hb, hz, by rw [ho', hzo o' ho']⟩
  cases x with
  | strong q => exact .inr (.inr (hshared hp))
  | weak w => exact .inr (.inr (hshared (Slot.leads?_weak.mp hp).1))
  | unique u =>
    obtain ⟨o', ho', rfl⟩ := Option.map_eq_some_iff.mp hp
    cases ho
    exact .inl ho'
  | raw r =>
    cases hp
    cases ho
    exact .inr (.inl rfl)

theorem Slot.leads?_of_writable? (hx : x.writable? h = some (some p)) : x.leads? h = some p := by
  cases x with
  | strong q =>
    obtain ⟨-, hp⟩ := Option.ite_none_right_eq_some.mp (Option.some.inj hx)
    exact hp
  | unique u => exact Option.some.inj hx
  | weak | raw => cases hx

/-- A strong pointer that may be written has its block to itself. -/
theorem Strong.counts_of_getMut? {q : Strong} {b : BlockId} {z : Block}
    (hp : q.getMut? h = some p) (hb : q.block = some b) (hz : h.blocks[b]? = some z) :
    z.strong = 1 ∧ z.weak = 1 := by
  obtain ⟨⟨huse, hweak⟩, -⟩ := Option.ite_none_right_eq_some.mp hp
  simp only [use, rawWeak, hb, Option.map_some, Option.getD_some] at huse hweak
  rw [Heap.strongCount_eq hz] at huse
  simp only [Heap.weakCount, hz, Option.map_some, Option.getD_some] at hweak
  exact ⟨huse, hweak⟩

/-- While one pointer to an object may be written, no other one leads into it. -/
theorem Sound.alone (hs : Sound (h, .pointer x ::ₘ K)) (hv : Viewed (h, .pointer x ::ₘ K))
    (hx : x.writable? h = some (some p)) (ho : p.origin = .object o) (hy : .pointer y ∈ K)
    (hq : y.leads? h = some q) : q.origin ≠ .object o := by
  intro ho'
  have hanswers := hs.answers hv (Multiset.mem_cons_self _ _) (Slot.leads?_of_writable? hx) ho
  have hanswers' := hs.answers hv (Multiset.mem_cons_of_mem hy) hq ho'
  have howns (hyo : y.owns? = some o) : 0 < tally Stake.owns? K o :=
    tally_pos (f := Stake.owns?) hy hyo
  have hraws (hyo : y.rawOf? = some o) : 0 < tally Stake.rawOf? K o :=
    tally_pos (f := Stake.rawOf?) hy hyo
  have hmanagers {b : BlockId} {z : Block} (hz : h.blocks[b]? = some z)
      (ho : z.pointee = some o) : 0 < h.managers o := Heap.managers_pos ⟨b, z, hz, ho⟩
  have hle : Scene.owners (h, .pointer x ::ₘ K) o ≤ 1 := by
    by_contra hlt
    exact hlt (hs.owned o .alive (hs.owned.alive hs.scope (by omega))).1
  simp only [Scene.owners, tally_cons, Stake.reads_pointer] at hle
  cases x with
  | unique u =>
    -- The unique pointer is the only owner there is.
    obtain hu : u.object = some o := by
      rcases hanswers with hu | hu | ⟨b, z, hb, -⟩
      · exact hu
      · cases hu
      · cases hb
    simp only [Slot.reads_unique, hu, ↓reduceIte] at hle
    rcases hanswers' with hyo | hyo | ⟨b, z, -, hz, hzo⟩
    · have := howns hyo
      omega
    · have := hraws hyo
      omega
    · have := hmanagers hz hzo
      omega
  | strong q' =>
    -- The block is the only owner there is, and the pointer the only one on it.
    obtain ⟨b, z, hb, hz, hzo⟩ : ∃ b z, q'.block = some b ∧ h.blocks[b]? = some z ∧
        z.pointee = some o := by
      rcases hanswers with hu | hu | hq
      · cases hu
      · cases hu
      · exact hq
    have hpos := hmanagers hz hzo
    rcases hanswers' with hyo | hyo | ⟨b', z', hb', hz', hzo'⟩
    · have := howns hyo
      omega
    · have := hraws hyo
      omega
    · obtain rfl : b' = b := Heap.pointee_injective (by omega) hz' hzo' hz hzo
      obtain ⟨hstrong, hweak⟩ := Strong.counts_of_getMut? (Option.some.inj hx) hb hz
      obtain ⟨h1, h2, h3, -, -⟩ := hs.counted _ z hz
      simp only [tally_cons, Stake.reads_pointer, Slot.reads_strong, hb, ↓reduceIte] at h1 h2
      cases y with
      | strong r =>
        have : 0 < tally Stake.strongOn? K b' := tally_pos hy hb'
        omega
      | weak w =>
        have : 0 < tally Stake.weakOn? K b' := tally_pos hy hb'
        omega
      | unique | raw => cases hb'
  | weak | raw => cases hx

/-! ## Writes -/

theorem Heap.read?_write_of_ne (hq : q.origin ≠ p.origin) : (h.write p c).read? q = h.read? q := by
  have horigin : (h.write p c).origin? q.origin = h.origin? q.origin := by
    obtain ⟨_ | s, path⟩ := p <;> obtain ⟨_ | s', path'⟩ := q
    · have hne : ¬ _ = _ := fun heq => hq (congrArg Origin.object heq.symm)
      simp only [write, origin?, updateObject, Array.getElem?_modify, if_neg hne]
    · rfl
    · rfl
    · cases s <;> cases s' <;> first | rfl | exact absurd rfl hq
  rw [read?, horigin, read?]

theorem Slot.leads?_congr (hb : h'.blocks = h.blocks) : x.leads? h' = x.leads? h := by
  cases x with
  | weak w =>
    have hcount : h'.strongCount = h.strongCount := by
      funext b
      rw [Heap.strongCount, hb, Heap.strongCount]
    refine Option.ext fun v => ?_
    rw [leads?_weak, leads?_weak, hcount]
  | strong | unique | raw => rfl

/-- A write to an object is not seen through a pointer that does not lead into it. -/
theorem Slot.sees?_write (ho : p.origin = .object o)
    (hy : ∀ v, y.leads? h = some v → v.origin ≠ .object o) (c : Content) :
    y.sees? (h.write p c) = y.sees? h := by
  rw [Slot.sees?, Slot.leads?_congr (Heap.blocks_write p c), Slot.sees?]
  cases hq : y.leads? h with
  | none => rfl
  | some q => exact Heap.read?_write_of_ne (ho ▸ hy q hq)

end Scene

namespace Machine

variable {m : Machine} {q : Strong} {p : Place} {o : ObjectId}

/-- While a pointer may be written, no other one leads into the object that it would be written to. -/
theorem Reachable.alone {x : Slot} (hm : m.Reachable) (hx : x ∈ m.pointers)
    (hp : x.writable? m.heap = some (some p)) (ho : p.within? = some o) :
    ∀ y ∈ m.pointers.erase x, ∀ v, y.leads? m.heap = some v → v.origin ≠ .object o := by
  obtain ⟨K, hK, herase⟩ := stakes_of_mem hx
  have hs : Sound (m.heap, .pointer x ::ₘ K) := hK ▸ hm.sound
  have hv : Viewed (m.heap, .pointer x ::ₘ K) := hK ▸ hm.viewed
  intro y hy v
  exact hs.alone hv hp (Place.origin_of_within? ho).1 (herase y hy)

/-- While a strong pointer may be written and its view is in an object, no other pointer leads into
the object, and whatever is written there is seen through no other pointer. -/
theorem Reachable.written_unseen (hm : m.Reachable) (hq : .strong q ∈ m.pointers)
    (hp : q.getMut? m.heap = some p) (ho : p.within? = some o) :
    ∀ y ∈ m.pointers.erase (.strong q), (∀ v, y.leads? m.heap = some v → v.origin ≠ .object o) ∧
      ∀ c, y.sees? (m.heap.write p c) = y.sees? m.heap := by
  have hwrite : (Slot.strong q).writable? m.heap = some (some p) := congrArg some hp
  have halone := hm.alone hq hwrite ho
  exact fun y hy => ⟨halone y hy, Slot.sees?_write (Place.origin_of_within? ho).1 (halone y hy)⟩

/-- A node is kept by a pointer to its value alone; beside it there is a unique pointer. -/
def parted : List Step :=
  [.new .node (.node ⟨1, 5, .ofString "", []⟩ []) .global ⟨false, [], "a"⟩,
   .map ⟨false, [], "a"⟩ (some .value) ⟨false, [], "v"⟩ [] false,
   .unique .int (.int 9) .global ⟨false, [], "u"⟩, .drop ⟨false, [], "a"⟩]

theorem written_unseen_parted :
    let m := moment parted false 16
    let p : Place := ⟨.object 0, [.value]⟩
    let v : Strong := ⟨.int, some 0, some p⟩
    v.getMut? m.heap = some p ∧ p.within? = some 0 ∧
      ∀ y ∈ m.pointers.erase (.strong v), (∀ v, y.leads? m.heap = some v → v.origin ≠ .object 0) ∧
        ∀ c, y.sees? (m.heap.write p c) = y.sees? m.heap :=
  ⟨by decide, by decide, (reachable_moment _ _ _).written_unseen (by decide) (by decide) (by decide)⟩

/-- A standing value is alone with nobody: here two pointers may write to it, each as the only one
on its block, and what is written through the first is seen through the second. -/
example :
    let steps : List Step :=
      [.new .int (.int 1) .global ⟨false, [], "a"⟩, .new .int (.int 2) .global ⟨false, [], "b"⟩,
       .aliasStatic ⟨false, [], "a"⟩ .int ⟨false, [], "x"⟩,
       .aliasStatic ⟨false, [], "b"⟩ .int ⟨false, [], "y"⟩,
       .drop ⟨false, [], "a"⟩, .drop ⟨false, [], "b"⟩]
    let m := moment steps false 23
    let x : Strong := ⟨.int, some 0, some (.static .int)⟩
    let y : Strong := ⟨.int, some 1, some (.static .int)⟩
    x.getMut? m.heap = some (.static .int) ∧ y.getMut? m.heap = some (.static .int) ∧
      .strong x ∈ m.pointers ∧ .strong y ∈ m.pointers ∧
      (Slot.strong y).sees? (m.heap.write (.static .int) (.int 5)) = some (.int 5) := by
  decide

end Machine

end Custody
