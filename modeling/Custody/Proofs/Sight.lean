import Custody.Proofs.Legibility

/-!
# Views never dangle

* `Inward`, `Sighted`: every view is in an object, and every pointer shows what suits its kind.
  Changes, losses and shifts keep it as long as the views that are yielded are in objects.
* `Machine.Undangling`, `Machine.IsRationed.undangling`: in every run that yields only such views,
  what a strong pointer shows is a part of its block's pointee as that is now, and so is what a lock
  obtains; and while a pointer may be written, no other one leads into what it leads to.
-/

namespace Custody

variable {Y : Option Place}

/-! ## Every view is in an object -/

theorem Place.within?_into {p : Place} {path : List Field} (hpath : .label ∉ path) :
    (p.into path).within? = p.within? := by
  obtain ⟨_ | s, path'⟩ := p
  · simp [within?, into, hpath]
  · rfl

/-- A view that comes of one in an object is in that object, or was yielded. -/
theorem LeadsInto.isSome_within? {h : Heap} {k k' : Kind} {u : Option Place} {p : Place}
    (hp : LeadsInto Y h k u k' (some p)) (hY : ∀ v ∈ Y, v.within?.isSome)
    (hu : ∀ q, u = some q → q.within?.isSome) : p.within?.isSome := by
  cases hp with
  | static _ _ hs => exact hY _ hs
  | @part _ q path hlabel _ =>
    by_cases hpath : Field.label ∈ path
    · exact hY _ (hlabel hpath)
    · rw [Place.within?_into hpath]
      exact hu q rfl

/-- Every view among the stakes is in an object, which a standing value is not. -/
def Inward (K : Multiset Stake) : Prop :=
  ∀ x p, .pointer x ∈ K → x.view? = some p → p.within?.isSome

/-- Every view is in an object, and shows there what suits the pointer as long as it leads there. -/
structure Sighted (s : Scene) : Prop extends Legible s where
  within : Inward s.2

section

variable {h h' : Heap} {K : Multiset Stake} {k : Stake} {x y : Slot} {s t : Scene}

theorem Inward.tail (hs : Inward (k ::ₘ K)) : Inward K :=
  fun x p hx => hs x p (Multiset.mem_cons_of_mem hx)

theorem Inward.cons (hs : Inward K) (hx : ∀ p, x.view? = some p → p.within?.isSome) :
    Inward (.pointer x ::ₘ K) := by
  intro y p hy
  rcases Multiset.mem_cons.mp hy with hy | hy
  · cases hy
    exact hx p
  · exact hs y p hy

/-- What is due after a destructor has no view. -/
theorem Inward.due (hs : Inward K) (hk : ∀ x, k ≠ .pointer x) : Inward (k ::ₘ K) := by
  intro x p hx
  rcases Multiset.mem_cons.mp hx with hx | hx
  · exact absurd hx.symm (hk x)
  · exact hs x p hx

theorem Inward.cons_whole {o : ObjectId} (hs : Inward K) (hx : x.view? = some (.whole o)) :
    Inward (.pointer x ::ₘ K) := by
  refine hs.cons fun p hp => ?_
  obtain rfl : Place.whole o = p := Option.some.inj (hx.symm.trans hp)
  rfl

theorem Inward.begets (hs : Inward K) (hx : .pointer x ∈ K) (hxy : x.Begets Y h y)
    (hY : ∀ v ∈ Y, v.within?.isSome) : ∀ p, y.view? = some p → p.within?.isSome := by
  intro p hp
  exact LeadsInto.isSome_within? (hp ▸ hxy.view) hY fun q hq => hs x q hx (Slot.view?_of_lends? hq)

theorem sighted_empty : Sighted (.empty, 0) where
  toLegible := legible_empty
  within x p hx := by simp at hx

/-- Views stay in objects, if those that are yielded are. -/
theorem Change.sighted (hc : Change Y s t) (hY : ∀ v ∈ Y, v.within?.isSome) (hsound : Sound s)
    (hv : Viewed s) (hs : Sighted s) : Sighted t := by
  refine ⟨hc.legible hsound hv hs.toLegible, ?_⟩
  have hw := hs.within
  cases hc with
  | @null h K x _ hnone =>
    refine hw.cons fun p hp => ?_
    rw [hnone] at hp
    cases hp
  | copy hx _ hxy | share hx _ hxy | observe hx _ hxy | lock hx _ _ hxy =>
    exact hw.cons (hw.begets hx hxy hY)
  | forget => exact hw.tail
  | revise _ hz hzy => exact hw.tail.cons (hw.begets (Multiset.mem_cons_of_mem hz) hzy hY)
  | construct hk hc =>
    obtain ⟨o, rfl, -, -⟩ := Unique.construct_shows hk hc
    exact hw.cons_whole rfl
  | copyIn => exact hw.cons_whole rfl
  | release | adopt | promote => exact hw.tail.cons_whole rfl
  | refuseLock | refuseBlock | write | setBudget | resetMetrics | remark => exact hw

/-- A loss yields no view. -/
theorem Loss.sighted (hl : Loss h K k t) (hscope : Scoped (h, k ::ₘ K))
    (hs : Sighted (h, k ::ₘ K)) : Sighted t := by
  refine ⟨hl.legible hscope hs.toLegible, ?_⟩
  have hw : Inward K := hs.within.tail
  cases hl with
  | free | leak | release | unobserve | reclaim | giveUp => exact hw
  | @dispose p b o =>
    have hw : Inward (.disposal b ::ₘ K) := hw.due nofun
    show Inward (.destruction o ::ₘ .disposal b ::ₘ K)
    exact hw.due nofun
  | @disposeNothing p b =>
    show Inward (.disposal b ::ₘ K)
    exact hw.due nofun
  | @destroy u o =>
    show Inward (.destruction o ::ₘ K)
    exact hw.due nofun

theorem Shift.sighted (hc : Shift Y s t) (hY : ∀ v ∈ Y, v.within?.isSome) (hsound : Sound s)
    (hv : Viewed s) (hs : Sighted s) : Sighted t := by
  cases hc with
  | change hc => exact hc.sighted hY hsound hv hs
  | @relink h K o table =>
    have hc : Shift Y (h, K) (h.withLinks o table, K) := .relink o table
    exact ⟨hc.legible hsound hv hs.toLegible, hs.within⟩

/-! ## Views into pointees -/

/-- The place is the pointee of the block or a part of it. The pointee is alive, and what is read at
the place is that part of what the pointee is now, and of the kind. To read at a place in an object
is to take that part of the object: `Heap.read?` is defined so, and both are named here to say so. -/
def Heap.Exposes (h : Heap) (b : BlockId) (k : Kind) (p : Place) : Prop :=
  ∃ (z : Block) (o : ObjectId) (y : Object) (c : Content),
    h.blocks[b]? = some z ∧ z.pointee = some o ∧ p.within? = some o ∧
      h.objects[o]? = some y ∧ y.phase = .alive ∧
      y.content.at? p.path = some c ∧ h.read? p = some c ∧ k.Suits c

/-- What leads somewhere and is on a block leads into the block's pointee. -/
theorem Sighted.exposes {b : BlockId} {p : Place} (hs : Sighted (h, K)) (hsound : Sound (h, K))
    (hv : Viewed (h, K)) (hx : .pointer x ∈ K) (hb : x.block? = some b)
    (hp : x.leads? h = some p) : h.Exposes b x.kind p := by
  obtain ⟨o, ho⟩ := Option.isSome_iff_exists.mp (hs.within x p hx (Slot.view?_of_leads? hp))
  have horigin := (Place.origin_of_within? ho).1
  obtain ⟨z, hz, hzo⟩ : ∃ z, h.blocks[b]? = some z ∧ z.pointee = some o := by
    rcases hsound.answers hv hx hp horigin with hu | hr | ⟨b', z, hb', hz, hzo⟩
    · cases x with
      | unique => cases hb
      | strong | weak | raw => cases hu
    · cases x with
      | raw => cases hb
      | strong | weak | unique => cases hr
    · obtain rfl : b' = b := Option.some.inj (hb'.symm.trans hb)
      exact ⟨z, hz, hzo⟩
  have hpos : 0 < Scene.owners (h, K) o := by
    have := Heap.managers_pos ⟨b, z, hz, hzo⟩
    simp only [Scene.owners]
    omega
  obtain ⟨y, hy, hphase⟩ := Option.map_eq_some_iff.mp (hsound.owned.alive hsound.scope hpos)
  obtain ⟨c, hc, hk⟩ := hs.shows x p hx (.inl hp)
  have hread := hc
  rw [Heap.read?_of_origin horigin, hy] at hread
  exact ⟨z, o, y, c, hz, hzo, ho, hy, hphase, hread, hc, hk⟩

/-- So does what a lock obtains. -/
theorem Sighted.exposes_lock {w : Weak} {q : Strong} {p : Place} (hs : Sighted (h, K))
    (hsound : Sound (h, K)) (hv : Viewed (h, K)) (hw : .pointer (.weak w) ∈ K)
    (hl : w.lock? h = (h', some q)) (hp : q.view = some p) :
    ∃ b, q.block = some b ∧ h'.Exposes b q.kind p := by
  unfold Weak.lock? at hl
  split at hl
  · cases hl
  · next b hb =>
    split at hl
    · cases hl
    · next alive =>
      cases hl
      have hc : Change none (h, K) (_, .pointer (.strong ⟨w.kind, w.block, w.view⟩) ::ₘ K) :=
        .lock hw hb alive ⟨rfl, .refl _⟩
      refine ⟨b, hb, (hc.sighted nofun hsound hv hs).exposes (hsound.shift (.change hc))
        (hc.viewed hsound.counted hv) (Multiset.mem_cons_self _ _) hb hp⟩

/-- A pointer that may be written leads into an object. -/
theorem Sighted.within_of_writable? {p : Place} (hs : Sighted (h, K)) (hx : .pointer x ∈ K)
    (hp : x.writable? h = some (some p)) : ∃ o, p.within? = some o := by
  have hview := Slot.view?_of_leads? (Slot.leads?_of_writable? hp)
  exact Option.isSome_iff_exists.mp (hs.within x p hx hview)

theorem Sighted.ration {m : Machine} (hs : Sighted m.scene) (limits : Alloc → Option Nat) :
    Sighted (m.ration limits).scene :=
  ⟨hs.toLegible.ration limits, hs.within⟩

end

namespace Machine

variable {run : Nat → Machine} {n : Nat}

/-- What an action yields does not depend on the budgets. -/
theorem yield?_ration {m : Machine} (limits : Alloc → Option Nat) :
    (m.ration limits).yield? = m.yield? := by
  obtain ⟨h, env⟩ := m
  cases ha : env.agenda with
  | nil => simp only [yield?, next?, ha, ration, mapHeap]
  | cons a rest =>
    simp only [yield?, next?, ha, ration, mapHeap, Option.bind_some, mapEnv]
    cases a with
    | exec s =>
      cases s with
      | share src dst =>
        have hnone (m : Machine) : (Action.exec (.share src dst)).yield? m = none := by
          simp only [Action.yield?, Step.yield?]
          split <;> rfl
        rw [hnone, hnone]
      | _ => rfl
    | _ => rfl

/-- All views are in objects as long as only such are yielded. -/
theorem IsRationed.sighted (hr : IsRationed run)
    (hyield : ∀ i < n, ∀ v ∈ (run i).yield?, v.within?.isSome) : Sighted (run n).scene := by
  induction n with
  | zero =>
    obtain ⟨steps, watch, h⟩ := hr.start
    rw [h, scene_ofProgram]
    exact sighted_empty
  | succ n ih =>
    obtain ⟨limits, hnext⟩ := hr.next n
    have hm := (hr.reachable n).ration limits
    have hs := (ih fun i hi => hyield i (Nat.lt_succ_of_lt hi)).ration limits
    have hY : ∀ v ∈ ((run n).ration limits).yield?, v.within?.isSome :=
      (yield?_ration limits).symm ▸ hyield n (Nat.lt_succ_self n)
    have hstep := step_induction (P := fun s => Sound s ∧ Viewed s ∧ Sighted s) hm.grounded
      ⟨hm.sound, hm.viewed, hs⟩
      (fun hscope hs hl => ⟨hs.1.loss hl, hl.viewed hs.2.1, hl.sighted hscope hs.2.2⟩)
      fun _ hs hc => ⟨hs.1.shift hc, hc.viewed hs.1.counted hs.2.1,
        hc.sighted hY hs.1 hs.2.1 hs.2.2⟩
    rw [hnext]
    exact hstep.2.2

/-- No view dangles, whatever has been written where it leads. -/
structure Undangling (m : Machine) : Prop where
  /-- What a strong pointer on a block shows is a part of the block's pointee as that is now, and
  the pointee is alive. -/
  strong : ∀ q b p, .strong q ∈ m.pointers → q.block = some b → q.view = some p →
    m.heap.Exposes b q.kind p
  /-- It is so with the strong pointer that a lock obtains, however old the weak pointer is. -/
  lock : ∀ w h q p, .weak w ∈ m.pointers → w.lock? m.heap = (h, some q) → q.view = some p →
    ∃ b, q.block = some b ∧ h.Exposes b q.kind p
  /-- While a pointer may be written, no other pointer leads into the object that it leads to, and a
  lock obtains none that does. -/
  exclusive : ∀ x p, x ∈ m.pointers → x.writable? m.heap = some (some p) →
    ∃ o, p.within? = some o ∧
      ∀ y ∈ m.pointers.erase x, ∀ v, y.leads? m.heap = some v → v.origin ≠ .object o

/-- As long as aliases and projections yield only views into objects, no view dangles. -/
theorem IsRationed.undangling (hr : IsRationed run)
    (hyield : ∀ i < n, ∀ v ∈ (run i).yield?, v.within?.isSome) : Undangling (run n) := by
  have hm := hr.reachable n
  have hs := hr.sighted hyield
  constructor
  case strong =>
    intro q b p hq hb hp
    exact hs.exposes hm.sound hm.viewed (pointer_mem_stakes_iff.mpr hq) hb hp
  case lock =>
    intro w h q p hw hl hp
    exact hs.exposes_lock hm.sound hm.viewed (pointer_mem_stakes_iff.mpr hw) hl hp
  case exclusive =>
    intro x p hx hp
    obtain ⟨o, ho⟩ := hs.within_of_writable? (pointer_mem_stakes_iff.mpr hx) hp
    exact ⟨o, ho, hm.alone hx hp ho⟩

/-- A view into a node's name is written through when it is alone, and locked again after that. -/
def renamed : List Step :=
  [.new .node (.node ⟨1, 5, .ofString "ab", []⟩ []) .global ⟨false, [], "a"⟩,
   .map ⟨false, [], "a"⟩ (some .text) ⟨false, [], "t"⟩ [] false, .drop ⟨false, [], "a"⟩,
   .set ⟨false, [], "t"⟩ .other false, .downgrade ⟨false, [], "t"⟩ ⟨false, [], "w"⟩]

theorem undangling_renamed :
    let m := moment renamed false 20
    let p : Place := ⟨.object 0, [.name, .text]⟩
    (∀ i < 20, ∀ v ∈ (moment renamed false i).yield?, v.within?.isSome) ∧ Undangling m ∧
      .strong ⟨.str, some 0, some p⟩ ∈ m.pointers ∧ .weak ⟨.str, some 0, some p⟩ ∈ m.pointers ∧
      m.heap.read? p = some (.str (.ofString "AB")) := by
  intro m p
  have hyield : ∀ i < 20, ∀ v ∈ (moment renamed false i).yield?, v.within?.isSome := by decide
  exact ⟨hyield, IsRationed.undangling (isRationed_moment renamed false) hyield, by decide,
    by decide, by decide⟩

end Machine

end Custody
