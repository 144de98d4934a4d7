import Custody.Proofs.Derivation
import Custody.Proofs.Descent
import Custody.Proofs.OwnerOrder
import Custody.Proofs.WeakProjection

/-!
# Lineages

What is derived from a strong pointer, and from what was derived from it, shares its owner.

* `Lineage`: what has been derived from a pointer that is kept, and not been dropped.
* `Heap.Adds`, `Lineage.adds`: just these references are more than there were.
* `Machine.step_derive`, `Machine.step_project`, `Machine.IsRationed.steps_projectWeak`: how a
  program derives pointers.
* `Machine.Derives`: what has been derived by a moment of a run, with anything in between.
* `Machine.Inheritance`, `Machine.IsRationed.inheritance`: whose ownership it has, and what it adds
  to the counters until it is dropped.
-/

namespace Custody

/-! ## What has been derived and not been dropped -/

/-- How many strong pointers of the list are on the block. -/
def strongsIn (b : BlockId) (xs : List Slot) : Nat := xs.countP (·.strongOn? = some b)

/-- How many weak pointers of the list are on the block. -/
def weaksIn (b : BlockId) (xs : List Slot) : Nat := xs.countP (·.weakOn? = some b)

theorem strongsIn_cons (b : BlockId) (x : Slot) (xs : List Slot) :
    strongsIn b (x :: xs) = strongsIn b xs + if x.strongOn? = some b then 1 else 0 := by
  simp only [strongsIn, List.countP_cons, decide_eq_true_eq]

theorem weaksIn_cons (b : BlockId) (x : Slot) (xs : List Slot) :
    weaksIn b (x :: xs) = weaksIn b xs + if x.weakOn? = some b then 1 else 0 := by
  simp only [weaksIn, List.countP_cons, decide_eq_true_eq]

/-- Pointer `p` is kept at heap `h`. At heap `h'` the pointers `xs` have been derived from it, one
from another, and have not been dropped. -/
inductive Lineage (p : Strong) (h : Heap) : Heap → List Slot → Prop
  | start : Lineage p h h []
  | derive {h' h'' xs x y d} : Lineage p h h' xs → x ∈ .strong p :: xs →
      Derivation.apply d x h' = some (h'', y) → Lineage p h h'' (y :: xs)
  | drop {h' xs x ys} (env : Environment) : Lineage p h h' xs → xs.Perm (x :: ys) →
      Lineage p h (Machine.dropSlot x ⟨h', env⟩).heap ys

/-- The pointers `xs` are those references to block `b` that heap `h'` has and heap `h` has not. -/
structure Heap.Adds (b : BlockId) (h h' : Heap) (xs : List Slot) : Prop where
  /-- Each of them is on the block, or is null and on none. -/
  owner : ∀ x ∈ xs, x.block? = some b ∨ x.block? = none ∧ x.view? = none
  counted : ∀ x ∈ xs, (∃ q, x = .strong q) ∨ ∃ v, x = .weak v
  shares : h.Shares b (strongsIn b xs) (weaksIn b xs) h'

section

variable {h h' h'' g : Heap} {b : BlockId} {z : Block} {x y : Slot} {xs ys : List Slot} {p : Strong}
  {d : Derivation} {env : Environment}

namespace Heap.Adds

theorem nil (b : BlockId) (h : Heap) : h.Adds b h [] where
  owner := nofun
  counted := nofun
  shares := .refl b h

theorem perm (ha : h.Adds b h' xs) (hp : xs.Perm ys) : h.Adds b h' ys where
  owner x hx := ha.owner x (hp.mem_iff.mpr hx)
  counted x hx := ha.counted x (hp.mem_iff.mpr hx)
  shares := by
    have hstrongs : strongsIn b xs = strongsIn b ys := hp.countP_eq _
    have hweaks : weaksIn b xs = weaksIn b ys := hp.countP_eq _
    rw [← hstrongs, ← hweaks]
    exact ha.shares

theorem cons (ha : h.Adds b h' xs) (ho : y.block? = some b ∨ y.block? = none ∧ y.view? = none)
    (hc : (∃ q, y = .strong q) ∨ ∃ v, y = .weak v)
    (hs : h'.Shares b (if y.strongOn? = some b then 1 else 0) (if y.weakOn? = some b then 1 else 0)
      h'') : h.Adds b h'' (y :: xs) where
  owner := List.forall_mem_cons.mpr ⟨ho, ha.owner⟩
  counted := List.forall_mem_cons.mpr ⟨hc, ha.counted⟩
  shares := by
    rw [strongsIn_cons, weaksIn_cons]
    exact ha.shares.trans hs

/-- What is derived from a pointer on the block, or from a null pointer, is one more. -/
theorem derive (ha : h.Adds b h' xs) (hz : h'.blocks[b]? = some z) (hf : z.freed = false)
    (hs : x.strongOn? = some b → 0 < z.strong)
    (hx : x.block? = some b ∨ x.block? = none ∧ x.view? = none)
    (hd : d.apply x h' = some (h'', y)) : h.Adds b h'' (y :: xs) := by
  have hc := Derivation.isCounted_apply hd
  rcases hx with hx | ⟨hb, hv⟩
  · have hderived := Derivation.derived hz hf hs hx hd
    refine ha.cons ?_ hc hderived.shares
    by_cases hr : d.Refused x h'
    · exact .inr ⟨(hderived.refused hr).1, (hderived.refused hr).2.1⟩
    · exact .inl (hderived.granted hr)
  · obtain ⟨rfl, hyb, hyv⟩ := Derivation.apply_null hb hv hd
    have hstrong : y.strongOn? ≠ some b := by
      rcases hc with ⟨q, rfl⟩ | ⟨v, rfl⟩
      · exact fun hq => absurd (hyb.symm.trans hq) nofun
      · nofun
    have hweak : y.weakOn? ≠ some b := by
      rcases hc with ⟨q, rfl⟩ | ⟨v, rfl⟩
      · nofun
      · exact fun hv => absurd (hyb.symm.trans hv) nofun
    refine ha.cons (.inr ⟨hyb, hyv⟩) hc ?_
    rw [if_neg hstrong, if_neg hweak]
    exact .refl b _

/-- No destructor starts when one of them is dropped. -/
theorem drop (ha : h.Adds b h' (x :: ys)) (hz : h.blocks[b]? = some z) (hf : z.freed = false)
    (hs : 0 < z.strong) (hw : 0 < z.weak) (env : Environment) :
    ∃ g, Machine.dropSlot x ⟨h', env⟩ = ⟨g, env⟩ ∧ h.Adds b g ys := by
  have hshares := ha.shares
  rw [strongsIn_cons, weaksIn_cons] at hshares
  have hrest {g : Heap} (hg : h.Shares b (strongsIn b ys) (weaksIn b ys) g) : h.Adds b g ys :=
    ⟨fun x hx => ha.owner x (List.mem_cons_of_mem _ hx),
      fun x hx => ha.counted x (List.mem_cons_of_mem _ hx), hg⟩
  obtain ⟨⟨k, c, v⟩, rfl⟩ | ⟨⟨k, c, v⟩, rfl⟩ := ha.counted x List.mem_cons_self
  · obtain rfl | ⟨rfl, -⟩ : c = some b ∨ c = none ∧ v = none := ha.owner _ List.mem_cons_self
    · have hshares : h.Shares b (strongsIn b ys + 1) (weaksIn b ys) h' := by
        simpa [Slot.strongOn?, Slot.weakOn?] using hshares
      have hothers : 1 < z.strong + (strongsIn b ys + 1) := by omega
      exact ⟨_, Machine.dropSlot_strong (hshares.getElem? hz) hf hothers,
        hrest hshares.giveUpStrong⟩
    · exact ⟨h', rfl, hrest hshares⟩
  · obtain rfl | ⟨rfl, -⟩ : c = some b ∨ c = none ∧ v = none := ha.owner _ List.mem_cons_self
    · have hshares : h.Shares b (strongsIn b ys) (weaksIn b ys + 1) h' := by
        simpa [Slot.strongOn?, Slot.weakOn?] using hshares
      have hothers : 1 < z.weak + (weaksIn b ys + 1) := by omega
      exact ⟨_, Machine.dropSlot_weak (hshares.getElem? hz) hf hothers, hrest hshares.giveUpWeak⟩
    · exact ⟨h', rfl, hrest hshares⟩

end Heap.Adds

/-- So it is with all that is derived. -/
theorem Lineage.adds (hl : Lineage p h h' xs) (hz : h.blocks[b]? = some z) (hf : z.freed = false)
    (hs : 0 < z.strong) (hw : 0 < z.weak) (hb : p.block = some b) : h.Adds b h' xs := by
  induction hl with
  | start => exact .nil b h
  | derive hl hx hd ih =>
    have hz' := ih.shares.getElem? hz
    refine ih.derive hz' hf (fun _ => Nat.lt_add_right _ hs) ?_ hd
    rcases List.mem_cons.mp hx with rfl | hx
    · exact .inl hb
    · exact ih.owner _ hx
  | drop env hl hp ih =>
    obtain ⟨g, hdrop, hadds⟩ := (ih.perm hp).drop hz hf hs hw env
    rw [hdrop]
    exact hadds

end

namespace Machine

/-- The slots are dropped from the first on. -/
def dropAll (xs : List Slot) (m : Machine) : Machine := xs.foldl (fun m x => m.dropSlot x) m

/-- When all are dropped, the blocks are as they were. -/
theorem dropAll_eq {h h' : Heap} {b : BlockId} {z : Block} {xs : List Slot} (ha : h.Adds b h' xs)
    (hz : h.blocks[b]? = some z) (hf : z.freed = false) (hs : 0 < z.strong) (hw : 0 < z.weak)
    (env : Environment) : ∃ g, dropAll xs ⟨h', env⟩ = ⟨g, env⟩ ∧ h.Adds b g [] := by
  induction xs generalizing h' with
  | nil => exact ⟨h', rfl, ha⟩
  | cons x xs ih =>
    obtain ⟨g, hdrop, hadds⟩ := ha.drop hz hf hs hw env
    obtain ⟨g', hall, hnil⟩ := ih hadds
    refine ⟨g', ?_, hnil⟩
    rw [dropAll, List.foldl_cons, hdrop]
    exact hall

end Machine

/-! ## By a program -/

/-- The step that derives a pointer from what is at `src`. A projection is more than one step. -/
def Derivation.step? (src dst : Path) : Derivation → Option Step
  | clone => some (.clone src dst)
  | cast c => some (.cast src c dst)
  | downgrade => some (.downgrade src dst)
  | lock => some (.lock src dst)
  | project _ _ => none

namespace Machine

variable {m : Machine} {h' : Heap} {loc : Location} {src dst : Path} {rest as : List Action}
  {c : Step} {x y : Slot} {l p : Strong} {w : Weak} {d : Derivation} {j : Projection} {b : BlockId}
  {z : Block} {total : Bool}

theorem castView_congr {h : Heap} (hr : h'.read? = h.read?) (p : Strong) (c : Cast) :
    castView h' p c = castView h p c := by
  cases c <;> simp only [castView, Strong.get?, hr]

theorem step_of_call {e : Effect} (ha : m.env.agenda = .exec c :: rest) (hplan : m.plan c = .ok e)
    (htaken : e.taken = [loc]) (hcall : e.call (m.erase loc).heap = (h', as)) :
    m.step = ⟨h', { (m.erase loc).env with agenda := as ++ rest }⟩ := by
  rw [step_exec ha hplan, htaken]
  show (⟨(e.call (m.erase loc).heap).1, { (m.erase loc).env with
    agenda := (e.call (m.erase loc).heap).2 ++ rest }⟩ : Machine) = _
  rw [hcall]

/-- The source returns to its table, and the pointer that was made is stored. -/
def settled (loc : Location) (x y : Slot) (dst : Path) : List Action :=
  .putBack loc x false :: .place y dst .plain :: Settlement.letGos [loc.table]

theorem step_clone_strong (ha : m.env.agenda = .exec (.clone src dst) :: rest)
    (hf : m.find src = .ok (loc, .strong p)) :
    m.step = ⟨(p.clone (m.erase loc).heap).1, { (m.erase loc).env with
      agenda := settled loc (.strong p) (.strong p) dst ++ rest }⟩ := by
  have hplan : m.plan (.clone src dst) = .ok (.cloneStrong loc p dst) := by
    simp only [plan, planClone, hf]
    rfl
  exact step_of_call ha hplan rfl rfl

theorem step_clone_weak (ha : m.env.agenda = .exec (.clone src dst) :: rest)
    (hf : m.find src = .ok (loc, .weak w)) :
    m.step = ⟨(w.clone (m.erase loc).heap).1, { (m.erase loc).env with
      agenda := settled loc (.weak w) (.weak w) dst ++ rest }⟩ := by
  have hplan : m.plan (.clone src dst) = .ok (.cloneWeak loc w dst) := by
    simp only [plan, planClone, hf]
    rfl
  exact step_of_call ha hplan rfl rfl

/-- A cast leaves the pointer to be put back and the new one to be placed. -/
theorem step_cast {k : Cast} {q : Strong} (ha : m.env.agenda = .exec (.cast src k dst) :: rest)
    (hf : m.find src = .ok (loc, .strong p)) (hc : p.cast? k (m.erase loc).heap = some (h', q)) :
    m.step = ⟨h', { (m.erase loc).env with
      agenda := settled loc (.strong p) (.strong q) dst ++ rest }⟩ := by
  have hread : (m.erase loc).heap.read? = m.heap.read? := read?_takeOut (m := m) [loc]
  unfold Strong.cast? at hc
  rw [castView_congr hread] at hc
  have hplan {kind : Kind} {r : Option (Option Place)}
      (hview : castView m.heap p k = .ok (kind, r)) :
      m.plan (.cast src k dst) = .ok (.cast loc p kind r dst) := by
    simp only [plan, planCast, findStrong_of_find hf, bind, Except.bind, hview]
    rfl
  split at hc
  · next kind view hview =>
    have hc := Option.some.inj hc
    refine step_of_call ha (hplan hview) rfl ?_
    show ((p.aliasing kind view (m.erase loc).heap).1, settled loc (.strong p)
      (.strong (p.aliasing kind view (m.erase loc).heap).2) dst) = _
    rw [hc]
  · next kind hview =>
    cases hc
    exact step_of_call ha (hplan hview) rfl rfl
  · cases hc

theorem step_downgrade (ha : m.env.agenda = .exec (.downgrade src dst) :: rest)
    (hf : m.find src = .ok (loc, .strong p)) :
    m.step = ⟨(p.downgrade (m.erase loc).heap).1, { (m.erase loc).env with
      agenda := settled loc (.strong p) (.weak p.observer) dst ++ rest }⟩ :=
  step_of_call ha (plan_downgrade hf) rfl rfl

theorem step_lock (ha : m.env.agenda = .exec (.lock src dst) :: rest)
    (hf : m.find src = .ok (loc, .weak w)) :
    m.step = ⟨(w.lock (m.erase loc).heap).1, { (m.erase loc).env with
      agenda := settled loc (.weak w) (.strong (w.lock (m.erase loc).heap).2) dst ++ rest }⟩ := by
  refine step_of_call ha (plan_lock hf) rfl ?_
  rw [call_lock, Weak.lock]
  rcases w.lock? (m.erase loc).heap with ⟨g, _ | p⟩ <;> rfl

/-- The step derives the pointer. -/
theorem step_derive (hc : d.step? src dst = some c) (ha : m.env.agenda = .exec c :: rest)
    (hf : m.find src = .ok (loc, x)) (hd : d.apply x (m.erase loc).heap = some (h', y)) :
    m.step = ⟨h', { (m.erase loc).env with agenda := settled loc x y dst ++ rest }⟩ := by
  cases Derivation.yields_of_apply hd with
  | cloneStrong p =>
    cases hc
    exact step_clone_strong ha hf
  | cloneWeak w =>
    cases hc
    exact step_clone_weak ha hf
  | project | projectWeak => cases hc
  | cast hcast =>
    cases hc
    exact step_cast ha hf hcast
  | downgrade p =>
    cases hc
    exact step_downgrade ha hf
  | lock w =>
    cases hc
    exact step_lock ha hf

/-- When the closure is over. -/
theorem step_project (ha : m.env.agenda = .project j p total :: rest) :
    m.step = ⟨(p.project j total m.heap).1, { m.env with
      agenda := .putBack j.source (.strong p) false ::
        .place (.strong (p.project j total m.heap).2) j.dst j.form ::
          (Settlement.letGos [j.source.table] ++ rest) }⟩ := by
  obtain ⟨h, env⟩ := m
  rw [step_eq_perform (next?_of_agenda ha)]
  rfl

/-- Budgets are no matter of what is derived. -/
theorem plan_derivation_ration (hc : d.step? src dst = some c) (limits : Alloc → Option Nat) :
    (m.ration limits).plan c = m.plan c := by
  cases d <;> cases hc <;> rfl

/-- Every step of these kinds that a program can take derives a pointer. -/
theorem exists_apply {e : Effect} (hc : d.step? src dst = some c) (hf : m.find src = .ok (loc, x))
    (hplan : m.plan c = .ok e) : ∃ h' y, d.apply x (m.erase loc).heap = some (h', y) := by
  cases d with
  | clone =>
    cases hc
    cases x with
    | strong | weak => exact ⟨_, _, rfl⟩
    | unique | raw =>
      rw [plan, planClone, hf] at hplan
      cases hplan
  | cast k =>
    cases hc
    cases x with
    | strong p =>
      rw [plan, planCast, findStrong_of_find hf] at hplan
      have hplan : (castView m.heap p k >>= fun r => pure (.cast loc p r.1 r.2 dst)) = .ok e :=
        hplan
      obtain ⟨⟨kind, view⟩, hview, -⟩ := bind_eq_ok.mp hplan
      have hread : (m.erase loc).heap.read? = m.heap.read? := read?_takeOut [loc]
      rw [← castView_congr hread] at hview
      cases view with
      | none => exact ⟨_, _, by simp only [Derivation.apply, Strong.cast?, hview]; rfl⟩
      | some view => exact ⟨_, _, by simp only [Derivation.apply, Strong.cast?, hview]; rfl⟩
    | weak | unique | raw =>
      rw [plan, planCast, findStrong, hf] at hplan
      cases hplan
  | downgrade =>
    cases hc
    rw [plan, findStrong, hf] at hplan
    cases x with
    | strong p => exact ⟨_, _, rfl⟩
    | weak | unique | raw => cases hplan
  | lock =>
    cases hc
    rw [plan, findWeak, hf] at hplan
    cases x with
    | weak w => exact ⟨_, _, rfl⟩
    | strong | unique | raw => cases hplan
  | project => cases hc

/-! ## In a run -/

/-- By moment `n` of the run slot `x` has been derived from pointer `p`, or from what was derived
from it. Anything may have happened in between. -/
inductive Derives (run : Nat → Machine) (p : Strong) : Nat → Slot → Prop
  | start {n} : .strong p ∈ (run n).pointers → Derives run p n (.strong p)
  /-- The source is out of its table at heap `h`. -/
  | derive {i n h h' x y d} : Derives run p i x → i ≤ n → x ∈ (run n).pointers →
      h.blocks = (run n).heap.blocks → Derivation.apply d x h = some (h', y) → ¬ d.Refused x h →
      Derives run p n y

/-- Pointer `p` is on block `b` at moment `n`. What is derived from it, and from that, inherits the
owner. -/
structure Inheritance (run : Nat → Machine) (n : Nat) (p : Strong) (b : BlockId) : Prop where
  owner : ∀ k (x : OwnerBased), Derives run p k x.slot →
    x.block = some b ∧ ∀ σ h, x.ownerEq σ h (.strong p) = true
  /-- As long as a pointer is there, whatever else has happened. -/
  derived : ∀ i k h h' d x y, Derives run p i x → i ≤ k → x ∈ (run k).pointers →
    h.blocks = (run k).heap.blocks → Derivation.apply d x h = some (h', y) → d.Derived x b h h' y
  /-- A program takes the step. Its source, at `loc`, is out of its table then. -/
  performed : ∀ i k d c src dst loc rest e x, Derives run p i x → i ≤ k →
    Derivation.step? src dst d = some c → (run k).env.agenda = .exec c :: rest →
    (run k).plan c = .ok e → (run k).find src = .ok (loc, x) → ∃ limits y,
      let h := (((run k).ration limits).erase loc).heap
      h.blocks = (run k).heap.blocks ∧ d.Derived x b h (run (k + 1)).heap y ∧
      (run (k + 1)).env.agenda = settled loc x y dst ++ rest
  /-- The closure of a program's projection is over. -/
  projected : ∀ i k j q total rest, Derives run p i (.strong q) → i ≤ k →
    (run k).env.agenda = .project j q total :: rest → ∃ limits y,
      (Derivation.project j total).Derived (.strong q) b ((run k).ration limits).heap
        (run (k + 1)).heap y ∧
      (run (k + 1)).env.agenda = .putBack j.source (.strong q) false ::
        .place y j.dst j.form :: (Settlement.letGos [j.source.table] ++ rest)
  /-- The closure of the projection of a weak pointer is over, which is locked. -/
  weaklyProjected : ∀ i k j w rest, Derives run p i (.weak w) → i ≤ k →
    (run k).env.agenda = .projectWeak j w w.owner :: rest → 1 < (run k).heap.strongCount b →
    ∃ g v, w.owner.projectLock j (run k).heap = (g, v) ∧ v.block = some b ∧
      (run (k + 3)).heap.blocks = g.blocks ∧ (run (k + 3)).env.agenda = j.returns w v ++ rest
  /-- While `p` is kept, the counters of `b` tell how many pointers have been derived and not been
  dropped. -/
  counted : ∀ h xs, Lineage p (run n).heap h xs → (run n).heap.Adds b h xs
  extended : ∀ h xs, Lineage p (run n).heap h xs → ∀ d h' x y, x ∈ Slot.strong p :: xs →
    x.block? = some b → Derivation.apply d x h = some (h', y) → d.Derived x b h h' y
  /-- They are dropped in any order. -/
  dropped : ∀ h xs ys env, Lineage p (run n).heap h xs → ys.Perm xs →
    ∃ g, dropAll ys ⟨h, env⟩ = ⟨g, env⟩ ∧ g.blocks = (run n).heap.blocks

section

variable {run : Nat → Machine} {i k n : Nat}

/-- A pointer keeps its block, and a strong one its pointee too. -/
theorem IsRationed.block_of_pointer (hr : IsRationed run) (hx : x ∈ (run k).pointers)
    (hb : x.block? = some b) : ∃ z, (run k).heap.blocks[b]? = some z ∧ z.freed = false ∧
      (x.strongOn? = some b → 0 < z.strong ∧ 0 < z.weak) := by
  have hmem := pointer_mem_stakes_iff.mpr hx
  obtain ⟨z, hz, hf, hagrees⟩ := (hr.sound k).block hmem (b := b) hb
  refine ⟨z, hz, hf, fun hs => ?_⟩
  obtain ⟨q, rfl⟩ : ∃ q, x = .strong q := by
    cases x with
    | strong q => exact ⟨q, rfl⟩
    | weak | unique | raw => cases hs
  obtain ⟨z', hz', -, hpos, -⟩ := (hr.sound k).strong hmem hs
  obtain rfl : z' = z := Option.some.inj (hz'.symm.trans hz)
  exact ⟨hpos, hagrees.weak_of_strong hpos⟩

theorem IsRationed.derived_of_pointer {h : Heap} (hr : IsRationed run) (hx : x ∈ (run k).pointers)
    (hb : x.block? = some b) (hh : h.blocks = (run k).heap.blocks)
    (hd : d.apply x h = some (h', y)) : d.Derived x b h h' y := by
  obtain ⟨z, hz, hf, hs⟩ := hr.block_of_pointer hx hb
  exact Derivation.derived (hh ▸ hz) hf (fun h => (hs h).1) hb hd

theorem Derives.block (hd : Derives run p k x) (hr : IsRationed run) (hb : p.block = some b) :
    x.block? = some b := by
  induction hd with
  | start => exact hb
  | derive _ _ hx hh happly hn ih => exact (hr.derived_of_pointer hx ih hh happly).granted hn

/-- A step that derives a pointer derives it on the same block. -/
theorem IsRationed.step_derive {e : Effect} (hr : IsRationed run) (hc : d.step? src dst = some c)
    (ha : (run k).env.agenda = .exec c :: rest) (hplan : (run k).plan c = .ok e)
    (hf : (run k).find src = .ok (loc, x)) (hb : x.block? = some b) : ∃ limits y,
      let h := (((run k).ration limits).erase loc).heap
      h.blocks = (run k).heap.blocks ∧ d.Derived x b h (run (k + 1)).heap y ∧
      (run (k + 1)).env.agenda = settled loc x y dst ++ rest := by
  obtain ⟨limits, hnext⟩ := hr.next k
  have hplan := (plan_derivation_ration hc limits).trans hplan
  obtain ⟨g, y, happly⟩ := exists_apply (m := (run k).ration limits) hc hf hplan
  have hstep := Machine.step_derive (m := (run k).ration limits) hc ha hf happly
  rw [← hnext] at hstep
  have hblocks : (((run k).ration limits).erase loc).heap.blocks = (run k).heap.blocks :=
    blocks_takeOut (m := (run k).ration limits) [loc]
  have hx : x ∈ (run k).pointers := mem_pointers_of_get? (find_ok hf)
  have hderived := hr.derived_of_pointer hx hb hblocks happly
  refine ⟨limits, y, hblocks, ?_, ?_⟩
  · rw [hstep]
    exact hderived
  · rw [hstep]

/-- So does a projection when its closure is over. -/
theorem IsRationed.step_project {q : Strong} (hr : IsRationed run)
    (ha : (run k).env.agenda = .project j q total :: rest) (hb : q.block = some b) : ∃ limits y,
      (Derivation.project j total).Derived (.strong q) b ((run k).ration limits).heap
        (run (k + 1)).heap y ∧
      (run (k + 1)).env.agenda = .putBack j.source (.strong q) false ::
        .place y j.dst j.form :: (Settlement.letGos [j.source.table] ++ rest) := by
  obtain ⟨limits, hnext⟩ := hr.next k
  have hstep := Machine.step_project (m := (run k).ration limits) ha
  rw [← hnext] at hstep
  have happly : (Derivation.project j total).apply (.strong q) ((run k).ration limits).heap =
      some ((run (k + 1)).heap, .strong (q.project j total ((run k).ration limits).heap).2) := by
    rw [hstep]
    rfl
  have hx : .strong q ∈ (run k).pointers := mem_pointers_of_first ha (List.mem_singleton_self _)
  have hblocks : ((run k).ration limits).heap.blocks = (run k).heap.blocks := rfl
  refine ⟨limits, _, hr.derived_of_pointer hx hb hblocks happly, ?_⟩
  rw [hstep]

/-- The owner of the part and the lock are given up when the weak pointer has been made. -/
theorem IsRationed.steps_projectWeak (hr : IsRationed run)
    (ha : (run k).env.agenda = .projectWeak j w w.owner :: rest) (hb : w.block = some b)
    (hs : 1 < (run k).heap.strongCount b) :
    ∃ g v, w.owner.projectLock j (run k).heap = (g, v) ∧ v.block = some b ∧
      (run (k + 3)).heap.blocks = g.blocks ∧ (run (k + 3)).env.agenda = j.returns w v ++ rest := by
  have hx : .strong w.owner ∈ (run k).pointers := mem_pointers_of_first ha (by simp [Action.slots])
  obtain ⟨z, hz, hf, -⟩ := hr.block_of_pointer hx hb
  rw [Heap.strongCount_eq hz] at hs
  obtain ⟨-, hmade, hagenda⟩ := hr.step_projectWeak hb ha hz hf (by omega)
  have hz' := hmade.getElem? hz
  obtain ⟨hdropped, hrest⟩ := hr.step_drop_shared (p := w.owner) hb hagenda hz' hf hs
  refine ⟨_, _, Derivation.projectLock_eq (p := w.owner) hz hf hb hs, rfl, ?_, ?_⟩
  · rw [(hmade.trans hdropped).blocks]
    simp only [Heap.updateBlock_updateBlock]
    rfl
  · rw [hrest, Projection.part, hb]

/-- Ownership is passed on by all that is derived. -/
theorem IsRationed.inheritance (hr : IsRationed run) (hp : .strong p ∈ (run n).pointers)
    (hb : p.block = some b) : Inheritance run n p b := by
  obtain ⟨z, hz, hf, hcounts⟩ := hr.block_of_pointer hp hb
  obtain ⟨hs, hw⟩ := hcounts hb
  have hadds (h : Heap) (xs : List Slot) (hl : Lineage p (run n).heap h xs) :
      (run n).heap.Adds b h xs := hl.adds hz hf hs hw hb
  constructor
  case owner =>
    intro k x hd
    have hx := (OwnerBased.block?_slot (x := x)).symm.trans (hd.block hr hb)
    refine ⟨hx, fun σ h => ?_⟩
    rw [OwnerBased.ownerEq, OwnerBased.ownerAddr, hx, ← hb]
    exact beq_self_eq_true _
  case derived =>
    intro i k h h' d x y hd _ hx hh happly
    exact hr.derived_of_pointer hx (hd.block hr hb) hh happly
  case performed =>
    intro i k d c src dst loc rest e x hd _ hc ha hplan hf
    exact hr.step_derive hc ha hplan hf (hd.block hr hb)
  case projected =>
    intro i k j q total rest hd _ ha
    exact hr.step_project ha (hd.block hr hb)
  case weaklyProjected =>
    intro i k j w rest hd _ ha hshared
    exact hr.steps_projectWeak ha (hd.block hr hb) hshared
  case counted => exact hadds
  case extended =>
    intro h xs hl d h' x y hx hxb happly
    have hz' := (hadds h xs hl).shares.getElem? hz
    exact Derivation.derived hz' hf (fun _ => Nat.lt_add_right _ hs) hxb happly
  case dropped =>
    intro h xs ys env hl hperm
    have hys := (hadds h xs hl).perm hperm.symm
    obtain ⟨g, hall, hnone⟩ := dropAll_eq hys hz hf hs hw env
    exact ⟨g, hall, hnone.shares.blocks_eq⟩

end

/-- A pointer to a number is watched, locked and cast to what it is not. -/
def branching : List Step :=
  [.new .int (.int 7) .global ⟨false, [], "p"⟩,
    .downgrade ⟨false, [], "p"⟩ ⟨false, [], "w"⟩,
    .lock ⟨false, [], "w"⟩ ⟨false, [], "q"⟩,
    .cast ⟨false, [], "q"⟩ (.dynamic .node) ⟨false, [], "r"⟩]

/-- The lock is an owner more, and the refused cast is not. -/
theorem inheritance_branching :
    let p : Strong := ⟨.int, some 0, some (.whole 0)⟩
    let run := moment branching false
    (run 3).env.agenda.head? = some (.exec (.downgrade ⟨false, [], "p"⟩ ⟨false, [], "w"⟩)) ∧
    Derives run p 3 (.weak p.observer) ∧
    (∃ h, Lineage p (run 3).heap h [.strong (.null .node), .strong p, .weak p.observer] ∧
      h.strongCount 0 = 2) ∧
    Inheritance run 3 p 0 := by
  intro p run
  have hp : .strong p ∈ (run 3).pointers := by decide
  have hderives : Derives run p 3 (.weak p.observer) :=
    .derive (d := .downgrade) (.start hp) (Nat.le_refl 3) hp rfl rfl id
  have hwatched := @Lineage.derive p (run 3).heap _ _ _ (.strong p) (.weak p.observer) .downgrade
    .start (by simp) rfl
  have hlocked := @Lineage.derive p (run 3).heap _ _ _ (.weak p.observer) (.strong p) .lock
    hwatched (by simp) rfl
  have hrefused := @Lineage.derive p (run 3).heap _ _ _ (.strong p) (.strong (.null .node))
    (.cast (.dynamic .node)) hlocked (by simp) rfl
  exact ⟨rfl, hderives, ⟨_, hrefused, rfl⟩,
    IsRationed.inheritance (isRationed_moment _ _) hp rfl⟩

end Machine

end Custody
