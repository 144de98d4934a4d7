import Custody.Proofs.Freeing
import Custody.Proofs.Remains
import Mathlib.Data.Fintype.EquivFin

/-!
# Reachability

* `Machine.Quiet`: no operation and no destructor is in progress.
* `Machine.Leads`, `Machine.Links`, `Machine.FromRoot`: the graph of ownership at a moment of a run.
  A strong pointer leads to the object that its block was made for, wherever its view leads.
* `Machine.Collected`, `Machine.IsRationed.collected`: what is reachable is not destroyed; and where
  the graph has no cycle and nothing has been given out, what is not reachable is destroyed.
-/

namespace Custody

/-- The action holds no pointer, ends no destructor and works on no table. -/
def Action.isIdle : Action → Bool
  | exec _ | answer _ | gather _ | forget _ | round _ _ | record | clear | remember _ _ => true
  | _ => false

theorem Action.stakes_of_isIdle {a : Action} (ha : a.isIdle = true) :
    a.stakes = 0 ∧ ∀ t, a.worksOn t = false := by
  cases a with
  | exec | answer | gather | forget | round | record | clear | remember =>
    exact ⟨rfl, fun _ => rfl⟩
  | _ => cases ha

namespace Machine

variable {m : Machine} {x : Slot} {o o' : ObjectId}

/-- No operation and no destructor is in progress. -/
def Quiet (m : Machine) : Prop := ∀ a ∈ m.env.agenda, a.isIdle = true

instance (m : Machine) : Decidable m.Quiet := inferInstanceAs (Decidable (∀ a ∈ _, _))

/-! ## Where pointers are -/

theorem Quiet.not_mem (hq : m.Quiet) {a : Action} {k : Stake} (hk : k ∈ a.stakes) :
    a ∉ m.env.agenda := by
  intro ha
  rw [(Action.stakes_of_isIdle (hq a ha)).1] at hk
  cases hk

/-- All pointers are in tables then. -/
theorem Quiet.mem_tables (hq : m.Quiet) (hx : x ∈ m.pointers) :
    x ∈ m.env.root.slots ∨ ∃ o, x ∈ (m.heap.linksOf o).slots := by
  rcases List.mem_append.mp hx with hx | hx
  · refine (List.mem_append.mp hx).imp_right fun hx => ?_
    obtain ⟨y, hy, hx⟩ := List.mem_flatMap.mp hx
    obtain ⟨o, ho⟩ := List.mem_iff_getElem?.mp hy
    have ho : m.heap.objects[o]? = some y := by simpa using ho
    exact ⟨o, by simpa [Heap.linksOf, ho] using hx⟩
  · obtain ⟨a, ha, hx⟩ := List.mem_flatMap.mp hx
    exact absurd ha (hq.not_mem (pointer_mem_action_iff.mpr hx))

/-- The memory of what is dying is still to be returned. -/
theorem Reachable.reclaim_of_dying (hm : m.Reachable) (hp : m.heap.phase? o = some .dying) :
    .reclaim o ∈ m.env.agenda := by
  have hone : tally Stake.destroys? m.stakes o = 1 := (hm.owned o .dying hp).2
  obtain ⟨k, hk, hko⟩ := Multiset.countP_pos.mp (hone ▸ Nat.one_pos)
  rw [← destruction_mem_stakes_iff]
  cases k <;> cases hko
  exact hk

/-- What holds a pointer then is alive. -/
theorem Reachable.alive_of_holds (hm : m.Reachable) (hq : m.Quiet)
    (hx : x ∈ (m.heap.linksOf o).slots) : m.heap.phase? o = some .alive := by
  have hsome : ∃ y, m.heap.objects[o]? = some y := by
    cases ho : m.heap.objects[o]? with
    | some y => exact ⟨y, rfl⟩
    | none => simp [Heap.linksOf, ho, Table.slots, Table.empty] at hx
  obtain ⟨y, hy⟩ := hsome
  have hp : m.heap.phase? o = some y.phase := by rw [Heap.phase?, hy]; rfl
  cases hphase : y.phase with
  | alive => rw [hp, hphase]
  | dying =>
    have hdue := hm.reclaim_of_dying (hp.trans (by rw [hphase]))
    exact absurd hdue (hq.not_mem (Multiset.mem_singleton_self _))
  | gone =>
    rcases hm.tidy.gone o (hp.trans (by rw [hphase])) with hempty | ⟨a, ha, hat⟩
    · rw [hempty] at hx
      cases hx
    · rw [(Action.stakes_of_isIdle (hq a ha)).2] at hat
      cases hat

/-! ## The graph of ownership -/

/-- The object that a slot keeps alive, at moment `n`. -/
inductive Leads (run : Nat → Machine) (n : Nat) : Slot → ObjectId → Prop
  | strong {p : Strong} {b : BlockId} {i : Nat} {y : Block} {q : ObjectId} (hb : p.block = some b)
      (hi : i ≤ n) (hy : (run i).heap.blocks[b]? = some y) (hq : y.pointee = some q) :
      Leads run n (.strong p) q
  | unique {u : Unique} {q : ObjectId} (hq : u.object = some q) : Leads run n (.unique u) q

/-- The first object holds a slot that leads to the second one. -/
def Links (run : Nat → Machine) (n : Nat) (o o' : ObjectId) : Prop :=
  ∃ x ∈ ((run n).heap.linksOf o).slots, Leads run n x o'

/-- The object is kept by a slot of the root table, by itself or through other objects. -/
inductive FromRoot (run : Nat → Machine) (n : Nat) : ObjectId → Prop
  | root {y : Slot} {p : ObjectId} (hy : y ∈ (run n).env.root.slots) (h : Leads run n y p) :
      FromRoot run n p
  | link {p q : ObjectId} (hp : FromRoot run n p) (h : Links run n p q) : FromRoot run n q

/-- The object has been made, and its destructor has not started. -/
def Undestroyed (run : Nat → Machine) (n : Nat) (o : ObjectId) : Prop :=
  o < (run n).heap.objects.size ∧ ∀ i < n, (run i).starts? ≠ some o

/-- No object that is not destroyed leads back to itself through such objects. -/
def Acyclic (run : Nat → Machine) (n : Nat) : Prop :=
  ∀ o, ¬ Relation.TransGen
    (fun o o' => Undestroyed run n o ∧ Undestroyed run n o' ∧ Links run n o o') o o

section Run

variable {run : Nat → Machine} {n : Nat} {b : BlockId}

/-- An object is alive from when it is made until its destructor starts. -/
theorem IsRationed.undestroyed_iff (hr : IsRationed run) :
    Undestroyed run n o ↔ (run n).heap.phase? o = some .alive := by
  constructor
  · rintro ⟨ho, hnone⟩
    have hp : (run n).heap.phase? o = some (run n).heap.objects[o].phase := by
      simp [Heap.phase?, ho]
    have halive : ¬ (run n).heap.objects[o].phase ≠ .alive := by
      refine mt (hr.starts_iff hp).mpr ?_
      rintro ⟨i, hi, hs⟩
      exact hnone i hi hs
    rw [hp, not_not.mp halive]
  · intro hp
    obtain ⟨y, hy, -⟩ := Option.map_eq_some_iff.mp hp
    obtain ⟨ho, -⟩ := Array.getElem?_eq_some_iff.mp hy
    exact ⟨ho, fun i hi hs => (hr.starts_iff hp).mp ⟨i, hi, hs⟩ rfl⟩

/-- What a pointer leads to is not destroyed. -/
theorem IsRationed.alive_of_leads (hr : IsRationed run) (hx : x ∈ (run n).pointers)
    (h : Leads run n x o) : (run n).heap.phase? o = some .alive := by
  cases h with
  | @strong p b i y o hb hi hy ho =>
    obtain ⟨z, hz, hyz⟩ := hr.becomes hy hi
    have hpos := tally_pos (f := Stake.strongOn?) (pointer_mem_stakes_iff.mpr hx) hb
    rw [tally_strongOn?] at hpos
    have hsome := ((hr.reachable n).pointee_iff hz).mpr (Nat.ne_of_gt hpos)
    refine (hr.reachable n).managed_alive hz ?_
    rcases hyz.pointee with h | h
    · exact h.trans ho
    · rw [h] at hsome
      cases hsome
  | unique ho => exact (hr.reachable n).alive_of_owns hx ho

/-- What is reachable is alive. -/
theorem IsRationed.alive_of_fromRoot (hr : IsRationed run) (h : FromRoot run n o) :
    (run n).heap.phase? o = some .alive := by
  have hstored {o : ObjectId} {x : Slot} (hx : x ∈ ((run n).heap.linksOf o).slots) :
      x ∈ (run n).pointers := by
    refine List.mem_append_left _ (List.mem_append_right _ ?_)
    cases ho : (run n).heap.objects[o]? with
    | none => simp [Heap.linksOf, ho, Table.slots, Table.empty] at hx
    | some y =>
      refine List.mem_flatMap.mpr ⟨y, List.mem_iff_getElem?.mpr ⟨o, by simpa using ho⟩, ?_⟩
      simpa [Heap.linksOf, ho] using hx
  induction h with
  | root hx h => exact hr.alive_of_leads (List.mem_append_left _ (List.mem_append_left _ hx)) h
  | link _ h _ =>
    obtain ⟨x, hx, h⟩ := h
    exact hr.alive_of_leads (hstored hx) h

/-- What is not destroyed and has not been given out has a pointer that leads to it. -/
theorem IsRationed.exists_leads (hr : IsRationed run) (ho : Undestroyed run n o)
    (hout : ¬ Stands run n o .givenOut) : ∃ x ∈ (run n).pointers, Leads run n x o := by
  have hexists {f : Slot → Option Nat} {i : Nat}
      (h : 0 < (run n).pointers.countP (f · = some i)) : ∃ x ∈ (run n).pointers, f x = some i := by
    obtain ⟨x, hx, hf⟩ := List.countP_pos_iff.mp h
    exact ⟨x, hx, by simpa using hf⟩
  obtain ⟨s, hs, -⟩ := hr.existsUnique_stands ho.1
  cases s with
  | givenOut => exact absurd hs hout
  | destroyed =>
    obtain ⟨i, hi, hstarts⟩ := hs
    exact absurd hstarts (ho.2 i hi)
  | unique =>
    have hs : (run n).uniques o = 1 := hs
    obtain ⟨x, hx, howns⟩ := hexists (f := Slot.owns?) (hs ▸ Nat.one_pos : 0 < (run n).uniques o)
    cases x with
    | unique u => exact ⟨_, hx, .unique howns⟩
    | strong | weak | raw => cases howns
  | managed =>
    have hs : (run n).heap.managers o = 1 := hs
    have hmanages : (run n).heap.Manages o := by
      by_contra hnone
      rw [Heap.managers_eq_zero hnone] at hs
      cases hs
    obtain ⟨b, y, hy, hyo⟩ := hmanages
    have hpos := ((hr.reachable n).pointee_iff hy).mp (by simp [hyo])
    obtain ⟨x, hx, hb⟩ := hexists (f := Slot.strongOn?) (Nat.pos_of_ne_zero hpos)
    cases x with
    | strong p => exact ⟨_, hx, .strong hb (Nat.le_refl n) hy hyo⟩
    | unique | weak | raw => cases hb

/-- Where nothing has been given out, what is not reachable is held by what is not reachable. -/
theorem IsRationed.exists_links (hr : IsRationed run) (hq : (run n).Quiet) (ho : Undestroyed run n o)
    (hout : ¬ Stands run n o .givenOut) (hnot : ¬ FromRoot run n o) :
    ∃ o', Undestroyed run n o' ∧ Links run n o' o ∧ ¬ FromRoot run n o' := by
  obtain ⟨x, hx, h⟩ := hr.exists_leads ho hout
  rcases hq.mem_tables hx with hroot | ⟨o', ho'⟩
  · exact absurd (.root hroot h) hnot
  · refine ⟨o', hr.undestroyed_iff.mpr ((hr.reachable n).alive_of_holds hq ho'), ⟨x, ho', h⟩, ?_⟩
    exact fun hfrom => hnot (.link hfrom ⟨x, ho', h⟩)

/-- Without a cycle all is reachable: going back from what is not would never end. -/
theorem IsRationed.fromRoot_of_acyclic (hr : IsRationed run) (hq : (run n).Quiet)
    (hac : Acyclic run n) (hout : ∀ o, ¬ Stands run n o .givenOut) (ho : Undestroyed run n o) :
    FromRoot run n o := by
  let E (o o' : ObjectId) := Undestroyed run n o ∧ Undestroyed run n o' ∧ Links run n o o'
  let R (i j : Fin (run n).heap.objects.size) := Relation.TransGen E i j
  have : Std.Irrefl R := ⟨fun i => hac i⟩
  have : IsTrans _ R := ⟨fun _ _ _ => Relation.TransGen.trans⟩
  have hwf : WellFounded R := Finite.wellFounded_of_trans_of_irrefl R
  suffices ∀ i : Fin (run n).heap.objects.size, Undestroyed run n i → FromRoot run n i from
    this ⟨o, ho.1⟩ ho
  intro i
  induction i using hwf.induction with
  | _ i ih =>
    intro hi
    by_contra hnot
    obtain ⟨o', ho', hlinks, hnot'⟩ := hr.exists_links hq hi (hout i) hnot
    exact hnot' (ih ⟨o', ho'.1⟩ (.single ⟨ho', hi, hlinks⟩) ho')

/-- With an empty root table nothing is reachable. -/
theorem not_fromRoot (hroot : (run n).env.root.slots = []) : ¬ FromRoot run n o := by
  intro h
  induction h with
  | root hy _ =>
    rw [hroot] at hy
    cases hy
  | link _ _ ih => exact ih

/-- Where all is destroyed and the root table is empty, no pointer is left. -/
theorem IsRationed.pointers_eq_nil (hr : IsRationed run) (hq : (run n).Quiet)
    (hroot : (run n).env.root.slots = []) (hnone : ∀ o, ¬ Undestroyed run n o) :
    (run n).pointers = [] := by
  refine List.eq_nil_iff_forall_not_mem.mpr fun x hx => ?_
  rcases hq.mem_tables hx with hx | ⟨o, ho⟩
  · rw [hroot] at hx
    cases hx
  · exact hnone o (hr.undestroyed_iff.mpr ((hr.reachable n).alive_of_holds hq ho))

/-- Where all is destroyed and no destructor is in progress, all is gone. -/
theorem IsRationed.gone_of_destroyed (hr : IsRationed run) (hq : (run n).Quiet)
    (hnone : ∀ o, ¬ Undestroyed run n o) {p : Phase} (hp : (run n).heap.phase? o = some p) :
    p = .gone := by
  cases p with
  | gone => rfl
  | alive => exact absurd (hr.undestroyed_iff.mpr hp) (hnone o)
  | dying =>
    have hdue := (hr.reachable n).reclaim_of_dying hp
    exact absurd hdue (hq.not_mem (Multiset.mem_singleton_self _))

/-- A block that is not freed has a pointer on it. -/
theorem IsRationed.exists_block (hr : IsRationed run) (hq : (run n).Quiet) {x : Block}
    (hx : (run n).heap.blocks[b]? = some x) (hf : x.freed = false) :
    ∃ y ∈ (run n).pointers, y.block? = some b := by
  have hexists {f : Slot → Option Nat} (hfb : ∀ y : Slot, f y = some b → y.block? = some b)
      (h : 0 < (run n).pointers.countP (f · = some b)) :
      ∃ y ∈ (run n).pointers, y.block? = some b := by
    obtain ⟨y, hy, hb⟩ := List.countP_pos_iff.mp h
    exact ⟨y, hy, hfb y (by simpa using hb)⟩
  rcases (hr.faultless.unfreed n b x hx).mp hf with h | h | h
  · refine hexists (f := Slot.strongOn?) (fun y hb => ?_) h
    cases y <;> first | exact hb | cases hb
  · refine hexists (f := Slot.weakOn?) (fun y hb => ?_) h
    cases y <;> first | exact hb | cases hb
  · exact absurd h (hq.not_mem (Multiset.mem_singleton_self _))

theorem IsRationed.freed_of_pointers (hr : IsRationed run) (hq : (run n).Quiet)
    (hnil : (run n).pointers = []) {x : Block} (hx : (run n).heap.blocks[b]? = some x) :
    x.freed = true := by
  by_contra hf
  obtain ⟨y, hy, -⟩ := hr.exists_block hq hx (by simpa using hf)
  rw [hnil] at hy
  cases hy

end Run

/-- No object has been given out and not been adopted since. -/
def NothingOut (run : Nat → Machine) (n : Nat) : Prop := ∀ o, ¬ Stands run n o .givenOut

/-- What counting references comes to at a quiet moment. -/
structure Collected (run : Nat → Machine) (n : Nat) : Prop where
  /-- What is reachable is not destroyed. -/
  sound : ∀ o, FromRoot run n o → Undestroyed run n o
  /-- Without a cycle nothing else is left of the objects, -/
  complete : Acyclic run n → NothingOut run n → ∀ o, Undestroyed run n o → FromRoot run n o
  /-- and a block that is left is one that a reachable pointer is on. -/
  blocks : Acyclic run n → NothingOut run n →
    ∀ b x, (run n).heap.blocks[b]? = some x → x.freed = false → ∃ y : Slot, y.block? = some b ∧
      (y ∈ (run n).env.root.slots ∨ ∃ o, FromRoot run n o ∧ y ∈ ((run n).heap.linksOf o).slots)
  /-- When the root table is empty, what each block was made for has been destroyed once, -/
  disposed : Acyclic run n → NothingOut run n → (run n).env.root.slots = [] →
    ∀ b < (run n).heap.blocks.size,
      (∃ i ≤ n, ∃ x o, (run i).heap.blocks[b]? = some x ∧ x.pointee = some o) ∧
      ∀ i x o, i ≤ n → (run i).heap.blocks[b]? = some x → x.pointee = some o →
        (run n).heap.phase? o = some .gone ∧ ∃! j, j < n ∧ (run j).starts? = some o
  /-- each block has been freed once, -/
  freed : Acyclic run n → NothingOut run n → (run n).env.root.slots = [] →
    ∀ b < (run n).heap.blocks.size, ∃! i, i < n ∧ (run i).frees? = some b
  /-- and no allocation is out. -/
  memory : Acyclic run n → NothingOut run n → (run n).env.root.slots = [] →
    ∀ a, ((run n).heap.ledger a).entries true = 0

/-- Counting references finds what is reachable, where the graph of ownership has no cycle. -/
theorem IsRationed.collected {run : Nat → Machine} {n : Nat} (hr : IsRationed run)
    (hq : (run n).Quiet) :
    Collected run n := by
  have hm := hr.reachable n
  have hdestroyed (hac : Acyclic run n) (hout : NothingOut run n)
      (hroot : (run n).env.root.slots = []) (o : ObjectId) : ¬ Undestroyed run n o :=
    fun ho => not_fromRoot hroot (hr.fromRoot_of_acyclic hq hac hout ho)
  constructor
  case sound => exact fun o ho => hr.undestroyed_iff.mpr (hr.alive_of_fromRoot ho)
  case complete => exact fun hac hout o ho => hr.fromRoot_of_acyclic hq hac hout ho
  case blocks =>
    intro hac hout b x hx hf
    obtain ⟨y, hy, hb⟩ := hr.exists_block hq hx hf
    refine ⟨y, hb, (hq.mem_tables hy).imp_right fun ⟨o, ho⟩ => ⟨o, ?_, ho⟩⟩
    exact hr.fromRoot_of_acyclic hq hac hout (hr.undestroyed_iff.mpr (hm.alive_of_holds hq ho))
  case disposed =>
    intro hac hout hroot b hb
    have hnone := hdestroyed hac hout hroot
    obtain ⟨i, hi, -, x, hx, hne⟩ := hr.born (Array.getElem?_eq_getElem hb)
    obtain ⟨o, ho⟩ := Option.isSome_iff_exists.mp
      (((hr.reachable (i + 1)).counted b x hx).pointee.mpr hne)
    refine ⟨⟨i + 1, hi, x, o, hx, ho⟩, fun i x o hi hx ho => ?_⟩
    obtain ⟨p, hp⟩ := hm.known_of_course (hr.course hx ho hi)
    obtain rfl := hr.gone_of_destroyed hq hnone hp
    obtain ⟨j, hj, hs⟩ := (hr.starts_iff hp).mpr (by simp)
    exact ⟨hp, j, ⟨hj, hs⟩, fun k hk => hr.starts_once hk.2 hs⟩
  case freed =>
    intro hac hout hroot b hb
    have hnil := hr.pointers_eq_nil hq hroot (hdestroyed hac hout hroot)
    have hx := Array.getElem?_eq_getElem hb
    obtain ⟨i, hi, hfrees⟩ := (hr.freed_iff hx).mp (hr.freed_of_pointers hq hnil hx)
    exact ⟨i, ⟨hi, hfrees⟩, fun j hj => hr.frees_once hj.2 hfrees⟩
  case memory =>
    intro hac hout hroot a
    have hnone := hdestroyed hac hout hroot
    have hnil := hr.pointers_eq_nil hq hroot hnone
    refine (hm.sound.booked true a).symm.trans ?_
    refine Heap.claims_eq_zero (fun o x hx => ?_) fun b x hx => hr.freed_of_pointers hq hnil hx
    have hp : (run n).heap.objects[o]?.map (·.phase) = some x.phase :=
      congrArg (Option.map (·.phase)) hx
    exact hr.gone_of_destroyed hq hnone hp

/-- A node that holds another one, which is owned by it alone. -/
def chained : List Step :=
  [.new .node (.node ⟨1, 0, .ofString "", []⟩ []) .global ⟨false, [], "a"⟩,
   .unique .node (.node ⟨2, 0, .ofString "", []⟩ []) .arena ⟨false, ["a"], "next"⟩,
   .drop ⟨false, [], "a"⟩]

/-- The second node is reachable through the first one until that is dropped. -/
theorem collected_chained :
    (moment chained false 6).Quiet ∧ FromRoot (moment chained false) 6 1 ∧
      Collected (moment chained false) 6 := by
  refine ⟨by decide, ?_, IsRationed.collected (isRationed_moment _ _) (by decide)⟩
  have hroot : FromRoot (moment chained false) 6 0 :=
    .root (y := .strong ⟨.node, some 0, some (.whole 0)⟩) (by decide)
      (.strong rfl (Nat.le_refl 6) rfl rfl)
  exact .link hroot ⟨.unique ⟨.node, .arena, some 1⟩, by decide, .unique rfl⟩

end Machine

end Custody
