import Custody.Proofs.Remains
import Custody.Proofs.StrongSide
import Custody.Proofs.Termination

/-!
# Steps on weak pointers

* `Machine.Hushes`: the strong side of the heap and of the tables is as it was.
* `Machine.Destroys`: what is in front of `rest` is done, and the destructors of these objects start
  on the way.
* `Machine.OnlyWeak`: a step that makes, moves or removes weak pointers and nothing else.
* `Machine.Reachable.destroys_onlyWeak`: such a step comes to its end, destroys nothing, and leaves
  the strong side as it was.
-/

namespace Custody

/-- The paths under which such a step as may work on weak pointers alone stores or finds them. -/
def Step.spared? : Step → Option (List Path)
  | .weakNull _ dst | .downgrade _ dst => some [dst]
  | .move src dst | .clone src dst => some [src, dst]
  | .cloneFrom target src | .swap target src => some [target, src]
  | .reset target | .drop target => some [target]
  | _ => none

namespace Machine

variable {m n l : Machine} {t : TableId} {loc : Location} {x : Slot} {p : Path} {a : Action}
  {as rest : List Action}

/-! ## Keeping the strong side -/

/-- From the first machine to the second one the strong side stays. -/
structure Hushes (m n : Machine) : Prop where
  estate : n.heap.estate = m.heap.estate
  root : n.env.root.strongSide = m.env.root.strongSide
  running : n.env.running = m.env.running

namespace Hushes

theorem refl (m : Machine) : m.Hushes m := ⟨rfl, rfl, rfl⟩

theorem trans (h : m.Hushes n) (h' : n.Hushes l) : m.Hushes l :=
  ⟨h'.estate.trans h.estate, h'.root.trans h.root, h'.running.trans h.running⟩

theorem table (h : m.Hushes n) (t : TableId) : (n.table t).strongSide = (m.table t).strongSide := by
  cases t with
  | root => exact h.root
  | links o => rw [strongSide_table_links, strongSide_table_links, h.estate]

theorem resolve? (h : m.Hushes n) (p : Path) : n.resolve? p = m.resolve? p := by
  have hgoes : n.goesTo? = m.goesTo? := by
    funext t name
    rw [goesTo?, goesTo?, h.table]
  rw [resolve?_eq, resolve?_eq, hgoes, h.running]

theorem isGone (h : m.Hushes n) (t : TableId) : n.isGone t = m.isGone t := by
  cases t with
  | root => rfl
  | links o => rw [isGone_links_estate, isGone_links_estate, h.estate]

end Hushes

theorem hushes_withTable {new : Table} (h : new.strongSide = (m.table t).strongSide) :
    m.Hushes (m.withTable t new) := by
  cases t with
  | root => exact ⟨rfl, h, rfl⟩
  | links o => exact ⟨Heap.estate_withLinks_of_strongSide h, rfl, rfl⟩

theorem withTable_withTable (t : TableId) (old new : Table) :
    (m.withTable t old).withTable t new = m.withTable t new := by
  obtain ⟨h, env⟩ := m
  cases t with
  | root => rfl
  | links o =>
    simp only [withTable, mapHeap, Heap.withLinks, Heap.updateObject, Array.modify_modify]

/-- A slot that is taken out and put back is where it was. -/
theorem hushes_insert_erase (hx : m.get? loc = some x) : m.Hushes ((m.erase loc).insert loc x) := by
  rw [insert, erase, table_withTable (has_of_get? hx), withTable_withTable]
  exact hushes_withTable (by rw [Table.insert_erase hx])

/-- What is put in a table is put there on both sides. -/
theorem Hushes.insert (h : m.Hushes n) (hx : x.isWeak = false) :
    (m.insert loc x).Hushes (n.insert loc x) := by
  obtain ⟨t, name⟩ := loc
  have htable := h.table t
  cases t with
  | root =>
    refine ⟨h.estate, ?_, h.running⟩
    exact (Table.strongSide_insert hx).trans (htable ▸ (Table.strongSide_insert hx).symm)
  | links o =>
    refine ⟨?_, h.root, h.running⟩
    have hlinks (k : Machine) : (k.insert ⟨.links o, name⟩ x).heap.estate =
        k.heap.estate.modifyObject o fun y =>
          { y with links := (k.table (.links o)).strongSide.insert name x } := by
      rw [← Table.strongSide_insert hx]
      exact Heap.estate_withLinks _
    rw [hlinks, hlinks, htable, h.estate]

/-! ## What is destroyed -/

/-- From the first state the second one is reached, where `rest` is all that is left to be done. On
the way the destructors of these objects start, one after another. -/
inductive Destroys (rest : List Action) : Machine → List ObjectId → Machine → Prop
  | done {m : Machine} (h : m.env.agenda = rest) : Destroys rest m [] m
  | step {m n : Machine} {a as os} (h : m.env.agenda = a :: (as ++ rest))
      (hs : Destroys rest m.step os n) : Destroys rest m (m.starts?.toList ++ os) n

theorem Destroys.of_step {os : List ObjectId} (ha : m.env.agenda = a :: (as ++ rest))
    (hnone : m.starts? = none) (hs : Destroys rest m.step os n) : Destroys rest m os n := by
  have := Destroys.step ha hs
  rwa [hnone] at this

theorem Destroys.agenda {os : List ObjectId} (h : Destroys rest m os n) : n.env.agenda = rest := by
  induction h with
  | done h => exact h
  | step _ _ ih => exact ih

theorem Destroys.reachable {os : List ObjectId} (h : Destroys rest m os n) (hm : m.Reachable) :
    n.Reachable := by
  induction h with
  | done => exact hm
  | step _ _ ih => exact ih hm.step

/-! ## Steps on weak pointers -/

/-- What is at the end of the path, if anything is, is a weak pointer. -/
def Spares (m : Machine) (p : Path) : Prop :=
  ∀ loc x, m.resolve? p = some loc → m.get? loc = some x → x.isWeak = true

/-- The step makes, moves or removes weak pointers and nothing else. -/
def OnlyWeak (m : Machine) : Step → Prop
  | .weakNull _ dst | .downgrade _ dst => m.Spares dst
  | .move src dst | .clone src dst => m.Spares src ∧ m.Spares dst
  | .cloneFrom target src | .swap target src => m.Spares target ∧ m.Spares src
  | .reset target | .drop target => m.Spares target
  | _ => False

instance (m : Machine) (p : Path) : Decidable (m.Spares p) :=
  decidable_of_iff (∀ loc ∈ m.resolve? p, ∀ x ∈ m.get? loc, x.isWeak = true)
    ⟨fun h loc x hl => h loc hl x, fun h loc hl x => h loc x hl⟩

instance (m : Machine) (s : Step) : Decidable (m.OnlyWeak s) :=
  decidable_of_iff (∃ ps ∈ s.spared?, ∀ p ∈ ps, m.Spares p) <| by
    cases s <;> simp [Step.spared?, OnlyWeak]

theorem get?_strongSide_eq_none : (m.table loc.table).strongSide.get? loc.name = none ↔
    ∀ x, m.get? loc = some x → x.isWeak = true := by
  rw [Table.get?_strongSide, Option.filter_eq_none_iff]
  simp [get?]

theorem spares_iff : m.Spares p ↔
    ∀ loc, m.resolve? p = some loc → (m.table loc.table).strongSide.get? loc.name = none := by
  simp only [Spares, get?_strongSide_eq_none]
  exact ⟨fun h loc hl x => h loc x hl, fun h loc x hl => h loc hl x⟩

theorem Hushes.spares (h : m.Hushes n) : n.Spares p ↔ m.Spares p := by
  simp only [spares_iff, h.resolve?, h.table]

end Machine

/-! ## Light actions -/

/-- How many replies the action puts on the stack, with all that it leads to. -/
def Action.produces : Action → Nat
  | .exec _ | .place _ _ _ | .answer _ | .gather _ | .round _ _ | .project _ _ _
  | .projectWeak _ _ _ | .remember _ _ => 1
  | .putBack _ _ counted => counted.toNat
  | _ => 0

namespace Machine

variable {m n l : Machine} {t : TableId} {loc : Location} {x : Slot} {p : Path} {a : Action}
  {as rest : List Action}

@[simp] theorem replies_schedule : (m.schedule as).env.replies = m.env.replies := rfl

@[simp] theorem replies_withTable (t : TableId) (new : Table) :
    (m.withTable t new).env.replies = m.env.replies := by
  cases t <;> rfl

@[simp] theorem replies_takeOut (locs : List Location) :
    (m.takeOut locs).env.replies = m.env.replies := by
  induction locs generalizing m with
  | nil => rfl
  | cons loc locs ih => rw [takeOut_cons, ih, erase, replies_withTable]

theorem replies_carryOut (e : Effect) : (m.carryOut e).env.replies = m.env.replies := by
  simp only [carryOut, onHeap, replies_schedule, replies_takeOut]

theorem replies_store (loc : Location) (x : Slot) :
    (m.store loc x).env.replies = m.env.replies := by
  simp only [store, replies_schedule, insert, replies_withTable]

/-- An action that touches nothing of the strong side. -/
inductive Light (m : Machine) : Action → Prop
  | drop (w : Weak) : m.Light (.drop (.weak w))
  | putBack {loc : Location} {w : Weak} (counted : Bool)
      (h : (m.table loc.table).strongSide.get? loc.name = none) :
      m.Light (.putBack loc (.weak w) counted)
  | place {w : Weak} {dst : Path} (h : m.Spares dst) : m.Light (.place (.weak w) dst .plain)
  | answer (r : Reply) : m.Light (.answer r)
  | letGo {t : TableId} (h : m.isGone t = false) : m.Light (.letGo t)

theorem Hushes.light (h : m.Hushes n) (ha : m.Light a) : n.Light a := by
  cases ha with
  | drop w => exact .drop w
  | putBack counted hl => exact .putBack counted (by rw [h.table, hl])
  | place hs => exact .place (h.spares.mpr hs)
  | answer r => exact .answer r
  | letGo ht => exact .letGo (by rw [h.isGone, ht])

/-- The strong side is as it was, and what is put in front of the agenda is light. With what that
will put on the stack, so many replies are there. -/
structure Lightens (m n : Machine) (replies : Nat) : Prop where
  hushes : m.Hushes n
  light : ∃ as, n.env.agenda = as ++ m.env.agenda ∧ (∀ a ∈ as, n.Light a) ∧
    ∃ rs, n.env.replies = rs ++ m.env.replies ∧ rs.length + (as.map Action.produces).sum = replies

theorem Lightens.of_reply {r : Reply} {k : Nat} (h : (m.reply r).Lightens n k) :
    m.Lightens n (k + 1) := by
  obtain ⟨as, hagenda, hlight, rs, hrs, hk⟩ := h.light
  refine ⟨⟨h.hushes.estate, h.hushes.root, h.hushes.running⟩, as, hagenda, hlight, rs ++ [r], ?_, ?_⟩
  · simp [hrs, reply, mapEnv]
  · simp only [List.length_append, List.length_singleton]
    omega

theorem lightens_refl (m : Machine) : m.Lightens m 0 := ⟨.refl m, [], rfl, by simp, [], rfl, rfl⟩

/-- What a weak pointer displaces where it spares the strong side is a weak pointer. -/
theorem lightens_store {w : Weak} (h : (m.table loc.table).strongSide.get? loc.name = none) :
    m.Lightens (m.store loc (.weak w)) 0 := by
  have hinsert : m.Hushes (m.insert loc (.weak w)) :=
    hushes_withTable (Table.strongSide_insert_weak rfl h)
  refine ⟨⟨hinsert.estate, hinsert.root, hinsert.running⟩, _, agenda_store _ _, ?_, [],
    replies_store _ _, ?_⟩
  · intro a ha
    obtain ⟨x, hx, rfl⟩ := List.mem_map.mp ha
    cases x with
    | weak v => exact .drop v
    | strong p | unique u | raw r => cases get?_strongSide_eq_none.mp h _ (Option.mem_toList.mp hx)
  · simp [Action.produces, Function.comp_def]

/-- A light action gives its replies, and the strong side stays. -/
theorem Light.perform (ha : m.Light a) : m.Lightens (m.perform a) a.produces := by
  have hgiveUp {w : Weak} {r : Reply} : m.Lightens ((m.reply r).schedule [.drop (.weak w)]) 1 :=
    ⟨⟨rfl, rfl, rfl⟩, [.drop (.weak w)], rfl, by simp [Light.drop], [r], rfl, rfl⟩
  cases ha with
  | drop w =>
    obtain ⟨k, _ | b, v⟩ := w
    · exact lightens_refl m
    · exact ⟨⟨Heap.estate_releaseWeak, rfl, rfl⟩, [], rfl, by simp, [], rfl, rfl⟩
  | putBack counted h =>
    cases counted with
    | false => exact lightens_store h
    | true => exact .of_reply (lightens_store (m := m.reply _) h)
  | place h =>
    simp only [Machine.perform, placeAt]
    split
    · exact hgiveUp
    · next loc hl =>
      exact .of_reply (lightens_store (m := m.reply _) (spares_iff.mp h loc hl))
  | answer r => exact .of_reply (lightens_refl (m.reply r))
  | letGo h =>
    simp only [Machine.perform, letGoOf, h, Bool.false_and, Bool.false_eq_true, ↓reduceIte]
    exact lightens_refl m

/-- The machine with another agenda. -/
def withAgenda (as : List Action) (m : Machine) : Machine := m.mapEnv fun e => { e with agenda := as }

theorem step_of_agenda (ha : m.env.agenda = a :: rest) : m.step = (m.withAgenda rest).perform a :=
  step_eq_perform (next?_of_agenda ha)

theorem hushes_withAgenda (m : Machine) (as : List Action) : m.Hushes (m.withAgenda as) :=
  ⟨rfl, rfl, rfl⟩

/-- Light actions come to their end, and the strong side is as it was. -/
theorem Reachable.destroys_light (hm : m.Reachable) (ha : m.env.agenda = as ++ rest)
    (hl : ∀ a ∈ as, m.Light a) :
    ∃ n, Destroys rest m [] n ∧ m.Hushes n ∧ ∃ rs, n.env.replies = rs ++ m.env.replies ∧
      rs.length = (as.map Action.produces).sum := by
  induction hp : m.potential using Nat.strong_induction_on generalizing m as with
  | _ k ih =>
    cases as with
    | nil => exact ⟨m, .done ha, .refl m, [], rfl, rfl⟩
    | cons a as =>
      replace ha : m.env.agenda = a :: (as ++ rest) := ha
      have hlight := hl a List.mem_cons_self
      have hnext := m.hushes_withAgenda (as ++ rest)
      have hstep := (hnext.light hlight).perform
      rw [← step_of_agenda ha] at hstep
      obtain ⟨bs, hbs, hbslight, rs, hrs, hyields⟩ := hstep.light
      have hagenda : m.step.env.agenda = (bs ++ as) ++ rest := by rw [List.append_assoc]; exact hbs
      have hlater : ∀ b ∈ bs ++ as, m.step.Light b := fun b hb =>
        (List.mem_append.mp hb).elim (hbslight b) fun hb =>
          hstep.hushes.light (hnext.light (hl b (List.mem_cons_of_mem _ hb)))
      obtain ⟨n, hn, hhush, rs', hrs', hlength⟩ :=
        ih _ (hp ▸ hm.grounded.potential_step ha) hm.step hagenda hlater rfl
      have hnone : m.starts? = none := by
        simp only [starts?, ha]
        cases hlight <;> rfl
      refine ⟨n, .of_step ha hnone hn, (hnext.trans hstep.hushes).trans hhush, rs' ++ rs, ?_, ?_⟩
      · rw [hrs', hrs, List.append_assoc]
        rfl
      · simp only [List.map_append, List.sum_append] at hlength
        simp only [List.length_append, List.map_cons, List.sum_cons]
        omega

end Machine

/-! ## Settlements of weak pointers -/

namespace Settlement

variable {m : Machine} {s : Settlement} {ts : List TableId}

/-- How many replies the settlement leaves. -/
def yields (s : Settlement) : Nat :=
  (s.counted && !s.operands.isEmpty).toNat + s.made.toList.length + s.reply.toList.length

/-- The actions of a settlement reply as often as is said. -/
theorem yields_actions (s : Settlement) (ts : List TableId) :
    ((s.actions ts).map Action.produces).sum = s.yields := by
  have hfalse (xs : List (Location × Slot)) : ((putBacks false xs).map Action.produces).sum = 0 := by
    induction xs with
    | nil => rfl
    | cons x xs ih => simpa [putBacks, Action.produces] using ih
  have hputBacks (counted : Bool) (xs : List (Location × Slot)) :
      ((putBacks counted xs).map Action.produces).sum = (counted && !xs.isEmpty).toNat := by
    cases xs with
    | nil => simp [putBacks]
    | cons x xs => simp [putBacks, hfalse, Action.produces]
  simp only [actions, List.map_append, List.sum_append, hputBacks, yields, letGos, List.map_map]
  cases s.made <;> cases s.reply <;> simp [Action.produces, Function.comp_def]

/-- What the settlement deals with is weak pointers, and they go where nothing else is. -/
structure Weakly (m : Machine) (s : Settlement) : Prop where
  surplus : ∀ x ∈ s.surplus, x.isWeak = true
  operands : ∀ x ∈ s.operands, x.2.isWeak = true ∧
    (m.table x.1.table).strongSide.get? x.1.name = none
  made : ∀ x ∈ s.made, x.1.isWeak = true ∧ m.Spares x.2.1 ∧ x.2.2 = .plain

/-- A settlement of weak pointers is light. -/
theorem Weakly.light (h : s.Weakly m) (ht : ∀ t ∈ ts, m.isGone t = false) :
    ∀ a ∈ s.actions ts, m.Light a := by
  have hputBacks (counted : Bool) {xs : List (Location × Slot)} (hx : ∀ x ∈ xs,
      x.2.isWeak = true ∧ (m.table x.1.table).strongSide.get? x.1.name = none) :
      ∀ a ∈ putBacks counted xs, m.Light a := by
    induction xs generalizing counted with
    | nil => simp [putBacks]
    | cons x xs ih =>
      intro a ha
      obtain ⟨hx, hxs⟩ := List.forall_mem_cons.mp hx
      rcases List.mem_cons.mp ha with rfl | ha
      · obtain ⟨loc, x⟩ := x
        cases x <;> cases hx.1
        exact .putBack counted hx.2
      · exact ih false hxs a ha
  intro a ha
  simp only [actions, List.mem_append] at ha
  obtain (((ha | ha) | ha) | ha) | ha := ha
  · obtain ⟨x, hx, rfl⟩ := List.mem_map.mp ha
    have hw := h.surplus x hx
    cases x <;> cases hw
    exact .drop _
  · exact hputBacks s.counted h.operands a ha
  · obtain ⟨⟨x, dst, form⟩, hx, rfl⟩ := List.mem_map.mp ha
    obtain ⟨hw, hdst, rfl⟩ := h.made _ (Option.mem_toList.mp hx)
    cases x <;> cases hw
    exact .place hdst
  · obtain ⟨r, -, rfl⟩ := List.mem_map.mp ha
    exact .answer r
  · obtain ⟨t, hmem, rfl⟩ := List.mem_map.mp ha
    exact .letGo (ht t (List.mem_of_mem_filter hmem))

end Settlement

/-! ## The steps -/

namespace Machine

variable {m n : Machine} {loc other : Location} {x y : Slot} {p q : Path} {s : Step}
  {rest : List Action}

theorem hushes_takeOut {locs : List Location}
    (h : ∀ loc ∈ locs, (m.table loc.table).strongSide.get? loc.name = none) :
    m.Hushes (m.takeOut locs) := by
  induction locs generalizing m with
  | nil => exact .refl m
  | cons loc locs ih =>
    obtain ⟨hloc, hlocs⟩ := List.forall_mem_cons.mp h
    have herase : m.Hushes (m.erase loc) := hushes_withTable (Table.strongSide_erase_of_none hloc)
    refine herase.trans (ih fun loc' hl => ?_)
    rw [herase.table]
    exact hlocs loc' hl

/-- An effect that takes weak pointers out, and whose settlement is of weak pointers. -/
theorem lightens_settling {taken : List Location} {call : Heap → Heap × Settlement}
    (ht : ∀ loc ∈ taken, (m.table loc.table).strongSide.get? loc.name = none ∧
      m.isGone loc.table = false)
    (hc : ∀ h, (call h).1.estate = h.estate ∧ (call h).2.Weakly m ∧ (call h).2.yields = 1) :
    m.Lightens (m.carryOut (.settling taken call)) 1 := by
  have hout := hushes_takeOut fun loc hl => (ht loc hl).1
  obtain ⟨hestate, hweak, hyields⟩ := hc (m.takeOut taken).heap
  have hhush : m.Hushes (m.carryOut (.settling taken call)) :=
    hout.trans ⟨hestate, rfl, rfl⟩
  refine ⟨hhush, _, agenda_carryOut _, fun a ha => hhush.light ?_, [], replies_carryOut _, ?_⟩
  · refine hweak.light (fun t hmem => ?_) a ha
    obtain ⟨loc, hl, rfl⟩ := List.mem_map.mp hmem
    exact (ht loc hl).2
  · rw [List.length_nil, Nat.zero_add]
    exact (Settlement.yields_actions _ _).trans hyields

theorem find_resolves (h : m.find p = .ok (loc, x)) :
    m.resolve? p = some loc ∧ m.get? loc = some x := by
  refine ⟨?_, find_ok h⟩
  simp only [find, bind_eq_ok, pure_eq_ok] at h
  obtain ⟨l, hl, y, -, hxy⟩ := h
  cases hxy
  exact locate_ok hl

theorem findTwo_resolves (h : m.findTwo p q = .ok ((loc, x), (other, y))) :
    m.resolve? p = some loc ∧ m.resolve? q = some other := by
  unfold findTwo at h
  split at h
  · cases h
  · simp only [bind_eq_ok] at h
    obtain ⟨first, hfirst, second, hsecond, z, -, h⟩ := h
    split at h
    · cases h
    · simp only [bind_eq_ok, pure_eq_ok] at h
      obtain ⟨w, -, h⟩ := h
      cases h
      exact ⟨locate_ok hfirst, locate_ok hsecond⟩

/-- Where a path leads that spares the strong side. -/
theorem Spares.found (h : m.Spares p) (hopen : ∀ p loc, m.resolve? p = some loc →
    m.isGone loc.table = false) (hl : m.resolve? p = some loc) :
    (m.table loc.table).strongSide.get? loc.name = none ∧ m.isGone loc.table = false :=
  ⟨spares_iff.mp h loc hl, hopen p loc hl⟩

/-- A step on weak pointers is light, unless it makes one of a strong pointer. -/
theorem OnlyWeak.lightens (h : m.OnlyWeak s) (hs : ∀ src dst, s ≠ .downgrade src dst)
    (hopen : ∀ p loc, m.resolve? p = some loc → m.isGone loc.table = false) :
    m.Lightens (m.perform (.exec s)) 1 := by
  simp only [perform]
  split
  swap
  · exact .of_reply (lightens_refl (m.reply _))
  next e he =>
  cases s with
  | weakNull k dst =>
    cases he
    refine lightens_settling (by simp) fun g => ⟨rfl, ⟨by simp, by simp, ?_⟩, rfl⟩
    rintro x ⟨⟩
    exact ⟨rfl, h, rfl⟩
  | downgrade src dst => exact absurd rfl (hs src dst)
  | drop target =>
    simp only [plan, bind_eq_ok, pure_eq_ok] at he
    obtain ⟨⟨loc, x⟩, hx, rfl⟩ := he
    obtain ⟨hl, hx⟩ := find_resolves hx
    refine lightens_settling (by simpa using Spares.found h hopen hl) fun g =>
      ⟨rfl, ⟨?_, by simp, by simp⟩, rfl⟩
    simpa using h loc x hl hx
  | reset target =>
    simp only [plan, planReset, bind_eq_ok] at he
    obtain ⟨⟨loc, x⟩, hx, he⟩ := he
    obtain ⟨hl, hx⟩ := find_resolves hx
    have hfound := Spares.found h hopen hl
    obtain ⟨w, rfl⟩ := Slot.isWeak_iff.mp (h loc x hl hx)
    cases he
    exact lightens_settling (by simpa using hfound) fun g =>
      ⟨rfl, ⟨by simp [Slot.isWeak], by simpa [Slot.isWeak] using hfound.1, by simp⟩, rfl⟩
  | move src dst =>
    simp only [plan, planMove, bind_eq_ok] at he
    obtain ⟨target, hd, ⟨loc, x⟩, hx, he⟩ := he
    obtain ⟨hl, hx⟩ := find_resolves hx
    cases he
    refine lightens_settling (by simpa using Spares.found h.1 hopen hl) fun g =>
      ⟨rfl, ⟨by simp, ?_, by simp⟩, rfl⟩
    simpa using ⟨h.1 loc x hl hx, (Spares.found h.2 hopen (locate_ok hd)).1⟩
  | clone src dst =>
    simp only [plan, planClone, bind_eq_ok] at he
    obtain ⟨⟨loc, x⟩, hx, he⟩ := he
    obtain ⟨hl, hx⟩ := find_resolves hx
    have hfound := Spares.found h.1 hopen hl
    obtain ⟨w, rfl⟩ := Slot.isWeak_iff.mp (h.1 loc x hl hx)
    cases he
    refine lightens_settling (by simpa using hfound) fun g =>
      ⟨Weak.estate_acquire w.block g, ⟨by simp, by simpa [Slot.isWeak] using hfound.1, ?_⟩, rfl⟩
    rintro x ⟨⟩
    exact ⟨rfl, h.2, rfl⟩
  | cloneFrom target src =>
    simp only [plan, planCloneFrom, bind_eq_ok] at he
    obtain ⟨⟨⟨loc, x⟩, ⟨other, y⟩⟩, hxy, he⟩ := he
    obtain ⟨hl, hlo⟩ := findTwo_resolves hxy
    have htwo := findTwo_ok hxy
    have hfound := Spares.found h.1 hopen hl
    have hfoundo := Spares.found h.2 hopen hlo
    obtain ⟨w, rfl⟩ := Slot.isWeak_iff.mp (h.1 loc x hl htwo.first)
    obtain ⟨v, rfl⟩ := Slot.isWeak_iff.mp (h.2 other y hlo htwo.second)
    dsimp only at he
    split at he
    swap
    · cases he
    cases he
    refine lightens_settling (by simpa using ⟨hfound, hfoundo⟩) fun g =>
      ⟨Weak.estate_assign w v g, ⟨?_, ?_, by simp⟩, rfl⟩
    · simp [Slot.isWeak]
    · simpa [Slot.isWeak] using ⟨hfound.1, hfoundo.1⟩
  | swap left right =>
    simp only [plan, planSwap, bind_eq_ok] at he
    obtain ⟨⟨⟨loc, x⟩, ⟨other, y⟩⟩, hxy, he⟩ := he
    obtain ⟨hl, hlo⟩ := findTwo_resolves hxy
    have htwo := findTwo_ok hxy
    have hfound := Spares.found h.1 hopen hl
    have hfoundo := Spares.found h.2 hopen hlo
    dsimp only at he
    split at he
    swap
    · cases he
    cases he
    refine lightens_settling (by simpa using ⟨hfound, hfoundo⟩) fun g =>
      ⟨rfl, ⟨by simp, ?_, by simp⟩, rfl⟩
    simpa using ⟨⟨h.2 other y hlo htwo.second, hfound.1⟩, h.1 loc x hl htwo.first, hfoundo.1⟩
  | _ => exact h.elim

/-- A downgrade takes a strong pointer out, and puts it back before anything else. -/
theorem OnlyWeak.lightens_downgrade {src dst : Path} (h : m.OnlyWeak (.downgrade src dst))
    (hopen : ∀ p loc, m.resolve? p = some loc → m.isGone loc.table = false) :
    m.Lightens (m.perform (.exec (.downgrade src dst))) 1 ∨
      ∃ loc p as, (m.perform (.exec (.downgrade src dst))).env.agenda =
          .putBack loc (.strong p) false :: (as ++ m.env.agenda) ∧
        m.Lightens (((m.perform (.exec (.downgrade src dst))).withAgenda (as ++ m.env.agenda)).perform
          (.putBack loc (.strong p) false)) 1 := by
  rcases he : m.plan (.downgrade src dst) with f | e
  · have hexec : m.perform (.exec (.downgrade src dst)) = m.reply (.failed f) := by
      simp only [perform, he]
    rw [hexec]
    exact .inl (.of_reply (lightens_refl (m.reply _)))
  have hexec : m.perform (.exec (.downgrade src dst)) = m.carryOut e := by simp only [perform, he]
  rw [hexec]
  simp only [plan, findStrong, bind_eq_ok] at he
  obtain ⟨⟨loc, p⟩, ⟨⟨loc', x⟩, hx, hp⟩, he⟩ := he
  obtain ⟨hl, hx⟩ := find_resolves hx
  cases x <;> cases hp
  cases he
  refine .inr ⟨loc, p, .place (.weak ⟨p.kind, p.block, p.view⟩) dst .plain ::
    Settlement.letGos [loc.table], agenda_carryOut _, ?_⟩
  have hputBack (k : Machine) :
      k.perform (.putBack loc (.strong p) false) = k.store loc (.strong p) :=
    rfl
  rw [hputBack]
  generalize hk : (m.carryOut (.downgrade loc p dst)).withAgenda _ = k
  have hout : (m.erase loc).Hushes k := by
    rw [← hk]
    exact ⟨Weak.estate_acquire p.block _, rfl, rfl⟩
  have hnone : k.get? loc = none := by
    have herase : (m.erase loc).get? loc = none := by
      rw [get?, erase, table_withTable (has_of_get? hx), Table.get?_erase, if_pos rfl]
    have hobjects : k.heap.objects = (m.erase loc).heap.objects := by
      rw [← hk]
      exact Weak.objects_acquire p.block _
    have htable (t : TableId) : k.table t = (m.erase loc).table t := by
      cases t with
      | root =>
        rw [← hk]
        rfl
      | links o => simp only [table, Heap.linksOf, hobjects]
    rw [get?, htable]
    exact herase
  have hinsert := (hushes_insert_erase hx).trans (hout.insert (x := .strong p) rfl)
  have hhush : m.Hushes (k.store loc (.strong p)) :=
    ⟨hinsert.estate, hinsert.root, hinsert.running⟩
  refine ⟨hhush, .place (.weak ⟨p.kind, p.block, p.view⟩) dst .plain :: Settlement.letGos [loc.table],
    ?_, ?_, [], ?_, ?_⟩
  · rw [agenda_store, hnone, ← hk]
    rfl
  · intro a ha
    rcases List.mem_cons.mp ha with rfl | ha
    · exact .place (hhush.spares.mpr h)
    · obtain ⟨t, ht, rfl⟩ := List.mem_map.mp ha
      obtain rfl := List.mem_singleton.mp (List.mem_of_mem_filter ht)
      exact .letGo (hhush.isGone loc.table ▸ hopen src loc hl)
  · rw [replies_store, ← hk]
    exact replies_carryOut (.downgrade loc p dst)
  · have hplace := Settlement.yields_actions
      { made := some (.weak ⟨p.kind, p.block, p.view⟩, dst, .plain) } [loc.table]
    rw [List.length_nil, Nat.zero_add]
    exact hplace

/-- A step on weak pointers comes to its end, destroys nothing, and leaves the strong side as it
was. -/
theorem Reachable.destroys_onlyWeak (hm : m.Reachable) (ha : m.env.agenda = .exec s :: rest)
    (hs : m.OnlyWeak s) :
    ∃ n, Destroys rest m [] n ∧ m.Hushes n ∧ ∃ r, n.env.replies = r :: m.env.replies := by
  have hopen (p : Path) (loc : Location) (hl : m.resolve? p = some loc) :
      m.isGone loc.table = false := hm.isGone_of_resolve? hm.tidy.unwinding hl
  have hnext := m.hushes_withAgenda rest
  have hstep := step_of_agenda ha
  have hnone : m.starts? = none := by simp only [starts?, ha]
  have hagenda : m.env.agenda = .exec s :: ([] ++ rest) := ha
  -- What is put in front of the agenda after the first steps is light.
  have hrest {k : Machine} (hk : k.Reachable) (hl : (m.withAgenda rest).Lightens k 1) :
      ∃ n, Destroys rest k [] n ∧ m.Hushes n ∧ ∃ r, n.env.replies = r :: m.env.replies := by
    obtain ⟨as, hagenda, hlight, rs, hrs, hyields⟩ := hl.light
    obtain ⟨n, hn, hhush, rs', hrs', hlength⟩ := hk.destroys_light hagenda hlight
    refine ⟨n, hn, (hnext.trans hl.hushes).trans hhush, ?_⟩
    obtain ⟨r, hr⟩ : ∃ r, rs' ++ rs = [r] := List.length_eq_one_iff.mp (by simp; omega)
    refine ⟨r, ?_⟩
    rw [hrs', hrs, ← List.append_assoc, hr]
    rfl
  by_cases hdown : ∃ src dst, s = .downgrade src dst
  · obtain ⟨src, dst, rfl⟩ := hdown
    rcases OnlyWeak.lightens_downgrade (m := m.withAgenda rest) hs hopen with
      hl | ⟨loc, p, as, has, hl⟩
    · rw [← hstep] at hl
      obtain ⟨n, hn, h⟩ := hrest hm.step hl
      exact ⟨n, .of_step hagenda hnone hn, h⟩
    · rw [← hstep] at has hl
      rw [← step_of_agenda has] at hl
      obtain ⟨n, hn, h⟩ := hrest hm.step.step hl
      have hsecond : m.step.starts? = none := by simp only [starts?, has]
      exact ⟨n, .of_step hagenda hnone (.of_step has hsecond hn), h⟩
  · have hl := OnlyWeak.lightens (m := m.withAgenda rest) hs (by simpa using hdown) hopen
    rw [← hstep] at hl
    obtain ⟨n, hn, h⟩ := hrest hm.step hl
    exact ⟨n, .of_step hagenda hnone hn, h⟩

end Machine

end Custody
