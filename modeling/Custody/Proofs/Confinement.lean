import Custody.Proofs.Tandem

/-!
# Confined work

* `Due`, `Onset`: alike work on two stacks of replies, and how it goes on.
* `Machine.Unheard`: a step that lets at most a weak reference go. It leaves the strong side as it
  was.
* `Machine.GoesOn`: some steps, and the objects whose destructors start on the way.
* `Machine.Confined`: until some work is left, what is executed are steps on pointers that are not
  weak; in destructors there may be steps on weak pointers alone. `Machine.confines` computes it.
-/

namespace Custody

/-! ## What is due -/

section Due

variable {P Q : Pairing} {a b : Action} {as bs : List Action} {rs ss : List Reply} {k : Nat}

namespace Machine

theorem alike_execAll (node : Int64) (onDrop : List Step) :
    Agenda.Alike P (execAll node onDrop) (execAll node onDrop) := by
  induction onDrop with
  | nil => exact .nil
  | cons s onDrop ih => exact .both (.exec s) (.both (.did node) ih)

theorem serves_execAll (node : Int64) (onDrop : List Step) :
    serves true 0 (execAll node onDrop) = some 0 := by
  induction onDrop with
  | nil => rfl
  | cons s onDrop ih => exact ih

end Machine

/-- What is due is alike, and the replies that are there are what it needs; in the end `k` of them
are left. First come steps of destructors, to whose replies nobody listens. -/
inductive Due (P : Pairing) (k : Nat) : List Action → List Action → List Reply → List Reply → Prop
  | intro {is js as bs : List Action} {ri si rs ss : List Reply} (inner : Agenda.Alike P is js)
      (outer : Agenda.Alike P as bs) (silent : ri.length = si.length)
      (hears : List.Forall₂ (Hears false) rs ss) (hi : serves true ri.length is = some 0)
      (ho : serves false rs.length as = some k) :
      Due P k (is ++ as) (js ++ bs) (ri ++ rs) (si ++ ss)

/-- How alike work goes on. -/
inductive Onset (P : Pairing) (k : Nat) :
    List Action → List Action → List Reply → List Reply → Prop
  | done {rs ss : List Reply} (hears : List.Forall₂ (Hears false) rs ss) (hlength : rs.length = k) :
      Onset P k [] [] rs ss
  | left {a : Action} {as bs : List Action} {rs ss : List Reply} (ha : a.Hushed)
      (h : Due P k as bs rs ss) : Onset P k (a :: as) bs rs ss
  | right {b : Action} {as bs : List Action} {rs ss : List Reply} (hb : b.Hushed)
      (h : Due P k as bs rs ss) : Onset P k as (b :: bs) rs ss
  | both {a b : Action} {as bs : List Action} {r s rs ss : List Reply} (inside : Bool)
      (hab : a.Alike P b) (hlength : r.length = a.consumes)
      (hears : List.Forall₂ (Hears inside) r s) (later : Agenda.Alike P as bs)
      (outside : inside = false → as.any Action.isDid = false)
      (goOn : ∀ {Q : Pairing} {cs ds : List Action} {r s : List Reply} (node : Int64)
        (onDrop : List Step), P ≤ Q → Agenda.Alike Q cs ds → List.Forall₂ (Hears inside) r s →
        serves inside r.length cs = some a.produces →
        Due Q k (Machine.execAll node onDrop ++ (cs ++ as))
          (Machine.execAll node onDrop ++ (ds ++ bs)) (r ++ rs) (s ++ ss)) :
      Onset P k (a :: as) (b :: bs) (r ++ rs) (s ++ ss)

/-- A step of a destructor, or what comes of it, is next. -/
theorem onset_inner {is js : List Action} {ri si : List Reply} (hab : a.Alike P b)
    (inner : Agenda.Alike P is js) (outer : Agenda.Alike P as bs) (silent : ri.length = si.length)
    (hears : List.Forall₂ (Hears false) rs ss) (hi : serves true ri.length (a :: is) = some 0)
    (ho : serves false rs.length as = some k) :
    Onset P k (a :: (is ++ as)) (b :: (js ++ bs)) (ri ++ rs) (si ++ ss) := by
  obtain ⟨r, r', rfl, hr, hlater⟩ := serves_cons hi
  obtain ⟨s, s', rfl, hs⟩ : ∃ s s', si = s ++ s' ∧ s.length = r.length :=
    ⟨_, _, (List.take_append_drop r.length si).symm,
      List.length_take_of_le (by rw [← silent]; simp)⟩
  have hlength : r'.length = s'.length := by simpa [hs] using silent
  have hears' : List.Forall₂ (Hears true) r s :=
    List.forall₂_iff_get.mpr ⟨hs.symm, fun _ _ _ => nofun⟩
  rw [List.append_assoc, List.append_assoc]
  refine .both true hab hr hears' (inner.append outer) nofun ?_
  intro Q cs ds r s node onDrop hPQ hcs hrs hserves
  have hinside : serves true (r ++ r').length (cs ++ is) = some 0 := by
    rw [List.length_append]
    exact serves_prepend hserves hlater
  have hall :
      serves true (r ++ r').length (Machine.execAll node onDrop ++ (cs ++ is)) = some 0 := by
    rw [← Nat.zero_add (r ++ r').length] at hinside ⊢
    exact serves_prepend (Machine.serves_execAll node onDrop) hinside
  have hsilent : (r ++ r').length = (s ++ s').length := by
    rw [List.length_append, List.length_append, hrs.length_eq, hlength]
  have halike := (Machine.alike_execAll node onDrop).append (hcs.append (inner.mono hPQ))
  simpa only [List.append_assoc] using Due.intro halike (outer.mono hPQ) hsilent hears hall ho

/-- What comes next belongs to no destructor that has started on the way. -/
theorem onset_outer (hab : a.Alike P b) (outer : Agenda.Alike P as bs)
    (hears : List.Forall₂ (Hears false) rs ss) (ho : serves false rs.length (a :: as) = some k) :
    Onset P k (a :: as) (b :: bs) rs ss := by
  have hdid := isDid_of_serves ho
  obtain ⟨r, r', rfl, hr, hlater⟩ := serves_cons ho
  obtain ⟨s, s', hs, hs', rfl⟩ : ∃ s s', List.Forall₂ (Hears false) r s ∧
      List.Forall₂ (Hears false) r' s' ∧ ss = s ++ s' :=
    ⟨_, _, by simpa using List.forall₂_take r.length hears,
      by simpa using List.forall₂_drop r.length hears, (List.take_append_drop r.length ss).symm⟩
  refine .both false hab hr hs outer (fun _ => ?_) ?_
  · exact List.any_eq_false.mpr fun c hc => by simp [hdid c (List.mem_cons_of_mem a hc)]
  · intro Q cs ds r s node onDrop hPQ hcs hrs hserves
    have hall : serves false (r ++ r').length (cs ++ as) = some k := by
      rw [List.length_append]
      exact serves_prepend hserves hlater
    have hsilent : ([] : List Reply).length = ([] : List Reply).length := rfl
    have hdue := Due.intro (Machine.alike_execAll node onDrop) (hcs.append (outer.mono hPQ)) hsilent
      (List.rel_append hrs hs') (Machine.serves_execAll node onDrop) hall
    exact hdue

/-- What is due first is an action on both sides, or a weak reference on one. -/
theorem Due.onset (h : Due P k as bs rs ss) : Onset P k as bs rs ss := by
  obtain @⟨_, _, _, _, ri, si, rs, ss, inner, outer, silent, hears, hi, ho⟩ := h
  cases inner with
  | left ha hinner =>
    exact .left ha (.intro hinner outer silent hears (by rwa [ha.serves] at hi) ho)
  | right hb hinner => exact .right hb (.intro hinner outer silent hears hi ho)
  | both hab hinner => exact onset_inner hab hinner outer silent hears hi ho
  | nil =>
    obtain rfl := List.length_eq_zero_iff.mp (Option.some.inj hi)
    obtain rfl := List.length_eq_zero_iff.mp silent.symm
    cases outer with
    | nil => exact .done hears (Option.some.inj ho)
    | left ha houter => exact .left ha (.intro .nil houter rfl hears rfl (by rwa [ha.serves] at ho))
    | right hb houter => exact .right hb (.intro .nil houter rfl hears rfl ho)
    | both hab houter => exact onset_outer hab houter hears ho

end Due

namespace Machine

variable {P Q : Pairing} {m n m' n' : Machine} {a b : Action} {as bs cs rest rest' : List Action}
  {rs ss base base' : List Reply} {s : Step} {steps : List Step} {p : Path}
  {os os' : List ObjectId} {k : Nat}

/-! ## Weak references that go -/

theorem Matches.hushes (h : m.Matches P n) (hm : m.Hushes m') (hn : n.Hushes n') :
    m'.Matches P n' := by
  refine ⟨?_, ?_, ?_⟩
  · rw [hm.estate, hn.estate]
    exact h.estate
  · rw [hm.root, hn.root]
    exact h.root
  · rw [hm.running, hn.running]
    exact h.running

/-- The next step lets at most a weak reference go, and leaves `as` to be done. -/
structure Unheard (m : Machine) (as : List Action) : Prop where
  hushes : m.Hushes m.step
  agenda : m.step.env.agenda = as
  replies : m.step.env.replies = m.env.replies
  starts : m.starts? = none

theorem unheard_of_step_eq {l : Machine} (hl : m.step = l) (hhush : m.Hushes l)
    (hagenda : l.env.agenda = as) (hreplies : l.env.replies = m.env.replies)
    (hnone : m.starts? = none) : m.Unheard as := by
  subst hl
  exact ⟨hhush, hagenda, hreplies, hnone⟩

/-- An action that lets a weak reference go is not heard of. -/
theorem unheard_of_hushed (ha : m.env.agenda = a :: as) (h : a.Hushed) : m.Unheard as := by
  have hnone : m.starts? = none := by
    simp only [starts?, ha]
    cases h <;> rfl
  have hstep := step_of_agenda ha
  cases h with
  | giveUp b =>
    have hestate : (m.heap.giveUpImplicit b).estate = m.heap.estate := Heap.estate_giveUpImplicit
    exact unheard_of_step_eq hstep ⟨hestate, rfl, rfl⟩ rfl rfl hnone
  | drop w =>
    obtain ⟨k, _ | b, v⟩ := w
    · exact unheard_of_step_eq hstep ⟨rfl, rfl, rfl⟩ rfl rfl hnone
    · have hestate : (m.heap.releaseWeak b).estate = m.heap.estate := Heap.estate_releaseWeak
      exact unheard_of_step_eq hstep ⟨hestate, rfl, rfl⟩ rfl rfl hnone

/-- A weak pointer that comes first in the table of a dying node is dropped. -/
theorem unheard_of_first_weak {o : ObjectId} {w : Weak} {t : Table}
    (ha : m.env.agenda = .unlink o :: as)
    (ht : (m.table (.links o)).popFirst? = some (.weak w, t)) :
    m.Unheard (.drop (.weak w) :: .unlink o :: as) := by
  replace ht : ((m.withAgenda as).table (.links o)).popFirst? = some (.weak w, t) := ht
  have hstep : m.step =
      ((m.withAgenda as).withTable (.links o) t).schedule [.drop (.weak w), .unlink o] := by
    rw [step_of_agenda ha]
    simp only [perform, emptyOut, ht]
  have hhush := (m.hushes_withAgenda as).trans
    (hushes_withTable ((Table.strongSide_popFirst? ht).1 rfl).symm)
  exact unheard_of_step_eq hstep ⟨hhush.estate, hhush.root, hhush.running⟩ rfl rfl
    (by simp only [starts?, ha])

/-! ## Going on -/

/-- The machine goes on, with work before `rest` to be done all the while. The destructors of these
objects start. -/
inductive GoesOn (rest : List Action) : Machine → List ObjectId → Machine → Prop
  | refl (m : Machine) : GoesOn rest m [] m
  | step {m n : Machine} {a : Action} {as : List Action} {os : List ObjectId}
      (h : m.env.agenda = a :: (as ++ rest)) (hs : GoesOn rest m.step os n) :
      GoesOn rest m (m.starts?.toList ++ os) n

theorem Destroys.goesOn (h : Destroys rest m os n) : GoesOn rest m os n := by
  induction h with
  | done => exact .refl _
  | step ha _ ih => exact .step ha ih

namespace GoesOn

theorem one (ha : m.env.agenda = a :: (as ++ rest)) :
    GoesOn rest m m.starts?.toList m.step := by
  rw [← List.append_nil m.starts?.toList]
  exact .step ha (.refl _)

theorem before (h : GoesOn (as ++ rest) m os n) : GoesOn rest m os n := by
  induction h with
  | refl => exact .refl _
  | @step m _ a bs _ ha _ ih =>
    have hagenda : m.env.agenda = a :: ((bs ++ as) ++ rest) := by rw [ha, List.append_assoc]
    exact .step hagenda ih

theorem destroys {l : Machine} (h : GoesOn rest m os n) (h' : Destroys rest n os' l) :
    Destroys rest m (os ++ os') l := by
  induction h with
  | refl => exact h'
  | step ha _ ih =>
    rw [List.append_assoc]
    exact .step ha (ih h')

theorem reachable (h : GoesOn rest m os n) (hm : m.Reachable) : n.Reachable := by
  induction h with
  | refl => exact hm
  | step _ _ ih => exact ih hm.step

theorem heap (h : GoesOn rest m os n) (hm : m.Reachable) : n.heap.Extends m.heap := by
  induction h with
  | refl => exact .refl _
  | step _ _ ih => exact (ih hm.step).trans hm.grounded.step_extends

theorem potential_le (h : GoesOn rest m os n) (hm : m.Reachable) : n.potential ≤ m.potential := by
  induction h with
  | refl => exact Nat.le_refl _
  | step ha _ ih => exact (ih hm.step).trans (hm.grounded.potential_step ha).le

end GoesOn

theorem Destroys.potential_lt (h : Destroys rest m os n) (hm : m.Reachable)
    (ha : m.env.agenda = a :: rest) : n.potential < m.potential := by
  cases h with
  | done h =>
    have := congrArg List.length (ha.symm.trans h)
    simp at this
  | step h hs => exact (hs.goesOn.potential_le hm.step).trans_lt (hm.grounded.potential_step h)

/-! ## What steps are -/

/-- A path spares weak pointers on both sides or on neither. -/
theorem Matches.spares (h : m.Matches P n) : m.Spares p ↔ n.Spares p := by
  have hl := h.resolve? p
  rw [spares_iff, spares_iff]
  generalize m.resolve? p = l, n.resolve? p = l' at hl
  cases hl with
  | none => simp
  | @some l l' hl =>
    have hslot := h.table hl.table l.name
    simp only [Option.some.injEq, forall_eq', ← hl.name]
    generalize (m.table l.table).strongSide.get? l.name = x,
      (n.table l'.table).strongSide.get? l.name = y at hslot
    cases hslot <;> simp

theorem Matches.onlyWeak (h : m.Matches P n) : m.OnlyWeak s ↔ n.OnlyWeak s := by
  cases s <;> simp only [OnlyWeak, h.spares]

/-- Until `rest` is left, the steps that are executed work on pointers that are not weak. Those of
destructors may also make, move or remove weak ones. -/
inductive Confined (rest : List Action) : Machine → Prop
  | done {m : Machine} (h : m.env.agenda = rest) : Confined rest m
  | step {m : Machine} {a : Action} {as : List Action} (h : m.env.agenda = a :: (as ++ rest))
      (ha : ∀ s, a = .exec s → m.Works s ∨ as.any Action.isDid = true ∧ m.OnlyWeak s)
      (hs : Confined rest m.step) : Confined rest m

/-- What is confined is so after a step. -/
theorem Confined.next (h : Confined rest m) (ha : m.env.agenda = a :: (as ++ rest)) :
    (∀ s, a = .exec s → m.Works s ∨ as.any Action.isDid = true ∧ m.OnlyWeak s) ∧
      Confined rest m.step := by
  cases h with
  | done h =>
    have := congrArg List.length (ha.symm.trans h)
    simp at this
    omega
  | step h hexec hs =>
    obtain ⟨rfl, has⟩ := List.cons.inj (h.symm.trans ha)
    cases List.append_cancel_right has
    exact ⟨hexec, hs⟩

theorem GoesOn.confined (h : GoesOn rest m os n) (hc : Confined rest m) : Confined rest n := by
  induction h with
  | refl => exact hc
  | step ha _ ih => exact ih (hc.next ha).2

/-- The step that comes next, if one does, is such a step. After what is done come `n` actions. -/
def admits (n : Nat) (m : Machine) : Bool :=
  match m.env.agenda with
  | .exec s :: as =>
    decide (m.Works s) || (as.take (as.length - n)).any Action.isDid && decide (m.OnlyWeak s)
  | _ => true

/-- Whether `Confined` holds, where `k` more steps leave the last `n` actions. -/
def confines (n : Nat) : Nat → Machine → Bool
  | 0, m => m.env.agenda.length == n
  | k + 1, m => decide (n < m.env.agenda.length) && m.admits n && confines n k m.step

/-- What is computed is right. -/
theorem Reachable.confined (hm : m.Reachable) (ha : m.env.agenda = as ++ rest)
    (h : confines rest.length k m = true) : Confined rest m := by
  induction k generalizing m as with
  | zero =>
    simp only [confines, ha, List.length_append, beq_iff_eq, Nat.add_eq_right,
      List.length_eq_zero_iff] at h
    subst h
    exact .done ha
  | succ k ih =>
    simp only [confines, Bool.and_eq_true, decide_eq_true_eq] at h
    obtain ⟨⟨hlt, hadmits⟩, hnext⟩ := h
    cases as with
    | nil => simp [ha] at hlt
    | cons a as =>
      rw [List.cons_append] at ha
      obtain ⟨bs, hbs⟩ := hm.grounded.step_agenda ha
      refine .step ha ?_ (ih hm.step (hbs.trans (List.append_assoc _ _ _).symm) hnext)
      rintro s rfl
      simp only [admits, ha, List.length_append, Nat.add_sub_cancel, List.take_left,
        Bool.or_eq_true, Bool.and_eq_true, decide_eq_true_eq] at hadmits
      exact hadmits

end Machine

end Custody
