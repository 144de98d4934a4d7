import Custody.Proofs.Confinement

/-!
# Weak pointers are invisible to the strong side

* `Machine.InTandem`: two machines with alike work to do. Where both are confined, one of them or
  both go on by a step or a few (`InTandem.advances`), until they have come to alike ends
  (`InTandem.concludes`).
* `Machine.Performs`: steps of a program, one after another, with their replies and the objects that
  are destroyed on the way.
* `Machine.Reachable.weak_invisible`: steps on weak pointers do not change the strong side. Of two
  states with alike strong sides, the same steps on other pointers make two such states again, with
  the same replies, and destroy the same objects in the same order.
-/

namespace Custody

namespace Machine

variable {P Q : Pairing} {m n m' n' : Machine} {a b : Action} {as bs cs rest rest' : List Action}
  {rs ss base base' : List Reply} {s : Step} {steps : List Step} {p : Path}
  {os os' : List ObjectId} {k : Nat}

/-! ## Tables in use -/

/-- The tables of paired nodes are in use by `rest` and `rest'` on both sides or on neither, and
those that are in use are there. -/
structure UsesAlike (P : Pairing) (rest rest' : List Action) (g h : Heap) : Prop where
  alike : ∀ o o', P.object o o' →
    rest.any (·.worksOn (.links o)) = rest'.any (·.worksOn (.links o'))
  left : ∀ o, g.objects.size ≤ o → rest.any (·.worksOn (.links o)) = false
  right : ∀ o, h.objects.size ≤ o → rest'.any (·.worksOn (.links o)) = false

theorem UsesAlike.extend {g h g' h' : Heap} (hu : UsesAlike P rest rest' g h)
    (hPQ : P.Extends Q g h) (hg : g'.Extends g) (hh : h'.Extends h) :
    UsesAlike Q rest rest' g' h' where
  alike o o' ho := by
    rcases hPQ.fresh o o' ho with ho | ⟨ho, ho'⟩
    · exact hu.alike o o' ho
    · rw [hu.left o ho, hu.right o' ho']
  left o ho := hu.left o (hg.objects.trans ho)
  right o ho := hu.right o (hh.objects.trans ho)

/-! ## Side by side -/

/-- Two machines that have alike work to do before `rest` and `rest'`. -/
structure InTandem (P : Pairing) (k : Nat) (rest rest' : List Action) (base base' : List Reply)
    (m n : Machine) : Prop where
  matched : m.Matches P n
  uses : UsesAlike P rest rest' m.heap n.heap
  due : ∃ as bs rs ss, m.env.agenda = as ++ rest ∧ n.env.agenda = bs ++ rest' ∧
    m.env.replies = rs ++ base ∧ n.env.replies = ss ++ base' ∧ Due P k as bs rs ss

/-- Both have done it. They have destroyed paired objects in the same order, and have `k` replies
that are the same as far as the strong side goes. -/
inductive Concludes (P : Pairing) (k : Nat) (rest rest' : List Action) (base base' : List Reply)
    (m n : Machine) : Prop
  | intro {Q : Pairing} {m' n' : Machine} {os os' : List ObjectId} {rs ss : List Reply}
      (extension : P.Extends Q m.heap n.heap) (matched : m'.Matches Q n')
      (left : Destroys rest m os m') (right : Destroys rest' n os' n')
      (destroyed : List.Forall₂ Q.object os os') (replies : m'.env.replies = rs ++ base)
      (replies' : n'.env.replies = ss ++ base') (hears : List.Forall₂ (Hears false) rs ss)
      (number : rs.length = k)

theorem Matches.starts?_eq (h : m.Matches P n) (hm : m.env.agenda = a :: as)
    (hn : n.env.agenda = b :: bs) (hab : a.Alike P b) :
    Option.Rel P.object m.starts? n.starts? := by
  simp only [Machine.starts?, hm, hn]
  cases hab with
  | drop hx => exact h.starts? hx
  | _ => exact .none

/-- Both have gone on, one of them at least by a step. They have destroyed paired objects. -/
inductive Advances (P : Pairing) (k : Nat) (rest rest' : List Action) (base base' : List Reply)
    (m n : Machine) : Prop
  | intro {Q : Pairing} {m' n' : Machine} {os os' : List ObjectId}
      (extension : P.Extends Q m.heap n.heap)
      (tandem : InTandem Q k rest rest' base base' m' n') (left : GoesOn rest m os m')
      (right : GoesOn rest' n os' n') (destroyed : List.Forall₂ Q.object os os')
      (less : m'.potential + n'.potential < m.potential + n.potential)

theorem Concludes.after (h : Concludes Q k rest rest' base base' m' n') (hm : m.Reachable)
    (hn : n.Reachable) (hPQ : P.Extends Q m.heap n.heap) (hl : GoesOn rest m os m')
    (hr : GoesOn rest' n os' n') (hos : List.Forall₂ Q.object os os') :
    Concludes P k rest rest' base base' m n := by
  obtain ⟨hQR, hmatched, hl', hr', hos', hrs, hss, hears, hk⟩ := h
  exact ⟨hPQ.trans hQR (hl.heap hm) (hr.heap hn), hmatched, hl.destroys hl', hr.destroys hr',
    List.rel_append (hos.imp fun _ _ => hQR.le.2 _ _) hos', hrs, hss, hears, hk⟩

section Advance

variable (h : m.Matches P n) (huses : UsesAlike P rest rest' m.heap n.heap) (hm : m.Reachable)
  (hn : n.Reachable)

include h huses

include hm in
/-- One side goes on alone, where at most a weak reference goes. -/
theorem Unheard.advances_left (hq : m.Unheard (cs ++ rest)) (ha : m.env.agenda = a :: (as ++ rest))
    (hb : n.env.agenda = bs ++ rest') (hr : m.env.replies = rs ++ base)
    (hs : n.env.replies = ss ++ base') (hdue : Due P k cs bs rs ss) :
    Advances P k rest rest' base base' m n := by
  have hlt := hm.grounded.potential_step ha
  have hone := GoesOn.one ha
  rw [hq.starts] at hone
  refine ⟨.refl _ _ _, ⟨h.hushes hq.hushes (.refl n), ?_, _, _, _, _, hq.agenda, hb,
    hq.replies.trans hr, hs, hdue⟩, hone, .refl n, .nil, by omega⟩
  exact huses.extend (.refl P _ _) hm.grounded.step_extends (.refl _)

include hn in
theorem Unheard.advances_right (hq : n.Unheard (cs ++ rest')) (ha : m.env.agenda = as ++ rest)
    (hb : n.env.agenda = b :: (bs ++ rest')) (hr : m.env.replies = rs ++ base)
    (hs : n.env.replies = ss ++ base') (hdue : Due P k as cs rs ss) :
    Advances P k rest rest' base base' m n := by
  have hlt := hn.grounded.potential_step hb
  have hone := GoesOn.one hb
  rw [hq.starts] at hone
  refine ⟨.refl _ _ _, ⟨h.hushes (.refl m) hq.hushes, ?_, _, _, _, _, ha, hq.agenda, hr,
    hq.replies.trans hs, hdue⟩, .refl m, hone, .nil, by omega⟩
  exact huses.extend (.refl P _ _) (.refl _) hn.grounded.step_extends

include hm hn

/-- Alike actions are performed side by side. -/
theorem Action.Alike.advances {r s : List Reply} {inside : Bool} (hab : a.Alike P b)
    (ha : m.env.agenda = a :: (as ++ rest)) (hb : n.env.agenda = b :: (bs ++ rest'))
    (hr : m.env.replies = (r ++ rs) ++ base) (hs : n.env.replies = (s ++ ss) ++ base')
    (hlength : r.length = a.consumes) (hears : List.Forall₂ (Hears inside) r s)
    (later : Agenda.Alike P as bs)
    (goOn : ∀ {Q : Pairing} {cs ds : List Action} {r s : List Reply} (node : Int64)
        (onDrop : List Step), P ≤ Q → Agenda.Alike Q cs ds → List.Forall₂ (Hears inside) r s →
        serves inside r.length cs = some a.produces →
        Due Q k (execAll node onDrop ++ (cs ++ as)) (execAll node onDrop ++ (ds ++ bs)) (r ++ rs)
          (s ++ ss))
    (hexec : ∀ s, a = .exec s → m.Works s ∧ n.Works s)
    (hfirst : ∀ o o', a = .unlink o → b = .unlink o' →
      (∀ w rest, (m.table (.links o)).popFirst? ≠ some (.weak w, rest)) ∧
        ∀ w rest, (n.table (.links o')).popFirst? ≠ some (.weak w, rest)) :
    Advances P k rest rest' base base' m n := by
  have hnext : (m.withAgenda (as ++ rest)).Matches P (n.withAgenda (bs ++ rest')) :=
    ⟨h.estate, h.root, h.running⟩
  have hworks (o o' : ObjectId) (ho : P.object o o') :
      (as ++ rest).any (·.worksOn (.links o)) = (bs ++ rest').any (·.worksOn (.links o')) := by
    rw [List.any_append, List.any_append, later.worksOn ho, huses.alike o o' ho]
  have hgoes := hnext.perform hab ((hr.trans (List.append_assoc _ _ _)) : _ = r ++ (rs ++ base))
    ((hs.trans (List.append_assoc _ _ _)) : _ = s ++ (ss ++ base')) hears hlength
    (fun s hs => h.plan hm hn (hexec s hs).1 (hexec s hs).2) hworks hfirst
  rw [← step_of_agenda ha, ← step_of_agenda hb] at hgoes
  obtain ⟨Q, node, onDrop, cs, ds, r', s', hPQ, hmatched, hleft, hright, halike, hr', hs', hears',
    hserves⟩ := hgoes
  have hlt := hm.grounded.potential_step ha
  have hlt' := hn.grounded.potential_step hb
  have huses' := huses.extend hPQ hm.grounded.step_extends hn.grounded.step_extends
  refine ⟨hPQ, ⟨hmatched, huses', _, _, _, _, ?_, ?_, ?_, ?_,
    goOn node onDrop hPQ.le halike hears' hserves⟩, .one ha, .one hb, ?_, by omega⟩
  · rw [hleft, List.append_assoc, List.append_assoc]
    rfl
  · rw [hright, List.append_assoc, List.append_assoc]
    rfl
  · rw [hr', List.append_assoc]
  · rw [hs', List.append_assoc]
  · have hstarts := h.starts?_eq ha hb hab
    generalize m.starts? = x, n.starts? = y at hstarts
    cases hstarts with
    | none => exact .nil
    | some ho => exact .cons (hPQ.le.2 _ _ ho) .nil

/-- A step on weak pointers in a destructor is done on both sides. -/
theorem OnlyWeak.advances {step : Step} (hweak : m.OnlyWeak step)
    (ha : m.env.agenda = .exec step :: (as ++ rest))
    (hb : n.env.agenda = .exec step :: (bs ++ rest')) (hr : m.env.replies = rs ++ base)
    (hs : n.env.replies = ss ++ base')
    (hdue : ∀ x y, Due P k as bs (x :: rs) (y :: ss)) : Advances P k rest rest' base base' m n := by
  obtain ⟨m', hl, hhush, x, hx⟩ := hm.destroys_onlyWeak ha hweak
  obtain ⟨n', hr', hhush', y, hy⟩ := hn.destroys_onlyWeak hb (h.onlyWeak.mp hweak)
  have hlt := hl.potential_lt hm ha
  have hlt' := hr'.potential_lt hn hb
  have hgo : GoesOn rest m [] m' := hl.goesOn.before
  have hgo' : GoesOn rest' n [] n' := hr'.goesOn.before
  refine ⟨.refl _ _ _, ⟨h.hushes hhush hhush', ?_, as, bs, x :: rs, y :: ss, hl.agenda, hr'.agenda,
    ?_, ?_, hdue x y⟩, hgo, hgo', .nil, by omega⟩
  · exact huses.extend (.refl P _ _) (hgo.heap hm) (hgo'.heap hn)
  · rw [hx, hr]
    rfl
  · rw [hy, hs]
    rfl

end Advance

/-- Alike work is over, or goes on. -/
theorem InTandem.advances (h : InTandem P k rest rest' base base' m n) (hm : m.Reachable)
    (hn : n.Reachable) (hc : Confined rest m) (hc' : Confined rest' n) :
    Concludes P k rest rest' base base' m n ∨ Advances P k rest rest' base base' m n := by
  obtain ⟨hmatched, huses, as, bs, rs, ss, ha, hb, hr, hs, hdue⟩ := h
  cases hdue.onset with
  | done hears hlength =>
    exact .inl ⟨.refl _ _ _, hmatched, .done ha, .done hb, .nil, hr, hs, hears, hlength⟩
  | left hhushed hdue =>
    exact .inr ((unheard_of_hushed ha hhushed).advances_left hmatched huses hm ha hb hr hs hdue)
  | right hhushed hdue =>
    exact .inr ((unheard_of_hushed hb hhushed).advances_right hmatched huses hn ha hb hr hs hdue)
  | @both a b as bs r s rs ss inside hab hlength hears later outside goOn =>
    right
    rw [List.cons_append] at ha hb
    have hboth := Action.Alike.advances hmatched huses hm hn hab ha hb hr hs hlength hears later
      goOn
    cases hab with
    | exec step =>
      have hexec := (hc.next ha).1 step rfl
      have hexec' := (hc'.next hb).1 step rfl
      rw [← later.any_isDid] at hexec'
      by_cases hinside : inside = true ∧ m.OnlyWeak step
      · obtain ⟨rfl, hweak⟩ := hinside
        obtain rfl := List.length_eq_zero_iff.mp hlength
        obtain rfl := List.forall₂_nil_left_iff.mp hears
        refine hweak.advances hmatched huses hm hn ha hb hr hs fun x y => ?_
        have hnobody : List.Forall₂ (Hears true) [x] [y] := .cons nofun .nil
        exact goOn 0 [] (le_refl P) .nil hnobody rfl
      · -- nobody listens to a step on weak pointers, but only inside
        have hstrong (hdid : as.any Action.isDid = true) : ¬ m.OnlyWeak step := by
          intro hweak
          cases inside with
          | false => simp [outside rfl] at hdid
          | true => exact hinside ⟨rfl, hweak⟩
        refine hboth (fun s hs => ?_) nofun
        cases hs
        exact ⟨hexec.resolve_right fun h => hstrong h.1 h.2,
          hexec'.resolve_right fun h => hstrong h.1 (hmatched.onlyWeak.mpr h.2)⟩
    | @unlink o o' ho =>
      by_cases hw : ∃ w t, (m.table (.links o)).popFirst? = some (.weak w, t)
      · obtain ⟨w, t, hw⟩ := hw
        have hlist : Agenda.Alike P [.drop (.weak w), .unlink o] [.unlink o'] :=
          .left (.drop w) (.one (.unlink ho))
        exact (unheard_of_first_weak ha hw).advances_left hmatched huses hm ha hb hr hs
          (goOn 0 [] (le_refl P) hlist hears (by rw [hlength]; rfl))
      by_cases hw' : ∃ w t, (n.table (.links o')).popFirst? = some (.weak w, t)
      · obtain ⟨w, t, hw'⟩ := hw'
        have hlist : Agenda.Alike P [.unlink o] [.drop (.weak w), .unlink o'] :=
          .right (.drop w) (.one (.unlink ho))
        exact (unheard_of_first_weak hb hw').advances_right hmatched huses hn ha hb hr hs
          (goOn 0 [] (le_refl P) hlist hears (by rw [hlength]; rfl))
      refine hboth nofun fun i i' hi hi' => ?_
      cases hi
      cases hi'
      exact ⟨fun w t h => hw ⟨w, t, h⟩, fun w t h => hw' ⟨w, t, h⟩⟩
    | _ => exact hboth nofun nofun

/-- Alike work comes to alike ends. -/
theorem InTandem.concludes (h : InTandem P k rest rest' base base' m n) (hm : m.Reachable)
    (hn : n.Reachable) (hc : Confined rest m) (hc' : Confined rest' n) :
    Concludes P k rest rest' base base' m n := by
  induction hp : m.potential + n.potential using Nat.strong_induction_on generalizing P m n with
  | _ p ih =>
    rcases h.advances hm hn hc hc' with hend | ⟨hPQ, htandem, hl, hr, hos, hlt⟩
    · exact hend
    · exact (ih _ (hp ▸ hlt) htandem (hl.reachable hm) (hr.reachable hn) (hl.confined hc)
        (hr.confined hc') rfl).after hm hn hPQ hl hr hos

/-! ## Sequences of operations -/

/-- Steps of a program, each of which is recorded. -/
def script (ss : List Step) : List Action := ss.flatMap fun s => [.exec s, .record]

/-- The steps are performed one after another, until `rest` is left. These replies are recorded, and
the destructors of these objects start on the way. -/
inductive Performs (rest : List Action) :
    List Step → Machine → List Reply → List ObjectId → Machine → Prop
  | nil {m : Machine} (h : m.env.agenda = rest) : Performs rest [] m [] [] m
  | cons {s : Step} {ss : List Step} {m l n : Machine} {r : Reply} {rs : List Reply}
      {os os' : List ObjectId} (ha : m.env.agenda = .exec s :: .record :: (script ss ++ rest))
      (hs : Destroys (.record :: (script ss ++ rest)) m os l)
      (hr : l.step.env.records.back?.map Record.reply = some r)
      (h : Performs rest ss l.step rs os' n) : Performs rest (s :: ss) m (r :: rs) (os ++ os') n

/-- What is confined is so until earlier work is left, if no destructor ends on the way. -/
theorem Confined.extend (h : Confined rest m) (hm : m.Reachable)
    (ha : m.env.agenda = as ++ (bs ++ rest)) (hbs : bs.any Action.isDid = false) :
    Confined (bs ++ rest) m := by
  obtain ⟨n, hs⟩ := hm.grounded.settles ha
  clear ha
  induction hs with
  | done hd => exact .done hd
  | @step m _ a as ha _ ih =>
    obtain ⟨hexec, hnext⟩ := h.next (by rw [ha, List.append_assoc])
    refine .step ha (fun s hs => ?_) (ih hnext hm.step)
    have := hexec s hs
    rwa [List.any_append, hbs, Bool.or_false] at this

theorem any_script {f : Action → Bool} (ss : List Step) (hexec : ∀ s, f (.exec s) = false)
    (hrecord : f .record = false) : (script ss).any f = false := by
  induction ss with
  | nil => rfl
  | cons s ss ih =>
    change (Action.exec s :: .record :: script ss).any f = false
    rw [List.any_cons, List.any_cons, hexec, hrecord, ih]
    rfl

/-- A reply is recorded. -/
theorem step_record {r : Reply} (ha : m.env.agenda = .record :: as)
    (hr : m.env.replies = r :: base) : m.step.heap = m.heap ∧ m.step.env.root = m.env.root ∧
      m.step.env.running = m.env.running ∧ m.step.env.agenda = as ∧
        m.step.env.records.back?.map Record.reply = some r := by
  rw [step_of_agenda ha]
  refine ⟨rfl, rfl, rfl, rfl, ?_⟩
  have hreplies : (m.withAgenda as).env.replies = r :: base := hr
  simp [perform, recordStep, takeReply, takeReplies, mapEnv, hreplies]

/-- Steps that are alike in what they do and what they answer, one after another. -/
theorem Matches.performs (h : m.Matches P n)
    (huses : UsesAlike P rest rest' m.heap n.heap) (hm : m.Reachable) (hn : n.Reachable)
    (ha : m.env.agenda = script steps ++ rest) (hb : n.env.agenda = script steps ++ rest')
    (hc : Confined rest m) (hc' : Confined rest' n) :
    ∃ Q m' n' rs rs' os os', P.Extends Q m.heap n.heap ∧ Performs rest steps m rs os m' ∧
      Performs rest' steps n rs' os' n' ∧ rs.map Reply.heard = rs'.map Reply.heard ∧
      List.Forall₂ Q.object os os' ∧ m'.Matches Q n' := by
  induction steps generalizing P m n with
  | nil =>
    exact ⟨P, m, n, [], [], [], [], .refl _ _ _, .nil ha, .nil hb, rfl, .nil, h⟩
  | cons s steps ih =>
    let later : List Action := .record :: script steps
    replace ha : m.env.agenda = [.exec s] ++ (later ++ rest) := ha
    replace hb : n.env.agenda = [.exec s] ++ (later ++ rest') := hb
    have hdid : later.any Action.isDid = false := by
      rw [List.any_cons, any_script steps (fun _ => rfl) rfl]
      rfl
    have hworks (o : ObjectId) : later.any (·.worksOn (.links o)) = false := by
      rw [List.any_cons, any_script steps (fun _ => rfl) rfl]
      rfl
    have hlater : UsesAlike P (later ++ rest) (later ++ rest') m.heap n.heap := by
      constructor <;> simp only [List.any_append, hworks, Bool.false_or]
      exacts [huses.alike, huses.left, huses.right]
    have hdue : Due P 1 [.exec s] [.exec s] [] [] :=
      .intro (.nil : Agenda.Alike P [] []) (.one (.exec s)) (Eq.refl ([] : List Reply).length) .nil
        rfl rfl
    have htandem : InTandem P 1 (later ++ rest) (later ++ rest') m.env.replies n.env.replies m n :=
      ⟨h, hlater, _, _, _, _, ha, hb, rfl, rfl, hdue⟩
    obtain ⟨hPQ, hmatched, hl, hr, hos, hrs, hss, hears, hone⟩ :=
      htandem.concludes hm hn (hc.extend hm ha hdid) (hc'.extend hn hb hdid)
    rename_i Q k l os os' rs rs'
    obtain ⟨r, rfl⟩ := List.length_eq_one_iff.mp hone
    obtain ⟨r', hheard, rfl⟩ : ∃ r', r.heard = r'.heard ∧ rs' = [r'] := by
      cases hears with
      | cons hrr' hnil =>
        cases hnil
        exact ⟨_, hrr' rfl, rfl⟩
    obtain ⟨hheap, hroot, hrunning, hagenda, hrecord⟩ := step_record hl.agenda hrs
    obtain ⟨hheap', hroot', hrunning', hagenda', hrecord'⟩ := step_record hr.agenda hss
    have hnext : k.step.Matches Q l.step := by
      refine ⟨?_, ?_, ?_⟩
      · rw [hheap, hheap']
        exact hmatched.estate
      · rw [hroot, hroot']
        exact hmatched.root
      · rw [hrunning, hrunning']
        exact hmatched.running
    have hext : k.step.heap.Extends m.heap := hheap ▸ hl.goesOn.heap hm
    have hext' : l.step.heap.Extends n.heap := hheap' ▸ hr.goesOn.heap hn
    obtain ⟨R, m', n', rs, rs', ps, ps', hQR, hps, hps', hrs, hos', hend⟩ :=
      ih hnext (huses.extend hPQ hext hext') (hl.reachable hm).step (hr.reachable hn).step hagenda
        hagenda' ((hl.goesOn.before.confined hc).next hl.agenda).2
        ((hr.goesOn.before.confined hc').next hr.agenda).2
    refine ⟨R, m', n', r :: rs, r' :: rs', os ++ ps, os' ++ ps', hPQ.trans hQR hext hext',
      .cons ha hl hrecord hps, .cons hb hr hrecord' hps', ?_, ?_, hend⟩
    · rw [List.map_cons, List.map_cons, hheard, hrs]
    · exact List.rel_append (hos.imp fun _ _ => hQR.le.2 _ _) hos'

/-! ## The strong side -/

theorem Performs.agenda (h : Performs rest steps m rs os n) : n.env.agenda = rest := by
  induction h with
  | nil h => exact h
  | cons _ _ _ _ ih => exact ih

theorem Performs.extends (h : Performs rest steps m rs os n) (hm : m.Reachable) :
    n.heap.Extends m.heap := by
  induction h with
  | nil => exact .refl _
  | cons _ hs _ _ ih =>
    have hl := hs.reachable hm
    exact (ih hl.step).trans (hl.grounded.step_extends.trans (hs.goesOn.heap hm))

/-- What a script finds in use is used after it. -/
theorem inUse_script (ha : m.env.agenda = script steps ++ rest) (o : ObjectId) :
    m.strongSide.inUse o = rest.any (·.worksOn (.links o)) := by
  simp only [strongSide, ha, List.any_append]
  rw [any_script steps (fun _ => rfl) rfl, Bool.false_or]

theorem held_script (ha : m.env.agenda = script steps ++ rest) :
    m.strongSide.held = (rest.flatMap Action.slots).filter (!·.isWeak) := by
  have hnone : (script steps).flatMap Action.slots = [] := by
    clear ha
    induction steps with
    | nil => rfl
    | cons s steps ih => exact ih
  simp only [strongSide, ha, List.flatMap_append, hnone, List.nil_append]

/-- Only tables that are there are worked on. -/
theorem Reachable.any_worksOn (hm : m.Reachable) (ha : m.env.agenda = as ++ rest) {o : ObjectId}
    (ho : m.heap.objects.size ≤ o) : rest.any (·.worksOn (.links o)) = false := by
  refine List.any_eq_false.mpr fun a hrest hworks => ?_
  have hmem : a ∈ m.env.agenda := ha ▸ List.mem_append_right as hrest
  exact Nat.not_lt.mpr ho ((hm.grounded.agenda a hmem).tables (.links o) hworks)

/-- Weak pointers are invisible to the strong side. Steps on them alone change nothing of it, and
where it is alike, steps on other pointers do the same, whatever weak pointers there are. -/
theorem Reachable.weak_invisible (hm : m.Reachable) :
    (∀ s rest, m.env.agenda = .exec s :: rest → m.OnlyWeak s →
      ∃ n, Destroys rest m [] n ∧ n.strongSide = m.strongSide) ∧
    ∀ n P steps rest rest', n.Reachable → m.strongSide.Alike P n.strongSide →
      m.env.agenda = script steps ++ rest → n.env.agenda = script steps ++ rest' →
      Confined rest m → Confined rest' n →
      ∃ Q m' n' rs rs' os os', P ≤ Q ∧ Performs rest steps m rs os m' ∧
        Performs rest' steps n rs' os' n' ∧ rs.map Reply.heard = rs'.map Reply.heard ∧
        List.Forall₂ Q.object os os' ∧ m'.strongSide.Alike Q n'.strongSide := by
  constructor
  · intro s rest ha hs
    obtain ⟨n, hn, hhush, -⟩ := hm.destroys_onlyWeak ha hs
    refine ⟨n, hn, ?_⟩
    have hheld : n.strongSide.held = m.strongSide.held := by
      simp only [strongSide, hn.agenda, ha, List.flatMap_cons]
      rfl
    have hinUse : n.strongSide.inUse = m.strongSide.inUse := by
      simp only [strongSide, hn.agenda, ha, List.any_cons]
      rfl
    simp only [strongSide] at hheld hinUse ⊢
    rw [hhush.estate, hhush.root, hhush.running, hheld, hinUse]
  · intro n P steps rest rest' hn halike ha hb hc hc'
    have huses : UsesAlike P rest rest' m.heap n.heap := by
      refine ⟨fun o o' ho => ?_, fun o => hm.any_worksOn ha, fun o => hn.any_worksOn hb⟩
      rw [← inUse_script ha, ← inUse_script hb]
      exact halike.inUse o o' ho
    obtain ⟨Q, m', n', rs, rs', os, os', hPQ, hl, hr, hheard, hos, hend⟩ :=
      Matches.performs ⟨halike.estate, halike.root, halike.running⟩ huses hm hn ha hb hc hc'
    have huses' := huses.extend hPQ (hl.extends hm) (hr.extends hn)
    refine ⟨Q, m', n', rs, rs', os, os', hPQ.le, hl, hr, hheard, hos, hend.estate, hend.root,
      hend.running, ?_, fun o o' ho => ?_⟩
    · have hheld := halike.held
      rw [held_script ha, held_script hb] at hheld
      have ha' : m'.env.agenda = script [] ++ rest := hl.agenda
      have hb' : n'.env.agenda = script [] ++ rest' := hr.agenda
      rw [held_script ha', held_script hb']
      exact hheld.imp fun _ _ => .mono hPQ.le
    · have ha' : m'.env.agenda = script [] ++ rest := hl.agenda
      have hb' : n'.env.agenda = script [] ++ rest' := hr.agenda
      rw [inUse_script ha', inUse_script hb']
      exact huses'.alike o o' ho

/-- A step that makes a weak pointer. -/
def observer : Step := .downgrade ⟨false, [], "a"⟩ ⟨false, [], "v"⟩

/-- Steps on strong pointers alone. -/
def releases : List Step := [.drop ⟨false, [], "a"⟩, .drop ⟨false, [], "c"⟩]

/-- The destructor of a node makes a weak pointer and a strong one to what the node holds. Before
the node is released there may be observers. -/
def observed (observers : List Step) : List Step :=
  [.new .node (.node ⟨1, 5, .ofString "", []⟩
      [.downgrade ⟨true, [], "b"⟩ ⟨true, [], "w"⟩, .clone ⟨true, [], "b"⟩ ⟨false, [], "c"⟩])
      .global ⟨false, [], "a"⟩,
   .new .int (.int 7) .global ⟨false, ["a"], "b"⟩] ++ observers ++ releases

theorem weak_invisible_observed :
    (∃ n, Destroys (.record :: script releases ++ [.clear])
        (moment (observed [observer]) false 6) [] n ∧
      n.strongSide = (moment (observed [observer]) false 6).strongSide) ∧
    ∃ Q m n rs rs' os os', Pairing.same (moment (observed [observer]) false 10).heap ≤ Q ∧
      Performs [.clear] releases (moment (observed [observer]) false 10) rs os m ∧
      Performs [.clear] releases (moment (observed []) false 6) rs' os' n ∧
      rs.map Reply.heard = rs'.map Reply.heard ∧ List.Forall₂ Q.object os os' ∧
      m.strongSide.Alike Q n.strongSide := by
  have hm := reachable_moment (observed [observer]) false 10
  have hn := reachable_moment (observed []) false 6
  have hbefore : (moment (observed [observer]) false 6).env.agenda =
      .exec observer :: (.record :: script releases ++ [.clear]) := rfl
  have hagenda : (moment (observed [observer]) false 10).env.agenda =
      script releases ++ [.clear] := rfl
  have hagenda' : (moment (observed []) false 6).env.agenda = script releases ++ [.clear] := rfl
  have hsame : (moment (observed []) false 6).strongSide =
      (moment (observed [observer]) false 10).strongSide := by
    have hestate : (moment (observed []) false 6).heap.estate =
        (moment (observed [observer]) false 10).heap.estate :=
      Heap.estate_eq_of_lists rfl rfl rfl fun a => by cases a <;> rfl
    simp only [strongSide, hestate, hagenda, hagenda', StrongSide.mk.injEq, true_and, and_true]
    exact ⟨by decide, by decide⟩
  have halike := hm.grounded.alike_self
  nth_rewrite 2 [← hsame] at halike
  exact ⟨(reachable_moment (observed [observer]) false 6).weak_invisible.1 _ _ hbefore (by decide),
    hm.weak_invisible.2 _ _ releases _ _ hn halike hagenda hagenda'
      (hm.confined hagenda (by decide +kernel : confines 1 29 _ = true))
      (hn.confined hagenda' (by decide +kernel : confines 1 29 _ = true))⟩

end Machine

end Custody
