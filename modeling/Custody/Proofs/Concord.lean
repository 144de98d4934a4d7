import Custody.Proofs.Hushed
import Custody.Proofs.Observation

/-!
# Actions in concord

* `Action.Alike`, `Agenda.Alike`: what is to be done is alike, but for weak pointers that are to be
  dropped, and implicit references that are to be given up, on either side.
* `serves`: how many replies a list of actions leaves on the stack. An action takes what it needs
  from those that are there.
* `Settlement.Alike`: what is left of alike operations.
* `Concurs`, `Meets`: calls on alike heaps that lead to alike heaps and to alike results. The lemmas
  `Estate.Alike.*` are of what makes and assigns strong, unique and raw pointers.
-/

namespace Custody

/-! ## Actions -/

/-- Two projections of alike slots to one part. -/
structure Projection.Alike (P : Pairing) (i j : Projection) : Prop where
  source : i.source.Alike P j.source
  selector : i.selector = j.selector
  target : i.target = j.target
  dst : i.dst = j.dst
  listed : i.listed = j.listed

/-- Alike actions. None of these deals with weak pointers, and none ends the program. -/
inductive Action.Alike (P : Pairing) : Action → Action → Prop
  | exec (s : Step) : Action.Alike P (.exec s) (.exec s)
  | drop {x y : Slot} (hx : x.Alike P y) : Action.Alike P (.drop x) (.drop y)
  | did (node : Int64) : Action.Alike P (.did node) (.did node)
  | leave : Action.Alike P .leave .leave
  | unlink {o o' : ObjectId} (ho : P.object o o') : Action.Alike P (.unlink o) (.unlink o')
  | reclaim {o o' : ObjectId} (ho : P.object o o') : Action.Alike P (.reclaim o) (.reclaim o')
  | putBack {l l' : Location} {x y : Slot} (hl : l.Alike P l') (hx : x.Alike P y) (counted : Bool) :
      Action.Alike P (.putBack l x counted) (.putBack l' y counted)
  | place {x y : Slot} (hx : x.Alike P y) (dst : Path) (form : Form) :
      Action.Alike P (.place x dst form) (.place y dst form)
  | answer {r s : Reply} (hr : r.heard = s.heard) : Action.Alike P (.answer r) (.answer s)
  | letGo {t t' : TableId} (ht : t.Alike P t') : Action.Alike P (.letGo t) (.letGo t')
  | gather (n : Nat) : Action.Alike P (.gather n) (.gather n)
  | forget (n : Nat) : Action.Alike P (.forget n) (.forget n)
  | round (n : Nat) (body : List Step) : Action.Alike P (.round n body) (.round n body)
  | project {i j : Projection} {p q : Strong} (hj : i.Alike P j) (hp : p.Alike P q)
      (total : Bool) : Action.Alike P (.project i p total) (.project j q total)

/-- A weak reference goes. -/
inductive Action.Hushed : Action → Prop
  | drop (w : Weak) : Action.Hushed (.drop (.weak w))
  | giveUp (b : BlockId) : Action.Hushed (.giveUpImplicit b)

/-- Alike actions in the same order, and between them, on either side, weak references that go. -/
inductive Agenda.Alike (P : Pairing) : List Action → List Action → Prop
  | nil : Agenda.Alike P [] []
  | both {a b as bs} (h : a.Alike P b) (hs : Agenda.Alike P as bs) :
      Agenda.Alike P (a :: as) (b :: bs)
  | left {a as bs} (h : a.Hushed) (hs : Agenda.Alike P as bs) : Agenda.Alike P (a :: as) bs
  | right {b as bs} (h : b.Hushed) (hs : Agenda.Alike P as bs) : Agenda.Alike P as (b :: bs)

section Actions

variable {P Q : Pairing} {a b : Action} {as bs cs ds : List Action}

theorem Projection.Alike.mono (hPQ : P ≤ Q) {i j : Projection} (h : i.Alike P j) : i.Alike Q j :=
  ⟨h.source.mono hPQ, h.selector, h.target, h.dst, h.listed⟩

/-- What is alike stays alike when more is paired. -/
theorem Action.Alike.mono (hPQ : P ≤ Q) (h : a.Alike P b) : a.Alike Q b := by
  cases h with
  | exec s => exact .exec s
  | drop hx => exact .drop (hx.mono hPQ)
  | did node => exact .did node
  | leave => exact .leave
  | unlink ho => exact .unlink (hPQ.2 _ _ ho)
  | reclaim ho => exact .reclaim (hPQ.2 _ _ ho)
  | putBack hl hx counted => exact .putBack (hl.mono hPQ) (hx.mono hPQ) counted
  | place hx dst form => exact .place (hx.mono hPQ) dst form
  | answer hr => exact .answer hr
  | letGo ht => exact .letGo (ht.mono hPQ)
  | gather n => exact .gather n
  | forget n => exact .forget n
  | round n body => exact .round n body
  | project hj hp total => exact .project (hj.mono hPQ) (hp.mono hPQ) total

namespace Agenda.Alike

theorem mono (hPQ : P ≤ Q) (h : Agenda.Alike P as bs) : Agenda.Alike Q as bs := by
  induction h with
  | nil => exact .nil
  | both h _ ih => exact .both (h.mono hPQ) ih
  | left h _ ih => exact .left h ih
  | right h _ ih => exact .right h ih

theorem append (h : Agenda.Alike P as bs) (h' : Agenda.Alike P cs ds) :
    Agenda.Alike P (as ++ cs) (bs ++ ds) := by
  induction h with
  | nil => exact h'
  | both h _ ih => exact .both h ih
  | left h _ ih => exact .left h ih
  | right h _ ih => exact .right h ih

theorem of_forall₂ (h : List.Forall₂ (Action.Alike P) as bs) : Agenda.Alike P as bs := by
  induction h with
  | nil => exact .nil
  | cons h _ ih => exact .both h ih

theorem one (h : a.Alike P b) : Agenda.Alike P [a] [b] := .both h .nil

theorem refl_exec (ss : List Step) : Agenda.Alike P (ss.map .exec) (ss.map .exec) := by
  induction ss with
  | nil => exact .nil
  | cons s ss ih => exact .both (.exec s) ih

end Agenda.Alike

/-- Alike actions work on the tables of paired nodes alike. -/
theorem Action.Alike.worksOn {o o' : ObjectId} (h : a.Alike P b) (ho : P.object o o') :
    a.worksOn (.links o) = b.worksOn (.links o') := by
  have htable {t t' : TableId} (ht : t.Alike P t') :
      (t == .links o) = (t' == .links o') := by
    rw [Bool.eq_iff_iff, beq_iff_eq, beq_iff_eq, ht.eq_iff (.links ho)]
  cases h with
  | putBack hl => exact htable hl.table
  | letGo ht => exact htable ht
  | project hj => exact htable hj.source.table
  | _ => rfl

/-- What alike actions have in common, and no reference that goes has, alike agendas have in
common. -/
theorem Agenda.Alike.any {f g : Action → Bool} (h : Agenda.Alike P as bs)
    (hfg : ∀ a b, a.Alike P b → f a = g b) (hf : ∀ a, a.Hushed → f a = false)
    (hg : ∀ a, a.Hushed → g a = false) : as.any f = bs.any g := by
  induction h with
  | nil => rfl
  | both h _ ih => rw [List.any_cons, List.any_cons, hfg _ _ h, ih]
  | left h _ ih => rw [List.any_cons, hf _ h, Bool.false_or, ih]
  | right h _ ih => rw [List.any_cons, hg _ h, Bool.false_or, ih]

theorem Agenda.Alike.worksOn {o o' : ObjectId} (h : Agenda.Alike P as bs) (ho : P.object o o') :
    as.any (·.worksOn (.links o)) = bs.any (·.worksOn (.links o')) := by
  have hnone (t : TableId) (a : Action) (ha : a.Hushed) : a.worksOn t = false := by
    cases ha <;> rfl
  exact h.any (fun _ _ hab => hab.worksOn ho) (hnone _) (hnone _)

end Actions

/-! ## Replies on the stack -/

/-- How many replies the action takes off the stack. -/
def Action.consumes : Action → Nat
  | .did _ | .record | .place _ _ .during => 1
  | .gather n | .forget n => n
  | .project j _ _ | .projectWeak j _ _ => j.listed.toNat
  | _ => 0

/-- The action ends a step of a destructor. -/
def Action.isDid : Action → Bool
  | .did _ => true
  | _ => false

/-- How many replies are there after the actions, if so many are there before and none of the
actions wants more than there are. Only `inside` a destructor a step of it may end. -/
def serves (inside : Bool) : Nat → List Action → Option Nat
  | r, [] => some r
  | r, a :: as =>
    if a.consumes ≤ r ∧ (a.isDid = true → inside = true) then
      serves inside (r - a.consumes + a.produces) as
    else none

section Serving

variable {inside : Bool} {a : Action} {as bs : List Action} {r s : Nat}

theorem serves_append (inside : Bool) (r : Nat) (as bs : List Action) :
    serves inside r (as ++ bs) = (serves inside r as).bind (serves inside · bs) := by
  induction as generalizing r with
  | nil => rfl
  | cons a as ih =>
    simp only [List.cons_append, serves]
    split
    · exact ih _
    · rfl

/-- Replies that lie deeper on the stack are not touched. -/
theorem serves_add (h : serves inside r as = some s) (k : Nat) :
    serves inside (r + k) as = some (s + k) := by
  induction as generalizing r with
  | nil =>
    cases h
    rfl
  | cons a as ih =>
    simp only [serves] at h ⊢
    split at h
    · next hr =>
      rw [if_pos ⟨Nat.le_add_right_of_le hr.1, hr.2⟩, ← ih h]
      congr 1
      omega
    · cases h

/-- What is fine outside of destructors is fine inside. -/
theorem serves_inside (h : serves false r as = some s) (inside : Bool) :
    serves inside r as = some s := by
  induction as generalizing r with
  | nil => exact h
  | cons a as ih =>
    simp only [serves] at h ⊢
    split at h
    · next hr =>
      rw [if_pos ⟨hr.1, fun hdid => absurd (hr.2 hdid) Bool.false_ne_true⟩]
      exact ih h
    · cases h

theorem isDid_of_serves (h : serves false r as = some s) : ∀ a ∈ as, a.isDid = false := by
  induction as generalizing r with
  | nil => simp
  | cons a as ih =>
    simp only [serves] at h
    split at h
    · next hr =>
      exact List.forall_mem_cons.mpr
        ⟨Bool.eq_false_iff.mpr fun hdid => absurd (hr.2 hdid) Bool.false_ne_true, ih h⟩
    · cases h

theorem serves_of_consumes_eq_zero (h : ∀ a ∈ as, a.consumes = 0) (inside : Bool) (r : Nat) :
    serves inside r as = some (r + (as.map Action.produces).sum) := by
  induction as generalizing r with
  | nil => rfl
  | cons a as ih =>
    obtain ⟨ha, has⟩ := List.forall_mem_cons.mp h
    have hdid : a.isDid = false := by
      cases a <;> first | rfl | cases ha
    simp only [serves, ha, hdid, Nat.zero_le, Bool.false_eq_true, false_implies, and_self, ↓reduceIte,
      Nat.sub_zero, List.map_cons, List.sum_cons]
    rw [ih has, Nat.add_assoc]

theorem Action.Hushed.serves (h : a.Hushed) (inside : Bool) (r : Nat) (as : List Action) :
    Custody.serves inside r (a :: as) = Custody.serves inside r as := by
  cases h <;> simp [Custody.serves, Action.consumes, Action.produces, Action.isDid]

theorem Action.Alike.serves {P : Pairing} {b : Action} (h : a.Alike P b) :
    a.consumes = b.consumes ∧ a.produces = b.produces ∧ a.isDid = b.isDid := by
  cases h with
  | project hj => exact ⟨congrArg Bool.toNat hj.listed, rfl, rfl⟩
  | place _ _ form => cases form <;> exact ⟨rfl, rfl, rfl⟩
  | _ => exact ⟨rfl, rfl, rfl⟩

theorem Agenda.Alike.any_isDid {P : Pairing} (h : Agenda.Alike P as bs) :
    as.any Action.isDid = bs.any Action.isDid := by
  have hnone (a : Action) (ha : a.Hushed) : a.isDid = false := by
    cases ha <;> rfl
  exact h.any (fun _ _ hab => hab.serves.2.2) hnone hnone

theorem serves_prepend {l y z : Nat} (has : serves inside r as = some y)
    (hbs : serves inside (y + l) bs = some z) : serves inside (r + l) (as ++ bs) = some z := by
  rw [serves_append, serves_add has l, Option.bind_some, hbs]

/-- An action takes the replies that it wants, and leaves what it produces. -/
theorem serves_cons {rs : List Reply} (h : serves inside rs.length (a :: as) = some s) :
    ∃ r r', rs = r ++ r' ∧ r.length = a.consumes ∧
      serves inside (a.produces + r'.length) as = some s := by
  simp only [serves] at h
  split at h
  · next hle =>
    refine ⟨_, _, (List.take_append_drop a.consumes rs).symm, List.length_take_of_le hle.1, ?_⟩
    rw [List.length_drop, Nat.add_comm]
    exact h
  · cases h

end Serving

/-! ## Settlements -/

/-- Settlements that leave alike things to be done. -/
structure Settlement.Alike (P : Pairing) (s t : Settlement) : Prop where
  surplus : List.Forall₂ (Slot.Alike P) s.surplus t.surplus
  operands : List.Forall₂ (fun x y => x.1.Alike P y.1 ∧ x.2.Alike P y.2) s.operands t.operands
  counted : s.counted = t.counted
  made : Option.Rel (fun x y => x.1.Alike P y.1 ∧ x.2 = y.2) s.made t.made
  reply : Option.Rel (fun r r' => r.heard = r'.heard) s.reply t.reply

section Settlements

variable {P Q : Pairing} {s t : Settlement} {ts us : List TableId}

/-- Alike settlements leave alike agendas. -/
theorem Settlement.Alike.actions (h : s.Alike P t) (ht : List.Forall₂ (TableId.Alike P) ts us) :
    Agenda.Alike P (s.actions ts) (t.actions us) := by
  have hputBacks (counted : Bool) {xs ys : List (Location × Slot)}
      (hxy : List.Forall₂ (fun x y => x.1.Alike P y.1 ∧ x.2.Alike P y.2) xs ys) :
      List.Forall₂ (Action.Alike P) (putBacks counted xs) (putBacks counted ys) := by
    induction hxy generalizing counted with
    | nil => exact .nil
    | cons hxy _ ih => exact .cons (.putBack hxy.1 hxy.2 counted) (ih false)
  have hsurplus : List.Forall₂ (Action.Alike P) (s.surplus.map .drop) (t.surplus.map .drop) :=
    List.forall₂_map_left_iff.mpr (List.forall₂_map_right_iff.mpr (h.surplus.imp fun _ _ => .drop))
  have hmade : List.Forall₂ (Action.Alike P)
      (s.made.toList.map fun x => .place x.1 x.2.1 x.2.2)
      (t.made.toList.map fun x => .place x.1 x.2.1 x.2.2) := by
    have hmade := h.made
    cases hs : s.made <;> cases ht : t.made <;> rw [hs, ht] at hmade <;> cases hmade
    · exact .nil
    · next x y hxy =>
      obtain ⟨x, dst, form⟩ := x
      obtain ⟨y, dst', form'⟩ := y
      obtain ⟨hxy, heq⟩ := hxy
      cases heq
      exact .cons (.place hxy dst form) .nil
  have hreply : List.Forall₂ (Action.Alike P) (s.reply.toList.map .answer)
      (t.reply.toList.map .answer) := by
    have hreply := h.reply
    cases hs : s.reply <;> cases ht : t.reply <;> rw [hs, ht] at hreply <;> cases hreply
    · exact .nil
    · next hr => exact .cons (.answer hr) .nil
  have hletGos : List.Forall₂ (Action.Alike P) (letGos ts) (letGos us) := by
    induction ht with
    | nil => exact .nil
    | cons ht _ ih =>
      cases ht with
      | root => exact ih
      | links ho => exact .cons (.letGo (.links ho)) ih
  have hoperands := hputBacks s.counted h.operands
  rw [actions_eq, actions_eq, ← h.counted]
  exact .append (.append (.append (.append (.of_forall₂ hsurplus) (.of_forall₂ hoperands))
    (.of_forall₂ hmade)) (.of_forall₂ hreply)) (.of_forall₂ hletGos)

/-- A settlement that makes nothing for a list of replies leaves what it yields. -/
theorem Settlement.serves_actions (hs : ∀ x ∈ s.made, x.2.2 ≠ .during) (inside : Bool) (r : Nat) :
    serves inside r (s.actions ts) = some (r + s.yields) := by
  rw [← yields_actions s ts]
  refine serves_of_consumes_eq_zero (fun a ha => ?_) inside r
  have hputBacks (counted : Bool) (xs : List (Location × Slot)) (ha : a ∈ putBacks counted xs) :
      a.consumes = 0 := by
    induction xs generalizing counted with
    | nil => cases ha
    | cons x xs ih =>
      rcases List.mem_cons.mp ha with rfl | ha
      · rfl
      · exact ih false ha
  simp only [actions, List.mem_append] at ha
  obtain (((ha | ha) | ha) | ha) | ha := ha
  · obtain ⟨x, -, rfl⟩ := List.mem_map.mp ha
    rfl
  · exact hputBacks _ _ ha
  · obtain ⟨⟨x, dst, form⟩, hx, rfl⟩ := List.mem_map.mp ha
    have hform := hs _ (Option.mem_toList.mp hx)
    cases form with
    | during => exact absurd rfl hform
    | plain | promoted => rfl
  · obtain ⟨r, -, rfl⟩ := List.mem_map.mp ha
    rfl
  · obtain ⟨t, -, rfl⟩ := List.mem_map.mp ha
    rfl

end Settlements

/-! ## Calls on the heap -/

/-- The pairing that follows: what is paired anew are new objects, and blocks. -/
structure Pairing.Extends (P Q : Pairing) (h k : Heap) : Prop where
  le : P ≤ Q
  fresh : ∀ o o', Q.object o o' → P.object o o' ∨ h.objects.size ≤ o ∧ k.objects.size ≤ o'

/-- Calls on the heaps `h` and `k` lead to alike heaps, and to alike results. -/
def Concurs {α β : Type} (P : Pairing) (h k : Heap) (R : Pairing → α → β → Prop) (x : Heap × α)
    (y : Heap × β) : Prop :=
  ∃ Q, P.Extends Q h k ∧ x.1.estate.Alike Q y.1.estate ∧ R Q x.2 y.2

/-- Two outcomes, both failures of one kind or both alike. -/
inductive Meets {ε α β : Type} (R : α → β → Prop) : Except ε α → Except ε β → Prop
  | ok {x : α} {y : β} (h : R x y) : Meets R (.ok x) (.ok y)
  | error (e : ε) : Meets R (.error e) (.error e)

section Calls

variable {P Q : Pairing} {h k : Heap} {o o' : ObjectId} {b c : BlockId} {a : Alloc} {kind : Kind}

theorem Pairing.Extends.refl (P : Pairing) (h k : Heap) : P.Extends P h k :=
  ⟨le_refl P, fun _ _ => .inl⟩

theorem Pairing.Extends.trans {R : Pairing} {h' k' : Heap} (hPQ : P.Extends Q h k)
    (hQR : Q.Extends R h' k') (hh : h'.Extends h) (hk : k'.Extends k) : P.Extends R h k := by
  refine ⟨hPQ.le.trans hQR.le, fun o o' ho => ?_⟩
  rcases hQR.fresh o o' ho with ho | ⟨ho, ho'⟩
  · exact hPQ.fresh o o' ho
  · exact .inr ⟨hh.objects.trans ho, hk.objects.trans ho'⟩

theorem Concurs.same {α β : Type} {R : Pairing → α → β → Prop} {x : Heap × α} {y : Heap × β}
    (he : x.1.estate.Alike P y.1.estate) (hR : R P x.2 y.2) : Concurs P h k R x y :=
  ⟨P, .refl P h k, he, hR⟩

/-- Blocks for paired objects are granted on both sides or on neither, and are paired. -/
theorem Estate.Alike.createBlock (he : h.estate.Alike P k.estate) (ho : P.object o o') :
    Concurs P h k (fun Q => Meets Q.block) (h.createBlock kind a o) (k.createBlock kind a o') := by
  have hbudget := congrFun he.budget a
  rcases Heap.createBlock_cases kind a o h with ⟨h0, h', hh, hestate⟩ | ⟨h0, h', hh, hestate⟩ <;>
    rcases Heap.createBlock_cases kind a o' k with
      ⟨h0', k', hk, hestate'⟩ | ⟨h0', k', hk, hestate'⟩ <;>
    rw [hh, hk]
  · refine .same ?_ (.error _)
    rw [hestate, hestate']
    exact he
  · exact absurd (hbudget ▸ h0) h0'
  · exact absurd (hbudget ▸ h0') h0
  · obtain ⟨Q, hPQ, hobject, hblock, halike⟩ := (he.spend a).addBlock (b := h.blocks.size)
      (c := k.blocks.size) (s := ⟨1, some o⟩) (t := ⟨1, some o'⟩)
      (by simp [Estate.spend, Heap.estate])
      (by simp [Estate.spend, Heap.estate]) ⟨rfl, .some ho⟩
    refine ⟨Q, ⟨hPQ, fun _ _ h => .inl (hobject ▸ h)⟩, ?_, .ok hblock⟩
    rw [hestate, hestate']
    exact halike

/-- Objects are made on both sides or on neither, and are paired. -/
theorem Estate.Alike.construct (he : h.estate.Alike P k.estate) (p : Pointee) (a : Alloc) :
    Concurs P h k (fun Q x y => Q.object x.1 y.1 ∧ x.2 = y.2) (h.construct p a)
      (k.construct p a) := by
  have hbudget := congrFun he.budget a
  have hnone (g : Heap) : g.estate.object g.objects.size = none := by simp [Heap.estate]
  have hmade (n n' : Option Nat) (hn : n.isSome = n'.isSome) :
      (Heap.made p a n).Alike P (Heap.made p a n') := ⟨rfl, rfl, rfl, hn, Table.alike_empty⟩
  have hadd {e f : Estate} (hef : e.Alike P f) (n n' : Option Nat) (hn : n.isSome = n'.isSome)
      (hnone : e.object h.objects.size = none) (hnone' : f.object k.objects.size = none)
      {h' k' : Heap} (hh : h'.estate = e.addObject h.objects.size (Heap.made p a n))
      (hk : k'.estate = f.addObject k.objects.size (Heap.made p a n')) (r : Option Layout) :
      Concurs P h k (fun Q x y => Q.object x.1 y.1 ∧ x.2 = y.2) (h', h.objects.size, r)
        (k', k.objects.size, r) := by
    obtain ⟨Q, hPQ, hfresh, ho, halike⟩ := hef.addObject hnone hnone' (hmade n n' hn)
    refine ⟨Q, ⟨hPQ, fun o o' ho => ?_⟩, ?_, ho, rfl⟩
    · exact (hfresh o o' ho).imp_right (And.imp Eq.ge Eq.ge)
    · rw [hh, hk]
      exact halike
  rcases Heap.construct_cases p a h with ⟨hl, h', hh, hestate⟩ | ⟨hl, h0, h', hh, hestate⟩ |
      ⟨hl, h0, h', n, hh, hestate⟩ <;>
    rcases Heap.construct_cases p a k with ⟨hl', k', hk, hestate'⟩ | ⟨hl', h0', k', hk, hestate'⟩ |
      ⟨hl', h0', k', n', hk, hestate'⟩ <;>
    rw [hh, hk]
  · exact hadd he _ _ rfl (hnone h) (hnone k) hestate hestate' _
  · exact absurd hl hl'
  · exact absurd hl hl'
  · exact absurd hl' hl
  · exact hadd he _ _ rfl (hnone h) (hnone k) hestate hestate' _
  · exact absurd (hbudget ▸ h0) h0'
  · exact absurd hl' hl
  · exact absurd (hbudget ▸ h0') h0
  · exact hadd (he.spend a) (some n) (some n') rfl (hnone h) (hnone k) hestate hestate' _

theorem Estate.Alike.acquire (he : h.estate.Alike P k.estate) {b c : Option BlockId}
    (hbc : Option.Rel P.block b c) :
    (Strong.acquire b h).estate.Alike P (Strong.acquire c k).estate := by
  cases hbc with
  | none => exact he
  | some hbc =>
    rw [Strong.acquire, Strong.acquire, Heap.estate_addStrong, Heap.estate_addStrong]
    exact he.modifyBlock hbc fun s t hst => ⟨congrArg (· + 1) hst.strong, hst.pointee⟩

/-- Pairs are one to one, so two pointers share a block on both sides or on neither. -/
theorem Option.Rel.eq_iff {R : Nat → Nat → Prop} (hR : Relator.BiUnique R) {b b' c c' : Option Nat}
    (h : Option.Rel R b b') (h' : Option.Rel R c c') : b = c ↔ b' = c' := by
  cases h with
  | none => cases h' <;> simp
  | some h =>
    cases h' with
    | none => simp
    | some h' =>
      simp only [Option.some.injEq]
      exact ⟨fun heq => hR.2 h (heq ▸ h'), fun heq => hR.1 h (heq ▸ h')⟩

/-- Alike pointers are assigned in the same way. -/
theorem Estate.Alike.assign (he : h.estate.Alike P k.estate) {p p' q q' : Strong}
    (hp : p.Alike P p') (hq : q.Alike P q') :
    (p.assign q h).1.estate.Alike P (p'.assign q' k).1.estate ∧
      (p.assign q h).2.1.Alike P (p'.assign q' k).2.1 ∧
      List.Forall₂ (Strong.Alike P) (p.assign q h).2.2 (p'.assign q' k).2.2 := by
  unfold Strong.assign
  by_cases hsame : p.block = q.block
  · rw [if_pos hsame, if_pos ((Option.Rel.eq_iff P.block_unique hp.block hq.block).mp hsame)]
    exact ⟨he, ⟨hp.kind, hp.block, hq.view⟩, .nil⟩
  · rw [if_neg hsame,
      if_neg (mt (Option.Rel.eq_iff P.block_unique hp.block hq.block).mpr hsame)]
    exact ⟨he.acquire hq.block, ⟨hp.kind, hq.block, hq.view⟩, .cons hp .nil⟩

theorem Estate.Alike.constructUnique (he : h.estate.Alike P k.estate) (kind : Kind) (p : Pointee)
    (a : Alloc) : Concurs P h k (fun Q x y => ∃ o o' r, Q.object o o' ∧
        x = (⟨kind, a, some o⟩, r) ∧ y = (⟨kind, a, some o'⟩, r))
      (Unique.construct kind p a h) (Unique.construct kind p a k) := by
  obtain ⟨Q, hQ, halike, ho, hrefused⟩ := he.construct p a
  refine ⟨Q, hQ, ?_, _, _, _, ho, rfl, Prod.ext rfl hrefused.symm⟩
  simp only [Unique.construct]
  split <;> split <;> exact halike

/-- Alike unique pointers are promoted, or keep their objects, on both sides. -/
theorem Estate.Alike.promote (he : h.estate.Alike P k.estate) {u v : Unique} (hu : u.Alike P v) :
    Concurs P h k (fun Q x y => x.1.Alike Q y.1 ∧ Meets (Strong.Alike Q) x.2 y.2) (u.promote h)
      (v.promote k) := by
  obtain ⟨kind, a, o⟩ := u
  obtain ⟨kind', a', o'⟩ := v
  obtain ⟨rfl, rfl, ho⟩ := hu
  cases ho with
  | none => exact .same he ⟨⟨rfl, rfl, .none⟩, .ok (Strong.alike_null _)⟩
  | @some o o' ho =>
    obtain ⟨Q, hQ, halike, hmeets⟩ : Concurs P h k (fun Q => Meets Q.block)
        (h.createBlock kind a o) (k.createBlock kind a o') := he.createBlock ho
    simp only [Unique.promote]
    rcases hc : h.createBlock kind a o with ⟨h', r⟩
    rcases hc' : k.createBlock kind a o' with ⟨k', r'⟩
    rw [hc, hc'] at halike hmeets
    cases hmeets with
    | ok hb =>
      exact ⟨Q, hQ, halike, Unique.alike_null _ _,
        .ok ⟨rfl, .some hb, .some (Place.alike_whole (hQ.le.2 _ _ ho))⟩⟩
    | error l => exact ⟨Q, hQ, halike, ⟨rfl, rfl, .some (hQ.le.2 _ _ ho)⟩, .error l⟩

/-- New strong pointers that are alike, or what is left where one was refused. -/
def Strong.NewAlike (Q : Pairing) (x y : Except Layout Strong × List Unique) : Prop :=
  Meets (Strong.Alike Q) x.1 y.1 ∧ List.Forall₂ (Unique.Alike Q) x.2 y.2

theorem Estate.Alike.adopt (he : h.estate.Alike P k.estate) {r s : Raw} (hr : r.Alike P s) :
    Concurs P h k Strong.NewAlike (Strong.adopt r h) (Strong.adopt s k) := by
  obtain ⟨Q, hQ, halike, hu, hmeets⟩ := he.promote (u := ⟨r.kind, r.alloc, some r.object⟩)
    (v := ⟨s.kind, s.alloc, some s.object⟩) ⟨hr.kind, hr.alloc, .some hr.object⟩
  unfold Strong.adopt
  rcases hp : Unique.promote ⟨r.kind, r.alloc, some r.object⟩ h with ⟨h', u, x⟩
  rcases hp' : Unique.promote ⟨s.kind, s.alloc, some s.object⟩ k with ⟨k', v, y⟩
  rw [hp, hp'] at halike hu hmeets
  cases hmeets with
  | ok hst => exact ⟨Q, hQ, halike, .ok hst, .nil⟩
  | error l => exact ⟨Q, hQ, halike, .error l, .cons hu .nil⟩

/-- Alike strong pointers are made, or the same is left over. -/
theorem Estate.Alike.constructStrong (he : h.estate.Alike P k.estate) (kind : Kind) (p : Pointee)
    (a : Alloc) : Concurs P h k Strong.NewAlike (Strong.construct kind p a h)
      (Strong.construct kind p a k) := by
  obtain ⟨Q, hQ, halike, o, o', r, ho, hx, hy⟩ := he.constructUnique kind p a
  have hsize {g g' : Heap} {u : Unique} {r : Option Layout}
      (hg : Unique.construct kind p a g = (g', u, r)) : g.objects.size ≤ g'.objects.size := by
    simp only [Unique.construct] at hg
    rcases hc : g.construct p a with ⟨g₁, o, r₁⟩
    obtain ⟨-, -, serial, hobjects, -⟩ := Heap.construct_eq hc
    rw [hc] at hg
    have hsize : g'.objects = g₁.objects := by
      cases hg
      dsimp only
      split <;> rfl
    rw [hsize, hobjects, Array.size_push]
    exact Nat.le_succ _
  unfold Strong.construct
  rcases hc : Unique.construct kind p a h with ⟨h', x⟩
  rcases hc' : Unique.construct kind p a k with ⟨k', y⟩
  rw [hc, hc'] at halike
  rw [hc] at hx
  rw [hc'] at hy
  cases hx
  cases hy
  have hu : Unique.Alike Q ⟨kind, a, some o⟩ ⟨kind, a, some o'⟩ := ⟨rfl, rfl, .some ho⟩
  cases r with
  | some l => exact ⟨Q, hQ, halike, .error l, .cons hu .nil⟩
  | none =>
    obtain ⟨Q', hQ', halike', hu', hmeets⟩ := Estate.Alike.promote halike hu
    have hextends : P.Extends Q' h k := by
      refine ⟨hQ.le.trans hQ'.le, fun o o' ho => ?_⟩
      rcases hQ'.fresh o o' ho with ho | ⟨ho, ho'⟩
      · exact hQ.fresh o o' ho
      · exact .inr ⟨(hsize hc).trans ho, (hsize hc').trans ho'⟩
    dsimp only
    rcases hp : Unique.promote ⟨kind, a, some o⟩ h' with ⟨h₂, u₂, x⟩
    rcases hp' : Unique.promote ⟨kind, a, some o'⟩ k' with ⟨k₂, v₂, y⟩
    rw [hp, hp'] at halike' hu' hmeets
    cases hmeets with
    | ok hst => exact ⟨Q', hextends, halike', .ok hst, .nil⟩
    | error l => exact ⟨Q', hextends, halike', .error l, .cons hu' .nil⟩

end Calls

end Custody
