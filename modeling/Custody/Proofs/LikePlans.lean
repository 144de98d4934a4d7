import Custody.Proofs.Agreement

/-!
# Plans in agreement

* `Machine.PlansAlike`: plans that fail for one reason, or have alike effects.
* `Machine.Matches.plan`: alike machines have alike plans for a step on pointers other than weak
  ones.
-/

namespace Custody

namespace Machine

variable {P : Pairing} {m n : Machine} {p q : Path} {loc loc' : Location}
  {x y : Location × Slot} {z w : Location × Slot}

/-- Plans in agreement: they fail for one reason, or have alike effects. -/
abbrev PlansAlike (P : Pairing) (e f : Plan) : Prop := Meets (Effect.Alike P) e f

namespace Matches

variable (h : m.Matches P n)
include h

theorem planShare {src : Path} (hs : m.Weakless src) (hs' : n.Weakless src) (dst : Path) :
    PlansAlike P (m.planShare src dst) (n.planShare src dst) := by
  refine (h.findUnique hs hs').bind fun ⟨l, u⟩ ⟨l', v⟩ ⟨hf, hu⟩ => ?_
  have hbudget : (m.heap.ledger u.alloc).isExhausted = (n.heap.ledger v.alloc).isExhausted := by
    rw [Heap.isExhausted_estate, Heap.isExhausted_estate, h.estate.budget, hu.alloc]
  dsimp only
  rw [hbudget, Option.Rel.isSome hu.object]
  split
  · exact .error _
  · exact .ok (Effect.alike_share hf.loc hu dst)

theorem planAdopt {src : Path} (hs : m.Weakless src) (hs' : n.Weakless src) (how : Adoption)
    (dst : Path) : PlansAlike P (m.planAdopt src how dst) (n.planAdopt src how dst) := by
  refine (h.findRaw hs hs').bind fun ⟨l, r⟩ ⟨l', s⟩ ⟨hf, hr⟩ => ?_
  cases how with
  | unique => exact .ok (Effect.alike_adoptUnique hf.loc hr dst)
  | sharedIn => exact .ok (Effect.alike_adopt hf.loc hr dst)
  | shared =>
    dsimp only
    rw [hr.alloc]
    split
    · exact .ok (Effect.alike_adopt hf.loc hr dst)
    · exact .error _

theorem planResetRaw {target src : Path} (ht : m.Weakless target) (ht' : n.Weakless target)
    (hs : m.Weakless src) (hs' : n.Weakless src) :
    PlansAlike P (m.planResetRaw target src) (n.planResetRaw target src) := by
  refine (h.findTwo ht ht' hs hs').bind fun ⟨⟨l, x⟩, ⟨k, y⟩⟩ ⟨⟨l', x'⟩, ⟨k', y'⟩⟩ ⟨hf, hg⟩ => ?_
  have hx : x.Alike P x' := hf.slot
  have hy : y.Alike P y' := hg.slot
  cases hx with
  | unique | raw => cases hy <;> exact .error _
  | strong hp =>
    cases hy with
    | strong | unique => exact .error _
    | raw hr =>
      dsimp only
      rw [hr.alloc, hr.kind, hp.kind]
      split
      · exact .ok (Effect.alike_resetRaw hf.loc hp hg.loc hr)
      · exact .error _

theorem planMove {src dst : Path} (hs : m.Weakless src) (hs' : n.Weakless src) :
    PlansAlike P (m.planMove src dst) (n.planMove src dst) :=
  (h.locate dst).bind fun _ _ hd => (h.find hs hs').bind fun _ _ hf =>
    .ok (Effect.alike_move hf.loc hf.slot hd.1)

theorem planClone {src : Path} (hs : m.Weakless src) (hs' : n.Weakless src) (dst : Path) :
    PlansAlike P (m.planClone src dst) (n.planClone src dst) := by
  refine (h.find hs hs').bind fun ⟨l, x⟩ ⟨l', x'⟩ hf => ?_
  have hx : x.Alike P x' := hf.slot
  cases hx with
  | strong hp => exact .ok (Effect.alike_cloneStrong hf.loc hp dst)
  | unique | raw => exact .error _

theorem planCloneFrom {target src : Path} (ht : m.Weakless target) (ht' : n.Weakless target)
    (hs : m.Weakless src) (hs' : n.Weakless src) :
    PlansAlike P (m.planCloneFrom target src) (n.planCloneFrom target src) := by
  refine (h.findTwo ht ht' hs hs').bind fun ⟨⟨l, x⟩, ⟨k, y⟩⟩ ⟨⟨l', x'⟩, ⟨k', y'⟩⟩ ⟨hf, hg⟩ => ?_
  have hx : x.Alike P x' := hf.slot
  have hy : y.Alike P y' := hg.slot
  cases hx with
  | unique | raw => cases hy <;> exact .error _
  | strong hp =>
    cases hy with
    | unique | raw => exact .error _
    | strong hq =>
      dsimp only
      rw [hp.kind, hq.kind]
      split
      · exact .ok (Effect.alike_assignStrong hf.loc hp hg.loc hq)
      · exact .error _

theorem planSwap {left right : Path} (hl : m.Weakless left) (hl' : n.Weakless left)
    (hr : m.Weakless right) (hr' : n.Weakless right) :
    PlansAlike P (m.planSwap left right) (n.planSwap left right) := by
  refine (h.findTwo hl hl' hr hr').bind fun ⟨⟨l, x⟩, ⟨k, y⟩⟩ ⟨⟨l', x'⟩, ⟨k', y'⟩⟩ ⟨hf, hg⟩ => ?_
  have hx : x.Alike P x' := hf.slot
  have hy : y.Alike P y' := hg.slot
  have hswap : canSwap x y = canSwap x' y' := by
    cases hx with
    | strong hp =>
      cases hy with
      | strong hq => simp only [canSwap, hp.kind, hq.kind]
      | unique | raw => rfl
    | unique hu =>
      cases hy with
      | unique hv => simp only [canSwap, hu.kind, hv.kind, hu.alloc, hv.alloc]
      | strong | raw => rfl
    | raw => cases hy <;> rfl
  dsimp only
  rw [hswap]
  split
  · exact .ok (Effect.alike_swap hf.loc hx hg.loc hy)
  · exact .error _

theorem planReset {target : Path} (ht : m.Weakless target) (ht' : n.Weakless target) :
    PlansAlike P (m.planReset target) (n.planReset target) := by
  refine (h.find ht ht').bind fun ⟨l, x⟩ ⟨l', x'⟩ hf => ?_
  have hx : x.Alike P x' := hf.slot
  cases hx with
  | raw => exact .error _
  | strong hp =>
    refine .ok (Effect.alike_reset hf.loc (.strong hp) ?_)
    exact .strong (hp.kind ▸ Strong.alike_null _)
  | unique hu =>
    refine .ok (Effect.alike_reset hf.loc (.unique hu) ?_)
    exact .unique (hu.kind ▸ hu.alloc ▸ Unique.alike_null _ _)

theorem planResetWith {target : Path} (ht : m.Weakless target) (ht' : n.Weakless target)
    (value : Literal) :
    PlansAlike P (m.planResetWith target value) (n.planResetWith target value) := by
  refine (h.findStrong ht ht').bind fun ⟨l, p⟩ ⟨l', q⟩ ⟨hf, hp⟩ => ?_
  dsimp only
  rw [hp.kind]
  split
  · cases pointee q.kind value with
    | ok v => exact .ok (Effect.alike_resetWith hf.loc hp v)
    | error f => exact .error f
  · exact .error _

/-! ### Access -/

theorem planGet {target : Path} (ht : m.Weakless target) (ht' : n.Weakless target)
    (deref : Bool) : PlansAlike P (m.planGet target deref) (n.planGet target deref) := by
  refine (h.find ht ht').bind fun ⟨l, x⟩ ⟨l', x'⟩ hf => ?_
  have hvalue := hf.value? h
  dsimp only at hvalue ⊢
  cases hx : x.value? m.heap <;> cases hx' : x'.value? n.heap <;> rw [hx, hx'] at hvalue <;>
    cases hvalue
  · exact .error _
  · next hmeets =>
    cases hmeets with
    | ok hv => exact .ok (Effect.alike_answer (congrArg Reply.shown hv))
    | error f =>
      cases deref with
      | true => exact .error f
      | false => exact .ok (Effect.alike_answer rfl)

/-- Only writing through unique pointers is not affected by weak ones. -/
theorem planSet {target : Path} (ht : m.Weakless target) (ht' : n.Weakless target)
    (hp : m.Strongless target) (value : Literal) (throughDeref : Bool) :
    PlansAlike P (m.planSet target value throughDeref) (n.planSet target value throughDeref) := by
  refine (h.find ht ht').and_eq.bind fun ⟨l, x⟩ ⟨l', x'⟩ ⟨hf, hl⟩ => ?_
  have hx : x.Alike P x' := hf.slot
  obtain ⟨hresolve, hget⟩ := find_resolves hl
  cases hx with
  | strong => exact absurd hget (hp l _ hresolve)
  | raw => exact .error _
  | @unique u v hu =>
    have hview := hu.view
    simp only [Slot.writable?, Slot.kind, hu.kind]
    generalize u.view = a, v.view = b at hview
    cases hview with
    | none =>
      cases throughDeref with
      | true => exact .error _
      | false => exact .ok (Effect.alike_answer rfl)
    | @some p q hpq =>
      have hwritten : written? m.heap v.kind p value = written? n.heap v.kind q value := by
        simp only [written?, h.estate.read? hpq]
      dsimp only
      rw [hwritten]
      cases written? n.heap v.kind q value with
      | some c => exact .ok (Effect.alike_write hpq c)
      | none => exact .ok (Effect.alike_answer rfl)

theorem planArea {target : Path} (ht : m.Weakless target) (ht' : n.Weakless target) :
    PlansAlike P (m.planArea target) (n.planArea target) := by
  refine (h.findStrong ht ht').bind fun ⟨l, p⟩ ⟨l', q⟩ ⟨hf, hp⟩ => ?_
  dsimp only
  rw [hp.kind, h.estate.get? hp]
  split
  · exact .error _
  · cases (q.get? n.heap).bind (·.area?) <;> exact .ok (Effect.alike_answer rfl)

theorem planFormat (hm : m.Reachable) {target : Path} (ht : m.Weakless target)
    (ht' : n.Weakless target) (spec : String) :
    PlansAlike P (m.planFormat target spec) (n.planFormat target spec) := by
  refine (h.find ht ht').bind fun ⟨l, x⟩ ⟨l', x'⟩ hf => ?_
  have hformat : (Format.ofName? spec).bind (x.format? m.heap) =
      (Format.ofName? spec).bind (x'.format? n.heap) := by
    cases Format.ofName? spec with
    | none => rfl
    | some f => exact hf.format? h hm f
  dsimp only
  rw [hformat]
  split
  · exact .ok (Effect.alike_answer rfl)
  · exact .error _

theorem planCompare (hm : m.Reachable) (hn : n.Reachable) {left right : Path}
    (hl : m.Weakless left) (hl' : n.Weakless left) (hr : m.Weakless right)
    (hr' : n.Weakless right) :
    PlansAlike P (m.planCompare left right) (n.planCompare left right) := by
  refine (h.findTwo hl hl' hr hr').bind fun ⟨⟨l, x⟩, ⟨k, y⟩⟩ ⟨⟨l', x'⟩, ⟨k', y'⟩⟩ ⟨hf, hg⟩ => ?_
  have hkey := hf.key? h hm hn .address
  have hkey' := hg.key? h hm hn .address
  have htype := hf.sameType hg
  dsimp only at htype ⊢
  rw [htype]
  split
  · exact .error _
  have hx : x.Alike P x' := hf.slot
  have hy : y.Alike P y' := hg.slot
  cases hx with
  | unique | raw => exact .error _
  | strong hp =>
    cases hy with
    | unique | raw => exact .error _
    | strong hq =>
      cases hkey with
      | some ha =>
        cases hkey' with
        | some hb =>
          refine .ok (Effect.alike_answer ?_)
          exact congrArg (Reply.compared · none) (ha.beq hm.sound.booked hn.sound.booked hb)

theorem planOwner (hm : m.Reachable) (hn : n.Reachable) {left right : Path}
    (hl : m.Weakless left) (hl' : n.Weakless left) (hr : m.Weakless right)
    (hr' : n.Weakless right) :
    PlansAlike P (m.planOwner left right) (n.planOwner left right) := by
  refine (h.findTwo hl hl' hr hr').bind fun ⟨⟨l, x⟩, ⟨k, y⟩⟩ ⟨⟨l', x'⟩, ⟨k', y'⟩⟩ ⟨hf, hg⟩ => ?_
  have hkey := hf.key? h hm hn .owner
  have hkey' := hg.key? h hm hn .owner
  dsimp only at hkey hkey' ⊢
  generalize x.key? m.heap .owner = a, x'.key? n.heap .owner = b at hkey
  generalize y.key? m.heap .owner = c, y'.key? n.heap .owner = d at hkey'
  cases hkey with
  | none => exact .error _
  | some ha =>
    cases hkey' with
    | none => exact .error _
    | some hb =>
      refine .ok (Effect.alike_answer ?_)
      exact congrArg (Reply.owners · none) (ha.beq hm.sound.booked hn.sound.booked hb)

/-- Two pointers that were found alike have alike keys, or neither has one. -/
theorem keyOf (hm : m.Reachable) (hn : n.Reachable) (order : OrderBy) {x y : Slot}
    (hxy : ∃ l l', Found P m n (l, x) (l', y)) :
    Meets (Address.Alike P m.heap n.heap)
      (match x.key? m.heap order with
        | some a => .ok a
        | none => .error Failure.wrongKind)
      (match y.key? n.heap order with
        | some a => .ok a
        | none => .error Failure.wrongKind) := by
  obtain ⟨l, l', hf⟩ := hxy
  have hkey := hf.key? h hm hn order
  dsimp only at hkey
  generalize x.key? m.heap order = a, y.key? n.heap order = b at hkey
  cases hkey with
  | none => exact .error _
  | some ha => exact .ok ha

/-- Sets of alike pointers are alike, and as large. -/
theorem planSets (hm : m.Reachable) (hn : n.Reachable) {keys : List Path} (order : OrderBy)
    {probe : Option Path} (hk : ∀ p ∈ keys ++ probe.toList, m.Weakless p ∧ n.Weakless p) :
    PlansAlike P (m.planSets keys order probe) (n.planSets keys order probe) := by
  have hfind {p : Path} (hp : p ∈ keys ++ probe.toList) :
      Meets (fun x y => ∃ l l', Found P m n (l, x) (l', y)) (do return (← m.find p).2)
        (do return (← n.find p).2) :=
    (h.find (hk p hp).1 (hk p hp).2).bind fun x y hf => .ok ⟨x.1, y.1, hf⟩
  have hkey {x y : Slot} (hxy : ∃ l l', Found P m n (l, x) (l', y)) := h.keyOf hm hn order hxy
  unfold Machine.planSets
  refine (Meets.mapM (List.forall₂_same.mpr fun p hp =>
    hfind (List.mem_append_left _ hp))).bind fun xs ys hxs => ?_
  have hprobe : Option.Rel (fun p q => Meets (fun x y => ∃ l l', Found P m n (l, x) (l', y))
      (do return (← m.find p).2) (do return (← n.find q).2)) probe probe := by
    cases probe with
    | none => exact .none
    | some p => exact .some (hfind (by simp))
  refine (Meets.mapM_option hprobe).bind fun z w hzw => ?_
  have hall : List.Forall₂ (fun x y => ∃ l l', Found P m n (l, x) (l', y)) (xs ++ z.toList)
      (ys ++ w.toList) := by
    refine List.rel_append hxs ?_
    cases hzw with
    | none => exact .nil
    | some h => exact .cons h .nil
  have haddresses := Meets.mapM (hxs.imp fun _ _ => hkey)
  have hsought := Meets.mapM_option (Option.Rel.mono (fun x y => hkey (x := x) (y := y)) hzw)
  have hanswer := haddresses.bind fun as bs has => hsought.bind fun a b hab =>
    Meets.ok (ε := Failure) (Effect.alike_answer (P := P)
      (heard_keyed hm.sound.booked hn.sound.booked has hab))
  generalize xs ++ z.toList = ls, ys ++ w.toList = ls' at hall
  cases hall with
  | nil => exact hanswer
  | @cons x y rest rest' hxy hrest =>
    have hsame : rest.all x.sameType = rest'.all y.sameType := by
      obtain ⟨l, l', hf⟩ := hxy
      induction hrest with
      | nil => rfl
      | cons hzw _ ih =>
        obtain ⟨k, k', hg⟩ := hzw
        rw [List.all_cons, List.all_cons, ih, hf.sameType hg]
    dsimp only
    rw [hsame]
    split
    · exact .error _
    · exact hanswer

/-! ### Views -/

theorem planMap {src : Path} (hs : m.Weakless src) (hs' : n.Weakless src)
    (part : Option Selector) (dst : Path) (during : List Step) (listed : Bool) :
    PlansAlike P (m.planMap src part dst during listed) (n.planMap src part dst during listed) := by
  refine (h.find hs hs').bind fun ⟨l, x⟩ ⟨l', x'⟩ hf => ?_
  have hx : x.Alike P x' := hf.slot
  dsimp only
  rw [hx.kind]
  cases hx with
  | unique | raw => exact .error _
  | strong hp =>
    cases part with
    | none => exact .error _
    | some s =>
      dsimp only [Option.bind_some]
      generalize s.target? _ = target
      cases target with
      | none => exact .error _
      | some target =>
        exact .ok (Effect.alike_projecting (i := ⟨l, s, target, dst, listed⟩)
          (j := ⟨l', s, target, dst, listed⟩) ⟨hf.loc, rfl, rfl, rfl, rfl⟩ hp during true)

theorem planTryMap {src : Path} (hs : m.Weakless src) (hs' : n.Weakless src)
    (part : Option Selector) (dst : Path) (during : List Step) (listed : Bool) :
    PlansAlike P (m.planTryMap src part dst during listed)
      (n.planTryMap src part dst during listed) := by
  refine (h.findStrong hs hs').bind fun ⟨l, p⟩ ⟨l', q⟩ ⟨hf, hp⟩ => ?_
  dsimp only
  rw [hp.kind]
  cases part with
  | none => exact .error _
  | some s =>
    dsimp only [Option.bind_some]
    cases s.tryTarget? q.kind with
    | none => exact .error _
    | some target =>
      exact .ok (Effect.alike_projecting (i := ⟨l, s, target, dst, listed⟩)
        (j := ⟨l', s, target, dst, listed⟩) ⟨hf.loc, rfl, rfl, rfl, rfl⟩ hp during false)

/-- Alike pointers are cast to alike views, or cannot be cast for one reason. -/
theorem castView {p q : Strong} (hp : p.Alike P q) (c : Cast) :
    Meets (fun x y => x.1 = y.1 ∧ Option.Rel (Option.Rel (Place.Alike P)) x.2 y.2)
      (Machine.castView m.heap p c) (Machine.castView n.heap q c) := by
  have hinto (path : List Field) : Option.Rel (Place.Alike P) (p.view.map (·.into path))
      (q.view.map (·.into path)) := Option.Rel.map hp.view fun _ _ hpq => hpq.into path
  cases c with
  | const => exact .ok ⟨hp.kind, .some hp.view⟩
  | static target =>
    simp only [Machine.castView, hp.kind]
    cases target with
    | none => exact .error _
    | some k =>
      dsimp only [Option.bind_some]
      cases staticPath? q.kind k with
      | none => exact .error _
      | some path => exact .ok ⟨rfl, .some (hinto path)⟩
  | reinterpret target =>
    have hview := hp.view
    simp only [Machine.castView, hp.kind]
    generalize p.view = v, q.view = u at hview
    cases target with
    | none => exact .error _
    | some k =>
      dsimp only [Option.bind_some]
      cases reinterpretPath? q.kind k with
      | none => exact .error _
      | some path =>
        cases hview with
        | none => exact .ok ⟨rfl, .some .none⟩
        | some hpq =>
          dsimp only
          rw [h.estate.read? (hpq.into path)]
          split
          · exact .ok ⟨rfl, .some (.some (hpq.into path))⟩
          · exact .error _
  | dynamic target =>
    simp only [Machine.castView, hp.kind, h.estate.get? hp]
    split
    · exact .error _
    · split
      · exact .error _
      · cases q.get? n.heap with
        | none => exact .ok ⟨rfl, .none⟩
        | some c =>
          dsimp only
          split
          · exact .ok ⟨rfl, .some hp.view⟩
          · exact .ok ⟨rfl, .none⟩

theorem planCast {src : Path} (hs : m.Weakless src) (hs' : n.Weakless src) (c : Cast)
    (dst : Path) : PlansAlike P (m.planCast src c dst) (n.planCast src c dst) := by
  refine (h.findStrong hs hs').bind fun ⟨l, p⟩ ⟨l', q⟩ ⟨hf, hp⟩ => ?_
  refine (h.castView hp c).bind fun ⟨k, v⟩ ⟨k', u⟩ ⟨hk, hv⟩ => ?_
  obtain rfl : k = k' := hk
  exact .ok (Effect.alike_cast hf.loc hp k hv dst)

theorem planAlias {src : Path} (hs : m.Weakless src) (hs' : n.Weakless src) (kind : Kind)
    {view : Option Place} (hv : Option.Rel (Place.Alike P) view view) (dst : Path) :
    PlansAlike P (m.planAlias src kind view dst) (n.planAlias src kind view dst) :=
  (h.findStrong hs hs').bind fun _ _ ⟨hf, hp⟩ => .ok (Effect.alike_cast hf.loc hp kind (.some hv) dst)

theorem planAliasLike {src like : Path} (hs : m.Weakless src) (hs' : n.Weakless src)
    (hl : m.Weakless like) (hl' : n.Weakless like) (dst : Path) :
    PlansAlike P (m.planAliasLike src like dst) (n.planAliasLike src like dst) := by
  refine (h.findTwo hs hs' hl hl').bind fun ⟨⟨l, x⟩, ⟨k, y⟩⟩ ⟨⟨l', x'⟩, ⟨k', y'⟩⟩ ⟨hf, hg⟩ => ?_
  have hx : x.Alike P x' := hf.slot
  have hy : y.Alike P y' := hg.slot
  cases hx with
  | unique | raw => exact .error _
  | @strong p p' hp =>
    cases hy with
    | unique | raw => exact .error _
    | @strong q q' hq =>
      dsimp only
      have hblock := Option.Rel.eq_iff P.block_unique hp.block hq.block
      by_cases heq : p.block = q.block
      · rw [if_pos heq, if_pos (hblock.mp heq)]
        exact .ok (Effect.alike_aliasLike hf.loc hp hg.loc hq dst)
      · rw [if_neg heq, if_neg (mt hblock.mpr heq)]
        exact .error _

/-- Alike machines have plans in agreement. -/
theorem plan (hm : m.Reachable) (hn : n.Reachable) {s : Step} (hs : m.Works s) (hs' : n.Works s) :
    PlansAlike P (m.plan s) (n.plan s) := by
  have hpointee (kind : Kind) (value : Literal) {f : Pointee → Effect}
      (hf : ∀ v, (f v).Alike P (f v)) :
      PlansAlike P (do return f (← pointee kind value)) (do return f (← pointee kind value)) := by
    cases pointee kind value with
    | ok v => exact .ok (hf v)
    | error e => exact .error e
  have hone (p : Path) (hp : s.operands = [p]) : m.Weakless p ∧ n.Weakless p :=
    ⟨hs.operands p (by simp [hp]), hs'.operands p (by simp [hp])⟩
  have htwo (p q : Path) (hp : s.operands = [p, q]) :
      (m.Weakless p ∧ n.Weakless p) ∧ m.Weakless q ∧ n.Weakless q :=
    ⟨⟨hs.operands p (by simp [hp]), hs'.operands p (by simp [hp])⟩,
      hs.operands q (by simp [hp]), hs'.operands q (by simp [hp])⟩
  cases s with
  | weakNull | downgrade | lock | tryLock | state | metrics | resetMetrics | mark | since =>
    cases hs.strong
  | new kind value a dst => exact hpointee kind value fun v => Effect.alike_construct kind v a dst
  | null kind dst => exact .ok (Effect.alike_store (.strong (Strong.alike_null kind)) dst)
  | unique kind value a dst =>
    exact hpointee kind value fun v => Effect.alike_constructUnique kind v a dst
  | uniqueNull kind a dst => exact .ok (Effect.alike_store (.unique (Unique.alike_null kind a)) dst)
  | raw kind value dst => exact hpointee kind value fun v => Effect.alike_constructRaw kind v dst
  | promote src dst =>
    obtain ⟨hl, hr⟩ := hone src rfl
    exact (h.findUnique hl hr).bind fun _ _ ⟨hf, hx⟩ => .ok (Effect.alike_promote hf.loc hx dst)
  | share src dst =>
    obtain ⟨hl, hr⟩ := hone src rfl
    exact h.planShare hl hr dst
  | release src dst =>
    obtain ⟨hl, hr⟩ := hone src rfl
    exact (h.findUnique hl hr).bind fun _ _ ⟨hf, hx⟩ => .ok (Effect.alike_release hf.loc hx dst true)
  | intoRaw src dst =>
    obtain ⟨hl, hr⟩ := hone src rfl
    exact (h.findUnique hl hr).bind fun _ _ ⟨hf, hx⟩ => .ok (Effect.alike_release hf.loc hx dst false)
  | adopt src how dst =>
    obtain ⟨hl, hr⟩ := hone src rfl
    exact h.planAdopt hl hr how dst
  | resetRaw target src =>
    obtain ⟨⟨hl, hl'⟩, hr, hr'⟩ := htwo target src rfl
    exact h.planResetRaw hl hl' hr hr'
  | move src dst =>
    obtain ⟨hl, hr⟩ := hone src rfl
    exact h.planMove hl hr
  | drop target =>
    obtain ⟨hl, hr⟩ := hone target rfl
    exact (h.find hl hr).bind fun _ _ hf => .ok (Effect.alike_drop hf.loc hf.slot)
  | clone src dst =>
    obtain ⟨hl, hr⟩ := hone src rfl
    exact h.planClone hl hr dst
  | cloneFrom target src =>
    obtain ⟨⟨hl, hl'⟩, hr, hr'⟩ := htwo target src rfl
    exact h.planCloneFrom hl hl' hr hr'
  | take src dst =>
    obtain ⟨hl, hr⟩ := hone src rfl
    exact (h.findStrong hl hr).bind fun _ _ ⟨hf, hx⟩ => .ok (Effect.alike_takeStrong hf.loc hx dst)
  | swap left right =>
    obtain ⟨⟨hl, hl'⟩, hr, hr'⟩ := htwo left right rfl
    exact h.planSwap hl hl' hr hr'
  | reset target =>
    obtain ⟨hl, hr⟩ := hone target rfl
    exact h.planReset hl hr
  | resetWith target value =>
    obtain ⟨hl, hr⟩ := hone target rfl
    exact h.planResetWith hl hr value
  | get target =>
    obtain ⟨hl, hr⟩ := hone target rfl
    exact h.planGet hl hr false
  | deref target =>
    obtain ⟨hl, hr⟩ := hone target rfl
    exact h.planGet hl hr true
  | set target value throughDeref =>
    obtain ⟨hl, hr⟩ := hone target rfl
    exact h.planSet hl hr (hs.written _ _ _ rfl) value throughDeref
  | counts target =>
    obtain ⟨hl, hr⟩ := hone target rfl
    exact (h.find hl hr).bind fun _ _ hf =>
      .ok (Effect.alike_answer (congrArg Reply.counts (h.estate.counts hf.slot)))
  | area target =>
    obtain ⟨hl, hr⟩ := hone target rfl
    exact h.planArea hl hr
  | format target spec =>
    obtain ⟨hl, hr⟩ := hone target rfl
    exact h.planFormat hm hl hr spec
  | compare left right =>
    obtain ⟨⟨hl, hl'⟩, hr, hr'⟩ := htwo left right rfl
    exact h.planCompare hm hn hl hl' hr hr'
  | owner left right =>
    obtain ⟨⟨hl, hl'⟩, hr, hr'⟩ := htwo left right rfl
    exact h.planOwner hm hn hl hl' hr hr'
  | sets keys order probe =>
    exact h.planSets hm hn order fun p hp => ⟨hs.operands p hp, hs'.operands p hp⟩
  | map src part dst during listed =>
    obtain ⟨hl, hr⟩ := hone src rfl
    exact h.planMap hl hr part dst during listed
  | tryMap src part dst during listed =>
    obtain ⟨hl, hr⟩ := hone src rfl
    exact h.planTryMap hl hr part dst during listed
  | cast src c dst =>
    obtain ⟨hl, hr⟩ := hone src rfl
    exact h.planCast hl hr c dst
  | aliasNull src kind dst =>
    obtain ⟨hl, hr⟩ := hone src rfl
    exact h.planAlias hl hr kind .none dst
  | aliasStatic src view dst =>
    obtain ⟨hl, hr⟩ := hone src rfl
    exact h.planAlias hl hr view.kind (.some (Place.alike_static view)) dst
  | aliasLike src like dst =>
    obtain ⟨⟨hl, hl'⟩, hr, hr'⟩ := htwo src like rfl
    exact h.planAliasLike hl hl' hr hr' dst
  | budget limit => exact .ok (Effect.alike_setBudget limit)
  | loop rounds body => exact .ok (Effect.alike_loop rounds body)
  | aside answer => exact .ok (Effect.alike_answer rfl)
  | malformed => exact .error _

end Matches

end Machine

end Custody
