import Custody.Proofs.Legibility
import Custody.Proofs.Lineage

/-!
# Checked casts are exact

* `Heap.kindAt?`: the concrete kind of what is at a place, as the fields that lead there say. It
  never changes (`Machine.IsRationed.kindAt?_eq`).
* `Strong.Downcast`, `Strong.downcast`: what a checked cast makes of a pointer.
* `Machine.Recast`, `Machine.Recast.same`: what is made of a pointer by casts and unsizings in the
  course of a run shows what the pointer shows, and has its owner.
* `Machine.Downcasts`, `Machine.IsRationed.downcasts`: in every reachable state a checked cast
  succeeds just where the concrete kind is the one asked for, and undoes the unsizings.
-/

namespace Custody

variable {h h' g : Heap} {k k' : Kind} {p : Place} {c : Content} {q r : Strong}

/-! ## Kinds of places -/

namespace Heap

/-- The concrete kind of what is at a place. Of a part it is the part's own kind, and of what is
reinterpreted the kind that it is read as. -/
def kindAt? (h : Heap) (p : Place) : Option Kind :=
  (h.origin? p.origin).map fun c => p.path.foldl (fun k f => Content.partKind f k) c.kind

theorem kindAt?_of_read? (hc : h.read? p = some c) : h.kindAt? p = some c.kind := by
  obtain ⟨d, hd, hc⟩ := Option.bind_eq_some_iff.mp hc
  rw [kindAt?, hd, Content.kind_at? hc]
  rfl

theorem kindAt?_congr (hr : h'.read? = h.read?) (p : Place) : h'.kindAt? p = h.kindAt? p := by
  have horigin (i : Origin) : h'.origin? i = h.origin? i := by
    have hi := congrFun hr ⟨i, []⟩
    have hwhole (g : Heap) : g.read? ⟨i, []⟩ = g.origin? i := Option.bind_fun_some _
    rwa [hwhole, hwhole] at hi
  rw [kindAt?, horigin, kindAt?]

theorem Shows.kindAt? (hs : h.Shows k p) (hk : k.isTrait = false) : h.kindAt? p = some k := by
  obtain ⟨c, hc, hsuits⟩ := hs
  rw [kindAt?_of_read? hc, hsuits.kind_eq hk]

/-- The heap has the blocks of the other one, and the same is read in it. -/
structure Echoes (h g : Heap) : Prop where
  blocks : h.blocks = g.blocks
  read? : h.read? = g.read?

theorem Echoes.refl (h : Heap) : h.Echoes h := ⟨rfl, rfl⟩

end Heap

/-! ## The cast -/

namespace Strong

/-- Pointer `r` is what a checked cast of `q` to kind `k` makes at heap `h`. -/
structure Downcast (q : Strong) (k : Kind) (h h' : Heap) (r : Strong) : Prop where
  exact : r.view ≠ none ↔ ∃ p, q.view = some p ∧ h.kindAt? p = some k
  made : r.view ≠ none → r = ⟨k, q.block, q.view⟩
  address : r.view ≠ none → r.address h' = q.address h
  value : r.view ≠ none → ∃ c, q.get? h = some c ∧ r.get? h' = some c ∧ c.kind = k
  /-- An owner more, and nothing else. -/
  owner : r.view ≠ none → ∀ b, q.block = some b → ∃ z, h.blocks[b]? = some z ∧ z.freed = false ∧
    h' = h.updateBlock b fun x => { x with strong := x.strong + 1 }
  unowned : r.view ≠ none → q.block = none → h' = h
  refused : r.view = none → r = .null k ∧ h' = h

/-- The kinds alone decide whether there is such a cast. -/
theorem cast?_dynamic_isSome (q : Strong) (k : Kind) (h : Heap) :
    (q.cast? (.dynamic k) h).isSome = true ↔
      isDowncastSource q.kind = true ∧ isDowncastTarget k = true := by
  unfold cast? Machine.castView
  by_cases ht : isDowncastTarget k = true
  · by_cases hs : isDowncastSource q.kind = true
    · simp only [ht, hs, Bool.not_true, Bool.false_eq_true, ↓reduceIte, and_self, iff_true]
      cases q.get? h with
      | none => rfl
      | some c => by_cases hc : c.kind = k <;> simp [hc]
    · simp [ht, hs]
  · simp [ht]

theorem castView_dynamic (hs : isDowncastSource q.kind = true) (ht : isDowncastTarget k = true) :
    Machine.castView h q (.dynamic k) =
      .ok (k, (q.get? h).bind fun c => if c.kind = k then some q.view else none) := by
  simp only [Machine.castView, hs, ht, Bool.not_true, Bool.false_eq_true, ↓reduceIte]
  cases q.get? h <;> rfl

theorem downcast_refused (hs : isDowncastSource q.kind = true) (ht : isDowncastTarget k = true)
    (hc : ∀ c, q.get? h = some c → c.kind ≠ k) :
    q.cast? (.dynamic k) h = some (h, .null k) := by
  have hview : ((q.get? h).bind fun c => if c.kind = k then some q.view else none) = none := by
    cases hget : q.get? h with
    | none => rfl
    | some c => exact if_neg (hc c hget)
  rw [cast?, castView_dynamic hs ht, hview]

theorem downcast_granted (hs : isDowncastSource q.kind = true) (ht : isDowncastTarget k = true)
    (hc : q.get? h = some c) (hk : c.kind = k) :
    q.cast? (.dynamic k) h = some (q.aliasing k q.view h) := by
  have hview : ((q.get? h).bind fun c => if c.kind = k then some q.view else none) =
      some q.view := by
    rw [hc]
    exact if_pos hk
  rw [cast?, castView_dynamic hs ht, hview]

/-- What shares a block is an owner more, and nothing else changes. -/
theorem aliasing_owner {v : Option Place}
    (hblock : ∀ b, q.block = some b → ∃ z, h.blocks[b]? = some z ∧ z.freed = false ∧ 0 < z.strong) :
    ∃ h', q.aliasing k v h = (h', ⟨k, q.block, v⟩) ∧ h'.objects = h.objects ∧
      h'.statics = h.statics ∧ (q.block = none → h' = h) ∧
      ∀ b, q.block = some b → ∃ z, h.blocks[b]? = some z ∧ z.freed = false ∧
        h' = h.updateBlock b fun x => { x with strong := x.strong + 1 } := by
  cases hb : q.block with
  | none =>
    refine ⟨h, by rw [aliasing, hb]; rfl, rfl, rfl, fun _ => rfl, fun b hb => ?_⟩
    cases hb
  | some b =>
    obtain ⟨z, hz, hf, hpos⟩ := hblock b hb
    refine ⟨_, Derivation.aliasing_eq hz hf hb hpos, rfl, rfl, fun hnone => ?_, fun b' hb' => ?_⟩
    · cases hnone
    · cases hb'
      exact ⟨z, hz, hf, rfl⟩

/-- A checked cast of a pointer that is not stale. -/
theorem downcast (hs : isDowncastSource q.kind = true) (ht : isDowncastTarget k = true)
    (hread : ∀ p, q.view = some p → ∃ c, h.read? p = some c)
    (hblock : ∀ b, q.block = some b → ∃ z, h.blocks[b]? = some z ∧ z.freed = false ∧ 0 < z.strong) :
    ∃ h' r, q.cast? (.dynamic k) h = some (h', r) ∧ q.Downcast k h h' r := by
  by_cases hk : ∃ c, q.get? h = some c ∧ c.kind = k
  · obtain ⟨c, hget, hk⟩ := hk
    obtain ⟨p, hp, hc⟩ := Option.bind_eq_some_iff.mp hget
    have hview : q.view ≠ none := by
      rw [hp]
      nofun
    obtain ⟨h', heq, ho, hstatics, hunowned, howner⟩ := aliasing_owner (k := k) (v := q.view) hblock
    have hget' : (⟨k, q.block, q.view⟩ : Strong).get? h' = some c := by
      rw [get?, hp]
      exact (Heap.Retains.of_eq ho hstatics).read? hc
    refine ⟨h', _, (downcast_granted hs ht hget hk).trans (congrArg some heq), ?_⟩
    constructor
    case exact => exact ⟨fun _ => ⟨p, hp, hk ▸ Heap.kindAt?_of_read? hc⟩, fun _ => hview⟩
    case made => exact fun _ => rfl
    case address => exact fun _ => Heap.addressOf_congr ho hstatics q.view
    case value => exact fun _ => ⟨c, hget, hget', hk⟩
    case owner => exact fun _ => howner
    case unowned => exact fun _ => hunowned
    case refused => exact fun hnone => absurd hnone hview
  · have hne : (Strong.null k).view ≠ none → False := fun hne => hne rfl
    refine ⟨h, .null k, downcast_refused hs ht fun c hc hk' => hk ⟨c, hc, hk'⟩, ?_⟩
    constructor
    case exact =>
      refine ⟨fun h => (hne h).elim, ?_⟩
      rintro ⟨p, hp, hkind⟩
      obtain ⟨c, hc⟩ := hread p hp
      rw [Heap.kindAt?_of_read? hc] at hkind
      exact absurd ⟨c, by rw [get?, hp]; exact hc, Option.some.inj hkind⟩ hk
    case refused => exact fun _ => ⟨rfl, rfl⟩
    all_goals exact fun h => (hne h).elim

end Strong

/-! ## Unsizing -/

/-- The selector takes the whole, under another kind or the same. -/
def Selector.isUnsizing : Selector → Bool
  | .self | .any | .anySend | .anySync | .shape | .disp => true
  | _ => false

theorem Selector.path?_of_isUnsizing {s : Selector} (hs : s.isUnsizing = true) (k : Kind)
    (c : Content) : s.path? k c = some [] := by
  cases s <;> first | rfl | cases hs

theorem Projection.part?_of_isUnsizing {j : Projection} (hj : j.selector.isUnsizing = true)
    (hp : q.view = some p) (hc : h.read? p = some c) : j.part? h q = some p := by
  simp only [part?, hp, Option.bind_eq_bind, Option.bind_some, hc,
    Selector.path?_of_isUnsizing hj, Place.into_nil]
  rfl

/-- What is derived in this way shows the same under another kind. -/
def Derivation.Recasts : Derivation → Slot → Prop
  | clone, _ | cast .const, _ | cast (.dynamic _), _ | downgrade, _ | lock, _ => True
  | project j _, .strong _ => j.selector.isUnsizing = true
  | _, _ => False

namespace Derivation

variable {d : Derivation} {x y : Slot}

/-- A source that shows something and is not refused hands its block and its view on. -/
theorem recasts_same (hd : d.Recasts x) (hn : ¬ d.Refused x h) (happly : d.apply x h = some (h', y))
    (hread : ∀ q p, x = .strong q → q.view = some p → ∃ c, h.read? p = some c) :
    y.block? = x.block? ∧ y.view? = x.view? := by
  cases yields_of_apply happly with
  | cloneStrong | cloneWeak | downgrade => exact ⟨rfl, rfl⟩
  | projectWeak => cases hd
  | @project q j total =>
    have hj : j.selector.isUnsizing = true := hd
    have hpart : j.part? h q = q.view := by
      cases hp : q.view with
      | none => exact part?_null hp
      | some p =>
        obtain ⟨c, hc⟩ := hread q p rfl hp
        exact Projection.part?_of_isUnsizing hj hp hc
    have hgranted : q.project j total h = q.aliasing j.target q.view h := by
      cases total with
      | true =>
        have hview : j.view h q = q.view := by
          rw [Projection.view, hpart]
          cases q.view <;> rfl
        show q.aliasing j.target (j.view h q) h = _
        rw [hview]
      | false =>
        have hsome : q.view.isSome = true := by
          rw [← hpart]
          exact Option.isSome_iff_ne_none.mpr hn
        simp only [Strong.project, Bool.false_eq_true, ↓reduceIte, Bool.false_or, hpart, hsome]
    rw [hgranted]
    exact ⟨rfl, rfl⟩
  | @cast q r c h' hcast =>
    unfold Strong.cast? at hcast
    cases c with
    | const =>
      cases hcast
      exact ⟨rfl, rfl⟩
    | dynamic k =>
      obtain ⟨hs, ht⟩ : isDowncastSource q.kind = true ∧ isDowncastTarget k = true :=
        (Strong.cast?_dynamic_isSome q k h).mp (by rw [Strong.cast?, hcast]; rfl)
      obtain ⟨c, hc, hk⟩ : ∃ c, q.get? h = some c ∧ c.kind = k := by
        by_contra hnone
        exact hn fun c hc hk => hnone ⟨c, hc, hk⟩
      have hgranted := Strong.downcast_granted hs ht hc hk
      rw [Strong.cast?, hcast] at hgranted
      cases hgranted
      exact ⟨rfl, rfl⟩
    | static | reinterpret => cases hd
  | lock w =>
    have huse : w.use h ≠ 0 := hn
    unfold Weak.lock Weak.lock?
    cases hb : w.block with
    | none =>
      rw [Weak.use, hb] at huse
      exact absurd rfl huse
    | some b =>
      have hne : h.strongCount b ≠ 0 := by
        rw [Weak.use, hb] at huse
        exact huse
      simp only [hne, ↓reduceIte]
      exact ⟨hb.symm, rfl⟩

end Derivation

/-! ## In a run -/

namespace Machine

theorem erase_echoes (m : Machine) (limits : Alloc → Option Nat) (loc : Location) :
    ((m.ration limits).erase loc).heap.Echoes m.heap where
  blocks := blocks_takeOut (m := m.ration limits) [loc]
  read? := read?_takeOut (m := m.ration limits) [loc]

/-- By moment `n` of the run slot `x` has been made of pointer `p` by casts and unsizings, with
anything in between. -/
inductive Recast (run : Nat → Machine) (p : Strong) : Nat → Slot → Prop
  | start {n} : .strong p ∈ (run n).pointers → Recast run p n (.strong p)
  /-- The source is out of its table at heap `h`. -/
  | derive {i n h h' x y d} : Recast run p i x → i ≤ n → x ∈ (run n).pointers →
      h.Echoes (run n).heap → Derivation.Recasts d x → d.apply x h = some (h', y) →
      ¬ d.Refused x h → Recast run p n y

section

variable {run : Nat → Machine} {i n : Nat} {x : Slot}

/-- What is at a place stays of its kind, whatever is written there. -/
theorem IsRationed.kindAt?_eq (hr : IsRationed run) (hin : i ≤ n)
    (hk : (run i).heap.kindAt? p = some k) : (run n).heap.kindAt? p = some k := by
  obtain ⟨c, hc, hk⟩ := Option.map_eq_some_iff.mp hk
  suffices hlater : ∃ d, (run n).heap.origin? p.origin = some d ∧ d.kind = c.kind by
    obtain ⟨d, hd, hdc⟩ := hlater
    rw [Heap.kindAt?, hd, Option.map_some, hdc, hk]
  cases ho : p.origin with
  | static s =>
    rw [ho] at hc
    cases hc
    exact ⟨_, rfl, ((hr.legible n).2.statics s).trans ((hr.legible i).2.statics s).symm⟩
  | object o =>
    rw [ho] at hc
    obtain ⟨x, hx, rfl⟩ := Option.map_eq_some_iff.mp hc
    obtain ⟨y, hy, hxy⟩ := hr.lasts hx hin
    exact ⟨y.content, by rw [Heap.origin?, hy]; rfl, hxy.kind⟩

theorem IsRationed.read?_of_echoes (hr : IsRationed run) (hq : .strong q ∈ (run n).pointers)
    (he : h.Echoes (run n).heap) (hp : q.view = some p) : ∃ c, h.read? p = some c := by
  obtain ⟨c, hc, -⟩ := hr.shows hq hp
  exact ⟨c, by rw [he.read?, hc]⟩

theorem Recast.same (hx : Recast run q n x) (hr : IsRationed run) :
    x.block? = q.block ∧ x.view? = q.view := by
  induction hx with
  | start => exact ⟨rfl, rfl⟩
  | derive _ _ hx he hd happly hn ih =>
    obtain ⟨hblock, hview⟩ := Derivation.recasts_same hd hn happly fun r p hr' hp =>
      hr.read?_of_echoes (hr' ▸ hx) he hp
    exact ⟨hblock.trans ih.1, hview.trans ih.2⟩

theorem IsRationed.downcast (hr : IsRationed run) (hq : .strong q ∈ (run n).pointers)
    (he : h.Echoes (run n).heap) (hs : isDowncastSource q.kind = true)
    (ht : isDowncastTarget k = true) :
    ∃ h' r, q.cast? (.dynamic k) h = some (h', r) ∧ q.Downcast k h h' r := by
  refine Strong.downcast hs ht (fun p hp => hr.read?_of_echoes hq he hp) fun b hb => ?_
  obtain ⟨z, hz, hf, hcounts⟩ := hr.block_of_pointer hq hb
  exact ⟨z, he.blocks ▸ hz, hf, (hcounts hb).1⟩

end

/-- Checked casts of the pointer, which is there at moment `n`, are exact. -/
structure Downcasts (run : Nat → Machine) (n : Nat) (q : Strong) : Prop where
  /-- A kind that is no trait is the concrete one. -/
  typed : q.kind.isTrait = false → ∀ p, q.view = some p → (run n).heap.kindAt? p = some q.kind
  defined : ∀ k h, (q.cast? (.dynamic k) h).isSome = true ↔
    isDowncastSource q.kind = true ∧ isDowncastTarget k = true
  checked : ∀ k h h' r, h.Echoes (run n).heap → q.cast? (.dynamic k) h = some (h', r) →
    q.Downcast k h h' r
  /-- A program takes the step. Its source, at `loc`, is out of its table then. -/
  performed : ∀ src k dst loc rest, isDowncastSource q.kind = true → isDowncastTarget k = true →
    (run n).env.agenda = .exec (.cast src (.dynamic k) dst) :: rest →
    (run n).find src = .ok (loc, .strong q) → ∃ limits r,
      let h := (((run n).ration limits).erase loc).heap
      h.Echoes (run n).heap ∧ q.Downcast k h (run (n + 1)).heap r ∧
      (run (n + 1)).env.agenda = settled loc (.strong q) (.strong r) dst ++ rest
  /-- Whatever has been made of the pointer by casts and unsizings, a cast of that to the concrete
  kind shows the same and has the same owner. -/
  recovered : ∀ i j x k p h, Recast run q i (.strong x) → i ≤ j → .strong x ∈ (run j).pointers →
    h.Echoes (run j).heap → isDowncastSource x.kind = true → isDowncastTarget k = true →
    q.view = some p → (run n).heap.kindAt? p = some k →
    ∃ h', x.cast? (.dynamic k) h = some (h', ⟨k, q.block, q.view⟩)
  /-- If the pointer itself was of the concrete kind, it is the same pointer again. -/
  returned : ∀ i j x h, Recast run q i (.strong x) → i ≤ j → .strong x ∈ (run j).pointers →
    h.Echoes (run j).heap → isDowncastSource x.kind = true → isDowncastTarget q.kind = true →
    q.view ≠ none → ∃ h', x.cast? (.dynamic q.kind) h = some (h', q)

/-- In every reachable state a checked cast looks at the concrete kind of what is shown, and makes
an owner of that, or nothing. -/
theorem IsRationed.downcasts {run : Nat → Machine} {n : Nat} (hr : IsRationed run)
    (hq : .strong q ∈ (run n).pointers) :
    Downcasts run n q := by
  have htyped (hk : q.kind.isTrait = false) (p : Place) (hp : q.view = some p) :
      (run n).heap.kindAt? p = some q.kind := (hr.shows hq hp).kindAt? hk
  have hrecovered {i j : Nat} {x : Strong} {k : Kind} {p : Place} {h : Heap}
      (hx : Recast run q i (.strong x)) (hmem : .strong x ∈ (run j).pointers)
      (he : h.Echoes (run j).heap) (hs : isDowncastSource x.kind = true)
      (ht : isDowncastTarget k = true) (hp : q.view = some p)
      (hk : (run n).heap.kindAt? p = some k) :
      ∃ h', x.cast? (.dynamic k) h = some (h', ⟨k, q.block, q.view⟩) := by
    obtain ⟨hblock, hview⟩ : x.block = q.block ∧ x.view = q.view := hx.same hr
    have hxp : x.view = some p := hview.trans hp
    -- The place was of some kind when `x` was there, whichever moment is the earlier one.
    have hkind : h.kindAt? p = some k := by
      obtain ⟨c, hc, -⟩ := hr.shows hmem hxp
      have hc := Heap.kindAt?_of_read? hc
      rw [Heap.kindAt?_congr he.read?]
      rcases Nat.le_total j n with hjn | hnj
      · rw [hc, ← hk, hr.kindAt?_eq hjn hc]
      · exact hr.kindAt?_eq hnj hk
    obtain ⟨h', r, hcast, hdown⟩ := hr.downcast hmem he hs ht
    have hr := hdown.made (hdown.exact.mpr ⟨p, hxp, hkind⟩)
    exact ⟨h', by rw [hcast, hr, hblock, hview]⟩
  constructor
  case typed => exact htyped
  case defined => exact Strong.cast?_dynamic_isSome q
  case checked =>
    intro k h h' r he hcast
    obtain ⟨hs, ht⟩ := (Strong.cast?_dynamic_isSome q k h).mp (by rw [hcast]; rfl)
    obtain ⟨h₁, r₁, hcast₁, hdown⟩ := hr.downcast hq he hs ht
    cases hcast.symm.trans hcast₁
    exact hdown
  case performed =>
    intro src k dst loc rest hs ht ha hf
    obtain ⟨limits, hnext⟩ := hr.next n
    have he := erase_echoes (run n) limits loc
    obtain ⟨h', r, hcast, hdown⟩ := hr.downcast hq he hs ht
    have hstep := step_cast (m := (run n).ration limits) ha hf hcast
    rw [← hnext] at hstep
    refine ⟨limits, r, he, ?_, ?_⟩
    · rw [hstep]
      exact hdown
    · rw [hstep]
  case recovered =>
    intro i j x k p h hx _ hmem he hs ht hp hk
    exact hrecovered hx hmem he hs ht hp hk
  case returned =>
    intro i j x h hx _ hmem he hs ht hview
    obtain ⟨p, hp⟩ := Option.ne_none_iff_exists'.mp hview
    refine hrecovered hx hmem he hs ht hp (htyped ?_ p hp)
    generalize q.kind = k at ht
    cases k <;> first | rfl | cases ht

/-- A part of a node is shown as the number that it is, and then as anything. The other pointers are
dropped. -/
def disguising : List Step :=
  [.new .node (.node ⟨1, 5, .ofString "ab", []⟩ []) .global ⟨false, [], "p"⟩,
   .map ⟨false, [], "p"⟩ (some .value) ⟨false, [], "q"⟩ [] false,
   .map ⟨false, [], "q"⟩ (some .any) ⟨false, [], "x"⟩ [] false,
   .drop ⟨false, [], "p"⟩, .drop ⟨false, [], "q"⟩]

theorem downcasts_disguising :
    let p : Place := ⟨.object 0, [.value]⟩
    let q : Strong := ⟨.int, some 0, some p⟩
    let x : Strong := ⟨.any, some 0, some p⟩
    let run := moment disguising false
    .strong q ∈ (run 11).pointers ∧ Downcasts run 11 q ∧ Recast run q 11 (.strong x) ∧
    (run 24).pointers = [.strong x] ∧ (run 24).heap.kindAt? p = some .int ∧
    ∃ h', x.cast? (.dynamic .int) (run 24).heap = some (h', q) := by
  intro p q x run
  have hr : IsRationed run := isRationed_moment _ _
  have hq : .strong q ∈ (run 11).pointers := by decide
  have hcasts : Downcasts run 11 q := IsRationed.downcasts hr hq
  have hx : Recast run q 11 (.strong x) :=
    .derive (d := .project ⟨⟨.root, "q"⟩, .any, .any, ⟨false, [], "x"⟩, false⟩ true) (.start hq)
      (Nat.le_refl 11) hq (.refl _) rfl rfl id
  have hlast : (run 24).pointers = [.strong x] := by decide
  refine ⟨hq, hcasts, hx, hlast, by decide, ?_⟩
  exact hcasts.returned 11 24 x _ hx (by decide) (hlast ▸ List.mem_singleton_self _) (.refl _) rfl
    rfl nofun

end Machine

end Custody
