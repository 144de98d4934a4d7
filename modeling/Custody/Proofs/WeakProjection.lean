import Custody.Proofs.Discarding
import Custody.Proofs.Execution
import Custody.Proofs.LastRelease
import Custody.Proofs.Legibility
import Custody.Proofs.Locks

/-!
# Projections of weak pointers

A weak pointer is projected under a lock, which is given up after the weak pointer to the part has
been made. If the closure has dropped all other owners, the pointee is disposed then.

* `Heap.Recounts`: one block and the metrics change.
* `Projection.part`, `Projection.Yields`: what a projection comes to, and what that shows.
* `Machine.IsRationed.step_drop_shared`, `Machine.IsRationed.step_drop_last`: an owner is dropped
  that is, or is not, the last one.
* `Machine.Guarded`, `Machine.IsRationed.guarded`: a projection whose lock is granted.
* `Machine.WeakProjection`, `Machine.IsRationed.weakProjection`: a projection by a program, whatever
  its closure does.
-/

namespace Custody

/-- From heap `h` to heap `h'` block `b` changes by `f` and the metrics by `g`, and no other block
changes. -/
structure Heap.Recounts (b : BlockId) (f : Block → Block) (g : Metrics → Metrics) (h h' : Heap) :
    Prop where
  blocks : h'.blocks = h.blocks.modify b f
  metrics : h'.metrics = g h.metrics

/-- The weak pointer to the part that the projection leads to in heap `h`. -/
def Projection.part (j : Projection) (w : Weak) (h : Heap) : Weak :=
  ⟨j.target, w.block, j.view h w.owner⟩

/-- The weak pointer `made` is what the projection of `w` comes to in heap `h`. -/
structure Projection.Yields (j : Projection) (w made : Weak) (h : Heap) : Prop where
  kind : made.kind = j.target
  /-- It is on the same block. -/
  block : made.block = w.block
  /-- Its view is null if the closure was not called, -/
  null : w.view = none → made.view = none
  /-- and else it is the part that the selector leads to in what is there now, or the standing value
  where there is no such part. -/
  part : ∀ v, w.view = some v → ∃ c, h.read? v = some c ∧ w.kind.Suits c ∧
    made.view = match j.selector.path? w.kind c with
      | some path => some (v.into path)
      | none => (Static.ofKind? j.target).map .static

/-- What is left to be done when the projection of `w` has come to weak pointer `made`. -/
def Projection.returns (j : Projection) (w made : Weak) : List Action :=
  .putBack j.source (.weak w) false :: .place (.weak made) j.dst j.form ::
    Settlement.letGos [j.source.table]

variable {h : Heap} {b : BlockId} {x : Block} {w : Weak} {j : Projection} {during : List Step}
  {f f' : Block → Block} {g g' : Metrics → Metrics}

theorem Projection.yields_part (hshows : ∀ v, w.view = some v → h.Shows w.kind v) :
    j.Yields w (j.part w h) h where
  kind := rfl
  block := rfl
  null hv := by simp only [part, view, Weak.owner, hv]
  part v hv := by
    obtain ⟨c, hc, hk⟩ := hshows v hv
    refine ⟨c, hc, hk, ?_⟩
    simp only [part, view, part?, Weak.owner, hv, hc, Option.bind_eq_bind, Option.bind_some]
    cases j.selector.path? w.kind c <;> rfl

theorem Heap.Recounts.trans {h' h'' : Heap} (h₁ : h.Recounts b f g h')
    (h₂ : h'.Recounts b f' g' h'') : h.Recounts b (fun x => f' (f x)) (fun m => g' (g m)) h'' :=
  ⟨by rw [h₂.blocks, h₁.blocks, Array.modify_modify], by rw [h₂.metrics, h₁.metrics]⟩

theorem Heap.Recounts.getElem? {h' : Heap} (h₁ : h.Recounts b f g h')
    (hx : h.blocks[b]? = some x) : h'.blocks[b]? = some (f x) := by
  rw [h₁.blocks]
  exact Array.getElem?_modify_self f hx

namespace Effect

theorem call_mapWeak_null (hb : w.block = none) : (mapWeak j w during).call h =
    (h, closure false during j.listed ++ j.returns w ⟨j.target, none, none⟩) := by
  simp only [mapWeak, Weak.lock?_null hb, Weak.clone, Weak.acquire, hb]
  rfl

theorem call_mapWeak_granted (hb : w.block = some b) (hx : h.blocks[b]? = some x)
    (hf : x.freed = false) (hs : x.strong ≠ 0) : (mapWeak j w during).call h =
      (h.locked b, closure w.view.isSome during j.listed ++
        [.projectWeak j w w.owner]) := by
  simp only [mapWeak, Weak.lock?_granted hb hx hf hs]
  rfl

theorem call_mapWeak_refused (hb : w.block = some b) (hx : h.blocks[b]? = some x)
    (hf : x.freed = false) (hs : x.strong = 0) : (mapWeak j w during).call h =
      ((h.lockRefused b).updateBlock b fun x => { x with weak := x.weak + 1 },
        closure false during j.listed ++ j.returns w ⟨j.target, w.block, none⟩) := by
  have hrefused := Weak.lock?_refused hb hx hf hs
  have hx : (h.lockRefused b).blocks[b]? = some x := hx
  simp only [mapWeak, hrefused, Weak.clone, Weak.acquire, hb, Heap.addWeak_eq hx hf]
  rfl

end Effect

namespace Machine

variable {m : Machine} {src dst : Path} {part : Selector} {target : Kind} {listed : Bool}
  {loc : Location} {rest : List Action} {l : Strong} {o : ObjectId}

theorem plan_map_weak (hf : m.find src = .ok (loc, .weak w))
    (ht : part.target? w.kind = some target) : m.plan (.map src (some part) dst during listed) =
      .ok (.mapWeak ⟨loc, part, target, dst, listed⟩ w during) := by
  simp only [plan, planMap, hf, bind, Except.bind, Option.bind_some, Slot.kind, ht]
  rfl

/-- The weak pointer to the part is made, and an owner on the way to it. -/
theorem step_projectWeak (ha : m.env.agenda = .projectWeak j w l :: rest) (hb : l.block = some b)
    (hx : m.heap.blocks[b]? = some x) (hf : x.freed = false) (hs : 0 < x.strong) :
    m.step = ⟨(m.heap.updateBlock b fun x => { x with strong := x.strong + 1 }).updateBlock b
        fun x => { x with weak := x.weak + 1 },
      { m.env with
        agenda := .drop (.strong ⟨j.target, some b, j.view m.heap l⟩) :: .drop (.strong l) ::
          (j.returns w ⟨j.target, some b, j.view m.heap l⟩ ++ rest) }⟩ := by
  obtain ⟨h, env⟩ := m
  let h' := h.updateBlock b fun x => { x with strong := x.strong + 1 }
  have hmapped : l.aliasing j.target (j.view h l) h = (h', ⟨j.target, some b, j.view h l⟩) := by
    rw [Strong.aliasing, hb]
    simp only [Strong.acquire, Heap.addStrong_eq hx hf hs, h']
  have hmade : Strong.downgrade ⟨j.target, some b, j.view h l⟩ h' =
      (h'.updateBlock b fun x => { x with weak := x.weak + 1 },
        ⟨j.target, some b, j.view h l⟩) := by
    have hx' : h'.blocks[b]? = some { x with strong := x.strong + 1 } :=
      Array.getElem?_modify_self _ hx
    simp only [Strong.downgrade, Weak.acquire, Heap.addWeak_eq hx' hf]
  rw [step_eq_perform (next?_of_agenda ha)]
  simp only [perform, finishWeakProjection, carryOut, Effect.closing, takeOut, List.foldl_nil,
    mapEnv, onHeap, hmapped, hmade]
  rfl

/-! ## Runs -/

/-- Weak pointer `w` on block `b` is locked at moment `n`, and projected at moment `c`, when the
closure is over. `o` is the pointee of the block. -/
structure Guarded (run : Nat → Machine) (n : Nat) (j : Projection) (w : Weak) (during : List Step)
    (rest : List Action) (b : BlockId) (o : ObjectId) (c : Nat) : Prop where
  taken : (run n).heap.Recounts b (fun x => { x with strong := x.strong + 1 }) (·.recordLock true)
    (run (n + 1)).heap
  /-- The closure is called if the view is not null. -/
  calls : (run (n + 1)).env.agenda =
    Effect.closure w.view.isSome during j.listed ++ .projectWeak j w w.owner :: rest
  /-- Then each step of it has its turn, -/
  turns : w.view.isSome → ∀ earlier s after, during = earlier ++ s :: after → ∃ k a,
    n < k ∧ k < c ∧
    (run k).env.agenda = .exec s :: (after.map .exec ++ a :: .projectWeak j w w.owner :: rest)
  /-- and else no step is executed. -/
  uncalled : w.view = none → ∀ k, n < k → k < c →
    (run k).env.agenda = .answer (.list []) :: .projectWeak j w w.owner :: rest
  later : n < c
  inside : ∀ k, n < k → k < c →
    ∃ a as, (run k).env.agenda = a :: (as ++ .projectWeak j w w.owner :: rest)
  ended : (run c).env.agenda = .projectWeak j w w.owner :: rest
  /-- Whatever the closure does, the pointee is there until the lock is given up. -/
  alive : ∀ k, n < k → k ≤ c + 2 →
    (run k).heap.phase? o = some .alive ∧ 0 < (run k).heap.strongCount b
  made : (run c).heap.Recounts b (fun x => { x with weak := x.weak + 1 }) id (run (c + 2)).heap ∧
    (run (c + 2)).env.agenda =
      .drop (.strong w.owner) :: (j.returns w (j.part w (run c).heap) ++ rest)
  yields : j.Yields w (j.part w (run c).heap) (run c).heap
  /-- There are other owners. -/
  shared : 1 < (run c).heap.strongCount b →
    (run c).heap.Recounts b (fun x => { x with strong := x.strong - 1, weak := x.weak + 1 }) id
      (run (c + 3)).heap ∧
    (run (c + 3)).env.agenda = j.returns w (j.part w (run c).heap) ++ rest ∧
    -- what does not come of the closure
    ((run (c + 3)).heap.strongCount b - (run n).heap.strongCount b : Int) =
      (run c).heap.strongCount b - (run (n + 1)).heap.strongCount b ∧
    ((run (c + 3)).heap.weakCount b - (run n).heap.weakCount b : Int) =
      (run c).heap.weakCount b - (run (n + 1)).heap.weakCount b + 1
  /-- There is no other owner. The pointee is disposed, and the call returns at moment `r`. -/
  last : (run c).heap.strongCount b = 1 → ∃ r, c + 2 < r ∧
    (∀ k, (run k).starts? = some o ↔ k = c + 2) ∧
    (∀ k, c + 2 < k → k < r →
      ∃ a as, (run k).env.agenda = a :: (as ++ (j.returns w (j.part w (run c).heap) ++ rest))) ∧
    (run r).heap.phase? o = some .gone ∧
    (run r).env.agenda = j.returns w (j.part w (run c).heap) ++ rest ∧
    ∃ y, (run r).heap.blocks[b]? = some y ∧ y.strong = 0 ∧ y.freed = false

section Run

variable {run : Nat → Machine} {n k c : Nat}

/-- As long as there is an owner the block keeps its pointee, which is alive. -/
theorem IsRationed.block_of_strong {p : Strong} (hr : IsRationed run)
    (hx : (run n).heap.blocks[b]? = some x) (ho : x.pointee = some o) (hnk : n ≤ k)
    (hp : .strong p ∈ (run k).pointers) (hb : p.block = some b) :
    ∃ y, (run k).heap.blocks[b]? = some y ∧ y.freed = false ∧ 0 < y.strong ∧
      y.pointee = some o ∧ (run k).heap.phase? o = some .alive := by
  obtain ⟨y, hy, hf, hpos, hsome⟩ := (hr.sound k).strong (pointer_mem_stakes_iff.mpr hp) hb
  obtain ⟨z, hz, hxz⟩ := hr.becomes hx hnk
  obtain rfl : z = y := Option.some.inj (hz.symm.trans hy)
  have hzo : z.pointee = some o := by
    rcases hxz.pointee with h | h
    · exact h.trans ho
    · rw [h] at hsome
      cases hsome
  refine ⟨z, hy, hf, hpos, hzo, (hr.owned k).alive (hr.grounded k).scope ?_⟩
  rw [owners_scene]
  have := Heap.managers_pos ⟨b, z, hy, hzo⟩
  omega

/-- What an action on the agenda holds. -/
theorem mem_pointers_of_agenda {a : Action} {y : Slot} (ha : a ∈ m.env.agenda) (hy : y ∈ a.slots) :
    y ∈ m.pointers :=
  List.mem_append_right _ (List.mem_flatMap_of_mem ha hy)

theorem mem_pointers_of_first {a : Action} {y : Slot} (ha : m.env.agenda = a :: rest)
    (hy : y ∈ a.slots) : y ∈ m.pointers :=
  mem_pointers_of_agenda (ha ▸ List.mem_cons_self) hy

/-- An owner is dropped that is not the last one. -/
theorem IsRationed.step_drop_shared {p : Strong} (hr : IsRationed run) (hb : p.block = some b)
    (ha : (run n).env.agenda = .drop (.strong p) :: rest) (hx : (run n).heap.blocks[b]? = some x)
    (hf : x.freed = false) (hs : 1 < x.strong) :
    (run n).heap.Recounts b (fun x => { x with strong := x.strong - 1 }) id (run (n + 1)).heap ∧
    (run (n + 1)).env.agenda = rest := by
  obtain ⟨limits, hnext⟩ := hr.next n
  obtain ⟨k, _, v⟩ := p
  obtain rfl : _ = some b := hb
  rw [hnext, step_drop_strong (m := (run n).ration limits) ha hx hf hs]
  exact ⟨⟨rfl, rfl⟩, rfl⟩

/-- The weak pointer to the part is made, and the owner that it was made of is dropped. -/
theorem IsRationed.step_projectWeak (hr : IsRationed run) (hb : w.block = some b)
    (ha : (run c).env.agenda = .projectWeak j w w.owner :: rest)
    (hx : (run c).heap.blocks[b]? = some x) (hf : x.freed = false) (hs : 0 < x.strong) :
    .strong w.owner ∈ (run (c + 1)).pointers ∧
    (run c).heap.Recounts b (fun x => { x with weak := x.weak + 1 }) id (run (c + 2)).heap ∧
    (run (c + 2)).env.agenda =
      .drop (.strong w.owner) :: (j.returns w (j.part w (run c).heap) ++ rest) := by
  obtain ⟨limits, hnext⟩ := hr.next c
  have hb' : w.owner.block = some b := hb
  have hstep := Machine.step_projectWeak (m := (run c).ration limits) ha hb' hx hf hs
  rw [← hnext] at hstep
  have hmade : (run c).heap.Recounts b
      (fun x => { x with strong := x.strong + 1, weak := x.weak + 1 }) id (run (c + 1)).heap := by
    rw [hstep]
    exact ⟨congrArg Heap.blocks (Heap.updateBlock_updateBlock (h := (run c).heap)), rfl⟩
  have hagenda := congrArg (fun m => m.env.agenda) hstep
  have hx' : (run (c + 1)).heap.blocks[b]? = _ := hmade.getElem? hx
  obtain ⟨hdropped, hrest⟩ := hr.step_drop_shared rfl hagenda hx' hf (Nat.lt_add_of_pos_left hs)
  refine ⟨?_, hmade.trans hdropped, ?_⟩
  · refine mem_pointers_of_agenda (a := .drop (.strong w.owner)) ?_ (List.mem_singleton_self _)
    rw [hagenda]
    exact List.mem_cons_of_mem _ List.mem_cons_self
  · rw [hrest, Projection.part, hb]
    rfl

/-- The last owner is dropped. The pointee is disposed before what is to be done next, and the block
is kept by the weak pointers that are held there. -/
theorem IsRationed.step_drop_last {p : Strong} {v : Weak} {a : Action} {i : Nat}
    (hr : IsRationed run) (hb : p.block = some b)
    (ha : (run i).env.agenda = .drop (.strong p) :: rest)
    (hx : (run i).heap.blocks[b]? = some x) (ho : x.pointee = some o) (hs : x.strong = 1)
    (hrest : a ∈ rest) (hv : .weak v ∈ a.slots) (hvb : v.block = some b) :
    ∃ r, i < r ∧ (∀ k, (run k).starts? = some o ↔ k = i) ∧
      (∀ k, i < k → k < r → ∃ c as, (run k).env.agenda = c :: (as ++ rest)) ∧
      (run r).heap.phase? o = some .gone ∧ (run r).env.agenda = rest ∧
      ∃ y, (run r).heap.blocks[b]? = some y ∧ y.strong = 0 ∧ y.freed = false := by
  have hlast : (run i).DropsLast b rest := ⟨⟨p, hb, ha⟩, (Heap.strongCount_eq hx).trans hs⟩
  obtain ⟨o', q, hstarts, hlater, hinside, hgone, hover⟩ := hr.exists_over hlast
  obtain rfl : o' = o := by
    have hbind : (run i).heap.blocks[b]?.bind (·.pointee) = some o := by
      rw [hx, Option.bind_some, ho]
    have hat : (run i).starts? = some o := by
      obtain ⟨k, _, u⟩ := p
      obtain rfl : _ = some b := hb
      simp only [starts?, ha, Stake.starts?, Option.bind_some, hlast.last, hbind, ↓reduceIte]
    exact Option.some.inj (hstarts.symm.trans hat)
  obtain ⟨y, hy⟩ := exists_disposing (b := b) (hr.sound q) (by simp [hover])
  obtain ⟨hagenda, hblock⟩ := hr.step_giveUpImplicit hy hover
  have hheld : (run q).weaks b ≠ 0 := by
    refine Nat.ne_of_gt (List.countP_pos_iff.mpr ⟨.weak v, ?_, by simpa using hvb⟩)
    refine mem_pointers_of_agenda (a := a) ?_ hv
    rw [hover]
    exact List.mem_cons_of_mem _ hrest
  refine ⟨q + 1, by omega, fun k => ⟨fun hk => hr.starts_once hk hstarts, fun hk => hk ▸ hstarts⟩,
    fun k hik hkq => ?_, hr.gone_of_le hgone (Nat.le_succ q), hagenda, _, hblock, hy.strong, ?_⟩
  · rcases Nat.lt_or_eq_of_le (Nat.le_of_lt_succ hkq) with hkq | rfl
    · obtain ⟨-, c, as, hk⟩ := hinside k hik hkq
      exact ⟨c, as ++ [.giveUpImplicit b], by simp [hk]⟩
    · exact ⟨.giveUpImplicit b, [], hover⟩
  · simpa using hheld

/-- What stands in front of `rest` has its turn before `rest` is all that is left. -/
theorem IsRationed.exists_turn {as bs : List Action} {a : Action} (hr : IsRationed run)
    (ha : (run n).env.agenda = as ++ a :: (bs ++ rest)) (hnc : n ≤ c)
    (hc : (run c).env.agenda = rest) :
    ∃ k, n ≤ k ∧ k < c ∧ (run k).env.agenda = a :: (bs ++ rest) := by
  obtain ⟨k, hnk, hk, -, hfront⟩ := hr.sequel.reaches ha
  refine ⟨k, hnk, Nat.lt_of_not_le fun hck => ?_, hk⟩
  obtain ⟨b, cs, heq⟩ : ∃ b cs, (run c).env.agenda = b :: (cs ++ rest) := by
    rcases Nat.lt_or_eq_of_le hck with hck | rfl
    · obtain ⟨b, cs, heq⟩ := hfront c hnc hck
      exact ⟨b, cs ++ a :: bs, by simpa using heq⟩
    · exact ⟨a, bs, hk⟩
  exact ne_cons_append (hc.symm.trans heq)

/-- A closure that is not called has an empty list of replies at most. -/
theorem IsRationed.agenda_of_uncalled {listed : Bool} (hr : IsRationed run)
    (ha : (run n).env.agenda = Effect.closure false during listed ++ rest)
    (hfront : ∀ k, n ≤ k → k < c → ∃ a as, (run k).env.agenda = a :: (as ++ rest)) (hnk : n ≤ k)
    (hkc : k < c) : (run k).env.agenda = .answer (.list []) :: rest := by
  cases listed with
  | false =>
    obtain ⟨a, as, hn⟩ := hfront n (Nat.le_refl n) (Nat.lt_of_le_of_lt hnk hkc)
    exact absurd (ha.symm.trans hn) ne_cons_append
  | true =>
    have ha : (run n).env.agenda = .answer (.list []) :: rest := ha
    rcases Nat.lt_or_eq_of_le hnk with hnk | rfl
    · obtain ⟨limits, hnext⟩ := hr.sequel.exists_perform ha
      have hover : (run (n + 1)).env.agenda = rest := by rw [hnext]; rfl
      obtain ⟨a, as, hn⟩ := hfront (n + 1) (Nat.le_succ n) (Nat.lt_of_le_of_lt hnk hkc)
      exact absurd (hover.symm.trans hn) ne_cons_append
    · exact ha

/-- What happens under a lock that is granted, up to when it is given up. -/
theorem IsRationed.guarded (hr : IsRationed run) (hb : w.block = some b)
    (hx : (run n).heap.blocks[b]? = some x) (ho : x.pointee = some o)
    (hlocks : (run n).heap.Recounts b (fun x => { x with strong := x.strong + 1 })
      (·.recordLock true) (run (n + 1)).heap)
    (hcalls : (run (n + 1)).env.agenda =
      Effect.closure w.view.isSome during j.listed ++ .projectWeak j w w.owner :: rest) :
    ∃ c, Guarded run n j w during rest b o c := by
  obtain ⟨c, hc, hover, -, hfront⟩ := hr.sequel.reaches hcalls
  have hheld (k : Nat) (hnk : n < k) (hkc : k ≤ c) : .strong w.owner ∈ (run k).pointers := by
    refine mem_pointers_of_agenda (a := .projectWeak j w w.owner) ?_ (by simp [Action.slots])
    rcases Nat.lt_or_eq_of_le hkc with hkc | rfl
    · obtain ⟨a, as, hk⟩ := hfront k hnk hkc
      simp [hk]
    · simp [hover]
  have hbc : w.owner.block = some b := hb
  obtain ⟨y, hy, hf, hpos, hyo, -⟩ :=
    hr.block_of_strong hx ho (by omega) (hheld c hc (Nat.le_refl c)) hbc
  obtain ⟨hstill, hmade, hagenda⟩ := hr.step_projectWeak hb hover hy hf hpos
  have hz := hmade.getElem? hy
  refine ⟨c, ?_⟩
  constructor
  case taken => exact hlocks
  case calls => exact hcalls
  case turns =>
    intro hcalled earlier s after hsplit
    obtain ⟨a, ha⟩ : ∃ a, Effect.closure true during j.listed = during.map .exec ++ [a] := ⟨_, rfl⟩
    have hagenda : (run (n + 1)).env.agenda = earlier.map .exec ++
        .exec s :: ((after.map .exec ++ [a]) ++ .projectWeak j w w.owner :: rest) := by
      rw [hcalls, hcalled, ha, hsplit]
      simp
    obtain ⟨k, hnk, hkc, hk⟩ := hr.exists_turn hagenda hc hover
    exact ⟨k, a, hnk, hkc, by simpa using hk⟩
  case uncalled =>
    intro hv k hnk hkc
    rw [hv] at hcalls
    exact hr.agenda_of_uncalled hcalls hfront hnk hkc
  case later => exact hc
  case inside => exact hfront
  case ended => exact hover
  case alive =>
    intro k hnk hkc
    have hp : .strong w.owner ∈ (run k).pointers := by
      rcases Nat.lt_or_ge c k with hck | hck
      · obtain rfl | rfl : k = c + 1 ∨ k = c + 2 := by omega
        · exact hstill
        · exact mem_pointers_of_first hagenda (List.mem_singleton_self _)
      · exact hheld k hnk hck
    obtain ⟨z, hz, -, hzpos, -, halive⟩ := hr.block_of_strong hx ho (by omega) hp hbc
    exact ⟨halive, (Heap.strongCount_eq hz).symm ▸ hzpos⟩
  case made => exact ⟨hmade, hagenda⟩
  case yields => exact Projection.yields_part fun v => hr.shows (hheld c hc (Nat.le_refl c))
  case shared =>
    intro hs
    rw [Heap.strongCount_eq hy] at hs
    obtain ⟨hdropped, hrest⟩ := hr.step_drop_shared hbc hagenda hz hf hs
    have hboth := hmade.trans hdropped
    have hlocked := hlocks.getElem? hx
    have hreturned := hboth.getElem? hy
    refine ⟨hboth, hrest, ?_, ?_⟩
    · rw [Heap.strongCount_eq hx, Heap.strongCount_eq hlocked, Heap.strongCount_eq hy,
        Heap.strongCount_eq hreturned]
      dsimp only
      omega
    · rw [Heap.weakCount_eq hx, Heap.weakCount_eq hlocked, Heap.weakCount_eq hy,
        Heap.weakCount_eq hreturned]
      dsimp only
      omega
  case last =>
    intro hs
    rw [Heap.strongCount_eq hy] at hs
    have hmem : .place (.weak (j.part w (run c).heap)) j.dst j.form ∈
        j.returns w (j.part w (run c).heap) ++ rest := by
      simp [Projection.returns]
    exact hr.step_drop_last hbc hagenda hz hyo hs hmem (List.mem_singleton_self _) hb

/-- Weak pointer `w` is projected at moment `n`. -/
structure WeakProjection (run : Nat → Machine) (n : Nat) (j : Projection) (w : Weak)
    (during : List Step) (rest : List Action) : Prop where
  /-- Without a block nothing is counted, and the closure is not called. What is made is null. -/
  null : w.block = none →
    (run (n + 1)).heap.blocks = (run n).heap.blocks ∧
    (run (n + 1)).heap.metrics = (run n).heap.metrics ∧
    (run (n + 1)).env.agenda =
      Effect.closure false during j.listed ++ (j.returns w ⟨j.target, none, none⟩ ++ rest)
  /-- The lock is refused, and the closure is not called. What is made is on the block, and shows
  nothing. -/
  expired : ∀ b, w.block = some b → (run n).heap.strongCount b = 0 →
    (run n).heap.Recounts b (fun x => { x with weak := x.weak + 1 }) (·.recordLock false)
      (run (n + 1)).heap ∧
    (run (n + 1)).env.agenda =
      Effect.closure false during j.listed ++ (j.returns w ⟨j.target, some b, none⟩ ++ rest)
  /-- The lock is granted, and kept until the closure is over. -/
  alive : ∀ b, w.block = some b → 0 < (run n).heap.strongCount b →
    ∃ x o c, (run n).heap.blocks[b]? = some x ∧ x.pointee = some o ∧
      Guarded run n j w during rest b o c

/-- The call returns a weak pointer on the same block, whatever the closure does. -/
theorem IsRationed.weakProjection (hr : IsRationed run)
    (ha : (run n).env.agenda = .exec (.map src (some part) dst during listed) :: rest)
    (hf : (run n).find src = .ok (loc, .weak w)) (ht : part.target? w.kind = some target) :
    WeakProjection run n ⟨loc, part, target, dst, listed⟩ w during rest := by
  obtain ⟨limits, hnext⟩ := hr.next n
  have hstep := step_exec (m := (run n).ration limits) ha (plan_map_weak hf ht)
  rw [← hnext] at hstep
  obtain ⟨xs, htaken⟩ := heap_takeOut (m := (run n).ration limits) [loc]
  -- `h` is the heap without the operand
  obtain ⟨h, hh⟩ : ∃ h, (((run n).ration limits).takeOut [loc]).heap = h := ⟨_, rfl⟩
  have hblocks : h.blocks = (run n).heap.blocks := by rw [← hh, htaken]; rfl
  have hmetrics : h.metrics = (run n).heap.metrics := by rw [← hh, htaken]; rfl
  have hheap : (run (n + 1)).heap =
      ((Effect.mapWeak ⟨loc, part, target, dst, listed⟩ w during).call h).1 := by
    rw [hstep, ← hh]
    rfl
  have hagenda : (run (n + 1)).env.agenda =
      ((Effect.mapWeak ⟨loc, part, target, dst, listed⟩ w during).call h).2 ++ rest := by
    rw [hstep, ← hh]
    rfl
  have hblock (b : BlockId) (hb : w.block = some b) : ∃ x, (run n).heap.blocks[b]? = some x ∧
      x.freed = false ∧ (x.pointee.isSome ↔ x.strong ≠ 0) := by
    have hmem := pointer_mem_stakes_iff.mpr (mem_pointers_of_get? (find_ok hf))
    obtain ⟨x, hx, hfreed, hagree⟩ := (hr.sound n).block hmem (b := b) hb
    exact ⟨x, hx, hfreed, hagree.pointee⟩
  constructor
  case null =>
    intro hb
    rw [Effect.call_mapWeak_null hb] at hheap hagenda
    refine ⟨hheap ▸ hblocks, hheap ▸ hmetrics, ?_⟩
    rw [hagenda, List.append_assoc]
  case expired =>
    intro b hb hs
    obtain ⟨x, hx, hfreed, -⟩ := hblock b hb
    rw [Heap.strongCount_eq hx] at hs
    rw [Effect.call_mapWeak_refused hb (hblocks ▸ hx) hfreed hs] at hheap hagenda
    refine ⟨⟨?_, ?_⟩, ?_⟩
    · rw [hheap, ← hblocks]
      rfl
    · rw [hheap, ← hmetrics]
      rfl
    · rw [hagenda, List.append_assoc, hb]
  case alive =>
    intro b hb hs
    obtain ⟨x, hx, hfreed, hpointee⟩ := hblock b hb
    rw [Heap.strongCount_eq hx] at hs
    have hs : x.strong ≠ 0 := Nat.ne_of_gt hs
    obtain ⟨o, ho⟩ := Option.isSome_iff_exists.mp (hpointee.mpr hs)
    rw [Effect.call_mapWeak_granted hb (hblocks ▸ hx) hfreed hs] at hheap hagenda
    have hlocks : (run n).heap.Recounts b (fun x => { x with strong := x.strong + 1 })
        (·.recordLock true) (run (n + 1)).heap := by
      rw [hheap]
      refine ⟨?_, ?_⟩
      · rw [← hblocks]
        rfl
      · rw [← hmetrics]
        rfl
    rw [List.append_assoc] at hagenda
    obtain ⟨c, hc⟩ := hr.guarded hb hx ho hlocks hagenda
    exact ⟨x, o, c, hx, ho, hc⟩

end Run

/-- A closure that makes another weak pointer, drops the only owner, and makes and gives up an
owner of its own. -/
def desertion : List Step :=
  [.downgrade ⟨false, [], "p"⟩ ⟨false, [], "x"⟩, .drop ⟨false, [], "p"⟩,
    .lock ⟨false, [], "u"⟩ ⟨false, [], "q"⟩, .reset ⟨false, [], "q"⟩]

/-- A weak pointer is projected while its owner is dropped. -/
def deserting : List Step :=
  [.new .int (.int 7) .global ⟨false, [], "p"⟩,
    .downgrade ⟨false, [], "p"⟩ ⟨false, [], "w"⟩,
    .clone ⟨false, [], "w"⟩ ⟨false, [], "u"⟩,
    .map ⟨false, [], "w"⟩ (some .self) ⟨false, [], "v"⟩ desertion true]

/-- The lock is the only owner when the closure is over. -/
theorem weakProjection_deserting :
    let run := moment deserting false
    let w : Weak := ⟨.int, some 0, some (.whole 0)⟩
    let j : Projection := ⟨⟨.root, "w"⟩, .self, .int, ⟨false, [], "v"⟩, true⟩
    0 < (run 11).heap.strongCount 0 ∧
    (run 25).env.agenda = .projectWeak j w w.owner :: [.record, .clear] ∧
    (run 25).heap.strongCount 0 = 1 ∧
    WeakProjection run 11 j w desertion [.record, .clear] :=
  ⟨by decide, rfl, by decide, IsRationed.weakProjection (isRationed_moment _ _) rfl rfl rfl⟩

end Machine

end Custody
