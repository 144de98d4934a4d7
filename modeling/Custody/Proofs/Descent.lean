import Custody.Proofs.Execution

/-!
# Where weak pointers come from

* `Site`: where a pointer is, in a table or in the hands of an action.
* `Machine.Passes`: a step leaves a weak pointer where it is, moves it or copies it.
* `Descends`: what begins with the downgrade of a strong pointer and goes on so.
* `Descends.holds`: it is a weak pointer with the owner and the view that the strong one had.
-/

namespace Custody

/-- An action is told from others by the number of actions that come later. -/
inductive Site
  | stored (loc : Location)
  | pending (later : Nat)

/-- The weak pointer that a downgrade makes. -/
def Strong.observer (p : Strong) : Weak := ⟨p.kind, p.block, p.view⟩

/-- What becomes of an attempt to lock the weak pointer: a pointer is made, or a failure is the
answer. -/
def Weak.afterLock (w : Weak) (dst : Path) (fail : Bool) : Option Strong → Action
  | some p => .place (.strong p) dst .plain
  | none =>
    if fail then .answer (.failed .expired) else .place (.strong (.null w.kind)) dst .plain

namespace Machine

/-- The pointer `x` is at the site. -/
def Holds (m : Machine) (x : Slot) : Site → Prop
  | .stored loc => m.get? loc = some x
  | .pending later => ∃ a, m.env.agenda.reverse[later]? = some a ∧ x ∈ a.slots

/-- The action that `i` others come before. -/
def upcoming (m : Machine) (i : Nat) : Site := .pending (m.env.agenda.length - 1 - i)

/-- The step leaves the weak pointer at the first site there, moves it, or copies it. -/
inductive Passes (m : Machine) : Site → Site → Prop
  | waits {a rest later} : m.env.agenda = a :: rest → later < rest.length →
      m.Passes (.pending later) (.pending later)
  | stays {a n loc} : m.next? = some (a, n) → ¬ a.Touches n loc →
      m.Passes (.stored loc) (.stored loc)
  | putBack {loc x counted rest} : m.env.agenda = .putBack loc x counted :: rest →
      m.Passes (.pending rest.length) (.stored loc)
  | place {x dst form loc rest} : m.env.agenda = .place x dst form :: rest →
      m.resolve? dst = some loc → m.Passes (.pending rest.length) (.stored loc)
  | move {src dst rest loc target w} : m.env.agenda = .exec (.move src dst) :: rest →
      m.locate dst = .ok target → m.find src = .ok (loc, .weak w) →
      m.Passes (.stored loc) (m.step.upcoming 0)
  | cloned {src dst rest loc w} : m.env.agenda = .exec (.clone src dst) :: rest →
      m.find src = .ok (loc, .weak w) → m.Passes (.stored loc) (m.step.upcoming 0)
  | clone {src dst rest loc w} : m.env.agenda = .exec (.clone src dst) :: rest →
      m.find src = .ok (loc, .weak w) → m.Passes (.stored loc) (m.step.upcoming 1)
  /-- The pointer that is assigned to is dropped first if it is on another block. -/
  | assigned {left right rest other v loc w} :
      m.env.agenda = .exec (.cloneFrom left right) :: rest →
      m.findTwo left right = .ok ((other, .weak v), (loc, .weak w)) → v.kind = w.kind →
      m.Passes (.stored loc) (m.step.upcoming (if v.block = w.block then 1 else 2))
  | assign {left right rest other v loc w} :
      m.env.agenda = .exec (.cloneFrom left right) :: rest →
      m.findTwo left right = .ok ((other, .weak v), (loc, .weak w)) → v.kind = w.kind →
      m.Passes (.stored loc) (m.step.upcoming (if v.block = w.block then 0 else 1))
  | swapLeft {left right rest other v loc w} : m.env.agenda = .exec (.swap left right) :: rest →
      m.findTwo left right = .ok ((loc, .weak w), (other, .weak v)) → w.kind = v.kind →
      m.Passes (.stored loc) (m.step.upcoming 1)
  | swapRight {left right rest other v loc w} : m.env.agenda = .exec (.swap left right) :: rest →
      m.findTwo left right = .ok ((other, .weak v), (loc, .weak w)) → v.kind = w.kind →
      m.Passes (.stored loc) (m.step.upcoming 0)
  | locked {src dst e rest loc w} : m.env.agenda = .exec e :: rest →
      e = .lock src dst ∨ e = .tryLock src dst → m.find src = .ok (loc, .weak w) →
      m.Passes (.stored loc) (m.step.upcoming 0)

variable {m n : Machine} {a : Action} {rest : List Action} {s t : Site}
  {loc other : Location} {x : Slot} {w v : Weak} {src dst left right : Path} {i later : Nat}

theorem holds_upcoming (ha : m.env.agenda[i]? = some a) (hx : x ∈ a.slots) :
    m.Holds x (m.upcoming i) := by
  obtain ⟨hi, -⟩ := List.getElem?_eq_some_iff.mp ha
  refine ⟨a, ?_, hx⟩
  rw [List.getElem?_reverse (by omega)]
  have hindex : m.env.agenda.length - 1 - (m.env.agenda.length - 1 - i) = i := by omega
  rw [hindex]
  exact ha

/-- What waits still waits. -/
theorem Holds.waits (hm : m.Grounded) (ha : m.env.agenda = a :: rest) (hl : later < rest.length)
    (hx : m.Holds x (.pending later)) : m.step.Holds x (.pending later) := by
  obtain ⟨c, hc, hx⟩ := hx
  obtain ⟨as, hstep⟩ := hm.step_agenda ha
  refine ⟨c, ?_, hx⟩
  have hl : later < rest.reverse.length := by simpa using hl
  rw [ha, List.reverse_cons, List.getElem?_append_left hl] at hc
  rw [hstep, List.reverse_append, List.getElem?_append_left hl]
  exact hc

/-- The pointer that the first action holds. -/
theorem Holds.first (ha : m.env.agenda = a :: rest) (hx : m.Holds x (.pending rest.length)) :
    x ∈ a.slots := by
  obtain ⟨c, hc, hx⟩ := hx
  rw [ha, List.reverse_cons, List.getElem?_append_right (by simp)] at hc
  simp only [List.length_reverse, Nat.sub_self, List.getElem?_cons_zero, Option.some.injEq] at hc
  exact hc ▸ hx

/-- What the plan of a step leaves to be done with a pointer. -/
theorem holds_upcoming_exec {e : Effect} {c : Step} (ha : m.env.agenda = .exec c :: rest)
    (hplan : m.plan c = .ok e) (hi : ∀ h, ∃ b, (e.call h).2[i]? = some b ∧ x ∈ b.slots) :
    m.step.Holds x (m.step.upcoming i) := by
  obtain ⟨b, hb, hx⟩ := hi (m.takeOut e.taken).heap
  refine holds_upcoming (a := b) ?_ hx
  obtain ⟨hlt, -⟩ := List.getElem?_eq_some_iff.mp hb
  rw [step_exec ha hplan, List.getElem?_append_left hlt]
  exact hb

theorem get?_next (hn : m.next? = some (a, n)) : n.get? = m.get? := by
  obtain ⟨-, -, hagenda, -⟩ := next?_eq_some hn
  have heq := (next?_of_agenda hagenda).symm.trans hn
  obtain ⟨-, heq⟩ := Prod.mk.inj (Option.some.inj heq)
  rw [← heq]
  rfl

theorem holds_store (rs : List Reply) (hl : m.heap.Has loc.table) :
    ((m.mapEnv fun e => { e with replies := rs }).store loc x).Holds x (.stored loc) :=
  get?_store (m := m.mapEnv fun e => { e with replies := rs }) hl

/-! ## Plans for weak pointers -/

theorem plan_cloneFrom_weak (hf : m.findTwo left right = .ok ((other, .weak v), (loc, .weak w)))
    (hk : v.kind = w.kind) :
    m.plan (.cloneFrom left right) = .ok (.assignWeak other v loc w) := by
  show (m.findTwo left right >>= _) = _
  rw [hf]
  exact if_pos hk

theorem plan_swap_weak (hf : m.findTwo left right = .ok ((loc, .weak w), (other, .weak v)))
    (hk : w.kind = v.kind) :
    m.plan (.swap left right) = .ok (.swap loc (.weak w) other (.weak v)) := by
  show (m.findTwo left right >>= _) = _
  rw [hf]
  exact if_pos (by simpa [canSwap] using hk)

theorem findWeak_of_find (hf : m.find src = .ok (loc, .weak w)) :
    m.findWeak src = .ok (loc, w) := by
  rw [findWeak, hf]
  rfl

theorem findStrong_of_find {p : Strong} (hf : m.find src = .ok (loc, .strong p)) :
    m.findStrong src = .ok (loc, p) := by
  rw [findStrong, hf]
  rfl

theorem plan_downgrade {p : Strong} (hf : m.find src = .ok (loc, .strong p)) :
    m.plan (.downgrade src dst) = .ok (.downgrade loc p dst) := by
  rw [plan, findStrong_of_find hf]
  rfl

theorem plan_lock (hf : m.find src = .ok (loc, .weak w)) :
    m.plan (.lock src dst) = .ok (.lock loc w dst false) := by
  rw [plan, findWeak_of_find hf]
  rfl

theorem plan_tryLock (hf : m.find src = .ok (loc, .weak w)) :
    m.plan (.tryLock src dst) = .ok (.lock loc w dst true) := by
  rw [plan, findWeak_of_find hf]
  rfl

/-- The weak pointer returns before anything else, granted or refused. -/
theorem call_lock (h : Heap) (fail : Bool) :
    (Effect.lock loc w dst fail).call h = ((w.lock? h).1, .putBack loc (.weak w) false ::
      w.afterLock dst fail (w.lock? h).2 :: Settlement.letGos [loc.table]) := by
  simp only [Effect.lock, Effect.settling, Effect.closing]
  rcases w.lock? h with ⟨h', _ | p⟩
  · cases fail <;> rfl
  · rfl

/-- A weak pointer that is passed on is the same. -/
theorem Passes.holds (hm : m.Grounded) (hp : m.Passes s t) (hw : m.Holds (.weak w) s) :
    m.step.Holds (.weak w) t := by
  -- what a plan found is the pointer itself
  have hfound {l : Location} {u : Weak} (hl : m.get? l = some (.weak u))
      (hw : m.Holds (.weak w) (.stored l)) : u = w := by
    have heq : Slot.weak u = .weak w := Option.some.inj (hl.symm.trans hw)
    exact Slot.weak.inj heq
  cases hp with
  | waits ha hl => exact hw.waits hm ha hl
  | stays hn htouches =>
    show m.step.get? _ = some _
    rw [step_eq_perform hn, get?_perform (hm.next hn).1 htouches, get?_next hn]
    exact hw
  | putBack ha =>
    obtain rfl := List.mem_singleton.mp (hw.first ha)
    have hland := (hm.agenda _ (ha ▸ List.mem_cons_self)).tables
    rw [step_eq_perform (next?_of_agenda ha)]
    obtain ⟨rs, hput⟩ := perform_putBack (m.mapEnv fun e => { e with agenda := _ }) _ _ _
    rw [hput]
    exact holds_store rs (hland _ (by simp [Action.worksOn]))
  | place ha hl =>
    obtain rfl := List.mem_singleton.mp (hw.first ha)
    have hn := next?_of_agenda ha
    obtain ⟨rs, hplace⟩ := placeAt_eq (m.mapEnv fun e => { e with agenda := _ }) _ _ _
    rw [step_eq_perform hn, perform, hplace, resolve?_next hn, hl]
    exact holds_store rs (hm.resolves _ _ hl)
  | move ha hl hf =>
    obtain rfl := hfound (find_ok hf) hw
    refine holds_upcoming_exec ha (by simp only [plan, planMove, hl, hf]; rfl) fun h => ?_
    exact ⟨_, rfl, List.mem_singleton_self _⟩
  | cloned ha hf =>
    obtain rfl := hfound (find_ok hf) hw
    refine holds_upcoming_exec ha (by simp only [plan, planClone, hf]; rfl) fun h => ?_
    exact ⟨_, rfl, List.mem_singleton_self _⟩
  | clone ha hf =>
    obtain rfl := hfound (find_ok hf) hw
    refine holds_upcoming_exec ha (by simp only [plan, planClone, hf]; rfl) fun h => ?_
    exact ⟨_, rfl, List.mem_singleton_self _⟩
  | assigned ha hf hk =>
    obtain rfl := hfound (findTwo_ok hf).second hw
    refine holds_upcoming_exec ha (plan_cloneFrom_weak hf hk) fun h => ?_
    simp only [Effect.assignWeak, Effect.settling, Effect.closing, Weak.assign]
    split <;> exact ⟨_, rfl, List.mem_singleton_self _⟩
  | @assign _ _ _ _ v _ u ha hf hk =>
    obtain rfl := hfound (findTwo_ok hf).second hw
    refine holds_upcoming_exec ha (plan_cloneFrom_weak hf hk) fun h => ?_
    have hcopy : { v with block := u.block, view := u.view } = u := by simp only [hk]
    simp only [Effect.assignWeak, Effect.settling, Effect.closing, Weak.assign]
    split
    · next hb =>
      refine ⟨_, rfl, ?_⟩
      rw [← hb] at hcopy
      exact hcopy ▸ List.mem_singleton_self _
    · exact ⟨_, rfl, hcopy ▸ List.mem_singleton_self _⟩
  | swapLeft ha hf hk =>
    obtain rfl := hfound (findTwo_ok hf).first hw
    refine holds_upcoming_exec ha (plan_swap_weak hf hk) fun h => ?_
    exact ⟨_, rfl, List.mem_singleton_self _⟩
  | swapRight ha hf hk =>
    obtain rfl := hfound (findTwo_ok hf).second hw
    refine holds_upcoming_exec ha (plan_swap_weak hf hk) fun h => ?_
    exact ⟨_, rfl, List.mem_singleton_self _⟩
  | locked ha he hf =>
    obtain rfl := hfound (find_ok hf) hw
    obtain rfl | rfl := he
    · refine holds_upcoming_exec ha (plan_lock hf) fun h => ?_
      exact ⟨_, by rw [call_lock]; rfl, List.mem_singleton_self _⟩
    · refine holds_upcoming_exec ha (plan_tryLock hf) fun h => ?_
      exact ⟨_, by rw [call_lock]; rfl, List.mem_singleton_self _⟩

theorem Holds.mem_pointers (hx : m.Holds x s) : x ∈ m.pointers := by
  cases s with
  | stored loc => exact mem_pointers_of_get? hx
  | pending later =>
    obtain ⟨a, ha, hx⟩ := hx
    have ha : a ∈ m.env.agenda := List.mem_reverse.mp (List.mem_of_getElem? ha)
    exact List.mem_append_right _ (List.mem_flatMap_of_mem ha hx)

/-- Budgets are no matter of pointers. -/
theorem holds_ration (limits : Alloc → Option Nat) : (m.ration limits).Holds x s ↔ m.Holds x s := by
  cases s <;> rfl

/-- What is at the site at moment `n` of the run came of a downgrade of `p`, and was copied and
moved since. Whatever else happened in between is left open. -/
inductive Descends (run : Nat → Machine) (p : Strong) : Nat → Site → Prop
  | downgrade {n limits src dst loc rest} : run (n + 1) = ((run n).ration limits).step →
      (run n).env.agenda = .exec (.downgrade src dst) :: rest →
      (run n).find src = .ok (loc, .strong p) →
      Descends run p (n + 1) ((run (n + 1)).upcoming 1)
  | passes {n limits s t} : Descends run p n s → run (n + 1) = ((run n).ration limits).step →
      ((run n).ration limits).Passes s t → Descends run p (n + 1) t

/-- It has the owner and the view that `p` had. -/
theorem Descends.holds {run : Nat → Machine} {p : Strong} {n : Nat} (hr : IsRationed run)
    (hd : Descends run p n s) : (run n).Holds (.weak p.observer) s := by
  induction hd with
  | @downgrade n limits src dst loc rest hnext ha hf =>
    have hf : ((run n).ration limits).find src = .ok (loc, .strong p) := hf
    have ha : ((run n).ration limits).env.agenda = .exec (.downgrade src dst) :: rest := ha
    rw [hnext]
    refine holds_upcoming_exec ha (plan_downgrade hf) fun h => ?_
    exact ⟨_, rfl, List.mem_singleton_self _⟩
  | @passes n limits s t hd hnext hp ih =>
    rw [hnext]
    exact hp.holds ((hr.grounded n).ration limits) ((holds_ration limits).mpr ih)

theorem Descends.moment {steps : List Step} {watch : Bool} {p : Strong} {n : Nat}
    (hd : Descends (moment steps watch) p n s) (hp : (moment steps watch n).Passes s t) :
    Descends (moment steps watch) p (n + 1) t :=
  .passes hd (moment_succ_eq_ration steps watch n) hp

end Machine

end Custody
