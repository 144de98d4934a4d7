import Custody.Proofs.Logging

/-!
# What the metrics count

* `Machine.resets`, `Machine.copies`, `Machine.attempts?`: what the next action is to the metrics.
* `Machine.step_logs`: what a step logs, and what the metrics are after it.
-/

namespace Custody

/-! ## Steps of programs -/

/-- The metrics are set to zero. -/
def Step.resets : Step → Bool
  | .resetMetrics => true
  | _ => false

/-- The value is copied to where it goes before there is a pointer to it. -/
def Step.copies : Step → Bool
  | .unique kind _ _ _ => Effect.isCopied kind
  | _ => false

theorem Step.eq_of_resets {s : Step} (h : s.resets = true) : s = .resetMetrics := by
  unfold resets at h
  split at h
  · rfl
  · cases h

theorem Step.eq_of_copies {s : Step} (h : s.copies = true) :
    ∃ kind value a dst, s = .unique kind value a dst ∧ Effect.isCopied kind = true := by
  unfold copies at h
  split at h
  · exact ⟨_, _, _, _, rfl, h⟩
  · cases h

namespace Machine

variable {m : Machine} {s : Step} {e : Effect} {w : Weak} {h : Heap}

/-- Only steps that try to lock do lock. -/
theorem Planned.tells (hp : m.Planned s e) (hr : s.resets = false) (hc : s.copies = false)
    (ha : m.attempted? s = none) (h : Heap) : h.Tells (e.call h).1 := by
  cases hp with
  | lock _ hw | mapWeak _ _ hw => simp [hw] at ha
  | resetMetrics => cases hr
  | answer | store | adoptUnique | move | drop | takeStrong | swap | reset | map | tryMap |
      remember | loop =>
    exact .refl h
  | setBudget => exact .silent rfl rfl
  | write => exact (Heap.logs_write _ _).tells nofun
  | cloneStrong | aliasLike => exact Strong.tells_acquire _ h
  | cloneWeak | downgrade => exact Weak.tells_acquire _ h
  | assignStrong => exact Strong.tells_assign _ _ h
  | assignWeak => exact Weak.tells_assign _ _ h
  | @release s loc u dst keep hu => rcases u with ⟨k, a, _ | o⟩ <;> exact .refl h
  | @cast s loc p kind view dst =>
    cases view with
    | none => exact .refl h
    | some view => exact Strong.tells_acquire _ h
  | promote | share =>
    simp only [Effect.promote, Effect.share, Effect.settling, Effect.closing]
    split <;> exact Unique.tells_promote ‹_›
  | @adopt s loc r dst | @resetRaw s loc p rawLoc r =>
    rcases hq : Strong.adopt r h with ⟨h', _ | q, us⟩ <;>
      simpa [Effect.adopt, Effect.resetRaw, Effect.replace, Effect.settling, Effect.closing, hq]
        using Strong.tells_adopt hq
  | @construct kind value p a dst =>
    rcases hq : Strong.construct kind p a h with ⟨h', _ | q, us⟩ <;>
      simpa [Effect.construct, Effect.settling, Effect.closing, hq] using Strong.tells_construct hq
  | @resetWith target value loc p v =>
    rcases hq : Strong.construct p.kind v .global h with ⟨h', _ | q, us⟩ <;>
      simpa [Effect.resetWith, Effect.replace, Effect.settling, Effect.closing, hq]
        using Strong.tells_construct hq
  | @constructUnique kind value p a dst =>
    have hcopied : Effect.isCopied kind = false := hc
    rcases hq : Unique.construct kind p a h with ⟨h', u, _ | l⟩ <;>
      simpa [Effect.constructUnique, Effect.settling, Effect.closing, hcopied, hq]
        using Unique.tells_construct hq
  | @constructRaw kind value p dst =>
    rcases hq : Unique.construct kind p .global h with ⟨h', u, _ | l⟩ <;>
      simpa [Effect.constructRaw, Effect.settling, Effect.closing, hq]
        using Unique.tells_construct hq

/-- A step that tries to lock a weak pointer is carried out, and tells of it. -/
theorem plan_of_attempted? (ha : m.attempted? s = some w) :
    ∃ e, m.plan s = .ok e ∧ ∀ h, h.Logs (e.call h).1 (w.outcome h) ∧
      ∀ b, (e.call h).1.strongCount b = (w.lock? h).1.strongCount b := by
  have hlock (loc : Location) (dst : Path) (fail : Bool) (h : Heap) :
      ((Effect.lock loc w dst fail).call h).1 = (w.lock? h).1 := by
    rcases hq : w.lock? h with ⟨h', _ | q⟩ <;> cases fail <;>
      simp [Effect.lock, Effect.settling, Effect.closing, hq]
  unfold attempted? at ha
  split at ha
  case h_1 src dst | h_2 src dst =>
    split at ha
    · next loc w' hw =>
      cases ha
      refine ⟨_, by simp only [plan, hw]; rfl, fun h => ?_⟩
      rw [hlock]
      exact ⟨w.logs_lock? h, fun _ => rfl⟩
    · cases ha
  case h_3 src part dst during listed =>
    split at ha
    · next loc w' hw =>
      obtain ⟨hsome, ha⟩ := Option.ite_none_right_eq_some.mp ha
      cases ha
      obtain ⟨target, htarget⟩ := Option.isSome_iff_exists.mp hsome
      obtain ⟨sel, rfl, hsel⟩ := Option.bind_eq_some_iff.mp htarget
      have hplan : m.plan (.map src (some sel) dst during listed) =
          .ok (.mapWeak ⟨loc, sel, target, dst, listed⟩ w during) := by
        have hkind : sel.target? (Slot.weak w).kind = some target := hsel
        simp only [plan, planMap, hw, bind, Except.bind, Option.bind, hkind]
        rfl
      refine ⟨_, hplan, fun h => ?_⟩
      have hlogs := w.logs_lock? h
      rcases hq : w.lock? h with ⟨h', _ | q⟩ <;> rw [hq] at hlogs
      · -- the weak pointer to nothing that is made counts on the block
        have hclone := hlogs.trans (Weak.logs_acquire w.block h')
        rw [List.append_nil] at hclone
        simp only [Effect.mapWeak, hq, Weak.clone]
        exact ⟨hclone, Weak.strongCount_acquire w.block h'⟩
      · simp only [Effect.mapWeak, hq]
        exact ⟨hlogs, fun _ => trivial⟩
    · cases ha
  case h_4 => cases ha

/-- Of a copy that is refused the metrics do not know. -/
theorem log_constructUnique_of_copied {kind : Kind} (hc : Effect.isCopied kind = true)
    (p : Pointee) (a : Alloc) (dst : Path) (h : Heap) :
    ((Effect.constructUnique kind p a dst).call h).1.metrics = h.metrics ∧
      ∃ es, ((Effect.constructUnique kind p a dst).call h).1.log.toList = h.log.toList ++ es ∧
        (∀ e ∈ es, e.isAttempt = false) ∧
        (es.filter (!·.isRefusal)).foldl .note h.metrics = h.metrics := by
  rcases hq : h.construct p a with ⟨h', o, r⟩
  have hheap : ((Effect.constructUnique kind p a dst).call h).1 = h' := by
    cases r <;> simp [Effect.constructUnique, Effect.settling, Effect.closing, hc, hq]
  rw [hheap]
  obtain ⟨hmetrics, es, hlog, ⟨-, rfl⟩ | ⟨-, n, rfl⟩ | ⟨-, rfl⟩⟩ := Heap.log_construct hq
  all_goals
    exact ⟨hmetrics, _, hlog, by simp [Event.isAttempt], by simp [Event.isRefusal, Metrics.note]⟩

/-! ## All actions -/

theorem tells_withTable (t : TableId) (new : Table) : m.heap.Tells (m.withTable t new).heap := by
  cases t with
  | root => exact .refl _
  | links o => exact .silent rfl rfl

theorem tells_store (m : Machine) (loc : Location) (x : Slot) :
    m.heap.Tells (m.store loc x).heap := tells_withTable _ _

theorem tells_startDestructor (m : Machine) (o : ObjectId) :
    m.heap.Tells (m.startDestructor o).heap := by
  obtain ⟨h, env⟩ := m
  have hbegin := Heap.tells_beginDestruction (h := h) o
  simp only [startDestructor, onHeap]
  split
  · exact hbegin.trans (Heap.tells_remark (.drop _))
  · exact hbegin

/-- A drop locks nothing. -/
theorem tells_dropSlot (m : Machine) (x : Slot) : m.heap.Tells (m.dropSlot x).heap := by
  obtain ⟨h, env⟩ := m
  rcases x with ⟨k, _ | b, v⟩ | ⟨k, _ | b, v⟩ | ⟨k, a, _ | o⟩ | r
  case strong.some =>
    by_cases last : h.strongCount b = 1
    · have htake := (Heap.tells_releaseStrong (h := h) b).trans (Heap.tells_takePointee b)
      simp only [dropSlot, releaseOwner_last last]
      cases h.blocks[b]?.bind (·.pointee) with
      | none => exact htake
      | some o =>
        have hstart := tells_startDestructor
          (schedule [.giveUpImplicit b] ⟨((h.releaseStrong b).1.takePointee b).1, env⟩) o
        rw [heap_schedule] at hstart
        exact htake.trans hstart
    · simp only [dropSlot, releaseOwner_others last]
      exact Heap.tells_releaseStrong b
  case weak.some => exact Heap.tells_releaseWeak b
  case unique.some => exact tells_startDestructor ⟨h, env⟩ o
  all_goals exact .refl h

/-- Only a step sets the metrics to zero, asks for memory or locks a weak pointer. -/
theorem perform_tells {a : Action} (ha : ∀ s, a ≠ .exec s) : m.heap.Tells (m.perform a).heap := by
  have hempty (t : TableId) (b : Action) : m.heap.Tells (m.emptyOut t b).heap := by
    unfold emptyOut
    split
    · exact tells_withTable _ _
    · exact .refl _
  have hclosing {ts : List TableId} {call : Heap → Heap × Settlement}
      (hc : m.heap.Tells (call m.heap).1) : m.heap.Tells (m.carryOut (.closing ts call)).heap := hc
  cases a with
  | exec s => exact absurd rfl (ha s)
  | drop x => exact tells_dropSlot m x
  | did node => exact Heap.tells_remark (.did node _)
  | unlink o => exact hempty _ _
  | clear => exact hempty _ _
  | reclaim o => exact Heap.tells_endDestruction o
  | giveUpImplicit b => exact Heap.tells_giveUpImplicit b
  | putBack loc x counted =>
    obtain ⟨rs, h⟩ := perform_putBack m loc x counted
    rw [h]
    exact tells_store (m.mapEnv fun e => { e with replies := rs }) loc x
  | place x dst form =>
    obtain ⟨rs, h⟩ := placeAt_eq m x dst form
    rw [perform, h]
    split
    · exact tells_store (m.mapEnv fun e => { e with replies := rs }) _ x
    · exact .refl _
  | letGo t =>
    simp only [perform, letGoOf]
    split
    · exact tells_withTable _ _
    · exact .refl _
  | project j source total =>
    refine hclosing ?_
    dsimp only
    cases total || (if total then j.view m.heap source else j.part? m.heap source).isSome with
    | false => exact .refl _
    | true => exact Strong.tells_acquire source.block m.heap
  | projectWeak j source locked =>
    exact hclosing ((Strong.tells_acquire _ _).trans (Weak.tells_acquire _ _))
  | leave | answer | gather | forget | round | record | remember => exact .refl _

/-- The step that the next action executes. -/
def executes? (m : Machine) : Option Step :=
  match m.env.agenda with
  | .exec s :: _ => some s
  | _ => none

/-- The next action sets the metrics to zero. -/
def resets (m : Machine) : Bool := m.executes?.any (·.resets)

/-- The next action copies a value, and asks for memory itself. -/
def copies (m : Machine) : Bool := m.executes?.any (·.copies)

/-- The block of the weak pointer that the next action tries to lock. -/
def attempts? (m : Machine) : Option BlockId := (m.executes?.bind m.attempted?).bind (·.block)

/-- What is told of the attempt to lock that the next action is. -/
def outcome (m : Machine) : List Event :=
  ((m.executes?.bind m.attempted?).map (·.outcome m.heap)).getD []

/-- What the metrics count of the events. -/
def heard (m : Machine) (es : List Event) : List Event :=
  if m.copies then es.filter (!·.isRefusal) else es

/-- What happens between the two heaps, if `m` makes one of the other. -/
structure LogsStep (m : Machine) (h : Heap) (es : List Event) : Prop where
  log : h.log.toList = m.heap.log.toList ++ es
  metrics : h.metrics = if m.resets then .zero else (m.heard es).foldl .note m.heap.metrics
  attempts : es.filter (·.isAttempt) = m.outcome
  strongs : ∀ b, m.attempts? = some b →
    h.strongCount b = m.heap.strongCount b + if m.heap.strongCount b = 0 then 0 else 1

theorem filter_isAttempt_eq_nil {es : List Event} (hes : ∀ e ∈ es, e.isAttempt = false) :
    es.filter (·.isAttempt) = [] :=
  List.filter_eq_nil_iff.mpr fun e he => by simp [hes e he]

theorem LogsStep.of_tells {h : Heap} (ht : m.heap.Tells h) (hr : m.resets = false)
    (hc : m.copies = false) (ha : m.executes?.bind m.attempted? = none) :
    ∃ es, m.LogsStep h es := by
  obtain ⟨es, hes, hl⟩ := ht
  refine ⟨es, hl.log, ?_, ?_, fun b hb => ?_⟩
  · simpa only [hr, heard, hc, Bool.false_eq_true, ↓reduceIte] using hl.metrics
  · rw [filter_isAttempt_eq_nil hes, outcome, ha]
    rfl
  · rw [attempts?, ha] at hb
    cases hb

theorem LogsStep.of_silent {h : Heap} (hl : h.log = m.heap.log) (hm : h.metrics = m.heap.metrics)
    (hr : m.resets = false) (ha : m.executes?.bind m.attempted? = none) : m.LogsStep h [] where
  log := by rw [hl, List.append_nil]
  metrics := by simp [hr, heard, hm]
  attempts := by
    rw [outcome, ha]
    rfl
  strongs b hb := by
    rw [attempts?, ha] at hb
    cases hb

section Exec

variable {n : Machine}

theorem executes?_of_exec (hn : m.next? = some (.exec s, n)) : m.executes? = some s := by
  obtain ⟨-, -, hagenda, -⟩ := next?_eq_some hn
  simp only [executes?, hagenda]

theorem executes?_of_not_exec {a : Action} (hn : m.next? = some (a, n)) (ha : ∀ s, a ≠ .exec s) :
    m.executes? = none := by
  obtain ⟨-, -, hagenda, -⟩ := next?_eq_some hn
  unfold executes?
  split
  · next s rest hs =>
    rw [hagenda] at hs
    cases hs
    exact absurd rfl (ha s)
  · rfl

/-- What is found does not depend on what is left to do. -/
theorem attempted?_next {a : Action} (hn : m.next? = some (a, n)) :
    n.attempted? = m.attempted? := by
  obtain ⟨h, env⟩ := m
  unfold next? at hn
  split at hn <;> cases hn
  funext s
  cases s <;> rfl

@[simp] theorem blocks_withTable (t : TableId) (new : Table) :
    (m.withTable t new).heap.blocks = m.heap.blocks := by
  cases t <;> rfl

@[simp] theorem blocks_takeOut (locs : List Location) :
    (m.takeOut locs).heap.blocks = m.heap.blocks := by
  induction locs generalizing m with
  | nil => rfl
  | cons loc locs ih => rw [takeOut_cons, ih, erase, blocks_withTable]

theorem logs_takeOut (locs : List Location) : m.heap.Logs (m.takeOut locs).heap [] := by
  induction locs generalizing m with
  | nil => exact .silent rfl rfl
  | cons loc locs ih =>
    have herase : m.heap.Logs (m.erase loc).heap [] := by
      rw [erase]
      cases loc.table <;> exact .silent rfl rfl
    exact herase.trans ih

theorem heap_perform_exec (hp : n.plan s = .ok e) :
    (n.perform (.exec s)).heap = (e.call (n.takeOut e.taken).heap).1 := by
  simp only [perform, hp]
  rfl

/-- A step that tries to lock logs what comes of it. -/
theorem exec_logs_of_attempted? (hn : m.next? = some (.exec s, n)) (ha : m.attempted? s = some w) :
    m.LogsStep (n.perform (.exec s)).heap (w.outcome m.heap) := by
  obtain ⟨hheap, -, -, -⟩ := next?_eq_some hn
  obtain ⟨e, hplan, he⟩ := plan_of_attempted? (m := n) (attempted?_next hn ▸ ha)
  have hs := executes?_of_exec hn
  have hblocks : (n.takeOut e.taken).heap.blocks = m.heap.blocks := by rw [blocks_takeOut, hheap]
  have hcount (b : BlockId) : (n.takeOut e.taken).heap.strongCount b = m.heap.strongCount b := by
    rw [Heap.strongCount, hblocks, Heap.strongCount]
  have hneither : s.resets = false ∧ s.copies = false := by
    unfold attempted? at ha
    split at ha <;> first | exact ⟨rfl, rfl⟩ | cases ha
  obtain ⟨hlogs, hstrong⟩ := he (n.takeOut e.taken).heap
  rw [w.outcome_congr hblocks] at hlogs
  have hall := (logs_takeOut e.taken).trans hlogs
  rw [← heap_perform_exec hplan, List.nil_append, hheap] at hall
  refine ⟨hall.log, ?_, ?_, fun b hb => ?_⟩
  · simpa [resets, heard, copies, hs, hneither] using hall.metrics
  · simp [outcome, hs, ha, Weak.filter_outcome]
  · have hb : w.block = some b := by simpa [attempts?, hs, ha] using hb
    rw [heap_perform_exec hplan, hstrong, Weak.strongCount_lock? hb, hcount]

/-- Nothing is told of a reset. -/
theorem exec_logs_of_resets (hn : m.next? = some (.exec s, n)) (hr : s.resets = true) :
    m.LogsStep (n.perform (.exec s)).heap [] := by
  obtain ⟨hheap, -, -, -⟩ := next?_eq_some hn
  obtain rfl := Step.eq_of_resets hr
  have hs := executes?_of_exec hn
  refine ⟨?_, ?_, ?_, ?_⟩
  · rw [List.append_nil, ← hheap]
    rfl
  · simp only [resets, hs, Option.any_some, hr, ↓reduceIte]
    rfl
  · simp [outcome, hs, attempted?]
  · simp [attempts?, hs, attempted?]

/-- A copy that is refused is told of, and not counted. -/
theorem exec_logs_of_copies (hn : m.next? = some (.exec s, n)) (hplan : n.plan s = .ok e)
    (hc : s.copies = true) : ∃ es, m.LogsStep (n.perform (.exec s)).heap es := by
  obtain ⟨hheap, -, -, -⟩ := next?_eq_some hn
  have hs := executes?_of_exec hn
  have hperform := heap_perform_exec hplan
  obtain ⟨kind, value, a, dst, rfl, hkind⟩ := Step.eq_of_copies hc
  simp only [plan, bind_eq_ok] at hplan
  obtain ⟨p, -, hplan⟩ := hplan
  cases hplan
  obtain ⟨hmetrics, es, hlog, hes, hheard⟩ :=
    log_constructUnique_of_copied hkind p a dst n.heap
  have hperform : (n.perform (.exec (.unique kind value a dst))).heap =
      ((Effect.constructUnique kind p a dst).call n.heap).1 := hperform
  rw [hheap] at hperform hlog hmetrics hheard
  refine ⟨es, ?_, ?_, ?_, ?_⟩
  · rw [hperform, hlog]
  · simp only [hperform, hmetrics, resets, copies, heard, hs, Option.any_some, Step.resets, hc,
      Bool.false_eq_true, ↓reduceIte, hheard]
  · simp [filter_isAttempt_eq_nil hes, outcome, hs, attempted?]
  · simp [attempts?, hs, attempted?]

/-- What a step of a program logs, in all cases. -/
theorem exec_logs (hn : m.next? = some (.exec s, n)) :
    ∃ es, m.LogsStep (n.perform (.exec s)).heap es := by
  obtain ⟨hheap, -, -, -⟩ := next?_eq_some hn
  have hs := executes?_of_exec hn
  cases hr : s.resets with
  | true => exact ⟨[], exec_logs_of_resets hn hr⟩
  | false =>
    cases ha : m.attempted? s with
    | some w => exact ⟨_, exec_logs_of_attempted? hn ha⟩
    | none =>
      have hresets : m.resets = false := by simp [resets, hs, hr]
      have hnone : m.executes?.bind m.attempted? = none := by simp [hs, ha]
      cases hplan : n.plan s with
      | error f =>
        have hsame : (n.perform (.exec s)).heap = m.heap := by
          simp only [perform, hplan]
          exact hheap
        rw [hsame]
        exact ⟨[], .of_silent rfl rfl hresets hnone⟩
      | ok e =>
        cases hc : s.copies with
        | true => exact exec_logs_of_copies hn hplan hc
        | false =>
          have hplanned := (plan_planned hplan).tells hr hc (attempted?_next hn ▸ ha)
          rw [heap_perform_exec hplan]
          refine LogsStep.of_tells ?_ hresets (by simp [copies, hs, hc]) hnone
          exact hheap ▸ ((logs_takeOut e.taken).tells fun _ h => by cases h).trans (hplanned _)

end Exec

/-- What a step logs. -/
theorem step_logs (m : Machine) : ∃ es, m.LogsStep m.step.heap es := by
  cases hn : m.next? with
  | none =>
    have hagenda : m.executes? = none := by
      unfold next? at hn
      unfold executes?
      split <;> simp_all
    rw [step_eq_self hn]
    exact ⟨[], .of_silent rfl rfl (by simp [resets, hagenda]) (by simp [hagenda])⟩
  | some an =>
    obtain ⟨a, n⟩ := an
    obtain ⟨hheap, -, -, -⟩ := next?_eq_some hn
    rw [step_eq_perform hn]
    by_cases ha : ∃ s, a = .exec s
    · obtain ⟨s, rfl⟩ := ha
      exact exec_logs hn
    · have hnone := executes?_of_not_exec hn fun s hs => ha ⟨s, hs⟩
      exact LogsStep.of_tells (hheap ▸ perform_tells fun s hs => ha ⟨s, hs⟩)
        (by simp [resets, hnone]) (by simp [copies, hnone]) (by simp [hnone])

end Machine

end Custody
