import Custody.Proofs.Metering

/-!
# The metrics and the heap

* `Recorded`: as many blocks have been created, disposed of and freed as the log says.
* `Machine.said`, `Machine.noted`: what a step of a run logs, and what the metrics count of it.
* `Machine.promotes`, `Machine.refuses`: the steps of a run that lock a weak pointer, and those that
  find it expired.
* `Machine.Metered`, `Machine.IsRationed.metered`: the metrics agree with the heap.
-/

namespace Custody

variable {Y : Option Place}

/-! ## What is logged of blocks -/

/-- The event begins or ends a stage of a block's life. -/
def Event.isMilestone : Event → Bool
  | .blockCreated _ _ | .pointeeDisposed _ | .blockFreed _ => true
  | _ => false

theorem Event.counter?_ne {e : Event} {c : Counter} (he : e.isMilestone = false)
    (hc : c = .allocated ∨ c = .disposed ∨ c = .freed) : e.counter? ≠ some c := by
  rcases hc with rfl | rfl | rfl <;> cases e <;> simp_all [isMilestone, counter?]

namespace Heap

variable {h h' : Heap} {b : BlockId} {es : List Event}

/-- How many events of the counter have been logged. -/
def logged (h : Heap) (c : Counter) : Nat := h.log.toList.countP fun e => e.counter? = some c

/-- The blocks without strong owners, also those that are freed. -/
def disposedBlocks (h : Heap) : Nat := h.blocks.toList.countP (·.strong == 0)

/-- How many blocks have been freed. -/
def freedBlocks (h : Heap) : Nat := h.blocks.toList.countP (·.freed)

theorem logged_append (hl : h'.log.toList = h.log.toList ++ es) (c : Counter) :
    h'.logged c = h.logged c + es.countP fun e => e.counter? = some c := by
  rw [logged, hl, List.countP_append, logged]

/-- The log says as much of blocks as there is to be said. -/
structure Recorded (h : Heap) : Prop where
  allocated : h.logged .allocated = h.blocks.size
  disposed : h.logged .disposed = h.disposedBlocks
  freed : h.logged .freed = h.freedBlocks

/-- The blocks are as many, and nothing is said of them. -/
theorem Recorded.next (hs : h.Recorded) (hl : h'.log.toList = h.log.toList ++ es)
    (hes : ∀ e ∈ es, e.isMilestone = false) (hb : h'.blocks.size = h.blocks.size)
    (hd : h'.disposedBlocks = h.disposedBlocks) (hf : h'.freedBlocks = h.freedBlocks) :
    h'.Recorded := by
  have hnone {c : Counter} (hc : c = .allocated ∨ c = .disposed ∨ c = .freed) :
      h'.logged c = h.logged c := by
    rw [logged_append hl, List.countP_eq_zero.mpr fun e he => ?_, Nat.add_zero]
    simpa using Event.counter?_ne (hes e he) hc
  exact ⟨by rw [hnone (.inl rfl), hb, hs.allocated],
    by rw [hnone (.inr (.inl rfl)), hd, hs.disposed],
    by rw [hnone (.inr (.inr rfl)), hf, hs.freed]⟩

theorem Recorded.of_blocks (hs : h.Recorded) (hl : h'.log.toList = h.log.toList ++ es)
    (hes : ∀ e ∈ es, e.isMilestone = false) (hb : h'.blocks = h.blocks) : h'.Recorded :=
  hs.next hl hes (by rw [hb]) (by rw [disposedBlocks, hb, disposedBlocks])
    (by rw [freedBlocks, hb, freedBlocks])

theorem countP_modify {α : Type} {xs : Array α} {i : Nat} {f : α → α} {p : α → Bool}
    (hf : ∀ x, xs[i]? = some x → p (f x) = p x) :
    (xs.modify i f).toList.countP p = xs.toList.countP p := by
  cases hx : xs[i]? with
  | none => rw [Array.modify_eq_self f hx]
  | some x =>
    obtain ⟨l, r, hl, hr, -⟩ := Array.toList_modify_split f hx
    rw [hl, hr]
    simp [List.countP_cons, hf x hx]

/-- References are added to a block. -/
theorem Recorded.modify {f : Block → Block} (hs : h.Recorded)
    (hl : h'.log.toList = h.log.toList ++ es) (hes : ∀ e ∈ es, e.isMilestone = false)
    (hb : h'.blocks = h.blocks.modify b f)
    (hstrong : ∀ x, h.blocks[b]? = some x → ((f x).strong = 0 ↔ x.strong = 0))
    (hfreed : ∀ x, (f x).freed = x.freed) : h'.Recorded := by
  refine hs.next hl hes (by rw [hb, Array.size_modify]) ?_ ?_
  · rw [disposedBlocks, hb, disposedBlocks]
    exact countP_modify fun x hx => Bool.eq_iff_iff.mpr (by simpa using hstrong x hx)
  · rw [freedBlocks, hb, freedBlocks]
    exact countP_modify fun x _ => hfreed x

/-! ### What is told -/

theorem countP_sum {α β : Type} {f : α → Multiset β} {p : β → Prop} [DecidablePred p]
    {q : α → Bool} (hf : ∀ x, (f x).countP p = if q x then 1 else 0) (l : List α) :
    (l.map f).sum.countP p = l.countP q := by
  induction l with
  | nil => rfl
  | cons x l ih =>
    rw [List.map_cons, List.sum_cons, Multiset.countP_add, ih, hf, List.countP_cons, Nat.add_comm]

/-- Nothing is counted of what is told of objects. -/
theorem counter?_of_mem_farewell {c : Content} {e : Event} (he : e ∈ c.farewell) :
    e.counter? = none := by
  cases c <;> simp only [Content.farewell, List.not_mem_nil, List.mem_singleton] at he
  rw [he]
  rfl

theorem counter?_of_mem_told {x : Object} {e : Event} (he : e ∈ x.told) : e.counter? = none := by
  rcases Multiset.mem_add.mp he with he | he
  · split at he
    · cases Multiset.notMem_zero e he
    · exact counter?_of_mem_farewell he
  · split at he
    · rw [Multiset.mem_singleton.mp he]
      rfl
    · cases Multiset.notMem_zero e he

/-- What is counted of all that is told is the ends of blocks. -/
theorem countP_told (h : Heap) (c : Counter) :
    h.told.countP (fun e => e.counter? = some c) =
      match c with
      | .disposed => h.disposedBlocks
      | .freed => h.freedBlocks
      | _ => 0 := by
  have hobjects :
      (h.objects.toList.map Object.told).sum.countP (fun e => e.counter? = some c) = 0 :=
    (countP_sum (q := fun _ => false) (fun x => Multiset.countP_eq_zero.mpr fun e he => by
      simp [counter?_of_mem_told he]) _).trans (by simp)
  have hone (e : Event) : Multiset.countP (fun e => e.counter? = some c) {e} =
      if e.counter? = some c then 1 else 0 := by
    rw [← Multiset.cons_zero, Multiset.countP_cons, Multiset.countP_zero, Nat.zero_add]
  have hblock (x : Block) : x.told.countP (fun e => e.counter? = some c) =
      (if x.strong = 0 ∧ c = .disposed then 1 else 0) + if x.freed ∧ c = .freed then 1 else 0 := by
    by_cases hs : x.strong = 0 <;> by_cases hf : x.freed <;>
      simp only [Block.told, hs, hf, ↓reduceIte, Multiset.countP_add, hone,
        Multiset.countP_zero] <;>
      cases c <;> simp [Event.counter?]
  rw [told, Multiset.countP_add, hobjects, Nat.add_zero]
  cases c
  case disposed => exact countP_sum (fun x => (hblock x).trans (by simp)) _
  case freed => exact countP_sum (fun x => (hblock x).trans (by simp)) _
  all_goals
    exact (countP_sum (q := fun _ => false) (fun x => (hblock x).trans (by simp)) _).trans (by simp)

end Heap

/-! ## Changes and losses -/

section

variable {h : Heap} {K : Multiset Stake} {k : Stake}

/-- A change counts the blocks that it makes. -/
theorem Change.recorded {s t : Scene} (hc : Change Y s t) (hsound : Sound s)
    (hs : s.1.Recorded) : t.1.Recorded := by
  have hconstruct {h h' g : Heap} {p : Pointee} {a : Alloc} {o : ObjectId} {r : Option Layout}
      (hs : h.Recorded) (hc : h.construct p a = (h', o, r)) (hl : g.log = h'.log)
      (hb : g.blocks = h'.blocks) : g.Recorded := by
    obtain ⟨-, es, hlog, hes⟩ := Heap.log_construct hc
    obtain ⟨-, hblocks, -⟩ := Heap.construct_eq hc
    refine hs.of_blocks (hl ▸ hlog) ?_ (hb.trans hblocks)
    rcases hes with ⟨-, rfl⟩ | ⟨-, n, rfl⟩ | ⟨-, rfl⟩ <;> simp [Event.isMilestone]
  cases hc with
  | null | copy | forget | revise | release | adopt => exact hs
  | @share h K p q b hp hb =>
    obtain ⟨x, hx, -, hpos, -⟩ := hsound.strong hp hb
    refine hs.modify (Heap.logs_addStrong b).log nofun Heap.blocks_addStrong ?_ fun _ => rfl
    intro y hy
    rw [hx] at hy
    cases hy
    exact iff_of_false (Nat.succ_ne_zero _) (Nat.ne_of_gt hpos)
  | @observe h K x w b =>
    exact hs.modify (Heap.logs_addWeak b).log nofun Heap.blocks_addWeak (fun _ _ => .rfl)
      fun _ => rfl
  | @lock h K w p b hw hb alive =>
    refine hs.modify (Heap.logs_addStrongIfAlive alive).log (by simp [Event.isMilestone])
      (Heap.blocks_addStrongIfAlive alive) (fun x hx => ?_) fun _ => rfl
    rw [Heap.strongCount_eq hx] at alive
    exact iff_of_false (Nat.succ_ne_zero _) alive
  | @refuseLock h K w b =>
    exact hs.of_blocks (Heap.logs_recordExpiredLock b).log (by simp [Event.isMilestone]) (by simp)
  | construct _ hc =>
    obtain ⟨h₁, o, hc₁, -, rfl⟩ := Unique.construct_eq hc
    exact hconstruct hs hc₁ rfl rfl
  | copyIn _ hc => exact hconstruct hs hc rfl rfl
  | @promote h K k a o h' b hc =>
    obtain ⟨n, -, hlogs⟩ := Heap.logs_createBlock_ok hc
    obtain ⟨-, -, serial, -, hblocks, -⟩ := Heap.createBlock_ok hc
    refine ⟨?_, ?_, ?_⟩
    · simp [Heap.logged_append hlogs.log, hs.allocated, hblocks, Event.counter?]
    · simp [Heap.logged_append hlogs.log, hs.disposed, hblocks, Event.counter?, Heap.disposedBlocks]
    · simp [Heap.logged_append hlogs.log, hs.freed, hblocks, Event.counter?, Heap.freedBlocks]
  | refuseBlock _ hc =>
    exact hs.of_blocks (Heap.logs_createBlock_error hc).log (by simp [Event.isMilestone])
      (Heap.createBlock_error hc).2.2.1
  | write => exact hs.of_blocks (Heap.logs_write _ _).log nofun (by simp)
  | setBudget | resetMetrics => exact hs.of_blocks (List.append_nil _).symm nofun rfl
  | @remark h K e he =>
    have hlog : (h.emit e).log.toList = h.log.toList ++ [e] := by simp [Heap.emit]
    refine hs.of_blocks hlog ?_ rfl
    cases he <;> simp [Event.isMilestone]

theorem Loss.size_blocks {t : Scene} (hl : Loss h K k t) : t.1.blocks.size = h.blocks.size := by
  cases hl <;> simp

/-- A loss counts the block that it frees, and the pointee that it disposes of. -/
theorem Loss.recorded {t : Scene} (hl : Loss h K k t) (hsound : Sound (h, k ::ₘ K))
    (hs : h.Recorded) : t.1.Recorded := by
  obtain ⟨es, hlog, -, htold⟩ := (hl.erodes hsound).events
  have hdue {e : Event} (he : e ∈ k.farewell h) : e.counter? = none := by
    unfold Stake.farewell at he
    split at he
    · exact Heap.counter?_of_mem_farewell he
    · cases he
  have hcount (c : Counter) : t.1.told.countP (fun e => e.counter? = some c) =
      h.told.countP (fun e => e.counter? = some c) + es.countP fun e => e.counter? = some c := by
    rw [← add_zero t.1.told, ← Multiset.coe_nil, htold, Multiset.countP_add, Multiset.coe_countP,
      List.countP_append,
      (List.countP_eq_zero (l := k.farewell h)).mpr fun e he => by simp [hdue he]]
    rfl
  have hallocated := hcount .allocated
  have hdisposed := hcount .disposed
  have hfreed := hcount .freed
  simp only [Heap.countP_told] at hallocated hdisposed hfreed
  refine ⟨?_, ?_, ?_⟩
  · rw [Heap.logged_append hlog, hs.allocated, hl.size_blocks]
    omega
  · rw [Heap.logged_append hlog, hs.disposed, hdisposed]
  · rw [Heap.logged_append hlog, hs.freed, hfreed]

theorem Shift.recorded {s t : Scene} (hc : Shift Y s t) (hsound : Sound s) (hs : s.1.Recorded) :
    t.1.Recorded := by
  cases hc with
  | change hc => exact hc.recorded hsound hs
  | relink => exact ⟨hs.allocated, hs.disposed, hs.freed⟩

end

/-! ## Runs -/

namespace Machine

section

variable {m : Machine} {run : Nat → Machine} {s n i : Nat}

theorem IsRationed.recorded (hr : IsRationed run) (n : Nat) : (run n).heap.Recorded :=
  ((hr.reachable n).sound_induction (P := fun s => s.1.Recorded) ⟨rfl, rfl, rfl⟩
    (fun _ hs => ⟨hs.allocated, hs.disposed, hs.freed⟩) (fun hsound hs hl => hl.recorded hsound hs)
    (fun hsound hs hc => hc.recorded hsound hs)).2

/-- What the step logs. -/
def said (run : Nat → Machine) (i : Nat) : List Event :=
  (run (i + 1)).heap.log.toList.drop (run i).heap.log.size

/-- What the metrics count of what the step logs. -/
def noted (run : Nat → Machine) (i : Nat) : List Event := (run i).heard (said run i)

/-- The step locks a weak pointer: its block has one strong owner more. -/
def promotes (run : Nat → Machine) (i : Nat) : Bool :=
  (run i).attempts?.any fun b =>
    (run (i + 1)).heap.strongCount b == (run i).heap.strongCount b + 1

/-- The step finds expired what it tries to lock. -/
def refuses (run : Nat → Machine) (i : Nat) : Bool :=
  (run i).attempts?.any fun b => (run i).heap.strongCount b == 0

theorem attempted?_ration (limits : Alloc → Option Nat) :
    (m.ration limits).attempted? = m.attempted? := by
  funext s
  cases s <;> rfl

theorem LogsStep.of_ration {limits : Alloc → Option Nat} {h : Heap} {es : List Event}
    (hl : (m.ration limits).LogsStep h es) : m.LogsStep h es := by
  have hexecutes : (m.ration limits).executes? = m.executes? := rfl
  have hattempts : (m.ration limits).attempts? = m.attempts? := by
    rw [attempts?, hexecutes, attempted?_ration, attempts?]
  refine ⟨hl.log, hl.metrics, ?_, fun b hb => hl.strongs b (hattempts ▸ hb)⟩
  rw [hl.attempts, outcome, hexecutes, attempted?_ration]
  rfl

theorem IsRationed.logsStep (hr : IsRationed run) (i : Nat) :
    (run i).LogsStep (run (i + 1)).heap (said run i) := by
  obtain ⟨limits, hnext⟩ := hr.next i
  obtain ⟨es, hes⟩ := step_logs ((run i).ration limits)
  have hl := hnext ▸ hes.of_ration
  have hsaid : said run i = es := by
    rw [said, hl.log, ← Array.length_toList, List.drop_left]
  exact hsaid ▸ hl

/-- The metrics have been counting since moment `s`: the run began there, or they were reset just
before. -/
structure CountsFrom (run : Nat → Machine) (s n : Nat) : Prop where
  start : s = 0 ∨ ∃ i, s = i + 1 ∧ (run i).resets = true
  le : s ≤ n
  unreset : ∀ i, s ≤ i → i < n → (run i).resets = false

/-- What the metrics count of what the steps from `s` on, before `n`, log. -/
def notedFrom (run : Nat → Machine) (s n : Nat) : List Event :=
  (List.range' s (n - s)).flatMap (noted run)

theorem flatMap_range'_succ {α : Type} (f : Nat → List α) (hsn : s ≤ n) :
    (List.range' s (n + 1 - s)).flatMap f = (List.range' s (n - s)).flatMap f ++ f n := by
  rw [Nat.succ_sub hsn, List.range'_1_concat, Nat.add_sub_cancel' hsn, List.flatMap_append,
    List.flatMap_singleton]

/-- Between resets the metrics add up what they count. -/
theorem IsRationed.metrics_eq (hr : IsRationed run) (hc : CountsFrom run s n) :
    (run n).heap.metrics = (notedFrom run s n).foldl .note .zero := by
  obtain ⟨hstart, hle, hunreset⟩ := hc
  induction n, hle using Nat.le_induction with
  | base =>
    rw [notedFrom, Nat.sub_self, List.range'_zero, List.flatMap_nil, List.foldl_nil]
    rcases hstart with rfl | ⟨i, rfl, hi⟩
    · rw [hr.heap_zero]
      rfl
    · rw [(hr.logsStep i).metrics, hi, if_pos rfl]
  | succ n hle ih =>
    rw [notedFrom, flatMap_range'_succ _ hle, List.foldl_append, (hr.logsStep n).metrics,
      hunreset n hle (Nat.lt_succ_self n), if_neg (by simp),
      ih fun i hi hin => hunreset i hi (Nat.lt_succ_of_lt hin)]
    rfl

theorem IsRationed.metrics_eq_ofCounts (hr : IsRationed run) (hc : CountsFrom run s n) :
    (run n).heap.metrics =
      .ofCounts fun c => (notedFrom run s n).countP fun e => e.counter? = some c := by
  have hzero : Metrics.zero = .ofCounts fun _ => 0 := rfl
  rw [hr.metrics_eq hc, hzero, Metrics.foldl_note_ofCounts]
  simp only [Nat.zero_add]

/-- Only refusals can go uncounted. -/
theorem countP_heard {c : Counter} (hc : c ≠ .refused) (es : List Event) :
    (m.heard es).countP (fun e => e.counter? = some c) =
      es.countP fun e => e.counter? = some c := by
  unfold heard
  split
  · rw [List.countP_filter]
    refine List.countP_congr fun e _ => ?_
    cases e <;> simp [Event.isRefusal, Event.counter?, hc.symm]
  · rfl

/-- What has been logged is what was logged before and what the steps since then log. -/
theorem IsRationed.logged_eq {c : Counter} (hr : IsRationed run) (hc : c ≠ .refused)
    (hsn : s ≤ n) : (run n).heap.logged c =
      (run s).heap.logged c + (notedFrom run s n).countP fun e => e.counter? = some c := by
  induction n, hsn using Nat.le_induction with
  | base => simp [notedFrom]
  | succ n hle ih =>
    rw [Heap.logged_append (hr.logsStep n).log, ih, notedFrom, notedFrom, flatMap_range'_succ _ hle,
      List.countP_append, noted, countP_heard hc, Nat.add_assoc]

theorem countP_flatMap {α β : Type} {f : α → List β} {p : β → Bool} {q : α → Bool}
    (hf : ∀ x, (f x).countP p = if q x then 1 else 0) (l : List α) :
    (l.flatMap f).countP p = l.countP q := by
  induction l with
  | nil => rfl
  | cons x l ih =>
    rw [List.flatMap_cons, List.countP_append, ih, hf, List.countP_cons, Nat.add_comm]

/-- An attempt to lock is told of by one event. -/
theorem outcome_eq (m : Machine) : m.outcome =
    match m.attempts? with
    | none => []
    | some b => [if m.heap.strongCount b = 0 then .lockExpired (m.heap.idOf b)
        else .lock (m.heap.idOf b)] := by
  unfold outcome attempts?
  cases m.executes?.bind m.attempted? with
  | none => rfl
  | some w => cases hb : w.block <;> simp [Weak.outcome, hb]

theorem IsRationed.countP_noted_attempts {c : Counter} (hr : IsRationed run) (i : Nat)
    (hc : c = .locked ∨ c = .expired) :
    (noted run i).countP (fun e => e.counter? = some c) =
      (run i).outcome.countP fun e => e.counter? = some c := by
  rw [noted, countP_heard (by rcases hc with rfl | rfl <;> decide), ← (hr.logsStep i).attempts,
    List.countP_filter]
  refine List.countP_congr fun e _ => ?_
  rcases hc with rfl | rfl <;> cases e <;> simp [Event.isAttempt, Event.counter?]

theorem IsRationed.countP_locked (hr : IsRationed run) (i : Nat) :
    (noted run i).countP (fun e => e.counter? = some .locked) =
      if promotes run i then 1 else 0 := by
  rw [hr.countP_noted_attempts i (.inl rfl), outcome_eq, promotes]
  have hstrongs := (hr.logsStep i).strongs
  cases hb : (run i).attempts? with
  | none => rfl
  | some b =>
    rw [Option.any_some, hstrongs b hb]
    by_cases dead : (run i).heap.strongCount b = 0 <;> simp [dead, Event.counter?]

theorem IsRationed.countP_expired (hr : IsRationed run) (i : Nat) :
    (noted run i).countP (fun e => e.counter? = some .expired) =
      if refuses run i then 1 else 0 := by
  rw [hr.countP_noted_attempts i (.inr rfl), outcome_eq, refuses]
  cases hb : (run i).attempts? with
  | none => rfl
  | some b => by_cases dead : (run i).heap.strongCount b = 0 <;> simp [dead, Event.counter?]

/-- What is true of the metrics in a run. -/
structure Metered (run : Nat → Machine) : Prop where
  /-- Each counter is the number of its events since the last reset. -/
  events : ∀ s n, CountsFrom run s n → (run n).heap.metrics =
    .ofCounts fun c => (notedFrom run s n).countP fun e => e.counter? = some c
  /-- They are events of the heap: blocks that are new, that have lost their last strong owner, and
  that are freed. -/
  allocated : ∀ s n, CountsFrom run s n →
    (run n).heap.metrics.blocksAllocated + (run s).heap.blocks.size = (run n).heap.blocks.size
  disposed : ∀ s n, CountsFrom run s n →
    (run n).heap.metrics.pointeesDisposed + (run s).heap.disposedBlocks =
      (run n).heap.disposedBlocks
  freed : ∀ s n, CountsFrom run s n →
    (run n).heap.metrics.blocksFreed + (run s).heap.freedBlocks = (run n).heap.freedBlocks
  /-- An attempt to lock adds a strong owner, or is refused on a block without any. -/
  attempts : ∀ s n, CountsFrom run s n →
    (run n).heap.metrics.lockFailures ≤ (run n).heap.metrics.lockAttempts
  promoted : ∀ s n, CountsFrom run s n →
    (run n).heap.metrics.lockAttempts - (run n).heap.metrics.lockFailures =
      (List.range' s (n - s)).countP (promotes run)
  refused : ∀ s n, CountsFrom run s n →
    (run n).heap.metrics.lockFailures = (List.range' s (n - s)).countP (refuses run)
  /-- Requests that are refused, other than for a copy. -/
  denied : ∀ s n, CountsFrom run s n →
    (run n).heap.metrics.allocFailures = (notedFrom run s n).countP (·.isRefusal)
  /-- Without resets the derived counts are those of the heap, and nothing stops at zero. -/
  live : ∀ n, CountsFrom run 0 n →
    (run n).heap.metrics.live = (run n).heap.blocks.toList.countP (!·.freed)
  expired : ∀ n, CountsFrom run 0 n → (run n).heap.metrics.expired =
    (run n).heap.blocks.toList.countP fun x => !x.freed && x.strong == 0
  ordered : ∀ n, CountsFrom run 0 n →
    (run n).heap.metrics.blocksFreed ≤ (run n).heap.metrics.pointeesDisposed ∧
      (run n).heap.metrics.pointeesDisposed ≤ (run n).heap.metrics.blocksAllocated

theorem IsRationed.strong_of_freed {x : Block} (hr : IsRationed run)
    (hx : x ∈ (run n).heap.blocks.toList) (hf : x.freed = true) : x.strong = 0 := by
  obtain ⟨b, hb⟩ := List.mem_iff_getElem?.mp hx
  have hb : (run n).heap.blocks[b]? = some x := by simpa using hb
  have hagrees := (hr.sound n).counted b x hb
  exact hagrees.strong_of_implicitWeak (hagrees.implicitWeak_of_freed hf)

/-- What is freed has been disposed of. -/
theorem IsRationed.disposedBlocks_eq (hr : IsRationed run) (n : Nat) :
    (run n).heap.disposedBlocks = (run n).heap.freedBlocks +
      (run n).heap.blocks.toList.countP fun x => !x.freed && x.strong == 0 := by
  rw [Heap.disposedBlocks, Heap.freedBlocks, List.countP_eq_countP_filter_add _ _ (·.freed),
    List.countP_filter, List.countP_filter]
  congr 1
  · refine List.countP_congr fun x hx => ?_
    have := hr.strong_of_freed hx
    simp only [Bool.and_eq_true, beq_iff_eq, and_iff_right_iff_imp]
    exact this
  · exact List.countP_congr fun x _ => by simp [and_comm]

theorem IsRationed.blocksAllocated_add (hr : IsRationed run) (hc : CountsFrom run s n) :
    (run n).heap.metrics.blocksAllocated + (run s).heap.blocks.size =
      (run n).heap.blocks.size := by
  rw [hr.metrics_eq_ofCounts hc, ← (hr.recorded n).allocated, ← (hr.recorded s).allocated,
    hr.logged_eq (by decide) hc.le, Nat.add_comm]
  rfl

theorem IsRationed.pointeesDisposed_add (hr : IsRationed run) (hc : CountsFrom run s n) :
    (run n).heap.metrics.pointeesDisposed + (run s).heap.disposedBlocks =
      (run n).heap.disposedBlocks := by
  rw [hr.metrics_eq_ofCounts hc, ← (hr.recorded n).disposed, ← (hr.recorded s).disposed,
    hr.logged_eq (by decide) hc.le, Nat.add_comm]
  rfl

theorem IsRationed.blocksFreed_add (hr : IsRationed run) (hc : CountsFrom run s n) :
    (run n).heap.metrics.blocksFreed + (run s).heap.freedBlocks = (run n).heap.freedBlocks := by
  rw [hr.metrics_eq_ofCounts hc, ← (hr.recorded n).freed, ← (hr.recorded s).freed,
    hr.logged_eq (by decide) hc.le, Nat.add_comm]
  rfl

/-- Nothing is there when the run begins. -/
theorem IsRationed.blocks_zero (hr : IsRationed run) : (run 0).heap.blocks.size = 0 ∧
    (run 0).heap.disposedBlocks = 0 ∧ (run 0).heap.freedBlocks = 0 := by
  rw [hr.heap_zero]
  exact ⟨rfl, rfl, rfl⟩

/-- Without resets, what is freed has been disposed of, and what is disposed of was allocated. -/
theorem IsRationed.counters_ordered (hr : IsRationed run) (hc : CountsFrom run 0 n) :
    (run n).heap.metrics.blocksFreed ≤ (run n).heap.metrics.pointeesDisposed ∧
      (run n).heap.metrics.pointeesDisposed ≤ (run n).heap.metrics.blocksAllocated := by
  obtain ⟨hsize, hnoneDisposed, hnoneFreed⟩ := hr.blocks_zero
  have hallocated := hr.blocksAllocated_add hc
  have hdisposed := hr.pointeesDisposed_add hc
  have hfreed := hr.blocksFreed_add hc
  have hsplit := hr.disposedBlocks_eq n
  have hle : (run n).heap.disposedBlocks ≤ (run n).heap.blocks.toList.length :=
    List.countP_le_length
  rw [Array.length_toList] at hle
  omega

/-- The metrics agree with the heap, whatever the allocators refuse. -/
theorem IsRationed.metered (hr : IsRationed run) : Metered run := by
  have hevents {s n : Nat} (hc : CountsFrom run s n) := hr.metrics_eq_ofCounts hc
  have hlocked {s n : Nat} : (notedFrom run s n).countP (fun e => e.counter? = some .locked) =
      (List.range' s (n - s)).countP (promotes run) := countP_flatMap hr.countP_locked _
  have hexpired {s n : Nat} : (notedFrom run s n).countP (fun e => e.counter? = some .expired) =
      (List.range' s (n - s)).countP (refuses run) := countP_flatMap hr.countP_expired _
  obtain ⟨hsize, hnoneDisposed, hnoneFreed⟩ := hr.blocks_zero
  refine ⟨fun _ _ => hevents, fun _ _ => hr.blocksAllocated_add, fun _ _ => hr.pointeesDisposed_add,
    fun _ _ => hr.blocksFreed_add, fun s n hc => ?_, fun s n hc => ?_, fun s n hc => ?_,
    fun s n hc => ?_, fun n hc => ?_, fun n hc => ?_, fun _ => hr.counters_ordered⟩
  · rw [hevents hc]
    exact Nat.le_add_left _ _
  · rw [hevents hc, ← hlocked]
    exact Nat.add_sub_cancel _ _
  · rw [hevents hc, ← hexpired]
    rfl
  · rw [hevents hc]
    refine List.countP_congr fun e _ => ?_
    cases e <;> simp [Event.counter?, Event.isRefusal]
  · have h₁ := hr.blocksAllocated_add hc
    have h₂ := hr.blocksFreed_add hc
    have hlength := List.length_eq_countP_add_countP (·.freed) (l := (run n).heap.blocks.toList)
    simp only [Array.length_toList, Bool.not_eq_true, Bool.decide_eq_false] at hlength
    rw [← Heap.freedBlocks] at hlength
    rw [Metrics.live]
    omega
  · have h₁ := hr.pointeesDisposed_add hc
    have h₂ := hr.blocksFreed_add hc
    have h₃ := hr.disposedBlocks_eq n
    rw [Metrics.expired]
    omega

/-- In its own destructor the node counts as expired, and cannot lock itself. -/
theorem metered_selfObserving :
    CountsFrom (moment selfObserving false) 0 10 ∧
      (moment selfObserving false 10).heap.metrics = ⟨1, 0, 1, 1, 1, 0⟩ ∧
      Metered (moment selfObserving false) := by
  have hunreset : ∀ i < 10, (moment selfObserving false i).resets = false := by decide
  exact ⟨⟨.inl rfl, Nat.zero_le _, fun i _ => hunreset i⟩, by decide,
    IsRationed.metered (isRationed_moment selfObserving false)⟩

end

end Machine

end Custody
