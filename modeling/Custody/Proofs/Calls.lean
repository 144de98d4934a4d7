import Custody.Proofs.Freeing

/-!
# What allocators are asked

* `Call`: a request that an allocator granted or refused, or a return of what it had granted.
  `Call.enter?`: what a call makes of the allocator's books.
* `Balanced`: histories of calls in which what is returned has been granted before, and has not
  been returned since. `Accounts.enter`: whatever can be entered in the books is one.
* `Machine.returns?`: the allocation that the next action returns.
* `Machine.Grounded.step_asks`: the calls that a step makes.
-/

namespace Custody

variable {Y : Option Place}

/-- What an allocator was asked, and said to it. Grants have serial numbers. -/
inductive Call
  | granted (serial : Nat) (l : Layout)
  | refused (l : Layout)
  | returned (serial : Nat) (l : Layout)
  deriving DecidableEq, Repr

namespace Call

/-- The allocation that the call returns. -/
def returned? : Call → Option (Nat × Layout)
  | returned n l => some (n, l)
  | _ => none

/-- The allocator's books after the call. A request for no memory cannot be entered, nor can a
return of what is not out. -/
def enter? (as : Array Allocation) : Call → Option (Array Allocation)
  | granted n l => if l.size ≠ 0 ∧ n = as.size + 1 then some (as.push { layout := l }) else none
  | refused l => if l.size ≠ 0 then some as else none
  | returned n l =>
    if n ≠ 0 ∧ as[n - 1]? = some { layout := l } then
      some (as.modify (n - 1) fun x => { x with live := false })
    else none

end Call

/-- The books after all the calls. -/
def enterAll? (as : Array Allocation) (cs : List Call) : Option (Array Allocation) :=
  cs.foldlM Call.enter? as

theorem enterAll?_append {as bs xs : Array Allocation} {cs ds : List Call}
    (hc : enterAll? as cs = some bs) (hd : enterAll? bs ds = some xs) :
    enterAll? as (cs ++ ds) = some xs := by
  rw [enterAll?] at hc hd ⊢
  rw [List.foldlM_append, hc]
  exact hd

/-! ## Histories -/

/-- Grants are of new memory, returns are of memory that was granted under the same layout and has
not been returned, and no call is about no memory. -/
inductive Balanced : List Call → Prop
  | nil : Balanced []
  | granted {cs n l} (h : Balanced cs) (hl : l.size ≠ 0) (hnew : ∀ l', .granted n l' ∉ cs) :
      Balanced (cs ++ [.granted n l])
  | refused {cs l} (h : Balanced cs) (hl : l.size ≠ 0) : Balanced (cs ++ [.refused l])
  | returned {cs n l} (h : Balanced cs) (hl : l.size ≠ 0) (hgranted : .granted n l ∈ cs)
      (hout : ∀ l', .returned n l' ∉ cs) : Balanced (cs ++ [.returned n l])

theorem Balanced.size_of_granted {cs : List Call} {n : Nat} {l : Layout} (h : Balanced cs)
    (hc : .granted n l ∈ cs) : l.size ≠ 0 := by
  induction h with
  | nil => cases hc
  | granted _ hl _ ih =>
    rcases List.mem_append.mp hc with hc | hc
    · exact ih hc
    · cases List.mem_singleton.mp hc
      exact hl
  | refused _ _ ih | returned _ _ _ _ ih => exact ih (by simpa using hc)

/-- The books say of every serial whether it was granted and returned, and for what layout. -/
structure Accounts (cs : List Call) (as : Array Allocation) : Prop where
  balanced : Balanced cs
  granted : ∀ n l, .granted n l ∈ cs ↔ n ≠ 0 ∧ ∃ live, as[n - 1]? = some ⟨l, live⟩
  returned : ∀ n l, .returned n l ∈ cs ↔ n ≠ 0 ∧ as[n - 1]? = some ⟨l, false⟩

theorem accounts_nil : Accounts [] #[] := ⟨.nil, by simp, by simp⟩

/-- A call that can be entered in the books is one that the history allows. -/
theorem Accounts.enter {cs : List Call} {as bs : Array Allocation} {c : Call}
    (h : Accounts cs as) (hc : c.enter? as = some bs) : Accounts (cs ++ [c]) bs := by
  cases c with
  | granted n l =>
    obtain ⟨⟨hl, rfl⟩, hbs⟩ := Option.ite_none_right_eq_some.mp hc
    obtain rfl := Option.some.inj hbs
    have hpush {m : Nat} (hm : m ≠ 0) : (as.push { layout := l })[m - 1]? =
        if m = as.size + 1 then some { layout := l } else as[m - 1]? := by
      rw [Array.getElem?_push]
      exact if_congr (by omega) rfl rfl
    have hsize : as[as.size + 1 - 1]? = none := by simp
    refine ⟨.granted h.balanced hl fun l' hmem => ?_, fun m l' => ?_, fun m l' => ?_⟩
    · obtain ⟨-, live, hx⟩ := (h.granted _ _).mp hmem
      rw [hsize] at hx
      cases hx
    · rw [List.mem_append, h.granted]
      grind
    · rw [List.mem_append, h.returned]
      grind
  | refused l =>
    obtain ⟨hl, hbs⟩ := Option.ite_none_right_eq_some.mp hc
    obtain rfl := Option.some.inj hbs
    exact ⟨.refused h.balanced hl, fun n l' => by simpa using h.granted n l',
      fun n l' => by simpa using h.returned n l'⟩
  | returned n l =>
    obtain ⟨⟨hn, hx⟩, hbs⟩ := Option.ite_none_right_eq_some.mp hc
    have hgranted : .granted n l ∈ cs := (h.granted n l).mpr ⟨hn, true, hx⟩
    obtain rfl := Option.some.inj hbs
    have hmodify (m : Nat) (hm : m ≠ 0) :
        (as.modify (n - 1) fun x => { x with live := false })[m - 1]? =
          if m = n then some ⟨l, false⟩ else as[m - 1]? := by
      rw [Array.getElem?_modify]
      split
      · next heq =>
        rw [← heq, hx, if_pos (by omega)]
        rfl
      · next hne => rw [if_neg (by omega)]
    have hl := h.balanced.size_of_granted hgranted
    refine ⟨.returned h.balanced hl hgranted fun l' hmem => ?_, fun m l' => ?_, fun m l' => ?_⟩
    · obtain ⟨-, hx'⟩ := (h.returned _ _).mp hmem
      rw [hx] at hx'
      cases hx'
    · rw [List.mem_append, h.granted]
      grind
    · rw [List.mem_append, h.returned]
      grind

theorem Accounts.enterAll {cs ds : List Call} {as bs : Array Allocation} (h : Accounts cs as)
    (hd : enterAll? as ds = some bs) : Accounts (cs ++ ds) bs := by
  induction ds generalizing cs as with
  | nil =>
    cases hd
    simpa using h
  | cons d ds ih =>
    obtain ⟨xs, hx, hd⟩ := Option.bind_eq_some_iff.mp hd
    simpa using ih (h.enter hx) hd

/-- What is out has been granted and not returned. -/
theorem Accounts.mem_entries {cs : List Call} {l : Ledger} (h : Accounts cs l.allocations)
    (n : Nat) (layout : Layout) :
    (n, layout) ∈ l.entries true ↔ .granted n layout ∈ cs ∧ .returned n layout ∉ cs := by
  rw [Ledger.mem_entries, h.granted, h.returned]
  constructor
  · rintro ⟨hn, hx⟩
    exact ⟨⟨hn, true, hx⟩, by simp [hx]⟩
  · rintro ⟨⟨hn, live, hx⟩, hout⟩
    cases live with
    | true => exact ⟨hn, hx⟩
    | false => exact absurd ⟨hn, hx⟩ hout

/-! ## The log -/

/-- The call of the arena that the event tells of. -/
def Event.call? : Event → Option Call
  | alloc .arena n l => some (.granted n l)
  | refuse .arena l => some (.refused l)
  | dealloc .arena n l => some (.returned n l)
  | _ => none

/-- The call of the allocator that the event tells of. -/
def Event.callTo? (a : Alloc) : Event → Option Call
  | alloc a' n l => if a' = a then some (.granted n l) else none
  | refuse a' l => if a' = a then some (.refused l) else none
  | dealloc a' n l => if a' = a then some (.returned n l) else none
  | _ => none

theorem Event.callTo?_arena : callTo? .arena = call? := by
  funext e
  cases e with
  | alloc a | refuse a | dealloc a => cases a <;> rfl
  | _ => rfl

namespace Heap

variable {h h' h'' : Heap} {a a' : Alloc} {b : BlockId} {o : ObjectId} {l : Layout}

/-- The calls of the allocator, as the log tells of them. -/
def calls (h : Heap) (a : Alloc) : List Call := h.log.toList.filterMap (Event.callTo? a)

theorem calls_emit {e : Event} (he : ∀ a, e.callTo? a = none) : (h.emit e).calls = h.calls := by
  funext a
  simp [calls, emit, he a]

theorem calls_emit_call (e : Event) (a : Alloc) :
    (h.emit e).calls a = h.calls a ++ (e.callTo? a).toList := by
  cases he : e.callTo? a <;> simp [calls, emit, he]

theorem calls_updateLedger (f : Ledger → Ledger) : (h.updateLedger a f).calls = h.calls := by
  cases a <;> rfl

@[simp] theorem calls_expect (ok : Block → Bool) (e : Breach) :
    (h.expect b ok e).calls = h.calls := by
  rw [expect_eq]
  rfl

/-- The calls that lead from the books of one heap to those of another. -/
structure Asks (h h' : Heap) (a : Alloc) (cs : List Call) : Prop where
  entered : enterAll? (h.ledger a).allocations cs = some (h'.ledger a).allocations
  told : h'.calls a = h.calls a ++ cs

theorem Asks.of_eq (hl : (h'.ledger a).allocations = (h.ledger a).allocations)
    (hc : h'.calls a = h.calls a) : h.Asks h' a [] :=
  ⟨congrArg some hl.symm, by rw [hc, List.append_nil]⟩

theorem Asks.trans {cs ds : List Call} (hc : h.Asks h' a cs) (hd : h'.Asks h'' a ds) :
    h.Asks h'' a (cs ++ ds) :=
  ⟨enterAll?_append hc.entered hd.entered, by rw [hd.told, hc.told, List.append_assoc]⟩

/-- The calls that the log tells of lead to the books. -/
def Entered (h : Heap) : Prop := ∀ a, enterAll? #[] (h.calls a) = some (h.ledger a).allocations

theorem Entered.asks (hs : h.Entered) (hc : ∀ a, ∃ cs, h.Asks h' a cs) : h'.Entered := by
  intro a
  obtain ⟨cs, hcs⟩ := hc a
  rw [hcs.told]
  exact enterAll?_append (hs a) hcs.entered

theorem Entered.accounts (hs : h.Entered) (a : Alloc) :
    Accounts (h.calls a) (h.ledger a).allocations := accounts_nil.enterAll (hs a)

theorem Asks.congr {cs : List Call} (hc : h'.Asks h'' a cs) (hl : h'.ledger = h.ledger)
    (ht : h'.calls = h.calls) : h.Asks h'' a cs :=
  ⟨hl ▸ hc.entered, ht ▸ hc.told⟩

/-- The calls return nothing. -/
def Draws (h h' : Heap) (a : Alloc) : Prop :=
  ∃ cs, cs.filterMap Call.returned? = [] ∧ h.Asks h' a cs

theorem Draws.asks (hd : h.Draws h' a) : ∃ cs, h.Asks h' a cs := by
  obtain ⟨cs, -, hcs⟩ := hd
  exact ⟨cs, hcs⟩

theorem Draws.of_eq (hl : h'.ledger = h.ledger) (hc : h'.calls = h.calls) : h.Draws h' a :=
  ⟨[], rfl, .of_eq (by rw [hl]) (by rw [hc])⟩

theorem Draws.trans (hg : h.Draws h' a) (hg' : h'.Draws h'' a) : h.Draws h'' a := by
  obtain ⟨cs, hcs, hc⟩ := hg
  obtain ⟨ds, hds, hd⟩ := hg'
  exact ⟨cs ++ ds, by rw [List.filterMap_append, hcs, hds]; rfl, hc.trans hd⟩

/-! ### Operations that ask for nothing -/

@[simp] theorem calls_addStrong : (h.addStrong b).calls = h.calls := calls_expect (b := b) _ _

@[simp] theorem calls_addWeak : (h.addWeak b).calls = h.calls := calls_expect (b := b) _ _

@[simp] theorem calls_recordExpiredLock : (h.recordExpiredLock b).calls = h.calls :=
  (calls_emit fun _ => rfl).trans (calls_expect (b := b) _ _)

@[simp] theorem calls_addStrongIfAlive : (h.addStrongIfAlive b).calls = h.calls := by
  unfold addStrongIfAlive
  split
  · exact calls_recordExpiredLock
  · exact (calls_emit fun _ => rfl).trans (calls_expect (b := b) _ _)

@[simp] theorem calls_releaseStrong : (h.releaseStrong b).1.calls = h.calls := by
  simp only [releaseStrong]
  split
  · exact (calls_emit fun _ => rfl).trans (calls_expect (b := b) _ _)
  · exact calls_expect (b := b) _ _

@[simp] theorem calls_takePointee : (h.takePointee b).1.calls = h.calls :=
  calls_expect (b := b) _ _

@[simp] theorem calls_beginDestruction : (h.beginDestruction o).1.calls = h.calls := by
  unfold beginDestruction
  split
  · dsimp only
    split <;> rfl
  · rfl

@[simp] theorem calls_write (p : Place) (c : Content) : (h.write p c).calls = h.calls := by
  unfold write
  split <;> rfl

/-! ### Requests -/

theorem calls_request (hl : l.size ≠ 0) (a' : Alloc) : (h.request a l).1.calls a' = h.calls a' ++
    if a = a' then
      [if (h.ledger a).isExhausted then .refused l
        else .granted ((h.ledger a).allocations.size + 1) l]
    else [] := by
  unfold request
  simp only [hl, ↓reduceIte]
  split <;> simp only [calls_emit_call, calls_updateLedger, Event.callTo?] <;> split <;> rfl

/-- A request asks one allocator once. -/
theorem draws_request (hl : l.size ≠ 0) (a' : Alloc) : h.Draws (h.request a l).1 a' := by
  have hcalls := calls_request (h := h) (a := a) hl a'
  cases hr : (h.ledger a).isExhausted with
  | true =>
    have hledger := (request_refused l hr).2
    rw [hr] at hcalls
    by_cases heq : a = a'
    · subst heq
      rw [if_pos rfl] at hcalls
      refine ⟨[.refused l], rfl, ?_, hcalls⟩
      rw [hledger]
      simp [enterAll?, Call.enter?, hl]
    · rw [if_neg heq, List.append_nil] at hcalls
      exact ⟨[], rfl, .of_eq (by rw [hledger]) hcalls⟩
  | false =>
    have hledger := (request_granted l hr).2 a'
    rw [hr] at hcalls
    by_cases heq : a = a'
    · subst heq
      rw [if_pos rfl] at hcalls
      refine ⟨[.granted ((h.ledger a).allocations.size + 1) l], rfl, ?_, hcalls⟩
      rw [hledger, if_pos rfl]
      simp [enterAll?, Call.enter?, hl, Ledger.grant]
    · rw [if_neg heq, List.append_nil] at hcalls
      exact ⟨[], rfl, .of_eq (by rw [hledger, if_neg heq]) hcalls⟩

theorem draws_construct {p : Pointee} {r : Option Layout} (hc : h.construct p a = (h', o, r))
    (a' : Alloc) : h.Draws h' a' := by
  simp only [construct] at hc
  split at hc
  · cases hc
    exact .of_eq rfl rfl
  · next hl =>
    cases hc
    exact (draws_request hl a').trans (.of_eq rfl rfl)

theorem draws_createBlock (k : Kind) (o : ObjectId) (a' : Alloc) :
    h.Draws (h.createBlock k a o).1 a' := by
  have hrequest := draws_request (h := { h with nextId := h.nextId + 1 }) (a := a)
    (Layout.size_block k.isSized) a'
  have hnext : h.Draws { h with nextId := h.nextId + 1 } a' := .of_eq rfl rfl
  simp only [createBlock]
  split
  · exact (hnext.trans hrequest).trans (.of_eq rfl rfl)
  · exact (hnext.trans hrequest).trans (.of_eq rfl (calls_emit fun _ => rfl))

/-! ### Returns -/

/-- What is returned is entered as returned, if it is out. -/
theorem asks_giveBack {n : Nat} (hout : (h.ledger a).holds n l = true)
    (a' : Alloc) : h.Asks (h.giveBack a n l) a' (if a = a' then [.returned n l] else []) := by
  have hcalls : (h.giveBack a n l).calls a' =
      h.calls a' ++ if a = a' then [.returned n l] else [] := by
    simp only [giveBack, hout, ↓reduceIte, calls_emit_call, calls_updateLedger, Event.callTo?]
    split <;> rfl
  have hledger := ledger_giveBack (h := h) a a' n l
  by_cases heq : a = a'
  · subst heq
    obtain ⟨hn, hx⟩ := Ledger.mem_entries.mp (Ledger.holds_iff.mp hout)
    rw [if_pos rfl] at hcalls ⊢
    refine ⟨?_, hcalls⟩
    rw [hledger, if_pos rfl]
    simp [enterAll?, Call.enter?, hn, hx, Ledger.giveBack]
  · rw [if_neg heq] at hcalls ⊢
    rw [List.append_nil] at hcalls
    exact .of_eq (by rw [hledger, if_neg heq]) hcalls

end Heap

/-! ## Changes -/

section

variable {h : Heap} {K : Multiset Stake} {k : Stake}

/-- A change makes requests alone, and returns nothing. -/
theorem Change.draws {s t : Scene} (hc : Change Y s t) (a : Alloc) : s.1.Draws t.1 a := by
  cases hc with
  | null | copy | forget | revise | release | adopt | resetMetrics => exact .of_eq rfl rfl
  | share | observe | lock | refuseLock | write => exact .of_eq (by simp) (by simp)
  | construct _ hc =>
    obtain ⟨h₁, o, hc₁, -, rfl⟩ := Unique.construct_eq hc
    exact (Heap.draws_construct hc₁ a).trans (.of_eq rfl rfl)
  | copyIn _ hc => exact Heap.draws_construct hc a
  | @promote h K k a' o h' b hc =>
    have := Heap.draws_createBlock (h := h) (a := a') k o a
    rwa [hc] at this
  | @refuseBlock h K k a' o h' l _ hc =>
    have := Heap.draws_createBlock (h := h) (a := a') k o a
    rwa [hc] at this
  | setBudget limit => exact ⟨[], rfl, .of_eq (by cases a <;> rfl) rfl⟩
  | remark he =>
    refine .of_eq rfl (Heap.calls_emit fun _ => ?_)
    cases he <;> rfl

theorem Shift.draws {s t : Scene} (hc : Shift Y s t) (a : Alloc) : s.1.Draws t.1 a := by
  cases hc with
  | change hc => exact hc.draws a
  | relink => exact .of_eq rfl rfl

theorem Shifts.draws {s t : Scene} (hc : Shifts Y s t) (a : Alloc) : s.1.Draws t.1 a := by
  induction hc with
  | refl => exact .of_eq rfl rfl
  | tail _ hc ih => exact ih.trans (hc.draws a)

/-! ## Losses -/

/-- The allocation that the object is in, or was in, and the allocator that it is of. -/
def Object.storage? (x : Object) : Option (Alloc × Nat × Layout) :=
  x.serial.map fun n => (x.alloc, n, x.content.layout)

/-- The allocation that the block is in, or was in, and the allocator that it is of. -/
def Block.storage (x : Block) : Alloc × Nat × Layout := (x.alloc, x.serial, .block x.kind.isSized)

/-- The allocation that is returned when the stake is given up. -/
def Stake.returns? (h : Heap) : Stake → Option (Alloc × Nat × Layout)
  | destruction o => h.objects[o]?.bind Object.storage?
  | k => (k.frees? h).bind fun b => h.blocks[b]?.map Block.storage

/-- What is returned to the allocator `a`. -/
def returnsTo (a : Alloc) (r : Option (Alloc × Nat × Layout)) : List (Nat × Layout) :=
  r.toList.filterMap fun (a', e) => if a' = a then some e else none

/-- The last weak reference returns the block's memory. -/
theorem Booked.asks_releaseWeak {b : BlockId} {x : Block} (hs : Booked h)
    (hx : h.blocks[b]? = some x) (hf : x.freed = false) (hw : 0 < x.weak)
    (hstrong : x.weak = 1 → x.strong = 0) (a : Alloc) :
    h.Asks (h.releaseWeak b) a
      (if x.weak = 1 ∧ x.alloc = a then [.returned x.serial (.block x.kind.isSized)] else []) := by
  by_cases last : x.weak = 1
  · rw [Heap.releaseWeak_last hx hf last (hstrong last)]
    simp only [last, true_and]
    refine Heap.Asks.congr (Heap.asks_giveBack ?_ a) rfl (Heap.calls_emit (h := h) fun _ => rfl)
    exact hs.holds_block hx hf
  · rw [if_neg fun h => last h.1, Heap.releaseWeak_others hx hf hw last]
    exact .of_eq rfl rfl

/-- A loss returns what it is said to return, and requests nothing. -/
theorem Loss.asks {t : Scene} (hl : Loss h K k t) (hs : Sound (h, k ::ₘ K)) (a : Alloc) :
    h.Asks t.1 a ((returnsTo a (k.returns? h)).map fun (n, l) => .returned n l) := by
  have hnone (hk : k.returns? h = none) (hledger : t.1.ledger = h.ledger)
      (hcalls : t.1.calls = h.calls) :
      h.Asks t.1 a ((returnsTo a (k.returns? h)).map fun (n, l) => .returned n l) := by
    rw [hk]
    exact .of_eq (by rw [hledger]) (by rw [hcalls])
  have hblock {b : BlockId} {x : Block} (hx : h.blocks[b]? = some x)
      (hk : k.returns? h = (k.frees? h).bind fun b => h.blocks[b]?.map Block.storage)
      (hfrees : k.frees? h = if h.weakCount b = 1 then some b else none) :
      (returnsTo a (k.returns? h)).map (fun (n, l) => Call.returned n l) =
        if x.weak = 1 ∧ x.alloc = a then [.returned x.serial (.block x.kind.isSized)] else [] := by
    rw [hk, hfrees, Heap.weakCount_eq hx]
    by_cases hw : x.weak = 1 <;> by_cases ha : x.alloc = a <;>
      simp [hw, ha, hx, returnsTo, Block.storage]
  cases hl with
  | @free x hx =>
    refine hnone ?_ rfl rfl
    cases x with
    | weak w =>
      have hb : w.block = none := hx.weak
      simp [Stake.returns?, Stake.frees?, hb]
    | _ => rfl
  | leak | release | dispose | disposeNothing | destroy => exact hnone rfl (by simp) (by simp)
  | @unobserve w b hb =>
    obtain ⟨x, hx, hf, hagree⟩ := hs.block (Multiset.mem_cons_self _ _) hb
    obtain ⟨hw, hlast⟩ := hagree.observed (Multiset.mem_cons_self _ _) hb
    rw [hblock hx rfl (by simp [Stake.frees?, hb])]
    exact hs.booked.asks_releaseWeak hx hf hw hlast a
  | @reclaim o =>
    obtain ⟨x, hx, hphase⟩ := Option.map_eq_some_iff.mp (hs.owned.dying hs.scope (o := o) (by simp))
    have heq := Heap.endDestruction_eq hx
    cases hn : x.serial with
    | none =>
      rw [hn] at heq
      refine hnone (by simp [Stake.returns?, hx, Object.storage?, hn]) ?_ ?_
      all_goals
        rw [heq]
        rfl
    | some n =>
      rw [hn] at heq
      have hout := hs.booked.holds_object hx (by simp [hphase]) hn
      have hreturn : (returnsTo a (Stake.returns? h (.destruction o))).map
          (fun (n, l) => Call.returned n l) =
            if x.alloc = a then [.returned n x.content.layout] else [] := by
        by_cases ha : x.alloc = a <;> simp [Stake.returns?, hx, Object.storage?, hn, returnsTo, ha]
      rw [hreturn]
      dsimp only at heq ⊢
      rw [heq]
      exact Heap.Asks.congr (Heap.asks_giveBack (h := h.updateObject o _) hout a) rfl rfl
  | @giveUp b =>
    obtain ⟨x, hx, hf, hagree⟩ := hs.block (k := .disposal b) (Multiset.mem_cons_self _ _) rfl
    obtain ⟨hw, hstrong⟩ := hagree.disposing (Multiset.mem_cons_self _ _)
    have hx' := Array.getElem?_modify_self (fun x : Block => { x with implicitWeak := false }) hx
    rw [hblock hx rfl rfl]
    dsimp only
    unfold Heap.giveUpImplicit
    have hdone := (hs.booked.clearImplicit b).asks_releaseWeak hx' hf hw (fun _ => hstrong) a
    exact hdone.congr rfl rfl

theorem Shift.entered {s t : Scene} (hc : Shift Y s t) (hs : s.1.Entered) : t.1.Entered :=
  hs.asks fun a => (hc.draws a).asks

theorem Loss.entered {t : Scene} (hl : Loss h K k t) (hsound : Sound (h, k ::ₘ K))
    (hs : h.Entered) : t.1.Entered :=
  hs.asks fun a => ⟨_, hl.asks hsound a⟩

end

/-! ## Steps -/

namespace Machine

variable {m : Machine}

theorem IsRationed.entered {run : Nat → Machine} (hr : IsRationed run) (n : Nat) :
    (run n).heap.Entered := by
  refine ((hr.reachable n).sound_induction (P := fun s => s.1.Entered) (fun a => ?_)
    (fun limits hs a => ?_) (fun hsound hs hl => hl.entered hsound hs)
    (fun _ hs hc => hc.entered hs)).2
  · cases a <;> rfl
  · cases a
    · exact hs .global
    · exact hs .arena

/-- The allocation that the next action returns. -/
def returns? (m : Machine) : Option (Alloc × Nat × Layout) :=
  match m.env.agenda with
  | .reclaim o :: _ => m.heap.objects[o]?.bind Object.storage?
  | _ => m.frees?.bind fun b => m.heap.blocks[b]?.map Block.storage

theorem returns?_eq (m : Machine) : m.returns? = m.lost?.bind (·.returns? m.heap) := by
  unfold returns? frees? lost?
  cases m.env.agenda with
  | nil => rfl
  | cons a rest => cases a <;> rfl

/-- A step returns one allocation, if any, and then makes its requests. -/
theorem Grounded.step_asks (hm : m.Grounded) (hs : Sound m.scene) (a : Alloc) :
    ∃ cs, cs.filterMap Call.returned? = returnsTo a m.returns? ∧ m.heap.Asks m.step.heap a cs := by
  rw [returns?_eq]
  rcases hm.step_cases with ⟨hlost, hst⟩ | ⟨k, K, s, hlost, hscene, hl, hst⟩
  · rw [hlost]
    exact hst.draws a
  · rw [hscene] at hs
    rw [hlost]
    obtain ⟨cs, hcs, hc⟩ := hst.draws a
    refine ⟨_, ?_, (hl.asks hs a).trans hc⟩
    rw [List.filterMap_append, hcs, List.append_nil, List.filterMap_map]
    exact List.filterMap_some

end Machine

end Custody
