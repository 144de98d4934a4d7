import Custody.Proofs.Storage

/-!
# No use is a fault

A breach is recorded where a freed block is touched, a counter falls below zero, an owner is added
to an expired block, a pointee is disposed twice, or memory is given back that was not handed out.

* `Change.breaches`, `Loss.breaches`: in a sound scene none is recorded.
* `Machine.Reachable.breaches`: so in every reachable state there is none.
-/

namespace Custody

variable {Y : Option Place}

variable {h : Heap} {K : Multiset Stake} {k : Stake} {b : BlockId} {o : ObjectId}

/-- A block that a stake is on is there and not freed. -/
theorem Sound.block (hs : Sound (h, K)) (hk : k ∈ K) (hb : k.block? = some b) :
    ∃ x, h.blocks[b]? = some x ∧ x.freed = false ∧ x.Agrees K b := by
  have hx := Array.getElem?_eq_getElem ((hs.scope.stakes k hk).block hb)
  have hagree := hs.counted b _ hx
  refine ⟨_, hx, hagree.unfreed ?_, hagree⟩
  match k with
  | .pointer (.strong p) =>
    refine hagree.weak_of_strong ?_
    rw [hagree.strong]
    exact tally_pos hk hb
  | .pointer (.weak w) => exact (hagree.observed hk hb).1
  | .disposal c =>
    cases hb
    exact (hagree.disposing hk).1
  | .pointer (.unique _) | .pointer (.raw _) | .destruction _ => cases hb

/-- A block that a strong pointer is on has an owner. -/
theorem Sound.strong {p : Strong} (hs : Sound (h, K)) (hk : .pointer (.strong p) ∈ K)
    (hb : p.block = some b) :
    ∃ x, h.blocks[b]? = some x ∧ x.freed = false ∧ 0 < x.strong ∧ x.pointee.isSome = true := by
  obtain ⟨x, hx, hf, hagree⟩ := hs.block (k := .pointer (.strong p)) hk hb
  have hpos : 0 < x.strong := by
    rw [hagree.strong]
    exact tally_pos hk hb
  exact ⟨x, hx, hf, hpos, hagree.pointee.mpr (Nat.ne_of_gt hpos)⟩

/-- The object whose destructor starts when a stake is given up is alive. -/
theorem Sound.alive (hs : Sound (h, K)) (hk : k ∈ K) (ho : k.starts? h = some o) :
    h.phase? o = some .alive := by
  refine hs.owned.alive hs.scope ?_
  simp only [Scene.owners]
  cases k with
  | disposal | destruction => cases ho
  | pointer x =>
    cases x with
    | weak | raw => cases ho
    | unique u =>
      have := tally_pos (f := Stake.owns?) hk ho
      omega
    | strong p =>
      obtain ⟨b, -, hb⟩ := Option.bind_eq_some_iff.mp ho
      split at hb
      · obtain ⟨x, hx, hxo⟩ := Option.bind_eq_some_iff.mp hb
        have := Heap.managers_pos ⟨b, x, hx, hxo⟩
        omega
      · cases hb

/-- No change breaks a rule. -/
theorem Change.breaches {s t : Scene} (hc : Change Y s t) (hs : Sound s) :
    t.1.breaches = s.1.breaches := by
  cases hc with
  | null | copy | forget | revise | release | adopt | resetMetrics | remark => rfl
  | share hp hb hq =>
    obtain ⟨x, hx, hf, hpos, -⟩ := hs.strong hp hb
    exact Heap.breaches_addStrong hx hf hpos
  | observe hk hb hw =>
    obtain ⟨x, hx, hf, -⟩ := hs.block hk hb
    exact Heap.breaches_addWeak hx hf
  | lock hw hb alive hp =>
    obtain ⟨x, hx, hf, -⟩ := hs.block hw hb
    exact Heap.breaches_addStrongIfAlive hx hf
  | refuseLock hw hb dead =>
    obtain ⟨x, hx, hf, -⟩ := hs.block hw hb
    exact Heap.breaches_recordExpiredLock hx hf
  | construct _ hc =>
    obtain ⟨h₁, o, hc₁, -, rfl⟩ := Unique.construct_eq hc
    have hsame := Heap.breaches_construct hc₁
    exact hsame
  | copyIn _ hc => exact Heap.breaches_construct hc
  | promote hc =>
    obtain ⟨-, -, n, -, -, -, hbreaches⟩ := Heap.createBlock_ok hc
    exact hbreaches.trans (Heap.breaches_request_block _)
  | refuseBlock _ hc =>
    obtain ⟨-, -, -, -, -, hbreaches⟩ := Heap.createBlock_error hc
    exact hbreaches.trans (Heap.breaches_request_block _)
  | write => exact Heap.breaches_write _ _
  | setBudget => exact Heap.breaches_updateLedger _ _ _

theorem Booked.breaches_releaseWeak {x : Block} (hs : Booked h) (hx : h.blocks[b]? = some x)
    (hf : x.freed = false) (hw : 0 < x.weak) (hstrong : x.weak = 1 → x.strong = 0) :
    (h.releaseWeak b).breaches = h.breaches := by
  by_cases last : x.weak = 1
  · rw [Heap.releaseWeak_last hx hf last (hstrong last), Heap.breaches_giveBack]
    exact hs.holds_block hx hf
  · rw [Heap.releaseWeak_others hx hf hw last]
    rfl

/-- No loss breaks a rule: what it releases is there to be released. -/
theorem Loss.breaches {t : Scene} (hl : Loss h K k t) (hs : Sound (h, k ::ₘ K)) :
    t.1.breaches = h.breaches := by
  have hmem := Multiset.mem_cons_self k K
  have hbegin {o : ObjectId} {g : Heap} (hg : g.objects = h.objects)
      (hp : h.phase? o = some .alive) : (g.beginDestruction o).1.breaches = g.breaches := by
    obtain ⟨x, hx, hphase⟩ := Option.map_eq_some_iff.mp hp
    exact Heap.breaches_beginDestruction (hg ▸ hx) hphase
  have htake {p : Strong} {b : BlockId} (hk : k = .pointer (.strong p)) (hb : p.block = some b) :
      ((h.releaseStrong b).1.takePointee b).1.breaches = h.breaches := by
    obtain ⟨x, hx, hf, hpos, hpointee⟩ := hs.strong (hk ▸ hmem) hb
    have hx' := Array.getElem?_modify_self (fun x : Block => { x with strong := x.strong - 1 }) hx
    rw [← Heap.blocks_releaseStrong] at hx'
    rw [Heap.breaches_takePointee hx' hf hpointee, Heap.breaches_releaseStrong hx hf hpos]
  cases hl with
  | free | leak => rfl
  | release hb others =>
    obtain ⟨x, hx, hf, hpos, -⟩ := hs.strong hmem hb
    exact Heap.breaches_releaseStrong hx hf hpos
  | @dispose p b o hb last ho =>
    rw [Heap.takePointee_releaseStrong_snd] at ho
    have halive := hs.alive hmem (o := o) (by simpa [Stake.starts?, hb, last] using ho)
    rw [hbegin (by simp) halive, htake rfl hb]
  | disposeNothing hb last ho => exact htake rfl hb
  | unobserve hb =>
    obtain ⟨x, hx, hf, hagree⟩ := hs.block hmem hb
    obtain ⟨hw, hlast⟩ := hagree.observed hmem hb
    exact hs.booked.breaches_releaseWeak hx hf hw hlast
  | destroy ho => exact hbegin rfl (hs.alive hmem ho)
  | @reclaim o =>
    obtain ⟨x, hx, hphase⟩ := Option.map_eq_some_iff.mp (hs.owned.dying hs.scope (o := o) (by simp))
    have heq := Heap.endDestruction_eq hx
    cases hn : x.serial with
    | none =>
      rw [hn] at heq
      rw [heq]
      rfl
    | some n =>
      rw [hn] at heq
      rw [heq, Heap.breaches_giveBack]
      · rfl
      · exact hs.booked.holds_object hx (by simp [hphase]) hn
  | @giveUp b =>
    obtain ⟨x, hx, hf, hagree⟩ := hs.block (k := .disposal b) hmem rfl
    obtain ⟨hw, hstrong⟩ := hagree.disposing hmem
    have hx' := Array.getElem?_modify_self (fun x : Block => { x with implicitWeak := false }) hx
    have hdone := (hs.booked.clearImplicit b).breaches_releaseWeak hx' hf hw fun _ => hstrong
    unfold Heap.giveUpImplicit
    exact hdone

theorem Shift.breaches {s t : Scene} (hc : Shift Y s t) (hs : Sound s) :
    t.1.breaches = s.1.breaches := by
  cases hc with
  | change hc => exact hc.breaches hs
  | relink => rfl

theorem Machine.Reachable.breaches {m : Machine} (hm : m.Reachable) : m.heap.breaches = [] :=
  (hm.sound_induction (P := fun s => s.1.breaches = []) rfl (fun _ hs => hs)
    (fun hs hnone hl => (hl.breaches hs).trans hnone)
    fun hs hnone hc => (hc.breaches hs).trans hnone).2

end Custody
