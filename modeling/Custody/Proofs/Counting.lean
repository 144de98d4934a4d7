import Custody.Proofs.Runs

/-!
# Counters and pointers

* `Block.Agrees`: the counters of a block are the numbers of its stakes.
* `Counted`: so it is for every block. Changes, losses and shifts keep it.
-/

namespace Custody

variable {Y : Option Place}

/-- The block that the stake is on. -/
def Stake.block? : Stake → Option BlockId
  | pointer x => x.block?
  | disposal b => some b
  | destruction _ => none

/-- The implicit reference stands for all strong owners and, after them, for the disposal. -/
structure Block.Agrees (x : Block) (K : Multiset Stake) (b : BlockId) : Prop where
  strong : x.strong = tally Stake.strongOn? K b
  weak : x.weak = tally Stake.weakOn? K b + x.implicitWeak.toNat
  implicit : x.implicitWeak.toNat = min 1 x.strong + tally Stake.disposes? K b
  pointee : x.pointee.isSome ↔ x.strong ≠ 0
  freed : x.freed ↔ x.weak = 0

/-- Every block counts what there is of stakes in it. -/
def Counted (s : Scene) : Prop :=
  ∀ (b : BlockId) (x : Block), s.1.blocks[b]? = some x → x.Agrees s.2 b

section

variable {h h' : Heap} {K K' : Multiset Stake} {k : Stake} {b c : BlockId} {x : Block}
  {f : Block → Block}

theorem Stake.strongOn?_of_block? (hk : k.block? ≠ some b) :
    k.strongOn? ≠ some b ∧ k.weakOn? ≠ some b ∧ k.disposes? ≠ some b := by
  match k with
  | .pointer (.strong p) => exact ⟨hk, nofun, nofun⟩
  | .pointer (.weak w) => exact ⟨nofun, hk, nofun⟩
  | .pointer (.unique _) | .pointer (.raw _) | .destruction _ => exact ⟨nofun, nofun, nofun⟩
  | .disposal b => exact ⟨nofun, nofun, hk⟩

theorem Stake.Within.block (hk : k.Within h) (hb : k.block? = some b) : b < h.blocks.size := by
  match k with
  | .pointer x => exact Slot.Within.block hk b hb
  | .disposal c =>
    cases hb
    exact hk

/-- A stake that is not on a block does not count there. -/
theorem Block.agrees_cons (hk : k.block? ≠ some b) : x.Agrees (k ::ₘ K) b ↔ x.Agrees K b := by
  obtain ⟨hs, hw, hd⟩ := Stake.strongOn?_of_block? hk
  constructor
  · rintro ⟨h1, h2, h3, h4, h5⟩
    simp only [tally_cons, hs, hw, hd, ↓reduceIte, Nat.add_zero] at h1 h2 h3
    exact ⟨h1, h2, h3, h4, h5⟩
  · rintro ⟨h1, h2, h3, h4, h5⟩
    exact ⟨by simpa [hs] using h1, by simpa [hw] using h2, by simpa [hd] using h3, h4, h5⟩

/-! ## One block -/

namespace Block.Agrees

/-- A block that is referred to in any way is not freed. -/
theorem unfreed (hx : x.Agrees K b) (hw : 0 < x.weak) : x.freed = false := by
  rw [← Bool.not_eq_true, hx.freed]
  omega

/-- The strong owners hold a weak reference together. -/
theorem weak_of_strong (hx : x.Agrees K b) (hs : 0 < x.strong) : 0 < x.weak := by
  obtain ⟨-, h2, h3, -, -⟩ := hx
  omega

/-- The last weak reference is not the implicit one of strong owners, nor is it that of a
disposal. -/
theorem implicitWeak_of_freed (hx : x.Agrees K b) (hf : x.freed = true) :
    x.implicitWeak = false := by
  have hweak := hx.weak
  rw [hx.freed.mp hf] at hweak
  cases h : x.implicitWeak
  · rfl
  · rw [h, Bool.toNat_true] at hweak
    omega

theorem strong_of_implicitWeak (hx : x.Agrees K b) (hi : x.implicitWeak = false) :
    x.strong = 0 := by
  have himplicit := hx.implicit
  rw [hi, Bool.toNat_false] at himplicit
  omega

/-- What a weak pointer holds is the last reference only where nothing strong is left. -/
theorem observed {w : Weak} (hx : x.Agrees K b) (hk : .pointer (.weak w) ∈ K)
    (hw : w.block = some b) : 0 < x.weak ∧ (x.weak = 1 → x.strong = 0) := by
  obtain ⟨-, h2, h3, -, -⟩ := hx
  have : 0 < tally Stake.weakOn? K b := tally_pos hk hw
  constructor <;> omega

/-- During a disposal the implicit reference is there, and nothing strong. -/
theorem disposing (hx : x.Agrees K b) (hk : .disposal b ∈ K) : 0 < x.weak ∧ x.strong = 0 := by
  obtain ⟨-, h2, h3, -, -⟩ := hx
  have : 0 < tally Stake.disposes? K b := tally_pos hk rfl
  have hle := x.implicitWeak.toNat_le
  constructor <;> omega

theorem addStrong {q : Strong} (hx : x.Agrees K b) (hq : q.block = some b) (halive : x.strong ≠ 0) :
    Agrees { x with strong := x.strong + 1 } (.pointer (.strong q) ::ₘ K) b := by
  obtain ⟨h1, h2, h3, h4, h5⟩ := hx
  constructor
  case strong => simp [hq, h1]
  case weak => simpa using h2
  case implicit =>
    simp
    omega
  case pointee => simpa using h4.mpr halive
  case freed => exact h5

/-- A weak pointer more is counted. -/
theorem addWeak {w : Weak} (hx : x.Agrees K b) (hw : w.block = some b) (hweak : x.weak ≠ 0) :
    Agrees { x with weak := x.weak + 1 } (.pointer (.weak w) ::ₘ K) b := by
  obtain ⟨h1, h2, h3, h4, h5⟩ := hx
  constructor
  case strong => simpa using h1
  case weak =>
    simp [hw]
    omega
  case implicit => simpa using h3
  case pointee => exact h4
  case freed =>
    simp [h5]
    omega

/-- One of several strong owners goes. -/
theorem release {p : Strong} (hx : x.Agrees (.pointer (.strong p) ::ₘ K) b)
    (hp : p.block = some b) (hothers : x.strong ≠ 1) :
    Agrees { x with strong := x.strong - 1 } K b := by
  obtain ⟨h1, h2, h3, h4, h5⟩ := hx
  simp [hp] at h1 h2 h3
  constructor
  case strong =>
    simp
    omega
  case weak => exact h2
  case implicit =>
    simp
    omega
  case pointee =>
    simp [h4]
    omega
  case freed => exact h5

/-- With the last strong owner the pointee leaves, and its disposal begins. -/
theorem dispose {p : Strong} (hx : x.Agrees (.pointer (.strong p) ::ₘ K) b)
    (hp : p.block = some b) (hlast : x.strong = 1) :
    Agrees { x with strong := x.strong - 1, pointee := none } (.disposal b ::ₘ K) b := by
  obtain ⟨h1, h2, h3, h4, h5⟩ := hx
  simp [hp] at h1 h2 h3
  constructor
  case strong =>
    simp
    omega
  case weak => simpa using h2
  case implicit =>
    simp
    omega
  case pointee => simp [hlast]
  case freed => exact h5

/-- A weak pointer less is counted, and the block freed with the last one. -/
theorem unobserve {w : Weak} (hx : x.Agrees (.pointer (.weak w) ::ₘ K) b) (hw : w.block = some b) :
    Agrees { x with weak := x.weak - 1, freed := x.freed || x.weak == 1 } K b := by
  obtain ⟨h1, h2, h3, h4, h5⟩ := hx
  simp [hw] at h1 h2 h3
  constructor
  case strong => exact h1
  case weak =>
    simp
    omega
  case implicit => exact h3
  case pointee => exact h4
  case freed =>
    simp [h5]
    omega

/-- The disposal was the only one, and nothing strong was left. -/
theorem giveUp (hx : x.Agrees (.disposal b ::ₘ K) b) :
    Agrees { x with implicitWeak := false, weak := x.weak - 1, freed := x.freed || x.weak == 1 } K
      b := by
  obtain ⟨h1, h2, h3, h4, h5⟩ := hx
  simp at h1 h2 h3
  have hle : x.implicitWeak.toNat ≤ 1 := x.implicitWeak.toNat_le
  constructor
  case strong => exact h1
  case weak =>
    simp
    omega
  case implicit =>
    simp
    omega
  case pointee => exact h4
  case freed =>
    simp [h5]
    omega

end Block.Agrees

/-! ## All blocks -/

theorem counted_empty : Counted (.empty, 0) := by
  intro b x hx
  simp [Heap.empty] at hx

theorem Counted.cons (hs : Counted (h, K)) (hk : k.block? = none) : Counted (h, k ::ₘ K) :=
  fun b x hx => (Block.agrees_cons (by simp [hk])).mpr (hs b x hx)

theorem Counted.tail (hs : Counted (h, k ::ₘ K)) (hk : k.block? = none) : Counted (h, K) :=
  fun b x hx => (Block.agrees_cons (by simp [hk])).mp (hs b x hx)

theorem Counted.of_eq (hs : Counted (h, K)) (hb : h'.blocks = h.blocks) : Counted (h', K) := by
  intro b x hx
  rw [hb] at hx
  exact hs b x hx

/-- One block is changed, and with it the stakes that are on it. -/
theorem Counted.modify (hs : Counted (h, K)) (hb : h'.blocks = h.blocks.modify b f)
    (hself : ∀ x, h.blocks[b]? = some x → x.Agrees K b → (f x).Agrees K' b)
    (hother : ∀ (c : BlockId) (x : Block), some b ≠ some c → x.Agrees K c → x.Agrees K' c) :
    Counted (h', K') := by
  intro c x hx
  rw [hb, Array.getElem?_modify] at hx
  split at hx
  · next hbc =>
    obtain ⟨y, hy, rfl⟩ := Option.map_eq_some_iff.mp hx
    subst hbc
    exact hself y hy (hs b y hy)
  · next hbc => exact hother c x (fun h => hbc (Option.some.inj h)) (hs c x hx)

theorem Counted.gain (hs : Counted (h, K)) (hb : h'.blocks = h.blocks.modify b f)
    (hk : k.block? = some b)
    (hself : ∀ x, h.blocks[b]? = some x → x.Agrees K b → (f x).Agrees (k ::ₘ K) b) :
    Counted (h', k ::ₘ K) :=
  hs.modify hb hself fun c x hne => (Block.agrees_cons (by rwa [hk])).mpr

theorem Counted.lose (hs : Counted (h, k ::ₘ K)) (hb : h'.blocks = h.blocks.modify b f)
    (hk : k.block? = some b)
    (hself : ∀ x, h.blocks[b]? = some x → x.Agrees (k ::ₘ K) b → (f x).Agrees K b) :
    Counted (h', K) :=
  hs.modify hb hself fun c x hne => (Block.agrees_cons (by rwa [hk])).mp

theorem Counted.lose_gain {l : Stake} (hs : Counted (h, k ::ₘ K))
    (hb : h'.blocks = h.blocks.modify b f) (hk : k.block? = some b) (hl : l.block? = some b)
    (hself : ∀ x, h.blocks[b]? = some x → x.Agrees (k ::ₘ K) b → (f x).Agrees (l ::ₘ K) b) :
    Counted (h', l ::ₘ K) :=
  hs.modify hb hself fun c x hne hx =>
    (Block.agrees_cons (by rwa [hl])).mpr ((Block.agrees_cons (by rwa [hk])).mp hx)

/-- Counters agree with stakes after every change. -/
theorem Change.counted {s t : Scene} (hc : Change Y s t) (hscope : Scoped s) (hs : Counted s) :
    Counted t := by
  cases hc with
  | null hx => exact hs.cons hx.block?
  | copy _ hy => exact hs.cons hy.block?
  | forget hx => exact hs.tail hx.block?
  | @revise h K x y z hy hz hzy =>
    intro b v hv
    obtain ⟨h1, h2, h3, h4, h5⟩ := hs b v hv
    refine ⟨?_, ?_, ?_, h4, h5⟩
    · simpa [hy.strong] using h1
    · simpa [hy.weak] using h2
    · simpa using h3
  | @share h K p q b hp hb hq =>
    have hqb : q.block = some b := hq.block.trans hb
    refine hs.gain Heap.blocks_addStrong hqb fun x _ hx => hx.addStrong hqb ?_
    have : 0 < x.strong := hx.strong ▸ tally_pos hp hb
    omega
  | @observe h K x w b hx hb hw =>
    have hwb : w.block = some b := hw.block.trans hb
    refine hs.gain Heap.blocks_addWeak hwb fun y _ hy => hy.addWeak hwb ?_
    obtain ⟨h1, h2, h3, -, -⟩ := hy
    match x with
    | .strong p =>
      have : 0 < y.strong := h1 ▸ tally_pos hx hb
      omega
    | .weak v =>
      have : 0 < tally Stake.weakOn? K b := tally_pos hx hb
      omega
  | @lock h K w p b hw hb alive hp =>
    have hpb : p.block = some b := hp.block.trans hb
    refine hs.gain (Heap.blocks_addStrongIfAlive alive) hpb fun x hx hagree => ?_
    exact hagree.addStrong hpb (Heap.strongCount_eq hx ▸ alive)
  | refuseLock => exact hs.of_eq Heap.blocks_recordExpiredLock
  | construct _ hc =>
    obtain ⟨h₁, o, hc₁, rfl, rfl⟩ := Unique.construct_eq hc
    exact (hs.of_eq (Heap.construct_eq hc₁).2.1).cons rfl
  | copyIn _ hc => exact (hs.of_eq (Heap.construct_eq hc).2.1).cons rfl
  | release => exact (hs.tail rfl).cons rfl
  | adopt => exact (hs.tail rfl).cons rfl
  | @promote h K k a o h' b hc =>
    obtain ⟨rfl, -, n, -, hb, -⟩ := Heap.createBlock_ok hc
    intro c x hx
    rw [hb, Array.getElem?_push] at hx
    split at hx
    · next hc =>
      subst hc
      cases hx
      have hfresh (l : Stake) (hl : l.Within h) := Stake.strongOn?_of_block? (k := l)
        fun hb => Nat.lt_irrefl _ (hl.block hb)
      have h1 := hscope.tail.tally_eq_zero fun l hl => (hfresh l hl).1
      have h2 := hscope.tail.tally_eq_zero fun l hl => (hfresh l hl).2.1
      have h3 := hscope.tail.tally_eq_zero fun l hl => (hfresh l hl).2.2
      constructor <;> simp [h1, h2, h3]
    · next hne =>
      refine (Block.agrees_cons ?_).mpr (hs.tail rfl c x hx)
      rintro ⟨⟩
      exact hne rfl
  | refuseBlock _ hc => exact hs.of_eq (Heap.createBlock_error hc).2.2.1
  | write => exact hs.of_eq (Heap.blocks_write _ _)
  | setBudget | resetMetrics | remark => exact hs.of_eq rfl

/-- They do so after every loss. -/
theorem Loss.counted {t : Scene} (hl : Loss h K k t) (hs : Counted (h, k ::ₘ K)) : Counted t := by
  cases hl with
  | free hx => exact hs.tail hx.block?
  | leak => exact hs.tail rfl
  | @release p b hb others =>
    refine hs.lose Heap.blocks_releaseStrong hb fun x hx hagree => hagree.release hb ?_
    rwa [Heap.strongCount_eq hx] at others
  | @dispose p b o hb last ho =>
    refine Counted.cons (.of_eq (hs.lose_gain Heap.blocks_takePointee_releaseStrong hb rfl
      fun x hx hagree => hagree.dispose hb ?_) Heap.blocks_beginDestruction) rfl
    rwa [Heap.strongCount_eq hx] at last
  | @disposeNothing p b hb last ho =>
    refine hs.lose_gain Heap.blocks_takePointee_releaseStrong hb rfl
      fun x hx hagree => hagree.dispose hb ?_
    rwa [Heap.strongCount_eq hx] at last
  | @unobserve w b hb =>
    exact hs.lose Heap.blocks_releaseWeak hb fun x _ hx => hx.unobserve hb
  | destroy => exact ((hs.tail rfl).of_eq Heap.blocks_beginDestruction).cons rfl
  | reclaim => exact (hs.tail rfl).of_eq Heap.blocks_endDestruction
  | @giveUp b => exact hs.lose Heap.blocks_giveUpImplicit rfl fun x _ hx => hx.giveUp

theorem Shift.counted {s t : Scene} (hc : Shift Y s t) (hscope : Scoped s) (hs : Counted s) :
    Counted t := by
  cases hc with
  | change hc => exact hc.counted hscope hs
  | relink => exact hs.of_eq rfl

end

end Custody
