import Custody.Proofs.LikePlans

/-!
# Actions in tandem

What each action does to alike machines, side by side.

* `Hears`: replies that are taken for the same. Inside a destructor no notice is taken of them.
* `Machine.Continues`: two machines have performed alike actions. What is due now is alike, and
  before it come the steps of a destructor that has started.
* `Machine.Matches.perform`: so it is for each action. The lemmas before it are of those that have
  more to them: dropping, storing, projecting, and the tables of nodes.
-/

namespace Custody

/-- The replies are the same as far as the strong side goes. Inside a destructor nobody listens. -/
def Hears (inside : Bool) (r s : Reply) : Prop := inside = false → r.heard = s.heard

theorem Hears.of_heard {inside : Bool} {r s : Reply} (h : r.heard = s.heard) : Hears inside r s :=
  fun _ => h

/-! ## First slots -/

section Tables

variable {P : Pairing} {t u : Table}

/-- Where no weak pointer comes first, the strong side is popped alike. -/
theorem Table.popFirst?_strongSide (h : ∀ w rest, t.popFirst? ≠ some (.weak w, rest)) :
    t.strongSide.popFirst? = t.popFirst?.map fun x => (x.1, x.2.strongSide) := by
  cases hpop : t.popFirst? with
  | none => rw [eq_empty_of_popFirst? hpop]; rfl
  | some x =>
    obtain ⟨x, rest⟩ := x
    refine (strongSide_popFirst? hpop).2 (Bool.eq_false_iff.mpr fun hx => ?_)
    obtain ⟨w, rfl⟩ := Slot.isWeak_iff.mp hx
    exact h w rest hpop

/-- Tables with alike entries are alike. -/
theorem Table.alike_of_entries (h : List.Forall₂ (fun e f => e.1 = f.1 ∧ e.2.Alike P f.2) t.entries
    u.entries) : t.Alike P u := by
  intro name
  unfold get?
  generalize t.entries = es, u.entries = fs at h
  induction h with
  | nil => exact .none
  | cons hef _ ih =>
    rw [List.find?_cons, List.find?_cons, hef.1]
    split
    · exact .some hef.2
    · exact ih

/-- Alike tables are popped alike. -/
theorem Table.Alike.popFirst? (h : t.Alike P u) :
    Option.Rel (fun x y => x.1.Alike P y.1 ∧ x.2.Alike P y.2) t.popFirst? u.popFirst? := by
  have hentries := h.entries
  obtain ⟨es, hes⟩ := t
  obtain ⟨fs, hfs⟩ := u
  dsimp only at hentries
  cases hentries with
  | nil => exact .none
  | cons hef hrest =>
    exact .some ⟨hef.2, Table.alike_of_entries hrest⟩

end Tables

/-! ## What is dropped -/

section Drops

variable {P : Pairing} {xs ys : List Slot} {x y : Option Slot} {t u : Table}

/-- Where the strong side is alike, what is to be dropped is. -/
theorem Agenda.alike_drops (h : List.Forall₂ (Slot.Alike P) (xs.filter (!·.isWeak))
    (ys.filter (!·.isWeak))) : Agenda.Alike P (xs.map .drop) (ys.map .drop) := by
  have hweak {x : Slot} (hx : x.isWeak = true) : Action.Hushed (.drop x) := by
    obtain ⟨w, rfl⟩ := Slot.isWeak_iff.mp hx
    exact .drop w
  have hnil {ys : List Slot} (h : ys.filter (!·.isWeak) = []) :
      Agenda.Alike P [] (ys.map .drop) := by
    induction ys with
    | nil => exact .nil
    | cons y ys ih =>
      rw [List.filter_eq_nil_iff] at h
      obtain ⟨hy, hys⟩ := List.forall_mem_cons.mp h
      exact .right (hweak (by simpa using hy)) (ih (List.filter_eq_nil_iff.mpr hys))
  induction xs generalizing ys with
  | nil => exact hnil (List.forall₂_nil_left_iff.mp h)
  | cons x xs ih =>
    cases hx : x.isWeak with
    | true => exact .left (hweak hx) (ih (by simpa [hx] using h))
    | false =>
      induction ys with
      | nil => simp [hx] at h
      | cons y ys ihy =>
        cases hy : y.isWeak with
        | true => exact .right (hweak hy) (ihy (by simpa [hy] using h))
        | false =>
          rw [List.filter_cons_of_pos (by simpa using hx),
            List.filter_cons_of_pos (by simpa using hy)] at h
          obtain ⟨hxy, hrest⟩ := List.forall₂_cons.mp h
          exact .both (.drop hxy) (ih hrest)

/-- What is displaced is dropped on both sides, apart from weak pointers. -/
theorem Agenda.alike_displaced (h : Option.Rel (Slot.Alike P) (x.filter (!·.isWeak))
    (y.filter (!·.isWeak))) : Agenda.Alike P (x.toList.map .drop) (y.toList.map .drop) := by
  have hfilter (z : Option Slot) : z.toList.filter (!·.isWeak) = (z.filter (!·.isWeak)).toList := by
    cases z with
    | none => rfl
    | some z => cases hz : z.isWeak <;> simp [Option.filter, hz]
  refine Agenda.alike_drops ?_
  rw [hfilter, hfilter]
  generalize x.filter (!·.isWeak) = a, y.filter (!·.isWeak) = b at h
  cases h with
  | none => exact .nil
  | some h => exact .cons h .nil

theorem Table.slots_strongSide (t : Table) : t.slots.filter (!·.isWeak) = t.strongSide.slots := by
  simp only [slots, strongSide, List.filter_map]
  rfl

theorem Agenda.alike_slots (h : t.strongSide.Alike P u.strongSide) :
    Agenda.Alike P (t.slots.map .drop) (u.slots.map .drop) := by
  refine Agenda.alike_drops ?_
  rw [Table.slots_strongSide, Table.slots_strongSide]
  exact List.forall₂_map_left_iff.mpr (List.forall₂_map_right_iff.mpr
    (h.entries.imp fun _ _ hxy => hxy.2))

theorem serves_drops (inside : Bool) (xs : List Slot) :
    serves inside 0 (xs.map .drop) = some 0 := by
  have hconsumes : ∀ a ∈ xs.map Action.drop, a.consumes = 0 := by simp [Action.consumes]
  rw [serves_of_consumes_eq_zero hconsumes]
  simp [Action.produces, Function.comp_def]

end Drops

namespace Machine

variable {inside : Bool} {P Q : Pairing} {m n m' n' : Machine} {loc loc' : Location} {x y : Slot}
  {t t' : TableId} {o o' : ObjectId} {as bs : List Action} {rs ss base base' : List Reply}

/-! ## Going on -/

/-- The machines `m` and `n` have performed alike actions and gone over to `m'` and `n'`. The steps
of the destructor that has started, if one has, come first; what comes then is alike. The replies
of the actions, now and with what they lead to, are so many. -/
inductive Continues (inside : Bool) (P : Pairing) (yields : Nat) (base base' : List Reply)
    (m n m' n' : Machine) : Prop
  | intro (Q : Pairing) (node : Int64) (onDrop : List Step) (as bs : List Action)
      (rs ss : List Reply) (extension : P.Extends Q m.heap n.heap) (matched : m'.Matches Q n')
      (left : m'.env.agenda = execAll node onDrop ++ (as ++ m.env.agenda))
      (right : n'.env.agenda = execAll node onDrop ++ (bs ++ n.env.agenda))
      (alike : Agenda.Alike Q as bs) (replies : m'.env.replies = rs ++ base)
      (replies' : n'.env.replies = ss ++ base') (hears : List.Forall₂ (Hears inside) rs ss)
      (serves : Custody.serves inside rs.length as = some yields)

/-- No destructor has started. -/
theorem Continues.plain {yields : Nat} (hears : List.Forall₂ (Hears inside) rs ss)
    (halike : Agenda.Alike Q as bs) (hPQ : P.Extends Q m.heap n.heap) (hmatched : m'.Matches Q n')
    (hleft : m'.env.agenda = as ++ m.env.agenda) (hright : n'.env.agenda = bs ++ n.env.agenda)
    (hreplies : m'.env.replies = rs ++ base) (hreplies' : n'.env.replies = ss ++ base')
    (hserves : serves inside rs.length as = some yields) :
    Continues inside P yields base base' m n m' n' :=
  ⟨Q, 0, [], as, bs, rs, ss, hPQ, hmatched, hleft, hright, halike, hreplies, hreplies', hears,
    hserves⟩

/-- Nothing new is paired. -/
theorem Continues.due {yields : Nat} (hears : List.Forall₂ (Hears inside) rs ss)
    (halike : Agenda.Alike P as bs) (h : m'.Matches P n')
    (hm : m'.env.agenda = as ++ m.env.agenda) (hn : n'.env.agenda = bs ++ n.env.agenda)
    (hr : m'.env.replies = rs ++ base) (hs : n'.env.replies = ss ++ base')
    (hserves : serves inside rs.length as = some yields) :
    Continues inside P yields base base' m n m' n' :=
  .plain hears halike (.refl _ _ _) h hm hn hr hs hserves

/-- Nothing is left to be done. -/
theorem Continues.only (hears : List.Forall₂ (Hears inside) rs ss) (h : m'.Matches P n')
    (hm : m'.env.agenda = m.env.agenda) (hn : n'.env.agenda = n.env.agenda)
    (hr : m'.env.replies = rs ++ base) (hs : n'.env.replies = ss ++ base') :
    Continues inside P rs.length base base' m n m' n' :=
  .due hears .nil h hm hn hr hs rfl

namespace Matches

theorem takeOut (h : m.Matches P n) {ls ls' : List Location}
    (hl : List.Forall₂ (Location.Alike P) ls ls') : (m.takeOut ls).Matches P (n.takeOut ls') := by
  induction hl generalizing m n with
  | nil => exact h
  | cons hl _ ih =>
    rw [takeOut_cons, takeOut_cons]
    refine ih (h.withTable hl.table ?_)
    rw [Table.strongSide_erase, Table.strongSide_erase, hl.name]
    exact (h.table hl.table).erase _

/-- A call whose operands are taken out, and the actions that it leaves. -/
theorem carryOut (h : m.Matches P n) {e f : Effect} {c yields : Nat}
    (ht : List.Forall₂ (Location.Alike P) e.taken f.taken)
    (hc : ∀ h k, h.estate.Alike P k.estate → Concurs P h k
      (fun Q as bs => Agenda.Alike Q as bs ∧ serves false c as = some yields) (e.call h) (f.call k))
    (hears : List.Forall₂ (Hears inside) rs ss) (hlength : rs.length = c)
    (hm : m.env.replies = rs ++ base) (hn : n.env.replies = ss ++ base') :
    Continues inside P yields base base' m n (m.carryOut e) (n.carryOut f) := by
  have hout := h.takeOut ht
  obtain ⟨Q, hQ, halike, hagenda, hserves⟩ := hc _ _ hout.estate
  have hQ' : P.Extends Q m.heap n.heap := by
    refine ⟨hQ.le, fun o o' ho => ?_⟩
    simpa only [size_takeOut] using hQ.fresh o o' ho
  refine .plain hears hagenda hQ' ⟨halike, ?_, ?_⟩ (agenda_carryOut e) (agenda_carryOut f)
    ((replies_carryOut e).trans hm) ((replies_carryOut f).trans hn)
    (serves_inside (hlength ▸ hserves) inside)
  · exact hout.root.mono hQ.le
  · exact hout.running.imp hQ.le.2

theorem store (h : m.Matches P n) (hl : loc.Alike P loc') (hx : x.Alike P y) :
    (m.store loc x).Matches P (n.store loc' y) := by
  have hinsert : (m.insert loc x).Matches P (n.insert loc' y) := by
    refine h.withTable hl.table ?_
    rw [Table.strongSide_insert hx.isWeak.1, Table.strongSide_insert hx.isWeak.2, hl.name]
    exact (h.table hl.table).insert hx _
  exact ⟨hinsert.estate, hinsert.root, hinsert.running⟩

/-- What is displaced is alike, but for weak pointers. -/
theorem displaced (h : m.Matches P n) (hl : loc.Alike P loc') :
    Agenda.Alike P ((m.get? loc).toList.map .drop) ((n.get? loc').toList.map .drop) := by
  refine Agenda.alike_displaced ?_
  have := h.table hl.table loc.name
  rw [Table.get?_strongSide, Table.get?_strongSide] at this
  rw [get?, get?, ← hl.name]
  exact this

/-! ### Destructors -/

/-- The destructors of paired objects start before what is due in front. -/
theorem startDestructor (h : m'.Matches P n') (ho : P.object o o') (halike : Agenda.Alike P as bs)
    (hserves : serves inside 0 as = some 0) (hm : m'.env.agenda = as ++ m.env.agenda)
    (hn : n'.env.agenda = bs ++ n.env.agenda) :
    Continues inside P 0 m'.env.replies n'.env.replies m n (m'.startDestructor o)
      (n'.startDestructor o') := by
  obtain ⟨x, y, hx, hy, hxy⟩ := h.estate.object.alike ho
  have hpointee : (m'.heap.beginDestruction o).2 = (n'.heap.beginDestruction o').2 := by
    obtain ⟨x, hx', rfl⟩ := Option.map_eq_some_iff.mp hx
    obtain ⟨y, hy', rfl⟩ := Option.map_eq_some_iff.mp hy
    have hcontent : x.content = y.content := hxy.content
    have honDrop : x.onDrop = y.onDrop := hxy.onDrop
    simp only [Heap.beginDestruction, hx', hy', hcontent, honDrop]
  have hestate : (m'.heap.beginDestruction o).1.estate.Alike P
      (n'.heap.beginDestruction o').1.estate := by
    rw [Heap.estate_beginDestruction, Heap.estate_beginDestruction]
    exact h.estate.modifyObject ho fun x y hxy => ⟨hxy.content, rfl, rfl, hxy.serial, hxy.links⟩
  have hend : Agenda.Alike P ([.unlink o, .reclaim o] ++ as) ([.unlink o', .reclaim o'] ++ bs) :=
    .both (.unlink ho) (.both (.reclaim ho) halike)
  have hroot := h.root
  have hrunning := h.running
  obtain ⟨g, env⟩ := m'
  obtain ⟨k, env'⟩ := n'
  simp only [Machine.startDestructor, onHeap, hpointee]
  split
  · next node _ =>
    refine ⟨P, node.id, (k.beginDestruction o').2.onDrop, .leave :: ([.unlink o, .reclaim o] ++ as),
      .leave :: ([.unlink o', .reclaim o'] ++ bs), [], [], .refl _ _ _,
      ⟨hestate, hroot, .cons ho hrunning⟩, ?_, ?_, .both .leave hend, rfl, rfl, .nil, ?_⟩
    · simpa [mapHeap, mapEnv] using hm
    · simpa [mapHeap, mapEnv] using hn
    · simpa [serves, Action.consumes, Action.produces, Action.isDid] using hserves
  · refine .due .nil hend ⟨hestate, hroot, hrunning⟩ ?_ ?_ rfl rfl ?_
    · simpa using hm
    · simpa using hn
    · simpa [serves, Action.consumes, Action.produces, Action.isDid] using hserves

/-- The destructors that start are of paired objects. -/
theorem starts? (h : m.Matches P n) (hxy : x.Alike P y) :
    Option.Rel P.object ((Stake.pointer x).starts? m.heap) ((Stake.pointer y).starts? n.heap) := by
  cases hxy with
  | unique hu => exact hu.object
  | raw => exact .none
  | strong hp =>
    refine Option.Rel.bind hp.block fun b c hbc => ?_
    rw [h.estate.strongCount hbc]
    split
    · obtain ⟨s, s', hs, hs', hss⟩ := h.estate.block.alike hbc
      rw [Heap.pointee_estate, Heap.pointee_estate, hs, hs']
      exact hss.pointee
    · exact .none

/-- Strong references on paired blocks go alike, with their pointees where they are the last ones.
-/
theorem releaseOwner (h : m.Matches P n) {b c : BlockId} (hbc : P.block b c) :
    Continues inside P 0 m.env.replies n.env.replies m n (m.releaseOwner b) (n.releaseOwner c) := by
  have hroot := h.root
  have hrunning := h.running
  have hcount := h.estate.strongCount hbc
  have hreleased : (m.heap.releaseStrong b).1.estate.Alike P (n.heap.releaseStrong c).1.estate := by
    rw [Heap.estate_releaseStrong, Heap.estate_releaseStrong]
    exact h.estate.modifyBlock hbc fun s t hst => ⟨congrArg (· - 1) hst.strong, hst.pointee⟩
  have htaken : ((m.heap.releaseStrong b).1.takePointee b).1.estate.Alike P
      ((n.heap.releaseStrong c).1.takePointee c).1.estate := by
    rw [Heap.estate_takePointee, Heap.estate_takePointee]
    exact hreleased.modifyBlock hbc fun s t hst => ⟨hst.strong, .none⟩
  obtain ⟨s, s', hs, hs', hss⟩ := h.estate.block.alike hbc
  have hpointee := hss.pointee
  have hgive : Agenda.Alike P [.giveUpImplicit b] [.giveUpImplicit c] :=
    .left (.giveUp b) (.right (.giveUp c) .nil)
  obtain ⟨g, env⟩ := m
  obtain ⟨k, env'⟩ := n
  have hs : g.blocks[b]?.bind (·.pointee) = s.pointee := by rw [Heap.pointee_estate, hs]; rfl
  have hs' : k.blocks[c]?.bind (·.pointee) = s'.pointee := by rw [Heap.pointee_estate, hs']; rfl
  by_cases last : g.strongCount b = 1
  · rw [releaseOwner_last last, releaseOwner_last (hcount ▸ last), hs, hs']
    generalize s.pointee = a, s'.pointee = a' at hpointee
    cases hpointee with
    | none => exact .due .nil hgive ⟨htaken, hroot, hrunning⟩ rfl rfl rfl rfl rfl
    | some ho =>
      have hmatched : (schedule [.giveUpImplicit b] ⟨_, env⟩).Matches P
          (schedule [.giveUpImplicit c] ⟨_, env'⟩) := ⟨htaken, hroot, hrunning⟩
      exact hmatched.startDestructor ho hgive rfl rfl rfl
  · rw [releaseOwner_others last, releaseOwner_others (hcount ▸ last)]
    exact .only .nil ⟨hreleased, hroot, hrunning⟩ rfl rfl rfl rfl

/-- Alike slots are dropped alike. -/
theorem dropSlot (h : m.Matches P n) (hxy : x.Alike P y) :
    Continues inside P 0 m.env.replies n.env.replies m n (m.dropSlot x) (n.dropSlot y) := by
  have hsame : Continues inside P 0 m.env.replies n.env.replies m n m n :=
    .only .nil h rfl rfl rfl rfl
  cases hxy with
  | raw => exact hsame
  | @strong p q hp =>
    obtain ⟨k, b, v⟩ := p
    obtain ⟨k', c, v'⟩ := q
    have hblock : Option.Rel P.block b c := hp.block
    cases hblock with
    | none => exact hsame
    | some hbc => exact h.releaseOwner hbc
  | @unique u v hu =>
    obtain ⟨k, a, o⟩ := u
    obtain ⟨k', a', o'⟩ := v
    have hobject : Option.Rel P.object o o' := hu.object
    cases hobject with
    | none => exact hsame
    | some ho => exact h.startDestructor ho .nil rfl rfl rfl

/-- Tables whose first slots are not weak pointers go on to be emptied alike. -/
theorem unlink (h : m.Matches P n) (ho : P.object o o')
    (hm : ∀ w rest, (m.table (.links o)).popFirst? ≠ some (.weak w, rest))
    (hn : ∀ w rest, (n.table (.links o')).popFirst? ≠ some (.weak w, rest)) :
    Continues inside P 0 m.env.replies n.env.replies m n (m.emptyOut (.links o) (.unlink o))
      (n.emptyOut (.links o') (.unlink o')) := by
  have hpop := (h.table (.links ho)).popFirst?
  rw [Table.popFirst?_strongSide hm, Table.popFirst?_strongSide hn] at hpop
  unfold emptyOut
  generalize (m.table (.links o)).popFirst? = a, (n.table (.links o')).popFirst? = b at hpop
  cases a <;> cases b <;> cases hpop
  · exact .only .nil h rfl rfl rfl rfl
  · next x y hxy =>
    have hmatched := h.withTable (.links ho) hxy.2
    exact .due .nil (.both (.drop hxy.1) (.one (.unlink ho)))
      ⟨hmatched.estate, hmatched.root, hmatched.running⟩ rfl rfl rfl rfl rfl

/-- The tables of dead nodes go on both sides or on neither. -/
theorem letGo (h : m.Matches P n) (ht : t.Alike P t')
    (hworks : ∀ o o', P.object o o' → m.env.agenda.any (·.worksOn (.links o)) =
      n.env.agenda.any (·.worksOn (.links o'))) :
    Continues inside P 0 m.env.replies n.env.replies m n (m.letGoOf t) (n.letGoOf t') := by
  have hsame : Continues inside P 0 m.env.replies n.env.replies m n m n :=
    .only .nil h rfl rfl rfl rfl
  cases ht with
  | root => exact hsame
  | links ho =>
    simp only [letGoOf, h.isGone (.links ho), hworks _ _ ho]
    split
    · have hempty : Table.empty.strongSide.Alike P Table.empty.strongSide := Table.alike_empty
      have hmatched := h.withTable (.links ho) hempty
      exact .due .nil (Agenda.alike_slots (h.table (.links ho)))
        ⟨hmatched.estate, hmatched.root, hmatched.running⟩ rfl rfl rfl rfl (serves_drops _ _)
    · exact hsame

end Matches

end Machine

/-! ## What is placed -/

/-- The reply when a pointer is in its place. -/
def Form.placed (form : Form) (r : Reply) (c : Counts) : Reply :=
  match form, r with
  | .during, .list replies => .placedDuring c replies
  | .promoted same null, _ => .promoted c same null
  | _, _ => .placed c

theorem Form.heard_placed_during (r : Reply) (c : Counts) : (during.placed r c).heard =
    match r.heard with
    | .list replies => .placedDuring c.heard replies
    | _ => .placed c.heard := by
  cases r <;> rfl

theorem Form.heard_placed (form : Form) {r s : Reply} {c d : Counts}
    (hrs : form = .during → r.heard = s.heard) (hcd : c.heard = d.heard) :
    (form.placed r c).heard = (form.placed s d).heard := by
  cases form with
  | plain => exact congrArg Reply.placed hcd
  | promoted same null => exact congrArg (Reply.promoted · same null) hcd
  | during => rw [heard_placed_during, heard_placed_during, hrs rfl, hcd]

namespace Machine

variable {inside : Bool} {P Q : Pairing} {m n m' n' : Machine} {loc loc' : Location} {x y : Slot}
  {t t' : TableId} {o o' : ObjectId} {as bs : List Action} {rs ss base base' : List Reply}

/-- A placement fails where the path leads nowhere, and the slot is dropped. Else it replies, and the
slot is stored. -/
theorem perform_place (m : Machine) (x : Slot) (dst : Path) (form : Form) {k : Machine}
    (hk : (m.takeReplies (Action.place x dst form).consumes).1 = k) :
    m.perform (.place x dst form) =
      (m.resolve? dst).elim ((k.reply (.failed .noSlot)).schedule [.drop x])
        ((k.reply (form.placed m.takeReply.2 (x.counts m.heap))).store · x) := by
  subst hk
  obtain ⟨g, env⟩ := m
  cases form with
  | plain | promoted =>
    simp only [perform, placeAt]
    cases resolve? ⟨g, env⟩ dst <;> rfl
  | during =>
    have htake : resolve? (takeReply ⟨g, env⟩).1 dst = resolve? ⟨g, env⟩ dst := rfl
    simp only [perform, placeAt, htake]
    cases resolve? ⟨g, env⟩ dst <;> rfl

namespace Matches

/-- A slot is stored, and what it displaces is dropped. -/
theorem storing (h : m'.Matches P n') (hl : loc.Alike P loc') (hx : x.Alike P y)
    (hears : List.Forall₂ (Hears inside) rs ss) (hm : m'.env.agenda = m.env.agenda)
    (hn : n'.env.agenda = n.env.agenda) (hr : m'.env.replies = rs ++ base)
    (hs : n'.env.replies = ss ++ base') :
    Continues inside P rs.length base base' m n (m'.store loc x) (n'.store loc' y) := by
  refine .due hears (h.displaced hl) (h.store hl hx) ((agenda_store _ _).trans (by rw [hm]))
    ((agenda_store _ _).trans (by rw [hn])) ((replies_store _ _).trans hr)
    ((replies_store _ _).trans hs) ?_
  simpa using serves_add (serves_drops inside (m'.get? loc).toList) rs.length

/-- A slot goes to where a path leads, or is dropped. -/
theorem placing (h : m'.Matches P n') (hx : x.Alike P y) {l l' : Option Location}
    (hl : Option.Rel (Location.Alike P) l l') (hm : m'.env.agenda = m.env.agenda)
    (hn : n'.env.agenda = n.env.agenda) (hr : m'.env.replies = base) (hs : n'.env.replies = base')
    {r s : Reply} (hrs : Hears inside r s) :
    Continues inside P 1 base base' m n
      (l.elim ((m'.reply (.failed .noSlot)).schedule [.drop x]) ((m'.reply r).store · x))
      (l'.elim ((n'.reply (.failed .noSlot)).schedule [.drop y]) ((n'.reply s).store · y)) := by
  have hreply (r s : Reply) : (m'.reply r).Matches P (n'.reply s) :=
    ⟨h.estate, h.root, h.running⟩
  cases hl with
  | some hl =>
    exact (hreply r s).storing hl hx (.cons hrs .nil) hm hn (congrArg (List.cons r) hr)
      (congrArg (List.cons s) hs)
  | none =>
    have hfailed : Hears inside (.failed .noSlot) (.failed .noSlot) := .of_heard rfl
    have hmatched : ((m'.reply (.failed .noSlot)).schedule [.drop x]).Matches P
        ((n'.reply (.failed .noSlot)).schedule [.drop y]) := ⟨h.estate, h.root, h.running⟩
    exact .due (.cons hfailed .nil) (.one (.drop hx)) hmatched
      (congrArg (List.cons (Action.drop x)) hm) (congrArg (List.cons (Action.drop y)) hn)
      (congrArg (List.cons (Reply.failed .noSlot)) hr)
      (congrArg (List.cons (Reply.failed .noSlot)) hs) rfl

/-- Alike slots are placed alike. -/
theorem place (h : m.Matches P n) (hx : x.Alike P y) (dst : Path) (form : Form)
    (hr : m.env.replies = rs ++ base) (hs : n.env.replies = ss ++ base')
    (hears : List.Forall₂ (Hears inside) rs ss)
    (hlength : rs.length = (Action.place x dst form).consumes) :
    Continues inside P 1 base base' m n (m.perform (.place x dst form))
      (n.perform (.place y dst form)) := by
  have hconsumes : (Action.place x dst form).consumes = (Action.place y dst form).consumes := by
    cases form <;> rfl
  have hbase : (m.takeReplies (Action.place x dst form).consumes).1.env.replies = base := by
    simp [takeReplies, hr, ← hlength]
  have hbase' : (n.takeReplies (Action.place y dst form).consumes).1.env.replies = base' := by
    simp [takeReplies, hs, ← hconsumes, ← hlength, hears.length_eq]
  have hheard : Hears inside (form.placed m.takeReply.2 (x.counts m.heap))
      (form.placed n.takeReply.2 (y.counts n.heap)) := by
    refine fun hinside => form.heard_placed ?_ (h.estate.counts hx)
    rintro rfl
    obtain ⟨r, rfl⟩ := List.length_eq_one_iff.mp hlength
    obtain ⟨s, _, hrs, -, rfl⟩ := List.forall₂_cons_left_iff.mp hears
    simpa [takeReply, takeReplies, hr, hs] using hrs hinside
  rw [perform_place m x dst form rfl, perform_place n y dst form rfl]
  have hmatched : (m.takeReplies (Action.place x dst form).consumes).1.Matches P
      (n.takeReplies (Action.place y dst form).consumes).1 := ⟨h.estate, h.root, h.running⟩
  have hagenda (k : Machine) (c : Nat) : (k.takeReplies c).1.env.agenda = k.env.agenda := rfl
  exact hmatched.placing hx (h.resolve? dst) (hagenda m _) (hagenda n _) hbase hbase' hheard

end Matches

end Machine

/-! ## Projections -/

section Projections

variable {P : Pairing} {i j : Projection} {p q : Strong} {h k : Heap}

theorem Projection.Alike.part? (hj : i.Alike P j) (he : h.estate.Alike P k.estate)
    (hp : p.Alike P q) : Option.Rel (Place.Alike P) (i.part? h p) (j.part? k q) := by
  refine Option.Rel.bind hp.view fun v u hvu => ?_
  rw [he.read? hvu, hj.selector, hp.kind]
  cases k.read? u with
  | none => exact .none
  | some c =>
    simp only [Option.bind_eq_bind, Option.bind_some]
    cases j.selector.path? q.kind c with
    | none => exact .none
    | some path => exact .some (hvu.into path)

/-- Alike projections yield alike views. -/
theorem Projection.Alike.view (hj : i.Alike P j) (he : h.estate.Alike P k.estate)
    (hp : p.Alike P q) : Option.Rel (Place.Alike P) (i.view h p) (j.view k q) := by
  have hpart := hj.part? he hp
  have hview := hp.view
  unfold Projection.view
  generalize i.part? h p = a, j.part? k q = b at hpart
  generalize p.view = v, q.view = u at hview
  cases hview with
  | none => exact .none
  | some =>
    cases hpart with
    | some hab => exact .some hab
    | none =>
      rw [hj.target]
      cases Static.ofKind? j.target with
      | none => exact .none
      | some s => exact .some (Place.alike_static s)

end Projections

namespace Machine

variable {inside : Bool} {P Q : Pairing} {m n m' n' : Machine} {a b : Action}
  {rs ss base base' : List Reply}

namespace Matches

/-- Alike projections end alike. -/
theorem project (h : m.Matches P n) {i j : Projection} {p q : Strong} (hj : i.Alike P j)
    (hp : p.Alike P q) (total : Bool) (hr : m.env.replies = rs ++ base)
    (hs : n.env.replies = ss ++ base') (hears : List.Forall₂ (Hears inside) rs ss)
    (hlength : rs.length = (Action.project i p total).consumes) :
    Continues inside P 1 base base' m n (m.finishProjection i p total)
      (n.finishProjection j q total) := by
  unfold finishProjection
  refine h.carryOut .nil (fun g k he => ?_) hears hlength hr hs
  have hview : Option.Rel (Place.Alike P) (if total then i.view g p else i.part? g p)
      (if total then j.view k q else j.part? k q) := by
    split
    · exact hj.view he hp
    · exact hj.part? he hp
  simp only [Effect.closing]
  generalize (if total then i.view g p else i.part? g p) = v,
    (if total then j.view k q else j.part? k q) = u at hview
  have hmade : Concurs P g k (fun Q x y => x.Alike Q y)
      (if total || v.isSome then p.aliasing i.target v g else (g, .null i.target))
      (if total || u.isSome then q.aliasing j.target u k else (k, .null j.target)) := by
    rw [Option.Rel.isSome hview, hj.target]
    split
    · exact .same (he.acquire hp.block) ⟨rfl, hp.block, hview⟩
    · exact .same he (Strong.alike_null _)
  generalize (if total || v.isSome then p.aliasing i.target v g else (g, .null i.target)) = made,
    (if total || u.isSome then q.aliasing j.target u k else (k, .null j.target)) = made' at hmade
  obtain ⟨Q, hQ, halike, hxy⟩ := hmade
  have hsource := hj.source.mono hQ.le
  have hdst : (i.dst, i.form) = (j.dst, j.form) := by
    rw [Projection.form, Projection.form, hj.dst, hj.listed]
  have hsettled : Settlement.Alike Q
      { operands := [(i.source, .strong p)], made := some (.strong made.2, i.dst, i.form) }
      { operands := [(j.source, .strong q)], made := some (.strong made'.2, j.dst, j.form) } :=
    ⟨.nil, .cons ⟨hsource, .strong (hp.mono hQ.le)⟩ .nil, rfl, .some ⟨.strong hxy, hdst⟩, .none⟩
  refine ⟨Q, hQ, halike, hsettled.actions (.cons hsource.table .nil), ?_⟩
  obtain ⟨⟨t, name⟩, selector, target, dst, listed⟩ := i
  cases t <;> cases listed <;> rfl

/-! ## All actions -/

/-- The replies of the last rounds are taken as one. -/
theorem gather (h : m.Matches P n) (hr : m.env.replies = rs ++ base)
    (hs : n.env.replies = ss ++ base') (hears : List.Forall₂ (Hears inside) rs ss) :
    Continues inside P 1 base base' m n (m.perform (.gather rs.length))
      (n.perform (.gather rs.length)) := by
  have hlist : Hears inside (.list rs.reverse) (.list ss.reverse) := by
    intro hinside
    have heard : List.Forall₂ (· = ·) (rs.map Reply.heard) (ss.map Reply.heard) :=
      List.forall₂_map_left_iff.mpr (List.forall₂_map_right_iff.mpr
        (hears.imp fun _ _ hrs => hrs hinside))
    rw [List.forall₂_eq_eq_eq] at heard
    simp only [Reply.heard, Reply.heardAll_eq_map, List.map_reverse, heard]
  refine .only (.cons hlist .nil) ⟨h.estate, h.root, h.running⟩ rfl rfl ?_ ?_
  · simp [perform, takeReplies, reply, mapEnv, hr]
  · simp [perform, takeReplies, reply, mapEnv, hs, hears.length_eq]

/-- Rounds of one body are alike, whatever the body is. -/
theorem round (h : m.Matches P n) (k : Nat) (body : List Step) :
    Continues inside P 1 m.env.replies n.env.replies m n (m.schedule (roundOf k body))
      (n.schedule (roundOf k body)) := by
  have hexec : serves inside 0 (body.map .exec) = some body.length := by
    have hconsumes : ∀ a ∈ body.map Action.exec, a.consumes = 0 := by simp [Action.consumes]
    simpa [Function.comp_def, Action.produces] using serves_of_consumes_eq_zero hconsumes inside 0
  have hround : Agenda.Alike P (roundOf k body) (roundOf k body) ∧
      serves inside 0 (roundOf k body) = some 1 := by
    unfold roundOf
    split
    · exact ⟨.one (.answer rfl), rfl⟩
    · refine ⟨.append (.refl_exec body) (.one (.gather _)), ?_⟩
      simp [serves_append, hexec, serves, Action.consumes, Action.produces, Action.isDid]
    · refine ⟨.append (.refl_exec body) (.both (.forget _) (.one (.round _ body))), ?_⟩
      simp [serves_append, hexec, serves, Action.consumes, Action.produces, Action.isDid]
  exact .due .nil hround.1 ⟨h.estate, h.root, h.running⟩ rfl rfl rfl rfl hround.2

/-- Alike machines perform alike actions and go on alike. The tables of nodes are emptied in step
where no weak pointer comes first. -/
theorem perform (h : m.Matches P n) (hab : a.Alike P b) (hr : m.env.replies = rs ++ base)
    (hs : n.env.replies = ss ++ base') (hears : List.Forall₂ (Hears inside) rs ss)
    (hlength : rs.length = a.consumes)
    (hexec : ∀ s, a = .exec s → PlansAlike P (m.plan s) (n.plan s))
    (hworks : ∀ o o', P.object o o' → m.env.agenda.any (·.worksOn (.links o)) =
      n.env.agenda.any (·.worksOn (.links o')))
    (hfirst : ∀ o o', a = .unlink o → b = .unlink o' →
      (∀ w rest, (m.table (.links o)).popFirst? ≠ some (.weak w, rest)) ∧
        ∀ w rest, (n.table (.links o')).popFirst? ≠ some (.weak w, rest)) :
    Continues inside P a.produces base base' m n (m.perform a) (n.perform b) := by
  -- most actions want no replies
  have hnone (hc : a.consumes = 0) : m.env.replies = base ∧ n.env.replies = base' := by
    obtain rfl := List.length_eq_zero_iff.mp (hlength.trans hc)
    obtain rfl := List.forall₂_nil_left_iff.mp hears
    exact ⟨hr, hs⟩
  have hreply {r s : Reply} (hrs : Hears inside r s) (hr : m.env.replies = base)
      (hs : n.env.replies = base') :
      Continues inside P 1 base base' m n (m.reply r) (n.reply s) :=
    .only (.cons hrs .nil) ⟨h.estate, h.root, h.running⟩ rfl rfl (congrArg (List.cons r) hr)
      (congrArg (List.cons s) hs)
  cases hab with
  | exec s =>
    obtain ⟨hr, hs⟩ := hnone rfl
    have hplan := hexec s rfl
    simp only [Machine.perform]
    generalize m.plan s = e, n.plan s = f at hplan
    cases hplan with
    | ok hef => exact h.carryOut hef.taken hef.call .nil rfl hr hs
    | error l => exact hreply (.of_heard rfl) hr hs
  | drop hx =>
    obtain ⟨rfl, rfl⟩ := hnone rfl
    exact h.dropSlot hx
  | did node =>
    obtain ⟨r, rfl⟩ := List.length_eq_one_iff.mp hlength
    obtain ⟨s, _, -, hnil, rfl⟩ := List.forall₂_cons_left_iff.mp hears
    obtain rfl := List.forall₂_nil_left_iff.mp hnil
    refine .only .nil ⟨h.estate, h.root, h.running⟩ rfl rfl ?_ ?_
    · simp [Machine.perform, takeReply, takeReplies, mapHeap, hr]
    · simp [Machine.perform, takeReply, takeReplies, mapHeap, hs]
  | leave =>
    obtain ⟨rfl, rfl⟩ := hnone rfl
    refine .only .nil ⟨h.estate, h.root, ?_⟩ rfl rfl rfl rfl
    simpa [Machine.perform, mapEnv, ← List.drop_one] using List.forall₂_drop 1 h.running
  | unlink ho =>
    obtain ⟨rfl, rfl⟩ := hnone rfl
    obtain ⟨hm, hn⟩ := hfirst _ _ rfl rfl
    exact h.unlink ho hm hn
  | @reclaim o o' ho =>
    obtain ⟨rfl, rfl⟩ := hnone rfl
    refine .only .nil ⟨?_, h.root, h.running⟩ rfl rfl rfl rfl
    have hgone := h.estate.modifyObject ho (F := fun x => { x with phase := .gone })
      (G := fun y => { y with phase := .gone })
      fun x y hxy => ⟨hxy.content, hxy.onDrop, rfl, hxy.serial, hxy.links⟩
    rwa [← Heap.estate_endDestruction, ← Heap.estate_endDestruction] at hgone
  | @putBack l l' x y hl hx counted =>
    obtain ⟨hr, hs⟩ := hnone rfl
    cases counted with
    | false => exact h.storing hl hx .nil rfl rfl hr hs
    | true =>
      have hcounts : Hears inside (.placed (x.counts m.heap)) (.placed (y.counts n.heap)) :=
        .of_heard (congrArg Reply.placed (h.estate.counts hx))
      have hmatched : (m.reply (.placed (x.counts m.heap))).Matches P
          (n.reply (.placed (y.counts n.heap))) := ⟨h.estate, h.root, h.running⟩
      exact hmatched.storing hl hx (.cons hcounts .nil) rfl rfl (congrArg (List.cons _) hr)
        (congrArg (List.cons _) hs)
  | place hx dst form => exact h.place hx dst form hr hs hears hlength
  | answer hrs =>
    obtain ⟨hr, hs⟩ := hnone rfl
    exact hreply (.of_heard hrs) hr hs
  | letGo ht =>
    obtain ⟨rfl, rfl⟩ := hnone rfl
    exact h.letGo ht hworks
  | gather k =>
    obtain rfl : rs.length = k := hlength
    exact h.gather hr hs hears
  | forget k =>
    obtain rfl : rs.length = k := hlength
    refine .only .nil ⟨h.estate, h.root, h.running⟩ rfl rfl ?_ ?_
    · simp [Machine.perform, takeReplies, hr]
    · simp [Machine.perform, takeReplies, hs, hears.length_eq]
  | round k body =>
    obtain ⟨rfl, rfl⟩ := hnone rfl
    exact h.round k body
  | project hj hp total => exact h.project hj hp total hr hs hears hlength

end Matches

end Machine

end Custody
