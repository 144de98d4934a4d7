import Custody.Pointer

/-!
# Tables of named slots

* `Table`: slots by name, in rising order of the names.
* `Table.get?`, `Table.insert`, `Table.erase`, `Table.popFirst?`.
* `Table.get?_insert`, `Table.get?_erase`: what is found after a change.
* `Table.slots_insert`, `Table.slots_perm_erase`: what is held after one.
-/

namespace Custody

/-- Each name is there at most once. -/
structure Table where
  entries : List (String × Slot)
  rising : entries.Pairwise (fun a b => a.1 < b.1)
  deriving DecidableEq, Repr

namespace Table

/-- The table without slots. -/
def empty : Table := ⟨[], .nil⟩

instance : Inhabited Table := ⟨empty⟩

/-- The names in use, from the smallest on. -/
def names (t : Table) : List String := t.entries.map (·.1)

/-- The slots, by rising names. -/
def slots (t : Table) : List Slot := t.entries.map (·.2)

/-- The slot under the name. -/
def get? (t : Table) (name : String) : Option Slot :=
  (t.entries.find? (·.1 == name)).map (·.2)

/-! ## Insertion -/

/-- The entries with `x` under the name, in place of what was there. -/
def insertEntry (name : String) (x : Slot) : List (String × Slot) → List (String × Slot)
  | [] => [(name, x)]
  | (n, y) :: rest =>
    if name < n then (name, x) :: (n, y) :: rest
    else if name = n then (name, x) :: rest
    else (n, y) :: insertEntry name x rest

/-- What is in a table after an insertion is the new slot, or was there. -/
theorem mem_insertEntry {name : String} {x : Slot} {es : List (String × Slot)}
    {e : String × Slot} (h : e ∈ insertEntry name x es) : e = (name, x) ∨ e ∈ es := by
  induction es with
  | nil => exact .inl (List.mem_singleton.mp h)
  | cons d rest ih =>
    simp only [insertEntry] at h
    split at h
    · exact List.mem_cons.mp h
    · split at h
      · rcases List.mem_cons.mp h with h | h
        · exact .inl h
        · exact .inr (List.mem_cons_of_mem _ h)
      · rcases List.mem_cons.mp h with h | h
        · exact .inr (h ▸ List.mem_cons_self)
        · exact (ih h).imp_right (List.mem_cons_of_mem _)

theorem lt_of_not_lt_of_ne {a b : String} (h : ¬ a < b) (hne : a ≠ b) : b < a :=
  Std.lt_of_le_of_ne (Std.not_lt.mp h) (Ne.symm hne)

/-- Names stay in order. -/
theorem rising_insertEntry {es : List (String × Slot)} (name : String) (x : Slot)
    (h : es.Pairwise (fun a b => a.1 < b.1)) :
    (insertEntry name x es).Pairwise (fun a b => a.1 < b.1) := by
  induction es with
  | nil => exact List.pairwise_singleton _ _
  | cons d rest ih =>
    obtain ⟨hd, hr⟩ := List.pairwise_cons.mp h
    simp only [insertEntry]
    split
    · next hlt =>
      refine List.pairwise_cons.mpr ⟨fun e he => ?_, h⟩
      rcases List.mem_cons.mp he with rfl | he
      · exact hlt
      · exact String.lt_trans hlt (hd e he)
    · next hlt =>
      split
      · next heq => exact List.pairwise_cons.mpr ⟨fun e he => heq ▸ hd e he, hr⟩
      · next hne =>
        refine List.pairwise_cons.mpr ⟨fun e he => ?_, ih hr⟩
        rcases mem_insertEntry he with rfl | he
        · exact lt_of_not_lt_of_ne hlt hne
        · exact hd e he

/-- Puts `x` under `name`, in place of what was there. -/
def insert (t : Table) (name : String) (x : Slot) : Table :=
  ⟨insertEntry name x t.entries, rising_insertEntry name x t.rising⟩

/-- Only what is under the name changes. -/
theorem find?_insertEntry (name other : String) (x : Slot) (es : List (String × Slot)) :
    (insertEntry name x es).find? (·.1 == other) =
      if name = other then some (name, x) else es.find? (·.1 == other) := by
  induction es with
  | nil => by_cases h : name = other <;> simp [insertEntry, h]
  | cons d rest ih =>
    simp only [insertEntry]
    split
    · by_cases h : name = other <;> simp [h]
    · split
      · next heq => by_cases h : name = other <;> simp_all
      · next hne =>
        by_cases hd : d.1 = other
        · subst hd
          simp [hne]
        · simp [hd, ih]

theorem get?_insert (t : Table) (name other : String) (x : Slot) :
    (t.insert name x).get? other = if name = other then some x else t.get? other := by
  simp only [get?, insert, find?_insertEntry]
  split <;> rfl

/-! ## Removal -/

/-- The table without what is under the name. -/
def erase (t : Table) (name : String) : Table :=
  ⟨t.entries.filter (·.1 != name), t.rising.filter _⟩

theorem get?_erase (t : Table) (name other : String) :
    (t.erase name).get? other = if name = other then none else t.get? other := by
  simp only [get?, erase, List.find?_filter]
  split
  · next h => simp [h]
  · next h =>
    congr 2
    funext e
    by_cases he : e.1 = other <;> simp_all [Ne.symm]

/-- The slot of the smallest name, and the table without it. -/
def popFirst? (t : Table) : Option (Slot × Table) :=
  match t with
  | ⟨[], _⟩ => none
  | ⟨(_, x) :: rest, h⟩ => some (x, ⟨rest, h.of_cons⟩)

/-! ## The slots of a table -/

/-- But for the order, the new slot comes in place of the one under its name. -/
theorem perm_insertEntry {es : List (String × Slot)} (name : String) (x : Slot)
    (h : es.Pairwise (fun a b => a.1 < b.1)) :
    (insertEntry name x es).Perm ((name, x) :: es.filter (·.1 != name)) := by
  induction es with
  | nil => exact .refl _
  | cons d rest ih =>
    obtain ⟨hd, hr⟩ := List.pairwise_cons.mp h
    have later (hle : name ≤ d.1) : rest.filter (·.1 != name) = rest := by
      rw [List.filter_eq_self]
      intro e he
      have hlt : name < e.1 := Std.lt_of_le_of_lt hle (hd e he)
      simpa using (Std.ne_of_lt hlt).symm
    simp only [insertEntry]
    split
    · next hlt =>
      have hne : d.1 ≠ name := (Std.ne_of_lt hlt).symm
      simp [hne, later (Std.le_of_lt hlt)]
    · next hlt =>
      split
      · next heq =>
        subst heq
        simp [later (Std.le_refl _)]
      · next hne =>
        rw [List.filter_cons_of_pos (by simpa using Ne.symm hne)]
        exact ((ih hr).cons _).trans (.swap _ _ _)

theorem slots_insert (t : Table) (name : String) (x : Slot) :
    (t.insert name x).slots.Perm (x :: (t.erase name).slots) :=
  (perm_insertEntry name x t.rising).map Prod.snd

/-- What is found under a name is there once. -/
theorem slots_perm_erase {t : Table} {name : String} {x : Slot} (h : t.get? name = some x) :
    t.slots.Perm (x :: (t.erase name).slots) := by
  obtain ⟨es, hes⟩ := t
  simp only [get?, Option.map_eq_some_iff] at h
  obtain ⟨e, he, rfl⟩ := h
  suffices es.Perm (e :: es.filter (·.1 != name)) from this.map Prod.snd
  induction es with
  | nil => simp at he
  | cons d rest ih =>
    obtain ⟨hd, hr⟩ := List.pairwise_cons.mp hes
    by_cases hn : d.1 = name
    · obtain rfl : d = e := by simpa [hn] using he
      rw [List.filter_cons_of_neg (by simp [hn]), List.filter_eq_self.mpr]
      intro e he
      have := (Std.ne_of_lt (hd e he)).symm
      simpa [hn] using this
    · rw [List.find?_cons_of_neg (by simpa using hn)] at he
      rw [List.filter_cons_of_pos (by simpa using hn)]
      exact ((ih hr he).cons d).trans (.swap _ _ _)

theorem erase_eq_self {t : Table} {name : String} (h : t.get? name = none) : t.erase name = t := by
  obtain ⟨es, hes⟩ := t
  simp only [get?, Option.map_eq_none_iff, List.find?_eq_none] at h
  simp only [erase, mk.injEq, List.filter_eq_self]
  simpa using h

theorem eq_empty_of_popFirst? {t : Table} (h : t.popFirst? = none) : t = empty := by
  obtain ⟨_ | ⟨e, es⟩, hes⟩ := t
  · rfl
  · cases h

theorem slots_popFirst? {t rest : Table} {x : Slot} (h : t.popFirst? = some (x, rest)) :
    t.slots = x :: rest.slots := by
  obtain ⟨_ | ⟨⟨n, y⟩, es⟩, hes⟩ := t
  · cases h
  · cases h
    rfl

end Table

end Custody
