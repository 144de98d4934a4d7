import Custody.Machine.Effect

/-!
# Transfers of ownership

Each effect takes its operands, with the locations they came from.

* `Effect.promote`, `Effect.share`: from a unique pointer to a strong one.
* `Effect.release`, `Effect.adoptUnique`, `Effect.adopt`, `Effect.resetRaw`: to and from raw
  pointers.
* `Effect.cloneStrong`, `Effect.cloneWeak`, `Effect.assignStrong`, `Effect.assignWeak`,
  `Effect.takeStrong`, `Effect.reset`, `Effect.resetWith`, `Effect.move`, `Effect.swap`,
  `Effect.drop`.
-/

namespace Custody.Effect

/-- A unique pointer is promoted in place. Where the block is refused it keeps its object. -/
def promote (loc : Location) (u : Unique) (dst : Path) : Effect :=
  settling [loc] fun h =>
    let address := h.addressOf u.view
    match u.promote h with
    | (h, u, .ok q) =>
      let form := Form.promoted (q.address h == address) u.object.isNone
      (h, { operands := [(loc, .unique u)], made := some (.strong q, dst, form) })
    | (h, u, .error l) =>
      (h, { operands := [(loc, .unique u)], reply := some (.failed (.refused l)) })

/-- Uses the unique pointer up. -/
def share (loc : Location) (u : Unique) (dst : Path) : Effect :=
  settling [loc] fun h =>
    match u.promote h with
    | (h, _, .ok q) => (h, { made := some (.strong q, dst, .plain) })
    | (h, u, .error l) =>
      (h, { operands := [(loc, .unique u)], reply := some (.failed (.refused l)) })

/-- The unique pointer, now null, is kept or used up. -/
def release (loc : Location) (u : Unique) (dst : Path) (keep : Bool) : Effect :=
  settling [loc] fun h =>
    let (u, r) := u.release
    let operands := if keep then [(loc, Slot.unique u)] else []
    match r with
    | some r => (h, { operands, made := some (.raw r, dst, .plain) })
    | none => (h, { operands, reply := some .nothing })

/-- A raw pointer becomes a unique one again. -/
def adoptUnique (loc : Location) (r : Raw) (dst : Path) : Effect :=
  settling [loc] fun h =>
    (h, { made := some (.unique ⟨r.kind, r.alloc, some r.object⟩, dst, .plain) })

/-- A raw pointer becomes a strong one. Where the block is refused, the object is dropped. -/
def adopt (loc : Location) (r : Raw) (dst : Path) : Effect :=
  settling [loc] fun h =>
    match Strong.adopt r h with
    | (h, .ok q, surplus) =>
      (h, { surplus := surplus.map .unique, made := some (.strong q, dst, .plain) })
    | (h, .error l, surplus) =>
      (h, { surplus := surplus.map .unique, reply := some (.failed (.refused l)) })

/-- A new owner that was made for the place of `p`, which is given up only then. -/
def replace (loc : Location) (p : Strong) : Heap × Except Layout Strong × List Unique →
    Heap × Settlement
  | (h, .ok q, surplus) =>
    (h, { surplus := surplus.map .unique ++ [.strong p], operands := [(loc, .strong q)],
          counted := true })
  | (h, .error l, surplus) =>
    (h, { surplus := surplus.map .unique, operands := [(loc, .strong p)],
          reply := some (.failed (.refused l)) })

/-- A raw pointer is adopted in place of what the strong pointer owned. -/
def resetRaw (loc : Location) (p : Strong) (rawLoc : Location) (r : Raw) : Effect :=
  settling [loc, rawLoc] fun h => replace loc p (Strong.adopt r h)

/-- A new pointee takes the place of what the strong pointer owned. -/
def resetWith (loc : Location) (p : Strong) (value : Pointee) : Effect :=
  settling [loc] fun h => replace loc p (Strong.construct p.kind value .global h)

/-- What is at the destination is dropped when `x` is in its place. -/
def move (loc : Location) (x : Slot) (dst : Location) : Effect :=
  settling [loc] fun h => (h, { operands := [(dst, x)], reply := some .done })

/-- A slot is dropped. -/
def drop (loc : Location) (x : Slot) : Effect :=
  settling [loc] fun h => (h, { surplus := [x], reply := some .done })

/-- A strong pointer is cloned. -/
def cloneStrong (loc : Location) (p : Strong) (dst : Path) : Effect :=
  settling [loc] fun h =>
    match p.clone h with
    | (h, q) => (h, { operands := [(loc, .strong p)], made := some (.strong q, dst, .plain) })

/-- A weak pointer is cloned. -/
def cloneWeak (loc : Location) (w : Weak) (dst : Path) : Effect :=
  settling [loc] fun h =>
    match w.clone h with
    | (h, v) => (h, { operands := [(loc, .weak w)], made := some (.weak v, dst, .plain) })

/-- A strong pointer becomes a copy of another one. -/
def assignStrong (loc : Location) (p : Strong) (srcLoc : Location) (source : Strong) : Effect :=
  settling [loc, srcLoc] fun h =>
    match p.assign source h with
    | (h, p, surplus) =>
      (h, { surplus := surplus.map .strong, counted := true,
            operands := [(loc, .strong p), (srcLoc, .strong source)] })

/-- A weak pointer becomes a copy of another one. -/
def assignWeak (loc : Location) (w : Weak) (srcLoc : Location) (source : Weak) : Effect :=
  settling [loc, srcLoc] fun h =>
    match w.assign source h with
    | (h, w, surplus) =>
      (h, { surplus := surplus.map .weak, counted := true,
            operands := [(loc, .weak w), (srcLoc, .weak source)] })

/-- Leaves a null pointer behind. -/
def takeStrong (loc : Location) (p : Strong) (dst : Path) : Effect :=
  settling [loc] fun h =>
    (h, { operands := [(loc, .strong (.null p.kind))], made := some (.strong p, dst, .plain) })

/-- Two slots trade places. -/
def swap (loc : Location) (x : Slot) (otherLoc : Location) (y : Slot) : Effect :=
  settling [loc, otherLoc] fun h =>
    (h, { operands := [(loc, y), (otherLoc, x)], reply := some .done })

/-- A pointer is dropped, and a null one stays. -/
def reset (loc : Location) (x null : Slot) : Effect :=
  settling [loc] fun h => (h, { surplus := [x], operands := [(loc, null)], counted := true })

end Custody.Effect
