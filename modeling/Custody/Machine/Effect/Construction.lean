import Custody.Machine.Effect

/-!
# Construction

* `Effect.store`: a pointer that needs nothing from the heap.
* `Effect.construct`, `Effect.constructUnique`, `Effect.constructRaw`: a new object, and the
  pointer to it. Where memory is refused the object is destroyed.
-/

namespace Custody.Effect

/-- A slot that owns nothing is placed. -/
def store (x : Slot) (dst : Path) : Effect :=
  settling [] fun h => (h, { made := some (x, dst, .plain) })

/-- A strong pointer to a new pointee in a new block. Where memory is refused the value is dropped.
-/
def construct (kind : Kind) (p : Pointee) (a : Alloc) (dst : Path) : Effect :=
  settling [] fun h =>
    match Strong.construct kind p a h with
    | (h, .ok q, surplus) =>
      (h, { surplus := surplus.map .unique, made := some (.strong q, dst, .plain) })
    | (h, .error l, surplus) =>
      (h, { surplus := surplus.map .unique, reply := some (.failed (.refused l)) })

/-- Lists and texts are copied to where they go, and a refusal of that is not counted. -/
def isCopied : Kind → Bool
  | .str | .slice => true
  | _ => false

/-- A unique pointer to a new pointee. -/
def constructUnique (kind : Kind) (p : Pointee) (a : Alloc) (dst : Path) : Effect :=
  settling [] fun h =>
    let (h, u, refused) :=
      if isCopied kind then
        let (h, o, refused) := h.construct p a
        (h, ⟨kind, a, some o⟩, refused)
      else Unique.construct kind p a h
    match refused with
    | none => (h, { made := some (.unique u, dst, .plain) })
    | some l => (h, { surplus := [.unique u], reply := some (.failed (.refused l)) })

/-- A raw pointer to a new pointee. -/
def constructRaw (kind : Kind) (p : Pointee) (dst : Path) : Effect :=
  settling [] fun h =>
    match Unique.construct kind p .global h with
    | (h, u, some l) => (h, { surplus := [.unique u], reply := some (.failed (.refused l)) })
    | (h, u, none) => (h, { made := u.release.2.map fun r => (.raw r, dst, .plain) })

end Custody.Effect
