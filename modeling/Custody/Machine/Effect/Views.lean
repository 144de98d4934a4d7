import Custody.Machine.Effect

/-!
# Observers and views

* `Effect.downgrade`, `Effect.lock`: between strong and weak pointers.
* `Effect.map`, `Effect.tryMap`, `Effect.mapWeak`: projections. The steps of the closure run
  before the part is taken, while the pointer that is projected is out of its table.
* `Effect.cast`: another view on the same block.
-/

namespace Custody.Effect

/-- A weak pointer to what a strong one leads to. -/
def downgrade (loc : Location) (p : Strong) (dst : Path) : Effect :=
  settling [loc] fun h =>
    match p.downgrade h with
    | (h, w) => (h, { operands := [(loc, .strong p)], made := some (.weak w, dst, .plain) })

/-- A refused attempt is a failure, or yields a null pointer. -/
def lock (loc : Location) (w : Weak) (dst : Path) (fail : Bool) : Effect :=
  settling [loc] fun h =>
    match w.lock? h with
    | (h, some p) => (h, { operands := [(loc, .weak w)], made := some (.strong p, dst, .plain) })
    | (h, none) =>
      if fail then (h, { operands := [(loc, .weak w)], reply := some (.failed .expired) })
      else
        (h, { operands := [(loc, .weak w)], made := some (.strong (.null w.kind), dst, .plain) })

/-! ## Projections -/

/-- The steps of a closure, and their replies as a list if they are asked for. A closure that is
not called runs no steps. -/
def closure (called : Bool) (during : List Step) (listed : Bool) : List Action :=
  if called then
    during.map .exec ++ [if listed then .gather during.length else .forget during.length]
  else if listed then [.answer (.list [])]
  else []

/-- The closure runs first, and the projection must then yield a part. -/
def map (j : Projection) (p : Strong) (during : List Step) : Effect :=
  ⟨[j.source], fun h => (h, closure p.view.isSome during j.listed ++ [.project j p true])⟩

/-- The closure runs first, and the projection may then yield none. -/
def tryMap (j : Projection) (p : Strong) (during : List Step) : Effect :=
  ⟨[j.source], fun h => (h, closure p.view.isSome during j.listed ++ [.project j p false])⟩

/-- A lock keeps the pointee through the closure. Without one, the part is null. -/
def mapWeak (j : Projection) (w : Weak) (during : List Step) : Effect where
  taken := [j.source]
  call h :=
    match w.lock? h with
    | (h, some p) => (h, closure p.view.isSome during j.listed ++ [.projectWeak j w p])
    | (h, none) =>
      match ({ w with kind := j.target, view := none } : Weak).clone h with
      | (h, v) =>
        let s : Settlement :=
          { operands := [(j.source, .weak w)], made := some (.weak v, j.dst, j.form) }
        (h, closure false during j.listed ++ s.actions [j.source.table])

/-! ## Casts -/

/-- A cast that is refused has neither block nor view. -/
def cast (loc : Location) (p : Strong) (kind : Kind) (view : Option (Option Place)) (dst : Path) :
    Effect :=
  settling [loc] fun h =>
    let (h, q) :=
      match view with
      | some view => p.aliasing kind view h
      | none => (h, .null kind)
    (h, { operands := [(loc, .strong p)], made := some (.strong q, dst, .plain) })

/-- A pointer with the owner of one and the view of the other. -/
def aliasLike (loc : Location) (p : Strong) (likeLoc : Location) (like : Strong) (dst : Path) :
    Effect :=
  settling [loc, likeLoc] fun h =>
    match p.aliasing like.kind like.view h with
    | (h, q) =>
      (h, { operands := [(loc, .strong p), (likeLoc, .strong like)],
            made := some (.strong q, dst, .plain) })

end Custody.Effect
