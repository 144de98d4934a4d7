/-!
# Memory layouts

* `Layout`: the size and alignment of a request for memory.
* `Layout.Valid`: the requests that can be made at all.
* `Layout.refusal`: what is said of a request that was refused.
-/

namespace Custody

/-- A size in bytes, and an alignment. -/
structure Layout where
  size : Nat
  align : Nat
  deriving DecidableEq, Repr, Inhabited

namespace Layout

/-- The alignment is a power of two, and the size, rounded up to it, stays below `2^63`. -/
def Valid (l : Layout) : Prop :=
  l.align ≠ 0 ∧ l.align &&& (l.align - 1) = 0 ∧ l.size + l.align ≤ 1 <<< 63

instance (l : Layout) : Decidable l.Valid := inferInstanceAs (Decidable (_ ∧ _ ∧ _))

/-- What is said when memory of this layout is refused. -/
def refusal (l : Layout) : String :=
  s!"memory allocation of {l.size} bytes (align {l.align}) failed"

/-- A control block: two counters, the flag of the implicit reference, two functions, an id and
the pointee's address, which is two words for an unsized pointee. -/
def block (sized : Bool) : Layout := ⟨if sized then 56 else 64, 8⟩

theorem size_block (sized : Bool) : (block sized).size ≠ 0 := by
  cases sized <;> decide

end Layout

end Custody
