import Custody.Machine.Effect
import Custody.Machine.Inspect

/-!
# Reading and writing through pointers

* `Slot.value?`: what a strong or unique pointer shows, and how following it fails if it is null.
* `Slot.writable?`: where a pointer may be written through.
* `written?`: the content that a literal leaves at a place.
-/

namespace Custody

namespace Slot

/-- The outer `none` is for pointers that cannot be read at all. -/
def value? (h : Heap) : Slot → Option (Except Failure Shown)
  | strong p => some (orFail .nullStrong (h.show? p.kind p.view))
  | unique u => some (orFail .nullUnique (h.show? u.kind u.view))
  | _ => none
where
  orFail (f : Failure) : Option Shown → Except Failure Shown
    | some v => .ok v
    | none => .error f

/-- The outer `none` is for pointers that cannot be written at all, the inner one for those that
may not be written now. -/
def writable? (h : Heap) : Slot → Option (Option Place)
  | strong p => some (p.getMut? h)
  | unique u => some u.view
  | _ => none

end Slot

/-- `none` where the kind is not one that is written, or the literal does not fit. -/
def written? (h : Heap) (kind : Kind) (p : Place) (value : Literal) : Option Content :=
  match kind with
  | .any | .anySend | .anySync | .shape | .disp => none
  | _ => (h.read? p).bind (·.overwrite? value)

namespace Effect

/-- The pointee is changed in place. -/
def write (p : Place) (c : Content) : Effect :=
  ⟨[], fun h => (h.write p c, [.answer (.flag true)])⟩

end Effect

end Custody
