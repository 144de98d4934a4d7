/-!
# Metrics

Six counters of what has happened to control blocks.

* `Metrics.live`, `Metrics.expired`: derived counts.
* `Metrics.since`: the difference to an earlier snapshot, counter by counter.

All differences stop at zero. The counters here are natural numbers, which grow without bound: that
a machine word would overflow after 2^64 events is not modelled.
-/

namespace Custody

/-- Six counters. As they are natural numbers, none of them overflows. -/
structure Metrics where
  blocksAllocated : Nat := 0
  blocksFreed : Nat := 0
  pointeesDisposed : Nat := 0
  lockAttempts : Nat := 0
  lockFailures : Nat := 0
  allocFailures : Nat := 0
  deriving DecidableEq, Repr, Inhabited

namespace Metrics

/-- Nothing has happened. -/
def zero : Metrics := {}

/-- Blocks allocated and not yet freed. -/
def live (m : Metrics) : Nat := m.blocksAllocated - m.blocksFreed

/-- Blocks whose pointee is gone and which are kept by weak pointers. -/
def expired (m : Metrics) : Nat := m.pointeesDisposed - m.blocksFreed

/-- What has happened since an earlier snapshot, counter by counter. -/
def since (later earlier : Metrics) : Metrics where
  blocksAllocated := later.blocksAllocated - earlier.blocksAllocated
  blocksFreed := later.blocksFreed - earlier.blocksFreed
  pointeesDisposed := later.pointeesDisposed - earlier.pointeesDisposed
  lockAttempts := later.lockAttempts - earlier.lockAttempts
  lockFailures := later.lockFailures - earlier.lockFailures
  allocFailures := later.allocFailures - earlier.allocFailures

/-- A block has been allocated. -/
def recordBlockAllocated (m : Metrics) : Metrics :=
  { m with blocksAllocated := m.blocksAllocated + 1 }

/-- A block has been freed. -/
def recordBlockFreed (m : Metrics) : Metrics := { m with blocksFreed := m.blocksFreed + 1 }

/-- A pointee has been disposed. -/
def recordPointeeDisposed (m : Metrics) : Metrics :=
  { m with pointeesDisposed := m.pointeesDisposed + 1 }

/-- An attempt to lock a weak pointer; a refused one is a failure as well. -/
def recordLock (success : Bool) (m : Metrics) : Metrics :=
  { m with
    lockAttempts := m.lockAttempts + 1
    lockFailures := if success then m.lockFailures else m.lockFailures + 1 }

/-- An allocator has refused. -/
def recordAllocFailure (m : Metrics) : Metrics := { m with allocFailures := m.allocFailures + 1 }

/-- The counters by name, as they are inspected. -/
def debugText (m : Metrics) : String :=
  s!"RcMetrics \x7b blocks_allocated: {m.blocksAllocated}, blocks_freed: {m.blocksFreed}, " ++
  s!"pointees_disposed: {m.pointeesDisposed}, lock_attempts: {m.lockAttempts}, " ++
  s!"lock_failures: {m.lockFailures}, alloc_failures: {m.allocFailures} \x7d"

end Metrics

end Custody
