import Custody.Datum
import Custody.Metrics
import Custody.Pointer

/-!
# Replies and events

* `Failure`: why a step has no result of its own.
* `Counts`: the counters that a pointer reports.
* `Shown`: a value as it is read through a pointer.
* `Reply`: the result of a step.
* `Event`: what happened on the way, in order.
-/

namespace Custody

/-- Why a step was not carried out. -/
inductive Failure
  | badOp | noSlot | wrongKind | sameSlot | otherOwner | wouldAbort
  | refused (l : Layout)
  | expired
  | nullStrong
  | nullUnique
  deriving DecidableEq, Repr

/-- What is said of a pointer: what its block counts, and what it is without. -/
inductive Counts
  | strong (use observers rawWeak : Nat) (null block : Bool)
  | weak (use observers rawWeak : Nat) (block : Bool)
  | unique (null : Bool)
  | raw
  deriving DecidableEq, Repr

/-- What is shown of a pointee. -/
inductive Shown
  | number (n : Int)
  | numbers (ns : List Int)
  | text (s : String)
  | node (n : Node) (links : List String)
  | concrete (kind : Kind) (value : Shown)
  | shape (label : String) (area : Int)
  deriving Repr

/-- One line of the listing of the root table. -/
inductive Entry
  | strong (kind : Kind) (use observers : Nat) (value : Option Shown)
  | weak (kind : Kind) (use observers : Nat)
  | unique (kind : Kind) (alloc : Alloc) (value : Option Shown)
  | raw (kind : Kind) (alloc : Alloc)
  deriving Repr

/-- What a step is answered with. -/
inductive Reply
  | done
  | nothing
  | flag (b : Bool)
  | number (n : Int)
  | text (s : String)
  | shown (v : Shown)
  | counts (c : Counts)
  | placed (c : Counts)
  | placedDuring (c : Counts) (during : List Reply)
  | promoted (c : Counts) (sameAddress sourceNull : Bool)
  | metrics (m : Metrics)
  | listing (entries : List (String × Entry))
  /-- `none`: the order of the two addresses is not determined. -/
  | compared (same : Bool) (order : Option Ordering)
  | sameBlock (same : Bool)
  | owners (same : Bool) (order : Option Ordering)
  | keyed (size : Nat) (order : Option (List Nat)) (found : Option Nat)
  | list (replies : List Reply)
  | aside (answer : Datum)
  | failed (f : Failure)
  deriving Inhabited

/-- What is recorded of a run: by the allocators, of blocks by id, and by the destructors of nodes.
-/
inductive Event
  | alloc (a : Alloc) (serial : Nat) (l : Layout)
  | dealloc (a : Alloc) (serial : Nat) (l : Layout)
  | refuse (a : Alloc) (l : Layout)
  | blockCreated (id : Nat) (kind : Kind)
  | pointeeDisposed (id : Nat)
  | blockFreed (id : Nat)
  | lock (id : Nat)
  | lockExpired (id : Nat)
  | drop (node : Int64)
  | did (node : Int64) (reply : Reply)
  deriving Inhabited

end Custody
