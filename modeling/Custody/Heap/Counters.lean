import Custody.Heap.Storage

/-!
# Control blocks

* `Heap.createBlock`: a block that takes over an object, with one strong owner.
* `Heap.addStrong`, `Heap.addStrongIfAlive`, `Heap.addWeak`: one reference more.
* `Heap.releaseStrong`: one strong owner fewer; the last one leaves the pointee to be disposed,
  after which `Heap.giveUpImplicit` is due.
* `Heap.releaseWeak`: one weak reference fewer; the last one frees the block.
-/

namespace Custody.Heap

/-- Attempts at blocks are numbered from 1, and the numbers start again when they no longer fit. -/
def newId (h : Heap) : Nat := h.nextId % UInt64.size

/-- The object stays with the caller if the block's memory is refused. The id is used up even
then. -/
def createBlock (kind : Kind) (a : Alloc) (pointee : ObjectId) (h : Heap) :
    Heap × Except Layout BlockId :=
  let id := h.newId
  let l := Layout.block kind.isSized
  let (h, serial) := { h with nextId := h.nextId + 1 }.request a l
  match serial with
  | none => (h.measure .recordAllocFailure, .error l)
  | some serial =>
    let b := h.blocks.size
    let block : Block := { id, kind, alloc := a, serial, pointee := some pointee }
    let h := { h with blocks := h.blocks.push block }
    ((h.measure .recordBlockAllocated).emit (.blockCreated id kind), .ok b)

/-- Records a breach unless `b` is there, not freed, and as expected. -/
def expect (b : BlockId) (ok : Block → Bool) (otherwise : Breach) (h : Heap) : Heap :=
  match h.blocks[b]? with
  | none => h.breach .freedBlock
  | some x => if x.freed then h.breach .freedBlock else if ok x then h else h.breach otherwise

/-- The id that a block is told of by. -/
def idOf (h : Heap) (b : BlockId) : Nat := (h.blocks[b]?.map (·.id)).getD 0

/-- The strong counter of a block. -/
def strongCount (h : Heap) (b : BlockId) : Nat := (h.blocks[b]?.map (·.strong)).getD 0

/-- The weak counter of a block, with the implicit reference. -/
def weakCount (h : Heap) (b : BlockId) : Nat := (h.blocks[b]?.map (·.weak)).getD 0

/-- The weak pointers that a block counts. -/
def observerCount (h : Heap) (b : BlockId) : Nat := (h.blocks[b]?.map (·.observers)).getD 0

/-- A strong pointer more. There must be one already. -/
def addStrong (b : BlockId) (h : Heap) : Heap :=
  (h.expect b (0 < ·.strong) .expiredOwner).updateBlock b fun x =>
    { x with strong := x.strong + 1 }

/-- A lock has been refused. -/
def recordExpiredLock (b : BlockId) (h : Heap) : Heap :=
  let h := h.expect b (fun _ => true) .freedBlock
  (h.measure (.recordLock false)).emit (.lockExpired (h.idOf b))

/-- An expired block stays expired. -/
def addStrongIfAlive (b : BlockId) (h : Heap) : Heap :=
  if h.strongCount b = 0 then h.recordExpiredLock b
  else
    let h := h.expect b (fun _ => true) .freedBlock
    let h := h.updateBlock b fun x => { x with strong := x.strong + 1 }
    (h.measure (.recordLock true)).emit (.lock (h.idOf b))

/-- A weak reference more. -/
def addWeak (b : BlockId) (h : Heap) : Heap :=
  (h.expect b (fun _ => true) .freedBlock).updateBlock b fun x => { x with weak := x.weak + 1 }

/-- A weak reference less. With the last one the block is freed, which must have no owner then. -/
def releaseWeak (b : BlockId) (h : Heap) : Heap :=
  let h := h.expect b (0 < ·.weak) .weakUnderflow
  let last := h.weakCount b == 1
  let h := h.updateBlock b fun x => { x with weak := x.weak - 1 }
  if last then
    let h := h.expect b (·.strong = 0) .freedWhileOwned
    let h := (h.measure .recordBlockFreed).emit (.blockFreed (h.idOf b))
    let h := h.updateBlock b fun x => { x with freed := true }
    match h.blocks[b]? with
    | some x => h.giveBack x.alloc x.serial (Layout.block x.kind.isSized)
    | none => h
  else h

/-- `true` if this was the last strong owner: the pointee is then to be disposed. -/
def releaseStrong (b : BlockId) (h : Heap) : Heap × Bool :=
  let h := h.expect b (0 < ·.strong) .strongUnderflow
  let last := h.strongCount b == 1
  let h := h.updateBlock b fun x => { x with strong := x.strong - 1 }
  if last then
    ((h.measure .recordPointeeDisposed).emit (.pointeeDisposed (h.idOf b)), true)
  else (h, false)

/-- The pointee leaves the block, to be destroyed. -/
def takePointee (b : BlockId) (h : Heap) : Heap × Option ObjectId :=
  let h := h.expect b (·.pointee.isSome) .disposedTwice
  let pointee := h.blocks[b]?.bind (·.pointee)
  (h.updateBlock b fun x => { x with pointee := none }, pointee)

/-- The disposal is over. -/
def giveUpImplicit (b : BlockId) (h : Heap) : Heap :=
  (h.updateBlock b fun x => { x with implicitWeak := false }).releaseWeak b

end Custody.Heap
