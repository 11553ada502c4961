import Dert.Base.Bytes
import Mathlib.Logic.Function.Basic

namespace Dert

inductive VpoolKind
  | VPOOL_KIND_STATIC
  | VPOOL_KIND_GUIDED
  | VPOOL_KIND_DYNAMIC
  deriving DecidableEq

/-- Pointers are addresses, and zero is NULL. -/
structure Vpool where
  items : Nat
  elementSize : Nat
  stored : Nat
  capacity : Nat
  nextFree : Nat
  kind : VpoolKind
  prev : Nat

/-- The headers of the pools, by address, and the bytes of everything else.  A write to the
bytes never changes a header, which holds of pools that lie apart, and no address faults. -/
structure VpoolMemory where
  pools : Nat → Vpool
  bytes : Nat → UInt8

def sizeofVpool : Nat := 56

def vpoolAdvise (numItems elemSize : Nat) : Nat :=
  let elemSize := if elemSize < sizeofPointer then sizeofPointer else elemSize
  sizeT (sizeofVpool + sizeT (numItems * elemSize))

def _vpoolInit (memory : VpoolMemory) (pool numItems elemSize : Nat) (kind : VpoolKind)
    (prev : Nat) : VpoolMemory × Ret :=
  if numItems = 0 ∨ elemSize = 0 ∨ (kind = .VPOOL_KIND_STATIC ∧ prev ≠ 0) then (memory, .EINVAL)
  else
    let elementSize := if elemSize < sizeofPointer then sizeofPointer else elemSize
    let header := {
      items := pool + sizeofVpool
      elementSize
      stored := 0
      capacity := numItems
      nextFree := 0
      kind
      prev }
    ({ pools := Function.update memory.pools pool header
       bytes := memset memory.bytes pool 0 (vpoolAdvise numItems elementSize) }, .ok)

def vpoolInit (memory : VpoolMemory) (pool numItems elemSize : Nat) (kind : VpoolKind) :
    VpoolMemory × Ret :=
  _vpoolInit memory pool numItems elemSize kind 0

/-- `malloc` is the block the allocator answers with, if any. -/
def _vpoolCreate (malloc : Option Nat) (memory : VpoolMemory) (numItems elemSize : Nat)
    (kind : VpoolKind) (prev : Nat) : VpoolMemory × Option Nat :=
  if numItems = 0 ∨ elemSize = 0 ∨ (kind = .VPOOL_KIND_STATIC ∧ prev ≠ 0) then (memory, none)
  else
    match malloc with
    | none => (memory, none)
    | some pool =>
      match _vpoolInit memory pool numItems elemSize kind prev with
      | (memory, .ok) => (memory, some pool)
      | (memory, _) => (memory, none)

def vpoolCreate (malloc : Option Nat) (memory : VpoolMemory) (numItems elemSize : Nat)
    (kind : VpoolKind) : VpoolMemory × Option Nat :=
  _vpoolCreate malloc memory numItems elemSize kind 0

def vpoolFull (pool : Vpool) : Bool := pool.stored = pool.capacity

/-- `calloc` is the block the allocator answers with, if any.  A dynamic pool that has grown
allocates again, which `depth` bounds.  The address of an element is not taken modulo `2 ^ 64`:
it is below that where the size of the block does not wrap. -/
def vpoolAlloc (calloc : Option Nat) : Nat → VpoolMemory → Nat → VpoolMemory × Option Nat
  | 0, memory, _ => (memory, none)
  | depth + 1, memory, pool =>
    let header := memory.pools pool
    if header.nextFree ≠ 0 then
      let allocated := header.nextFree
      let nextFree := loadPointer memory.bytes allocated
      ({ pools := Function.update memory.pools pool { header with nextFree }
         bytes := memset memory.bytes allocated 0 header.elementSize }, some allocated)
    else if vpoolFull header then
      match header.kind with
      | .VPOOL_KIND_DYNAMIC =>
        match calloc with
        | none => (memory, none)
        | some newPool =>
          let capacity := sizeT (2 * header.capacity)
          match _vpoolInit memory newPool capacity header.elementSize .VPOOL_KIND_DYNAMIC newPool with
          | (memory, .ok) =>
            let pools := Function.update memory.pools pool (memory.pools newPool)
            vpoolAlloc calloc depth { memory with pools := Function.update pools newPool header } pool
          | (memory, _) => (memory, none)
      | _ => (memory, none)
    else
      let header' := { header with stored := header.stored + 1 }
      ({ memory with pools := Function.update memory.pools pool header' },
        some (header.items + header.stored * header.elementSize))

def vpoolDealloc (memory : VpoolMemory) (pool elem : Nat) : VpoolMemory × Nat :=
  if pool = 0 ∨ elem = 0 then (memory, 2)
  else
    let header := memory.pools pool
    let bytes := memset memory.bytes elem 0 sizeofPointer
    let bytes := if header.nextFree ≠ 0 then storePointer bytes elem header.nextFree else bytes
    ({ pools := Function.update memory.pools pool { header with nextFree := elem }, bytes }, 0)

def vpoolGuidedExtend (memory : VpoolMemory) (pool block memorySize : Nat) : VpoolMemory × Ret :=
  if pool = 0 ∨ block = 0 ∨ (memory.pools pool).kind = .VPOOL_KIND_STATIC then (memory, .EINVAL)
  else
    let elementSize := (memory.pools pool).elementSize
    let numItems := sizeT (memorySize + (sizeMax - sizeofVpool)) / elementSize
    match _vpoolInit memory block numItems elementSize .VPOOL_KIND_GUIDED block with
    | (memory, .ok) =>
      let header := memory.pools pool
      let nextFree := header.nextFree
      let extended := { memory.pools block with nextFree }
      let pools := Function.update memory.pools pool extended
      ({ memory with pools := Function.update pools block { header with nextFree := 0 } }, .ok)
    | (memory, _) => (memory, .EINVAL)

/-- `free`: the heap blocks that are left, unless `block` is not one of them. -/
def free (heap : List Nat) (block : Nat) : Option (List Nat) :=
  if block ∈ heap then some (heap.erase block) else none

/-- The loop over the older blocks of a pool, which `fuel` bounds. -/
def vpoolDeinit.loop (memory : VpoolMemory) : Nat → List Nat → Nat → Option (List Nat)
  | 0, _, _ => none
  | fuel + 1, heap, poolIterate =>
    if poolIterate = 0 then some heap
    else
      let prev := (memory.pools poolIterate).prev
      (free heap poolIterate).bind fun heap => vpoolDeinit.loop memory fuel heap prev

def vpoolDeinit (fuel : Nat) (heap : List Nat) (memory : VpoolMemory) (pool : Nat) :
    Option (List Nat × Ret) :=
  if pool = 0 then some (heap, .ok)
  else
    match (memory.pools pool).kind with
    | .VPOOL_KIND_DYNAMIC =>
      (vpoolDeinit.loop memory fuel heap (memory.pools pool).prev).map fun heap => (heap, .ok)
    | _ => some (heap, .ok)

def vpoolDestroy (fuel : Nat) (heap : List Nat) (memory : VpoolMemory) (pool : Nat) :
    Option (List Nat × Ret) :=
  if pool = 0 then some (heap, .ok)
  else
    (vpoolDeinit fuel heap memory pool).bind fun (heap, ret) =>
      if ret ≠ .ok then some (heap, .EINVAL)
      else (free heap pool).map fun heap => (heap, .ok)

/-- The elements on the free list from `elem` on, as far as the fuel goes. -/
def vpoolFreeList (bytes : Nat → UInt8) : Nat → Nat → List Nat
  | 0, _ => []
  | fuel + 1, elem =>
    if elem = 0 then [] else elem :: vpoolFreeList bytes fuel (loadPointer bytes elem)

def vpoolInUse (memory : VpoolMemory) (pool : Nat) : Nat :=
  let header := memory.pools pool
  header.stored - (vpoolFreeList memory.bytes header.stored header.nextFree).length

end Dert
