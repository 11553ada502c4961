import Dert.Library.Resident
import Dert.Queue.Headers
import Dert.Queue.QueueLayout
import Dert.Queue.Vqueue

namespace Dert.RawQueue

open Library

/-! `Vqueue` and `Aqueue` as bytes.  Both declare the same members in the same order, and
their functions differ in `overwrite` only, which an `Aqueue` does not have. -/

section Members

abbrev atElems : Nat := 0

abbrev atElemSize : Nat := 1

abbrev atFront : Nat := 2

abbrev atBack : Nat := 3

abbrev atLen : Nat := 4

abbrev atCap : Nat := 5

def numMembers : Nat := 6

end Members

section Queues

def initMembers (m : Ram) (queue elems elemSize numElems : Nat) : Ram :=
  let m := m.setField queue atElems elems
  let m := m.setField queue atElemSize elemSize
  let m := m.setField queue atFront 0
  let m := m.setField queue atBack 0
  let m := m.setField queue atCap numElems
  m.setField queue atLen 0

/-- The last result is what is stored in `dest`. -/
def init (sizeofHeader : Nat) (m : Ram) (memory elemSize numElems : Nat) :
    Ram × Ret × Option Nat :=
  if memory = 0 ∨ elemSize = 0 ∨ numElems = 0 then (m, .EINVAL, none)
  else
    let m := m.memset memory 0 (arrayAdvise sizeofHeader elemSize numElems)
    (initMembers m memory (memory + sizeofHeader) elemSize numElems, .ok, some memory)

/-- `malloc` answers for a size with the address of its block, if it has one. -/
def create (sizeofHeader : Nat) (malloc : Nat → Option Nat) (m : Ram) (elemSize numElems : Nat) :
    Ram × Option Nat :=
  if elemSize = 0 ∨ numElems = 0 then (m, none)
  else
    match malloc (arrayAdvise sizeofHeader elemSize numElems) with
    | none => (m, none)
    | some memory =>
      match init sizeofHeader m memory elemSize numElems with
      | (m, .ok, ret) => (m, ret)
      | (m, _, _) => (m, none)

def initv (sizeofHeader : Nat) (m : Ram) (numQueues memory elemSize numElems : Nat) :
    Ram × Ret × Option Nat :=
  if memory = 0 ∨ elemSize = 0 ∨ numElems = 0 then (m, .EINVAL, none)
  else
    let m := m.memset memory 0 (arrayAdvisev sizeofHeader numQueues elemSize numElems)
    let setup m queue ptr := initMembers m queue ptr elemSize numElems
    (initvLoop sizeofHeader setup m memory
      (arrayInitvElems sizeofHeader numQueues memory elemSize numElems), .ok, some memory)

def deinit (sizeofHeader : Nat) (m : Ram) (queue : Nat) : Ram :=
  if m.field queue atElems = 0 then m
  else (m.setField queue atLen 0).memset queue 0 sizeofHeader

def wrap (m : Ram) (queue pos : Nat) : Nat := pos % m.field queue atCap

def address (m : Ram) (queue pos : Nat) : Nat :=
  m.field queue atElems + sizeT (m.field queue atElemSize * wrap m queue pos)

def enqueue (m : Ram) (queue : Nat) (src : List UInt8) (overwrite : Bool) : Ram × Ret :=
  let full : Bool := m.field queue atLen = m.field queue atCap
  if full ∧ overwrite = false then (m, .EXFULL)
  else
    let enqueued := address m queue (m.field queue atBack)
    let m := m.memcpy enqueued (src.take (m.field queue atElemSize))
    let m := m.setField queue atBack (wrap m queue (sizeT (m.field queue atBack + 1)))
    if full then
      (m.setField queue atFront (wrap m queue (sizeT (m.field queue atFront + 1))), .ok)
    else (m.setField queue atLen (sizeT (m.field queue atLen + 1)), .ok)

def frontDirect (m : Ram) (queue : Nat) : Option Nat :=
  if m.field queue atLen = 0 then none else some (address m queue (m.field queue atFront))

def front (m : Ram) (queue : Nat) : Ret × List UInt8 :=
  match frontDirect m queue with
  | none => (.ENOTRECOVERABLE, [])
  | some front => (.ok, m.bytes front (m.field queue atElemSize))

def backDirect (m : Ram) (queue : Nat) : Option Nat :=
  if m.field queue atLen = 0 then none
  else
    let capBack := sizeT (m.field queue atCap + m.field queue atBack)
    some (address m queue (sizeT (capBack + (sizeMax - 1))))

def back (m : Ram) (queue : Nat) : Ret × List UInt8 :=
  match backDirect m queue with
  | none => (.ENOTRECOVERABLE, [])
  | some back => (.ok, m.bytes back (m.field queue atElemSize))

def dequeue (m : Ram) (queue : Nat) : Ram × Ret × List UInt8 :=
  match front m queue with
  | (.ok, dest) =>
    let m := m.setField queue atFront (wrap m queue (sizeT (m.field queue atFront + 1)))
    (m.setField queue atLen (sizeT (m.field queue atLen + (sizeMax - 1))), .ok, dest)
  | (_, dest) => (m, .ENODATA, dest)

def copyIn (m : Ram) (queue : Nat) (src : List UInt8) (should : Nat) : Ram :=
  let elemSize := m.field queue atElemSize
  let beforeWrapping :=
    sizeT (m.field queue atCap + (sizeMax - wrap m queue (m.field queue atBack)))
  let dest := address m queue (m.field queue atBack)
  if beforeWrapping ≥ should then m.memcpy dest (src.take (sizeT (elemSize * should)))
  else
    let afterWrapping := sizeT (should + (sizeMax - beforeWrapping))
    let m := m.memcpy dest (src.take (sizeT (elemSize * beforeWrapping)))
    let elemSize := m.field queue atElemSize
    let src := src.drop (sizeT (elemSize * beforeWrapping))
    m.memcpy (m.field queue atElems) (src.take (sizeT (elemSize * afterWrapping)))

def enqueueSome (m : Ram) (queue enqueueThisMany : Nat) (src : List UInt8) (overwrite : Bool) :
    Ram × Ret × Option Nat :=
  if enqueueThisMany = 0 then (m, .EINVAL, none)
  else
    let withoutOverwriting := sizeT (m.field queue atCap + (sizeMax - m.field queue atLen))
    let withOverwriting := if overwrite then m.field queue atLen else 0
    let can := sizeT (withOverwriting + withoutOverwriting)
    if can = 0 then (m, .EXFULL, none)
    else
      let should := if can ≥ enqueueThisMany then enqueueThisMany else can
      let res := if can ≥ enqueueThisMany then Ret.ok else .EXFULL
      let m := copyIn m queue src should
      let m := m.setField queue atBack (sizeT (m.field queue atBack + should))
      if should > withoutOverwriting then
        let overwritten := sizeT (should + (sizeMax - withoutOverwriting))
        let m := m.setField queue atFront (sizeT (m.field queue atFront + overwritten))
        (m.setField queue atLen (sizeT (m.field queue atLen + withoutOverwriting)), res, some should)
      else (m.setField queue atLen (sizeT (m.field queue atLen + should)), res, some should)

def copyOut (m : Ram) (queue should : Nat) : List UInt8 :=
  let elemSize := m.field queue atElemSize
  let beforeWrapping :=
    sizeT (m.field queue atCap + (sizeMax - wrap m queue (m.field queue atFront)))
  let src := address m queue (m.field queue atFront)
  if beforeWrapping ≥ should then m.bytes src (sizeT (elemSize * should))
  else
    let afterWrapping := sizeT (should + (sizeMax - beforeWrapping))
    m.bytes src (sizeT (elemSize * beforeWrapping)) ++
      m.bytes (m.field queue atElems) (sizeT (elemSize * afterWrapping))

/-- The return code, `num_dequeued` where it is stored, and the bytes copied to `dest`. -/
def dequeueSome (m : Ram) (queue dequeueThisMany : Nat) : Ram × Ret × Option Nat × List UInt8 :=
  if dequeueThisMany = 0 then (m, .EINVAL, none, [])
  else
    let can := m.field queue atLen
    if can = 0 then (m, .ENODATA, none, [])
    else
      let should := if can ≥ dequeueThisMany then dequeueThisMany else can
      let res := if can ≥ dequeueThisMany then Ret.ok else .ENODATA
      let dest := copyOut m queue should
      let m := m.setField queue atFront (sizeT (m.field queue atFront + should))
      (m.setField queue atLen (sizeT (m.field queue atLen + (sizeMax - should))), res, some should,
        dest)

def len (m : Ram) (queue : Nat) : Nat := m.field queue atLen

def cap (m : Ram) (queue : Nat) : Nat := m.field queue atCap

end Queues

section Vqueue

def vqueueCreate : (Nat → Option Nat) → Ram → Nat → Nat → Ram × Option Nat := create sizeofVqueue

def vqueueInit : Ram → Nat → Nat → Nat → Ram × Ret × Option Nat := init sizeofVqueue

def vqueueInitv : Ram → Nat → Nat → Nat → Nat → Ram × Ret × Option Nat := initv sizeofVqueue

def vqueueDeinit : Ram → Nat → Ram := deinit sizeofVqueue

def vqueueEnqueue : Ram → Nat → List UInt8 → Bool → Ram × Ret := enqueue

def vqueueDequeue : Ram → Nat → Ram × Ret × List UInt8 := dequeue

def vqueueEnqueueSome : Ram → Nat → Nat → List UInt8 → Bool → Ram × Ret × Option Nat := enqueueSome

def vqueueDequeueSome : Ram → Nat → Nat → Ram × Ret × Option Nat × List UInt8 := dequeueSome

def vqueueFront : Ram → Nat → Ret × List UInt8 := front

def vqueueFrontDirect : Ram → Nat → Option Nat := frontDirect

def vqueueBack : Ram → Nat → Ret × List UInt8 := back

def vqueueBackDirect : Ram → Nat → Option Nat := backDirect

def vqueueLen : Ram → Nat → Nat := len

def vqueueCap : Ram → Nat → Nat := cap

end Vqueue

section Aqueue

/-! Between two calls no other thread is in the queue, so its atomic accesses are plain ones. -/

def aqueueCreate : (Nat → Option Nat) → Ram → Nat → Nat → Ram × Option Nat := create sizeofAqueue

def aqueueInit : Ram → Nat → Nat → Nat → Ram × Ret × Option Nat := init sizeofAqueue

def aqueueInitv : Ram → Nat → Nat → Nat → Nat → Ram × Ret × Option Nat := initv sizeofAqueue

def aqueueDeinit : Ram → Nat → Ram := deinit sizeofAqueue

def aqueueEnqueue (m : Ram) (queue : Nat) (src : List UInt8) : Ram × Ret :=
  enqueue m queue src false

def aqueueDequeue : Ram → Nat → Ram × Ret × List UInt8 := dequeue

def aqueueEnqueueSome (m : Ram) (queue enqueueThisMany : Nat) (src : List UInt8) :
    Ram × Ret × Option Nat :=
  enqueueSome m queue enqueueThisMany src false

def aqueueDequeueSome : Ram → Nat → Nat → Ram × Ret × Option Nat × List UInt8 := dequeueSome

def aqueueFront : Ram → Nat → Ret × List UInt8 := front

def aqueueFrontDirect : Ram → Nat → Option Nat := frontDirect

def aqueueLen : Ram → Nat → Nat := len

def aqueueCap : Ram → Nat → Nat := cap

end Aqueue

/-- What a call gives back: its return value, the number or the address it stores or returns,
and the bytes it delivers.  An address is counted from the first slot. -/
structure Reply where
  ret : Ret
  num : Option Nat
  dest : List UInt8
  deriving DecidableEq

namespace Vqueue

inductive Call
  | op (op : Vqueue.Op (List UInt8))
  | frontDirect
  | backDirect
  | len
  | cap
  | deinit

def call (p : Place) (m : Ram) : Call → Ram × Reply
  | .op (.enqueue src overwrite) =>
    let r := vqueueEnqueue m p.header src overwrite
    (r.1, ⟨r.2, none, []⟩)
  | .op .dequeue =>
    let r := vqueueDequeue m p.header
    (r.1, ⟨r.2.1, none, r.2.2⟩)
  | .op (.enqueueSome src overwrite) =>
    let r := vqueueEnqueueSome m p.header src.length src.flatten overwrite
    (r.1, ⟨r.2.1, r.2.2, []⟩)
  | .op (.dequeueSome n) =>
    let r := vqueueDequeueSome m p.header n
    (r.1, ⟨r.2.1, r.2.2.1, r.2.2.2⟩)
  | .op .front =>
    let r := vqueueFront m p.header
    (m, ⟨r.1, none, r.2⟩)
  | .op .back =>
    let r := vqueueBack m p.header
    (m, ⟨r.1, none, r.2⟩)
  | .frontDirect => (m, ⟨.ok, (vqueueFrontDirect m p.header).map (· - p.elems), []⟩)
  | .backDirect => (m, ⟨.ok, (vqueueBackDirect m p.header).map (· - p.elems), []⟩)
  | .len => (m, ⟨.ok, some (vqueueLen m p.header), []⟩)
  | .cap => (m, ⟨.ok, some (vqueueCap m p.header), []⟩)
  | .deinit => (vqueueDeinit m p.header, ⟨.ok, none, []⟩)

/-- The caller passes whole elements, and no more of them than a `size_t` counts. -/
def allows (elemSize : Nat) : Call → Bool
  | .op (.enqueue src _) => src.length = elemSize
  | .op (.enqueueSome src _) => src.length < sizeMax ∧ ∀ x ∈ src, x.length = elemSize
  | .op (.dequeueSome n) => n < sizeMax
  | _ => true

def ends : Call → Bool
  | .deinit => true
  | _ => false

def model (elemSize : Nat) (queue : Dert.Vqueue (List UInt8)) :
    Call → Dert.Vqueue (List UInt8) × Reply
  | .op op =>
    let r := queue.call op
    (r.1, ⟨r.2.ret, r.2.num, r.2.dest.flatten⟩)
  | .frontDirect => (queue, ⟨.ok, (Dert.vqueueFrontDirect queue).map (elemSize * ·), []⟩)
  | .backDirect => (queue, ⟨.ok, (Dert.vqueueBackDirect queue).map (elemSize * ·), []⟩)
  | .len => (queue, ⟨.ok, some (Dert.vqueueLen queue), []⟩)
  | .cap => (queue, ⟨.ok, some (Dert.vqueueCap queue), []⟩)
  | .deinit => (queue, ⟨.ok, none, []⟩)

end Vqueue

namespace Aqueue

inductive Call
  | enqueue (src : List UInt8)
  | dequeue
  | enqueueSome (src : List (List UInt8))
  | dequeueSome (dequeueThisMany : Nat)
  | front
  | frontDirect
  | len
  | cap
  | deinit

def call (p : Place) (m : Ram) : Call → Ram × Reply
  | .enqueue src =>
    let r := aqueueEnqueue m p.header src
    (r.1, ⟨r.2, none, []⟩)
  | .dequeue =>
    let r := aqueueDequeue m p.header
    (r.1, ⟨r.2.1, none, r.2.2⟩)
  | .enqueueSome src =>
    let r := aqueueEnqueueSome m p.header src.length src.flatten
    (r.1, ⟨r.2.1, r.2.2, []⟩)
  | .dequeueSome n =>
    let r := aqueueDequeueSome m p.header n
    (r.1, ⟨r.2.1, r.2.2.1, r.2.2.2⟩)
  | .front =>
    let r := aqueueFront m p.header
    (m, ⟨r.1, none, r.2⟩)
  | .frontDirect => (m, ⟨.ok, (aqueueFrontDirect m p.header).map (· - p.elems), []⟩)
  | .len => (m, ⟨.ok, some (aqueueLen m p.header), []⟩)
  | .cap => (m, ⟨.ok, some (aqueueCap m p.header), []⟩)
  | .deinit => (aqueueDeinit m p.header, ⟨.ok, none, []⟩)

def Call.toVqueue : Call → Vqueue.Call
  | .enqueue src => .op (.enqueue src false)
  | .dequeue => .op .dequeue
  | .enqueueSome src => .op (.enqueueSome src false)
  | .dequeueSome n => .op (.dequeueSome n)
  | .front => .op .front
  | .frontDirect => .frontDirect
  | .len => .len
  | .cap => .cap
  | .deinit => .deinit

end Aqueue

def extents (elemSize numElems : Nat) : Place → List Extent :=
  Place.extents (sizeofPointer * numMembers) (elemSize * numElems)

def vqueues (elemSize numElems : Nat) : Resident UInt8 Place Vqueue.Call Reply where
  call := Vqueue.call
  extents := extents elemSize numElems
  allows := Vqueue.allows elemSize
  ends := Vqueue.ends

def aqueues (elemSize numElems : Nat) : Resident UInt8 Place Aqueue.Call Reply where
  call := Aqueue.call
  extents := extents elemSize numElems
  allows c := Vqueue.allows elemSize c.toVqueue
  ends c := Vqueue.ends c.toVqueue

end Dert.RawQueue
