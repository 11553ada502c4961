import Dert.Base.Prelude
import Dert.Library.Cyclic
import Dert.Library.Fifo

universe u

namespace Dert

open Library Library.Cyclic

/-- A slot of `elems` is one element of `elem_size` bytes; the array has no end here, and which
of its slots lie in the block is told apart.  The bulk operations let `front` and `back` run past
`cap`; only the single ones wrap them. -/
structure Vqueue (α : Type u) where
  elems : Nat → α
  front : Nat
  back : Nat
  len : Nat
  cap : Nat

variable {α : Type u}

def vqueueWrap (queue : Vqueue α) (pos : Nat) : Nat := pos % queue.cap

def vqueueInit (zero : α) (numElems : Nat) : Option (Vqueue α) :=
  if numElems = 0 then none
  else some { elems := fun _ => zero, front := 0, back := 0, len := 0, cap := numElems }

def vqueueLen (queue : Vqueue α) : Nat := queue.len

def vqueueCap (queue : Vqueue α) : Nat := queue.cap

def vqueueEnqueue (queue : Vqueue α) (src : α) (overwrite : Bool) : Vqueue α × Ret :=
  if queue.len = queue.cap ∧ overwrite = false then (queue, .EXFULL)
  else
    let elems := Function.update queue.elems (vqueueWrap queue queue.back) src
    let back := vqueueWrap queue (sizeT (queue.back + 1))
    if queue.len = queue.cap then
      ({ queue with elems, back, front := vqueueWrap queue (sizeT (queue.front + 1)) }, .ok)
    else
      ({ queue with elems, back, len := queue.len + 1 }, .ok)

def vqueueFrontDirect (queue : Vqueue α) : Option Nat :=
  if queue.len = 0 then none else some (vqueueWrap queue queue.front)

def vqueueFront (queue : Vqueue α) : Ret × Option α :=
  match vqueueFrontDirect queue with
  | none => (.ENOTRECOVERABLE, none)
  | some i => (.ok, some (queue.elems i))

/-- The slot `vqueue_back_direct` points at, or NULL; `cap + back - 1` is computed
in `size_t`. -/
def vqueueBackDirect (queue : Vqueue α) : Option Nat :=
  if queue.len = 0 then none
  else some (vqueueWrap queue (sizeT (sizeT (queue.cap + queue.back) + (sizeMax - 1))))

def vqueueBack (queue : Vqueue α) : Ret × Option α :=
  match vqueueBackDirect queue with
  | none => (.ENOTRECOVERABLE, none)
  | some i => (.ok, some (queue.elems i))

def vqueueDequeue (queue : Vqueue α) : Vqueue α × Ret × Option α :=
  match vqueueFront queue with
  | (.ok, dest) =>
    ({ queue with
        front := vqueueWrap queue (sizeT (queue.front + 1))
        len := queue.len - 1 }, .ok, dest)
  | (_, dest) => (queue, .ENODATA, dest)

def vqueueCopyIn (queue : Vqueue α) (src : List α) : Nat → α :=
  let dest := vqueueWrap queue queue.back
  let beforeWrapping := queue.cap - dest
  if src.length ≤ beforeWrapping then copyIn queue.elems dest src
  else copyIn (copyIn queue.elems dest (src.take beforeWrapping)) 0 (src.drop beforeWrapping)

/-- `vqueue_enqueue_some` of all elements of `src`; the last result is what it
stores in `num_enqueued`. -/
def vqueueEnqueueSome (queue : Vqueue α) (src : List α) (overwrite : Bool) :
    Vqueue α × Ret × Option Nat :=
  if src.length = 0 then (queue, .EINVAL, none)
  else
    let withoutOverwriting := vqueueCap queue - vqueueLen queue
    let withOverwriting := if overwrite then vqueueLen queue else 0
    let can := withOverwriting + withoutOverwriting
    if can = 0 then (queue, .EXFULL, none)
    else
      let should := if can ≥ src.length then src.length else can
      let res := if can ≥ src.length then Ret.ok else .EXFULL
      let elems := vqueueCopyIn queue (src.take should)
      let back := sizeT (queue.back + should)
      if should > withoutOverwriting then
        ({ queue with
            elems, back
            front := sizeT (queue.front + (should - withoutOverwriting))
            len := queue.len + withoutOverwriting }, res, some should)
      else
        ({ queue with elems, back, len := queue.len + should }, res, some should)

def vqueueCopyOut (queue : Vqueue α) (n : Nat) : List α :=
  let src := vqueueWrap queue queue.front
  let beforeWrapping := queue.cap - src
  if n ≤ beforeWrapping then copyOut queue.elems src n
  else copyOut queue.elems src beforeWrapping ++ copyOut queue.elems 0 (n - beforeWrapping)

/-- `vqueue_dequeue_some`: the return code, `num_dequeued` where it is stored, and
the elements copied to `dest`. -/
def vqueueDequeueSome (queue : Vqueue α) (dequeueThisMany : Nat) :
    Vqueue α × Ret × Option Nat × List α :=
  if dequeueThisMany = 0 then (queue, .EINVAL, none, [])
  else
    let can := vqueueLen queue
    if can = 0 then (queue, .ENODATA, none, [])
    else
      let should := if can ≥ dequeueThisMany then dequeueThisMany else can
      let res := if can ≥ dequeueThisMany then Ret.ok else .ENODATA
      ({ queue with front := sizeT (queue.front + should), len := queue.len - should }, res,
        some should, vqueueCopyOut queue should)

namespace Vqueue

inductive Op (α : Type u)
  | enqueue (src : α) (overwrite : Bool)
  | dequeue
  | enqueueSome (src : List α) (overwrite : Bool)
  | dequeueSome (dequeueThisMany : Nat)
  | front
  | back

structure Reply (α : Type u) where
  ret : Ret
  num : Option Nat
  dest : List α
  deriving DecidableEq

def CopySlot (queue : Vqueue α) (pos n i : Nat) : Prop :=
  let start := vqueueWrap queue pos
  let beforeWrapping := queue.cap - start
  if n ≤ beforeWrapping then start ≤ i ∧ i < start + n
  else start ≤ i ∧ i < start + beforeWrapping ∨ i < n - beforeWrapping

/-- A call reads or writes slot `i`. -/
def Op.Uses (queue : Vqueue α) (i : Nat) : Op α → Prop
  | .enqueue _ overwrite =>
    ¬ (queue.len = queue.cap ∧ overwrite = false) ∧ i = vqueueWrap queue queue.back
  | .dequeue => vqueueFrontDirect queue = some i
  | .enqueueSome src overwrite =>
    CopySlot queue queue.back ((vqueueEnqueueSome queue src overwrite).2.2.getD 0) i
  | .dequeueSome n => CopySlot queue queue.front ((vqueueDequeueSome queue n).2.2.1.getD 0) i
  | .front => vqueueFrontDirect queue = some i
  | .back => vqueueBackDirect queue = some i

def call (queue : Vqueue α) : Op α → Vqueue α × Reply α
  | .enqueue src overwrite =>
    let (queue, ret) := vqueueEnqueue queue src overwrite
    (queue, ⟨ret, none, []⟩)
  | .dequeue =>
    let (queue, ret, dest) := vqueueDequeue queue
    (queue, ⟨ret, none, dest.toList⟩)
  | .enqueueSome src overwrite =>
    let (queue, ret, num) := vqueueEnqueueSome queue src overwrite
    (queue, ⟨ret, num, []⟩)
  | .dequeueSome n =>
    let (queue, ret, num, dest) := vqueueDequeueSome queue n
    (queue, ⟨ret, num, dest⟩)
  | .front =>
    let (ret, dest) := vqueueFront queue
    (queue, ⟨ret, none, dest.toList⟩)
  | .back =>
    let (ret, dest) := vqueueBack queue
    (queue, ⟨ret, none, dest.toList⟩)

structure Spec (α : Type u) (cap : Nat) where
  queue : Fifo α cap
  total : Nat

def Spec.start (cap : Nat) : Spec α cap := ⟨Fifo.empty, 0⟩

variable {cap : Nat}

/-- Enqueue into the list: drop the head when it is full and `overwrite` is set, fail
unchanged when it is full and `overwrite` is not. -/
def Spec.enqueue (s : Spec α cap) (src : α) (overwrite : Bool) : Spec α cap × Ret :=
  match if overwrite then some (s.queue.force src) else s.queue.push src with
  | some queue => (⟨queue, s.total + 1⟩, .ok)
  | none => (s, .EXFULL)

def Spec.accepts (s : Spec α cap) (n : Nat) (overwrite : Bool) : Nat :=
  min n (if overwrite then cap else s.queue.room)

def Spec.call (s : Spec α cap) : Op α → Spec α cap × Reply α
  | .enqueue src overwrite =>
    let (s, ret) := s.enqueue src overwrite
    (s, ⟨ret, none, []⟩)
  | .dequeue =>
    match s.queue.pop with
    | some (x, queue) => (⟨queue, s.total⟩, ⟨.ok, none, [x]⟩)
    | none => (s, ⟨.ENODATA, none, []⟩)
  | .enqueueSome src overwrite =>
    if src.length = 0 then (s, ⟨.EINVAL, none, []⟩)
    else
      let m := s.accepts src.length overwrite
      ((src.take m).foldl (fun s x => (s.enqueue x overwrite).1) s,
        ⟨if m = src.length then .ok else .EXFULL, if 0 < m then some m else none, []⟩)
  | .dequeueSome n =>
    if n = 0 then (s, ⟨.EINVAL, none, []⟩)
    else
      let m := min n s.queue.length
      (⟨s.queue.drop m, s.total⟩,
        ⟨if m = n then .ok else .ENODATA, if 0 < m then some m else none, s.queue.list.take m⟩)
  | .front =>
    (s, match s.queue.list.head? with
      | some x => ⟨.ok, none, [x]⟩
      | none => ⟨.ENOTRECOVERABLE, none, []⟩)
  | .back =>
    (s, match s.queue.list.getLast? with
      | some x => ⟨.ok, none, [x]⟩
      | none => ⟨.ENOTRECOVERABLE, none, []⟩)

/-- `cap + back` does not pass the largest `size_t`, or passing it does no harm
because `cap` divides its range. -/
def BackInRange (queue : Vqueue α) : Prop :=
  queue.len = 0 ∨ queue.cap + queue.back ≤ sizeMax ∨ queue.cap ∣ sizeMax

end Vqueue

end Dert
