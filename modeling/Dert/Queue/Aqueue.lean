import Dert.Base.Prelude
import Dert.Library.Cyclic
import Dert.Library.Machine
import Mathlib.Logic.Relation

universe u

namespace Dert

open Library Library.Cyclic

/-- A slot of `elems` is one element of `elem_size` bytes; the array has no end here, and which
of its slots lie in the block is told apart.  The producer owns `back`, the consumer owns `front`,
and `len` is atomic. -/
structure Aqueue (α : Type u) where
  elems : Nat → α
  front : Nat
  back : Nat
  len : Nat
  cap : Nat

variable {α : Type u}

def aqueueWrap (queue : Aqueue α) (pos : Nat) : Nat := pos % queue.cap

def aqueueInit (zero : α) (numElems : Nat) : Option (Aqueue α) :=
  if numElems = 0 then none
  else some { elems := fun _ => zero, front := 0, back := 0, len := 0, cap := numElems }

def aqueueLen (queue : Aqueue α) : Nat := queue.len

def aqueueCap (queue : Aqueue α) : Nat := queue.cap

/-- The slot of element `j` in a copy of `n` elements from cursor `pos` on, which is
split in two where it passes the last slot. -/
def aqueueSlot (queue : Aqueue α) (pos n j : Nat) : Nat :=
  let start := aqueueWrap queue pos
  let beforeWrapping := queue.cap - start
  if beforeWrapping ≥ n then start + j
  else if j < beforeWrapping then start + j
  else j - beforeWrapping

namespace Aqueue

/-- Where the producer is: outside a call, or before a step of `aqueue_enqueue` or
`aqueue_enqueue_some`. -/
inductive Producer (α : Type u)
  | returned (res : Ret) (numEnqueued : Option Nat)
  | enqueueLoad (src : α)
  | enqueueCopy (src : α)
  | enqueueBack (src : α)
  | enqueueAdd (src : α)
  | someLoad (src : List α)
  | someCopy (res : Ret) (src : List α) (copied : Nat)
  | someBack (res : Ret) (src : List α)
  | someAdd (res : Ret) (src : List α)

/-- Where the consumer is: outside a call, or before a step of `aqueue_front`, on its
own or in `aqueue_dequeue`, or of `aqueue_dequeue_some`. -/
inductive Consumer (α : Type u)
  | returned (res : Ret) (numDequeued : Option Nat)
  | peeked (dest : α)
  | frontLoad (dequeue : Bool)
  | frontCopy (dequeue : Bool)
  | dequeueFront (dest : α)
  | dequeueSub (dest : α)
  | someLoad (dequeueThisMany : Nat)
  | someCopy (res : Ret) (should : Nat) (dest : List α)
  | someFront (res : Ret) (dest : List α)
  | someSub (res : Ret) (dest : List α)

/-- `accepted` is what the producer was told was enqueued, `delivered` what the
consumer was given, oldest first. -/
structure State (α : Type u) where
  queue : Aqueue α
  producer : Producer α
  consumer : Consumer α
  accepted : List α
  delivered : List α

inductive Label (α : Type u)
  | enqueue (src : α)
  | enqueueSome (src : List α)
  | produce
  | front
  | dequeue
  | dequeueSome (dequeueThisMany : Nat)
  | consume

def State.callProducer (s : State α) (producer : Producer α) : Option (State α) :=
  match s.producer with
  | .returned _ _ => some { s with producer }
  | _ => none

def produce (s : State α) : Option (State α) :=
  let queue := s.queue
  match s.producer with
  | .returned _ _ => none
  | .enqueueLoad src =>
    if queue.len = queue.cap then some { s with producer := .returned .EXFULL none }
    else some { s with producer := .enqueueCopy src }
  | .enqueueCopy src =>
    let elems := Function.update queue.elems (aqueueWrap queue queue.back) src
    some { s with queue := { queue with elems }, producer := .enqueueBack src }
  | .enqueueBack src =>
    let back := aqueueWrap queue (sizeT (queue.back + 1))
    some { s with queue := { queue with back }, producer := .enqueueAdd src }
  | .enqueueAdd src =>
    some { s with
      queue := { queue with len := sizeT (queue.len + 1) }
      producer := .returned .ok none
      accepted := s.accepted ++ [src] }
  | .someLoad src =>
    if src.length = 0 then some { s with producer := .returned .EINVAL none }
    else
      let can := aqueueCap queue - aqueueLen queue
      if can = 0 then some { s with producer := .returned .EXFULL none }
      else
        let should := if can ≥ src.length then src.length else can
        let res := if can ≥ src.length then Ret.ok else .EXFULL
        some { s with producer := .someCopy res (src.take should) 0 }
  | .someCopy res src copied =>
    match src[copied]? with
    | some x =>
      let elems := Function.update queue.elems (aqueueSlot queue queue.back src.length copied) x
      some { s with queue := { queue with elems }, producer := .someCopy res src (copied + 1) }
    | none => some { s with producer := .someBack res src }
  | .someBack res src =>
    let back := sizeT (queue.back + src.length)
    some { s with queue := { queue with back }, producer := .someAdd res src }
  | .someAdd res src =>
    some { s with
      queue := { queue with len := sizeT (queue.len + src.length) }
      producer := .returned res (some src.length)
      accepted := s.accepted ++ src }

def State.callConsumer (s : State α) (consumer : Consumer α) : Option (State α) :=
  match s.consumer with
  | .returned _ _ => some { s with consumer }
  | .peeked _ => some { s with consumer }
  | _ => none

def consume (s : State α) : Option (State α) :=
  let queue := s.queue
  match s.consumer with
  | .returned _ _ => none
  | .peeked _ => none
  | .frontLoad dequeue =>
    if queue.len = 0 then
      some { s with consumer := .returned (if dequeue then .ENODATA else .ENOTRECOVERABLE) none }
    else some { s with consumer := .frontCopy dequeue }
  | .frontCopy dequeue =>
    let dest := queue.elems (aqueueWrap queue queue.front)
    some { s with consumer := if dequeue then .dequeueFront dest else .peeked dest }
  | .dequeueFront dest =>
    let front := aqueueWrap queue (sizeT (queue.front + 1))
    some { s with queue := { queue with front }, consumer := .dequeueSub dest }
  | .dequeueSub dest =>
    some { s with
      queue := { queue with len := sizeT (queue.len + (sizeMax - 1)) }
      consumer := .returned .ok none
      delivered := s.delivered ++ [dest] }
  | .someLoad dequeueThisMany =>
    if dequeueThisMany = 0 then some { s with consumer := .returned .EINVAL none }
    else
      let can := aqueueLen queue
      if can = 0 then some { s with consumer := .returned .ENODATA none }
      else
        let should := if can ≥ dequeueThisMany then dequeueThisMany else can
        let res := if can ≥ dequeueThisMany then Ret.ok else .ENODATA
        some { s with consumer := .someCopy res should [] }
  | .someCopy res should dest =>
    if dest.length < should then
      let x := queue.elems (aqueueSlot queue queue.front should dest.length)
      some { s with consumer := .someCopy res should (dest ++ [x]) }
    else some { s with consumer := .someFront res dest }
  | .someFront res dest =>
    let front := sizeT (queue.front + dest.length)
    some { s with queue := { queue with front }, consumer := .someSub res dest }
  | .someSub res dest =>
    some { s with
      queue := { queue with len := sizeT (queue.len + (sizeMax - dest.length)) }
      consumer := .returned res (some dest.length)
      delivered := s.delivered ++ dest }

def step (s : State α) : Label α → Option (State α)
  | .enqueue src => s.callProducer (.enqueueLoad src)
  | .enqueueSome src => s.callProducer (.someLoad src)
  | .produce => produce s
  | .front => s.callConsumer (.frontLoad false)
  | .dequeue => s.callConsumer (.frontLoad true)
  | .dequeueSome n => s.callConsumer (.someLoad n)
  | .consume => consume s

def start (queue : Aqueue α) : State α :=
  ⟨queue, .returned .ok none, .returned .ok none, [], []⟩

def machine (zero : α) (cap : Nat) : Machine (State α) (Label α) where
  init s := ∃ queue, aqueueInit zero cap = some queue ∧ s = start queue
  step := step

def State.writes (s : State α) : Option Nat :=
  match s.producer with
  | .enqueueCopy _ => some (aqueueWrap s.queue s.queue.back)
  | .someCopy _ src copied =>
    if copied < src.length then some (aqueueSlot s.queue s.queue.back src.length copied) else none
  | _ => none

def State.reads (s : State α) : Option Nat :=
  match s.consumer with
  | .frontCopy _ => some (aqueueWrap s.queue s.queue.front)
  | .someCopy _ should dest =>
    if dest.length < should then some (aqueueSlot s.queue s.queue.front should dest.length) else none
  | _ => none

def Label.ofConsumer : Label α → Bool
  | .front => true
  | .dequeue => true
  | .dequeueSome _ => true
  | .consume => true
  | _ => false

/-- The consumer can come to read slot `i` by steps of its own. -/
def State.MayRead (s : State α) (i : Nat) : Prop :=
  ∃ s', Relation.ReflTransGen (fun a b => ∃ l, Label.ofConsumer l = true ∧ step a l = some b) s s' ∧
    s'.reads = some i

def State.queued (s : State α) : List α :=
  window s.queue.elems s.queue.cap s.delivered.length s.queue.len

def Producer.pending : Producer α → List α
  | .enqueueCopy src => [src]
  | .enqueueBack src => [src]
  | .enqueueAdd src => [src]
  | .someCopy _ src _ => src
  | .someBack _ src => src
  | .someAdd _ src => src
  | _ => []

def State.produced (s : State α) : Nat := s.accepted.length + s.producer.pending.length

end Aqueue

end Dert
