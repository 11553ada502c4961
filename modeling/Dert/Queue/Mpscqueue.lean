import Dert.Base.Prelude
import Dert.Library.Machine
import Mathlib.Logic.Function.Basic

universe u v

namespace Dert

open Library

/-- A slot of `elems` is one element of `elem_size` bytes; `producer_mutex` is part of
the state of the threads. -/
structure Mpscqueue (α : Type u) where
  elems : Nat → α
  front : Nat
  back : Nat
  len : Nat
  cap : Nat

variable {α : Type u} {Thread : Type v}

def mpscqueueWrap (queue : Mpscqueue α) (pos : Nat) : Nat := pos % queue.cap

def mpscqueueInit (zero : α) (numElems : Nat) : Option (Mpscqueue α) :=
  if numElems = 0 then none
  else some { elems := fun _ => zero, front := 0, back := 0, len := 0, cap := numElems }

namespace Mpscqueue

/-- Where a producer is: outside a call, or before a step of `mpscqueue_enqueue`. -/
inductive Producer (α : Type u)
  | returned (ret : Nat)
  | lock (src : α)
  | load (src : α)
  | copy (src : α)
  | back (src : α)
  | add (src : α)
  | unlock

/-- Where the consumer is: outside a call, or before a step of `mpscqueue_front`, on
its own or in `mpscqueue_dequeue`.  `mpscqueue_front_direct` loads `len` once more. -/
inductive Consumer (α : Type u)
  | returned (ret : Nat)
  | peeked (dest : α)
  | frontLoad (dequeue : Bool)
  | directLoad (dequeue : Bool)
  | copy (dequeue : Bool)
  | front (dest : α)
  | sub (dest : α)

/-- `enqueued` is what was added, by whom, and `dequeued` what the consumer was given,
oldest first. -/
structure State (Thread : Type v) (α : Type u) where
  queue : Mpscqueue α
  producerMutex : Option Thread
  producer : Thread → Producer α
  consumer : Consumer α
  enqueued : List (Thread × α)
  dequeued : List α

inductive Label (Thread : Type v) (α : Type u)
  | enqueue (t : Thread) (src : α)
  | produce (t : Thread)
  | front
  | dequeue
  | consume

variable [DecidableEq Thread]

def State.setProducer (s : State Thread α) (t : Thread) (p : Producer α) : State Thread α :=
  { s with producer := Function.update s.producer t p }

/-- A full queue returns 3 with the mutex still locked. -/
def produce (s : State Thread α) (t : Thread) : Option (State Thread α) :=
  let queue := s.queue
  match s.producer t with
  | .returned _ => none
  | .lock src =>
    match s.producerMutex with
    | none => some ({ s with producerMutex := some t }.setProducer t (.load src))
    | some _ => none
  | .load src =>
    if queue.len = queue.cap then some (s.setProducer t (.returned 3))
    else some (s.setProducer t (.copy src))
  | .copy src =>
    let elems := Function.update queue.elems (mpscqueueWrap queue queue.back) src
    some ({ s with queue := { queue with elems } }.setProducer t (.back src))
  | .back src =>
    let back := mpscqueueWrap queue (sizeT (queue.back + 1))
    some ({ s with queue := { queue with back } }.setProducer t (.add src))
  | .add src =>
    let len := sizeT (queue.len + 1)
    some ({ s with
      queue := { queue with len }
      enqueued := s.enqueued ++ [(t, src)] }.setProducer t .unlock)
  | .unlock => some ({ s with producerMutex := none }.setProducer t (.returned 0))

omit [DecidableEq Thread] in
def State.callConsumer (s : State Thread α) (consumer : Consumer α) :
    Option (State Thread α) :=
  match s.consumer with
  | .returned _ => some { s with consumer }
  | .peeked _ => some { s with consumer }
  | _ => none

omit [DecidableEq Thread] in
def consume (s : State Thread α) : Option (State Thread α) :=
  let queue := s.queue
  match s.consumer with
  | .returned _ => none
  | .peeked _ => none
  | .frontLoad dequeue =>
    if queue.len = 0 then some { s with consumer := .returned (if dequeue then 1 else 2) }
    else some { s with consumer := .directLoad dequeue }
  | .directLoad dequeue =>
    if queue.len = 0 then some { s with consumer := .returned (if dequeue then 1 else 3) }
    else some { s with consumer := .copy dequeue }
  | .copy dequeue =>
    let dest := queue.elems (mpscqueueWrap queue queue.front)
    some { s with consumer := if dequeue then .front dest else .peeked dest }
  | .front dest =>
    let front := mpscqueueWrap queue (sizeT (queue.front + 1))
    some { s with queue := { queue with front }, consumer := .sub dest }
  | .sub dest =>
    let len := sizeT (queue.len + (sizeMax - 1))
    some { s with
      queue := { queue with len }
      consumer := .returned 0
      dequeued := s.dequeued ++ [dest] }

def step (s : State Thread α) : Label Thread α → Option (State Thread α)
  | .enqueue t src =>
    match s.producer t with
    | .returned _ => some (s.setProducer t (.lock src))
    | _ => none
  | .produce t => produce s t
  | .front => s.callConsumer (.frontLoad false)
  | .dequeue => s.callConsumer (.frontLoad true)
  | .consume => consume s

omit [DecidableEq Thread] in
def start (queue : Mpscqueue α) : State Thread α :=
  ⟨queue, none, fun _ => .returned 0, .returned 0, [], []⟩

def machine (Thread : Type v) [DecidableEq Thread] (zero : α) (cap : Nat) :
    Machine (State Thread α) (Label Thread α) where
  init s := ∃ queue, mpscqueueInit zero cap = some queue ∧ s = start queue
  step := step

omit [DecidableEq Thread] in
def LockDiscipline (s : State Thread α) : Prop :=
  ∀ t ret, s.producer t = .returned ret → s.producerMutex ≠ some t

def Label.startsCall (t : Thread) : Label Thread α → Bool
  | .enqueue u _ => u = t
  | _ => false

def Label.ofProducer (t : Thread) : Label Thread α → Bool
  | .produce u => u = t
  | _ => false

def lastCall (t : Thread) (tr : List (State Thread α × Label Thread α)) :
    List (State Thread α × Label Thread α) :=
  (tr.takeWhile fun p => !p.2.startsCall t).filter fun p => p.2.ofProducer t

def FailedUnchanged (tr : List (State Thread α × Label Thread α)) (s : State Thread α) : Prop :=
  ∀ t ret, s.producer t = .returned ret → ret ≠ 0 →
    ∀ p ∈ lastCall t tr, ∀ s', step p.1 p.2 = some s' → s'.queue = p.1.queue

/-- A producer's load of `len` finds the queue full. -/
def FindsFull (s : State Thread α) (l : Label Thread α) : Prop :=
  ∃ t src, l = .produce t ∧ s.producer t = .load src ∧ s.queue.len = s.queue.cap

end Mpscqueue

end Dert
