import Dert.Base.Prelude
import Dert.Library.Machine
import Mathlib.Logic.Function.Basic

namespace Dert

structure Varray where
  elems : Nat
  elemSize : Nat
  stored : Nat
  cap : Nat

/-- The bytes of every heap block that is alive, by its address.  Zero is NULL. -/
abbrev Heap := Nat → Option (List UInt8)

/-- The block that the allocator grants, and what its bytes hold. -/
structure Grant where
  address : Nat
  garbage : Nat → UInt8

/-- A loop has not ended within the fuel, or memory was touched outside of a live block. -/
inductive Fault
  | hangs
  | wild
  deriving DecidableEq

namespace Heap

/-- The bytes of a block that `realloc` has moved: the old ones, as far as they go. -/
def kept (bytes : List UInt8) (size : Nat) (garbage : Nat → UInt8) : List UInt8 :=
  (List.range size).map fun i => bytes.getD i (garbage i)

def overwrite (bytes : List UInt8) (offset : Nat) (src : List UInt8) : List UInt8 :=
  bytes.take offset ++ src ++ bytes.drop (offset + src.length)

variable (heap : Heap)

def calloc (count size : Nat) (answer : Option Grant) : Heap × Nat :=
  match answer with
  | none => (heap, 0)
  | some grant =>
    if ptrdiffMax < count * size then (heap, 0)
    else
      (Function.update heap grant.address (some (List.replicate (count * size) 0)), grant.address)

/-- `realloc` of no bytes frees the block, and answers NULL where it does not grant another. -/
def realloc (ptr size : Nat) (answer : Option Grant) : Except Fault (Heap × Nat) :=
  match heap ptr with
  | none => .error .wild
  | some bytes =>
    match answer with
    | none => .ok (if size = 0 then Function.update heap ptr none else heap, 0)
    | some grant =>
      if ptrdiffMax < size then .ok (heap, 0)
      else
        .ok (Function.update (Function.update heap ptr none) grant.address
          (some (kept bytes size grant.garbage)), grant.address)

def free (ptr : Nat) : Except Fault Heap :=
  match heap ptr with
  | none => .error .wild
  | some _ => .ok (Function.update heap ptr none)

def store (ptr offset : Nat) (src : List UInt8) : Except Fault Heap :=
  match heap ptr with
  | none => .error .wild
  | some bytes =>
    if offset + src.length ≤ bytes.length then
      .ok (Function.update heap ptr (some (overwrite bytes offset src)))
    else .error .wild

def load (ptr offset count : Nat) : Except Fault (List UInt8) :=
  match heap ptr with
  | none => .error .wild
  | some bytes =>
    if offset + count ≤ bytes.length then .ok ((bytes.drop offset).take count) else .error .wild

end Heap

namespace Varray

structure State where
  heap : Heap
  array : Varray

end Varray

open Varray (State)

def varrayInit (elemSize : Nat) : Option Varray :=
  if elemSize = 0 then none else some { elems := 0, elemSize, stored := 0, cap := 0 }

def varrayDeinit (s : State) : Except Fault Heap :=
  if s.array.elems ≠ 0 then s.heap.free s.array.elems else .ok s.heap

/-- NULL, or how far the element is into the block at `elems`. -/
def varrayGetDirect (array : Varray) (pos : Nat) : Option Nat :=
  if array.stored ≤ pos then none
  else
    let offset := sizeT (pos * array.elemSize)
    if array.elems = 0 ∧ offset = 0 then none else some offset

def varrayGet (s : State) (pos : Nat) : Except Fault (Nat × Option (List UInt8)) :=
  match varrayGetDirect s.array pos with
  | none => .ok (2, none)
  | some src => (s.heap.load s.array.elems src s.array.elemSize).map fun dest => (0, some dest)

def varraySet (s : State) (pos : Nat) (src : Nat → UInt8) : Except Fault (State × Nat) :=
  match varrayGetDirect s.array pos with
  | none => .ok (s, 1)
  | some dest =>
    (s.heap.store s.array.elems dest ((List.range s.array.elemSize).map src)).map fun heap =>
      ({ s with heap }, 0)

def varrayGrowLoop (atLeast : Nat) : Nat → Nat → Except Fault Nat
  | 0, _ => .error .hangs
  | fuel + 1, newCap =>
    if newCap < atLeast then varrayGrowLoop atLeast fuel (sizeT (2 * newCap)) else .ok newCap

def varrayGrow (fuel : Nat) (s : State) (increase : Nat) (answer : Option Grant) :
    Except Fault (State × Nat) :=
  let array := s.array
  if increase = 0 then .ok (s, 3)
  else if array.elems = 0 then
    match s.heap.calloc increase array.elemSize answer with
    | (heap, 0) => .ok ({ s with heap }, 4)
    | (heap, elems) =>
      .ok ({ heap, array := { array with
        elems, stored := sizeT (array.stored + increase), cap := sizeT (array.cap + increase) } }, 0)
  else do
    let newCap ← varrayGrowLoop (sizeT (array.cap + increase)) fuel (sizeT (array.cap + 1))
    match ← s.heap.realloc array.elems (sizeT (newCap * array.elemSize)) answer with
    | (heap, 0) => .ok ({ s with heap }, 5)
    | (heap, newElems) =>
      let added := sizeT (sizeT (newCap + (sizeMax - array.cap)) * array.elemSize)
      let heap ← heap.store newElems (sizeT (array.cap * array.elemSize)) (List.replicate added 0)
      .ok ({ heap, array := { array with
        elems := newElems, stored := sizeT (array.stored + increase), cap := newCap } }, 0)

def varrayShrink (s : State) (decrease : Nat) (answer : Option Grant) :
    Except Fault (State × Nat) :=
  let array := s.array
  if decrease = 0 then .ok (s, 3)
  else if array.cap < decrease then .ok (s, 4)
  else do
    let cap := array.cap - decrease
    match ← s.heap.realloc array.elems (sizeT (cap * array.elemSize)) answer with
    | (heap, 0) => .ok ({ s with heap }, 5)
    | (heap, dest) =>
      let stored := if cap < array.stored then cap else array.stored
      .ok ({ heap, array := { array with elems := dest, stored, cap } }, 0)

def varrayRealloc (fuel : Nat) (s : State) (newSize : Nat) (answer : Option Grant) :
    Except Fault (State × Nat) :=
  if newSize = s.array.cap then .ok (s, 0)
  else if s.array.cap < newSize then varrayGrow fuel s (newSize - s.array.cap) answer
  else varrayShrink s (s.array.cap - newSize) answer

def varrayResize (fuel : Nat) (s : State) (newSize : Nat) (answer : Option Grant) :
    Except Fault (State × Nat) :=
  if newSize = s.array.stored then .ok (s, 0)
  else if s.array.stored < newSize then
    if s.array.cap < newSize then varrayRealloc fuel s newSize answer
    else .ok ({ s with array := { s.array with stored := newSize } }, 0)
  else .ok ({ s with array := { s.array with stored := newSize } }, 0)

def varrayLen (array : Varray) : Nat := array.stored

namespace Varray

/-- A call, with the allocator's answer to the request it makes, if any. -/
inductive Call
  | resize (newSize : Nat) (answer : Option Grant)
  | realloc (newSize : Nat) (answer : Option Grant)
  | set (pos : Nat) (src : Nat → UInt8)

def call (fuel : Nat) (s : State) : Call → Except Fault (State × Nat)
  | .resize newSize answer => varrayResize fuel s newSize answer
  | .realloc newSize answer => varrayRealloc fuel s newSize answer
  | .set pos src => varraySet s pos src

/-- A block that is granted is none of the live ones, but for the one that is given up for it. -/
def Grants (s : State) : Option Grant → Prop
  | none => True
  | some grant =>
    grant.address ≠ 0 ∧ (s.heap grant.address = none ∨ grant.address = s.array.elems)

instance (s : State) (answer : Option Grant) : Decidable (Grants s answer) :=
  match answer with
  | none => isTrue trivial
  | some _ => inferInstanceAs (Decidable (_ ∧ _))

def Allowed (s : State) : Call → Prop
  | .resize newSize answer => newSize < sizeMax ∧ Grants s answer
  | .realloc newSize answer => newSize < sizeMax ∧ Grants s answer
  | .set _ _ => True

instance (s : State) (c : Call) : Decidable (Allowed s c) :=
  match c with
  | .resize _ _ => inferInstanceAs (Decidable (_ ∧ _))
  | .realloc _ _ => inferInstanceAs (Decidable (_ ∧ _))
  | .set _ _ => isTrue trivial

def machine (fuel elemSize : Nat) : Library.Machine State Call where
  init s := varrayInit elemSize = some s.array ∧ s.heap 0 = none
  step s c := if Allowed s c then (call fuel s c).toOption.map Prod.fst else none

end Varray

end Dert
