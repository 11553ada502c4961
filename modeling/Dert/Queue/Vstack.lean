import Dert.Library.Resident
import Dert.Queue.Headers
import Dert.Queue.QueueLayout

namespace Dert

open Library

namespace Vstack

/-! The members of a `Vstack`, in order. -/

abbrev atElems : Nat := 0

abbrev atElemSize : Nat := 1

abbrev atStored : Nat := 2

abbrev atCap : Nat := 3

def numMembers : Nat := 4

end Vstack

open Vstack

def sizeofVstack : Nat := 32

def vstackAdvise (elemSize numElems : Nat) : Nat :=
  sizeT (sizeofVstack + sizeT (elemSize * numElems))

def vstackAdvisev (numStacks elemSize numElems : Nat) : Nat :=
  sizeT (numStacks * sizeT (sizeofVstack + sizeT (elemSize * numElems)))

def vstackMembers (m : Ram) (stack elems elemSize numElems : Nat) : Ram :=
  let m := m.setField stack atElems elems
  let m := m.setField stack atElemSize elemSize
  let m := m.setField stack atStored 0
  m.setField stack atCap numElems

/-- The return value, and what is stored in `dest`. -/
def vstackInit (m : Ram) (memory elemSize numElems : Nat) : Ram × Nat × Option Nat :=
  if memory = 0 ∨ elemSize = 0 ∨ numElems = 0 then (m, 1, none)
  else
    let m := m.memset memory 0 (vstackAdvise elemSize numElems)
    (vstackMembers m memory (memory + sizeofVstack) elemSize numElems, 0, some memory)

def vstackCreate (malloc : Nat → Option Nat) (m : Ram) (elemSize numElems : Nat) :
    Ram × Option Nat :=
  match malloc (vstackAdvise elemSize numElems) with
  | none => (m, none)
  | some memory =>
    match vstackInit m memory elemSize numElems with
    | (m, 0, ret) => (m, ret)
    | (m, _, _) => (m, none)

def vstackInitv (m : Ram) (numStacks memory elemSize numElems : Nat) :
    Ram × Nat × Option Nat :=
  if memory = 0 ∨ elemSize = 0 ∨ numElems = 0 then (m, 1, none)
  else
    let m := m.memset memory 0 (vstackAdvisev numStacks elemSize numElems)
    let setup m stack ptr := vstackMembers m stack ptr elemSize numElems
    let ptr := memory + sizeT (numStacks * sizeofVstack)
    (initvLoop sizeofVstack setup m memory
      (initvElems (sizeT (elemSize * numElems)) numStacks ptr), 0, some memory)

def vstackDeinit (m : Ram) (stack : Nat) : Ram × Nat :=
  if m.field stack atElems = 0 then (m, 0) else (m.memset stack 0 sizeofVstack, 0)

def vstackPush (m : Ram) (stack : Nat) (src : List UInt8) : Ram × Nat :=
  if m.field stack atElems = 0 then (m, 1)
  else if m.field stack atElemSize = 0 ∨ m.field stack atStored ≥ m.field stack atCap then (m, 2)
  else
    let pushed :=
      m.field stack atElems + sizeT (m.field stack atElemSize * m.field stack atStored)
    let m := m.memcpy pushed (src.take (m.field stack atElemSize))
    (m.setField stack atStored (sizeT (m.field stack atStored + 1)), 0)

def vstackTopDirect (m : Ram) (stack : Nat) : Option Nat :=
  if m.field stack atElems = 0 then none
  else if m.field stack atElemSize = 0 ∨ m.field stack atStored = 0 then none
  else
    let last := sizeT (m.field stack atStored + (sizeMax - 1))
    some (m.field stack atElems + sizeT (m.field stack atElemSize * last))

def vstackTop (m : Ram) (stack : Nat) : Nat × List UInt8 :=
  if m.field stack atElems = 0 then (1, [])
  else if m.field stack atElemSize = 0 ∨ m.field stack atStored = 0 then (2, [])
  else
    match vstackTopDirect m stack with
    | none => (3, [])
    | some top => (0, m.bytes top (m.field stack atElemSize))

def vstackPop (m : Ram) (stack : Nat) : Ram × Nat × List UInt8 :=
  if m.field stack atElems = 0 then (m, 1, [])
  else if m.field stack atElemSize = 0 ∨ m.field stack atStored = 0 then (m, 2, [])
  else
    match vstackTop m stack with
    | (0, dest) =>
      (m.setField stack atStored (sizeT (m.field stack atStored + (sizeMax - 1))), 0, dest)
    | (_, dest) => (m, 3, dest)

def vstackLen (m : Ram) (stack : Nat) : Nat := m.field stack atStored

def vstackCap (m : Ram) (stack : Nat) : Nat := m.field stack atCap

namespace Vstack

inductive Call
  | push (src : List UInt8)
  | pop
  | top
  | topDirect
  | len
  | cap
  | deinit

structure Reply where
  ret : Nat
  num : Option Nat
  dest : List UInt8
  deriving DecidableEq

def call (p : Place) (m : Ram) : Call → Ram × Reply
  | .push src =>
    let r := vstackPush m p.header src
    (r.1, ⟨r.2, none, []⟩)
  | .pop =>
    let r := vstackPop m p.header
    (r.1, ⟨r.2.1, none, r.2.2⟩)
  | .top =>
    let r := vstackTop m p.header
    (m, ⟨r.1, none, r.2⟩)
  | .topDirect => (m, ⟨0, (vstackTopDirect m p.header).map (· - p.elems), []⟩)
  | .len => (m, ⟨0, some (vstackLen m p.header), []⟩)
  | .cap => (m, ⟨0, some (vstackCap m p.header), []⟩)
  | .deinit =>
    let r := vstackDeinit m p.header
    (r.1, ⟨r.2, none, []⟩)

def allows (elemSize : Nat) : Call → Bool
  | .push src => src.length = elemSize
  | _ => true

def ends : Call → Bool
  | .deinit => true
  | _ => false

def extents (elemSize numElems : Nat) : Place → List Extent :=
  Place.extents (sizeofPointer * numMembers) (elemSize * numElems)

def vstacks (elemSize numElems : Nat) : Resident UInt8 Place Call Reply where
  call := call
  extents := extents elemSize numElems
  allows := allows elemSize
  ends := ends

structure Spec (cap : Nat) where
  list : List (List UInt8)
  bounded : list.length ≤ cap

namespace Spec

variable {cap : Nat}

def empty : Spec cap := ⟨[], Nat.zero_le _⟩

def push (s : Spec cap) (src : List UInt8) : Option (Spec cap) :=
  if h : s.list.length < cap then some ⟨src :: s.list, h⟩ else none

def pop : Spec cap → Option (List UInt8 × Spec cap)
  | ⟨[], _⟩ => none
  | ⟨x :: list, h⟩ => some (x, ⟨list, Nat.le_of_succ_le h⟩)

def call (elemSize : Nat) (s : Spec cap) : Call → Spec cap × Reply
  | .push src =>
    match s.push src with
    | some s => (s, ⟨0, none, []⟩)
    | none => (s, ⟨2, none, []⟩)
  | .pop =>
    match s.pop with
    | some (x, s) => (s, ⟨0, none, x⟩)
    | none => (s, ⟨2, none, []⟩)
  | .top =>
    match s.pop with
    | some (x, _) => (s, ⟨0, none, x⟩)
    | none => (s, ⟨2, none, []⟩)
  | .topDirect =>
    match s.pop with
    | some (_, rest) => (s, ⟨0, some (elemSize * rest.list.length), []⟩)
    | none => (s, ⟨0, none, []⟩)
  | .len => (s, ⟨0, some s.list.length, []⟩)
  | .cap => (s, ⟨0, some cap, []⟩)
  | .deinit => (s, ⟨0, none, []⟩)

end Spec

end Vstack

end Dert
