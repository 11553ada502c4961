import Dert.Base.Prelude
import Mathlib.Logic.Function.Basic

universe u

namespace Dert

/-- Pointers are addresses, and zero is NULL. -/
structure VdllNode (Elem : Type u) where
  data : Elem
  prev : Nat
  next : Nat

/-- The list, and the nodes in memory by address. -/
structure Vdll (Elem : Type u) where
  nodes : Nat → Option (VdllNode Elem)
  ptr : Nat
  pos : Nat
  cap : Nat

variable {Elem : Type u}

/-- `none`, here and below, where a pointer to no node is followed. -/
def Vdll.setPrev (dll : Vdll Elem) (node pointer : Nat) : Option (Vdll Elem) :=
  (dll.nodes node).map fun n =>
    { dll with nodes := Function.update dll.nodes node (some { n with prev := pointer }) }

def Vdll.setNext (dll : Vdll Elem) (node pointer : Nat) : Option (Vdll Elem) :=
  (dll.nodes node).map fun n =>
    { dll with nodes := Function.update dll.nodes node (some { n with next := pointer }) }

def Vdll.setPrevUnless (dll : Vdll Elem) (node pointer : Nat) : Option (Vdll Elem) :=
  if node = 0 then some dll else dll.setPrev node pointer

def Vdll.setNextUnless (dll : Vdll Elem) (node pointer : Nat) : Option (Vdll Elem) :=
  if node = 0 then some dll else dll.setNext node pointer

/-- A new node, at the address that `malloc` answers with and with the data that `init` leaves. -/
def vdllNodeCreate (dll : Vdll Elem) (new : Nat) (data : Elem) : Vdll Elem :=
  { dll with nodes := Function.update dll.nodes new (some { data, prev := 0, next := 0 }) }

def vdllNodeDestroy (dll : Vdll Elem) (node : Nat) : Vdll Elem :=
  { dll with nodes := Function.update dll.nodes node none }

def vdllCreate (granted : Bool) (elemSize : Nat) : Option (Vdll Elem) :=
  if granted ∧ elemSize ≠ 0 then some { nodes := fun _ => none, ptr := 0, pos := 0, cap := 0 }
  else none

/-- The loop of `vdll_wind`, which has `left` steps to go before the increment. -/
def vdllWindLoop (cap : Nat) : (left i : Nat) → Vdll Elem → Option (Vdll Elem × Nat)
  | 0, i, dll => some (dll, i)
  | left + 1, i, dll =>
    if i + 1 < cap then do
      let node ← dll.nodes dll.ptr
      vdllWindLoop cap left (i + 1) { dll with ptr := node.next, pos := sizeT (dll.pos + 1) }
    else some (dll, i)

def vdllWind (dll : Vdll Elem) (increment : Nat) : Option (Vdll Elem × Nat) :=
  if dll.ptr = 0 then some (dll, 1)
  else do
    let (dll, i) ← vdllWindLoop dll.cap increment 0 dll
    some (dll, if i ≠ increment then 2 else 0)

def vdllRewindLoop : (i : Nat) → Vdll Elem → Option (Vdll Elem × Nat)
  | 0, dll => some (dll, 0)
  | i + 1, dll =>
    if dll.pos > 0 then do
      let node ← dll.nodes dll.ptr
      vdllRewindLoop i { dll with ptr := node.prev, pos := dll.pos - 1 }
    else some (dll, i + 1)

def vdllRewind (dll : Vdll Elem) (decrement : Nat) : Option (Vdll Elem × Nat) :=
  if dll.ptr = 0 then some (dll, 1)
  else do
    let (dll, i) ← vdllRewindLoop decrement dll
    some (dll, if i ≠ 0 then 2 else 0)

def vdllSeek (dll : Vdll Elem) (pos : Nat) : Option (Vdll Elem × Nat) :=
  if ¬ (dll.pos = 0 ∧ dll.cap = 0 ∧ pos = 0) ∧ dll.cap ≤ pos then some (dll, 2)
  else do
    let (sought, check) ←
      if dll.pos < pos then vdllWind dll (pos - dll.pos)
      else if pos < dll.pos then vdllRewind dll (dll.pos - pos)
      else some (dll, 0)
    if check ≠ 0 then some ({ sought with ptr := dll.ptr, pos := dll.pos }, 3)
    else some (sought, 0)

/-- The address of the node whose data is found, or NULL; none where there is no node at it. -/
def vdllGetDirect (dll : Vdll Elem) (pos : Nat) : Option (Vdll Elem × Nat) := do
  let (dll, code) ← vdllSeek dll pos
  if code ≠ 0 then some (dll, 0)
  else
    let _ ← dll.nodes dll.ptr
    some (dll, dll.ptr)

/-- What is returned, and what `memcpy` leaves in `dest`; it reads whatever `src` points to. -/
def vdllGet (dll : Vdll Elem) (pos : Nat) : Option (Vdll Elem × Nat × Elem) := do
  let (dll, src) ← vdllGetDirect dll pos
  let node ← dll.nodes src
  some (dll, 0, node.data)

def vdllSet (dll : Vdll Elem) (pos : Nat) (src : Elem) : Option (Vdll Elem × Nat) := do
  let (dll, code) ← vdllSeek dll pos
  if code ≠ 0 then some (dll, 2)
  else
    let node ← dll.nodes dll.ptr
    let nodes := Function.update dll.nodes dll.ptr (some { node with data := src })
    some ({ dll with nodes }, 0)

def vdllLen (dll : Vdll Elem) : Nat := dll.cap

def vdllJoin (dll : Vdll Elem) (prev next : Nat) : Option (Vdll Elem) :=
  if prev = 0 ∧ next = 0 then some { dll with ptr := 0 }
  else if prev = 0 then Vdll.setPrev { dll with ptr := next } next 0
  else if next = 0 then Vdll.setNext { dll with ptr := prev } prev 0
  else do
    let dll ← dll.setNext prev next
    let dll ← dll.setPrev next prev
    some { dll with ptr := prev }

def vdllUnlink (dll : Vdll Elem) : Option (Vdll Elem) := do
  let current ← dll.nodes dll.ptr
  let dll ← vdllJoin (vdllNodeDestroy dll dll.ptr) current.prev current.next
  some { dll with pos := dll.pos - 1, cap := dll.cap - 1 }

def vdllDeleteLoop : Nat → Vdll Elem → Option (Vdll Elem)
  | 0, dll => some dll
  | left + 1, dll => do vdllDeleteLoop left (← vdllUnlink dll)

def vdllDelete (dll : Vdll Elem) (pos numElems : Nat) : Option (Vdll Elem × Nat) :=
  if numElems = 0 then some (dll, 1)
  else do
    let (dll, code) ← vdllSeek dll pos
    if code ≠ 0 then some (dll, 2)
    else
      let (dll, code) ← vdllWind dll (numElems - 1)
      if code ≠ 0 then some (dll, 2)
      else
        let (dll, code) ← vdllRewind dll (numElems - 1)
        if code ≠ 0 then some (dll, 2)
        else
          let dll ← vdllDeleteLoop numElems dll
          some (dll, 0)

def vdllLink (after : Bool) (dll : Vdll Elem) (new : Nat) : Option (Vdll Elem) :=
  if dll.ptr = 0 then some { dll with ptr := new }
  else do
    let node ← dll.nodes dll.ptr
    if after then
      let dll ← dll.setPrev new node.prev
      let dll ← dll.setNext new dll.ptr
      let dll ← dll.setNextUnless node.prev new
      let dll ← dll.setPrev dll.ptr new
      some { dll with ptr := new }
    else
      let dll ← dll.setPrev new dll.ptr
      let dll ← dll.setNext new node.next
      let dll ← dll.setPrevUnless node.next new
      dll.setNext dll.ptr new

abbrev VdllAnswers (Elem : Type u) := Nat → Option (Nat × Elem)

def vdllInsertLoop (after : Bool) (answers : VdllAnswers Elem) (pos : Nat) :
    (left i : Nat) → Vdll Elem → Option (Vdll Elem × Nat)
  | 0, _, dll => some (dll, 0)
  | left + 1, i, dll =>
    match answers i with
    | none =>
      if i > 1 then do
        let (dll, _) ← vdllDelete dll (sizeT (pos + 1)) i
        some (dll, 3)
      else some (dll, 3)
    | some (new, data) => do
      let dll ← vdllLink after (vdllNodeCreate dll new data) new
      vdllInsertLoop after answers pos left (i + 1) { dll with cap := sizeT (dll.cap + 1) }

def _vdllInsert (answers : VdllAnswers Elem) (dll : Vdll Elem) (pos numElems : Nat)
    (after : Bool) : Option (Vdll Elem × Nat) :=
  if numElems = 0 then some (dll, 1)
  else do
    let (dll, code) ← vdllSeek dll pos
    if code ≠ 0 then some (dll, 2) else vdllInsertLoop after answers pos numElems 0 dll

def vdllInsert (answers : VdllAnswers Elem) (dll : Vdll Elem) (pos numElems : Nat) :
    Option (Vdll Elem × Nat) := _vdllInsert answers dll pos numElems false

def vdllGrow (answers : VdllAnswers Elem) (dll : Vdll Elem) (numElems : Nat) :
    Option (Vdll Elem × Nat) :=
  if numElems = 0 then some (dll, 1)
  else do
    let tail := if dll.cap > 1 then dll.cap - 1 else 0
    let (dll, code) ← _vdllInsert answers dll tail numElems true
    some (dll, if code ≠ 0 then 2 else 0)

def vdllShrink (dll : Vdll Elem) (numElems : Nat) : Option (Vdll Elem × Nat) :=
  if numElems = 0 then some (dll, 1)
  else do
    let (dll, code) ← vdllDelete dll (sizeT (dll.cap + (sizeMax - numElems))) numElems
    some (dll, if code ≠ 0 then 2 else 0)

end Dert
