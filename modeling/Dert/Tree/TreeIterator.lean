import Dert.Library.LinkedTree
import Dert.Queue.Vqueue

universe u v

namespace Dert

open Library.LinkedTree

inductive TreeIteratorMarker
  | PRE
  | IN
  | POST
  | BFS
  deriving DecidableEq

/-- Of the union, `prev`, `current` and `next` serve the depth-first searches, and
`nodeQueue` the breadth-first one. -/
structure TreeIterator (Addr : Type u) where
  marker : TreeIteratorMarker
  numVisited : Nat
  maxNodes : Nat
  prev : Option Addr
  current : Option Addr
  next : Option Addr
  nodeQueue : Option (Vqueue (Option Addr))

variable {Addr : Type u} {Val : Type v} (nodes : Nodes Addr Val)

/-- The loop of `tree_iterator_init` down the left links.  The loops here take fuel, and are
`none` when it runs out. -/
def treeIteratorLeftmost : Nat → Addr → Option Addr
  | 0, _ => none
  | fuel + 1, next =>
    match (nodes next).lchild with
    | none => some next
    | some child => treeIteratorLeftmost fuel child

/-- `tree_iterator_init`; the inner result is none when it fails. -/
def treeIteratorInit (fuel : Nat) (root : Option Addr) (marker : TreeIteratorMarker)
    (maxNodes : Nat) : Option (Option (TreeIterator Addr)) :=
  if maxNodes = 0 then some none
  else
    let iterator : TreeIterator Addr :=
      { marker, numVisited := 0, maxNodes, prev := none, current := none, next := none,
        nodeQueue := none }
    match marker with
    | .PRE => some (some { iterator with next := root })
    | .IN | .POST =>
      match root with
      | none => some (some iterator)
      | some root =>
        (treeIteratorLeftmost nodes fuel root).map fun next =>
          some { iterator with next := some next }
    | .BFS =>
      some ((vqueueInit none maxNodes).bind fun queue =>
        match vqueueEnqueue queue root false with
        | (queue, .ok) => some { iterator with nodeQueue := some queue }
        | _ => none)

variable [DecidableEq Addr]

section PreOrder

/-- Where a left child has no sibling, the round leaves everything as it is. -/
def treeIteratorPreAboveLoop : Nat → Addr → Option (Option Addr)
  | 0, _ => none
  | fuel + 1, current =>
    match (nodes current).parent with
    | none => some none
    | some parent =>
      if (nodes parent).lchild = some current then
        match (nodes parent).rchild with
        | some next => some (some next)
        | none => treeIteratorPreAboveLoop fuel current
      else if (nodes parent).rchild = some current then treeIteratorPreAboveLoop fuel parent
      else some none

def treeIteratorPreFindSmallestAbove (fuel : Nat) (current : Addr) : Option (Option Addr) :=
  if (nodes current).parent = none then some none else treeIteratorPreAboveLoop nodes fuel current

def treeIteratorPreNext (fuel : Nat) (iterator : TreeIterator Addr) :
    Option (TreeIterator Addr × Option Addr) :=
  let willReturnThis := iterator.next
  let iterator := { iterator with prev := iterator.current, current := iterator.next, next := none }
  match willReturnThis with
  | none => some (iterator, none)
  | some current =>
    if (nodes current).lchild ≠ none then
      some ({ iterator with next := (nodes current).lchild }, some current)
    else if (nodes current).rchild ≠ none then
      some ({ iterator with next := (nodes current).rchild }, some current)
    else
      (treeIteratorPreFindSmallestAbove nodes fuel current).map fun next =>
        ({ iterator with next }, some current)

end PreOrder

section InOrder

def treeIteratorInFindSmallestBelow (fuel : Nat) (current : Addr) : Option (Option Addr) :=
  match (nodes current).rchild with
  | none => some none
  | some child => (treeIteratorLeftmost nodes fuel child).map some

def treeIteratorInAboveLoop : Nat → Addr → Option (Option Addr)
  | 0, _ => none
  | fuel + 1, current =>
    match (nodes current).parent with
    | none => some none
    | some parent =>
      if (nodes parent).lchild = some current then some (some parent)
      else if (nodes parent).rchild = some current then treeIteratorInAboveLoop fuel parent
      else some none

def treeIteratorInFindSmallestAbove (fuel : Nat) (current : Addr) : Option (Option Addr) :=
  if (nodes current).parent = none then some none else treeIteratorInAboveLoop nodes fuel current

def isLchild (parent : Option Addr) (child : Addr) : Bool :=
  parent.any fun parent => (nodes parent).lchild = some child

def isRchild (parent : Option Addr) (child : Addr) : Bool :=
  parent.any fun parent => (nodes parent).rchild = some child

def treeIteratorInNext (fuel : Nat) (iterator : TreeIterator Addr) :
    Option (TreeIterator Addr × Option Addr) :=
  let willReturnThis := iterator.next
  let iterator := { iterator with prev := iterator.current, current := iterator.next, next := none }
  match willReturnThis with
  | none => some (iterator, none)
  | some current =>
    let parent := (nodes current).parent
    let currentIsLchildOfSomething := isLchild nodes parent current
    let currentIsRchildOfPrev :=
      parent ≠ none ∧ iterator.prev = parent ∧ isRchild nodes iterator.prev current
    let prevIsLchildOfCurrent := iterator.prev = (nodes current).lchild
    let next :=
      if iterator.prev = none then some parent
      else if currentIsLchildOfSomething ∨ currentIsRchildOfPrev ∨ prevIsLchildOfCurrent then
        if (nodes current).rchild ≠ none then treeIteratorInFindSmallestBelow nodes fuel current
        else treeIteratorInFindSmallestAbove nodes fuel current
      else treeIteratorInFindSmallestBelow nodes fuel current
    next.map fun next => ({ iterator with next }, some current)

end InOrder

section PostOrder

def treeIteratorPostBelowLoop : Nat → Addr → Option Addr
  | 0, _ => none
  | fuel + 1, current =>
    match (nodes current).lchild, (nodes current).rchild with
    | some child, _ => treeIteratorPostBelowLoop fuel child
    | none, some child => treeIteratorPostBelowLoop fuel child
    | none, none => some current

def treeIteratorPostFindSmallestBelow (fuel : Nat) (current : Addr) : Option Addr :=
  match (nodes current).rchild with
  | none => some current
  | some child => treeIteratorPostBelowLoop nodes fuel child

def treeIteratorPostAboveLoop : Nat → Addr → Option (Option Addr)
  | 0, _ => none
  | fuel + 1, current =>
    match (nodes current).parent with
    | none => some none
    | some parent =>
      if (nodes parent).lchild = some current then
        (treeIteratorPostFindSmallestBelow nodes fuel parent).map some
      else if (nodes parent).rchild = some current then treeIteratorPostAboveLoop fuel parent
      else some none

def treeIteratorPostFindSmallestAbove (fuel : Nat) (current : Addr) : Option (Option Addr) :=
  if (nodes current).parent = none then some none else treeIteratorPostAboveLoop nodes fuel current

def treeIteratorPostNext (fuel : Nat) (iterator : TreeIterator Addr) :
    Option (TreeIterator Addr × Option Addr) :=
  let willReturnThis := iterator.next
  let iterator := { iterator with prev := iterator.current, current := iterator.next, next := none }
  match willReturnThis with
  | none => some (iterator, none)
  | some current =>
    let next :=
      if iterator.prev = none then treeIteratorPostFindSmallestAbove nodes fuel current
      else
        match (nodes current).parent with
        | none => some none
        | some parent =>
          if (nodes parent).rchild = some current then some (some parent)
          else if (nodes parent).lchild = some current then
            (treeIteratorPostFindSmallestBelow nodes fuel parent).map some
          else some none
    next.map fun next => ({ iterator with next }, some current)

end PostOrder

section BreadthFirst

omit [DecidableEq Addr]

/-- An enqueue of a child, where there is one; none when the queue is full. -/
def treeIteratorBfsPut (queue : Vqueue (Option Addr)) (child : Option Addr) :
    Vqueue (Option Addr) × Bool :=
  match child with
  | none => (queue, true)
  | some child =>
    match vqueueEnqueue queue (some child) false with
    | (queue, ret) => (queue, ret = .ok)

def treeIteratorBfsNext (iterator : TreeIterator Addr) :
    TreeIterator Addr × Option Addr :=
  match iterator.marker, iterator.nodeQueue with
  | .BFS, some queue =>
    match vqueueDequeue queue with
    | (queue, .ok, some (some node)) =>
      match treeIteratorBfsPut queue (nodes node).lchild with
      | (queue, false) => ({ iterator with nodeQueue := some queue }, none)
      | (queue, true) =>
        match treeIteratorBfsPut queue (nodes node).rchild with
        | (queue, false) => ({ iterator with nodeQueue := some queue }, none)
        | (queue, true) => ({ iterator with nodeQueue := some queue }, some node)
    | (queue, _, _) => ({ iterator with nodeQueue := some queue }, none)
  | _, _ => (iterator, none)

end BreadthFirst

def treeIteratorNext (fuel : Nat) (iterator : TreeIterator Addr) :
    Option (TreeIterator Addr × Option Addr) :=
  match iterator.marker with
  | .PRE => treeIteratorPreNext nodes fuel iterator
  | .IN => treeIteratorInNext nodes fuel iterator
  | .POST => treeIteratorPostNext nodes fuel iterator
  | .BFS => some (treeIteratorBfsNext nodes iterator)

def treeIteratorCalls (fuel : Nat) (iterator : TreeIterator Addr) :
    Nat → Option (TreeIterator Addr × List (Option Addr))
  | 0 => some (iterator, [])
  | n + 1 => do
    let (iterator, results) ← treeIteratorCalls fuel iterator n
    let (iterator, node) ← treeIteratorNext nodes fuel iterator
    some (iterator, results ++ [node])

def treeIteratorWalk (fuel : Nat) (root : Option Addr) (marker : TreeIteratorMarker)
    (maxNodes n : Nat) : Option (List (Option Addr)) := do
  let iterator ← (treeIteratorInit nodes fuel root marker maxNodes).join
  let (_, results) ← treeIteratorCalls nodes fuel iterator n
  some results

end Dert
