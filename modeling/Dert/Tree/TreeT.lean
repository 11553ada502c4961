import Dert.Base.Prelude
import Dert.Library.LinkedTree

namespace Dert

open Library.LinkedTree

/-- The address of a node is its index in `nodes`. -/
abbrev TreeNode := Node Nat UInt8

/-- Behind the tree itself its block has room for `room` nodes. -/
structure TreeTree where
  root : Option Nat
  nodes : Nodes Nat UInt8
  numNodes : Nat
  maxNodes : Nat
  room : Nat

def sizeofTreeTree : Nat := 32

def sizeofTreeNode : Nat := 32

def zeroNode : TreeNode := ⟨0, none, none, none⟩

def treeAdvise (maxNodes : Nat) : Nat :=
  sizeT (sizeofTreeTree + sizeT (maxNodes * sizeofTreeNode))

/-- On a block of `size` bytes; `none` when it writes outside of the block, and `some none` when
it refuses. -/
def treeInit (size maxNodes : Nat) : Option (Option TreeTree) :=
  if maxNodes = 0 then some none
  else if size < sizeofTreeTree then none
  else some (some {
    root := none
    nodes := fun _ => zeroNode
    numNodes := 0
    maxNodes
    room := (size - sizeofTreeTree) / sizeofTreeNode })

/-- `some none` is NULL.  The block is smaller than the tree itself where `treeAdvise` wraps to
zero, which `malloc` grants. -/
def treeCreate (granted : Bool) (maxNodes : Nat) : Option (Option TreeTree) :=
  if maxNodes = 0 then some none
  else if granted && treeAdvise maxNodes ≤ ptrdiffMax then treeInit (treeAdvise maxNodes) maxNodes
  else some none

def treeCompare (val1 val2 : UInt8) : Int := (val1.toNat : Int) - val2.toNat

def treeHarvest (tree : TreeTree) : Except Ret (TreeTree × Nat) :=
  if tree.numNodes = tree.maxNodes then .error .ENOMEM
  else .ok ({ tree with numNodes := tree.numNodes + 1 }, tree.numNodes)

def treeReap (tree : TreeTree) (node : Nat) : TreeTree :=
  { tree with nodes := Function.update tree.nodes node zeroNode }

/-- `none` when the node lies outside the block. -/
def treeNodeInit (tree : TreeTree) (node : Nat) (val : UInt8) : Option TreeTree :=
  if node < tree.room then
    some { tree with nodes := Function.update tree.nodes node { zeroNode with val } }
  else none

def treeNodeInsert (tree : TreeTree) (val : UInt8) (expectedParent : Option Nat) :
    Option (TreeTree × Ret) :=
  match treeHarvest tree with
  | .error ret => some (tree, ret)
  | .ok (tree, newNode) =>
    (treeNodeInit tree newNode val).map fun tree =>
      match expectedParent with
      | none =>
        if tree.root ≠ none then (treeReap tree newNode, .ENOTRECOVERABLE)
        else
          ({ tree with root := some newNode
                       nodes := setParent tree.nodes newNode none }, .ok)
      | some parent =>
        let nodes :=
          if treeCompare val (tree.nodes parent).val < 0 then
            setLchild tree.nodes parent (some newNode)
          else setRchild tree.nodes parent (some newNode)
        ({ tree with nodes := setParent nodes newNode (some parent) }, .ok)

/-- The loop of `tree_insert`.  This and the loops below take fuel, and are `none` when
it runs out. -/
def treeInsertLoop (nodes : Nodes Nat UInt8) (val : UInt8) :
    Nat → Option Nat → Option Nat → Option (Option Nat)
  | _, parent, none => some parent
  | 0, _, some _ => none
  | fuel + 1, _, some current =>
    if treeCompare val (nodes current).val < 0 then
      treeInsertLoop nodes val fuel (some current) (nodes current).lchild
    else treeInsertLoop nodes val fuel (some current) (nodes current).rchild

def treeInsert (tree : TreeTree) (val : UInt8) : Option (TreeTree × Ret) :=
  if tree.numNodes = tree.maxNodes then some (tree, .EINVAL)
  else
    (treeInsertLoop tree.nodes val tree.numNodes none tree.root).bind fun parent =>
      treeNodeInsert tree val parent

def treeLookupLoop (nodes : Nodes Nat UInt8) (val : UInt8) :
    Nat → Option Nat → Option (Option Nat)
  | _, none => some none
  | 0, some _ => none
  | fuel + 1, some current =>
    if treeCompare val (nodes current).val = 0 then some (some current)
    else if treeCompare val (nodes current).val < 0 then
      treeLookupLoop nodes val fuel (nodes current).lchild
    else treeLookupLoop nodes val fuel (nodes current).rchild

def treeLookup (tree : TreeTree) (val : UInt8) : Option (Option Nat) :=
  treeLookupLoop tree.nodes val tree.numNodes tree.root

def assignParent (nodes : Nodes Nat UInt8) (ptr up : Option Nat) : Option (Nodes Nat UInt8) :=
  ptr.map fun node => setParent nodes node up

def linkLchild (nodes : Nodes Nat UInt8) (parent : Nat) (child up : Option Nat) :
    Option (Nodes Nat UInt8) :=
  let nodes := setLchild nodes parent child
  assignParent nodes (nodes parent).lchild up

def linkRchild (nodes : Nodes Nat UInt8) (parent : Nat) (child up : Option Nat) :
    Option (Nodes Nat UInt8) :=
  let nodes := setRchild nodes parent child
  assignParent nodes (nodes parent).rchild up

def treeReorderRolLoop (nodes : Nodes Nat UInt8) : Nat → Nat → Option Nat → Option Nat
  | _, parent, none => some parent
  | 0, _, some _ => none
  | fuel + 1, _, some current => treeReorderRolLoop nodes fuel current (nodes current).rchild

def treeReorderRolIn (fuel : Nat) (tree : TreeTree) (lchild rchild : Option Nat) :
    Option (TreeTree × Ret) :=
  match lchild, rchild with
  | some lchild, some rchild =>
    let lchildRchild := (tree.nodes lchild).rchild
    let rchildLchild := (tree.nodes rchild).lchild
    let nodes := setParent (setLchild tree.nodes rchild (some lchild)) lchild (some rchild)
    (treeReorderRolLoop nodes fuel lchild lchildRchild).map fun parent =>
      let nodes := setRchild nodes parent rchildLchild
      ({ tree with nodes := adopt nodes rchildLchild (some parent) }, .ok)
  | _, _ => some (tree, .EINVAL)

def treeReorderRol (tree : TreeTree) (lchild rchild : Option Nat) : Option (TreeTree × Ret) :=
  treeReorderRolIn tree.numNodes tree lchild rchild

def treeReorderRorLoop (nodes : Nodes Nat UInt8) : Nat → Nat → Option Nat → Option Nat
  | _, parent, none => some parent
  | 0, _, some _ => none
  | fuel + 1, _, some current => treeReorderRorLoop nodes fuel current (nodes current).lchild

def treeReorderRor (fuel : Nat) (tree : TreeTree) (lchild rchild : Option Nat) :
    Option (TreeTree × Ret) :=
  match lchild, rchild with
  | some lchild, some rchild =>
    let lchildRchild := (tree.nodes lchild).rchild
    let rchildLchild := (tree.nodes rchild).lchild
    let nodes := setRchild tree.nodes lchild (some rchild)
    (treeReorderRorLoop nodes fuel rchild rchildLchild).map fun parent =>
      ({ tree with nodes := setLchild nodes parent lchildRchild }, .ok)
  | _, _ => some (tree, .EINVAL)

def treeReorderMoveRotate (tree : TreeTree) (willBeMoved : Nat) : Option (TreeTree × Ret) :=
  let node := tree.nodes willBeMoved
  match treeReorderRol tree node.lchild node.rchild with
  | none => none
  | some (tree, .ok) =>
    let node := tree.nodes willBeMoved
    match node.rchild, node.parent with
    | none, _ => none
    | some rchild, none =>
      some ({ tree with root := some rchild, nodes := setParent tree.nodes rchild none }, .ok)
    | some rchild, some parent =>
      let nodes :=
        if treeCompare (tree.nodes rchild).val (tree.nodes parent).val < 0 then
          linkLchild tree.nodes parent (some rchild) (some parent)
        else linkRchild tree.nodes parent (some rchild) (some parent)
      nodes.map fun nodes => ({ tree with nodes }, .ok)
  | some (tree, _) => some (tree, .ENOTRECOVERABLE)

def treeReorderMove (tree : TreeTree) (willBeMoved : Nat) : Option (TreeTree × Ret) :=
  let node := tree.nodes willBeMoved
  match node.parent with
  | none =>
    if tree.root ≠ some willBeMoved then some (tree, .ENOTRECOVERABLE)
    else
      match node.lchild, node.rchild with
      | some _, some _ => treeReorderMoveRotate tree willBeMoved
      | some lchild, none =>
        some ({ tree with root := some lchild, nodes := setParent tree.nodes lchild none }, .ok)
      | none, some rchild =>
        some ({ tree with root := some rchild, nodes := setParent tree.nodes rchild none }, .ok)
      | none, none => some ({ tree with root := none }, .ok)
  | some parent =>
    let isLchild := (tree.nodes parent).lchild = some willBeMoved
    match node.lchild, node.rchild with
    | some _, some _ => treeReorderMoveRotate tree willBeMoved
    | none, none =>
      let nodes :=
        if isLchild then setLchild tree.nodes parent none else setRchild tree.nodes parent none
      some ({ tree with nodes }, .ok)
    | none, some rchild =>
      let nodes :=
        if isLchild then linkLchild tree.nodes parent node.rchild (some parent)
        else linkRchild tree.nodes parent node.rchild (some rchild)
      nodes.map fun nodes => ({ tree with nodes }, .ok)
    | some _, none =>
      let nodes :=
        if isLchild then linkLchild tree.nodes parent node.lchild (some parent)
        else linkRchild tree.nodes parent node.rchild (some parent)
      nodes.map fun nodes => ({ tree with nodes }, .ok)

def treeNodeDelete (tree : TreeTree) (expectedDest : Option Nat) : Option (TreeTree × Ret) :=
  match expectedDest with
  | none => some (tree, .EINVAL)
  | some node =>
    match treeReorderMove tree node with
    | none => none
    | some (tree, .ok) => some (treeReap tree node, .ok)
    | some (tree, ret) => some (tree, ret)

/-- `none` when it follows a null pointer. -/
def treeDelete (tree : TreeTree) (val : UInt8) : Option (TreeTree × Ret) :=
  if tree.numNodes = 0 then some (tree, .EINVAL)
  else (treeLookupLoop tree.nodes val tree.numNodes tree.root).bind (treeNodeDelete tree)

def treeUpdate (tree : TreeTree) (newVal oldVal : UInt8) : Option (TreeTree × Ret) :=
  match treeDelete tree oldVal with
  | some (tree, .ok) =>
    (treeInsert tree newVal).map fun (tree, ret) =>
      (tree, if ret = .ok then .ok else .ENOTRECOVERABLE)
  | failed => failed

inductive TreeLookupStrategy
  | FIRST
  | SMALLEST
  | LARGEST
  deriving DecidableEq

/-- The loop of `tree_lookup_range`; `best` ends it where it is set. -/
def treeLookupRangeLoop (nodes : Nodes Nat UInt8) (minimum maximum : UInt8)
    (strategy : TreeLookupStrategy) : Nat → Option Nat → Option Nat → Option (Option Nat)
  | _, none, target => some target
  | 0, some _, _ => none
  | fuel + 1, some current, target =>
    if treeCompare minimum (nodes current).val > 0 then
      treeLookupRangeLoop nodes minimum maximum strategy fuel (nodes current).rchild target
    else if treeCompare maximum (nodes current).val < 0 then
      treeLookupRangeLoop nodes minimum maximum strategy fuel (nodes current).lchild target
    else
      match strategy with
      | .FIRST => some (some current)
      | .SMALLEST =>
        treeLookupRangeLoop nodes minimum maximum strategy fuel (nodes current).lchild (some current)
      | .LARGEST =>
        treeLookupRangeLoop nodes minimum maximum strategy fuel (nodes current).rchild (some current)

def treeLookupRange (fuel : Nat) (tree : TreeTree) (minimum maximum : UInt8)
    (strategy : TreeLookupStrategy) : Option (Option Nat) :=
  treeLookupRangeLoop tree.nodes minimum maximum strategy fuel tree.root none

section Checkers

/-! The recursions take fuel as well, and are `none` when it runs out. -/

def treeNodeReachable (nodes : Nodes Nat UInt8) : Nat → Option Nat → Option (Option Nat)
  | _, none => some none
  | 0, some _ => none
  | fuel + 1, some node => do
    let lchildHasThisAsParent :=
      (nodes node).lchild.all fun lchild => (nodes lchild).parent = some node
    let lchild ← treeNodeReachable nodes fuel (nodes node).lchild
    let rchildHasThisAsParent :=
      (nodes node).rchild.all fun rchild => (nodes rchild).parent = some node
    let rchild ← treeNodeReachable nodes fuel (nodes node).rchild
    let lchildCorrect := lchildHasThisAsParent && lchild = (nodes node).lchild
    let rchildCorrect := rchildHasThisAsParent && rchild = (nodes node).rchild
    if lchildCorrect && rchildCorrect then some (some node) else some none

def treeReachable (fuel : Nat) (tree : TreeTree) : Option Bool :=
  (treeNodeReachable tree.nodes fuel tree.root).map Option.isSome

def lchildOutOfOrder (nodes : Nodes Nat UInt8) (node : Nat) : Option Nat → Bool
  | some lchild => treeCompare (nodes lchild).val (nodes node).val ≥ 0
  | none => (nodes node).lchild ≠ none

def rchildOutOfOrder (nodes : Nodes Nat UInt8) (node : Nat) : Option Nat → Bool
  | some rchild => treeCompare (nodes node).val (nodes rchild).val > 0
  | none => (nodes node).rchild ≠ none

def treeNodeMax (nodes : Nodes Nat UInt8) : Nat → Option Nat → Option (Option Nat)
  | _, none => some none
  | 0, some _ => none
  | fuel + 1, some node => do
    let maxLchild ← treeNodeMax nodes fuel (nodes node).lchild
    let maxRchild ← treeNodeMax nodes fuel (nodes node).rchild
    if lchildOutOfOrder nodes node maxLchild then some none
    else if rchildOutOfOrder nodes node maxRchild then some none
    else some (maxRchild.or (some node))

def treeNodeMin (nodes : Nodes Nat UInt8) : Nat → Option Nat → Option (Option Nat)
  | _, none => some none
  | 0, some _ => none
  | fuel + 1, some node => do
    let minLchild ← treeNodeMin nodes fuel (nodes node).lchild
    let minRchild ← treeNodeMin nodes fuel (nodes node).rchild
    if lchildOutOfOrder nodes node minLchild then some none
    else if rchildOutOfOrder nodes node minRchild then some none
    else some (minLchild.or (some node))

def treeMax (fuel : Nat) (tree : TreeTree) : Option (Option Nat) :=
  treeNodeMax tree.nodes fuel tree.root

def treeMin (fuel : Nat) (tree : TreeTree) : Option (Option Nat) :=
  treeNodeMin tree.nodes fuel tree.root

def treeOrdered (fuel : Nat) (tree : TreeTree) : Option Bool := do
  let min ← treeMin fuel tree
  let max ← treeMax fuel tree
  some (min.isSome && max.isSome)

end Checkers

end Dert
