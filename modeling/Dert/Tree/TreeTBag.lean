import Dert.Library.Refinement
import Dert.Tree.TreeTChecks
import Dert.Tree.TreeTMany
import Dert.Tree.TreeTRange
import Dert.Tree.TreeTUpdate

namespace Dert

def treeExists (tree : TreeTree) (val : UInt8) : Option Bool :=
  (treeLookup tree val).map Option.isSome

def treeDeleteManyLoop : TreeTree → List UInt8 → Option (TreeTree × Ret)
  | tree, [] => some (tree, .ok)
  | tree, val :: vals =>
    match treeDelete tree val with
    | some (tree, .ok) => treeDeleteManyLoop tree vals
    | failed => failed

def treeDeleteMany (tree : TreeTree) (vals : List UInt8) : Option (TreeTree × Ret) :=
  if vals.length = 0 then some (tree, .EINVAL) else treeDeleteManyLoop tree vals

def treeUpdateMany (granted : Bool) (tree : TreeTree) {numVals : Nat}
    (newVals oldVals : Vector UInt8 numVals) (ordered : Bool) : Option (TreeTree × Ret) :=
  if numVals = 0 then some (tree, .EINVAL)
  else
    match treeDeleteMany tree oldVals.toList with
    | some (tree, .ok) =>
      (treeInsertMany granted tree newVals.toList numVals 1 ordered).map fun r => (r.1, r.2.1)
    | failed => failed

/-- What a tree is for: the values in ascending order, of which `max_nodes` may be inserted over
its whole life. -/
structure Bag (maxNodes : Nat) where
  values : List UInt8
  inserted : Nat
  sorted : values.Pairwise (· ≤ ·)
  inserted_le : inserted ≤ maxNodes

namespace Bag

variable {maxNodes : Nat}

def empty : Bag maxNodes := ⟨[], 0, .nil, Nat.zero_le _⟩

def insert (b : Bag maxNodes) (val : UInt8) : Bag maxNodes × Ret :=
  if h : b.inserted = maxNodes then (b, .EINVAL)
  else
    ({ values := b.values.orderedInsert (· ≤ ·) val
       inserted := b.inserted + 1
       sorted := b.sorted.orderedInsert val b.values
       inserted_le := Nat.lt_of_le_of_ne b.inserted_le h }, .ok)

def delete (b : Bag maxNodes) (val : UInt8) : Bag maxNodes × Ret :=
  if val ∈ b.values then
    ({ b with values := b.values.erase val, sorted := b.sorted.sublist List.erase_sublist }, .ok)
  else (b, .EINVAL)

def update (b : Bag maxNodes) (newVal oldVal : UInt8) : Bag maxNodes × Ret :=
  match b.delete oldVal with
  | (b, .ok) =>
    let (b, ret) := b.insert newVal
    (b, if ret = .ok then .ok else .ENOTRECOVERABLE)
  | failed => failed

def insertEach (b : Bag maxNodes) (vals : List UInt8) : Bag maxNodes :=
  vals.foldl (fun b val => (b.insert val).1) b

/-- Zero is returned whatever becomes of the values. -/
def insertMany (b : Bag maxNodes) (vals : List UInt8) : Bag maxNodes × Ret :=
  if vals = [] then (b, .EINVAL) else (b.insertEach vals, .ok)

def deleteEach : Bag maxNodes → List UInt8 → Bag maxNodes × Ret
  | b, [] => (b, .ok)
  | b, val :: vals =>
    match b.delete val with
    | (b, .ok) => deleteEach b vals
    | failed => failed

def deleteMany (b : Bag maxNodes) (vals : List UInt8) : Bag maxNodes × Ret :=
  if vals = [] then (b, .EINVAL) else b.deleteEach vals

def updateMany (b : Bag maxNodes) (newVals oldVals : List UInt8) : Bag maxNodes × Ret :=
  match b.deleteMany oldVals with
  | (b, .ok) => b.insertMany newVals
  | failed => failed

def inRange (b : Bag maxNodes) (minimum maximum : UInt8) : List UInt8 :=
  b.values.filter fun val => minimum ≤ val && val ≤ maximum

inductive Call
  | insert (val : UInt8)
  | delete (val : UInt8)
  | update (newVal oldVal : UInt8)
  | insertMany (vals : List UInt8)
  | deleteMany (vals : List UInt8)
  | updateMany (numVals : Nat) (newVals oldVals : Vector UInt8 numVals)
  | contains (val : UInt8)
  | min
  | max
  | smallest (minimum maximum : UInt8)
  | largest (minimum maximum : UInt8)

inductive Reply
  | ret (ret : Ret)
  | found (found : Bool)
  | val (val : Option UInt8)
  deriving DecidableEq

def reply (b : Bag maxNodes) : Call → Bag maxNodes × Reply
  | .insert val => ((b.insert val).1, .ret (b.insert val).2)
  | .delete val => ((b.delete val).1, .ret (b.delete val).2)
  | .update newVal oldVal => ((b.update newVal oldVal).1, .ret (b.update newVal oldVal).2)
  | .insertMany vals => ((b.insertMany vals).1, .ret (b.insertMany vals).2)
  | .deleteMany vals => ((b.deleteMany vals).1, .ret (b.deleteMany vals).2)
  | .updateMany _ newVals oldVals =>
    let r := b.updateMany newVals.toList oldVals.toList
    (r.1, .ret r.2)
  | .contains val => (b, .found (val ∈ b.values))
  | .min => (b, .val b.values.head?)
  | .max => (b, .val b.values.getLast?)
  | .smallest minimum maximum => (b, .val (b.inRange minimum maximum).head?)
  | .largest minimum maximum => (b, .val (b.inRange minimum maximum).getLast?)

def call (b : Bag maxNodes) (c : Call) : Bag maxNodes × Option Reply :=
  ((b.reply c).1, some (b.reply c).2)

end Bag

namespace TreeT

open BinaryTree Library Library.SearchTree Library.LinkedTree

variable {maxNodes : Nat} {tree : TreeTree} {b : Bag maxNodes} {t : BinaryTree Nat} {val : UInt8}
  {vals : List UInt8}

def stored (tree : TreeTree) (node : Option Nat) : Option UInt8 := node.map (valAt tree.nodes)

def bagCall (tree : TreeTree) : Bag.Call → Option (TreeTree × Bag.Reply)
  | .insert val => (treeInsert tree val).map fun r => (r.1, .ret r.2)
  | .delete val => (treeDelete tree val).map fun r => (r.1, .ret r.2)
  | .update newVal oldVal => (treeUpdate tree newVal oldVal).map fun r => (r.1, .ret r.2)
  | .insertMany vals =>
    (treeInsertMany false tree vals vals.length 1 false).map fun r => (r.1, .ret r.2.1)
  | .deleteMany vals => (treeDeleteMany tree vals).map fun r => (r.1, .ret r.2)
  | .updateMany _ newVals oldVals =>
    (treeUpdateMany false tree newVals oldVals false).map fun r => (r.1, .ret r.2)
  | .contains val => (treeExists tree val).map fun found => (tree, .found found)
  | .min => (treeMin tree.numNodes tree).map fun node => (tree, .val (stored tree node))
  | .max => (treeMax tree.numNodes tree).map fun node => (tree, .val (stored tree node))
  | .smallest minimum maximum =>
    (treeLookupRange tree.numNodes tree minimum maximum .SMALLEST).map fun node =>
      (tree, .val (stored tree node))
  | .largest minimum maximum =>
    (treeLookupRange tree.numNodes tree minimum maximum .LARGEST).map fun node =>
      (tree, .val (stored tree node))

def onTree (x : Option TreeTree) (c : Bag.Call) : Option TreeTree × Option Bag.Reply :=
  let r := x.bind fun tree => bagCall tree c
  (r.map Prod.fst, r.map Prod.snd)

def MovableEach : TreeTree → List UInt8 → Prop
  | _, [] => True
  | tree, val :: vals =>
    Movable tree val ∧ ∀ tree', treeDelete tree val = some (tree', .ok) → MovableEach tree' vals

def Clear (tree : TreeTree) : Bag.Call → Prop
  | .insert _ => True
  | .delete val => Movable tree val
  | .update _ oldVal => Movable tree oldVal
  | .insertMany _ => True
  | .deleteMany vals => MovableEach tree vals
  | .updateMany _ _ oldVals => MovableEach tree oldVals.toList
  | .contains _ => True
  | .min => True
  | .max => True
  | .smallest _ _ => True
  | .largest _ _ => True

structure Shows (tree : TreeTree) (b : Bag maxNodes) : Prop where
  sound : ∃ t, Sound tree t ∧ values tree t = b.values
  inserted : tree.numNodes = b.inserted
  max : tree.maxNodes = maxNodes
  room : tree.room = maxNodes

section Changes

theorem Shows.insert (h : Shows tree b) (val : UInt8) :
    ∃ tree', treeInsert tree val = some (tree', (b.insert val).2) ∧
      Shows tree' (b.insert val).1 := by
  obtain ⟨⟨t, ht, hvals⟩, hused, hmax, hroom⟩ := h
  by_cases hfull : b.inserted = maxNodes
  · rw [Bag.insert, dif_pos hfull, treeInsert_full (by omega)]
    exact ⟨tree, rfl, ⟨t, ht, hvals⟩, hused, hmax, hroom⟩
  · have hle := b.inserted_le
    obtain ⟨root, nodes, hinsert, hsound, hval⟩ := ht.inserted val (by omega) (by omega)
    rw [Bag.insert, dif_neg hfull, hinsert]
    refine ⟨_, rfl, ⟨_, hsound, ?_⟩, congrArg Nat.succ hused, hmax, hroom⟩
    have hperm := ht.standing.values_grow root hval
    rw [hvals] at hperm
    exact (hperm.trans (List.perm_orderedInsert _ _ _).symm).eq_of_pairwise'
      hsound.ordered.pairwise (b.sorted.orderedInsert val b.values)

theorem Replaceable.detachable {C : Context Nat} {l r : BinaryTree Nat} (h : Replaceable C l r) :
    Detachable C l r := by
  rcases C with _ | ⟨⟨_, _⟩ | ⟨_, _⟩, _⟩
  · trivial
  · trivial
  · exact h.mpr

theorem Sound.erased (h : Sound tree t) (hmov : Movable tree val) (hval : val ∈ values tree t) :
    ∃ root nodes t', treeDelete tree val = some ({ tree with root, nodes }, .ok) ∧
      Sound { tree with root, nodes } t' ∧
      values { tree with root, nodes } t' = (values tree t).erase val := by
  obtain ⟨found, hlookup⟩ : ∃ found, treeLookup tree val = some found := ⟨_, h.treeLookup_eq val⟩
  cases found with
  | none => exact absurd hval (h.missing hlookup).1
  | some a =>
    obtain ⟨C, l, r, rfl, hkey, hdelete⟩ := h.located hlookup
    have hrep := (movable_iff h hlookup).mp hmov
    obtain ⟨root, nodes, hnode, hsound, -⟩ := h.deleted hrep
    obtain ⟨root', nodes', hnode', -, hperm⟩ := h.taken hrep.detachable
    rw [hnode, Option.some.injEq, Prod.mk.injEq] at hnode'
    rw [← hnode'.1, hkey] at hperm
    exact ⟨root, nodes, _, hdelete.trans hnode, hsound, hperm.eq_of_pairwise'
      hsound.ordered.pairwise (h.ordered.pairwise.sublist List.erase_sublist)⟩

theorem Shows.delete (h : Shows tree b) (hmov : Movable tree val) :
    ∃ tree', treeDelete tree val = some (tree', (b.delete val).2) ∧
      Shows tree' (b.delete val).1 := by
  obtain ⟨⟨t, ht, hvals⟩, hused, hmax, hroom⟩ := h
  by_cases hval : val ∈ b.values
  · rw [← hvals] at hval
    obtain ⟨root, nodes, t', hdelete, hsound, herase⟩ := ht.erased hmov hval
    rw [hvals] at hval
    rw [Bag.delete, if_pos hval, hdelete]
    exact ⟨_, rfl, ⟨t', hsound, by rw [herase, hvals]⟩, hused, hmax, hroom⟩
  · have hmissing : treeLookup tree val = some none := by
      obtain ⟨found, hlookup⟩ : ∃ found, treeLookup tree val = some found :=
        ⟨_, ht.treeLookup_eq val⟩
      cases found with
      | none => exact hlookup
      | some a => exact absurd (hvals ▸ ht.found hlookup) hval
    rw [Bag.delete, if_neg hval, (ht.missing hmissing).2]
    exact ⟨tree, rfl, ⟨t, ht, hvals⟩, hused, hmax, hroom⟩

theorem Shows.update (h : Shows tree b) {newVal oldVal : UInt8} (hmov : Movable tree oldVal) :
    ∃ tree', treeUpdate tree newVal oldVal = some (tree', (b.update newVal oldVal).2) ∧
      Shows tree' (b.update newVal oldVal).1 := by
  obtain ⟨tree₁, hdelete, hshows⟩ := h.delete hmov
  rw [treeUpdate, Bag.update, hdelete]
  rcases hret : b.delete oldVal with ⟨b₁, ret⟩
  rw [hret] at hshows
  obtain ⟨tree₂, hinsert, hshows₂⟩ := hshows.insert newVal
  cases ret with
  | ok => exact ⟨tree₂, by simp [hinsert], hshows₂⟩
  | _ => exact ⟨tree₁, rfl, hshows⟩

theorem Shows.deleteEach (h : Shows tree b) (hmov : MovableEach tree vals) :
    ∃ tree', treeDeleteManyLoop tree vals = some (tree', (b.deleteEach vals).2) ∧
      Shows tree' (b.deleteEach vals).1 := by
  induction vals generalizing tree b with
  | nil => exact ⟨tree, rfl, h⟩
  | cons val vals ih =>
    obtain ⟨hval, hmov⟩ := hmov
    obtain ⟨tree₁, hdelete, hshows⟩ := h.delete hval
    rw [treeDeleteManyLoop, Bag.deleteEach, hdelete]
    rcases hret : b.delete val with ⟨b₁, ret⟩
    rw [hret] at hshows hdelete
    cases ret with
    | ok => exact ih hshows (hmov tree₁ hdelete)
    | _ => exact ⟨tree₁, rfl, hshows⟩

theorem Shows.deleteMany (h : Shows tree b) (hmov : MovableEach tree vals) :
    ∃ tree', treeDeleteMany tree vals = some (tree', (b.deleteMany vals).2) ∧
      Shows tree' (b.deleteMany vals).1 := by
  simp only [treeDeleteMany, Bag.deleteMany, List.length_eq_zero_iff]
  split_ifs with hnil
  · exact ⟨tree, rfl, h⟩
  · exact h.deleteEach hmov

theorem Shows.insertEach (h : Shows tree b) {i : Nat} (hi : i ≤ vals.length) :
    ∃ tree', treeInsertManyEach vals i tree = some tree' ∧
      Shows tree' (b.insertEach (vals.take i)) := by
  induction i with
  | zero => exact ⟨tree, rfl, h⟩
  | succ i ih =>
    obtain ⟨tree₁, heach, hshows⟩ := ih (Nat.le_of_succ_le hi)
    have hval : vals[i]? = some vals[i] := List.getElem?_eq_getElem hi
    obtain ⟨tree₂, hinsert, hshows⟩ := hshows.insert vals[i]
    refine ⟨tree₂, by simp [treeInsertManyEach, heach, hval, hinsert], ?_⟩
    rw [List.take_add_one, hval, Bag.insertEach, List.foldl_append]
    exact hshows

theorem Shows.insertMany (h : Shows tree b) (granted : Bool) (vals : List UInt8) :
    ∃ tree' visited, treeInsertMany granted tree vals vals.length 1 false =
        some (tree', (b.insertMany vals).2, vals, visited) ∧ Shows tree' (b.insertMany vals).1 := by
  by_cases hnil : vals = []
  · subst hnil
    exact ⟨tree, [], rfl, h⟩
  · have hlen : ¬ (vals.length = 0 ∨ 1 = 0) := by simpa using hnil
    obtain ⟨tree', heach, hshows⟩ := h.insertEach (Nat.le_refl vals.length)
    rw [List.take_length] at hshows
    rw [treeInsertMany, if_neg hlen, if_neg Bool.false_ne_true, heach, Bag.insertMany, if_neg hnil]
    exact ⟨tree', _, rfl, hshows⟩

theorem Shows.updateMany (h : Shows tree b) (granted : Bool) {numVals : Nat}
    (newVals oldVals : Vector UInt8 numVals) (hmov : MovableEach tree oldVals.toList) :
    ∃ tree', treeUpdateMany granted tree newVals oldVals false =
        some (tree', (b.updateMany newVals.toList oldVals.toList).2) ∧
      Shows tree' (b.updateMany newVals.toList oldVals.toList).1 := by
  obtain ⟨tree₁, hdelete, hshows⟩ := h.deleteMany hmov
  rw [treeUpdateMany, Bag.updateMany, hdelete]
  split_ifs with hzero
  · subst hzero
    have hnil : oldVals.toList = [] := by simp
    rw [hnil] at hdelete ⊢
    exact ⟨tree, rfl, h⟩
  · rcases hret : b.deleteMany oldVals.toList with ⟨b₁, ret⟩
    rw [hret] at hshows
    obtain ⟨tree₂, visited, hinsert, hshows₂⟩ := hshows.insertMany granted newVals.toList
    rw [Vector.length_toList] at hinsert
    cases ret with
    | ok => exact ⟨tree₂, by simp [hinsert], hshows₂⟩
    | _ => exact ⟨tree₁, rfl, hshows⟩

end Changes

section Queries

theorem map_inRange (tree : TreeTree) (t : BinaryTree Nat) (minimum maximum : UInt8) :
    (SearchTree.inRange (valAt tree.nodes) minimum maximum t).map (valAt tree.nodes) =
      (values tree t).filter fun val => minimum ≤ val && val ≤ maximum := by
  rw [values, List.filter_map, SearchTree.inRange]
  congr 1
  refine List.filter_congr fun a _ => ?_
  simp [Bool.decide_and]

variable (h : Sound tree t)

include h

theorem Sound.contains (val : UInt8) :
    treeExists tree val = some (decide (val ∈ values tree t)) := by
  obtain ⟨found, hlookup⟩ : ∃ found, treeLookup tree val = some found := ⟨_, h.treeLookup_eq val⟩
  rw [treeExists, hlookup]
  cases found with
  | none => simp [(h.missing hlookup).1]
  | some a => simp [h.found hlookup]

theorem Sound.min :
    (treeMin tree.numNodes tree).map (stored tree) = some (values tree t).head? := by
  obtain ⟨hfirst, -⟩ := ordered_iff_checked.mp h.ordered
  obtain ⟨node, hmin, hchecked, -⟩ := treeNodeMin_eq h.linked.shaped h.height_le
  rw [treeMin, hmin, Option.map_some, hchecked hfirst, values, List.head?_map, stored]

theorem Sound.max :
    (treeMax tree.numNodes tree).map (stored tree) = some (values tree t).getLast? := by
  obtain ⟨-, hlast⟩ := ordered_iff_checked.mp h.ordered
  obtain ⟨node, hmax, hchecked, -⟩ := treeNodeMax_eq h.linked.shaped h.height_le
  rw [treeMax, hmax, Option.map_some, hchecked hlast, values, List.getLast?_map, stored]

theorem Sound.smallest (minimum maximum : UInt8) :
    (treeLookupRange tree.numNodes tree minimum maximum .SMALLEST).map (stored tree) =
      some ((values tree t).filter fun val => minimum ≤ val && val ≤ maximum).head? := by
  rw [treeLookupRange, rangeLoop_smallest h.linked.shaped h.ordered h.height_le, Option.or_none,
    Option.map_some, ← map_inRange, List.head?_map, stored]

theorem Sound.largest (minimum maximum : UInt8) :
    (treeLookupRange tree.numNodes tree minimum maximum .LARGEST).map (stored tree) =
      some ((values tree t).filter fun val => minimum ≤ val && val ≤ maximum).getLast? := by
  rw [treeLookupRange, rangeLoop_largest h.linked.shaped h.ordered h.height_le, Option.or_none,
    Option.map_some, ← map_inRange, List.getLast?_map, stored]

end Queries

section Run

theorem Shows.call (h : Shows tree b) {c : Bag.Call} (hclear : Clear tree c) :
    ∃ tree', bagCall tree c = some (tree', (b.reply c).2) ∧ Shows tree' (b.reply c).1 := by
  cases c with
  | insert val =>
    obtain ⟨tree', heq, hshows⟩ := h.insert val
    exact ⟨tree', by rw [bagCall, heq]; rfl, hshows⟩
  | delete val =>
    obtain ⟨tree', heq, hshows⟩ := h.delete hclear
    exact ⟨tree', by rw [bagCall, heq]; rfl, hshows⟩
  | update newVal oldVal =>
    obtain ⟨tree', heq, hshows⟩ := h.update hclear
    exact ⟨tree', by rw [bagCall, heq]; rfl, hshows⟩
  | insertMany vals =>
    obtain ⟨tree', visited, heq, hshows⟩ := h.insertMany false vals
    exact ⟨tree', by rw [bagCall, heq]; rfl, hshows⟩
  | deleteMany vals =>
    obtain ⟨tree', heq, hshows⟩ := h.deleteMany hclear
    exact ⟨tree', by rw [bagCall, heq]; rfl, hshows⟩
  | updateMany numVals newVals oldVals =>
    obtain ⟨tree', heq, hshows⟩ := h.updateMany false newVals oldVals hclear
    exact ⟨tree', by rw [bagCall, heq]; rfl, hshows⟩
  | contains val =>
    obtain ⟨t, ht, hvals⟩ := h.sound
    exact ⟨tree, by rw [bagCall, ht.contains, hvals]; rfl, h⟩
  | min =>
    obtain ⟨t, ht, hvals⟩ := h.sound
    obtain ⟨node, heq, hnode⟩ := Option.map_eq_some_iff.mp ht.min
    exact ⟨tree, by rw [bagCall, heq, Option.map_some, hnode, hvals]; rfl, h⟩
  | max =>
    obtain ⟨t, ht, hvals⟩ := h.sound
    obtain ⟨node, heq, hnode⟩ := Option.map_eq_some_iff.mp ht.max
    exact ⟨tree, by rw [bagCall, heq, Option.map_some, hnode, hvals]; rfl, h⟩
  | smallest minimum maximum =>
    obtain ⟨t, ht, hvals⟩ := h.sound
    obtain ⟨node, heq, hnode⟩ := Option.map_eq_some_iff.mp (ht.smallest minimum maximum)
    exact ⟨tree, by rw [bagCall, heq, Option.map_some, hnode, hvals]; rfl, h⟩
  | largest minimum maximum =>
    obtain ⟨t, ht, hvals⟩ := h.sound
    obtain ⟨node, heq, hnode⟩ := Option.map_eq_some_iff.mp (ht.largest minimum maximum)
    exact ⟨tree, by rw [bagCall, heq, Option.map_some, hnode, hvals]; rfl, h⟩

theorem shows_create {granted : Bool} (hcreate : treeCreate granted maxNodes = some (some tree))
    (hmax : maxNodes < 2 ^ 59) : Shows tree (Bag.empty : Bag maxNodes) := by
  obtain ⟨hroot, hnum, hmaxNodes, hroom⟩ := treeCreate_eq hcreate
  exact ⟨⟨.nil, sound_empty hroot, rfl⟩, hnum, hmaxNodes, hroom.trans (Nat.mod_eq_of_lt hmax)⟩

def Holds (x : Option TreeTree) (b : Bag maxNodes) : Prop := ∃ tree, x = some tree ∧ Shows tree b

theorem onTree_shows (x : Option TreeTree) (b : Bag maxNodes) (c : Bag.Call) (h : Holds x b)
    (hclear : ∀ tree, x = some tree → Clear tree c) (_ : True) :
    (onTree x c).2 = (b.call c).2 ∧ Holds (onTree x c).1 (b.call c).1 := by
  obtain ⟨tree, rfl, h⟩ := h
  obtain ⟨tree', heq, hshows⟩ := h.call (hclear tree rfl)
  rw [onTree, Option.bind_some, heq]
  exact ⟨rfl, tree', rfl, hshows⟩

/-- A tree whose size does not wrap behaves as a bag, in any calls none of whose deletions takes
out a right child with exactly one child. -/
theorem bag_run {granted : Bool} (hcreate : treeCreate granted maxNodes ≠ some none)
    (hmax : maxNodes + 1 < 2 ^ 59) :
    ∃ tree, treeCreate granted maxNodes = some (some tree) ∧ ∀ calls,
      Along onTree (fun x c => ∀ tree, x = some tree → Clear tree c) (some tree) calls →
        replies onTree (some tree) calls = replies Bag.call (Bag.empty : Bag maxNodes) calls ∧
          Holds (final onTree (some tree) calls)
            (final Bag.call (Bag.empty : Bag maxNodes) calls) := by
  have hmod : maxNodes % 2 ^ 59 = maxNodes := Nat.mod_eq_of_lt (by omega)
  rcases treeCreate_cases hcreate with ⟨hlast, -⟩ | ⟨-, tree, hcreate⟩
  · omega
  · refine ⟨tree, hcreate, fun calls hclear => ?_⟩
    exact simulation onTree_shows ⟨tree, rfl, shows_create hcreate (by omega)⟩ hclear
      (along_of_forall (fun _ _ => trivial) _ calls)

theorem bag_run_root :
    replies onTree (some created) [.insert 5, .insert 3, .delete 5, .contains 5, .max] =
      [some (.ret .ok), some (.ret .ok), some (.ret .ok), some (.found false),
        some (.val (some 3))] := by
  have hclear : Along onTree (fun x c => ∀ tree, x = some tree → Clear tree c) (some created)
      [.insert 5, .insert 3, .delete 5, .contains 5, .max] := by
    refine ⟨fun _ _ => trivial, fun _ _ => trivial, ?_, fun _ _ => trivial, fun _ _ => trivial,
      trivial⟩
    intro tree htree node parent hfound hparent
    obtain rfl := Option.some.inj htree
    rw [show treeLookup _ 5 = some (some 0) from rfl, Option.some.injEq,
      Option.some.injEq] at hfound
    subst hfound
    cases hparent
  have hcreate : treeCreate true 8 = some (some created) := rfl
  have hrefused : treeCreate true 8 ≠ some none := by simp [hcreate]
  obtain ⟨tree, hcreate', hrun⟩ := bag_run hrefused (by decide)
  obtain rfl := Option.some.inj (Option.some.inj (hcreate.symm.trans hcreate'))
  exact (hrun _ hclear).1.trans (by decide)

end Run

end TreeT

end Dert
