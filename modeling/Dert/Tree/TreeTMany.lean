import Dert.Library.Worklist
import Dert.Queue.VqueueRefinement
import Dert.Tree.TreeTShape

namespace Dert

open Library

structure TreeInsertManyPsuedonode where
  position : Nat
  length : Nat
  deriving DecidableEq

def treeInsertManyCompare (a b : List UInt8) : Int := (a.headD 0).toNat - (b.headD 0).toNat

def qsort (vals : List UInt8) (numVals valSize : Nat) : List UInt8 :=
  let elements := (List.range numVals).map fun i => (vals.drop (i * valSize)).take valSize
  (elements.mergeSort fun a b => treeInsertManyCompare a b ≤ 0).flatten ++
    vals.drop (numVals * valSize)

def alreadySorted : List UInt8 → Bool
  | val :: next :: vals => if treeCompare val next > 0 then false else alreadySorted (next :: vals)
  | _ => true

def treeInsertManyPut (queue : Vqueue TreeInsertManyPsuedonode) (position length : Nat) :
    Vqueue TreeInsertManyPsuedonode :=
  if length = 0 then queue else (vqueueEnqueue queue ⟨position, length⟩ false).1

/-- The loop over the queue, with the indexes it has visited; `none` also when one lies outside
the array.  A length is never zero. -/
def treeInsertManyLoop (vals : List UInt8) :
    Nat → TreeTree → Vqueue TreeInsertManyPsuedonode → Option (TreeTree × Ret × List Nat)
  | 0, _, _ => none
  | fuel + 1, tree, queue =>
    match vqueueDequeue queue with
    | (queue, .ok, some node) => do
      let val ← vals[node.position]?
      let (tree, ret) ← treeInsert tree val
      if ret ≠ .ok then some (tree, ret, [node.position])
      else
        let lowerLen := node.length / 2
        let lowerPos := lowerLen / 2
        let upperLen := node.length - lowerLen - 1
        let upperPos := lowerLen + 1 + upperLen / 2
        let queue := treeInsertManyPut queue lowerPos lowerLen
        let queue := treeInsertManyPut queue upperPos upperLen
        let (tree, ret, visited) ← treeInsertManyLoop vals fuel tree queue
        some (tree, ret, node.position :: visited)
    | _ => some (tree, .ok, [])

def treeInsertManyEach (vals : List UInt8) : Nat → TreeTree → Option TreeTree
  | 0, tree => some tree
  | i + 1, tree => do
    let tree ← treeInsertManyEach vals i tree
    let val ← vals[i]?
    let (tree, _) ← treeInsert tree val
    some tree

/-- `tree_insert_many`: the tree, what is returned, the array as it is left, and the visited
indexes in order.  `granted` says whether `vqueue_create` gets its block. -/
def treeInsertMany (granted : Bool) (tree : TreeTree) (vals : List UInt8) (numVals valSize : Nat)
    (ordered : Bool) : Option (TreeTree × Ret × List UInt8 × List Nat) :=
  if numVals = 0 ∨ valSize = 0 then some (tree, .EINVAL, vals, [])
  else if ordered then
    let vals := if alreadySorted (vals.take numVals) then vals else qsort vals numVals valSize
    if numVals > 10000 then some (tree, .EINVAL, vals, [])
    else if !granted then some (tree, .ENOMEM, vals, [])
    else do
      let queue ← vqueueInit ⟨0, 0⟩ numVals
      let queue := (vqueueEnqueue queue ⟨numVals / 2, numVals⟩ false).1
      let (tree, ret, visited) ← treeInsertManyLoop vals (numVals + 1) tree queue
      some (tree, ret, vals, visited)
  else do
    let tree ← treeInsertManyEach vals numVals tree
    some (tree, .ok, vals, List.range numVals)

namespace TreeT

open BinaryTree Library.SearchTree Library.LinkedTree Worklist

section Halves

def half (position length : Nat) : List TreeInsertManyPsuedonode :=
  if length = 0 then [] else [⟨position, length⟩]

/-- What a node puts into the queue: the positions count from the start of the array, and not from
the start of the node's own range. -/
def halves (node : TreeInsertManyPsuedonode) : List TreeInsertManyPsuedonode :=
  let lowerLen := node.length / 2
  let upperLen := node.length - lowerLen - 1
  half (lowerLen / 2) lowerLen ++ half (lowerLen + 1 + upperLen / 2) upperLen

structure Inside (n : Nat) (node : TreeInsertManyPsuedonode) : Prop where
  pos : 0 < node.length
  length_le : node.length ≤ n
  position_lt : node.position < n

variable {n : Nat} {node : TreeInsertManyPsuedonode}

theorem Inside.halves (h : Inside n node) : ∀ half ∈ halves node, Inside n half := by
  obtain ⟨hpos, hle, -⟩ := h
  intro half hhalf
  simp only [TreeT.halves, TreeT.half, List.mem_append] at hhalf
  rcases hhalf with hhalf | hhalf
  · split_ifs at hhalf with hzero
    · cases hhalf
    · rw [List.mem_singleton] at hhalf
      subst hhalf
      exact ⟨by simp only; omega, by simp only; omega, by simp only; omega⟩
  · split_ifs at hhalf with hzero
    · cases hhalf
    · rw [List.mem_singleton] at hhalf
      subst hhalf
      exact ⟨by simp only; omega, by simp only; omega, by simp only; omega⟩

theorem load_half (position length : Nat) :
    load TreeInsertManyPsuedonode.length (half position length) = length := by
  by_cases h : length = 0 <;> simp [half, h]

theorem Inside.load_halves (h : Inside n node) :
    node.length = load TreeInsertManyPsuedonode.length (TreeT.halves node) + 1 := by
  have hpos := h.pos
  rw [TreeT.halves, load_append, load_half, load_half]
  omega

def zeros (node : TreeInsertManyPsuedonode) : Nat :=
  (if node.position = 0 then 1 else 0) + if 2 ≤ node.length then 1 else 0

theorem zeros_le (node : TreeInsertManyPsuedonode) :
    zeros node ≤ (if decide (node.position = 0) then 1 else 0) + load zeros (halves node) := by
  rw [zeros, halves, load_append]
  by_cases hlength : 2 ≤ node.length
  · have hlower : 1 ≤ load zeros (half (node.length / 2 / 2) (node.length / 2)) := by
      rw [half, if_neg (by omega), load_cons, load_nil, zeros]
      simp only
      split_ifs <;> omega
    simp only [hlength, if_true, decide_eq_true_eq]
    omega
  · simp [hlength]

theorem two_zeros (hn : 5 ≤ n) :
    2 ≤ (((workOff halves (n + 1) [⟨n / 2, n⟩]).map (·.position)).count 0) := by
  have hroot : Inside n ⟨n / 2, n⟩ := ⟨by simp only; omega, Nat.le_refl n, by simp only; omega⟩
  have hload := hroot.load_halves
  have hcount : load zeros (halves ⟨n / 2, n⟩) ≤
      (workOff halves n (halves ⟨n / 2, n⟩)).countP fun node => decide (node.position = 0) :=
    load_le_countP (fun _ ha => ha.halves) hroot.halves (fun _ ha => ha.load_halves)
      (by simp only at hload; omega) _ fun node _ => zeros_le node
  have htwo : 2 ≤ load zeros (halves ⟨n / 2, n⟩) := by
    rw [halves, half, half, if_neg (by simp only; omega), if_neg (by simp only; omega)]
    simp only [List.singleton_append, load_cons, load_nil, zeros]
    rw [if_pos (by omega : 2 ≤ n / 2), if_pos (by omega : 2 ≤ n - n / 2 - 1)]
    omega
  rw [workOff, List.nil_append, List.map_cons, List.count_cons, List.count_eq_countP,
    List.countP_map]
  exact Nat.le_trans (Nat.le_trans htwo hcount) (Nat.le_add_right _ _)

end Halves

section Loop

variable {queue : Vqueue TreeInsertManyPsuedonode} {cap n fuel : Nat}
  {s : Vqueue.Spec TreeInsertManyPsuedonode cap} {q : List TreeInsertManyPsuedonode}
  {tree : TreeTree} {t : BinaryTree Nat} {vals : List UInt8}

theorem put_eq (h : Vqueue.Refines queue s) (position length : Nat)
    (hcap : s.queue.list.length + (half position length).length ≤ cap)
    (hsize : s.total + (half position length).length < sizeMax) :
    ∃ s' : Vqueue.Spec TreeInsertManyPsuedonode cap,
      Vqueue.Refines (treeInsertManyPut queue position length) s' ∧
      s'.queue.list = s.queue.list ++ half position length ∧
      s'.total = s.total + (half position length).length := by
  by_cases hzero : length = 0
  · rw [treeInsertManyPut, half, if_pos hzero, if_pos hzero]
    exact ⟨s, h, by simp, rfl⟩
  · rw [half, if_neg hzero, List.length_singleton] at hcap hsize ⊢
    rw [treeInsertManyPut, if_neg hzero]
    obtain ⟨queue', s', heq, hrefines, hlist, htotal⟩ := h.pushed hcap hsize ⟨position, length⟩
    rw [heq]
    exact ⟨s', hrefines, hlist, htotal⟩

structure Halving (tree : TreeTree) (t : BinaryTree Nat)
    (queue : Vqueue TreeInsertManyPsuedonode) (q : List TreeInsertManyPsuedonode) (n : Nat) :
    Prop where
  standing : Standing tree t
  refines : ∃ s : Vqueue.Spec TreeInsertManyPsuedonode n, Vqueue.Refines queue s ∧
    s.queue.list = q ∧ s.total + load TreeInsertManyPsuedonode.length q ≤ q.length + n
  inside : ∀ node ∈ q, Inside n node
  load_le : load TreeInsertManyPsuedonode.length q ≤ n
  max : tree.numNodes + load TreeInsertManyPsuedonode.length q ≤ tree.maxNodes
  room : tree.numNodes + load TreeInsertManyPsuedonode.length q ≤ tree.room

theorem length_le_load (hinside : ∀ node ∈ q, Inside n node) :
    q.length ≤ load TreeInsertManyPsuedonode.length q := by
  induction q with
  | nil => exact Nat.le_refl 0
  | cons node q ih =>
    obtain ⟨hnode, hq⟩ := List.forall_mem_cons.mp hinside
    have hpos := hnode.pos
    have hle := ih hq
    rw [List.length_cons, load_cons]
    omega

theorem Halving.step {node : TreeInsertManyPsuedonode}
    (h : Halving tree t queue (node :: q) vals.length) (hsize : vals.length < sizeMax) :
    ∃ tree' t' queue' queue'', vqueueDequeue queue = (queue', .ok, some node) ∧
      (∃ val, vals[node.position]? = some val ∧ treeInsert tree val = some (tree', .ok) ∧
        (values tree' t').Perm (val :: values tree t)) ∧
      treeInsertManyPut (treeInsertManyPut queue' (node.length / 2 / 2) (node.length / 2))
        (node.length / 2 + 1 + (node.length - node.length / 2 - 1) / 2)
        (node.length - node.length / 2 - 1) = queue'' ∧
      Halving tree' t' queue'' (q ++ halves node) vals.length := by
  obtain ⟨ht, ⟨s, hr, hlist, htotal⟩, hinside, hload, hmax, hroom⟩ := h
  obtain ⟨hnode, hq⟩ := List.forall_mem_cons.mp hinside
  have hinside' := forall_next (fun _ ha => Inside.halves ha) hnode hq
  have hlength := length_le_load hinside
  have hlength' := length_le_load hinside'
  have hhalves := hnode.load_halves
  have hlen : (halves node).length = (half (node.length / 2 / 2) (node.length / 2)).length +
      (half (node.length / 2 + 1 + (node.length - node.length / 2 - 1) / 2)
        (node.length - node.length / 2 - 1)).length := List.length_append
  rw [load_cons] at htotal hload hmax hroom hlength
  rw [List.length_cons] at htotal hlength
  rw [List.length_append, load_append] at hlength'
  obtain ⟨queue', s', hdequeue, -, hr', hlist', htotal'⟩ := hr.popped hlist (by omega)
  obtain ⟨s₁, hr₁, hlist₁, htotal₁⟩ := put_eq hr' (node.length / 2 / 2) (node.length / 2)
    (by rw [hlist']; omega) (by omega)
  obtain ⟨s₂, hr₂, hlist₂, htotal₂⟩ := put_eq hr₁
    (node.length / 2 + 1 + (node.length - node.length / 2 - 1) / 2)
    (node.length - node.length / 2 - 1)
    (by rw [hlist₁, List.length_append, hlist']; omega) (by omega)
  obtain ⟨val, hval⟩ : ∃ val, vals[node.position]? = some val :=
    ⟨_, List.getElem?_eq_getElem hnode.position_lt⟩
  have hpos := hnode.pos
  obtain ⟨root, nodes, hinsert, ht', hnodes⟩ := ht.inserted val (by omega) (by omega)
  refine ⟨_, _, queue', _, hdequeue, ⟨val, hval, hinsert, ht.values_grow _ hnodes⟩, rfl,
    ht', ⟨s₂, hr₂, ?_, ?_⟩, hinside', ?_, ?_, ?_⟩
  · rw [hlist₂, hlist₁, hlist', List.append_assoc]
    rfl
  · rw [load_append, List.length_append]
    omega
  · rw [load_append]
    omega
  · rw [load_append]
    simp only
    omega
  · rw [load_append]
    simp only
    omega

theorem Halving.loop (h : Halving tree t queue q vals.length) (hsize : vals.length < sizeMax)
    (hfuel : load TreeInsertManyPsuedonode.length q < fuel) :
    ∃ tree' t', treeInsertManyLoop vals fuel tree queue =
        some (tree', .ok, (workOff halves fuel q).map (·.position)) ∧
      Standing tree' t' ∧
      (values tree' t').Perm (values tree t ++
        (workOff halves fuel q).map fun node => vals.getD node.position 0) := by
  induction fuel generalizing tree t queue q with
  | zero => exact absurd hfuel (Nat.not_lt_zero _)
  | succ fuel ih =>
    cases q with
    | nil =>
      obtain ⟨s, hr, hlist, -⟩ := h.refines
      refine ⟨tree, t, ?_, h.standing, by simp [workOff]⟩
      simp [treeInsertManyLoop, hr.drained hlist, workOff]
    | cons node q =>
      have hhalves := (h.inside node List.mem_cons_self).load_halves
      obtain ⟨tree', t', queue', queue'', hdequeue, ⟨val, hval, hinsert, hperm⟩, hput, h'⟩ :=
        h.step hsize
      rw [load_cons] at hfuel
      obtain ⟨tree'', t'', hloop, ht'', hperm'⟩ := ih h' (by rw [load_append]; omega)
      refine ⟨tree'', t'', ?_, ht'', ?_⟩
      · simp [treeInsertManyLoop, hdequeue, hval, hinsert, hput, hloop, workOff]
      · rw [workOff, List.map_cons, List.getD_eq_getElem?_getD, hval, Option.getD_some]
        exact hperm'.trans ((hperm.append_right _).trans List.perm_middle.symm)

end Loop

section Ordered

variable {granted : Bool} {tree : TreeTree} {t : BinaryTree Nat} {vals : List UInt8} {n : Nat}

def freeNodes (tree : TreeTree) : Nat := min tree.maxNodes tree.room - tree.numNodes

theorem qsort_perm (vals : List UInt8) : (qsort vals vals.length 1).Perm vals := by
  have hbytes : (List.range vals.length).map (fun i => (vals.drop (i * 1)).take 1) =
      vals.map fun val => [val] := by
    refine List.ext_getElem (by simp) fun i hi _ => ?_
    rw [List.length_map, List.length_range] at hi
    simp [List.take_one, List.head?_drop, List.getElem?_eq_getElem hi]
  rw [qsort, hbytes, Nat.mul_one, List.drop_length, List.append_nil]
  refine (List.mergeSort_perm _ _).flatten.trans (List.Perm.of_eq ?_)
  rw [← List.flatMap_def]
  exact List.flatMap_singleton' vals

theorem map_getD_range (vals : List UInt8) :
    (List.range vals.length).map (fun i => vals.getD i 0) = vals := by
  refine List.ext_getElem (by simp) fun i hi hi' => ?_
  simp [List.getElem?_eq_getElem hi']

def visits (n : Nat) : List Nat := (workOff halves (n + 1) [⟨n / 2, n⟩]).map (·.position)

theorem visits_perm (hpos : 0 < n) (hle : n ≤ 4) : (visits n).Perm (List.range n) := by
  obtain rfl | rfl | rfl | rfl : n = 1 ∨ n = 2 ∨ n = 3 ∨ n = 4 := by omega
  all_goals decide

theorem insertMany_visits (ht : Standing tree t) (hpos : 0 < vals.length)
    (hle : vals.length ≤ 10000) (hfree : vals.length ≤ freeNodes tree) :
    ∃ tree' t' vals', treeInsertMany true tree vals vals.length 1 true =
        some (tree', .ok, vals', visits vals.length) ∧
      vals'.Perm vals ∧ Standing tree' t' ∧
      (values tree' t').Perm (values tree t ++
        (visits vals.length).map fun i => vals'.getD i 0) := by
  obtain ⟨vals', hvals'⟩ : ∃ vals', vals' =
      if alreadySorted (vals.take vals.length) then vals else qsort vals vals.length 1 := ⟨_, rfl⟩
  have hperm : vals'.Perm vals := by
    rw [hvals']
    split_ifs
    · exact List.Perm.refl _
    · exact qsort_perm vals
  have hlen := hperm.length_eq
  have hsize : vals'.length < sizeMax := by
    rw [hlen]
    exact Nat.lt_of_le_of_lt hle (by decide)
  have hne : vals'.length ≠ 0 := by omega
  rw [← hlen] at hpos hfree
  rw [freeNodes] at hfree
  have hqueue : vqueueInit (⟨0, 0⟩ : TreeInsertManyPsuedonode) vals'.length =
      some ⟨fun _ => ⟨0, 0⟩, 0, 0, 0, vals'.length⟩ := if_neg hne
  obtain ⟨queue, s, hput, hr, hlist, htotal⟩ := (Vqueue.refines_init _ hqueue).pushed hpos
    (by decide : 0 + 1 < sizeMax) ⟨vals'.length / 2, vals'.length⟩
  have hload : load TreeInsertManyPsuedonode.length
      [⟨vals'.length / 2, vals'.length⟩] = vals'.length := by simp
  have hhalving : Halving tree t queue [⟨vals'.length / 2, vals'.length⟩] vals'.length := by
    refine ⟨ht, ⟨s, hr, hlist, ?_⟩, ?_, Nat.le_of_eq hload, ?_, ?_⟩
    · rw [hload, htotal]
      exact Nat.le_refl _
    · intro node hnode
      rw [List.mem_singleton.mp hnode]
      exact ⟨hpos, Nat.le_refl _, Nat.div_lt_self hpos (by decide)⟩
    · rw [hload]
      omega
    · rw [hload]
      omega
  obtain ⟨tree', t', hloop, ht', hvalues⟩ :=
    hhalving.loop hsize (Nat.lt_succ_of_le (Nat.le_of_eq hload))
  rw [hlen] at hloop hvalues hqueue hput
  refine ⟨tree', t', vals', ?_, hperm, ht', ?_⟩
  · rw [treeInsertMany, if_neg (by omega), if_pos rfl, ← hvals', if_neg (by omega)]
    simp [hqueue, hput, hloop, visits]
  · rw [visits, List.map_map]
    exact hvalues

/-- A bulk insert in order visits each index once just where it has no more than four values, since
the half of a right half counts its positions from index 0 again. -/
theorem insertMany_ordered (ht : Standing tree t) (hpos : 0 < vals.length)
    (hle : vals.length ≤ 10000) (hfree : vals.length ≤ freeNodes tree) :
    (∃ tree' t' vals' visited, treeInsertMany granted tree vals vals.length 1 true =
        some (tree', .ok, vals', visited) ∧
      Standing tree' t' ∧ (values tree' t').Perm (values tree t ++ vals) ∧
      visited.Perm (List.range vals.length)) ↔ granted = true ∧ vals.length ≤ 4 := by
  obtain ⟨tree', t', vals', hmany, hperm, ht', hvalues⟩ := insertMany_visits ht hpos hle hfree
  constructor
  · rintro ⟨tree'', t'', vals'', visited, hmany', -, -, hvisited⟩
    cases granted with
    | false =>
      rw [treeInsertMany, if_neg (by omega), if_pos rfl, if_neg (by omega)] at hmany'
      simp at hmany'
    | true =>
      refine ⟨rfl, ?_⟩
      by_contra hfive
      obtain rfl : visits vals.length = visited := by
        rw [hmany, Option.some.injEq] at hmany'
        exact congrArg (fun r => r.2.2.2) hmany'
      have htwo := two_zeros (n := vals.length) (by omega)
      have hone := List.nodup_iff_count_le_one.mp
        (hvisited.nodup_iff.mpr List.nodup_range) 0
      rw [visits] at hone
      omega
  · rintro ⟨rfl, hfour⟩
    have hvisits := visits_perm hpos hfour
    refine ⟨tree', t', vals', _, hmany, ht', hvalues.trans ?_, hvisits⟩
    refine List.Perm.append_left _ ((hvisits.map _).trans ?_)
    rw [← hperm.length_eq, map_getD_range]
    exact hperm

end Ordered

theorem insertMany_ordered_four :
    (∃ tree' t' vals' visited, treeInsertMany true created [4, 1, 3, 1] 4 1 true =
        some (tree', .ok, vals', visited) ∧
      Standing tree' t' ∧ (values tree' t').Perm (values created .nil ++ [4, 1, 3, 1]) ∧
      visited.Perm (List.range 4)) ↔ true = true ∧ 4 ≤ 4 :=
  @insertMany_ordered true created .nil [4, 1, 3, 1] (sound_empty rfl).standing (by decide)
    (by decide) (by decide)

/-- Of five values the first is inserted twice and the fourth not at all. -/
theorem not_insertMany_five :
    Standing created .nil ∧ 5 ≤ freeNodes created ∧
      ¬ ∃ tree' t' vals' visited, treeInsertMany true created [1, 2, 3, 4, 5] 5 1 true =
          some (tree', .ok, vals', visited) ∧
        Standing tree' t' ∧ (values tree' t').Perm (values created .nil ++ [1, 2, 3, 4, 5]) ∧
        visited.Perm (List.range 5) := by
  refine ⟨(sound_empty rfl).standing, by decide, ?_⟩
  rintro ⟨tree', t', vals', visited, hmany, -, -, hvisited⟩
  have hvisits : (treeInsertMany true created [1, 2, 3, 4, 5] 5 1 true).map (fun r => r.2.2.2) =
      some [2, 1, 4, 0, 0] := by decide
  rw [hmany, Option.map_some, Option.some.injEq] at hvisits
  rw [show visited = [2, 1, 4, 0, 0] from hvisits] at hvisited
  exact absurd hvisited (by decide)

section Each

variable {granted : Bool} {tree tree' : TreeTree} {t : BinaryTree Nat} {vals : List UInt8} {v : UInt8}

def insertsUntil : TreeTree → List UInt8 → Option (TreeTree × Ret)
  | tree, [] => some (tree, .ok)
  | tree, v :: vals =>
    (treeInsert tree v).bind fun (tree, ret) =>
      if ret = .ok then insertsUntil tree vals else some (tree, ret)

def EachLaw (granted : Bool) (tree : TreeTree) (t : BinaryTree Nat) (vals : List UInt8) : Prop :=
  ∃ tree' t' ret k visited, treeInsertMany granted tree vals vals.length 1 false =
      some (tree', ret, vals, visited) ∧
    k ≤ vals.length ∧ (ret = .ok ↔ k = vals.length) ∧
    (∃ ret', insertsUntil tree vals = some (tree', ret') ∧ (ret = .ok ↔ ret' = .ok)) ∧
    Standing tree' t' ∧ (values tree' t').Perm (values tree t ++ vals.take k)

theorem insertsUntil_snoc (h : insertsUntil tree vals = some (tree', .ok)) (v : UInt8) :
    insertsUntil tree (vals ++ [v]) = treeInsert tree' v := by
  induction vals generalizing tree with
  | nil =>
    obtain ⟨rfl, -⟩ := Prod.mk.inj (Option.some.inj h)
    rw [List.nil_append, insertsUntil]
    rcases treeInsert tree v with _ | ⟨tree', ret⟩
    · rfl
    · change (if ret = .ok then some (tree', .ok) else some (tree', ret)) = _
      split_ifs with hret
      · rw [hret]
      · rfl
  | cons w vals ih =>
    rw [insertsUntil] at h
    rw [List.cons_append, insertsUntil]
    obtain ⟨⟨tree₁, ret⟩, hinsert, hrest⟩ := Option.bind_eq_some_iff.mp h
    dsimp only at hrest
    split_ifs at hrest with hret
    · rw [hinsert, Option.bind_some]
      dsimp only
      rw [if_pos hret, ih hrest]
    · exact absurd (Prod.mk.inj (Option.some.inj hrest)).2 hret

structure Counted (tree : TreeTree) (t : BinaryTree Nat) : Prop where
  standing : Standing tree t
  count : tree.numNodes ≤ tree.maxNodes

theorem Counted.inserted (h : Counted tree t) (v : UInt8) (hfree : 0 < freeNodes tree) :
    ∃ tree' t', treeInsert tree v = some (tree', .ok) ∧ Counted tree' t' ∧
      freeNodes tree' = freeNodes tree - 1 ∧ (values tree' t').Perm (values tree t ++ [v]) := by
  rw [freeNodes] at hfree
  obtain ⟨root, nodes, hinsert, hstanding, hval⟩ := h.standing.inserted v (by omega) (by omega)
  refine ⟨_, _, hinsert, ⟨hstanding, ?_⟩, ?_, ?_⟩
  · change tree.numNodes + 1 ≤ tree.maxNodes
    omega
  · change min tree.maxNodes tree.room - (tree.numNodes + 1) =
      min tree.maxNodes tree.room - tree.numNodes - 1
    omega
  · exact (h.standing.values_grow root hval).trans (List.perm_append_singleton _ _).symm

theorem Counted.not_inserted (h : Counted tree t) (v : UInt8) (hfree : freeNodes tree = 0) :
    treeInsert tree v ≠ some (tree', .ok) := by
  have hcount := h.count
  rw [freeNodes] at hfree
  by_cases hfull : tree.numNodes = tree.maxNodes
  · rw [treeInsert_full hfull]
    simp
  · rw [treeInsert_outside hfull (by omega)]
    simp

theorem Counted.length_le (h : Counted tree t) (hall : insertsUntil tree vals = some (tree', .ok)) :
    vals.length ≤ freeNodes tree := by
  induction vals generalizing tree t with
  | nil => exact Nat.zero_le _
  | cons v vals ih =>
    obtain ⟨⟨tree₁, ret⟩, hinsert, hrest⟩ := Option.bind_eq_some_iff.mp hall
    dsimp only at hrest
    split_ifs at hrest with hret
    · rw [hret] at hinsert
      have hfree : 0 < freeNodes tree := Nat.pos_of_ne_zero fun hzero =>
        h.not_inserted v hzero hinsert
      obtain ⟨tree₂, t₂, hinsert', hcounted, hless, -⟩ := h.inserted v hfree
      obtain ⟨rfl, -⟩ := Prod.mk.inj (Option.some.inj (hinsert'.symm.trans hinsert))
      have hle := ih hcounted hrest
      rw [List.length_cons]
      omega
    · exact absurd (Prod.mk.inj (Option.some.inj hrest)).2 hret

theorem Counted.each (h : Counted tree t) (hfree : vals.length ≤ freeNodes tree) {i : Nat}
    (hi : i ≤ vals.length) :
    ∃ tree' t', treeInsertManyEach vals i tree = some tree' ∧ Counted tree' t' ∧
      insertsUntil tree (vals.take i) = some (tree', .ok) ∧
      freeNodes tree' = freeNodes tree - i ∧
      (values tree' t').Perm (values tree t ++ vals.take i) := by
  induction i with
  | zero => exact ⟨tree, t, rfl, h, rfl, rfl, by simp⟩
  | succ i ih =>
    obtain ⟨tree₁, t₁, heach, hcounted, huntil, hfree₁, hperm⟩ := ih (Nat.le_of_succ_le hi)
    have hval : vals[i]? = some vals[i] := List.getElem?_eq_getElem hi
    obtain ⟨tree₂, t₂, hinsert, hcounted₂, hless, hperm₂⟩ := hcounted.inserted vals[i] (by omega)
    have htake : vals.take (i + 1) = vals.take i ++ [vals[i]] := by
      rw [List.take_add_one, hval]
      rfl
    refine ⟨tree₂, t₂, ?_, hcounted₂, ?_, by omega, ?_⟩
    · simp [treeInsertManyEach, heach, hval, hinsert]
    · rw [htake, insertsUntil_snoc huntil, hinsert]
    · rw [htake, ← List.append_assoc]
      exact hperm₂.trans (hperm.append_right _)

/-- A bulk insert without an order returns zero whatever becomes of its values, so that it keeps
its law just where there is a free node for each of them. -/
theorem insertMany_unordered (h : Counted tree t) (hpos : 0 < vals.length) :
    EachLaw granted tree t vals ↔ vals.length ≤ freeNodes tree := by
  have hmany : treeInsertMany granted tree vals vals.length 1 false =
      (treeInsertManyEach vals vals.length tree).map fun tree =>
        (tree, .ok, vals, List.range vals.length) := by
    rw [treeInsertMany, if_neg (by omega), if_neg Bool.false_ne_true]
    cases treeInsertManyEach vals vals.length tree <;> rfl
  constructor
  · rintro ⟨tree', t', ret, k, visited, hcall, -, -, ⟨ret', huntil, hret⟩, -⟩
    rw [hmany] at hcall
    obtain ⟨tree₁, -, hr⟩ := Option.map_eq_some_iff.mp hcall
    obtain rfl : Ret.ok = ret := congrArg (fun r => r.2.1) hr
    rw [hret.mp rfl] at huntil
    exact h.length_le huntil
  · intro hfree
    obtain ⟨tree', t', heach, hcounted, huntil, -, hperm⟩ := h.each hfree (Nat.le_refl _)
    rw [List.take_length] at huntil
    refine ⟨tree', t', .ok, vals.length, List.range vals.length, ?_, Nat.le_refl _,
      iff_of_true rfl rfl, ⟨.ok, huntil, Iff.rfl⟩, hcounted.standing, hperm⟩
    rw [hmany, heach]
    rfl

theorem counted_created : Counted created .nil := ⟨(sound_empty rfl).standing, by decide⟩

theorem insertMany_unordered_four :
    EachLaw true created .nil [4, 1, 3, 1] ↔ [4, 1, 3, 1].length ≤ freeNodes created :=
  insertMany_unordered counted_created (by decide)

/-- Of two values for which there is one node the second is not inserted, and zero is returned. -/
theorem not_insertMany_unordered_two :
    Counted { created with maxNodes := 1, room := 1 } .nil ∧
      ((treeInsertMany true { created with maxNodes := 1, room := 1 } [4, 1] 2 1 false).map
        fun r => (r.1.numNodes, r.2.1)) = some (1, .ok) ∧
      ¬ EachLaw true { created with maxNodes := 1, room := 1 } .nil [4, 1] := by
  refine ⟨⟨(sound_empty rfl).standing, by decide⟩, by decide, ?_⟩
  rintro ⟨tree', t', ret, k, visited, hcall, -, -, ⟨ret', huntil, hret⟩, -⟩
  have hzero : (treeInsertMany true { created with maxNodes := 1, room := 1 } [4, 1] 2 1 false).map
      (fun r => r.2.1) = some .ok := by decide
  have hfails : (insertsUntil { created with maxNodes := 1, room := 1 } [4, 1]).map Prod.snd =
      some .EINVAL := by decide
  rw [show treeInsertMany true _ [4, 1] 2 1 false = _ from hcall, Option.map_some,
    Option.some.injEq] at hzero
  rw [huntil, Option.map_some, Option.some.injEq] at hfails
  exact absurd ((hret.mp hzero).symm.trans hfails) (by decide)

end Each

end TreeT

end Dert
