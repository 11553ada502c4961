import Dert.Tree.TreeTLaws

namespace Dert.TreeT

open BinaryTree Library Library.SearchTree Library.LinkedTree Library.StableSort

def inserts : TreeTree → List UInt8 → Option (TreeTree × List Ret)
  | tree, [] => some (tree, [])
  | tree, v :: vals =>
    (treeInsert tree v).bind fun (tree, ret) =>
      (inserts tree vals).map fun (tree, rets) => (tree, ret :: rets)

/-- What inserting `vals` makes of a fresh tree.  The `i`-th call takes node `i`. -/
def InsertLaw (tree : TreeTree) (vals : List UInt8) : Prop :=
  ∃ tree' t, inserts tree vals = some (tree', vals.map fun _ => .ok) ∧
    Linked tree'.nodes none tree'.root t ∧
    (List.range vals.length).map (valAt tree'.nodes) = vals ∧
    (inorder t = (List.range vals.length).mergeSort fun a b =>
      valAt tree'.nodes a ≤ valAt tree'.nodes b) ∧
    ∀ v, treeLookup tree' v = some (vals.idxOf? v)

structure Built (tree : TreeTree) (vals : List UInt8) (t : BinaryTree Nat) : Prop where
  sound : Sound tree t
  harvests : tree.numNodes = vals.length
  stored : (List.range vals.length).map (valAt tree.nodes) = vals
  every : (inorder t).Perm (List.range vals.length)
  stable : (inorder t).Pairwise (Before (valAt tree.nodes))
  first : ∀ v, find (valAt tree.nodes) v t = vals.idxOf? v

variable {tree : TreeTree} {t : BinaryTree Nat} {vals : List UInt8} {v : UInt8}

theorem idxOf?_snoc (vals : List UInt8) (v w : UInt8) :
    (vals ++ [v]).idxOf? w = (vals.idxOf? w).or (if v = w then some vals.length else none) := by
  rw [List.idxOf?, List.findIdx?_append]
  by_cases hvw : v = w
  · simp [hvw]
  · simp [hvw]

theorem built_fresh {granted : Bool} {maxNodes : Nat}
    (h : treeCreate granted maxNodes = some (some tree)) : Built tree [] .nil := by
  obtain ⟨hroot, hnum, -⟩ := treeCreate_eq h
  exact ⟨sound_empty hroot, hnum, rfl, .nil, .nil, fun _ => rfl⟩

theorem Built.inserted (h : Built tree vals t) (v : UInt8) (hfull : vals.length ≠ tree.maxNodes)
    (hroom : vals.length < tree.room) :
    ∃ tree' t', treeInsert tree v = some (tree', .ok) ∧ Built tree' (vals ++ [v]) t' ∧
      tree'.maxNodes = tree.maxNodes ∧ tree'.room = tree.room := by
  have hnum := h.harvests
  rw [← hnum] at hfull hroom
  obtain ⟨root, nodes, hinsert, hsound, hval⟩ := h.sound.inserted v hfull hroom
  have hnew : valAt nodes tree.numNodes = v := by rw [hval, Function.update_self]
  have hold : ∀ b < tree.numNodes, valAt nodes b = valAt tree.nodes b := fun b hb => by
    rw [hval, Function.update_of_ne (Nat.ne_of_lt hb)]
  have hsame : ∀ b ∈ inorder t, valAt nodes b = valAt tree.nodes b :=
    fun b hb => hold b (h.sound.harvested b hb)
  have hgrow : grow (valAt tree.nodes) v tree.numNodes t =
      grow (valAt nodes) (valAt nodes tree.numNodes) tree.numNodes t := by
    rw [hnew, grow_congr hsame]
  rw [hgrow] at hsound
  refine ⟨_, _, hinsert, ⟨hsound, ?_, ?_, ?_, ?_, fun w => ?_⟩, rfl, rfl⟩
  · simp [hnum]
  · rw [List.length_append, List.length_singleton, List.range_succ, List.map_append, ← hnum,
      List.map_singleton, hnew]
    congr 1
    calc
      (List.range tree.numNodes).map (valAt nodes) =
          (List.range tree.numNodes).map (valAt tree.nodes) :=
        List.map_congr_left fun b hb => hold b (List.mem_range.mp hb)
      _ = vals := by rw [hnum, h.stored]
  · rw [List.length_append, List.length_singleton, List.range_succ, ← hnum]
    have hevery := h.every
    rw [← hnum] at hevery
    exact (inorder_grow_perm t).trans
      ((hevery.cons _).trans (List.perm_append_singleton _ _).symm)
  · refine pairwise_grow (h.sound.ordered.congr hsame) ?_ h.sound.harvested
    refine h.stable.imp_of_mem fun ha hb hab => ?_
    rw [Before, hsame _ ha, hsame _ hb]
    exact hab
  · rw [find_grow, find_congr hsame, hnew, h.first, idxOf?_snoc, hnum]
    by_cases hvw : v = w
    · rw [if_pos hvw, if_pos hvw]
    · rw [if_neg hvw, if_neg hvw]

theorem Built.inserts (h : Built tree vals t) (more : List UInt8)
    (hmax : vals.length + more.length ≤ tree.maxNodes) (hroom : vals.length + more.length ≤ tree.room) :
    ∃ tree' t', inserts tree more = some (tree', more.map fun _ => .ok) ∧
      Built tree' (vals ++ more) t' := by
  induction more generalizing tree vals t with
  | nil => exact ⟨tree, t, rfl, by simpa using h⟩
  | cons v more ih =>
    rw [List.length_cons] at hmax hroom
    obtain ⟨tree₁, t₁, hinsert, hbuilt, hmax₁, hroom₁⟩ := h.inserted v (by omega) (by omega)
    have hlen : (vals ++ [v]).length = vals.length + 1 := by simp
    obtain ⟨tree₂, t₂, hinserts, hbuilt⟩ := ih hbuilt (by omega) (by omega)
    refine ⟨tree₂, t₂, ?_, by simpa using hbuilt⟩
    rw [TreeT.inserts, hinsert]
    simp [hinserts]

theorem Built.inserts_outside (h : Built tree vals t) (more : List UInt8)
    (hmax : vals.length + more.length ≤ tree.maxNodes) (hle : vals.length ≤ tree.room)
    (hroom : tree.room < vals.length + more.length) : TreeT.inserts tree more = none := by
  induction more generalizing tree vals t with
  | nil =>
    rw [List.length_nil] at hroom
    omega
  | cons v more ih =>
    rw [List.length_cons] at hmax hroom
    by_cases hfits : vals.length < tree.room
    · obtain ⟨tree₁, t₁, hinsert, hbuilt, hmax₁, hroom₁⟩ := h.inserted v (by omega) hfits
      have hlen : (vals ++ [v]).length = vals.length + 1 := by simp
      have hnone := ih hbuilt (by omega) (by omega) (by omega)
      rw [TreeT.inserts, hinsert]
      simp [hnone]
    · have hnum := h.harvests
      rw [TreeT.inserts, treeInsert_outside (by omega) (by omega)]
      rfl

theorem Built.treeLookup_eq (h : Built tree vals t) (v : UInt8) :
    treeLookup tree v = some (vals.idxOf? v) := by
  rw [h.sound.treeLookup_eq, root_locate, h.first]

theorem Built.insertLaw (h : Built tree [] .nil) (hvals : vals.length ≤ tree.maxNodes) :
    InsertLaw tree vals ↔ vals.length ≤ tree.room := by
  constructor
  · rintro ⟨tree', t, hinserts, -⟩
    by_contra hout
    have hnone := h.inserts_outside vals (by simpa using hvals) (Nat.zero_le _)
      (by simpa using hout)
    rw [hnone] at hinserts
    cases hinserts
  · intro hfits
    obtain ⟨tree', t, hinserts, hbuilt⟩ :=
      h.inserts vals (by simpa using hvals) (by simpa using hfits)
    rw [List.nil_append] at hbuilt
    exact ⟨tree', t, hinserts, hbuilt.sound.linked, hbuilt.stored,
      eq_mergeSort hbuilt.every hbuilt.stable List.pairwise_lt_range, hbuilt.treeLookup_eq⟩

/-- The creation and the insertions obey their law exactly when the tree and they fit into the
block, whose size `tree_advise` computes modulo `2 ^ 64`. -/
theorem insertLaw_iff {granted : Bool} {maxNodes : Nat}
    (hcreate : treeCreate granted maxNodes ≠ some none) (hvals : vals.length ≤ maxNodes) :
    ((∃ tree, treeCreate granted maxNodes = some (some tree) ∧ InsertLaw tree vals) ∧
      ∀ full v, full.numNodes = full.maxNodes →
        ∃ ret, ret ≠ .ok ∧ treeInsert full v = some (full, ret)) ↔
      maxNodes % 2 ^ 59 ≠ 2 ^ 59 - 1 ∧ vals.length ≤ maxNodes % 2 ^ 59 := by
  have hfull (full : TreeTree) (v : UInt8) (h : full.numNodes = full.maxNodes) :
      ∃ ret, ret ≠ .ok ∧ treeInsert full v = some (full, ret) :=
    ⟨.EINVAL, by decide, treeInsert_full h v⟩
  rcases treeCreate_cases hcreate with ⟨hlast, hnone⟩ | ⟨hlast, tree, hcreate⟩
  · constructor
    · rintro ⟨⟨tree, hcreate', -⟩, -⟩
      rw [hnone] at hcreate'
      cases hcreate'
    · exact fun h => absurd hlast h.1
  · obtain ⟨-, -, hmaxNodes, hroom⟩ := treeCreate_eq hcreate
    rw [← hmaxNodes] at hvals
    have hlaw := (built_fresh hcreate).insertLaw hvals
    rw [hroom] at hlaw
    rw [and_iff_left hfull, and_iff_right hlast, ← hlaw]
    constructor
    · rintro ⟨tree', hcreate', h⟩
      obtain rfl := Option.some.inj (Option.some.inj (hcreate.symm.trans hcreate'))
      exact h
    · exact fun h => ⟨tree, hcreate, h⟩

theorem insertLaw_iff_duplicates :
    ∃ tree, treeCreate true 8 = some (some tree) ∧ InsertLaw tree [5, 3, 5] :=
  ((insertLaw_iff (by simp [treeCreate, treeInit, treeAdvise, sizeT, sizeMax, sizeofTreeTree,
    sizeofTreeNode, ptrdiffMax]) (by decide)).mpr (by decide)).1

/-- The block of a tree for `2 ^ 59` nodes has room for none. -/
theorem not_insertLaw_wrapped :
    ¬ ∀ granted maxNodes tree vals, treeCreate granted maxNodes = some (some tree) →
      vals.length ≤ maxNodes → InsertLaw tree vals := by
  intro h
  obtain ⟨tree', t, hinserts, -⟩ := h true (2 ^ 59) _ [0] rfl (by decide)
  cases hinserts

end Dert.TreeT
