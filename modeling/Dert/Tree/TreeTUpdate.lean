import Dert.Tree.TreeTInsert
import Dert.Tree.TreeTShape

namespace Dert.TreeT

open BinaryTree Library Library.SearchTree Library.LinkedTree

def UpdateLaw (tree : TreeTree) (newVal oldVal : UInt8) : Prop :=
  ∃ t tree' t' ret, Shaped tree.nodes tree.root t ∧
    treeUpdate tree newVal oldVal = some (tree', ret) ∧ Shaped tree'.nodes tree'.root t' ∧
    (oldVal ∈ values tree t →
      ret = .ok ∧ (values tree' t').Perm (newVal :: (values tree t).erase oldVal)) ∧
    (ret ≠ .ok → (values tree' t').Perm (values tree t))

/-- The node that the deletion finds is not a right child with a left child only. -/
def Removable (tree : TreeTree) (val : UInt8) : Prop :=
  ∀ node parent, treeLookup tree val = some (some node) → (tree.nodes node).parent = some parent →
    (tree.nodes parent).rchild = some node →
      (tree.nodes node).rchild = none → (tree.nodes node).lchild = none

variable {tree tree' : TreeTree} {t l r : BinaryTree Nat} {C : Context Nat} {a : Nat}
  {v newVal oldVal : UInt8} {vals : List UInt8} {rets : List Ret}

theorem removable_iff (h : Sound tree (plug C (.node a l r)))
    (hfound : treeLookup tree v = some (some a)) : Removable tree v ↔ Detachable C l r := by
  refine (rightChild_iff h hfound fun lchild rchild => rchild = none → lchild = none).trans ?_
  rcases C with _ | ⟨⟨_, _⟩ | ⟨_, _⟩, _⟩ <;> simp [Detachable, root_eq_none]

theorem Sound.taken (h : Sound tree (plug C (.node a l r))) (hdet : Detachable C l r) :
    ∃ root nodes, treeNodeDelete tree (some a) = some ({ tree with root, nodes }, .ok) ∧
      Standing { tree with root, nodes } (plug C (join l r)) ∧
      (values { tree with root, nodes } (plug C (join l r))).Perm
        ((values tree (plug C (.node a l r))).erase (valAt tree.nodes a)) := by
  obtain ⟨root, nodes, hdelete, hshaped, hvals⟩ := h.detached hdet
  refine ⟨root, nodes, hdelete, ⟨hshaped, h.nodup_joined, fun b hb =>
    h.harvested b (mem_of_mem_joined hb)⟩, ?_⟩
  have hperm : (a :: inorder (plug C (join l r))).Perm (inorder (plug C (.node a l r))) := by
    simp only [inorder_plug, inorder_node, inorder_join, List.append_assoc, List.cons_append]
    rw [← List.append_assoc, ← List.append_assoc (before C)]
    exact List.perm_middle.symm
  have hmap := hperm.map (valAt tree.nodes)
  rw [List.map_cons, ← List.map_congr_left hvals] at hmap
  exact (List.cons_perm_iff_perm_erase.mp hmap).2

theorem Sound.updates_iff (h : Sound tree t) :
    UpdateLaw tree newVal oldVal ↔ treeLookup tree oldVal = some none ∨
      (tree.numNodes ≠ tree.maxNodes ∧ tree.numNodes < tree.room) ∧ Removable tree oldVal := by
  obtain ⟨found, hlookup⟩ : ∃ found, treeLookup tree oldVal = some found := ⟨_, h.treeLookup_eq oldVal⟩
  cases found with
  | none =>
    obtain ⟨hv, hdelete⟩ := h.missing hlookup
    have hupdate : treeUpdate tree newVal oldVal = some (tree, .EINVAL) := by
      rw [treeUpdate, hdelete]
    exact ⟨fun _ => .inl hlookup, fun _ => ⟨t, tree, t, .EINVAL, h.linked.shaped, hupdate,
      h.linked.shaped, fun hmem => absurd hmem hv, fun _ => List.Perm.refl _⟩⟩
  | some a =>
    have hv := h.found hlookup
    obtain ⟨C, l, r, rfl, hkey, hdelete⟩ := h.located hlookup
    rw [removable_iff h hlookup, hlookup]
    simp only [Option.some.injEq, reduceCtorEq, false_or]
    constructor
    · rintro ⟨t, tree', t', ret, ht, hupdate, -, hlaw, -⟩
      obtain rfl := ht.unique h.linked.shaped
      obtain ⟨rfl, -⟩ := hlaw hv
      have hdet : Detachable C l r := by
        by_contra hdet
        rw [treeUpdate, hdelete, h.stuck hdet] at hupdate
        cases hupdate
      obtain ⟨root, nodes, htaken, -⟩ := h.taken hdet
      rw [treeUpdate, hdelete, htaken] at hupdate
      have hfull : tree.numNodes ≠ tree.maxNodes := by
        intro hfull
        have hinsert : treeInsert { tree with root, nodes } newVal = some (_, .EINVAL) :=
          treeInsert_full (by exact hfull) newVal
        simp [hinsert] at hupdate
      refine ⟨⟨hfull, ?_⟩, hdet⟩
      by_contra hroom
      have hinsert : treeInsert { tree with root, nodes } newVal = none :=
        treeInsert_outside (by exact hfull) (by exact hroom) newVal
      simp [hinsert] at hupdate
    · rintro ⟨⟨hfull, hroom⟩, hdet⟩
      obtain ⟨root, nodes, htaken, hstanding, hperm⟩ := h.taken hdet
      obtain ⟨root', nodes', hinsert, hstanding', hval⟩ := hstanding.inserted newVal hfull hroom
      have hgrow := hstanding.values_grow root' hval
      refine ⟨_, _, _, .ok, h.linked.shaped, ?_, hstanding'.shaped, fun _ => ⟨rfl, ?_⟩, ?_⟩
      · rw [treeUpdate, hdelete, htaken]
        simp [hinsert]
      · rw [hkey] at hperm
        exact hgrow.trans (hperm.cons newVal)
      · exact fun hret => absurd rfl hret

theorem Sound.inserts (h : Sound tree t) (hinserts : TreeT.inserts tree vals = some (tree', rets)) :
    (∃ t', Sound tree' t') ∧ tree'.maxNodes = tree.maxNodes ∧ tree'.room = tree.room := by
  induction vals generalizing tree t rets with
  | nil =>
    cases hinserts
    exact ⟨⟨t, h⟩, rfl, rfl⟩
  | cons v vals ih =>
    rw [TreeT.inserts] at hinserts
    obtain ⟨⟨tree₁, ret⟩, hinsert, hrest⟩ := Option.bind_eq_some_iff.mp hinserts
    obtain ⟨⟨tree₂, rets₂⟩, hvals, heq⟩ := Option.map_eq_some_iff.mp hrest
    obtain ⟨rfl, -⟩ := Prod.mk.inj heq
    by_cases hfull : tree.numNodes = tree.maxNodes
    · rw [treeInsert_full hfull] at hinsert
      cases hinsert
      exact ih h hvals
    · by_cases hroom : tree.numNodes < tree.room
      · obtain ⟨root, nodes, hinsert', hsound, -⟩ := h.inserted v hfull hroom
        rw [hinsert'] at hinsert
        cases hinsert
        have hmore := ih hsound hvals
        exact hmore
      · rw [treeInsert_outside hfull hroom] at hinsert
        cases hinsert

theorem updateLaw_built {granted : Bool} {maxNodes : Nat} {fresh : TreeTree}
    (hcreate : treeCreate granted maxNodes = some (some fresh))
    (hinserts : inserts fresh vals = some (tree, rets)) :
    UpdateLaw tree newVal oldVal ↔ treeLookup tree oldVal = some none ∨
      tree.numNodes < maxNodes % 2 ^ 59 ∧ Removable tree oldVal := by
  obtain ⟨hroot, -, hmax, hroom⟩ := treeCreate_eq hcreate
  obtain ⟨⟨t, ht⟩, hmax', hroom'⟩ := (sound_empty hroot).inserts hinserts
  have hle := Nat.mod_le maxNodes (2 ^ 59)
  have hharvest : tree.numNodes ≠ tree.maxNodes ∧ tree.numNodes < tree.room ↔
      tree.numNodes < maxNodes % 2 ^ 59 := by
    rw [hmax', hroom', hmax, hroom]
    exact ⟨fun h => h.2, fun h => ⟨by omega, h⟩⟩
  rw [ht.updates_iff, hharvest]

/-- An update of a tree built by insertions is all or nothing, for a stored value, exactly when
the tree lies in its block, another node can be harvested and the deletion follows no null
pointer. -/
theorem updateLaw_iff {granted : Bool} {maxNodes : Nat}
    (hcreate : treeCreate granted maxNodes ≠ some none) :
    (∃ fresh, treeCreate granted maxNodes = some (some fresh) ∧
      ∀ tree rets, inserts fresh vals = some (tree, rets) → UpdateLaw tree newVal oldVal) ↔
    maxNodes % 2 ^ 59 ≠ 2 ^ 59 - 1 ∧
      ∀ fresh tree rets, treeCreate granted maxNodes = some (some fresh) →
        inserts fresh vals = some (tree, rets) → treeLookup tree oldVal = some none ∨
          tree.numNodes < maxNodes % 2 ^ 59 ∧ Removable tree oldVal := by
  rcases treeCreate_cases hcreate with ⟨hlast, hnone⟩ | ⟨hlast, fresh, hfresh⟩
  · constructor
    · rintro ⟨fresh, hcreate', -⟩
      rw [hnone] at hcreate'
      cases hcreate'
    · exact fun h => absurd hlast h.1
  · rw [and_iff_right hlast]
    constructor
    · rintro ⟨fresh', hcreate', hlaw⟩ fresh'' tree rets hcreate'' hinserts
      obtain rfl := Option.some.inj (Option.some.inj (hcreate'.symm.trans hcreate''))
      exact (updateLaw_built hcreate' hinserts).mp (hlaw tree rets hinserts)
    · exact fun h => ⟨fresh, hfresh, fun tree rets hinserts =>
        (updateLaw_built hfresh hinserts).mpr (h fresh tree rets hfresh hinserts)⟩

theorem updateLaw_iff_duplicates :
    ∃ fresh tree rets, treeCreate true 8 = some (some fresh) ∧
      inserts fresh [5, 3, 5] = some (tree, rets) ∧ UpdateLaw tree 7 5 := by
  have hcreate : treeCreate true 8 = some (some created) := rfl
  have hinserts : inserts created [5, 3, 5] = some (_, _) := rfl
  have hlaw : ∃ fresh, treeCreate true 8 = some (some fresh) ∧
      ∀ tree rets, inserts fresh [5, 3, 5] = some (tree, rets) → UpdateLaw tree 7 5 := by
    refine (updateLaw_iff (by simp [hcreate])).mpr ⟨by decide, ?_⟩
    intro fresh tree rets hcreate' hinserts'
    obtain rfl := Option.some.inj (Option.some.inj (hcreate.symm.trans hcreate'))
    obtain ⟨rfl, rfl⟩ := Prod.mk.inj (Option.some.inj (hinserts.symm.trans hinserts'))
    refine .inr ⟨by decide, fun node parent hfound hparent => ?_⟩
    rw [show treeLookup _ 5 = some (some 0) from rfl, Option.some.injEq,
      Option.some.injEq] at hfound
    subst hfound
    cases hparent
  obtain ⟨fresh, hcreate', hlaw⟩ := hlaw
  obtain rfl := Option.some.inj (Option.some.inj (hcreate.symm.trans hcreate'))
  exact ⟨_, _, _, hcreate, hinserts, hlaw _ _ hinserts⟩

/-- The value of a full tree is lost. -/
theorem not_updateLaw_full :
    ¬ ∀ granted maxNodes fresh vals tree rets newVal oldVal,
      treeCreate granted maxNodes = some (some fresh) → inserts fresh vals = some (tree, rets) →
        UpdateLaw tree newVal oldVal := by
  intro h
  have hcreate : treeCreate true 1 = some (some { created with maxNodes := 1, room := 1 }) := rfl
  have hinserts : inserts { created with maxNodes := 1, room := 1 } [5] = some (_, _) := rfl
  obtain ⟨t, tree', t', ret, ht, hupdate, -, hlaw, -⟩ := h true 1 _ [5] _ _ 7 5 hcreate hinserts
  obtain rfl := ht.unique (show Shaped _ (some 0) (.node 0 .nil .nil) from ⟨rfl, rfl, rfl⟩)
  obtain ⟨rfl, -⟩ := hlaw (by decide)
  cases hupdate

end Dert.TreeT
