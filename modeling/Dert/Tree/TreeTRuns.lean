import Mathlib.Data.List.Sort
import Dert.Library.Machine
import Dert.Tree.TreeTLaws

namespace Dert.TreeT

open BinaryTree Library Library.SearchTree Library.LinkedTree

structure State where
  tree : TreeTree
  reaped : List Nat

inductive Call
  | insert (val : UInt8)
  | delete (val : UInt8)

def values (tree : TreeTree) (t : BinaryTree Nat) : List UInt8 :=
  (inorder t).map (valAt tree.nodes)

def insert (s : State) (val : UInt8) : Option (State × Ret) :=
  (treeInsert s.tree val).map fun (tree, ret) => ({ s with tree }, ret)

def delete (s : State) (val : UInt8) : Option (State × Ret) :=
  (treeDelete s.tree val).map fun (tree, ret) =>
    let found := (treeLookup s.tree val).join.toList
    ({ tree, reaped := if ret = .ok then found ++ s.reaped else s.reaped }, ret)

def machine : Machine (Option State) Call where
  init s := ∃ granted maxNodes, s = (treeCreate granted maxNodes).join.map fun tree => ⟨tree, []⟩
  step
    | none, _ => none
    | some s, .insert val => some ((insert s val).map Prod.fst)
    | some s, .delete val => some ((delete s val).map Prod.fst)

structure Good (s : State) (t : BinaryTree Nat) : Prop where
  sound : Sound s.tree t
  live : ∀ a ∈ s.reaped, a ∉ inorder t
  harvested : ∀ a ∈ s.reaped, a < s.tree.numNodes

def DelLaw (s : State) (val : UInt8) : Prop :=
  ∃ t, Good s t ∧
    if val ∈ values s.tree t then
      ∃ s' t', delete s val = some (s', .ok) ∧ Good s' t' ∧
        values s'.tree t' = (values s.tree t).erase val
    else ∃ ret, ret ≠ .ok ∧ delete s val = some (s, ret)

/-- The node that the deletion finds is not a right child with exactly one child. -/
def Movable (tree : TreeTree) (val : UInt8) : Prop :=
  ∀ node parent, treeLookup tree val = some (some node) → (tree.nodes node).parent = some parent →
    (tree.nodes parent).rchild = some node →
      ((tree.nodes node).lchild = none ↔ (tree.nodes node).rchild = none)

variable {s : State} {tree : TreeTree} {t l r : BinaryTree Nat} {C : Context Nat} {a : Nat}
  {v : UInt8}

theorem root_eq_none : SearchTree.root t = none ↔ t = .nil := by
  cases t <;> simp [SearchTree.root]

theorem rightChild_iff (h : Sound tree (plug C (.node a l r)))
    (hfound : treeLookup tree v = some (some a)) (P : Option Nat → Option Nat → Prop) :
    (∀ node parent, treeLookup tree v = some (some node) →
      (tree.nodes node).parent = some parent → (tree.nodes parent).rchild = some node →
        P (tree.nodes node).lchild (tree.nodes node).rchild) ↔
      ∀ s p D, C = .right s p :: D → P (SearchTree.root l) (SearchTree.root r) := by
  obtain ⟨hC, hhole, hup, hl, hr⟩ := linked_plug.mp h.linked
  have hlchild := hl.ptr_eq
  have hrchild := hr.ptr_eq
  simp only [hfound, Option.some.injEq]
  constructor
  · rintro hP s p D rfl
    have hone := hP a p rfl hup hhole
    rw [hlchild, hrchild] at hone
    exact hone
  · rintro hP _ p rfl hp hrp
    rw [hup] at hp
    rcases C with _ | ⟨⟨q, s⟩ | ⟨s, q⟩, C⟩
    · cases hp
    · cases hp
      have hsib := hC.2.2.1
      rw [sibling, show (tree.nodes q).rchild = some a from hrp] at hsib
      have hapart := (nodup_plug.mp h.nodup).2.2 a (by simp)
      exact absurd (mem_around.mpr (.inr (.inl hsib.mem))) hapart
    · rw [hlchild, hrchild]
      exact hP s q C rfl

theorem movable_iff (h : Sound tree (plug C (.node a l r)))
    (hfound : treeLookup tree v = some (some a)) : Movable tree v ↔ Replaceable C l r := by
  refine (rightChild_iff h hfound fun lchild rchild => lchild = none ↔ rchild = none).trans ?_
  rcases C with _ | ⟨⟨_, _⟩ | ⟨_, _⟩, _⟩ <;> simp [Replaceable, root_eq_none]

theorem erase_middle {xs ys : List UInt8} (h : (xs ++ v :: ys).Pairwise (· ≤ ·)) :
    (xs ++ v :: ys).erase v = xs ++ ys := by
  have hsub : (xs ++ ys).Sublist (xs ++ v :: ys) := (List.sublist_cons_self v ys).append_left xs
  refine List.Perm.eq_of_pairwise' (h.sublist List.erase_sublist) (h.sublist hsub) ?_
  have hperm : ((xs ++ v :: ys).erase v).Perm ((v :: (xs ++ ys)).erase v) :=
    List.perm_middle.erase v
  rw [List.erase_cons_head] at hperm
  exact hperm

theorem Sound.treeDelete_eq (h : Sound tree t) (v : UInt8) (hnum : tree.numNodes ≠ 0) :
    treeDelete tree v = treeNodeDelete tree (SearchTree.root (locate (valAt tree.nodes) v [] t).2) := by
  have hlookup := h.treeLookup_eq v
  rw [treeLookup] at hlookup
  rw [treeDelete, if_neg hnum, hlookup, Option.bind_some]

theorem mem_values : v ∈ values tree t ↔ ∃ b ∈ inorder t, valAt tree.nodes b = v := List.mem_map

theorem Sound.missing (h : Sound tree t) (hlookup : treeLookup tree v = some none) :
    v ∉ values tree t ∧ treeDelete tree v = some (tree, .EINVAL) := by
  have hlocate := h.treeLookup_eq v
  rw [hlookup, Option.some.injEq, eq_comm] at hlocate
  constructor
  · intro hv
    obtain ⟨b, hb, hbv⟩ := mem_values.mp hv
    exact locate_nil h.ordered (root_eq_none.mp hlocate) b hb hbv
  · by_cases hnum : tree.numNodes = 0
    · rw [treeDelete, if_pos hnum]
    · rw [h.treeDelete_eq v hnum, hlocate]
      rfl

theorem Good.missing (h : Good s t) (hlookup : treeLookup s.tree v = some none) :
    v ∉ values s.tree t ∧ delete s v = some (s, .EINVAL) := by
  obtain ⟨hv, hdelete⟩ := h.sound.missing hlookup
  refine ⟨hv, ?_⟩
  rw [delete, hdelete]
  rfl

theorem Sound.located (h : Sound tree t) (hlookup : treeLookup tree v = some (some a)) :
    ∃ C l r, t = plug C (.node a l r) ∧ valAt tree.nodes a = v ∧
      treeDelete tree v = treeNodeDelete tree (some a) := by
  have hlocate := h.treeLookup_eq v
  rw [hlookup, Option.some.injEq] at hlocate
  have hplug : plug (locate (valAt tree.nodes) v [] t).1 (locate (valAt tree.nodes) v [] t).2 = t :=
    plug_locate [] t
  cases hat : (locate (valAt tree.nodes) v [] t).2 with
  | nil =>
    rw [hat] at hlocate
    cases hlocate
  | node b l r =>
    rw [hat] at hlocate hplug
    cases hlocate
    have hmem : a ∈ inorder t := by
      rw [← hplug, mem_plug]
      exact .inl (by simp)
    have hdelete := h.treeDelete_eq v (Nat.ne_zero_of_lt (h.harvested a hmem))
    rw [hat] at hdelete
    exact ⟨_, l, r, hplug.symm, locate_key hat, hdelete⟩

theorem Sound.found (h : Sound tree t) (hlookup : treeLookup tree v = some (some a)) :
    v ∈ values tree t := by
  obtain ⟨C, l, r, rfl, hkey, -⟩ := h.located hlookup
  exact mem_values.mpr ⟨a, mem_plug.mpr (.inl (by simp)), hkey⟩

theorem Good.stored (h : Good s (plug C (.node a l r))) (hv : valAt s.tree.nodes a = v)
    (hlookup : treeLookup s.tree v = some (some a))
    (hdelete : treeDelete s.tree v = treeNodeDelete s.tree (some a)) :
    (∃ s' t', delete s v = some (s', .ok) ∧ Good s' t' ∧
        values s'.tree t' = (values s.tree (plug C (.node a l r))).erase v) ↔
      Replaceable C l r := by
  constructor
  · rintro ⟨s', t', hd, hgood, -⟩
    by_contra hbad
    rw [delete, hdelete, Option.map_eq_some_iff] at hd
    obtain ⟨⟨tree', ret⟩, hd, heq⟩ := hd
    simp only [Prod.mk.injEq] at heq
    obtain ⟨rfl, rfl⟩ := heq
    by_cases hdet : Detachable C l r
    · obtain ⟨root, nodes, hd', hshaped, hlinked, -⟩ := h.sound.misplaced hbad hdet
      rw [hd'] at hd
      cases hd
      obtain rfl := hshaped.unique hgood.sound.linked.shaped
      exact hlinked hgood.sound.linked
    · rw [h.sound.stuck hdet] at hd
      cases hd
  · intro hrep
    obtain ⟨root, nodes, hd, hsound, hvals⟩ := h.sound.deleted hrep
    refine ⟨⟨{ s.tree with root, nodes }, a :: s.reaped⟩, plug C (join l r), ?_,
      ⟨hsound, ?_, ?_⟩, ?_⟩
    · rw [delete, hdelete, hd, hlookup]
      rfl
    · intro b hb
      rcases List.mem_cons.mp hb with rfl | hb
      · exact h.sound.gone
      · exact fun hbt => h.live b hb (mem_of_mem_joined hbt)
    · intro b hb
      rcases List.mem_cons.mp hb with rfl | hb
      · exact h.sound.harvested b (mem_plug.mpr (.inl (by simp)))
      · exact h.harvested b hb
    · have hsorted := h.sound.ordered.pairwise
      rw [values, List.map_congr_left hvals]
      simp only [values, inorder_plug, inorder_node, inorder_join, List.map_append, List.map_cons,
        hv, List.append_assoc, List.cons_append] at hsorted ⊢
      rw [← List.append_assoc] at hsorted
      have herase := erase_middle hsorted
      rw [List.append_assoc, List.append_assoc] at herase
      exact herase.symm

theorem delLaw_iff (h : Good s t) (v : UInt8) : DelLaw s v ↔ Movable s.tree v := by
  obtain ⟨found, hlookup⟩ : ∃ found, treeLookup s.tree v = some found :=
    ⟨_, h.sound.treeLookup_eq v⟩
  cases found with
  | none =>
    obtain ⟨hv, hdelete⟩ := h.missing hlookup
    constructor
    · intro _ node parent hfound
      rw [hlookup] at hfound
      cases hfound
    · intro _
      refine ⟨t, h, ?_⟩
      rw [if_neg hv]
      exact ⟨.EINVAL, by decide, hdelete⟩
  | some a =>
    have hv := h.sound.found hlookup
    obtain ⟨C, l, r, rfl, hkey, hdelete⟩ := h.sound.located hlookup
    rw [movable_iff h.sound hlookup, ← h.stored hkey hlookup hdelete]
    constructor
    · rintro ⟨t, ht, hlaw⟩
      obtain rfl := ht.sound.unique h.sound
      rw [if_pos hv] at hlaw
      exact hlaw
    · intro hlaw
      refine ⟨_, h, ?_⟩
      rw [if_pos hv]
      exact hlaw

def Inv (x : Option State) : Prop :=
  ∀ s, x = some s → ∃ t, Good s t

theorem inv_create (granted : Bool) (maxNodes : Nat) :
    Inv ((treeCreate granted maxNodes).join.map fun tree => ⟨tree, []⟩) := by
  intro s hs
  obtain ⟨tree, hcreate, rfl⟩ := Option.map_eq_some_iff.mp hs
  have hroot := (treeCreate_eq (Option.join_eq_some_iff.mp hcreate)).1
  exact ⟨.nil, sound_empty hroot, by simp, by simp⟩

theorem Good.inserted (h : Good s t) (v : UInt8) (hfull : s.tree.numNodes ≠ s.tree.maxNodes)
    (hroom : s.tree.numNodes < s.tree.room) :
    ∃ s', insert s v = some (s', .ok) ∧
      Good s' (grow (valAt s.tree.nodes) v s.tree.numNodes t) ∧
      s'.tree.numNodes = s.tree.numNodes + 1 ∧ s'.tree.maxNodes = s.tree.maxNodes ∧
      s'.tree.room = s.tree.room := by
  obtain ⟨root, nodes, hinsert, hsound, -⟩ := h.sound.inserted v hfull hroom
  refine ⟨{ s with tree := { s.tree with root, nodes, numNodes := s.tree.numNodes + 1 } }, ?_,
    ⟨hsound, fun a ha hat => ?_, fun a ha => ?_⟩, rfl, rfl, rfl⟩
  · rw [insert, hinsert]
    rfl
  · rcases mem_grow.mp hat with rfl | hat
    · exact absurd (h.harvested _ ha) (Nat.lt_irrefl _)
    · exact h.live a ha hat
  · exact Nat.lt_succ_of_lt (h.harvested a ha)

theorem insert_full (hfull : s.tree.numNodes = s.tree.maxNodes) (v : UInt8) :
    insert s v = some (s, .EINVAL) := by
  rw [insert, treeInsert_full hfull]
  rfl

theorem insert_outside (hfull : s.tree.numNodes ≠ s.tree.maxNodes)
    (hroom : ¬ s.tree.numNodes < s.tree.room) (v : UInt8) : insert s v = none := by
  rw [insert, treeInsert_outside hfull hroom]
  rfl

theorem Inv.insert (h : Inv (some s)) (v : UInt8) : Inv ((insert s v).map Prod.fst) := by
  intro s' hs'
  obtain ⟨t, hgood⟩ := h s rfl
  by_cases hfull : s.tree.numNodes = s.tree.maxNodes
  · rw [insert_full hfull] at hs'
    cases hs'
    exact ⟨t, hgood⟩
  · by_cases hroom : s.tree.numNodes < s.tree.room
    · obtain ⟨s'', hinsert, hgood', -⟩ := hgood.inserted v hfull hroom
      rw [hinsert] at hs'
      cases hs'
      exact ⟨_, hgood'⟩
    · rw [insert_outside hfull hroom] at hs'
      cases hs'

theorem Inv.delete (h : Inv (some s)) (hmov : Movable s.tree v) :
    Inv ((delete s v).map Prod.fst) := by
  intro s' hs'
  obtain ⟨t, hgood⟩ := h s rfl
  obtain ⟨t, hgood, hlaw⟩ := (delLaw_iff hgood v).mpr hmov
  split_ifs at hlaw
  · obtain ⟨s'', t', hdelete, hgood', -⟩ := hlaw
    rw [hdelete] at hs'
    cases hs'
    exact ⟨t', hgood'⟩
  · obtain ⟨ret, -, hdelete⟩ := hlaw
    rw [hdelete] at hs'
    cases hs'
    exact ⟨t, hgood⟩

/-- Every deletion of a run obeys its law exactly when none takes out a right child that
has exactly one child. -/
theorem deleteLaw_run_iff {tr : List (Option State × Call)} {x : Option State}
    (hr : machine.Run tr x) :
    (∀ p ∈ tr, ∀ s v, p = (some s, .delete v) → DelLaw s v) ↔
      ∀ p ∈ tr, ∀ s v, p = (some s, .delete v) → Movable s.tree v := by
  have hrule := hr.steps_iff (I := Inv)
    (L := fun x call => ∀ s v, (x, call) = (some s, .delete v) → DelLaw s v)
    (G := fun x call => ∀ s v, (x, call) = (some s, .delete v) → Movable s.tree v) ?_ ?_ ?_
  · exact hrule
  · rintro x ⟨granted, maxNodes, rfl⟩
    exact inv_create granted maxNodes
  · intro x call x' h hG hs
    cases x with
    | none => cases hs
    | some s =>
      cases call with
      | insert v =>
        cases hs
        exact h.insert v
      | delete v =>
        cases hs
        exact h.delete (hG s v rfl)
  · intro x call x' h _
    constructor
    · rintro hL s v heq
      cases heq
      obtain ⟨t, hgood⟩ := h s rfl
      exact (delLaw_iff hgood v).mp (hL s v rfl)
    · rintro hG s v heq
      cases heq
      obtain ⟨t, hgood⟩ := h s rfl
      exact (delLaw_iff hgood v).mpr (hG s v rfl)

def created : TreeTree :=
  { root := none, nodes := fun _ => zeroNode, numNodes := 0, maxNodes := 8, room := 8 }

theorem deleteLaw_run_iff_twoChildren :
    ∃ tr x, machine.Run tr x ∧ (x.any fun s => s.reaped = [0]) ∧
      ((∀ p ∈ tr, ∀ s v, p = (some s, .delete v) → DelLaw s v) ↔
        ∀ p ∈ tr, ∀ s v, p = (some s, .delete v) → Movable s.tree v) := by
  obtain ⟨tr, x, hr, hx⟩ := Machine.exists_run_of_exec machine (some ⟨created, []⟩)
    [.insert 5, .insert 9, .insert 3, .delete 5] (fun x => x.any fun s => s.reaped = [0])
    ⟨true, 8, rfl⟩ (by decide)
  exact ⟨tr, x, hr, hx, deleteLaw_run_iff hr⟩

/-- The right child 9 has the one child 7: its deletion follows a null pointer. -/
theorem not_delLaw_onlyLchild :
    ¬ ∀ (tr : List (Option State × Call)) (s : State), machine.Run tr (some s) →
      ∀ v, DelLaw s v := by
  obtain ⟨tr, x, hr, hx⟩ := Machine.exists_run_of_exec machine (some ⟨created, []⟩)
    [.insert 5, .insert 9, .insert 7]
    (fun x => x.any fun s => (treeLookup s.tree 9 = some (some 1)) && (treeDelete s.tree 9).isNone)
    ⟨true, 8, rfl⟩ (by decide)
  obtain ⟨s, rfl, hs⟩ := (Option.any_eq_true _ _).mp hx
  simp only [Bool.and_eq_true, decide_eq_true_eq, Option.isNone_iff_eq_none] at hs
  intro hlaw
  obtain ⟨t, hgood, hlaw⟩ := hlaw tr s hr 9
  rw [if_pos (hgood.sound.found hs.1)] at hlaw
  obtain ⟨s', t', hdelete, -⟩ := hlaw
  rw [delete, hs.2] at hdelete
  cases hdelete

end Dert.TreeT
