import Dert.Library.Extremes
import Dert.Tree.TreeTLaws

namespace Dert.TreeT

open BinaryTree Library Library.SearchTree Library.LinkedTree

variable {nodes : Nodes Nat UInt8} {up ptr first last : Option Nat} {t l r : BinaryTree Nat}
  {a fuel : Nat} {checked : Prop}

section Reachable

theorem linked_iff_parent :
    Linked nodes (some a) ptr t ↔
      (∃ up, Linked nodes up ptr t) ∧ ptr.all (fun c => (nodes c).parent = some a) = true := by
  cases t with
  | nil =>
    refine ⟨fun h => ⟨⟨none, h⟩, ?_⟩, fun ⟨⟨_, h⟩, _⟩ => h⟩
    rw [show ptr = none from h]
    rfl
  | node b l r =>
    constructor
    · rintro ⟨rfl, hup, hl, hr⟩
      exact ⟨⟨_, rfl, hup, hl, hr⟩, by simp [hup]⟩
    · rintro ⟨⟨up, rfl, -, hl, hr⟩, hall⟩
      exact ⟨rfl, by simpa using hall, hl, hr⟩

theorem treeNodeReachable_eq (h : Shaped nodes ptr t) (hfuel : t.height ≤ fuel) :
    ∃ node, treeNodeReachable nodes fuel ptr = some node ∧ (node = none ∨ node = ptr) ∧
      (node = ptr ↔ ∃ up, Linked nodes up ptr t) := by
  induction t generalizing ptr fuel with
  | nil =>
    obtain rfl : ptr = none := h
    refine ⟨none, ?_, .inl rfl, fun _ => ⟨none, rfl⟩, fun _ => rfl⟩
    cases fuel <;> rfl
  | node a l r ihl ihr =>
    obtain ⟨rfl, hl, hr⟩ := h
    obtain ⟨fuel, rfl, hlfuel, hrfuel⟩ := exists_fuel hfuel
    obtain ⟨lchild, hlchild, -, hliff⟩ := ihl hl hlfuel
    obtain ⟨rchild, hrchild, -, hriff⟩ := ihr hr hrfuel
    have hlinked : (∃ up, Linked nodes up (some a) (.node a l r)) ↔
        Linked nodes (some a) (nodes a).lchild l ∧ Linked nodes (some a) (nodes a).rchild r := by
      constructor
      · rintro ⟨up, -, -, hl, hr⟩
        exact ⟨hl, hr⟩
      · rintro ⟨hl, hr⟩
        exact ⟨_, rfl, rfl, hl, hr⟩
    rw [hlinked, linked_iff_parent, linked_iff_parent, ← hliff, ← hriff]
    simp only [treeNodeReachable, hlchild, hrchild]
    by_cases hcorrect : (lchild = (nodes a).lchild ∧
        (nodes a).lchild.all (fun c => (nodes c).parent = some a) = true) ∧
      (rchild = (nodes a).rchild ∧
        (nodes a).rchild.all (fun c => (nodes c).parent = some a) = true)
    · refine ⟨some a, ?_, .inr rfl, fun _ => hcorrect, fun _ => rfl⟩
      obtain ⟨⟨rfl, hlall⟩, rfl, hrall⟩ := hcorrect
      simp [hlall, hrall]
    · refine ⟨none, ?_, .inl rfl, nofun, fun h => absurd h hcorrect⟩
      simp only [Option.bind_eq_bind, Option.bind_some, Bool.and_eq_true, decide_eq_true_eq]
      rw [if_neg]
      exact fun h => hcorrect ⟨h.1.symm, h.2.symm⟩

end Reachable

section Ends

theorem lchildOutOfOrder_iff (hroot : (nodes a).lchild = SearchTree.root l) (hend : last = none ↔ l = .nil)
    (hnil : l = .nil → checked) {res : Option Nat} (hyes : checked → res = last)
    (hno : ¬ checked → res = none) :
    lchildOutOfOrder nodes a res = false ↔
      checked ∧ ∀ b, last = some b → valAt nodes b < valAt nodes a := by
  by_cases hchecked : checked
  · obtain rfl := hyes hchecked
    cases res with
    | none =>
      obtain rfl := hend.mp rfl
      simp [lchildOutOfOrder, hroot, SearchTree.root, hchecked]
    | some b => simp [lchildOutOfOrder, hchecked, treeCompare_neg, valAt]
  · have hl : l ≠ .nil := mt hnil hchecked
    obtain rfl := hno hchecked
    cases l with
    | nil => exact absurd rfl hl
    | node c ll lr => simp [lchildOutOfOrder, hroot, SearchTree.root, hchecked]

theorem rchildOutOfOrder_iff (hroot : (nodes a).rchild = SearchTree.root r) (hend : last = none ↔ r = .nil)
    (hnil : r = .nil → checked) {res : Option Nat} (hyes : checked → res = last)
    (hno : ¬ checked → res = none) :
    rchildOutOfOrder nodes a res = false ↔
      checked ∧ ∀ b, last = some b → valAt nodes a ≤ valAt nodes b := by
  by_cases hchecked : checked
  · obtain rfl := hyes hchecked
    cases res with
    | none =>
      obtain rfl := hend.mp rfl
      simp [rchildOutOfOrder, hroot, SearchTree.root, hchecked]
    | some b =>
      have hle : ¬ treeCompare (nodes a).val (nodes b).val > 0 ↔ valAt nodes a ≤ valAt nodes b :=
        (not_congr treeCompare_pos).trans not_lt
      simp [rchildOutOfOrder, hchecked, ← hle]
  · have hr : r ≠ .nil := mt hnil hchecked
    obtain rfl := hno hchecked
    cases r with
    | nil => exact absurd rfl hr
    | node c rl rr => simp [rchildOutOfOrder, hroot, SearchTree.root, hchecked]

theorem treeNodeMax_eq (h : Shaped nodes ptr t) (hfuel : t.height ≤ fuel) :
    ∃ node, treeNodeMax nodes fuel ptr = some node ∧
      (LastChecked (valAt nodes) t → node = (inorder t).getLast?) ∧
      (¬ LastChecked (valAt nodes) t → node = none) := by
  induction t generalizing ptr fuel with
  | nil =>
    obtain rfl : ptr = none := h
    refine ⟨none, ?_, fun _ => rfl, fun _ => rfl⟩
    cases fuel <;> rfl
  | node a l r ihl ihr =>
    obtain ⟨rfl, hl, hr⟩ := h
    obtain ⟨fuel, rfl, hlfuel, hrfuel⟩ := exists_fuel hfuel
    obtain ⟨maxLchild, hlmax, hlyes, hlno⟩ := ihl hl hlfuel
    obtain ⟨maxRchild, hrmax, hryes, hrno⟩ := ihr hr hrfuel
    have hliff := lchildOutOfOrder_iff (hl.ptr_eq)
      (List.getLast?_eq_none_iff.trans inorder_eq_nil) (fun h => h ▸ trivial) hlyes hlno
    have hriff := rchildOutOfOrder_iff (hr.ptr_eq)
      (List.getLast?_eq_none_iff.trans inorder_eq_nil) (fun h => h ▸ trivial) hryes hrno
    have hchecked : LastChecked (valAt nodes) (.node a l r) ↔
        lchildOutOfOrder nodes a maxLchild = false ∧
          rchildOutOfOrder nodes a maxRchild = false := by
      rw [hliff, hriff, LastChecked, ← and_assoc]
      exact and_and_and_comm
    simp only [treeNodeMax, hlmax, hrmax, hchecked]
    by_cases hleft : lchildOutOfOrder nodes a maxLchild = true
    · exact ⟨none, by simp [hleft], by simp [hleft], fun _ => rfl⟩
    · by_cases hright : rchildOutOfOrder nodes a maxRchild = true
      · exact ⟨none, by simp [hright], by simp [hright], fun _ => rfl⟩
      · rw [Bool.not_eq_true] at hleft hright
        refine ⟨maxRchild.or (some a), by simp [hleft, hright], fun _ => ?_, by simp [hleft, hright]⟩
        rw [getLast?_node, hryes (hriff.mp hright).1]

theorem head?_node (a : Nat) (l r : BinaryTree Nat) :
    (inorder (.node a l r)).head? = (inorder l).head?.or (some a) := by
  rw [inorder_node, List.head?_append, List.head?_cons]

theorem treeNodeMin_eq (h : Shaped nodes ptr t) (hfuel : t.height ≤ fuel) :
    ∃ node, treeNodeMin nodes fuel ptr = some node ∧
      (FirstChecked (valAt nodes) t → node = (inorder t).head?) ∧
      (¬ FirstChecked (valAt nodes) t → node = none) := by
  induction t generalizing ptr fuel with
  | nil =>
    obtain rfl : ptr = none := h
    refine ⟨none, ?_, fun _ => rfl, fun _ => rfl⟩
    cases fuel <;> rfl
  | node a l r ihl ihr =>
    obtain ⟨rfl, hl, hr⟩ := h
    obtain ⟨fuel, rfl, hlfuel, hrfuel⟩ := exists_fuel hfuel
    obtain ⟨minLchild, hlmin, hlyes, hlno⟩ := ihl hl hlfuel
    obtain ⟨minRchild, hrmin, hryes, hrno⟩ := ihr hr hrfuel
    have hliff := lchildOutOfOrder_iff (hl.ptr_eq)
      (List.head?_eq_none_iff.trans inorder_eq_nil) (fun h => h ▸ trivial) hlyes hlno
    have hriff := rchildOutOfOrder_iff (hr.ptr_eq)
      (List.head?_eq_none_iff.trans inorder_eq_nil) (fun h => h ▸ trivial) hryes hrno
    have hchecked : FirstChecked (valAt nodes) (.node a l r) ↔
        lchildOutOfOrder nodes a minLchild = false ∧
          rchildOutOfOrder nodes a minRchild = false := by
      rw [hliff, hriff, FirstChecked, ← and_assoc]
      exact and_and_and_comm
    simp only [treeNodeMin, hlmin, hrmin, hchecked]
    by_cases hleft : lchildOutOfOrder nodes a minLchild = true
    · exact ⟨none, by simp [hleft], by simp [hleft], fun _ => rfl⟩
    · by_cases hright : rchildOutOfOrder nodes a minRchild = true
      · exact ⟨none, by simp [hright], by simp [hright], fun _ => rfl⟩
      · rw [Bool.not_eq_true] at hleft hright
        refine ⟨minLchild.or (some a), by simp [hleft, hright], fun _ => ?_, by simp [hleft, hright]⟩
        rw [head?_node, hlyes (hliff.mp hleft).1]

end Ends

/-- Both checkers are exact on any values and parents, and the extremes of an ordered tree are what
they should be. -/
theorem treeChecks_exact {tree : TreeTree} (h : Shaped tree.nodes tree.root t) (hne : t ≠ .nil)
    (hfuel : t.height ≤ fuel) :
    (∃ ordered, treeOrdered fuel tree = some ordered ∧
      (ordered = true ↔ Ordered (valAt tree.nodes) t)) ∧
    (∃ reachable, treeReachable fuel tree = some reachable ∧
      (reachable = true ↔ ∃ up, Linked tree.nodes up tree.root t)) ∧
    (Ordered (valAt tree.nodes) t → ∃ min max,
      treeMin fuel tree = some (some min) ∧ treeMax fuel tree = some (some max) ∧
      min ∈ inorder t ∧ max ∈ inorder t ∧
      ∀ b ∈ inorder t, valAt tree.nodes min ≤ valAt tree.nodes b ∧
        valAt tree.nodes b ≤ valAt tree.nodes max) := by
  obtain ⟨min, hmin, hminyes, hminno⟩ := treeNodeMin_eq h hfuel
  obtain ⟨max, hmax, hmaxyes, hmaxno⟩ := treeNodeMax_eq h hfuel
  obtain ⟨node, hnode, hor, hreach⟩ := treeNodeReachable_eq h hfuel
  obtain ⟨first, hfirstmem, hfirst⟩ := exists_head? t hne
  obtain ⟨last, hlastmem, hlast⟩ := exists_getLast? hne
  refine ⟨⟨min.isSome && max.isSome, ?_, ?_⟩, ⟨node.isSome, ?_, ?_⟩, fun ho => ?_⟩
  · simp [treeOrdered, treeMin, treeMax, hmin, hmax]
  · rw [ordered_iff_checked]
    by_cases hf : FirstChecked (valAt tree.nodes) t
    · by_cases hl : LastChecked (valAt tree.nodes) t
      · simp [hf, hl, hminyes hf, hmaxyes hl, hfirst, hlast]
      · simp [hl, hmaxno hl]
    · simp [hf, hminno hf]
  · rw [treeReachable, hnode]
    rfl
  · rw [← hreach]
    cases t with
    | nil => exact absurd rfl hne
    | node a l r =>
      rw [h.1] at hor ⊢
      rcases hor with rfl | rfl <;> simp
  · obtain ⟨hf, hl⟩ := ordered_iff_checked.mp ho
    exact ⟨first, last, hmin.trans (congrArg some ((hminyes hf).trans hfirst)),
      hmax.trans (congrArg some ((hmaxyes hl).trans hlast)), hfirstmem, hlastmem,
      fun b hb => ⟨ho.head_le hfirst hb, ho.le_getLast hlast hb⟩⟩

def crooked : TreeTree where
  root := some 0
  nodes
    | 0 => ⟨5, none, some 1, none⟩
    | _ => ⟨3, none, none, none⟩
  numNodes := 2
  maxNodes := 2
  room := 2

theorem treeChecks_exact_crooked :
    ∃ reachable, treeReachable 2 crooked = some reachable ∧
      (reachable = true ↔ ∃ up, Linked crooked.nodes up (some 0) (.node 0 (.node 1 .nil .nil) .nil)) :=
  have hheight : (BinaryTree.node 0 (.node 1 .nil .nil) .nil).height ≤ 2 := by decide
  have hshaped : Shaped crooked.nodes crooked.root (.node 0 (.node 1 .nil .nil) .nil) :=
    ⟨rfl, ⟨rfl, rfl, rfl⟩, rfl⟩
  (treeChecks_exact hshaped nofun hheight).2.1

example : treeOrdered 2 crooked = some true ∧ treeReachable 2 crooked = some false := by decide

end Dert.TreeT
