import Dert.Library.Extremes
import Dert.Tree.TreeTLaws

namespace Dert.TreeT

open BinaryTree Library Library.SearchTree Library.LinkedTree

variable {nodes : Nodes Nat UInt8} {ptr target : Option Nat} {t l r : BinaryTree Nat} {a fuel : Nat}
  {minimum maximum : UInt8} {strategy : TreeLookupStrategy}

section Loop

theorem rangeLoop_less (h : valAt nodes a < minimum) :
    treeLookupRangeLoop nodes minimum maximum strategy (fuel + 1) (some a) target =
      treeLookupRangeLoop nodes minimum maximum strategy fuel (nodes a).rchild target := by
  rw [treeLookupRangeLoop.eq_def]
  exact if_pos (treeCompare_pos.mpr h)

theorem rangeLoop_greater (hmin : ¬ valAt nodes a < minimum) (h : maximum < valAt nodes a) :
    treeLookupRangeLoop nodes minimum maximum strategy (fuel + 1) (some a) target =
      treeLookupRangeLoop nodes minimum maximum strategy fuel (nodes a).lchild target := by
  rw [treeLookupRangeLoop.eq_def]
  exact (if_neg (mt treeCompare_pos.mp hmin)).trans (if_pos (treeCompare_neg.mpr h))

theorem rangeLoop_inside (hmin : ¬ valAt nodes a < minimum) (hmax : ¬ maximum < valAt nodes a) :
    treeLookupRangeLoop nodes minimum maximum strategy (fuel + 1) (some a) target =
      match strategy with
      | .FIRST => some (some a)
      | .SMALLEST =>
        treeLookupRangeLoop nodes minimum maximum strategy fuel (nodes a).lchild (some a)
      | .LARGEST =>
        treeLookupRangeLoop nodes minimum maximum strategy fuel (nodes a).rchild (some a) := by
  rw [treeLookupRangeLoop.eq_def]
  exact (if_neg (mt treeCompare_pos.mp hmin)).trans (if_neg (mt treeCompare_neg.mp hmax))

theorem rangeLoop_first (h : Shaped nodes ptr t) (hfuel : t.height ≤ fuel) :
    treeLookupRangeLoop nodes minimum maximum .FIRST fuel ptr none =
      some (SearchTree.root (crown (valAt nodes) minimum maximum t)) := by
  induction t generalizing ptr fuel with
  | nil =>
    cases h
    cases fuel <;> rfl
  | node a l r ihl ihr =>
    obtain ⟨rfl, hl, hr⟩ := h
    obtain ⟨fuel, rfl, hlfuel, hrfuel⟩ := exists_fuel hfuel
    rw [crown]
    split_ifs with hmin hmax
    · rw [rangeLoop_less hmin]
      exact ihr hr hrfuel
    · rw [rangeLoop_greater hmin hmax]
      exact ihl hl hlfuel
    · rw [rangeLoop_inside hmin hmax]
      rfl

theorem rangeLoop_smallest (h : Shaped nodes ptr t) (ho : Ordered (valAt nodes) t)
    (hfuel : t.height ≤ fuel) :
    treeLookupRangeLoop nodes minimum maximum .SMALLEST fuel ptr target =
      some ((inRange (valAt nodes) minimum maximum t).head?.or target) := by
  induction t generalizing ptr fuel target with
  | nil =>
    cases h
    cases fuel <;> rfl
  | node a l r ihl ihr =>
    obtain ⟨rfl, hl, hr⟩ := h
    obtain ⟨-, -, hol, hor⟩ := id ho
    obtain ⟨fuel, rfl, hlfuel, hrfuel⟩ := exists_fuel hfuel
    by_cases hmin : valAt nodes a < minimum
    · rw [rangeLoop_less hmin, inRange_node_of_lt ho hmin]
      exact ihr hr hor hrfuel
    · by_cases hmax : maximum < valAt nodes a
      · rw [rangeLoop_greater hmin hmax, inRange_node_of_gt ho hmax]
        exact ihl hl hol hlfuel
      · rw [rangeLoop_inside hmin hmax, inRange_node_of_mem (not_lt.mp hmin) (not_lt.mp hmax),
          List.head?_append, Option.or_assoc]
        exact ihl hl hol hlfuel

theorem rangeLoop_largest (h : Shaped nodes ptr t) (ho : Ordered (valAt nodes) t)
    (hfuel : t.height ≤ fuel) :
    treeLookupRangeLoop nodes minimum maximum .LARGEST fuel ptr target =
      some ((inRange (valAt nodes) minimum maximum t).getLast?.or target) := by
  induction t generalizing ptr fuel target with
  | nil =>
    cases h
    cases fuel <;> rfl
  | node a l r ihl ihr =>
    obtain ⟨rfl, hl, hr⟩ := h
    obtain ⟨-, -, hol, hor⟩ := id ho
    obtain ⟨fuel, rfl, hlfuel, hrfuel⟩ := exists_fuel hfuel
    by_cases hmin : valAt nodes a < minimum
    · rw [rangeLoop_less hmin, inRange_node_of_lt ho hmin]
      exact ihr hr hor hrfuel
    · by_cases hmax : maximum < valAt nodes a
      · rw [rangeLoop_greater hmin hmax, inRange_node_of_gt ho hmax]
        exact ihl hl hol hlfuel
      · rw [rangeLoop_inside hmin hmax, inRange_node_of_mem (not_lt.mp hmin) (not_lt.mp hmax),
          List.getLast?_append, List.getLast?_cons]
        refine (ihr hr hor hrfuel).trans ?_
        cases (inRange (valAt nodes) minimum maximum r).getLast? <;> rfl

end Loop

/-- A value lies in the range where the answer is not NULL, and the answer is the node that the
strategy asks for. -/
theorem treeLookupRange_best {tree : TreeTree} (h : Shaped tree.nodes tree.root t)
    (ho : Ordered (valAt tree.nodes) t) (hfuel : t.height ≤ fuel) (minimum maximum : UInt8)
    (strategy : TreeLookupStrategy) :
    ∃ target, treeLookupRange fuel tree minimum maximum strategy = some target ∧
      (target = none ↔
        ∀ b ∈ inorder t, ¬ (minimum ≤ valAt tree.nodes b ∧ valAt tree.nodes b ≤ maximum)) ∧
      ∀ a, target = some a →
        (a ∈ inorder t ∧ minimum ≤ valAt tree.nodes a ∧ valAt tree.nodes a ≤ maximum) ∧
        match strategy with
        | .FIRST => ∃ C l r, t = plug C (.node a l r) ∧ ∀ b ∈ inorder t,
            minimum ≤ valAt tree.nodes b → valAt tree.nodes b ≤ maximum → b ∈ inorder (.node a l r)
        | .SMALLEST => ∀ b ∈ inorder t,
            minimum ≤ valAt tree.nodes b → valAt tree.nodes b ≤ maximum →
              valAt tree.nodes a ≤ valAt tree.nodes b
        | .LARGEST => ∀ b ∈ inorder t,
            minimum ≤ valAt tree.nodes b → valAt tree.nodes b ≤ maximum →
              valAt tree.nodes b ≤ valAt tree.nodes a := by
  have hempty : inRange (valAt tree.nodes) minimum maximum t = [] ↔
      ∀ b ∈ inorder t, ¬ (minimum ≤ valAt tree.nodes b ∧ valAt tree.nodes b ≤ maximum) := by
    simp [inRange, List.filter_eq_nil_iff]
  rw [treeLookupRange]
  cases strategy with
  | FIRST =>
    refine ⟨_, rangeLoop_first h hfuel, ?_, fun a ha => ?_⟩
    · rw [← hempty, ← crown_eq_nil ho]
      cases crown (valAt tree.nodes) minimum maximum t <;> simp [SearchTree.root]
    · obtain ⟨D, hplug⟩ : ∃ D, plug D (crown (valAt tree.nodes) minimum maximum t) = t :=
        exists_plug_crown [] t
      have hall : inRange (valAt tree.nodes) minimum maximum (crown _ minimum maximum t) = _ :=
        inRange_crown ho
      cases hc : crown (valAt tree.nodes) minimum maximum t with
      | nil =>
        rw [hc] at ha
        cases ha
      | node b l r =>
        rw [hc] at ha hplug hall
        obtain rfl := Option.some.inj ha
        have hmem : b ∈ inorder t := by
          rw [← hplug, mem_plug]
          exact .inl (by simp)
        refine ⟨⟨hmem, crown_node hc⟩, D, l, r, hplug.symm, fun c hcmem hlo hhi => ?_⟩
        have hin := mem_inRange.mpr ⟨hcmem, hlo, hhi⟩
        rw [← hall] at hin
        exact (mem_inRange.mp hin).1
  | SMALLEST =>
    refine ⟨_, rangeLoop_smallest h ho hfuel, ?_, fun a ha => ?_⟩
    · rw [Option.or_none, List.head?_eq_none_iff, hempty]
    · rw [Option.or_none] at ha
      exact ⟨mem_inRange.mp (List.mem_of_head? ha),
        fun b hb hlo hhi => head_inRange_le ho ha (mem_inRange.mpr ⟨hb, hlo, hhi⟩)⟩
  | LARGEST =>
    refine ⟨_, rangeLoop_largest h ho hfuel, ?_, fun a ha => ?_⟩
    · rw [Option.or_none, List.getLast?_eq_none_iff, hempty]
    · rw [Option.or_none] at ha
      exact ⟨mem_inRange.mp (List.mem_of_getLast? ha),
        fun b hb hlo hhi => le_getLast_inRange ho ha (mem_inRange.mpr ⟨hb, hlo, hhi⟩)⟩

def duplicates : TreeTree where
  root := some 0
  nodes
    | 0 => ⟨5, none, some 1, some 2⟩
    | 1 => ⟨3, some 0, none, none⟩
    | _ => ⟨5, some 0, none, none⟩
  numNodes := 3
  maxNodes := 3
  room := 3

theorem treeLookupRange_best_duplicates :
    ∃ target, treeLookupRange 2 duplicates 4 6 .LARGEST = some target ∧ target ≠ none := by
  have hheight : (BinaryTree.node 0 (.node 1 .nil .nil) (.node 2 .nil .nil)).height ≤ 2 := by decide
  have hshaped : Shaped duplicates.nodes duplicates.root
      (.node 0 (.node 1 .nil .nil) (.node 2 .nil .nil)) := ⟨rfl, ⟨rfl, rfl, rfl⟩, rfl, rfl, rfl⟩
  obtain ⟨target, hlookup, hnone, -⟩ := treeLookupRange_best hshaped
    (by simp [Ordered, valAt, duplicates]) hheight 4 6 .LARGEST
  exact ⟨target, hlookup, fun h => hnone.mp h 0 (by simp) (by decide)⟩

end Dert.TreeT
