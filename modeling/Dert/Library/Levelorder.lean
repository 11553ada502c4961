import Mathlib.Data.List.Perm.Basic
import Dert.Library.Preorder

universe u

namespace Dert.Library.SearchTree

open BinaryTree

variable {α : Type u} {t l r : BinaryTree α} {a : α}

def level : Nat → BinaryTree α → List α
  | _, .nil => []
  | 0, .node a _ _ => [a]
  | d + 1, .node _ l r => level d l ++ level d r

def levelorder (t : BinaryTree α) : List α := (List.range t.height).flatMap fun d => level d t

@[simp] theorem level_nil (d : Nat) : level d (.nil : BinaryTree α) = [] := by cases d <;> rfl

theorem level_eq_nil {d : Nat} (h : t.height ≤ d) : level d t = [] := by
  induction t generalizing d with
  | nil => simp
  | node a l r ihl ihr =>
    rw [height] at h
    obtain ⟨d, rfl⟩ := Nat.exists_eq_add_of_le' (Nat.le_trans (Nat.le_add_left 1 _) h)
    rw [level, ihl (by omega), ihr (by omega), List.append_nil]

theorem levels_of_le {h : Nat} (hle : t.height ≤ h) :
    (List.range h).flatMap (fun d => level d t) = levelorder t := by
  obtain ⟨k, rfl⟩ := Nat.exists_eq_add_of_le hle
  rw [List.range_add, List.flatMap_append, levelorder, List.append_right_eq_self,
    List.flatMap_eq_nil_iff]
  intro d hd
  obtain ⟨i, -, rfl⟩ := List.mem_map.mp hd
  exact level_eq_nil (Nat.le_add_right _ _)

theorem levelorder_node (a : α) (l r : BinaryTree α) {h : Nat} (hl : l.height ≤ h)
    (hr : r.height ≤ h) :
    (levelorder (.node a l r)).Perm (a :: (levelorder l ++ levelorder r)) := by
  have hle : (BinaryTree.node a l r).height ≤ h + 1 := by
    rw [height]
    omega
  rw [← levels_of_le hle, ← levels_of_le hl, ← levels_of_le hr, List.range_succ_eq_map,
    List.flatMap_cons, List.flatMap_map]
  exact (List.flatMap_append_perm _ _ _).symm.cons a

theorem levelorder_perm (t : BinaryTree α) : (levelorder t).Perm (inorder t) := by
  induction t with
  | nil => exact List.Perm.refl _
  | node a l r ihl ihr =>
    refine (levelorder_node a l r (Nat.le_max_left _ _) (Nat.le_max_right _ _)).trans ?_
    exact ((ihl.append ihr).cons a).trans List.perm_middle.symm

section Forest

/-- The nodes of a row of trees, level by level. -/
def sweep (h : Nat) (ts : List (BinaryTree α)) : List α :=
  (List.range h).flatMap fun d => ts.flatMap (level d)

def roots (ts : List (BinaryTree α)) : List α := ts.flatMap (level 0)

def stem : BinaryTree α → List (BinaryTree α)
  | .nil => []
  | .node a l r => [.node a l r]

theorem sweep_singleton (t : BinaryTree α) {h : Nat} (hle : t.height ≤ h) :
    sweep h [t] = levelorder t := by
  simp only [sweep, List.flatMap_singleton, levels_of_le hle]

@[simp] theorem flatMap_stem (d : Nat) (t : BinaryTree α) :
    (stem t).flatMap (level d) = level d t := by
  cases t <;> simp [stem]

@[simp] theorem sweep_nil (h : Nat) : sweep h ([] : List (BinaryTree α)) = [] :=
  List.flatMap_eq_nil_iff.mpr fun _ _ => rfl

theorem sweep_nil_cons (h : Nat) (ts : List (BinaryTree α)) : sweep h (.nil :: ts) = sweep h ts := by
  simp [sweep]

theorem flatMap_shift (f g : Nat → List α) (h : Nat) :
    (List.range h).flatMap (fun d => f d ++ g d) ++ f h =
      f 0 ++ (List.range h).flatMap fun d => g d ++ f (d + 1) := by
  induction h with
  | zero => simp
  | succ h ih =>
    rw [List.range_succ, List.flatMap_append, List.flatMap_append, ← List.append_assoc, ← ih]
    simp

theorem sweep_cons {h : Nat} (ts : List (BinaryTree α)) (hle : (BinaryTree.node a l r).height ≤ h) :
    sweep h (.node a l r :: ts) = a :: sweep h (ts ++ (stem l ++ stem r)) := by
  have hshift := flatMap_shift (fun d => level d (.node a l r)) (fun d => ts.flatMap (level d)) h
  rw [level_eq_nil hle, List.append_nil] at hshift
  simp only [sweep, List.flatMap_cons, hshift, List.flatMap_append, flatMap_stem]
  rfl

theorem roots_le_sweep {h : Nat} (hpos : 0 < h) (ts : List (BinaryTree α)) :
    (roots ts).length ≤ (sweep h ts).length := by
  obtain ⟨h, rfl⟩ := Nat.exists_eq_succ_of_ne_zero (Nat.ne_zero_of_lt hpos)
  rw [sweep, List.range_succ_eq_map, List.flatMap_cons, List.length_append, roots]
  exact Nat.le_add_right _ _

theorem roots_stem (ts : List (BinaryTree α)) :
    (roots (ts ++ stem t)).length = (roots ts).length + (stem t).length := by
  cases t <;> simp [roots, stem, level]

theorem mem_stem {u : BinaryTree α} : u ∈ stem t ↔ u = t ∧ t ≠ .nil := by
  cases t <;> simp [stem]

theorem mem_row : t ∈ ts ++ (stem l ++ stem r) ↔ t ∈ ts ∨ t ≠ .nil ∧ (t = l ∨ t = r) := by
  simp only [List.mem_append, mem_stem]
  constructor
  · rintro (ht | ⟨rfl, hne⟩ | ⟨rfl, hne⟩)
    · exact .inl ht
    · exact .inr ⟨hne, .inl rfl⟩
    · exact .inr ⟨hne, .inr rfl⟩
  · rintro (ht | ⟨hne, rfl | rfl⟩)
    · exact .inl ht
    · exact .inr (.inl ⟨rfl, hne⟩)
    · exact .inr (.inr ⟨rfl, hne⟩)

end Forest

end Dert.Library.SearchTree
