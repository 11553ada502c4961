import Dert.Library.SearchTree

universe u

namespace Dert.Library.SearchTree

open BinaryTree

variable {α : Type u} {t l r : BinaryTree α} {C : Context α} {a : α} {xs ys : List α} {n : Nat}

theorem exists_plug (C : Context α) (h : a ∈ inorder t) :
    ∃ D l r, plug D (.node a l r) = plug C t := by
  induction t generalizing C with
  | nil => cases h
  | node b l r ihl ihr =>
    simp only [inorder_node, List.mem_append, List.mem_cons] at h
    rcases h with h | rfl | h
    · exact ihl (.left b r :: C) h
    · exact ⟨C, l, r, rfl⟩
    · exact ihr (.right l b :: C) h

theorem length_le_around (C : Context α) : C.length ≤ (around C).length := by
  induction C with
  | nil => exact Nat.le_refl 0
  | cons f C ih =>
    rw [(around_perm f C).length_eq, List.length_cons, List.length_cons, List.length_append]
    omega

theorem depth_lt (C : Context α) (a : α) (l r : BinaryTree α) :
    C.length + (BinaryTree.node a l r).height ≤ (inorder (plug C (.node a l r))).length := by
  have hdepth := length_le_around C
  have hheight := height_le_length (.node a l r)
  rw [(inorder_plug_perm C _).length_eq, List.length_append]
  omega

section Sequence

theorem length_of_getElem? (hnd : (xs ++ a :: ys).Nodup) (h : (xs ++ a :: ys)[n]? = some a) :
    xs.length = n := by
  have hlt : xs.length < (xs ++ a :: ys).length := by simp
  apply (List.getElem?_inj hlt hnd).mp
  rw [h]
  simp

theorem getElem?_next (xs ys : List α) (a : α) : (xs ++ a :: ys)[xs.length + 1]? = ys.head? := by
  rw [List.getElem?_append_right (Nat.le_succ _), Nat.succ_sub (Nat.le_refl _), Nat.sub_self,
    List.getElem?_cons_succ, List.head?_eq_getElem?]

theorem take_length_succ (xs ys : List α) (a : α) :
    (xs ++ a :: ys).take (xs.length + 1) = xs ++ [a] := by
  rw [← List.singleton_append, ← List.append_assoc]
  exact List.take_left' (by simp)

end Sequence

theorem inorder_eq_nil : inorder t = [] ↔ t = .nil := by
  cases t <;> simp

theorem exists_getLast? (h : t ≠ .nil) : ∃ y ∈ inorder t, (inorder t).getLast? = some y := by
  obtain ⟨y, hy⟩ := Option.ne_none_iff_exists'.mp
    (mt List.getLast?_eq_none_iff.mp (mt inorder_eq_nil.mp h))
  exact ⟨y, List.mem_of_getLast? hy, hy⟩

theorem exists_head? (t : BinaryTree α) (h : t ≠ .nil) :
    ∃ y ∈ inorder t, (inorder t).head? = some y := by
  obtain ⟨y, hy⟩ := Option.ne_none_iff_exists'.mp
    (mt List.head?_eq_none_iff.mp (mt inorder_eq_nil.mp h))
  exact ⟨y, List.mem_of_head? hy, hy⟩

theorem getLast?_node (a : α) (l r : BinaryTree α) :
    (inorder (.node a l r)).getLast? = (inorder r).getLast?.or (some a) := by
  rw [inorder_node, List.getLast?_append, List.getLast?_cons]
  cases (inorder r).getLast? <;> rfl

theorem getLast?_before (C : Context α) (a : α) (l r : BinaryTree α) :
    (before C ++ inorder (.node a l r)).getLast? = (inorder (.node a l r)).getLast? := by
  rw [List.getLast?_append, getLast?_node]
  cases (inorder r).getLast? <;> rfl

theorem before_eq_nil {f : Frame α} :
    before (f :: C) = [] ↔ (∃ a r, f = .left a r) ∧ before C = [] := by
  cases f <;> simp [before]

theorem after_eq_nil (hnd : (inorder (plug C (.node a l r))).Nodup)
    (hlast : (inorder (plug C (.node a l r))).getLast? = some a) : after C = [] := by
  by_contra hC
  have hsome : (after C).getLast?.isSome := List.getLast?_isSome.mpr hC
  rw [inorder_plug, List.getLast?_append, Option.or_of_isSome hsome] at hlast
  have hmem := List.mem_of_getLast? hlast
  exact (nodup_plug.mp hnd).2.2 a (by simp) (List.mem_append_right _ hmem)

end Dert.Library.SearchTree
