import Dert.Library.Inorder

universe u

namespace Dert.Library.SearchTree

open BinaryTree

variable {α : Type u} {t l r : BinaryTree α} {C : Context α} {a : α}

def postorder : BinaryTree α → List α
  | .nil => []
  | .node a l r => postorder l ++ (postorder r ++ [a])

theorem postorder_perm (t : BinaryTree α) : (postorder t).Perm (inorder t) := by
  induction t with
  | nil => exact List.Perm.refl _
  | node a l r ihl ihr =>
    exact ihl.append ((ihr.append_right [a]).trans (List.perm_append_singleton a _))

/-- What a post-order walk meets before the hole, and after it. -/
def postBefore : Context α → List α
  | [] => []
  | .left _ _ :: C => postBefore C
  | .right l _ :: C => postBefore C ++ postorder l

def postAfter : Context α → List α
  | [] => []
  | .left a r :: C => postorder r ++ a :: postAfter C
  | .right _ a :: C => a :: postAfter C

theorem postorder_plug (C : Context α) (t : BinaryTree α) :
    postorder (plug C t) = postBefore C ++ postorder t ++ postAfter C := by
  induction C generalizing t with
  | nil => simp [plug, postBefore, postAfter]
  | cons f C ih =>
    rw [plug, ih]
    cases f <;> simp [Frame.fill, postorder, postBefore, postAfter]

theorem postBefore_eq_nil (h : before C = []) : postBefore C = [] := by
  induction C with
  | nil => rfl
  | cons f C ih =>
    obtain ⟨⟨a, r, rfl⟩, hC⟩ := before_eq_nil.mp h
    exact ih hC

theorem height_sibling_le (f : Frame α) (C : Context α) (t : BinaryTree α) :
    f.sibling.height ≤ (inorder (plug (f :: C) t)).length := by
  have hheight := height_le_length f.sibling
  rw [(inorder_plug_perm (f :: C) t).length_eq, List.length_append, (around_perm f C).length_eq,
    List.length_cons, List.length_append]
  omega

theorem exists_plug_head (h : (inorder t).head? = some a) (hnd : (inorder t).Nodup) :
    ∃ C r, before C = [] ∧ t = plug C (.node a .nil r) := by
  obtain ⟨C, l, r, hplug⟩ := exists_plug [] (List.mem_of_head? h)
  obtain rfl : plug C (.node a l r) = t := hplug
  have horder : inorder (plug C (.node a l r)) =
      (before C ++ inorder l) ++ a :: (inorder r ++ after C) := by simp
  rw [List.head?_eq_getElem?, horder] at h
  rw [horder] at hnd
  obtain ⟨hC, hl⟩ := List.append_eq_nil_iff.mp
    (List.length_eq_zero_iff.mp (length_of_getElem? hnd h))
  obtain rfl := inorder_eq_nil.mp hl
  exact ⟨C, r, hC, rfl⟩

theorem head_postorder (hC : before C = []) (hnd : (inorder (plug C (.node a .nil r))).Nodup) :
    (postorder (plug C (.node a .nil r))).head? = some a ↔ r = .nil := by
  rw [postorder_plug, postBefore_eq_nil hC]
  cases r with
  | nil => simp [postorder]
  | node b rl rr =>
    have ha : a ∉ postorder (.node b rl rr) := by
      rw [(postorder_perm _).mem_iff]
      exact (List.nodup_cons.mp (nodup_plug.mp hnd).1).1
    have hsome : (postorder (.node b rl rr)).head?.isSome := by
      simp [postorder]
    refine ⟨fun h => absurd (List.mem_of_head? ?_) ha, nofun⟩
    rw [List.nil_append, List.head?_append, postorder, postorder, List.nil_append,
      List.head?_append, Option.or_of_isSome hsome, Option.or_of_isSome hsome] at h
    exact h

end Dert.Library.SearchTree
