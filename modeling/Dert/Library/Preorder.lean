import Dert.Library.SearchTree

universe u

namespace Dert.Library.SearchTree

open BinaryTree

variable {α : Type u} {t : BinaryTree α}

def preorder : BinaryTree α → List α
  | .nil => []
  | .node a l r => a :: (preorder l ++ preorder r)

theorem preorder_perm (t : BinaryTree α) : (preorder t).Perm (inorder t) := by
  induction t with
  | nil => exact List.Perm.refl _
  | node a l r ihl ihr => exact ((ihl.append ihr).cons a).trans List.perm_middle.symm

def preBefore : Context α → List α
  | [] => []
  | .left a _ :: C => preBefore C ++ [a]
  | .right l a :: C => preBefore C ++ a :: preorder l

def preAfter : Context α → List α
  | [] => []
  | .left _ r :: C => preorder r ++ preAfter C
  | .right _ _ :: C => preAfter C

theorem preorder_plug (C : Context α) (t : BinaryTree α) :
    preorder (plug C t) = preBefore C ++ preorder t ++ preAfter C := by
  induction C generalizing t with
  | nil => simp [plug, preBefore, preAfter]
  | cons f C ih =>
    rw [plug, ih]
    cases f <;> simp [Frame.fill, preorder, preBefore, preAfter]

theorem length_le_preBefore (C : Context α) : C.length ≤ (preBefore C).length := by
  induction C with
  | nil => exact Nat.le_refl 0
  | cons f C ih => cases f <;> simp [preBefore] <;> omega

def root : BinaryTree α → Option α
  | .nil => none
  | .node a _ _ => some a

theorem head_preorder (t : BinaryTree α) : (preorder t).head? = root t := by cases t <;> rfl

/-- Where a climb from the hole by way of right links ends: at the other subtree of a left
link, or above the root; none when that subtree is empty. -/
def climb : Context α → Option (Option α)
  | [] => some none
  | .left _ r :: _ => (root r).map some
  | .right _ _ :: C => climb C

theorem climb_eq {C : Context α} (h : ∀ a r, Frame.left a r ∈ C → root r ≠ none) :
    climb C = some (preAfter C).head? := by
  induction C with
  | nil => rfl
  | cons f C ih =>
    cases f with
    | left a r =>
      obtain ⟨x, hx⟩ := Option.ne_none_iff_exists'.mp (h a r List.mem_cons_self)
      rw [climb, preAfter, List.head?_append, head_preorder, hx]
      rfl
    | right l a => exact ih fun b r hb => h b r (List.mem_cons_of_mem _ hb)

/-- Below a hole that a climb does not get out of there is a leaf that it does not either. -/
theorem exists_stuck {C : Context α} (hC : climb C = none) (ht : root t ≠ none) :
    ∃ D a, plug D (.node a .nil .nil) = plug C t ∧ climb D = none := by
  induction t generalizing C with
  | nil => exact absurd rfl ht
  | node a l r ihl ihr =>
    cases r with
    | node b rl rr => exact ihr (C := .right l a :: C) hC nofun
    | nil =>
      cases l with
      | node b ll lr => exact ihl (C := .left a .nil :: C) rfl nofun
      | nil => exact ⟨C, a, rfl, hC⟩

end Dert.Library.SearchTree
