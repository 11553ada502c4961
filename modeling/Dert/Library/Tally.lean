import Mathlib.Algebra.BigOperators.Group.Finset.Piecewise
import Mathlib.Algebra.Order.BigOperators.Group.Finset
import Mathlib.Data.Fintype.Basic

universe u v w

namespace Dert.Library

variable {ι : Type u} {α : Type v} {M : Type w} [Fintype ι] [AddCommMonoid M]

def tally (weight : α → M) (cells : ι → α) : M := ∑ i, weight (cells i)

section Sums

variable {weight weight' : α → M} {cells : ι → α}

theorem tally_congr (h : ∀ i, weight (cells i) = weight' (cells i)) :
    tally weight cells = tally weight' cells :=
  Finset.sum_congr rfl fun i _ => h i

theorem tally_add (weight weight' : α → M) (cells : ι → α) :
    tally (fun a => weight a + weight' a) cells = tally weight cells + tally weight' cells :=
  Finset.sum_add_distrib

theorem tally_eq_zero [PartialOrder M] [CanonicallyOrderedAdd M] :
    tally weight cells = 0 ↔ ∀ i, weight (cells i) = 0 := by
  rw [tally, Finset.sum_eq_zero_iff]
  simp

theorem tally_zero (h : ∀ i, weight (cells i) = 0) : tally weight cells = 0 :=
  Finset.sum_eq_zero fun i _ => h i

end Sums

section Update

variable [DecidableEq ι] {weight : α → M} {cells : ι → α} {i : ι} {a : α} {x : M}

theorem tally_split (weight : α → M) (cells : ι → α) (i : ι) :
    tally weight cells = weight (cells i) + ∑ j ∈ Finset.univ \ {i}, weight (cells j) := by
  rw [Finset.sdiff_singleton_eq_erase]
  exact (Finset.add_sum_erase _ (fun j => weight (cells j)) (Finset.mem_univ i)).symm

theorem tally_update_split (weight : α → M) (cells : ι → α) (i : ι) (a : α) :
    tally weight (Function.update cells i a) =
      weight a + ∑ j ∈ Finset.univ \ {i}, weight (cells j) := by
  rw [tally_split weight _ i, Function.update_self]
  congr 1
  apply Finset.sum_congr rfl
  intro j hj
  have hne : j ≠ i := by simpa using hj
  rw [Function.update_of_ne hne]

theorem tally_update_add (weight : α → M) (cells : ι → α) (i : ι) (a : α) :
    tally weight (Function.update cells i a) + weight (cells i) =
      tally weight cells + weight a := by
  rw [tally_update_split, tally_split weight cells i]
  ac_rfl

theorem tally_same (h : weight a = weight (cells i)) :
    tally weight (Function.update cells i a) = tally weight cells := by
  rw [tally_update_split, h, ← tally_split]

theorem tally_give (h : weight a = x + weight (cells i)) :
    tally weight (Function.update cells i a) = x + tally weight cells := by
  rw [tally_update_split, h, tally_split weight cells i, add_assoc]

theorem tally_take (h : weight (cells i) = x + weight a) :
    tally weight cells = x + tally weight (Function.update cells i a) := by
  rw [tally_update_split, tally_split weight cells i, h, add_assoc]

end Update

section Tiers

variable {coarse fine fine' : α → Nat} {cells cells' : ι → α} {bound : Nat}

/-- A rank of the cells by two weights: what is lost of the first outweighs all that there is of
the second, which is at most `bound` a cell. -/
def tiers (bound : Nat) (coarse fine : α → Nat) (cells : ι → α) : Nat :=
  tally coarse cells * (bound * Fintype.card ι + 1) + tally fine cells

theorem tally_le_bound (h : ∀ a, fine a ≤ bound) (cells : ι → α) :
    tally fine cells ≤ bound * Fintype.card ι := by
  refine (Finset.sum_le_card_nsmul _ _ bound fun i _ => h (cells i)).trans ?_
  rw [Finset.card_univ, Nat.nsmul_eq_mul, Nat.mul_comm]

theorem tiers_lt_of_coarse (hfine : ∀ a, fine' a ≤ bound)
    (h : tally coarse cells' < tally coarse cells) :
    tiers bound coarse fine' cells' < tiers bound coarse fine cells := by
  have hall := tally_le_bound hfine cells'
  have hmul := Nat.mul_le_mul_right (bound * Fintype.card ι + 1) (Nat.succ_le_of_lt h)
  rw [Nat.succ_mul] at hmul
  simp only [tiers]
  omega

theorem tiers_lt_of_fine (hcoarse : tally coarse cells' = tally coarse cells)
    (h : tally fine' cells' < tally fine cells) :
    tiers bound coarse fine' cells' < tiers bound coarse fine cells := by
  simp only [tiers, hcoarse]
  omega

end Tiers

end Dert.Library
