import Mathlib.Data.Nat.Basic

namespace Dert.Library.Tag

variable {w : Nat} {p t x mask : BitVec w}

theorem join (x mask : BitVec w) : (x &&& ~~~mask) ||| (x &&& mask) = x := by
  rw [← BitVec.and_or_distrib_left, BitVec.or_comm, BitVec.or_not_self, BitVec.and_allOnes]

theorem and_not_mask (h : p &&& mask = 0#w) : p &&& ~~~mask = p := by
  have hjoin := join p mask
  rwa [h, BitVec.or_zero] at hjoin

theorem pointer (hp : p &&& mask = 0#w) (ht : t &&& mask = t) : (p ||| t) &&& ~~~mask = p := by
  have htag : t &&& ~~~mask = 0#w := by
    rw [← ht, BitVec.and_assoc, BitVec.and_not_self]
    exact BitVec.and_zero
  rw [BitVec.and_or_distrib_right, and_not_mask hp, htag, BitVec.or_zero]

theorem tag {bit : BitVec w} (hp : p &&& mask = 0#w) (hbit : bit &&& mask = bit) :
    (p ||| t) &&& bit = t &&& bit := by
  have hzero : p &&& bit = 0#w := by
    rw [← hbit, BitVec.and_comm bit, ← BitVec.and_assoc, hp, BitVec.zero_and]
  rw [BitVec.and_or_distrib_right, hzero, BitVec.zero_or]

theorem and_twoPow_eq_ite (x : BitVec w) (i : Nat) :
    (if x &&& BitVec.twoPow w i ≠ 0#w then BitVec.twoPow w i else 0#w) =
      x &&& BitVec.twoPow w i := by
  rw [BitVec.and_twoPow]
  split_ifs <;> simp_all

end Dert.Library.Tag
