import Dert.Base.Prelude
import Dert.Library.Extent
import Mathlib.Data.List.Basic

namespace Dert

open Library

def sizeofPointer : Nat := 8

def memset (bytes : Nat → UInt8) (dest : Nat) (value : UInt8) (count : Nat) : Nat → UInt8 :=
  fun i => if dest ≤ i ∧ i < dest + count then value else bytes i

def loadPointer (bytes : Nat → UInt8) (src : Nat) : Nat :=
  (List.range sizeofPointer).foldr (fun i rest => (bytes (src + i)).toNat + 256 * rest) 0

def storePointer (bytes : Nat → UInt8) (dest pointer : Nat) : Nat → UInt8 := fun i =>
  if dest ≤ i ∧ i < dest + sizeofPointer then UInt8.ofNat (pointer / 256 ^ (i - dest)) else bytes i

variable {bytes bytes' : Nat → UInt8} {dest count i pointer : Nat}

theorem memset_inside {value : UInt8} (h : Extent.Has ⟨dest, count⟩ i) :
    memset bytes dest value count i = value := if_pos h

theorem memset_outside {value : UInt8} (h : ¬ Extent.Has ⟨dest, count⟩ i) :
    memset bytes dest value count i = bytes i := if_neg h

theorem storePointer_outside (h : ¬ Extent.Has ⟨dest, sizeofPointer⟩ i) :
    storePointer bytes dest pointer i = bytes i := if_neg h

theorem foldr_digits (n p : Nat) :
    (List.range n).foldr (fun i rest => p / 256 ^ i % 256 + 256 * rest) 0 = p % 256 ^ n := by
  induction n generalizing p with
  | zero => simp [Nat.mod_one]
  | succ n ih =>
    have hdigit (i : Nat) : p / 256 ^ (i + 1) = p / 256 / 256 ^ i := by
      rw [Nat.div_div_eq_div_mul, Nat.pow_succ']
    rw [List.range_succ_eq_map, List.foldr_cons, List.foldr_map]
    simp only [Nat.succ_eq_add_one, hdigit, ih (p / 256), Nat.pow_zero, Nat.div_one]
    rw [Nat.pow_succ', Nat.mod_mul]

theorem loadPointer_congr (h : ∀ i < sizeofPointer, bytes' (dest + i) = bytes (dest + i)) :
    loadPointer bytes' dest = loadPointer bytes dest := by
  refine List.foldr_ext _ _ _ fun i hi rest => ?_
  rw [h i (List.mem_range.mp hi)]

theorem loadPointer_storePointer_mod :
    loadPointer (storePointer bytes dest pointer) dest = sizeT pointer := by
  have hbyte : ∀ i ∈ List.range sizeofPointer, ∀ rest,
      (storePointer bytes dest pointer (dest + i)).toNat + 256 * rest =
        pointer / 256 ^ i % 256 + 256 * rest := by
    intro i hi rest
    have hlt := List.mem_range.mp hi
    rw [storePointer, if_pos ⟨Nat.le_add_right _ _, Nat.add_lt_add_left hlt _⟩,
      Nat.add_sub_cancel_left, UInt8.toNat_ofNat']
  rw [loadPointer, List.foldr_ext _ _ _ hbyte, foldr_digits]
  rfl

theorem loadPointer_storePointer (hp : pointer < sizeMax) :
    loadPointer (storePointer bytes dest pointer) dest = pointer := by
  rw [loadPointer_storePointer_mod, sizeT_of_lt hp]

theorem loadPointer_zero (h : ∀ i < sizeofPointer, bytes (dest + i) = 0) :
    loadPointer bytes dest = 0 := by
  have hzero : loadPointer bytes dest = loadPointer (storePointer bytes dest 0) dest := by
    refine loadPointer_congr fun i hi => ?_
    rw [h i hi, storePointer, if_pos ⟨Nat.le_add_right _ _, Nat.add_lt_add_left hi _⟩]
    simp
  rw [hzero, loadPointer_storePointer (by decide)]

end Dert
