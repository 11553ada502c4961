import Mathlib.Data.Fintype.EquivFin
import Mathlib.Data.List.Nodup
import Mathlib.Data.List.Perm.Basic
import Mathlib.Data.Nat.ModEq

namespace Dert.Library.Stride

/-! Walking round `size` slots in steps of a length coprime to `size`. -/

variable {size step : Nat}

theorem injective (start : Nat) (h : Nat.Coprime size step) {j j' : Nat} (hj : j < size) (hj' : j' < size)
    (heq : (start + j * step) % size = (start + j' * step) % size) : j = j' := by
  have hmul : j * step ≡ j' * step [MOD size] := Nat.ModEq.add_left_cancel' start heq
  have hmod : j ≡ j' [MOD size] := Nat.ModEq.cancel_right_of_coprime h hmul
  rwa [Nat.ModEq, Nat.mod_eq_of_lt hj, Nat.mod_eq_of_lt hj'] at hmod

theorem surjective (start : Nat) (h : Nat.Coprime size step) {i : Nat} (hi : i < size) :
    ∃ j < size, (start + j * step) % size = i := by
  have hsize : 0 < size := Nat.zero_lt_of_lt hi
  let walk (j : Fin size) : Fin size := ⟨(start + j * step) % size, Nat.mod_lt _ hsize⟩
  have hinj : Function.Injective walk := fun j j' heq =>
    Fin.ext (injective start h j.isLt j'.isLt (Fin.mk.inj heq))
  obtain ⟨j, hj⟩ := Finite.surjective_of_injective hinj ⟨i, hi⟩
  exact ⟨j, j.isLt, congrArg Fin.val hj⟩

theorem perm (start : Nat) (h : Nat.Coprime size step) :
    ((List.range size).map fun j => (start + j * step) % size).Perm (List.range size) := by
  have hnodup : ((List.range size).map fun j => (start + j * step) % size).Nodup :=
    List.nodup_range.map_on fun j hj j' hj' heq =>
      injective start h (List.mem_range.mp hj) (List.mem_range.mp hj') heq
  refine (List.perm_ext_iff_of_nodup hnodup List.nodup_range).mpr fun i => ?_
  rw [List.mem_map, List.mem_range]
  constructor
  · rintro ⟨j, hj, rfl⟩
    exact Nat.mod_lt _ (Nat.zero_lt_of_lt (List.mem_range.mp hj))
  · intro hi
    obtain ⟨j, hj, heq⟩ := surjective start h hi
    exact ⟨j, List.mem_range.mpr hj, heq⟩

end Dert.Library.Stride
