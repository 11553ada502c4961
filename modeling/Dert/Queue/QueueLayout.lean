import Dert.Base.Prelude
import Dert.Library.Tiling
import Mathlib.Data.Nat.Find

namespace Dert

open Library

section Arrays

def arrayAdvise (sizeofHeader elemSize numElems : Nat) : Nat :=
  sizeT (sizeofHeader + sizeT (numElems * elemSize))

def arrayAdvisev (sizeofHeader num elemSize numElems : Nat) : Nat :=
  sizeT (num * sizeT (sizeofHeader + sizeT (numElems * elemSize)))

def initvElems (stride : Nat) : Nat → Nat → List Nat
  | 0, _ => []
  | num + 1, ptr => ptr :: initvElems stride num (ptr + stride)

def arrayInitvElems (sizeofHeader num memory elemSize numElems : Nat) : List Nat :=
  initvElems (sizeT (arrayAdvise sizeofHeader elemSize numElems + (sizeMax - sizeofHeader))) num
    (memory + sizeT (num * sizeofHeader))

/-- Slot `i`, from the start of the structure's block on.  The offset of an address is computed
in `size_t`, as the address is. -/
def arraySlot (sizeofHeader elemSize i : Nat) : Extent :=
  ⟨sizeT (sizeofHeader + sizeT (i * elemSize)), elemSize⟩

/-- The header and the slots in `used` lie in the block that `advise` asks for. -/
structure ArrayInside (sizeofHeader elemSize numElems : Nat) (used : Nat → Prop) : Prop where
  header : Extent.Within ⟨0, sizeofHeader⟩ ⟨0, arrayAdvise sizeofHeader elemSize numElems⟩
  slots : ∀ i, used i → (arraySlot sizeofHeader elemSize i).Within
    ⟨0, arrayAdvise sizeofHeader elemSize numElems⟩

def arrayInitvRegions (sizeofHeader num memory elemSize numElems : Nat) : List Extent :=
  (List.range num).map (fun i => ⟨memory + i * sizeofHeader, sizeofHeader⟩) ++
    (arrayInitvElems sizeofHeader num memory elemSize numElems).map
      fun elems => ⟨elems, numElems * elemSize⟩

end Arrays

section Vqueue

def sizeofVqueue : Nat := 48

def vqueueAdvise : Nat → Nat → Nat := arrayAdvise sizeofVqueue

def vqueueAdvisev : Nat → Nat → Nat → Nat := arrayAdvisev sizeofVqueue

def vqueueInitvRegions : Nat → Nat → Nat → Nat → List Extent := arrayInitvRegions sizeofVqueue

end Vqueue

section Aqueue

def sizeofAqueue : Nat := 48

def aqueueAdvise : Nat → Nat → Nat := arrayAdvise sizeofAqueue

def aqueueAdvisev : Nat → Nat → Nat → Nat := arrayAdvisev sizeofAqueue

def aqueueInitvRegions : Nat → Nat → Nat → Nat → List Extent := arrayInitvRegions sizeofAqueue

end Aqueue

section Laws

variable {sizeofHeader num memory elemSize numElems : Nat}

theorem initvElems_eq (stride num ptr : Nat) :
    initvElems stride num ptr = (List.range num).map fun i => ptr + i * stride := by
  induction num generalizing ptr with
  | zero => rfl
  | succ num ih =>
    rw [initvElems, ih, List.range_succ_eq_map, List.map_cons, List.map_map, Nat.zero_mul,
      Nat.add_zero]
    refine congrArg _ (List.map_congr_left fun i _ => ?_)
    rw [Function.comp_apply, Nat.succ_mul, Nat.add_assoc, Nat.add_comm stride]

theorem arrayAdvise_eq (hsize : sizeofHeader + numElems * elemSize < sizeMax) :
    arrayAdvise sizeofHeader elemSize numElems = sizeofHeader + numElems * elemSize := by
  have hproduct : numElems * elemSize < sizeMax := by omega
  rw [arrayAdvise, sizeT_of_lt hproduct, sizeT_of_lt hsize]

theorem arrayInside_of_lt {used : Nat → Prop}
    (hsize : sizeofHeader + numElems * elemSize < sizeMax) (hused : ∀ i, used i → i < numElems) :
    ArrayInside sizeofHeader elemSize numElems used := by
  constructor
  · rw [arrayAdvise_eq hsize]
    exact ⟨Nat.le_refl _, Nat.add_le_add_left (Nat.le_add_right _ _) _⟩
  · intro i hi
    have hle := Nat.mul_le_mul_right elemSize (Nat.succ_le_of_lt (hused i hi))
    rw [Nat.succ_mul] at hle
    rw [arrayAdvise_eq hsize, arraySlot, sizeT_of_lt (show i * elemSize < sizeMax by omega),
      sizeT_of_lt (show sizeofHeader + i * elemSize < sizeMax by omega)]
    refine ⟨Nat.zero_le _, ?_⟩
    simp only [Extent.stop]
    omega

/-- Where the size wraps, the first slot whose end a `size_t` does not hold lies outside. -/
theorem exists_slot_outside (hpos : 0 < sizeofHeader) (hheader : sizeofHeader < sizeMax)
    (hwrap : sizeMax ≤ sizeofHeader + numElems * elemSize) :
    ∃ i < numElems, i + 1 < sizeMax ∧ ¬ (arraySlot sizeofHeader elemSize i).Within
      ⟨0, arrayAdvise sizeofHeader elemSize numElems⟩ := by
  have hexists : ∃ n, sizeMax ≤ sizeofHeader + n * elemSize := ⟨numElems, hwrap⟩
  have hle : Nat.find hexists ≤ numElems := Nat.find_min' hexists hwrap
  have hfind := Nat.find_spec hexists
  cases hn : Nat.find hexists with
  | zero =>
    rw [hn, Nat.zero_mul] at hfind
    omega
  | succ i =>
    have hbefore : sizeofHeader + i * elemSize < sizeMax := by
      have hmin := Nat.find_min hexists (show i < Nat.find hexists by omega)
      omega
    have helem : 0 < elemSize := by
      refine Nat.pos_of_ne_zero fun hzero => ?_
      rw [hzero, Nat.mul_zero] at hwrap
      omega
    have hsmall : i ≤ i * elemSize := Nat.le_mul_of_pos_right i helem
    rw [hn, Nat.succ_mul] at hfind
    refine ⟨i, by omega, by omega, fun hinside => ?_⟩
    have hstop := hinside.2
    have hblock : arrayAdvise sizeofHeader elemSize numElems < sizeMax := sizeT_lt _
    rw [arraySlot, sizeT_of_lt (show i * elemSize < sizeMax by omega), sizeT_of_lt hbefore] at hstop
    simp only [Extent.stop] at hstop
    omega

theorem arrayAdvisev_eq (hnum : 0 < num)
    (hsize : num * (sizeofHeader + numElems * elemSize) < sizeMax) :
    arrayAdvisev sizeofHeader num elemSize numElems =
      num * (sizeofHeader + numElems * elemSize) := by
  have hone := Nat.le_mul_of_pos_left (sizeofHeader + numElems * elemSize) hnum
  have hadvise : sizeofHeader + numElems * elemSize < sizeMax := by omega
  exact (congrArg (fun size => sizeT (num * size)) (arrayAdvise_eq hadvise)).trans (sizeT_of_lt hsize)

theorem arrayInitvElems_eq (memory : Nat) (hnum : 0 < num)
    (hsize : num * (sizeofHeader + numElems * elemSize) < sizeMax) :
    arrayInitvElems sizeofHeader num memory elemSize numElems =
      (List.range num).map fun i => memory + num * sizeofHeader + i * (numElems * elemSize) := by
  have hone := Nat.le_mul_of_pos_left (sizeofHeader + numElems * elemSize) hnum
  have hheaders : num * sizeofHeader ≤ num * (sizeofHeader + numElems * elemSize) :=
    Nat.mul_le_mul_left _ (Nat.le_add_right _ _)
  have hadvise : sizeofHeader + numElems * elemSize < sizeMax := by omega
  have hmul : num * sizeofHeader < sizeMax := by omega
  rw [arrayInitvElems, arrayAdvise_eq hadvise, sizeT_sub (Nat.le_add_right _ _) hadvise,
    sizeT_of_lt hmul, Nat.add_sub_cancel_left, initvElems_eq]

/-- An `initv` uses all of the memory that its `advisev` asks for. -/
theorem arrayInitv_tiles (memory : Nat) (hnum : 0 < num)
    (hsize : num * (sizeofHeader + numElems * elemSize) < sizeMax) :
    Extent.Tiles memory (arrayInitvRegions sizeofHeader num memory elemSize numElems)
      (memory + num * (sizeofHeader + numElems * elemSize)) := by
  have hheaders := Extent.tiles_pieces memory sizeofHeader num
  have helems := Extent.tiles_pieces (memory + num * sizeofHeader) (numElems * elemSize) num
  rw [Nat.add_assoc, ← Nat.mul_add] at helems
  rw [arrayInitvRegions, arrayInitvElems_eq memory hnum hsize, List.map_map]
  exact hheaders.append helems

end Laws

end Dert
