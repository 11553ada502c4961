import Dert.Base.Bytes
import Dert.Library.Cyclic
import Dert.Library.Memory

namespace Dert

open Library Library.Memory Library.Cyclic

/-- Bytes at addresses, with the extents that were written. -/
abbrev Ram := Memory UInt8

namespace Ram

def memset (m : Ram) (dest : Nat) (value : UInt8) (count : Nat) : Ram :=
  m.write ⟨dest, count⟩ fun _ => value

def memcpy (m : Ram) (dest : Nat) (src : List UInt8) : Ram :=
  m.write ⟨dest, src.length⟩ fun i => src.getD (i - dest) 0

def bytes (m : Ram) (src count : Nat) : List UInt8 :=
  (List.range count).map fun i => m.cells (src + i)

def field (m : Ram) (object j : Nat) : Nat := loadPointer m.cells (object + sizeofPointer * j)

def setField (m : Ram) (object j value : Nat) : Ram :=
  m.write ⟨object + sizeofPointer * j, sizeofPointer⟩
    (storePointer m.cells (object + sizeofPointer * j) value)

def fields (m : Ram) (object n : Nat) : List Nat := (List.range n).map (m.field object)

def slot (m : Ram) (elems size i : Nat) : List UInt8 := m.bytes (elems + size * i) size

variable {m m' : Ram} {l : List Extent} {a : Extent} {object j n value src dest count k elems size
  i : Nat} {bs : List UInt8}

section Frames

theorem confined_setField (hj : j < n) (h : ∃ b ∈ l, b = ⟨object, sizeofPointer * n⟩) :
    Confined l m (m.setField object j value) := by
  obtain ⟨b, hb, rfl⟩ := h
  exact confined_write ⟨_, hb, Extent.piece_within hj⟩

theorem confined_member (hj : j < n) :
    Confined [⟨object, sizeofPointer * n⟩] m (m.setField object j value) :=
  confined_setField hj ⟨_, List.mem_cons_self, rfl⟩

theorem bytes_congr (h : Agree ⟨src, count⟩ m m') : m'.bytes src count = m.bytes src count :=
  List.map_congr_left fun i hi => by
    have hlt := List.mem_range.mp hi
    exact h (src + i) ⟨Nat.le_add_right _ _, Nat.add_lt_add_left hlt _⟩

theorem field_congr (hj : j < n) (h : Agree ⟨object, sizeofPointer * n⟩ m m') :
    m'.field object j = m.field object j := by
  have hwithin : Extent.Within ⟨object + sizeofPointer * j, sizeofPointer⟩
      ⟨object, sizeofPointer * n⟩ := Extent.piece_within hj
  exact loadPointer_congr fun i hi =>
    h _ (hwithin.has ⟨Nat.le_add_right _ _, Nat.add_lt_add_left hi _⟩)

theorem fields_congr (h : Agree ⟨object, sizeofPointer * n⟩ m m') :
    m'.fields object n = m.fields object n :=
  List.map_congr_left fun _ hj => field_congr (List.mem_range.mp hj) h

theorem fields_length : (m.fields object n).length = n := by
  rw [fields, List.length_map, List.length_range]

theorem field_eq {vs : List Nat} (h : m.fields object n = vs) (hv : vs[j]? = some value) :
    m.field object j = value := by
  rw [← h, fields, List.getElem?_map, Option.map_eq_some_iff] at hv
  obtain ⟨i, hi, rfl⟩ := hv
  obtain ⟨hlt, rfl⟩ := List.getElem?_eq_some_iff.mp hi
  rw [List.getElem_range]

theorem field_setField : (m.setField object j value).field object j = sizeT value := by
  have hstored : loadPointer (storePointer m.cells (object + sizeofPointer * j) value)
      (object + sizeofPointer * j) = sizeT value := loadPointer_storePointer_mod
  refine Eq.trans (loadPointer_congr fun b hb => ?_) hstored
  exact write_inside ⟨Nat.le_add_right _ _, Nat.add_lt_add_left hb _⟩

/-- A value that is too large for the member loses its high bits. -/
theorem fields_setField_mod :
    (m.setField object j value).fields object n = (m.fields object n).set j (sizeT value) := by
  refine List.ext_getElem (by simp [fields]) fun i hi _ => ?_
  rw [fields_length] at hi
  rw [List.getElem_set]
  simp only [fields, List.getElem_map, List.getElem_range]
  split
  case isTrue hji =>
    subst hji
    exact field_setField
  case isFalse hji =>
    refine loadPointer_congr fun b hb => write_outside fun hhas => hji ?_
    dsimp only [Extent.Has, Extent.stop, sizeofPointer] at *
    omega

theorem fields_setField (hv : value < sizeMax) :
    (m.setField object j value).fields object n = (m.fields object n).set j value := by
  rw [fields_setField_mod, sizeT_of_lt hv]

end Frames

section Bytes

theorem bytes_length : (m.bytes src count).length = count := by
  rw [bytes, List.length_map, List.length_range]

theorem bytes_add (src k n : Nat) : m.bytes src (k + n) = m.bytes src k ++ m.bytes (src + k) n := by
  simp [bytes, List.range_add, Nat.add_assoc]

theorem bytes_memset {value : UInt8} (h : Extent.Within ⟨src, n⟩ ⟨dest, count⟩) :
    (m.memset dest value count).bytes src n = List.replicate n value := by
  refine List.eq_replicate_iff.mpr ⟨bytes_length, fun b hb => ?_⟩
  obtain ⟨i, hi, rfl⟩ := List.mem_map.mp hb
  have hlt := List.mem_range.mp hi
  exact write_inside (h.has ⟨Nat.le_add_right _ _, Nat.add_lt_add_left hlt _⟩)

theorem bytes_memcpy (h : k + n ≤ bs.length) :
    (m.memcpy dest bs).bytes (dest + k) n = (bs.drop k).take n := by
  have hlen : ((bs.drop k).take n).length = n := by simp; omega
  refine List.ext_getElem (by rw [bytes_length, hlen]) fun i hi _ => ?_
  rw [bytes_length] at hi
  have hhas : Extent.Has ⟨dest, bs.length⟩ (dest + k + i) := by
    simp only [Extent.Has, Extent.stop]
    omega
  simp only [bytes, List.getElem_map, List.getElem_range, List.getElem_take, List.getElem_drop]
  rw [memcpy, write_inside hhas, show dest + k + i - dest = k + i by omega,
    List.getD_eq_getElem _ _ (by omega)]

end Bytes

section Slots

variable {xs : List (List UInt8)} (hxs : ∀ x ∈ xs, x.length = size)

include hxs in
theorem flatten_length : xs.flatten.length = size * xs.length := by
  induction xs with
  | nil => rfl
  | cons x xs ih =>
    obtain ⟨hx, hxs⟩ := List.forall_mem_cons.mp hxs
    rw [List.flatten_cons, List.length_append, ih hxs, hx, List.length_cons, Nat.mul_succ,
      Nat.add_comm]

include hxs in
theorem flatten_take (k : Nat) : xs.flatten.take (size * k) = (xs.take k).flatten := by
  induction xs generalizing k with
  | nil => simp
  | cons x xs ih =>
    obtain ⟨hx, hxs⟩ := List.forall_mem_cons.mp hxs
    cases k with
    | zero => simp
    | succ k =>
      rw [List.take_succ_cons, List.flatten_cons, List.flatten_cons, ← ih hxs, Nat.mul_succ,
        Nat.add_comm, ← hx, List.take_length_add_append]

include hxs in
theorem flatten_drop (k : Nat) : xs.flatten.drop (size * k) = (xs.drop k).flatten := by
  induction xs generalizing k with
  | nil => simp
  | cons x xs ih =>
    obtain ⟨hx, hxs⟩ := List.forall_mem_cons.mp hxs
    cases k with
    | zero => simp
    | succ k =>
      rw [List.drop_succ_cons, List.flatten_cons, ← ih hxs, Nat.mul_succ, Nat.add_comm, ← hx,
        List.drop_length_add_append]

theorem slot_congr (hi : i < n) (h : Agree ⟨elems, size * n⟩ m m') :
    m'.slot elems size i = m.slot elems size i :=
  bytes_congr (h.mono (Extent.piece_within hi))

theorem bytes_slots (elems size pos n : Nat) :
    m.bytes (elems + size * pos) (size * n) = (copyOut (m.slot elems size) pos n).flatten := by
  induction n with
  | zero => rfl
  | succ n ih =>
    rw [Nat.mul_succ, bytes_add, ih, copyOut, copyOut, List.range_succ, List.map_append,
      List.flatten_append, Nat.add_assoc, ← Nat.mul_add]
    simp [slot]

include hxs in
theorem slot_memcpy (elems pos i : Nat) :
    (m.memcpy (elems + size * pos) xs.flatten).slot elems size i =
      copyIn (m.slot elems size) pos xs i := by
  have hlen := flatten_length hxs
  rw [copyIn]
  split
  case isTrue hi =>
    have hle := Nat.mul_le_mul_left size (Nat.succ_le_of_lt hi)
    rw [Nat.mul_succ] at hle
    refine bytes_congr (agree_write (Or.inr ?_))
    dsimp only [Extent.stop]
    omega
  case isFalse hi =>
    obtain ⟨j, rfl⟩ := Nat.exists_eq_add_of_le (Nat.le_of_not_lt hi)
    rw [Nat.add_sub_cancel_left]
    by_cases hj : j < xs.length
    · have hle := Nat.mul_le_mul_left size (Nat.succ_le_of_lt hj)
      rw [Nat.mul_succ] at hle
      rw [slot, Nat.mul_add, ← Nat.add_assoc, bytes_memcpy (by omega), flatten_drop hxs,
        List.getD_eq_getElem _ _ hj]
      have htake : (xs.drop j).flatten.take (size * 1) = ((xs.drop j).take 1).flatten :=
        flatten_take (fun x hx => hxs x (List.mem_of_mem_drop hx)) 1
      rw [Nat.mul_one] at htake
      rw [htake, List.drop_eq_getElem_cons hj]
      exact List.append_nil _
    · have hle := Nat.mul_le_mul_left size (Nat.le_of_not_lt hj)
      rw [List.getD_eq_default _ _ (Nat.le_of_not_lt hj)]
      refine bytes_congr (agree_write (Or.inl ?_))
      dsimp only [Extent.stop]
      rw [Nat.mul_add]
      omega

end Slots

attribute [irreducible] field

end Ram

end Dert
