import Dert.Base.Ram

namespace Dert

open Library Library.Memory

structure Place where
  header : Nat
  elems : Nat

def Place.extents (sizeofHeader size : Nat) (p : Place) : List Extent :=
  [⟨p.header, sizeofHeader⟩, ⟨p.elems, size⟩]

def initvPlace (sizeofHeader size num memory i : Nat) : Place :=
  ⟨memory + i * sizeofHeader, memory + num * sizeofHeader + i * size⟩

def initvLoop (sizeofObject : Nat) (setup : Ram → Nat → Nat → Ram) : Ram → Nat → List Nat → Ram
  | m, _, [] => m
  | m, object, ptr :: ptrs =>
    initvLoop sizeofObject setup (setup m object ptr) (object + sizeofObject) ptrs

section Places

variable {sizeofHeader size num memory i j : Nat} {a b : Extent}

theorem initvPlace_one {p : Place} (h : p.elems = p.header + sizeofHeader) :
    initvPlace sizeofHeader size 1 p.header 0 = p := by
  cases p
  simp_all [initvPlace]

theorem initvPlace_within (hi : i < num)
    (ha : a ∈ (initvPlace sizeofHeader size num memory i).extents sizeofHeader size) :
    a.Within ⟨memory, num * (sizeofHeader + size)⟩ := by
  have hheader := Nat.mul_le_mul_right sizeofHeader (Nat.succ_le_of_lt hi)
  have helems := Nat.mul_le_mul_right size (Nat.succ_le_of_lt hi)
  rw [Nat.succ_mul] at hheader helems
  rw [Nat.mul_add]
  simp only [Place.extents, initvPlace, List.mem_cons, List.not_mem_nil, or_false] at ha
  rcases ha with rfl | rfl
  all_goals
    simp only [Extent.Within, Extent.stop]
    omega

theorem initvPlace_own (hi : i < num) :
    Extent.Apart ⟨(initvPlace sizeofHeader size num memory i).header, sizeofHeader⟩
      ⟨(initvPlace sizeofHeader size num memory i).elems, size⟩ := by
  have hheader := Nat.mul_le_mul_right sizeofHeader (Nat.succ_le_of_lt hi)
  rw [Nat.succ_mul] at hheader
  simp only [Extent.Apart, Extent.stop, initvPlace]
  omega

theorem initvPlace_apart (hi : i < num) (hj : j < num) (hij : i ≠ j)
    (ha : a ∈ (initvPlace sizeofHeader size num memory i).extents sizeofHeader size)
    (hb : b ∈ (initvPlace sizeofHeader size num memory j).extents sizeofHeader size) :
    a.Apart b := by
  have hheaders : Extent.Apart ⟨memory + i * sizeofHeader, sizeofHeader⟩
      ⟨memory + j * sizeofHeader, sizeofHeader⟩ :=
    Extent.slot_apart (a := ⟨memory, num * sizeofHeader⟩) hij
  have helems : Extent.Apart ⟨memory + num * sizeofHeader + i * size, size⟩
      ⟨memory + num * sizeofHeader + j * size, size⟩ :=
    Extent.slot_apart (a := ⟨memory + num * sizeofHeader, num * size⟩) hij
  have hi' := Nat.mul_le_mul_right sizeofHeader (Nat.succ_le_of_lt hi)
  have hj' := Nat.mul_le_mul_right sizeofHeader (Nat.succ_le_of_lt hj)
  rw [Nat.succ_mul] at hi' hj'
  simp only [Place.extents, initvPlace, List.mem_cons, List.not_mem_nil, or_false] at ha hb
  rcases ha with rfl | rfl <;> rcases hb with rfl | rfl
  · exact hheaders
  · refine Or.inl ?_
    dsimp only [Extent.stop]
    omega
  · refine Or.inr ?_
    dsimp only [Extent.stop]
    omega
  · exact helems

end Places

section Initv

variable {setup : Ram → Nat → Nat → Ram} {n size num memory ptr i : Nat}
  {ptrs : List Nat} {vs : Nat → List Nat}
  (hsetup : ∀ m object ptr, Confined [⟨object, sizeofPointer * n⟩] m (setup m object ptr))

include hsetup

theorem initvLoop_confined (m : Ram) (object : Nat) (ptrs : List Nat) :
    Confined [⟨object, ptrs.length * (sizeofPointer * n)⟩] m
      (initvLoop (sizeofPointer * n) setup m object ptrs) := by
  induction ptrs generalizing m object with
  | nil => exact Confined.refl _ _
  | cons ptr ptrs ih =>
    have hlength : (ptr :: ptrs).length * (sizeofPointer * n) =
        sizeofPointer * n + ptrs.length * (sizeofPointer * n) := by
      rw [List.length_cons, Nat.succ_mul, Nat.add_comm]
    refine ((hsetup m object ptr).mono ?_).trans ((ih _ _).mono ?_)
    · intro a ha
      rw [List.mem_singleton.mp ha, hlength]
      refine ⟨_, List.mem_cons_self, Nat.le_refl _, ?_⟩
      dsimp only [Extent.stop]
      omega
    · intro a ha
      rw [List.mem_singleton.mp ha, hlength]
      refine ⟨_, List.mem_cons_self, Nat.le_add_right _ _, ?_⟩
      dsimp only [Extent.stop]
      omega

theorem initvLoop_fields
    (hfields : ∀ m, ∀ object, ∀ ptr ∈ ptrs, (setup m object ptr).fields object n = vs ptr)
    (m : Ram) (object : Nat) (hi : ptrs[i]? = some ptr) :
    (initvLoop (sizeofPointer * n) setup m object ptrs).fields
      (object + i * (sizeofPointer * n)) n = vs ptr := by
  induction ptrs generalizing m object i with
  | nil => cases hi
  | cons next ptrs ih =>
    cases i with
    | zero =>
      obtain rfl : next = ptr := Option.some.inj hi
      rw [← hfields m object next List.mem_cons_self, Nat.zero_mul]
      refine Ram.fields_congr ((initvLoop_confined hsetup _ _ ptrs).agree fun a ha => ?_)
      rw [List.mem_singleton.mp ha]
      exact Or.inr (Nat.le_refl _)
    | succ i =>
      rw [Nat.succ_mul, Nat.add_comm (i * _), ← Nat.add_assoc]
      exact ih (fun m object ptr hptr => hfields m object ptr (List.mem_cons_of_mem _ hptr)) _ _ hi

theorem initvLoop_places
    (hfields : ∀ m object ptr, ptr + size ≤ sizeMax →
      (setup m object ptr).fields object n = vs ptr)
    (hblock : memory + num * (sizeofPointer * n + size) ≤ sizeMax)
    (hptrs : ptrs = (List.range num).map fun i =>
      (initvPlace (sizeofPointer * n) size num memory i).elems) (m : Ram) :
    Confined [⟨memory, num * (sizeofPointer * n + size)⟩] m
        (initvLoop (sizeofPointer * n) setup m memory ptrs) ∧
      ∀ i < num,
        (initvLoop (sizeofPointer * n) setup m memory ptrs).fields
            (initvPlace (sizeofPointer * n) size num memory i).header n =
          vs (initvPlace (sizeofPointer * n) size num memory i).elems ∧
        Agree ⟨(initvPlace (sizeofPointer * n) size num memory i).elems, size⟩ m
          (initvLoop (sizeofPointer * n) setup m memory ptrs) := by
  have hlength : ptrs.length = num := by simp [hptrs]
  have hconfined := initvLoop_confined hsetup m memory ptrs
  rw [hlength] at hconfined
  refine ⟨hconfined.mono fun a ha => ⟨_, List.mem_cons_self, ?_⟩, fun i hi => ⟨?_, ?_⟩⟩
  · rw [List.mem_singleton.mp ha]
    exact ⟨Nat.le_refl _, Nat.add_le_add_left (Nat.mul_le_mul_left num (Nat.le_add_right _ _)) _⟩
  · refine initvLoop_fields hsetup (fun m object ptr hptr => hfields m object ptr ?_) m memory ?_
    · rw [hptrs] at hptr
      obtain ⟨j, hj, rfl⟩ := List.mem_map.mp hptr
      have hle := Nat.mul_le_mul_right size (Nat.succ_le_of_lt (List.mem_range.mp hj))
      rw [Nat.succ_mul] at hle
      rw [Nat.mul_add] at hblock
      dsimp only [initvPlace]
      omega
    · simp [hptrs, hi]
  · refine hconfined.agree fun a ha => ?_
    rw [List.mem_singleton.mp ha]
    refine Or.inl ?_
    dsimp only [Extent.stop, initvPlace]
    omega

end Initv

end Dert
