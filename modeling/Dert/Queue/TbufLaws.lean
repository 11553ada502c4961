import Dert.Queue.Tbuf

namespace Dert.Tbuf

open Library Library.Memory

variable {cap : Nat} {p : Place} {m : Ram} {s : Spec cap} {side other : Side} {value : Nat}

structure Rep (p : Place) (m : Ram) (s : Spec cap) : Prop where
  members : m.fields p.header numMembers = [p.elems + s.offset .A, (s.bytes .A).length,
    p.elems + s.offset .B, (s.bytes .B).length, cap]
  bytes : ∀ side, m.bytes (p.elems + s.offset side) (s.bytes side).length = s.bytes side
  cap_pos : 0 < cap
  size_le : p.elems + (cap + cap) ≤ sizeMax
  elems_pos : 0 < p.elems
  apart : Extent.Apart ⟨p.header, sizeofPointer * numMembers⟩ ⟨p.elems, cap + cap⟩

def buffer (p : Place) (s : Spec cap) (side : Side) : Extent := ⟨p.elems + s.offset side, cap⟩

theorem buffer_within (p : Place) (s : Spec cap) (side : Side) :
    (buffer p s side).Within ⟨p.elems, cap + cap⟩ := by
  have hoffset : s.offset side ≤ cap := by
    cases side <;> simp only [Spec.offset] <;> split <;> omega
  simp only [buffer, Extent.Within, Extent.stop]
  omega

theorem buffer_apart (p : Place) (s : Spec cap) (h : side ≠ other) :
    (buffer p s side).Apart (buffer p s other) := by
  cases side <;> cases other
  case A.A => exact absurd rfl h
  case B.B => exact absurd rfl h
  all_goals
    simp only [buffer, Spec.offset, Extent.Apart, Extent.stop]
    split <;> omega

theorem Side.atLen_lt (side : Side) : side.atLen < numMembers := by
  cases side <;> decide

theorem Spec.set_self {src : List UInt8} (hsrc : src.length ≤ cap) :
    (s.set side src hsrc).bytes side = src := Function.update_self _ _ _

theorem Spec.set_other {src : List UInt8} {hsrc : src.length ≤ cap} (h : other ≠ side) :
    (s.set side src hsrc).bytes other = s.bytes other := Function.update_of_ne h _ _

namespace Rep

theorem field_at (h : Rep p m s) (side : Side) :
    m.field p.header side.at = p.elems + s.offset side := by
  cases side with
  | A => exact Ram.field_eq h.members rfl
  | B => exact Ram.field_eq h.members rfl

theorem field_atLen (h : Rep p m s) (side : Side) :
    m.field p.header side.atLen = (s.bytes side).length := by
  cases side with
  | A => exact Ram.field_eq h.members rfl
  | B => exact Ram.field_eq h.members rfl

theorem field_cap (h : Rep p m s) : m.field p.header atCap = cap := Ram.field_eq h.members rfl

theorem lt_sizeMax (h : Rep p m s) {n : Nat} (hn : n ≤ cap) : n < sizeMax := by
  have hpos := h.elems_pos
  have hsize := h.size_le
  omega

theorem bytes_kept {m' : Ram} (h : Rep p m s) (hkept : Agree ⟨p.elems, cap + cap⟩ m m')
    (side : Side) :
    m'.bytes (p.elems + s.offset side) (s.bytes side).length = s.bytes side := by
  have hwithin : Extent.Within ⟨p.elems + s.offset side, (s.bytes side).length⟩ (buffer p s side) :=
    Extent.head_within (a := buffer p s side) (s.bounded side)
  refine Eq.trans (Ram.bytes_congr (hkept.mono ?_)) (h.bytes side)
  exact hwithin.trans (buffer_within p s side)

theorem frame {m' : Ram} (h : Rep p m s) (hkept : ∀ a ∈ extents cap p, Agree a m m') :
    Rep p m' s :=
  { h with
    members := by
      rw [← h.members]
      exact Ram.fields_congr (hkept _ List.mem_cons_self)
    bytes := h.bytes_kept (hkept _ (List.mem_cons_of_mem _ List.mem_cons_self)) }

theorem header_kept {m' : Ram} (h : Rep p m s)
    (hm' : Confined [⟨p.header, sizeofPointer * numMembers⟩] m m') :
    Agree ⟨p.elems, cap + cap⟩ m m' :=
  hm'.agree fun a ha => by
    rw [List.mem_singleton.mp ha]
    exact h.apart

end Rep

theorem confined_header {m' : Ram}
    (hm' : Confined [⟨p.header, sizeofPointer * numMembers⟩] m m') :
    Confined (extents cap p) m m' :=
  hm'.mono fun a ha => ⟨a, by
    rw [List.mem_singleton.mp ha]
    exact List.mem_cons_self, Extent.Within.refl _⟩

theorem tbufSwap_fields {twin a aLen b bLen : Nat}
    (h : m.fields twin numMembers = [a, aLen, b, bLen, cap]) (ha : a < sizeMax)
    (haLen : aLen < sizeMax) (hb : b < sizeMax) (hbLen : bLen < sizeMax) :
    (tbufSwap m twin).1.fields twin numMembers = [b, bLen, a, aLen, cap] := by
  have hA : (m.setField twin atA b).fields twin numMembers = [b, aLen, b, bLen, cap] := by
    rw [Ram.fields_setField hb, h]
    rfl
  have hB : ((m.setField twin atA b).setField twin atB a).fields twin numMembers =
      [b, aLen, a, bLen, cap] := by
    rw [Ram.fields_setField ha, hA]
    rfl
  have hfieldA : m.field twin atA = a := Ram.field_eq h rfl
  have hfieldB : m.field twin atB = b := Ram.field_eq h rfl
  simp only [tbufSwap]
  rw [hfieldA, hfieldB, Ram.field_eq hB (rfl : _ = some bLen), Ram.field_eq hB (rfl : _ = some aLen),
    Ram.fields_setField haLen, Ram.fields_setField hbLen, hB]
  rfl

theorem tbufSwap_confined (m : Ram) (twin : Nat) :
    Confined [⟨twin, sizeofPointer * numMembers⟩] m (tbufSwap m twin).1 := by
  refine Confined.trans ?_ (Ram.confined_member (by decide))
  refine Confined.trans ?_ (Ram.confined_member (by decide))
  exact (Ram.confined_member (by decide)).trans (Ram.confined_member (by decide))

namespace Rep

theorem address_lt (h : Rep p m s) (side : Side) : p.elems + s.offset side < sizeMax := by
  have hwithin := buffer_within p s side
  have hpos := h.cap_pos
  have hsize := h.size_le
  simp only [buffer, Extent.Within, Extent.stop] at hwithin
  omega

theorem swap (h : Rep p m s) : Rep p (tbufSwap m p.header).1 s.swap where
  members := by
    have hfields := tbufSwap_fields h.members (h.address_lt .A) (h.lt_sizeMax (s.bounded .A))
      (h.address_lt .B) (h.lt_sizeMax (s.bounded .B))
    rw [hfields]
    cases hswapped : s.swapped <;> simp [Spec.offset, Spec.swap, hswapped]
  bytes side := by
    have hbytes := h.bytes_kept (h.header_kept (tbufSwap_confined m p.header))
    cases side with
    | A =>
      have hoffset : s.swap.offset .A = s.offset .B := by
        cases hswapped : s.swapped <;> simp [Spec.offset, Spec.swap, hswapped]
      rw [hoffset]
      exact hbytes .B
    | B =>
      have hoffset : s.swap.offset .B = s.offset .A := by
        cases hswapped : s.swapped <;> simp [Spec.offset, Spec.swap, hswapped]
      rw [hoffset]
      exact hbytes .A
  cap_pos := h.cap_pos
  size_le := h.size_le
  elems_pos := h.elems_pos
  apart := h.apart

theorem setLen (h : Rep p m s) {src : List UInt8} (hsrc : src.length ≤ cap)
    (hvalue : src.length = value)
    (hbytes : m.bytes (p.elems + s.offset side) src.length = src)
    (hother : ∀ other ≠ side,
      m.bytes (p.elems + s.offset other) (s.bytes other).length = s.bytes other) :
    Rep p (m.setField p.header side.atLen value) (s.set side src hsrc) where
  members := by
    rw [← hvalue, Ram.fields_setField (h.lt_sizeMax hsrc), h.members]
    cases side <;> rfl
  bytes other := by
    have hkept : Agree ⟨p.elems, cap + cap⟩ m (m.setField p.header side.atLen value) :=
      h.header_kept (Ram.confined_member side.atLen_lt)
    have hwithin : Extent.Within ⟨p.elems + s.offset other, ((s.set side src hsrc).bytes other).length⟩
        ⟨p.elems, cap + cap⟩ :=
      (Extent.head_within (a := buffer p s other) ((s.set side src hsrc).bounded other)).trans
        (buffer_within p s other)
    refine Eq.trans (Ram.bytes_congr (hkept.mono hwithin)) ?_
    by_cases heq : other = side
    · subst heq
      rw [Spec.set_self]
      exact hbytes
    · rw [Spec.set_other heq]
      exact hother other heq
  cap_pos := h.cap_pos
  size_le := h.size_le
  elems_pos := h.elems_pos
  apart := h.apart

section Fill

variable {src : List UInt8}

theorem fill_within (p : Place) (s : Spec cap) (side : Side) (src : List UInt8) :
    Extent.Within ⟨p.elems + s.offset side + (s.bytes side).length,
      (src.take (s.room side)).length⟩ (buffer p s side) := by
  have hlen := s.bounded side
  rw [List.length_take, Spec.room]
  simp only [buffer, Extent.Within, Extent.stop]
  omega

theorem fill_confined (p : Place) (s : Spec cap) (side : Side) (src : List UInt8) :
    Confined (extents cap p) m
      (m.memcpy (p.elems + s.offset side + (s.bytes side).length) (src.take (s.room side))) :=
  confined_write ⟨_, List.mem_cons_of_mem _ List.mem_cons_self,
    (fill_within p s side src).trans (buffer_within p s side)⟩

theorem store (h : Rep p m s) (side : Side) (src : List UInt8) :
    Rep p (m.memcpy (p.elems + s.offset side + (s.bytes side).length)
      (src.take (s.room side))) s :=
  { h with
    members := by
      rw [← h.members]
      exact Ram.fields_congr (agree_write (h.apart.symm.mono
        ((fill_within p s side src).trans (buffer_within p s side)) (Extent.Within.refl _)))
    bytes := fun other => by
      refine Eq.trans (Ram.bytes_congr (agree_write ?_)) (h.bytes other)
      by_cases heq : other = side
      · subst heq
        exact Or.inr (Nat.le_refl _)
      · exact (buffer_apart p s (Ne.symm heq)).mono (fill_within p s side src)
          (Extent.head_within (a := buffer p s other) (s.bounded other)) }

theorem filled (h : Rep p m s) (side : Side) (src : List UInt8) :
    Rep p ((m.memcpy (p.elems + s.offset side + (s.bytes side).length)
        (src.take (s.room side))).setField p.header side.atLen
          ((s.bytes side).length + (src.take (s.room side)).length)) (s.fill side src) := by
  have hstored := h.store side src
  refine hstored.setLen _ List.length_append ?_ fun other _ => hstored.bytes other
  obtain ⟨dest, hdest⟩ : ∃ dest, dest = p.elems + s.offset side + (s.bytes side).length :=
    ⟨_, rfl⟩
  obtain ⟨added, hadded⟩ : ∃ added, added = src.take (s.room side) := ⟨_, rfl⟩
  have hcopied : (m.memcpy dest added).bytes (dest + 0) added.length =
      (added.drop 0).take added.length := Ram.bytes_memcpy (Nat.le_of_eq (Nat.zero_add _))
  rw [Nat.add_zero, List.drop_zero, List.take_length, hdest, hadded] at hcopied
  rw [List.length_append, Ram.bytes_add, hstored.bytes, hcopied]

end Fill

end Rep

section Calls

variable (h : Rep p m s)
include h

theorem swap_eq : (tbufs cap).Step Rep p m (call p m .swap) (s.call .swap) :=
  ⟨confined_header (tbufSwap_confined m p.header), rfl, h.swap⟩

theorem pointer_eq (side : Side) :
    pointer side m p.header = p.elems + s.offset side + (s.bytes side).length := by
  rw [pointer, h.field_at, h.field_atLen]

theorem pointer_sub (side : Side) :
    pointer side m p.header - p.elems = s.offset side + (s.bytes side).length := by
  rw [pointer_eq h, Nat.add_assoc, Nat.add_sub_cancel_left]

theorem unused_eq (side : Side) : unused side m p.header = s.room side := by
  rw [unused, h.field_cap, h.field_atLen, Spec.room]
  exact sizeT_sub (s.bounded side) (h.lt_sizeMax (Nat.le_refl cap))

theorem fill_eq (side : Side) (src : List UInt8) :
    (tbufs cap).Step Rep p m (call p m (.fill side src)) (s.call (.fill side src)) := by
  simp only [call, Spec.call, fill, unused_eq h, pointer_eq h, (h.store side src).field_atLen]
  exact ⟨(Rep.fill_confined p s side src).trans
    (confined_header (Ram.confined_member side.atLen_lt)), rfl, h.filled side src⟩

theorem clear_eq (side : Side) : (tbufs cap).Step Rep p m (call p m (.clear side)) (s.call (.clear side)) :=
  ⟨confined_header (Ram.confined_member side.atLen_lt), rfl,
    h.setLen (Nat.zero_le _) rfl rfl fun other _ => h.bytes other⟩

theorem stored_eq (side : Side) : stored side m p.header = s.bytes side := by
  rw [stored, h.field_at, h.field_atLen, h.bytes]

theorem call_eq {c : Call} (hends : ends c = false) : (tbufs cap).Step Rep p m (call p m c) (s.call c) := by
  cases c with
  | swap => exact swap_eq h
  | pointer side =>
    cases side <;> simp only [call, Spec.call, tbufA, tbufB, pointer_sub h] <;>
      exact ⟨Confined.refl _ _, rfl, h⟩
  | unused side =>
    cases side <;> simp only [call, Spec.call, tbufAUnused, tbufBUnused, unused_eq h] <;>
      exact ⟨Confined.refl _ _, rfl, h⟩
  | cap =>
    simp only [call, Spec.call, tbufCap, h.field_cap]
    exact ⟨Confined.refl _ _, rfl, h⟩
  | fill side src => exact fill_eq h side src
  | stored side =>
    simp only [call, Spec.call, stored_eq h]
    exact ⟨Confined.refl _ _, rfl, h⟩
  | clear side => exact clear_eq h side
  | deinit => cases hends

theorem deinit_confined : Confined (extents cap p) m (tbufDeinit m p.header) := by
  have hwithin (side : Side) : ∃ b ∈ extents cap p, (buffer p s side).Within b :=
    ⟨_, List.mem_cons_of_mem _ List.mem_cons_self, buffer_within p s side⟩
  have hA : Confined (extents cap p) m (m.memset (p.elems + s.offset .A) 0 cap) :=
    confined_write (hwithin .A)
  have hmembers : (m.memset (p.elems + s.offset .A) 0 cap).fields p.header numMembers =
      m.fields p.header numMembers :=
    Ram.fields_congr (agree_write (h.apart.symm.mono (buffer_within p s .A) (Extent.Within.refl _)))
  have hfieldB : (m.memset (p.elems + s.offset .A) 0 cap).field p.header atB =
      p.elems + s.offset .B := Ram.field_eq (hmembers.trans h.members) rfl
  have hfieldCap : (m.memset (p.elems + s.offset .A) 0 cap).field p.header atCap = cap :=
    Ram.field_eq (hmembers.trans h.members) rfl
  have hfieldA : m.field p.header atA = p.elems + s.offset .A := h.field_at .A
  simp only [tbufDeinit, hfieldA, h.field_cap]
  rw [hfieldB, hfieldCap]
  refine Confined.trans ?_ (confined_write ⟨_, List.mem_cons_self, Extent.Within.refl _⟩)
  exact hA.trans (confined_write (hwithin .B))

end Calls

theorem tbufs_refines (cap : Nat) : (tbufs cap).Refines (@Rep cap) Spec.call :=
  .of_steps (fun h hkept => h.frame hkept) (fun h _ hends => call_eq h hends)
    fun {p m s c} h hends => by
      cases c with
      | deinit => exact ⟨deinit_confined h, rfl⟩
      | _ => cases hends

section Init

variable {num memory : Nat}

theorem tbufMembers_confined (m : Ram) (twin ptr cap : Nat) :
    Confined [⟨twin, sizeofPointer * numMembers⟩] m (tbufMembers m twin ptr cap) := by
  refine Confined.trans ?_ (Ram.confined_member (by decide))
  refine Confined.trans ?_ (Ram.confined_member (by decide))
  refine Confined.trans ?_ (Ram.confined_member (by decide))
  exact (Ram.confined_member (by decide)).trans (Ram.confined_member (by decide))

theorem tbufMembers_fields (m : Ram) (twin : Nat) {ptr : Nat} (hptr : ptr + cap < sizeMax) :
    (tbufMembers m twin ptr cap).fields twin numMembers = [ptr, 0, ptr + cap, 0, cap] := by
  have hzero : 0 < sizeMax := by decide
  have hfirst : ptr < sizeMax := Nat.lt_of_le_of_lt (Nat.le_add_right _ _) hptr
  have hcap : cap < sizeMax := Nat.lt_of_le_of_lt (Nat.le_add_left _ _) hptr
  simp only [tbufMembers]
  rw [Ram.fields_setField hcap, Ram.fields_setField hzero, Ram.fields_setField hptr,
    Ram.fields_setField hzero, Ram.fields_setField hfirst]
  rfl

theorem tbufInitv_eq (m : Ram) (hmemory : 0 < memory) (hcap : 0 < cap)
    (hadvise : num * (sizeofTbuf + (cap + cap)) < sizeMax)
    (hblock : memory + num * (sizeofTbuf + (cap + cap)) ≤ sizeMax) :
    (tbufInitv m num memory cap).2 = (.ok, some memory) ∧
      Confined [⟨memory, num * (sizeofTbuf + (cap + cap))⟩] m (tbufInitv m num memory cap).1 ∧
      ∀ i < num, Rep (initvPlace sizeofTbuf (cap + cap) num memory i)
        (tbufInitv m num memory cap).1 (Spec.empty : Spec cap) := by
  have hheaders := Nat.mul_le_mul_left num (Nat.le_add_right sizeofTbuf (cap + cap))
  rw [tbufInitv, if_neg (by omega), sizeT_of_lt (by omega : num * sizeofTbuf < sizeMax)]
  dsimp only
  rw [initvElems_eq]
  obtain ⟨hconfined, hplaces⟩ := initvLoop_places
    (fun m twin ptr => tbufMembers_confined m twin ptr cap)
    (fun m twin ptr hptr => tbufMembers_fields m twin (by omega)) hblock rfl m
  refine ⟨rfl, hconfined, fun i hi => ?_⟩
  have hblock' : Extent.Within ⟨(initvPlace sizeofTbuf (cap + cap) num memory i).elems, cap + cap⟩
      ⟨memory, num * (sizeofTbuf + (cap + cap))⟩ :=
    initvPlace_within hi (List.mem_cons_of_mem _ List.mem_cons_self)
  exact
    { members := (hplaces i hi).1
      bytes := fun _ => rfl
      cap_pos := hcap
      size_le := hblock'.2.trans hblock
      elems_pos := Nat.lt_of_lt_of_le hmemory hblock'.1
      apart := initvPlace_own hi }

theorem tbufAdvise_eq (hsize : sizeofTbuf + (cap + cap) < sizeMax) :
    tbufAdvise cap = sizeofTbuf + (cap + cap) := by
  rw [tbufAdvise, sizeT_of_lt (by omega : sizeofTbuf + cap < sizeMax), Nat.add_assoc,
    sizeT_of_lt hsize]

theorem tbufAdvisev_eq (hbufs : 0 < num) (hsize : num * (sizeofTbuf + (cap + cap)) < sizeMax) :
    tbufAdvisev num cap = num * (sizeofTbuf + (cap + cap)) := by
  have hone := Nat.le_mul_of_pos_left (sizeofTbuf + (cap + cap)) hbufs
  have hadvise : sizeofTbuf + (cap + cap) < sizeMax := by omega
  exact (congrArg (fun size => sizeT (num * size)) (tbufAdvise_eq hadvise)).trans
    (sizeT_of_lt hsize)

theorem tbufInit_eq (m : Ram) (hmemory : 0 < memory) (hcap : 0 < cap) :
    tbufInit m memory cap = tbufInitv (m.memset memory 0 (tbufAdvise cap)) 1 memory cap := by
  have hvalid : ¬ (memory = 0 ∨ cap = 0) := by omega
  rw [tbufInit, tbufInitv, if_neg hvalid, if_neg hvalid]
  rfl

theorem tbufInit_rep {p : Place} {m m' : Ram} (hcap : 0 < cap)
    (hblock : p.header + (sizeofTbuf + (cap + cap)) ≤ sizeMax)
    (hinit : tbufInit m p.header cap = (m', .ok, some p.header))
    (helems : p.elems = p.header + sizeofTbuf) : Rep p m' (Spec.empty : Spec cap) := by
  have hheader : 0 < p.header := by
    refine Nat.pos_of_ne_zero fun hzero => ?_
    rw [tbufInit, if_pos (Or.inl hzero)] at hinit
    cases hinit
  rw [tbufInit_eq m hheader hcap] at hinit
  have hrep := (tbufInitv_eq (m.memset p.header 0 (tbufAdvise cap)) hheader hcap
    (by omega) (by omega)).2.2 0 Nat.one_pos
  rw [hinit] at hrep
  rwa [initvPlace_one helems] at hrep

end Init

end Dert.Tbuf
