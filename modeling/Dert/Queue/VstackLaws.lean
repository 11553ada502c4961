import Dert.Queue.Vstack

namespace Dert.Vstack

open Library Library.Memory

variable {elemSize cap : Nat} {p : Place} {m : Ram} {s : Spec cap} {value : Nat}

structure Rep (elemSize : Nat) (p : Place) (m : Ram) (s : Spec cap) : Prop where
  members : m.fields p.header numMembers = [p.elems, elemSize, s.list.length, cap]
  slots : (List.range s.list.length).map (m.slot p.elems elemSize) = s.list.reverse
  elems_pos : 0 < p.elems
  elemSize_pos : 0 < elemSize
  size_lt : elemSize * cap < sizeMax
  apart : Extent.Apart ⟨p.header, sizeofPointer * numMembers⟩ ⟨p.elems, elemSize * cap⟩

namespace Rep

theorem field_elems (h : Rep elemSize p m s) : m.field p.header atElems = p.elems :=
  Ram.field_eq h.members rfl

theorem field_elemSize (h : Rep elemSize p m s) : m.field p.header atElemSize = elemSize :=
  Ram.field_eq h.members rfl

theorem field_stored (h : Rep elemSize p m s) : m.field p.header atStored = s.list.length :=
  Ram.field_eq h.members rfl

theorem field_cap (h : Rep elemSize p m s) : m.field p.header atCap = cap :=
  Ram.field_eq h.members rfl

theorem size_eq (h : Rep elemSize p m s) {n : Nat} (hn : n ≤ cap) :
    sizeT (elemSize * n) = elemSize * n :=
  sizeT_of_lt (Nat.lt_of_le_of_lt (Nat.mul_le_mul_left _ hn) h.size_lt)

theorem lt_sizeMax (h : Rep elemSize p m s) {n : Nat} (hn : n ≤ cap) : n < sizeMax :=
  Nat.lt_of_le_of_lt (hn.trans (Nat.le_mul_of_pos_left _ h.elemSize_pos)) h.size_lt

theorem frame {m' : Ram} (h : Rep elemSize p m s)
    (hkept : ∀ a ∈ extents elemSize cap p, Agree a m m') : Rep elemSize p m' s :=
  { h with
    members := by
      rw [← h.members]
      exact Ram.fields_congr (hkept _ List.mem_cons_self)
    slots := by
      rw [← h.slots]
      refine List.map_congr_left fun i hi => Ram.slot_congr (n := cap) ?_
        (hkept _ (List.mem_cons_of_mem _ List.mem_cons_self))
      exact Nat.lt_of_lt_of_le (List.mem_range.mp hi) s.bounded }

theorem setStored {s' : Spec cap} (h : Rep elemSize p m s) (hvalue : s'.list.length = value)
    (hslots : (List.range s'.list.length).map (m.slot p.elems elemSize) = s'.list.reverse) :
    Rep elemSize p (m.setField p.header atStored value) s' :=
  { h with
    members := by
      rw [← hvalue, Ram.fields_setField (h.lt_sizeMax s'.bounded), h.members]
      rfl
    slots := by
      rw [← hslots]
      refine List.map_congr_left fun i hi => Ram.slot_congr (n := cap) ?_
        (agree_write (h.apart.mono (Extent.piece_within (by decide)) (Extent.Within.refl _)))
      exact Nat.lt_of_lt_of_le (List.mem_range.mp hi) s'.bounded }

theorem confined_setStored :
    Confined (extents elemSize cap p) m (m.setField p.header atStored value) :=
  Ram.confined_setField (by decide) ⟨_, List.mem_cons_self, rfl⟩

section Store

variable {src : List UInt8}

theorem store_confined (hsrc : src.length = elemSize) (hroom : s.list.length < cap) :
    Confined (extents elemSize cap p) m
      (m.memcpy (p.elems + elemSize * s.list.length) src) := by
  refine confined_write ⟨_, List.mem_cons_of_mem _ List.mem_cons_self, ?_⟩
  rw [hsrc]
  exact Extent.piece_within hroom

theorem store_slot (hsrc : src.length = elemSize) (i : Nat) :
    (m.memcpy (p.elems + elemSize * s.list.length) src).slot p.elems elemSize i =
      Cyclic.copyIn (m.slot p.elems elemSize) s.list.length [src] i := by
  have hslot : (m.memcpy (p.elems + elemSize * s.list.length) [src].flatten).slot p.elems
      elemSize i = Cyclic.copyIn (m.slot p.elems elemSize) s.list.length [src] i :=
    Ram.slot_memcpy (by simpa using hsrc) p.elems s.list.length i
  rwa [List.flatten_singleton] at hslot

theorem store (h : Rep elemSize p m s) (hsrc : src.length = elemSize)
    (hroom : s.list.length < cap) :
    Rep elemSize p (m.memcpy (p.elems + elemSize * s.list.length) src) s :=
  { h with
    members := by
      rw [← h.members]
      refine Ram.fields_congr (agree_write (h.apart.symm.mono ?_ (Extent.Within.refl _)))
      rw [hsrc]
      exact Extent.piece_within hroom
    slots := by
      rw [← h.slots]
      refine List.map_congr_left fun i hi => ?_
      rw [store_slot hsrc, Cyclic.copyIn, if_pos (List.mem_range.mp hi)] }

theorem pushed (h : Rep elemSize p m s) (hsrc : src.length = elemSize)
    (hroom : s.list.length < cap) :
    Rep elemSize p
      ((m.memcpy (p.elems + elemSize * s.list.length) src).setField p.header atStored
        (s.list.length + 1)) (⟨src :: s.list, hroom⟩ : Spec cap) := by
  refine (h.store hsrc hroom).setStored rfl ?_
  dsimp only
  rw [List.length_cons, List.range_succ, List.map_append, (h.store hsrc hroom).slots,
    List.map_singleton, store_slot hsrc, Cyclic.copyIn, if_neg (Nat.lt_irrefl _), Nat.sub_self,
    List.reverse_cons]
  rfl

theorem popped {x : List UInt8} (h : Rep elemSize p m s) (rest : Spec cap)
    (hs : s.list = x :: rest.list) :
    m.slot p.elems elemSize rest.list.length = x ∧
      Rep elemSize p (m.setField p.header atStored rest.list.length) rest := by
  have hslots := h.slots
  rw [hs, List.length_cons, List.range_succ, List.map_append, List.reverse_cons,
    List.map_singleton] at hslots
  obtain ⟨hrest, hx⟩ := List.append_inj' hslots rfl
  exact ⟨List.head_eq_of_cons_eq hx, h.setStored rfl hrest⟩

end Store

end Rep

section Calls

variable (h : Rep elemSize p m s)
include h

theorem push_eq {src : List UInt8} (hsrc : src.length = elemSize) :
    (vstacks elemSize cap).Step (Rep elemSize) p m (call p m (.push src)) (s.call elemSize (.push src)) := by
  have helems : ¬ p.elems = 0 := Nat.ne_of_gt h.elems_pos
  have hsize : ¬ elemSize = 0 := Nat.ne_of_gt h.elemSize_pos
  simp only [call, Spec.call, Spec.push, vstackPush, h.field_elems, h.field_elemSize,
    h.field_stored, h.field_cap, if_neg helems, hsize, false_or]
  by_cases hroom : s.list.length < cap
  · have hlen : sizeT (s.list.length + 1) = s.list.length + 1 := sizeT_of_lt (h.lt_sizeMax hroom)
    rw [if_neg (Nat.not_le_of_lt hroom), dif_pos hroom, List.take_of_length_le (Nat.le_of_eq hsrc),
      h.size_eq hroom.le, (h.store hsrc hroom).field_stored, hlen]
    exact ⟨(Rep.store_confined hsrc hroom).trans Rep.confined_setStored, rfl, h.pushed hsrc hroom⟩
  · rw [if_pos (Nat.le_of_not_lt hroom), dif_neg hroom]
    exact ⟨Confined.refl _ _, rfl, h⟩

theorem topDirect_eq : vstackTopDirect m p.header =
    s.pop.map fun r => p.elems + elemSize * r.2.list.length := by
  have helems : ¬ p.elems = 0 := Nat.ne_of_gt h.elems_pos
  have hsize : ¬ elemSize = 0 := Nat.ne_of_gt h.elemSize_pos
  simp only [vstackTopDirect, h.field_elems, h.field_elemSize, h.field_stored, if_neg helems,
    hsize, false_or]
  obtain ⟨list, hbounded⟩ := s
  cases list with
  | nil => rfl
  | cons x list =>
    have hlast : sizeT ((x :: list).length + (sizeMax - 1)) = list.length :=
      sizeT_sub (Nat.succ_pos _) (h.lt_sizeMax hbounded)
    have hsome : ¬ (x :: list).length = 0 := Nat.succ_ne_zero _
    dsimp only
    rw [if_neg hsome, hlast, h.size_eq (Nat.le_of_succ_le hbounded)]
    rfl

theorem top_eq : vstackTop m p.header =
    match s.pop with
    | some (x, _) => (0, x)
    | none => (2, []) := by
  have helems : ¬ p.elems = 0 := Nat.ne_of_gt h.elems_pos
  have hsize : ¬ elemSize = 0 := Nat.ne_of_gt h.elemSize_pos
  simp only [vstackTop, topDirect_eq h, h.field_elems, h.field_elemSize, h.field_stored,
    if_neg helems, hsize, false_or]
  obtain ⟨list, hbounded⟩ := s
  cases list with
  | nil => rfl
  | cons x list =>
    obtain ⟨hx, -⟩ := h.popped ⟨list, Nat.le_of_succ_le hbounded⟩ rfl
    exact congrArg (Prod.mk 0) hx

theorem pop_eq : (vstacks elemSize cap).Step (Rep elemSize) p m (call p m .pop) (s.call elemSize .pop) := by
  have helems : ¬ p.elems = 0 := Nat.ne_of_gt h.elems_pos
  have hsize : ¬ elemSize = 0 := Nat.ne_of_gt h.elemSize_pos
  simp only [call, Spec.call, vstackPop, top_eq h, h.field_elems, h.field_elemSize,
    h.field_stored, if_neg helems, hsize, false_or]
  obtain ⟨list, hbounded⟩ := s
  cases list with
  | nil => exact ⟨Confined.refl _ _, rfl, h⟩
  | cons x list =>
    obtain ⟨-, hrest⟩ := h.popped ⟨list, Nat.le_of_succ_le hbounded⟩ rfl
    have hlast : sizeT ((x :: list).length + (sizeMax - 1)) = list.length :=
      sizeT_sub (Nat.succ_pos _) (h.lt_sizeMax hbounded)
    have hsome : ¬ (x :: list).length = 0 := Nat.succ_ne_zero _
    dsimp only
    rw [if_neg hsome, hlast]
    exact ⟨Rep.confined_setStored, rfl, hrest⟩

theorem call_eq {c : Call} (hc : allows elemSize c = true) (hends : ends c = false) :
    (vstacks elemSize cap).Step (Rep elemSize) p m (call p m c) (s.call elemSize c) := by
  cases c with
  | push src => exact push_eq h (of_decide_eq_true hc)
  | pop => exact pop_eq h
  | top =>
    refine ⟨Confined.refl _ _, ?_, ?_⟩
    · simp only [call, Spec.call, top_eq h]
      cases s.pop <;> rfl
    · simp only [call, Spec.call]
      cases s.pop <;> exact h
  | topDirect =>
    refine ⟨Confined.refl _ _, ?_, ?_⟩
    · simp only [call, Spec.call, topDirect_eq h]
      cases s.pop with
      | none => rfl
      | some r => simp
    · simp only [call, Spec.call]
      cases s.pop <;> exact h
  | len =>
    simp only [call, Spec.call, vstackLen, h.field_stored]
    exact ⟨Confined.refl _ _, rfl, h⟩
  | cap =>
    simp only [call, Spec.call, vstackCap, h.field_cap]
    exact ⟨Confined.refl _ _, rfl, h⟩
  | deinit => cases hends

theorem deinit_eq : call p m .deinit = (m.memset p.header 0 sizeofVstack, ⟨0, none, []⟩) := by
  simp only [call, vstackDeinit, h.field_elems, if_neg (Nat.ne_of_gt h.elems_pos)]

end Calls

theorem vstacks_refines (elemSize cap : Nat) :
    (vstacks elemSize cap).Refines (@Rep cap elemSize) (Spec.call elemSize) :=
  .of_steps (fun h hkept => h.frame hkept) (fun h hc hends => call_eq h hc hends)
    fun {p m s c} h hends => by
      cases c with
      | deinit =>
        dsimp only [vstacks]
        rw [deinit_eq h]
        exact ⟨confined_write ⟨_, List.mem_cons_self, Extent.Within.refl _⟩, rfl⟩
      | _ => cases hends

section Init

variable {numElems num memory : Nat}

theorem vstackMembers_confined (m : Ram) (stack elems elemSize numElems : Nat) :
    Confined [⟨stack, sizeofPointer * numMembers⟩] m
      (vstackMembers m stack elems elemSize numElems) := by
  refine Confined.trans ?_ (Ram.confined_member (by decide))
  refine Confined.trans ?_ (Ram.confined_member (by decide))
  exact (Ram.confined_member (by decide)).trans (Ram.confined_member (by decide))

theorem vstackMembers_fields (m : Ram) (stack : Nat) {elems : Nat} (helems : elems < sizeMax)
    (hsize : elemSize < sizeMax) (hnum : numElems < sizeMax) :
    (vstackMembers m stack elems elemSize numElems).fields stack numMembers =
      [elems, elemSize, 0, numElems] := by
  have hzero : 0 < sizeMax := by decide
  simp only [vstackMembers]
  rw [Ram.fields_setField hnum, Ram.fields_setField hzero, Ram.fields_setField hsize,
    Ram.fields_setField helems]
  rfl

theorem vstackAdvise_eq (hsize : sizeofVstack + elemSize * numElems < sizeMax) :
    vstackAdvise elemSize numElems = sizeofVstack + elemSize * numElems := by
  have hproduct : elemSize * numElems < sizeMax := by omega
  rw [vstackAdvise, sizeT_of_lt hproduct, sizeT_of_lt hsize]

theorem vstackAdvisev_eq (hstacks : 0 < num)
    (hsize : num * (sizeofVstack + elemSize * numElems) < sizeMax) :
    vstackAdvisev num elemSize numElems = num * (sizeofVstack + elemSize * numElems) := by
  have hone := Nat.le_mul_of_pos_left (sizeofVstack + elemSize * numElems) hstacks
  have hadvise : sizeofVstack + elemSize * numElems < sizeMax := by omega
  exact (congrArg (fun size => sizeT (num * size)) (vstackAdvise_eq hadvise)).trans
    (sizeT_of_lt hsize)

theorem vstackInitv_eq (m : Ram) (hmemory : 0 < memory) (hsize : 0 < elemSize)
    (hnum : 0 < numElems) (hstacks : 0 < num)
    (hadvise : num * (sizeofVstack + elemSize * numElems) < sizeMax)
    (hblock : memory + num * (sizeofVstack + elemSize * numElems) ≤ sizeMax) :
    (vstackInitv m num memory elemSize numElems).2 = (0, some memory) ∧
      Confined [⟨memory, num * (sizeofVstack + elemSize * numElems)⟩] m
        (vstackInitv m num memory elemSize numElems).1 ∧
      ∀ i < num, Rep elemSize (initvPlace sizeofVstack (elemSize * numElems) num memory i)
        (vstackInitv m num memory elemSize numElems).1 (Spec.empty : Spec numElems) := by
  have hone := Nat.le_mul_of_pos_left (sizeofVstack + elemSize * numElems) hstacks
  have hheaders := Nat.mul_le_mul_left num (Nat.le_add_right sizeofVstack (elemSize * numElems))
  have hsize' : elemSize ≤ elemSize * numElems := Nat.le_mul_of_pos_right _ hnum
  have hnum' : numElems ≤ elemSize * numElems := Nat.le_mul_of_pos_left _ hsize
  rw [vstackInitv, if_neg (by omega), vstackAdvisev_eq hstacks hadvise,
    sizeT_of_lt (by omega : elemSize * numElems < sizeMax),
    sizeT_of_lt (by omega : num * sizeofVstack < sizeMax)]
  dsimp only
  rw [initvElems_eq]
  obtain ⟨hconfined, hplaces⟩ := initvLoop_places
    (fun m stack ptr => vstackMembers_confined m stack ptr elemSize numElems)
    (fun m stack ptr hptr => vstackMembers_fields m stack (by omega) (by omega) (by omega))
    hblock rfl
    (m.memset memory 0 (num * (sizeofVstack + elemSize * numElems)))
  refine ⟨rfl, (confined_write ⟨_, List.mem_cons_self, Extent.Within.refl _⟩).trans hconfined,
    fun i hi => ?_⟩
  exact
    { members := (hplaces i hi).1
      slots := rfl
      elems_pos := by
        dsimp only [initvPlace]
        omega
      elemSize_pos := hsize
      size_lt := by omega
      apart := initvPlace_own hi }

theorem vstackInit_eq (m : Ram) (memory elemSize numElems : Nat) :
    vstackInit m memory elemSize numElems = vstackInitv m 1 memory elemSize numElems := by
  have hadvise : vstackAdvisev 1 elemSize numElems = vstackAdvise elemSize numElems := by
    rw [vstackAdvisev, Nat.one_mul]
    exact sizeT_of_lt (sizeT_lt _)
  rw [vstackInit, vstackInitv, hadvise]
  rfl

theorem vstackInit_rep {p : Place} {m m' : Ram} (hsize : 0 < elemSize) (hnum : 0 < numElems)
    (hblock : p.header + (sizeofVstack + elemSize * numElems) ≤ sizeMax)
    (hinit : vstackInit m p.header elemSize numElems = (m', 0, some p.header))
    (helems : p.elems = p.header + sizeofVstack) :
    Rep elemSize p m' (Spec.empty : Spec numElems) := by
  have hheader : 0 < p.header := by
    refine Nat.pos_of_ne_zero fun hzero => ?_
    rw [vstackInit, if_pos (Or.inl hzero)] at hinit
    cases hinit
  rw [vstackInit_eq] at hinit
  have hrep := (vstackInitv_eq m hheader hsize hnum Nat.one_pos (by omega) (by omega)).2.2 0
    Nat.one_pos
  rw [hinit] at hrep
  rwa [initvPlace_one helems] at hrep

end Init

end Dert.Vstack
