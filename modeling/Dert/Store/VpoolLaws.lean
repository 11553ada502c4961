import Dert.Store.Vpool

namespace Dert.Vpool

open Library

variable {bytes bytes' : Nat → UInt8} {memory memory' : VpoolMemory} {calloc : Option Nat}
  {pool block elem next i count depth : Nat}

section FreeList

def Linked (bytes : Nat → UInt8) : Nat → List Nat → Prop
  | next, [] => next = 0
  | next, e :: rest => next = e ∧ e ≠ 0 ∧ Linked bytes (loadPointer bytes e) rest

theorem Linked.congr {l : List Nat} (h : Linked bytes next l)
    (hsame : ∀ e ∈ l, ∀ i < sizeofPointer, bytes' (e + i) = bytes (e + i)) :
    Linked bytes' next l := by
  induction l generalizing next with
  | nil => exact h
  | cons e rest ih =>
    obtain ⟨hnext, hnull, hrest⟩ := h
    refine ⟨hnext, hnull, ?_⟩
    rw [loadPointer_congr (hsame e List.mem_cons_self)]
    exact ih hrest fun f hf => hsame f (List.mem_cons_of_mem e hf)

theorem Linked.freeList {l : List Nat} (h : Linked bytes next l) (n : Nat) :
    vpoolFreeList bytes n next = l.take n := by
  induction n generalizing next l with
  | zero => simp [vpoolFreeList]
  | succ n ih =>
    cases l with
    | nil =>
      obtain rfl : next = 0 := h
      simp [vpoolFreeList]
    | cons e rest =>
      obtain ⟨rfl, hnull, hrest⟩ := h
      rw [vpoolFreeList, if_neg hnull, ih hrest, List.take_succ_cons]

theorem Linked.head_lt {l : List Nat} {bound : Nat} (h : Linked bytes next l)
    (hlt : ∀ e ∈ l, e < bound) (hpos : 0 < bound) : next < bound := by
  cases l with
  | nil =>
    obtain rfl : next = 0 := h
    exact hpos
  | cons e rest =>
    obtain ⟨rfl, -, -⟩ := h
    exact hlt next List.mem_cons_self

end FreeList

section Calls

theorem raised (elemSize : Nat) :
    (if elemSize < sizeofPointer then sizeofPointer else elemSize) =
      max elemSize sizeofPointer := by
  split_ifs <;> omega

theorem advise_raised (numItems elemSize : Nat) :
    vpoolAdvise numItems (max elemSize sizeofPointer) = vpoolAdvise numItems elemSize := by
  simp only [vpoolAdvise, raised, Nat.max_assoc, Nat.max_self]

theorem advise_eq {numItems width : Nat} (hwidth : sizeofPointer ≤ width)
    (hsize : sizeofVpool + numItems * width < sizeMax) :
    vpoolAdvise numItems width = sizeofVpool + numItems * width := by
  have hmul : numItems * width < sizeMax := by omega
  simp only [vpoolAdvise, if_neg (Nat.not_lt.mpr hwidth), sizeT_of_lt hmul, sizeT_of_lt hsize]

theorem alloc_reuse (calloc : Option Nat) (depth : Nat) (hnext : (memory.pools pool).nextFree ≠ 0) :
    vpoolAlloc calloc (depth + 1) memory pool =
      ({ pools := Function.update memory.pools pool
          { memory.pools pool with
            nextFree := loadPointer memory.bytes (memory.pools pool).nextFree }
         bytes := memset memory.bytes (memory.pools pool).nextFree 0 (memory.pools pool).elementSize },
        some (memory.pools pool).nextFree) := by
  unfold vpoolAlloc
  simp only [if_pos hnext]

theorem alloc_bump (calloc : Option Nat) (depth : Nat) (hnext : (memory.pools pool).nextFree = 0)
    (hroom : (memory.pools pool).stored ≠ (memory.pools pool).capacity) :
    vpoolAlloc calloc (depth + 1) memory pool =
      ({ memory with
          pools := Function.update memory.pools pool
            { memory.pools pool with stored := (memory.pools pool).stored + 1 } },
        some ((memory.pools pool).items +
          (memory.pools pool).stored * (memory.pools pool).elementSize)) := by
  unfold vpoolAlloc
  simp [hnext, vpoolFull, hroom]

def Grows (memory : VpoolMemory) (pool : Nat) : Prop :=
  (memory.pools pool).nextFree = 0 ∧ vpoolFull (memory.pools pool) = true ∧
    (memory.pools pool).kind = .VPOOL_KIND_DYNAMIC

instance (memory : VpoolMemory) (pool : Nat) : Decidable (Grows memory pool) :=
  inferInstanceAs (Decidable (_ ∧ _ ∧ _))

def requested (memory : VpoolMemory) (pool : Nat) : Nat :=
  vpoolAdvise (sizeT (2 * (memory.pools pool).capacity)) (memory.pools pool).elementSize

theorem alloc_full (depth : Nat) (hnext : (memory.pools pool).nextFree = 0)
    (hfull : vpoolFull (memory.pools pool) = true)
    (hrefused : (memory.pools pool).kind = .VPOOL_KIND_DYNAMIC → calloc = none) :
    vpoolAlloc calloc (depth + 1) memory pool = (memory, none) := by
  unfold vpoolAlloc
  cases hkind : (memory.pools pool).kind with
  | VPOOL_KIND_DYNAMIC =>
    obtain rfl := hrefused hkind
    simp [hnext, hfull, hkind]
  | VPOOL_KIND_STATIC => simp [hnext, hfull, hkind]
  | VPOOL_KIND_GUIDED => simp [hnext, hfull, hkind]

theorem alloc_stays (depth : Nat) (hgrows : ¬ Grows memory pool ∨ calloc = none) :
    ∃ stored nextFree, (vpoolAlloc calloc (depth + 1) memory pool).1.pools =
      Function.update memory.pools pool { memory.pools pool with stored, nextFree } := by
  by_cases hnext : (memory.pools pool).nextFree = 0
  · by_cases hfull : (memory.pools pool).stored = (memory.pools pool).capacity
    · have hrefused (hkind : (memory.pools pool).kind = .VPOOL_KIND_DYNAMIC) : calloc = none :=
        hgrows.resolve_left fun hg => hg ⟨hnext, decide_eq_true hfull, hkind⟩
      refine ⟨(memory.pools pool).stored, (memory.pools pool).nextFree, ?_⟩
      rw [alloc_full depth hnext (decide_eq_true hfull) hrefused]
      exact (Function.update_eq_self _ _).symm
    · exact ⟨_, _, by rw [alloc_bump calloc depth hnext hfull]⟩
  · exact ⟨_, _, by rw [alloc_reuse calloc depth hnext]⟩

theorem alloc_frame (depth : Nat) (hgrows : ¬ Grows memory pool ∨ calloc = none)
    (hi : ∀ e, (vpoolAlloc calloc (depth + 1) memory pool).2 = some e →
      ¬ Extent.Has ⟨e, (memory.pools pool).elementSize⟩ i) :
    (vpoolAlloc calloc (depth + 1) memory pool).1.bytes i = memory.bytes i := by
  by_cases hnext : (memory.pools pool).nextFree = 0
  · by_cases hfull : (memory.pools pool).stored = (memory.pools pool).capacity
    · have hrefused (hkind : (memory.pools pool).kind = .VPOOL_KIND_DYNAMIC) : calloc = none :=
        hgrows.resolve_left fun hg => hg ⟨hnext, decide_eq_true hfull, hkind⟩
      rw [alloc_full depth hnext (decide_eq_true hfull) hrefused]
    · rw [alloc_bump calloc depth hnext hfull]
  · rw [alloc_reuse calloc depth hnext] at hi ⊢
    exact memset_outside (hi _ rfl)

def swapped (memory : VpoolMemory) (pool block capacity : Nat) : VpoolMemory :=
  let header := memory.pools pool
  let renewed := { header with
    items := block + sizeofVpool, stored := 0, capacity, prev := block }
  { pools := Function.update (Function.update memory.pools pool renewed) block
      { header with nextFree := 0 }
    bytes := memset memory.bytes block 0 (vpoolAdvise capacity header.elementSize) }

theorem swapped_pool (memory : VpoolMemory) (capacity : Nat) (hne : block ≠ pool) :
    (swapped memory pool block capacity).pools pool =
      { memory.pools pool with
        items := block + sizeofVpool, stored := 0, capacity, prev := block } := by
  simp only [swapped, Function.update_of_ne hne.symm, Function.update_self]

theorem init_eq (memory : VpoolMemory) (block prev : Nat) (kind : VpoolKind)
    {numItems width : Nat} (hitems : 0 < numItems)
    (hwidth : sizeofPointer ≤ width) (hkind : kind ≠ .VPOOL_KIND_STATIC ∨ prev = 0) :
    _vpoolInit memory block numItems width kind prev =
      ({ pools := Function.update memory.pools block
          ⟨block + sizeofVpool, width, 0, numItems, 0, kind, prev⟩
         bytes := memset memory.bytes block 0 (vpoolAdvise numItems width) }, .ok) := by
  have hpos : 0 < width := Nat.lt_of_lt_of_le (by decide) hwidth
  have hinit : ¬ (numItems = 0 ∨ width = 0 ∨ (kind = .VPOOL_KIND_STATIC ∧ prev ≠ 0)) := by
    rintro (h | h | ⟨h, h'⟩)
    · omega
    · omega
    · exact hkind.elim (fun hk => hk h) h'
  simp only [_vpoolInit, if_neg hinit, if_neg (Nat.not_lt.mpr hwidth)]

theorem alloc_grow (hgrows : Grows memory pool) (hne : block ≠ pool)
    (hwidth : sizeofPointer ≤ (memory.pools pool).elementSize)
    (hcapacity : 0 < (memory.pools pool).capacity)
    (hsize : 2 * (memory.pools pool).capacity < sizeMax) :
    vpoolAlloc (some block) (depth + 1) memory pool =
      vpoolAlloc (some block) depth
        (swapped memory pool block (2 * (memory.pools pool).capacity)) pool := by
  obtain ⟨hnext, hfull, hkind⟩ := hgrows
  have hheader : { memory.pools pool with nextFree := 0 } = memory.pools pool := by rw [← hnext]
  have hrenewed : (⟨block + sizeofVpool, (memory.pools pool).elementSize, 0,
      2 * (memory.pools pool).capacity, 0, .VPOOL_KIND_DYNAMIC, block⟩ : Vpool) =
      { memory.pools pool with
        items := block + sizeofVpool, stored := 0
        capacity := 2 * (memory.pools pool).capacity, prev := block } := by
    rw [← hnext, ← hkind]
  have hinit := init_eq memory block block .VPOOL_KIND_DYNAMIC
    (Nat.mul_pos Nat.two_pos hcapacity) hwidth (Or.inl (by decide))
  rw [vpoolAlloc.eq_def]
  simp only [hnext, hfull, hkind, ne_eq, not_true_eq_false, if_false, if_true, sizeT_of_lt hsize,
    hinit, Function.update_self]
  rw [swapped, hheader, hrenewed, Function.update_comm hne, Function.update_idem]

theorem create_eq {numItems elemSize : Nat} {kind : VpoolKind} {memory' : VpoolMemory}
    (h : vpoolCreate (some pool) memory numItems elemSize kind = (memory', some pool)) :
    0 < numItems ∧ memory' =
      { pools := Function.update memory.pools pool
          ⟨pool + sizeofVpool, max elemSize sizeofPointer, 0, numItems, 0, kind, 0⟩
        bytes := memset memory.bytes pool 0 (vpoolAdvise numItems (max elemSize sizeofPointer)) } := by
  rw [vpoolCreate, _vpoolCreate] at h
  split_ifs at h with hbad
  · cases h
  · simp only [_vpoolInit, if_neg hbad, raised, Prod.mk.injEq, and_true] at h
    rw [not_or] at hbad
    exact ⟨Nat.pos_of_ne_zero hbad.1, h.symm⟩

theorem create_of_init {numItems elemSize : Nat} {kind : VpoolKind}
    (h : vpoolInit memory pool numItems elemSize kind = (memory', .ok)) :
    vpoolCreate (some pool) memory numItems elemSize kind = (memory', some pool) := by
  rw [vpoolInit] at h
  rw [vpoolCreate, _vpoolCreate]
  split_ifs with hbad
  · rw [_vpoolInit, if_pos hbad] at h
    cases h
  · simp only [h]

theorem dealloc_eq (hpool : pool ≠ 0) (helem : elem ≠ 0) :
    vpoolDealloc memory pool elem =
      ({ pools := Function.update memory.pools pool { memory.pools pool with nextFree := elem }
         bytes := if (memory.pools pool).nextFree ≠ 0 then
            storePointer (memset memory.bytes elem 0 sizeofPointer) elem (memory.pools pool).nextFree
          else memset memory.bytes elem 0 sizeofPointer }, 0) := by
  rw [vpoolDealloc, if_neg (not_or_intro hpool helem)]

theorem dealloc_frame (hpool : pool ≠ 0) (helem : elem ≠ 0)
    (hi : ¬ Extent.Has ⟨elem, sizeofPointer⟩ i) :
    (vpoolDealloc memory pool elem).1.bytes i = memory.bytes i := by
  rw [dealloc_eq hpool helem]
  simp only
  split_ifs
  · rw [storePointer_outside hi, memset_outside hi]
  · exact memset_outside hi

theorem guidedExtend_eq {memorySize : Nat} (hpool : pool ≠ 0) (hblock : block ≠ 0)
    (hne : block ≠ pool) (hkind : (memory.pools pool).kind = .VPOOL_KIND_GUIDED)
    (hwidth : sizeofPointer ≤ (memory.pools pool).elementSize)
    (hleast : sizeofVpool + (memory.pools pool).elementSize ≤ memorySize)
    (hsize : memorySize < sizeMax) :
    vpoolGuidedExtend memory pool block memorySize =
      (swapped memory pool block ((memorySize - sizeofVpool) / (memory.pools pool).elementSize),
        .ok) := by
  have hitems : sizeT (memorySize + (sizeMax - sizeofVpool)) = memorySize - sizeofVpool :=
    sizeT_sub (by omega) hsize
  have hpos : 0 < (memorySize - sizeofVpool) / (memory.pools pool).elementSize :=
    Nat.div_pos (by omega) (Nat.lt_of_lt_of_le (by decide) hwidth)
  have hinit := init_eq memory block block .VPOOL_KIND_GUIDED hpos hwidth (Or.inl (by decide))
  have hstatic : ¬ (pool = 0 ∨ block = 0 ∨ (memory.pools pool).kind = .VPOOL_KIND_STATIC) := by
    rw [hkind]
    simp [hpool, hblock]
  rw [vpoolGuidedExtend, if_neg hstatic]
  simp only [hitems, hinit, Function.update_of_ne hne.symm, Function.update_self]
  rw [swapped, hkind.symm]
  rw [Function.update_comm hne, Function.update_idem]

end Calls

section Layout

def Slot (blocks : List Extent) (width e : Nat) : Prop :=
  ∃ b ∈ blocks, ∃ i, (b.body sizeofVpool).slot width i = ⟨e, width⟩ ∧
    (i + 1) * width ≤ (b.body sizeofVpool).size

def Untouched (header : Vpool) (e : Nat) : Prop :=
  ∃ i, header.stored ≤ i ∧ i < header.capacity ∧ e = header.items + i * header.elementSize

/-- What the bytes of a pool are used for. -/
structure Layout (blocks : List Extent) (header : Vpool) (bytes : Nat → UInt8)
    (live freed : List Nat) : Prop where
  block : ∀ b ∈ blocks, 0 < b.start ∧ b.stop ≤ sizeMax ∧ sizeofVpool ≤ b.size
  apart : ∀ b ∈ blocks, ∀ c ∈ blocks, b ≠ c → b.Apart c
  width : sizeofPointer ≤ header.elementSize
  capacity : 0 < header.capacity
  stored : header.stored ≤ header.capacity
  area : ∃ b ∈ blocks, header.items = b.start + sizeofVpool ∧
    header.capacity * header.elementSize ≤ b.size - sizeofVpool
  slot : ∀ e ∈ freed ++ live, Slot blocks header.elementSize e
  nodup : (freed ++ live).Nodup
  touched : ∀ e ∈ freed ++ live, ¬ Untouched header e
  zero : ∀ e, Untouched header e → ∀ i, Extent.Has ⟨e, header.elementSize⟩ i → bytes i = 0
  linked : Linked bytes header.nextFree freed

variable {blocks : List Extent} {header : Vpool} {live freed : List Nat} {width e f : Nat}

theorem untouched_nextFree (next : Nat) :
    Untouched { header with nextFree := next } e ↔ Untouched header e := Iff.rfl

theorem Untouched.within (h : Untouched header e) :
    Extent.Within ⟨e, header.elementSize⟩
      ⟨header.items, header.capacity * header.elementSize⟩ := by
  obtain ⟨i, -, hi, rfl⟩ := h
  exact Extent.slot_within (a := ⟨header.items, header.capacity * header.elementSize⟩)
    (Nat.mul_le_mul_right _ hi)

theorem Slot.mono {blocks' : List Extent} (h : Slot blocks width e) (hsub : blocks ⊆ blocks') :
    Slot blocks' width e := by
  obtain ⟨b, hb, i, hi⟩ := h
  exact ⟨b, hsub hb, i, hi⟩

theorem Slot.exists_within (h : Slot blocks width e) :
    ∃ b ∈ blocks, ∃ i, (b.body sizeofVpool).slot width i = ⟨e, width⟩ ∧
      Extent.Within ⟨e, width⟩ (b.body sizeofVpool) := by
  obtain ⟨b, hb, i, hi, hle⟩ := h
  refine ⟨b, hb, i, hi, ?_⟩
  rw [← hi]
  exact Extent.slot_within hle

namespace Layout

variable (h : Layout blocks header bytes live freed)
include h

theorem body_within {b : Extent} (hb : b ∈ blocks) : (b.body sizeofVpool).Within b :=
  Extent.body_within (h.block b hb).2.2

theorem slots_apart (he : Slot blocks width e) (hf : Slot blocks width f) (hne : e ≠ f) :
    Extent.Apart ⟨e, width⟩ ⟨f, width⟩ := by
  obtain ⟨b, hb, i, hi, hbi⟩ := he
  obtain ⟨c, hc, j, hj, hcj⟩ := hf
  rw [← hi, ← hj]
  by_cases hbc : b = c
  · subst hbc
    refine Extent.slot_apart fun hij => hne ?_
    rw [hij] at hi
    exact congrArg Extent.start (hi.symm.trans hj)
  · exact (h.apart b hb c hc hbc).mono ((Extent.slot_within hbi).trans (h.body_within hb))
      ((Extent.slot_within hcj).trans (h.body_within hc))

theorem untouched_slot (he : Untouched header e) : Slot blocks header.elementSize e := by
  obtain ⟨b, hb, hitems, hsize⟩ := h.area
  obtain ⟨i, -, hi, rfl⟩ := he
  refine ⟨b, hb, i, ?_, ?_⟩
  · rw [hitems]
    rfl
  · exact Nat.le_trans (Nat.mul_le_mul_right _ hi) hsize

theorem header_apart {b : Extent} (hb : b ∈ blocks) (he : Slot blocks width e) :
    Extent.Apart ⟨e, width⟩ (b.head sizeofVpool) := by
  obtain ⟨c, hc, -, -, hwithin⟩ := he.exists_within
  by_cases hcb : c = b
  · subst hcb
    exact (Extent.body_apart_head c sizeofVpool).mono hwithin (Extent.Within.refl _)
  · exact (h.apart c hc b hb hcb).mono (hwithin.trans (h.body_within hc))
      (Extent.head_within (h.block b hb).2.2)

theorem slot_ne_zero (he : Slot blocks width e) : e ≠ 0 := by
  obtain ⟨b, hb, -, -, hwithin⟩ := he.exists_within
  have hpos := (h.block b hb).1
  have hstart : b.start + sizeofVpool ≤ e := hwithin.1
  omega

theorem slot_lt (he : Slot blocks width e) (hwidth : 0 < width) : e < sizeMax := by
  obtain ⟨b, hb, -, -, hwithin⟩ := he.exists_within
  have hstop : e + width ≤ b.stop := (hwithin.trans (h.body_within hb)).2
  have hmax := (h.block b hb).2.1
  omega

theorem pointer_frame (he : Slot blocks header.elementSize e)
    (hsame : ∀ i, ¬ Extent.Has ⟨e, header.elementSize⟩ i → bytes' i = bytes i)
    (hf : Slot blocks header.elementSize f) (hne : f ≠ e) {i : Nat} (hi : i < sizeofPointer) :
    bytes' (f + i) = bytes (f + i) := by
  refine hsame _ ((h.slots_apart hf he hne).not_has ?_)
  exact ⟨Nat.le_add_right _ _, Nat.add_lt_add_left (Nat.lt_of_lt_of_le hi h.width) _⟩

theorem zero_frame (he : Slot blocks header.elementSize e) (htouched : ¬ Untouched header e)
    (hsame : ∀ i, ¬ Extent.Has ⟨e, header.elementSize⟩ i → bytes' i = bytes i)
    (hf : Untouched header f) {i : Nat} (hi : Extent.Has ⟨f, header.elementSize⟩ i) :
    bytes' i = 0 := by
  have hne : f ≠ e := fun heq => htouched (heq ▸ hf)
  rw [hsame i ((h.slots_apart (h.untouched_slot hf) he hne).not_has hi)]
  exact h.zero f hf i hi

end Layout

theorem Layout.reuse (h : Layout blocks header bytes live (e :: freed)) :
    Layout blocks { header with nextFree := loadPointer bytes e }
      (memset bytes e 0 header.elementSize) (e :: live) freed := by
  have he : Slot blocks header.elementSize e := h.slot e (by simp)
  have hsame : ∀ i, ¬ Extent.Has ⟨e, header.elementSize⟩ i →
      memset bytes e 0 header.elementSize i = bytes i := fun i hi => memset_outside hi
  have hperm : (freed ++ e :: live).Perm (e :: freed ++ live) := List.perm_middle
  obtain ⟨-, -, hrest⟩ := h.linked
  generalize loadPointer bytes e = next at hrest ⊢
  refine { h with slot := ?_, nodup := ?_, touched := ?_, zero := ?_, linked := ?_ }
  · exact fun f hf => h.slot f (hperm.mem_iff.mp hf)
  · exact hperm.nodup_iff.mpr h.nodup
  · exact fun f hf hun => h.touched f (hperm.mem_iff.mp hf) ((untouched_nextFree _).mp hun)
  · exact fun f hf i hi =>
      h.zero_frame he (h.touched e (by simp)) hsame ((untouched_nextFree _).mp hf) hi
  · refine hrest.congr fun f hf i hi => ?_
    have hne : f ≠ e := fun heq => (List.nodup_cons.mp h.nodup).1 (by simp [← heq, hf])
    exact h.pointer_frame he hsame (h.slot f (by simp [hf])) hne hi

theorem Layout.bump (h : Layout blocks header bytes live freed)
    (hroom : header.stored < header.capacity) :
    Layout blocks { header with stored := header.stored + 1 } bytes
      ((header.items + header.stored * header.elementSize) :: live) freed := by
  have hnew : Untouched header (header.items + header.stored * header.elementSize) :=
    ⟨header.stored, Nat.le_refl _, hroom, rfl⟩
  have hperm : (freed ++ (header.items + header.stored * header.elementSize) :: live).Perm
      ((header.items + header.stored * header.elementSize) :: (freed ++ live)) := List.perm_middle
  have hold {f : Nat} (hf : Untouched { header with stored := header.stored + 1 } f) :
      Untouched header f := by
    obtain ⟨i, hi, hlt, rfl⟩ := hf
    exact ⟨i, Nat.le_of_succ_le hi, hlt, rfl⟩
  refine { h with stored := hroom, slot := ?_, nodup := ?_, touched := ?_, zero := ?_ }
  · intro f hf
    rcases List.mem_cons.mp (hperm.mem_iff.mp hf) with rfl | hf
    · exact h.untouched_slot hnew
    · exact h.slot f hf
  · exact hperm.nodup_iff.mpr (List.nodup_cons.mpr ⟨fun hmem => h.touched _ hmem hnew, h.nodup⟩)
  · intro f hf hun
    rcases List.mem_cons.mp (hperm.mem_iff.mp hf) with rfl | hf
    · obtain ⟨i, hi, -, heq⟩ := hun
      have hpos : 0 < header.elementSize := Nat.lt_of_lt_of_le (by decide) h.width
      have hmul := Nat.eq_of_mul_eq_mul_right hpos (Nat.add_left_cancel heq)
      have hlt : header.stored + 1 ≤ i := hi
      omega
    · exact h.touched f hf (hold hun)
  · exact fun f hf => h.zero f (hold hf)

theorem Layout.give (h : Layout blocks header bytes live freed) (hlive : e ∈ live)
    (hsame : ∀ i, ¬ Extent.Has ⟨e, header.elementSize⟩ i → bytes' i = bytes i)
    (hnext : loadPointer bytes' e = header.nextFree) :
    Layout blocks { header with nextFree := e } bytes' (live.erase e) (e :: freed) := by
  have he : Slot blocks header.elementSize e := h.slot e (by simp [hlive])
  have hperm : (e :: freed ++ live.erase e).Perm (freed ++ live) :=
    List.perm_middle.symm.trans ((List.perm_cons_erase hlive).symm.append_left freed)
  have hfreed : e ∉ freed := fun hmem => (List.nodup_append.mp h.nodup).2.2 e hmem e hlive rfl
  refine { h with slot := ?_, nodup := ?_, touched := ?_, zero := ?_, linked := ?_ }
  · exact fun f hf => h.slot f (hperm.mem_iff.mp hf)
  · exact hperm.nodup_iff.mpr h.nodup
  · exact fun f hf hun => h.touched f (hperm.mem_iff.mp hf) ((untouched_nextFree _).mp hun)
  · exact fun f hf i hi =>
      h.zero_frame he (h.touched e (by simp [hlive])) hsame ((untouched_nextFree _).mp hf) hi
  · refine ⟨rfl, h.slot_ne_zero he, ?_⟩
    rw [hnext]
    refine h.linked.congr fun f hf i hi => ?_
    exact h.pointer_frame he hsame (h.slot f (by simp [hf])) (fun heq => hfreed (heq ▸ hf)) hi

theorem Layout.swap (h : Layout blocks header bytes live freed) {b : Extent} {capacity : Nat}
    (prev : Nat) (hpos : 0 < b.start) (hstop : b.stop ≤ sizeMax) (hfresh : ∀ c ∈ blocks, c.Apart b)
    (hcapacity : 0 < capacity)
    (hsize : sizeofVpool + capacity * header.elementSize ≤ b.size) :
    Layout (b :: blocks)
      { header with
        items := b.start + sizeofVpool, stored := 0, capacity, prev }
      (memset bytes b.start 0 (sizeofVpool + capacity * header.elementSize)) live freed := by
  have hmem : blocks ⊆ b :: blocks := List.subset_cons_self b blocks
  have hblock : ∀ c ∈ b :: blocks, 0 < c.start ∧ c.stop ≤ sizeMax ∧ sizeofVpool ≤ c.size := by
    intro c hc
    rcases List.mem_cons.mp hc with rfl | hc
    · exact ⟨hpos, hstop, by omega⟩
    · exact h.block c hc
  have hinside (i : Nat) (hi : Extent.Has ⟨b.start, sizeofVpool + capacity * header.elementSize⟩ i) :
      b.Has i := Extent.Within.has (Extent.head_within hsize) hi
  have hkeep {f : Nat} (hf : Slot blocks header.elementSize f) {i : Nat}
      (hi : Extent.Has ⟨f, header.elementSize⟩ i) :
      memset bytes b.start 0 (sizeofVpool + capacity * header.elementSize) i = bytes i := by
    obtain ⟨c, hc, -, -, hwithin⟩ := hf.exists_within
    refine memset_outside fun hin => ?_
    exact (hfresh c hc).not_has ((hwithin.trans (h.body_within hc)).has hi) (hinside i hin)
  have hpointer : 0 < sizeofPointer := by decide
  refine {
    block := hblock
    apart := ?_
    width := h.width
    capacity := hcapacity
    stored := Nat.zero_le _
    area := ⟨b, List.mem_cons_self, rfl, Nat.le_sub_of_add_le' hsize⟩
    slot := fun f hf => (h.slot f hf).mono hmem
    nodup := h.nodup
    touched := ?_
    zero := ?_
    linked := ?_ }
  · intro c hc d hd hne
    rcases List.mem_cons.mp hc with rfl | hold
    · have hold := (List.mem_cons.mp hd).resolve_left hne.symm
      exact (hfresh d hold).symm
    · rcases List.mem_cons.mp hd with rfl | hold'
      · exact hfresh c hold
      · exact h.apart c hold d hold' hne
  · intro f hf hun
    obtain ⟨c, hc, -, -, hwithin⟩ := (h.slot f hf).exists_within
    have hwidth := h.width
    have hf : Extent.Has ⟨f, header.elementSize⟩ f := ⟨Nat.le_refl _, by simp only [Extent.stop]; omega⟩
    refine (hfresh c hc).not_has ((hwithin.trans (h.body_within hc)).has hf) (hinside f ?_)
    obtain ⟨hstart, hend⟩ := hun.within
    simp only [Extent.stop, Extent.Has] at *
    omega
  · intro f hf i hi
    refine memset_inside ?_
    obtain ⟨hstart, hend⟩ := hf.within.has hi
    simp only [Extent.stop, Extent.Has] at *
    omega
  · refine h.linked.congr fun f hf i hi => ?_
    refine hkeep (h.slot f (by simp [hf])) ⟨Nat.le_add_right _ _, ?_⟩
    exact Nat.add_lt_add_left (Nat.lt_of_lt_of_le hi h.width) _

theorem Layout.write (h : Layout blocks header bytes live freed)
    (hkeep : ∀ i, (∀ e ∈ live, ¬ Extent.Has ⟨e, header.elementSize⟩ i) →
      (∃ b ∈ blocks, b.Has i) → bytes' i = bytes i) :
    Layout blocks header bytes' live freed := by
  have hother {f i : Nat} (hf : Slot blocks header.elementSize f) (hlive : f ∉ live)
      (hi : Extent.Has ⟨f, header.elementSize⟩ i) : bytes' i = bytes i := by
    obtain ⟨b, hb, -, -, hwithin⟩ := hf.exists_within
    refine hkeep i (fun e he => ?_) ⟨b, hb, (hwithin.trans (h.body_within hb)).has hi⟩
    have hne : f ≠ e := fun heq => hlive (heq ▸ he)
    exact (h.slots_apart hf (h.slot e (by simp [he])) hne).not_has hi
  refine { h with zero := ?_, linked := ?_ }
  · intro f hf i hi
    have hlive : f ∉ live := fun hmem => h.touched f (by simp [hmem]) hf
    rw [hother (h.untouched_slot hf) hlive hi]
    exact h.zero f hf i hi
  · refine h.linked.congr fun f hf i hi => ?_
    have hlive : f ∉ live := fun hmem => (List.nodup_append.mp h.nodup).2.2 f hf f hmem rfl
    refine hother (h.slot f (by simp [hf])) hlive ⟨Nat.le_add_right _ _, ?_⟩
    exact Nat.add_lt_add_left (Nat.lt_of_lt_of_le hi h.width) _

end Layout

end Dert.Vpool
