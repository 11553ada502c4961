import Dert.Store.VpoolSlots

namespace Dert.Vpool

open Library

variable {memory memory' : VpoolMemory} {pool block memorySize n n' : Nat} {blocks : List Extent}
  {live freed : List Nat}

section Further

def allocMany (pool : Nat) : Nat → VpoolMemory → Option VpoolMemory
  | 0, memory => some memory
  | n + 1, memory =>
    match vpoolAlloc none 2 memory pool with
    | (_, none) => none
    | (memory, some _) => allocMany pool n memory

def Further (memory : VpoolMemory) (pool n : Nat) : Prop :=
  (allocMany pool n memory).isSome ∧ allocMany pool (n + 1) memory = none

theorem allocMany_le (hle : n ≤ n') (h : (allocMany pool n' memory).isSome) :
    (allocMany pool n memory).isSome := by
  induction n generalizing n' memory with
  | zero => rfl
  | succ n ih =>
    obtain ⟨n', rfl⟩ := Nat.exists_eq_add_of_le' (Nat.le_trans (Nat.succ_le_succ n.zero_le) hle)
    rw [allocMany] at h ⊢
    cases hcall : vpoolAlloc none 2 memory pool with
    | mk memory' answer =>
      rw [hcall] at h
      cases answer with
      | none => exact h
      | some elem => exact ih (Nat.le_of_succ_le_succ hle) h

theorem Further.unique (h : Further memory pool n) (h' : Further memory pool n') : n = n' := by
  have hnot {a b : Nat} (ha : Further memory pool a) (hb : Further memory pool b) : ¬a < b := by
    intro hlt
    have hsome := allocMany_le hlt hb.1
    rw [ha.2] at hsome
    cases hsome
  exact Nat.le_antisymm (Nat.not_lt.mp (hnot h' h)) (Nat.not_lt.mp (hnot h h'))

theorem further_succ {elem : Nat} (hcall : vpoolAlloc none 2 memory pool = (memory', some elem))
    (h : Further memory' pool n) : Further memory pool (n + 1) := by
  constructor
  · rw [allocMany, hcall]
    exact h.1
  · rw [allocMany, hcall]
    exact h.2

def room (header : Vpool) (freed : List Nat) : Nat :=
  freed.length + (header.capacity - header.stored)

theorem Layout.further (h : Layout blocks (memory.pools pool) memory.bytes live freed)
    (hkind : (memory.pools pool).kind ≠ .VPOOL_KIND_DYNAMIC) :
    Further memory pool (room (memory.pools pool) freed) := by
  generalize hn : room (memory.pools pool) freed = n
  induction n generalizing memory live freed with
  | zero =>
    have hfreed : freed = [] := List.eq_nil_of_length_eq_zero (by rw [room] at hn; omega)
    subst hfreed
    have hstored := h.stored
    have hfull : (memory.pools pool).stored = (memory.pools pool).capacity := by
      simp only [room, List.length_nil] at hn
      omega
    refine ⟨rfl, ?_⟩
    rw [allocMany, alloc_full 1 h.linked (decide_eq_true hfull) fun hdynamic =>
      absurd hdynamic hkind]
  | succ n ih =>
    cases freed with
    | cons e rest =>
      obtain ⟨hnext, hnull, -⟩ := h.linked
      have hcall : vpoolAlloc none 2 memory pool = _ := alloc_reuse none 1 (hnext ▸ hnull)
      refine further_succ hcall (@ih _ (e :: live) rest ?_ ?_ ?_)
      all_goals simp only [Function.update_self, hnext]
      · exact h.reuse
      · exact hkind
      · simp only [room, List.length_cons] at hn ⊢
        omega
    | nil =>
      have hroom : (memory.pools pool).stored < (memory.pools pool).capacity := by
        simp only [room, List.length_nil] at hn
        omega
      have hcall := alloc_bump none 1 h.linked (Nat.ne_of_lt hroom)
      let elem := (memory.pools pool).items + (memory.pools pool).stored *
        (memory.pools pool).elementSize
      refine further_succ hcall (@ih _ (elem :: live) [] ?_ ?_ ?_)
      all_goals simp only [Function.update_self]
      · exact h.bump hroom
      · exact hkind
      · simp only [room] at hn ⊢
        omega

end Further

section Extend

/-- What is asked of an extension. -/
def ExtendLaw (memory : VpoolMemory) (pool block memorySize : Nat) : Prop :=
  let answer := vpoolGuidedExtend memory pool block memorySize
  let added := sizeT (memorySize + (sizeMax - sizeofVpool)) / (memory.pools pool).elementSize
  let header := answer.1.pools pool
  answer = (memory, .EINVAL) ∨
    (memory.pools pool).kind = .VPOOL_KIND_GUIDED ∧ answer.2 = .ok ∧
      header.kind = .VPOOL_KIND_GUIDED ∧
      (∃ n, Further memory pool n ∧ Further answer.1 pool (n + added)) ∧
      (∀ i < header.capacity, Extent.Within
        ⟨header.items + i * header.elementSize, header.elementSize⟩ ⟨block, memorySize⟩) ∧
      ∀ i, ¬Extent.Has ⟨block, memorySize⟩ i → answer.1.bytes i = memory.bytes i

def Extends (header : Vpool) (block memorySize : Nat) : Prop :=
  block = 0 ∨ header.kind = .VPOOL_KIND_STATIC ∨
    sizeofVpool ≤ memorySize ∧ (memorySize < sizeofVpool + header.elementSize ∨
      header.kind = .VPOOL_KIND_GUIDED ∧ header.stored = header.capacity)

theorem extend_refused (h : block = 0 ∨ (memory.pools pool).kind = .VPOOL_KIND_STATIC) :
    vpoolGuidedExtend memory pool block memorySize = (memory, .EINVAL) := by
  rw [vpoolGuidedExtend, if_pos (.inr h)]

theorem extend_short
    (hadded : sizeT (memorySize + (sizeMax - sizeofVpool)) / (memory.pools pool).elementSize = 0) :
    vpoolGuidedExtend memory pool block memorySize = (memory, .EINVAL) := by
  have hinit : _vpoolInit memory block
      (sizeT (memorySize + (sizeMax - sizeofVpool)) / (memory.pools pool).elementSize)
      (memory.pools pool).elementSize .VPOOL_KIND_GUIDED block = (memory, .EINVAL) :=
    if_pos (.inl hadded)
  rw [vpoolGuidedExtend]
  split_ifs
  · rfl
  · simp only [hinit]

theorem extend_header (hpool : pool ≠ 0) (hblock : block ≠ 0)
    (hkind : (memory.pools pool).kind ≠ .VPOOL_KIND_STATIC)
    (hwidth : sizeofPointer ≤ (memory.pools pool).elementSize)
    (hadded : 0 < sizeT (memorySize + (sizeMax - sizeofVpool)) / (memory.pools pool).elementSize) :
    (vpoolGuidedExtend memory pool block memorySize).2 = .ok ∧
      ((vpoolGuidedExtend memory pool block memorySize).1.pools pool).items = block + sizeofVpool ∧
      ((vpoolGuidedExtend memory pool block memorySize).1.pools pool).capacity
        = sizeT (memorySize + (sizeMax - sizeofVpool)) / (memory.pools pool).elementSize := by
  have hinit := init_eq memory block block .VPOOL_KIND_GUIDED hadded hwidth (Or.inl (by decide))
  have hstatic : ¬ (pool = 0 ∨ block = 0 ∨ (memory.pools pool).kind = .VPOOL_KIND_STATIC) := by
    simp [hpool, hblock, hkind]
  rw [vpoolGuidedExtend, if_neg hstatic]
  simp only [hinit]
  by_cases hne : pool = block
  · subst hne
    simp
  · simp [Function.update_of_ne hne]

theorem Layout.pool_ne_zero (h : Layout blocks (memory.pools pool) memory.bytes live freed)
    (hhome : ∃ b ∈ blocks, b.start = pool) : pool ≠ 0 := by
  obtain ⟨b, hb, rfl⟩ := hhome
  exact Nat.ne_of_gt (h.block b hb).1

theorem Layout.fresh_ne (h : Layout blocks (memory.pools pool) memory.bytes live freed)
    (hhome : ∃ b ∈ blocks, b.start = pool) (hfresh : Fresh blocks ⟨block, memorySize⟩)
    (hleast : sizeofVpool ≤ memorySize) : block ≠ pool := by
  obtain ⟨c, hc, rfl⟩ := hhome
  have hapart := hfresh.2.2 c hc
  have hsize := (h.block c hc).2.2
  have hpos : 0 < sizeofVpool := by decide
  simp only [Extent.Apart, Extent.stop] at hapart
  omega

theorem Layout.width_lt (h : Layout blocks (memory.pools pool) memory.bytes live freed) :
    sizeofVpool + (memory.pools pool).elementSize < sizeMax := by
  obtain ⟨b, hb, -, harea⟩ := h.area
  obtain ⟨hpos, hstop, hleast⟩ := h.block b hb
  have hone := Nat.mul_le_mul_right (memory.pools pool).elementSize h.capacity
  rw [Nat.succ_mul, Nat.zero_mul, Nat.zero_add] at hone
  simp only [Extent.stop] at hstop
  omega

theorem Layout.extended (h : Layout blocks (memory.pools pool) memory.bytes live freed)
    (hhome : ∃ b ∈ blocks, b.start = pool) (hfresh : Fresh blocks ⟨block, memorySize⟩)
    (hkind : (memory.pools pool).kind = .VPOOL_KIND_GUIDED)
    (hleast : sizeofVpool + (memory.pools pool).elementSize ≤ memorySize)
    (hsize : memorySize < sizeMax) :
    vpoolGuidedExtend memory pool block memorySize =
        (swapped memory pool block ((memorySize - sizeofVpool) / (memory.pools pool).elementSize),
          .ok) ∧
      Further (vpoolGuidedExtend memory pool block memorySize).1 pool
        (freed.length + (memorySize - sizeofVpool) / (memory.pools pool).elementSize) := by
  have hwidth := h.width
  have hpool := h.pool_ne_zero hhome
  have hne : block ≠ pool := h.fresh_ne hhome hfresh (Nat.le_of_add_right_le hleast)
  have hpos : 0 < (memorySize - sizeofVpool) / (memory.pools pool).elementSize :=
    Nat.div_pos (by omega) (Nat.lt_of_lt_of_le (by decide) hwidth)
  have hmul := Nat.div_mul_le_self (memorySize - sizeofVpool) (memory.pools pool).elementSize
  have heq := guidedExtend_eq hpool (Nat.ne_of_gt hfresh.1) hne hkind hwidth hleast hsize
  refine ⟨heq, ?_⟩
  rw [heq]
  generalize (memorySize - sizeofVpool) / (memory.pools pool).elementSize = added at *
  have hlayout := h.swap block hfresh.1 hfresh.2.1 hfresh.2.2 hpos
    (show sizeofVpool + added * (memory.pools pool).elementSize ≤ memorySize by omega)
  have hheader := swapped_pool memory added hne
  have hbytes : (swapped memory pool block added).bytes
      = memset memory.bytes block 0 (sizeofVpool + added * (memory.pools pool).elementSize) := by
    rw [swapped, advise_eq hwidth (by omega)]
  rw [← hbytes, ← hheader] at hlayout
  have hfurther := hlayout.further (by rw [hheader, hkind]; decide)
  rwa [hheader] at hfurther

theorem Layout.extends_full (h : Layout blocks (memory.pools pool) memory.bytes live freed)
    (hhome : ∃ b ∈ blocks, b.start = pool) (hfresh : Fresh blocks ⟨block, memorySize⟩)
    (hkind : (memory.pools pool).kind = .VPOOL_KIND_GUIDED)
    (hleast : sizeofVpool + (memory.pools pool).elementSize ≤ memorySize)
    (hsize : memorySize < sizeMax)
    (hfull : (memory.pools pool).stored = (memory.pools pool).capacity) :
    ExtendLaw memory pool block memorySize := by
  have hadded : sizeT (memorySize + (sizeMax - sizeofVpool)) = memorySize - sizeofVpool :=
    sizeT_sub (by omega) hsize
  have hne : block ≠ pool := h.fresh_ne hhome hfresh (Nat.le_of_add_right_le hleast)
  have hmul := Nat.div_mul_le_self (memorySize - sizeofVpool) (memory.pools pool).elementSize
  have hbefore : Further memory pool freed.length := by
    have hfurther := h.further (by rw [hkind]; decide)
    rwa [room, hfull, Nat.sub_self, Nat.add_zero] at hfurther
  obtain ⟨heq, hafter⟩ := h.extended hhome hfresh hkind hleast hsize
  have hheader := swapped_pool memory
    ((memorySize - sizeofVpool) / (memory.pools pool).elementSize) hne
  rw [ExtendLaw, hadded]
  rw [heq] at hafter ⊢
  refine .inr ⟨hkind, rfl, ?_, ⟨_, hbefore, hafter⟩, ?_, fun i hi => memset_outside fun hhas => ?_⟩
  · rw [hheader, hkind]
  · rw [hheader]
    intro i hi
    dsimp only at hi
    have hend := Nat.mul_le_mul_right (memory.pools pool).elementSize (Nat.succ_le_of_lt hi)
    rw [Nat.succ_mul] at hend
    simp only [Extent.Within, Extent.stop]
    omega
  · refine hi (Extent.Within.has ?_ hhas)
    rw [advise_eq h.width (by omega)]
    simp only [Extent.Within, Extent.stop]
    omega

theorem Layout.extends_only (h : Layout blocks (memory.pools pool) memory.bytes live freed)
    (hhome : ∃ b ∈ blocks, b.start = pool) (hfresh : Fresh blocks ⟨block, memorySize⟩)
    (hsize : memorySize < sizeMax) (hlaw : ExtendLaw memory pool block memorySize)
    (hstatic : (memory.pools pool).kind ≠ .VPOOL_KIND_STATIC)
    (hadded : 0 < sizeT (memorySize + (sizeMax - sizeofVpool)) / (memory.pools pool).elementSize) :
    sizeofVpool ≤ memorySize ∧ (memory.pools pool).kind = .VPOOL_KIND_GUIDED ∧
      (memory.pools pool).stored = (memory.pools pool).capacity := by
  have hpool := h.pool_ne_zero hhome
  obtain ⟨hok, hitems, hcapacity⟩ :=
    extend_header hpool (Nat.ne_of_gt hfresh.1) hstatic h.width hadded
  rcases hlaw with hrefused | ⟨hkind, -, -, ⟨n, hbefore, hafter⟩, hslots, -⟩
  · rw [hrefused] at hok
    cases hok
  have hfirst := (hslots 0 (hcapacity ▸ hadded)).2
  rw [hitems] at hfirst
  simp only [Extent.stop, Nat.zero_mul] at hfirst
  have hleast : sizeofVpool ≤ memorySize := by omega
  refine ⟨hleast, hkind, ?_⟩
  have hitems : sizeT (memorySize + (sizeMax - sizeofVpool)) = memorySize - sizeofVpool :=
    sizeT_sub hleast hsize
  rw [hitems] at hadded hafter
  have hfits : (memory.pools pool).elementSize ≤ memorySize - sizeofVpool :=
    Nat.le_of_not_lt fun hlt => Nat.ne_of_gt hadded (Nat.div_eq_of_lt hlt)
  obtain ⟨-, hextended⟩ := h.extended hhome hfresh hkind (by omega) hsize
  have hsame := hafter.unique hextended
  have hroom := hbefore.unique (h.further (by rw [hkind]; decide))
  have hstored := h.stored
  rw [room] at hroom
  omega

/-- The subtraction wraps around below the size of a header. -/
theorem added_eq_zero {width : Nat} (hpos : 0 < width) (hwidth : sizeofVpool + width < sizeMax)
    (hsize : memorySize < sizeMax) :
    sizeT (memorySize + (sizeMax - sizeofVpool)) / width = 0 ↔
      sizeofVpool ≤ memorySize ∧ memorySize < sizeofVpool + width := by
  have hzero (k : Nat) : k / width = 0 ↔ k < width :=
    Nat.div_eq_zero_iff.trans (or_iff_right (Nat.ne_of_gt hpos))
  rw [hzero]
  rcases Nat.lt_or_ge memorySize sizeofVpool with hless | hleast
  · rw [sizeT_of_lt (by omega)]
    omega
  · rw [sizeT_sub hleast hsize]
    omega

/-- An extension obeys its law where it is refused, and where it extends a full guided pool by a
block that has room for the header. -/
theorem extendLaw_iff (h : Layout blocks (memory.pools pool) memory.bytes live freed)
    (hhome : ∃ b ∈ blocks, b.start = pool)
    (hblock : block = 0 ∨ Fresh blocks ⟨block, memorySize⟩) (hsize : memorySize < sizeMax) :
    ExtendLaw memory pool block memorySize ↔
      Extends (memory.pools pool) block memorySize := by
  by_cases hrefused : block = 0 ∨ (memory.pools pool).kind = .VPOOL_KIND_STATIC
  · refine iff_of_true (.inl (extend_refused hrefused)) ?_
    exact hrefused.imp_right .inl
  obtain ⟨hnull, hstatic⟩ := not_or.mp hrefused
  have hfresh := hblock.resolve_left hnull
  have hwidth := h.width_lt
  have hpos : 0 < (memory.pools pool).elementSize := Nat.lt_of_lt_of_le (by decide) h.width
  constructor
  · intro hlaw
    refine .inr (.inr ?_)
    rcases Nat.eq_zero_or_pos
      (sizeT (memorySize + (sizeMax - sizeofVpool)) / (memory.pools pool).elementSize) with
      hzero | hadded
    · obtain ⟨hleast, hshort⟩ := (added_eq_zero hpos hwidth hsize).mp hzero
      exact ⟨hleast, .inl hshort⟩
    · obtain ⟨hleast, hkind, hfull⟩ := h.extends_only hhome hfresh hsize hlaw hstatic hadded
      exact ⟨hleast, .inr ⟨hkind, hfull⟩⟩
  · rintro (hzero | hkind | ⟨hleast, hextends⟩)
    · exact absurd hzero hnull
    · exact absurd hkind hstatic
    rcases Nat.lt_or_ge memorySize (sizeofVpool + (memory.pools pool).elementSize) with
      hshort | hlong
    · exact .inl (extend_short ((added_eq_zero hpos hwidth hsize).mpr ⟨hleast, hshort⟩))
    · obtain ⟨hkind, hfull⟩ := hextends.resolve_left (Nat.not_lt.mpr hlong)
      exact h.extends_full hhome hfresh hkind hlong hsize hfull

def guided : State :=
  ⟨(vpoolCreate (some 4096) ⟨fun _ => ⟨0, 0, 0, 0, 0, .VPOOL_KIND_STATIC, 0⟩, fun _ => 7⟩ 1 8
    .VPOOL_KIND_GUIDED).1, [⟨4096, 64⟩], [], []⟩

def guidedFull : State := allocate 4096 guided none

theorem inv_guided : Inv 1 8 .VPOOL_KIND_GUIDED 4096 guided :=
  inv_init (by decide) ⟨by decide, ⟨_, rfl⟩, rfl, rfl, rfl⟩

theorem inv_guidedFull : Inv 1 8 .VPOOL_KIND_GUIDED 4096 guidedFull :=
  (inv_guided.allocate_none (by decide)).1

theorem extendLaw_guidedFull : ExtendLaw guidedFull.memory 4096 8192 72 :=
  (extendLaw_iff inv_guidedFull.layout inv_guidedFull.home (.inr (by decide)) (by decide)).mpr
    (.inr (.inr ⟨by decide, .inr ⟨rfl, rfl⟩⟩))

/-- The block is smaller than a header. -/
theorem not_extendLaw_short :
    (guided.memory.pools 4096).kind = .VPOOL_KIND_GUIDED ∧ Fresh guided.blocks ⟨8192, 8⟩ ∧
      ¬ExtendLaw guided.memory 4096 8192 8 := by
  refine ⟨rfl, by decide, fun hlaw => ?_⟩
  have hleast := inv_guided.layout.extends_only inv_guided.home
    (show Fresh guided.blocks ⟨8192, 8⟩ by decide) (by decide) hlaw (by decide) (by decide)
  exact absurd hleast.1 (by decide)

end Extend

section Full

def Predicts (memory : VpoolMemory) (pool : Nat) : Prop :=
  if (memory.pools pool).kind = .VPOOL_KIND_DYNAMIC then vpoolFull (memory.pools pool) = false
  else
    ∀ calloc, vpoolFull (memory.pools pool) = true ↔ (vpoolAlloc calloc 2 memory pool).2 = none

inductive PoolCall
  | alloc (calloc : Option Nat)
  | dealloc (elem : Nat)
  | extend (block memorySize : Nat)

def poolCall (pool : Nat) (memory : VpoolMemory) : PoolCall → VpoolMemory
  | .alloc calloc => (vpoolAlloc calloc 2 memory pool).1
  | .dealloc elem => (vpoolDealloc memory pool elem).1
  | .extend block memorySize => (vpoolGuidedExtend memory pool block memorySize).1

def calls (numItems elemSize : Nat) (kind : VpoolKind) (pool : Nat) :
    Machine VpoolMemory PoolCall where
  init memory := pool ≠ 0 ∧ ∃ before,
    vpoolCreate (some pool) before numItems elemSize kind = (memory, some pool)
  step memory c := some (poolCall pool memory c)

/-- The call gives an element back to a full pool, or takes the last one of a dynamic block. -/
def Misleads (pool : Nat) (memory : VpoolMemory) : PoolCall → Prop
  | .alloc _ => (memory.pools pool).kind = .VPOOL_KIND_DYNAMIC ∧
      (memory.pools pool).nextFree = 0 ∧
      (memory.pools pool).stored + 1 = (memory.pools pool).capacity
  | .dealloc elem => elem ≠ 0 ∧ (memory.pools pool).stored = (memory.pools pool).capacity
  | .extend _ _ => False

theorem predicts_iff : Predicts memory pool ↔
    ((memory.pools pool).stored = (memory.pools pool).capacity →
      (memory.pools pool).nextFree = 0 ∧ (memory.pools pool).kind ≠ .VPOOL_KIND_DYNAMIC) := by
  rw [Predicts]
  split_ifs with hkind
  · simp [vpoolFull, hkind]
  · constructor
    · intro h hfull
      refine ⟨by_contra fun hnext => ?_, hkind⟩
      have hnone := (h none).mp (decide_eq_true hfull)
      rw [alloc_reuse none 1 hnext] at hnone
      cases hnone
    · intro h calloc
      constructor
      · intro hfull
        obtain ⟨hnext, -⟩ := h (of_decide_eq_true hfull)
        rw [alloc_full 1 hnext hfull fun hdynamic => absurd hdynamic hkind]
      · intro hnone
        by_contra hfull
        have hroom : (memory.pools pool).stored ≠ (memory.pools pool).capacity :=
          fun heq => hfull (decide_eq_true heq)
        by_cases hnext : (memory.pools pool).nextFree = 0
        · rw [alloc_bump calloc 1 hnext hroom] at hnone
          cases hnone
        · rw [alloc_reuse calloc 1 hnext] at hnone
          cases hnone

theorem init_cases (memory : VpoolMemory) (block numItems elemSize : Nat) (kind : VpoolKind)
    (prev : Nat) :
    _vpoolInit memory block numItems elemSize kind prev = (memory, .EINVAL) ∨
      numItems ≠ 0 ∧ ∃ header bytes, header.stored = 0 ∧ header.capacity = numItems ∧
        _vpoolInit memory block numItems elemSize kind prev
          = ({ pools := Function.update memory.pools block header, bytes }, .ok) := by
  rw [_vpoolInit]
  split_ifs with hinit
  · exact .inl rfl
  · exact .inr ⟨fun hzero => hinit (.inl hzero), _, _, rfl, rfl, rfl⟩
  · exact .inr ⟨fun hzero => hinit (.inl hzero), _, _, rfl, rfl, rfl⟩

theorem extend_cases (memory : VpoolMemory) (pool block memorySize : Nat) :
    (vpoolGuidedExtend memory pool block memorySize).1 = memory ∨
      ((vpoolGuidedExtend memory pool block memorySize).1.pools pool).stored
        ≠ ((vpoolGuidedExtend memory pool block memorySize).1.pools pool).capacity := by
  by_cases hrefused : pool = 0 ∨ block = 0 ∨ (memory.pools pool).kind = .VPOOL_KIND_STATIC
  · rw [vpoolGuidedExtend, if_pos hrefused]
    exact .inl rfl
  rw [vpoolGuidedExtend, if_neg hrefused]
  rcases init_cases memory block
    (sizeT (memorySize + (sizeMax - sizeofVpool)) / (memory.pools pool).elementSize)
    (memory.pools pool).elementSize .VPOOL_KIND_GUIDED block with
    hinit | ⟨hadded, header, bytes, hstored, hcapacity, hinit⟩
  · simp only [hinit, true_or]
  · simp only [hinit]
    refine .inr ?_
    by_cases hne : pool = block
    · subst hne
      simpa [hstored, hcapacity] using hadded.symm
    · simpa [Function.update_of_ne hne, hstored, hcapacity] using hadded.symm

theorem predicts_call (hpool : pool ≠ 0) (h : Predicts memory pool) (c : PoolCall) :
    Predicts (poolCall pool memory c) pool ↔ ¬Misleads pool memory c := by
  have hfull := predicts_iff.mp h
  rw [predicts_iff]
  cases c with
  | alloc calloc =>
    simp only [poolCall, Misleads]
    by_cases hnext : (memory.pools pool).nextFree = 0
    · by_cases hstored : (memory.pools pool).stored = (memory.pools pool).capacity
      · obtain ⟨-, hkind⟩ := hfull hstored
        rw [alloc_full 1 hnext (decide_eq_true hstored) fun hdynamic => absurd hdynamic hkind]
        simp [hnext, hkind]
      · rw [alloc_bump calloc 1 hnext hstored]
        simp only [Function.update_self, hnext]
        tauto
    · have hroom : (memory.pools pool).stored ≠ (memory.pools pool).capacity :=
        fun heq => hnext (hfull heq).1
      rw [alloc_reuse calloc 1 hnext]
      simp [hnext, hroom]
  | dealloc elem =>
    simp only [poolCall, Misleads]
    by_cases helem : elem = 0
    · rw [vpoolDealloc, if_pos (.inr helem)]
      simpa [helem] using hfull
    · rw [dealloc_eq hpool helem]
      simp [helem]
  | extend block memorySize =>
    refine iff_of_true ?_ not_false
    rcases extend_cases memory pool block memorySize with hsame | hroom
    · rw [poolCall, hsame]
      exact hfull
    · exact fun heq => absurd heq hroom

/-- `vpool_full` predicts the next allocation in every state of a run exactly when no call of the
run misleads it. -/
theorem predicts_run_iff {numItems elemSize : Nat} {kind : VpoolKind}
    {tr : List (VpoolMemory × PoolCall)}
    (hr : (calls numItems elemSize kind pool).Run tr memory) :
    (∀ x, Machine.Visits tr memory x → Predicts x pool) ↔
      ∀ p ∈ tr, ¬Misleads pool p.1 p.2 := by
  refine hr.visited_iff (I := fun x => pool ≠ 0 ∧ Predicts x pool)
    (G := fun x c => ¬Misleads pool x c) ?_ ?_ (fun x hx => hx.2) ?_
  · rintro x ⟨hpool, before, hcreate⟩
    obtain ⟨hitems, rfl⟩ := create_eq hcreate
    refine ⟨hpool, predicts_iff.mpr fun hfull => ?_⟩
    simp only [Function.update_self] at hfull
    omega
  · rintro x c x' ⟨hpool, hx⟩ hc hstep
    obtain rfl := Option.some.inj hstep
    exact ⟨hpool, (predicts_call hpool hx c).mpr hc⟩
  · rintro x c x' ⟨hpool, hx⟩ hc hstep hx'
    obtain rfl := Option.some.inj hstep
    exact hc ((predicts_call hpool hx c).mp hx')

def taken : List (VpoolMemory × PoolCall) := [(guided.memory, .alloc none)]

theorem taken_run : (calls 1 8 .VPOOL_KIND_GUIDED 4096).Run taken guidedFull.memory :=
  .next (.start ⟨by decide, _, rfl⟩) rfl

theorem predicts_run_taken : (calls 1 8 .VPOOL_KIND_GUIDED 4096).Run taken guidedFull.memory ∧
    ∀ x, Machine.Visits taken guidedFull.memory x → Predicts x 4096 :=
  ⟨taken_run, (predicts_run_iff taken_run).mpr
    (List.forall_mem_singleton.mpr fun h => absurd h.1 (by decide))⟩

/-- The only element is handed out and given back, so that the pool is full and can allocate. -/
theorem not_predicts_givenBack :
    (calls 1 8 .VPOOL_KIND_GUIDED 4096).Run ((guidedFull.memory, .dealloc 4152) :: taken)
        (vpoolDealloc guidedFull.memory 4096 4152).1 ∧
      ¬Predicts (vpoolDealloc guidedFull.memory 4096 4152).1 4096 := by
  refine ⟨taken_run.next rfl, fun h => ?_⟩
  have hnext := (predicts_iff.mp h rfl).1
  exact absurd hnext (by decide)

end Full

end Dert.Vpool
