import Dert.Library.Machine
import Dert.Store.VpoolLaws

namespace Dert.Vpool

open Library

/-- A pool and its owners: the blocks the pool is made of, the elements they hold, and
the elements they have given back, newest first. -/
structure State where
  memory : VpoolMemory
  blocks : List Extent
  live : List Nat
  freed : List Nat

inductive Label
  | alloc (calloc : Option Nat)
  | dealloc (elem : Nat)
  | extend (block memorySize : Nat)
  | write (i : Nat) (value : UInt8)

def Fresh (blocks : List Extent) (b : Extent) : Prop :=
  0 < b.start ∧ b.stop ≤ sizeMax ∧ ∀ c ∈ blocks, c.Apart b

instance (blocks : List Extent) (b : Extent) : Decidable (Fresh blocks b) :=
  inferInstanceAs (Decidable (_ ∧ _ ∧ _))

def State.elem (s : State) (pool e : Nat) : Extent := ⟨e, (s.memory.pools pool).elementSize⟩

def State.granted (s : State) (pool : Nat) (calloc : Option Nat) : List Extent :=
  if Grows s.memory pool then calloc.toList.map fun b => ⟨b, requested s.memory pool⟩ else []

def allocate (pool : Nat) (s : State) (calloc : Option Nat) : State :=
  let answer := vpoolAlloc calloc 2 s.memory pool
  { memory := answer.1
    blocks := if answer.2.isSome then s.granted pool calloc ++ s.blocks else s.blocks
    live := answer.2.toList ++ s.live
    freed := answer.2.elim s.freed s.freed.erase }

def deallocate (pool : Nat) (s : State) (elem : Nat) : State :=
  { s with
    memory := (vpoolDealloc s.memory pool elem).1
    live := s.live.erase elem
    freed := elem :: s.freed }

def extend (pool : Nat) (s : State) (block memorySize : Nat) : State :=
  { s with
    memory := (vpoolGuidedExtend s.memory pool block memorySize).1
    blocks := ⟨block, memorySize⟩ :: s.blocks }

def write (s : State) (i : Nat) (value : UInt8) : State :=
  { s with memory := { s.memory with bytes := Function.update s.memory.bytes i value } }

/-- The caller writes to the elements it holds, and outside of the pool. -/
def Writable (pool : Nat) (s : State) (i : Nat) : Prop :=
  (∃ e ∈ s.live, (s.elem pool e).Has i) ∨ ∀ b ∈ s.blocks, ¬ b.Has i

instance (pool : Nat) (s : State) (i : Nat) : Decidable (Writable pool s i) :=
  inferInstanceAs (Decidable (_ ∨ _))

def step (pool : Nat) (s : State) : Label → Option State
  | .alloc calloc =>
    if ∀ b ∈ s.granted pool calloc, Fresh s.blocks b then some (allocate pool s calloc) else none
  | .dealloc elem => if elem ∈ s.live then some (deallocate pool s elem) else none
  | .extend block memorySize =>
    if (s.memory.pools pool).kind = .VPOOL_KIND_GUIDED ∧
        sizeofVpool + (s.memory.pools pool).elementSize ≤ memorySize ∧
        Fresh s.blocks ⟨block, memorySize⟩ then
      some (extend pool s block memorySize)
    else none
  | .write i value => if Writable pool s i then some (write s i value) else none

def machine (numItems elemSize : Nat) (kind : VpoolKind) (pool : Nat) : Machine State Label where
  init s := Fresh [] ⟨pool, vpoolAdvise numItems elemSize⟩ ∧
    (∃ memory, vpoolCreate (some pool) memory numItems elemSize kind = (s.memory, some pool)) ∧
    s.blocks = [⟨pool, vpoolAdvise numItems elemSize⟩] ∧ s.live = [] ∧ s.freed = []
  step := step pool

structure Sound (elemSize pool : Nat) (s : State) : Prop where
  width : elemSize ≤ (s.memory.pools pool).elementSize
  apart : s.live.Pairwise fun e f => (s.elem pool e).Apart (s.elem pool f)
  slot : ∀ e ∈ s.live, ∃ b ∈ s.blocks, ∃ i,
    s.elem pool e = (b.body sizeofVpool).slot (s.memory.pools pool).elementSize i ∧
      (s.elem pool e).Within (b.body sizeofVpool)
  header : ∀ e ∈ s.live, ∀ b ∈ s.blocks, (s.elem pool e).Apart (b.head sizeofVpool)
  free : ∀ e ∈ s.live, ∀ n, ∀ f ∈ vpoolFreeList s.memory.bytes n (s.memory.pools pool).nextFree,
    (s.elem pool e).Apart (s.elem pool f)

structure AllocLaw (numItems : Nat) (kind : VpoolKind) (pool : Nat) (s : State)
    (calloc : Option Nat) : Prop where
  zeroed : ∀ e, (vpoolAlloc calloc 2 s.memory pool).2 = some e →
    ∀ i, (s.elem pool e).Has i → (vpoolAlloc calloc 2 s.memory pool).1.bytes i = 0
  newest : ∀ e, s.freed.head? = some e → (vpoolAlloc calloc 2 s.memory pool).2 = some e
  static : kind = .VPOOL_KIND_STATIC →
    ((vpoolAlloc calloc 2 s.memory pool).2 = none ↔ s.live.length = numItems)
  dynamic : kind = .VPOOL_KIND_DYNAMIC → (vpoolAlloc calloc 2 s.memory pool).2 = none →
    Grows s.memory pool ∧ calloc = none ∧ (vpoolAlloc calloc 2 s.memory pool).1 = s.memory

def Advised (pool : Nat) (s : State) : Label → Prop
  | .alloc calloc => Grows s.memory pool → calloc ≠ none →
    sizeofVpool + 2 * (s.memory.pools pool).capacity * (s.memory.pools pool).elementSize < sizeMax
  | _ => True

instance (pool : Nat) (s : State) (l : Label) : Decidable (Advised pool s l) := by
  cases l with
  | alloc calloc => exact inferInstanceAs (Decidable (_ → _ → _))
  | dealloc elem => exact inferInstanceAs (Decidable True)
  | extend block memorySize => exact inferInstanceAs (Decidable True)
  | write i value => exact inferInstanceAs (Decidable True)

variable {numItems elemSize pool : Nat} {kind : VpoolKind} {s s' : State} {calloc : Option Nat}

structure Inv (numItems elemSize : Nat) (kind : VpoolKind) (pool : Nat) (s : State) : Prop where
  layout : Layout s.blocks (s.memory.pools pool) s.memory.bytes s.live s.freed
  home : ∃ b ∈ s.blocks, b.start = pool
  width : elemSize ≤ (s.memory.pools pool).elementSize
  ofKind : (s.memory.pools pool).kind = kind
  static : kind = .VPOOL_KIND_STATIC → (s.memory.pools pool).capacity = numItems ∧
    (s.memory.pools pool).stored = s.freed.length + s.live.length

namespace Inv

variable (h : Inv numItems elemSize kind pool s)
include h

theorem sound : Sound elemSize pool s where
  width := h.width
  apart := by
    have hlive := (List.nodup_append.mp h.layout.nodup).2.1
    refine hlive.imp_of_mem fun he hf hne => ?_
    exact h.layout.slots_apart (h.layout.slot _ (by simp [he])) (h.layout.slot _ (by simp [hf])) hne
  slot e he := by
    obtain ⟨b, hb, i, hi, hwithin⟩ := (h.layout.slot e (by simp [he])).exists_within
    exact ⟨b, hb, i, hi.symm, hwithin⟩
  header e he b hb := h.layout.header_apart hb (h.layout.slot e (by simp [he]))
  free e he n f hf := by
    rw [h.layout.linked.freeList] at hf
    have hf := List.mem_of_mem_take hf
    have hne : e ≠ f := fun heq =>
      (List.nodup_append.mp h.layout.nodup).2.2 f hf e he heq.symm
    exact h.layout.slots_apart (h.layout.slot e (by simp [he])) (h.layout.slot f (by simp [hf])) hne

theorem pool_ne_zero : pool ≠ 0 := by
  obtain ⟨b, hb, rfl⟩ := h.home
  exact Nat.ne_of_gt (h.layout.block b hb).1

theorem fresh_ne {b : Extent} (hb : Fresh s.blocks b) (hsize : sizeofVpool ≤ b.size) :
    b.start ≠ pool := by
  obtain ⟨c, hc, rfl⟩ := h.home
  have hapart := hb.2.2 c hc
  have hleast := (h.layout.block c hc).2.2
  have hpos : 0 < sizeofVpool := by decide
  simp only [Extent.Apart, Extent.stop] at hapart
  omega

theorem swap {b : Extent} {capacity : Nat} (hb : Fresh s.blocks b) (hcapacity : 0 < capacity)
    (hsize : sizeofVpool + capacity * (s.memory.pools pool).elementSize ≤ b.size)
    (hstatic : kind ≠ .VPOOL_KIND_STATIC) :
    Inv numItems elemSize kind pool
      { s with memory := swapped s.memory pool b.start capacity, blocks := b :: s.blocks } := by
  have hne : b.start ≠ pool := h.fresh_ne hb (Nat.le_of_add_right_le hsize)
  obtain ⟨hpos, hstop, hfresh⟩ := hb
  have hmax : sizeofVpool + capacity * (s.memory.pools pool).elementSize < sizeMax := by
    simp only [Extent.stop] at hstop
    omega
  have hlayout := h.layout.swap b.start hpos hstop hfresh hcapacity hsize
  rw [← advise_eq h.layout.width hmax] at hlayout
  have hpool := swapped_pool s.memory capacity hne
  refine ⟨?_, ?_, ?_, ?_, fun hkind => absurd hkind hstatic⟩
  · rw [hpool]
    exact hlayout
  · exact h.home.imp fun c hc => ⟨List.mem_cons_of_mem _ hc.1, hc.2⟩
  · rw [hpool]
    exact h.width
  · rw [hpool]
    exact h.ofKind

theorem reuse {e : Nat} {rest : List Nat} (calloc : Option Nat) (hfreed : s.freed = e :: rest) :
    Inv numItems elemSize kind pool (allocate pool s calloc) ∧
      AllocLaw numItems kind pool s calloc := by
  have hlayout := h.layout
  rw [hfreed] at hlayout
  obtain ⟨hnext, hnull, -⟩ := hlayout.linked
  have hnext : (s.memory.pools pool).nextFree = e := hnext
  have hgrows : ¬ Grows s.memory pool := fun hg => hnull (hnext ▸ hg.1)
  have halloc := alloc_reuse calloc 1 (by rw [hnext]; exact hnull)
  rw [hnext] at halloc
  constructor
  · refine ⟨?_, ?_, ?_, ?_, ?_⟩
    all_goals simp only [allocate, halloc, State.granted, if_neg hgrows, hfreed,
      Function.update_self, Option.isSome_some, if_true, List.nil_append, Option.toList_some,
      List.singleton_append, Option.elim_some, List.erase_cons_head]
    · exact hlayout.reuse
    · exact h.home
    · exact h.width
    · exact h.ofKind
    · intro hkind
      obtain ⟨hcapacity, hstored⟩ := h.static hkind
      rw [hfreed] at hstored
      refine ⟨hcapacity, hstored.trans ?_⟩
      simp only [List.length_cons]
      omega
  · refine ⟨?_, ?_, fun hkind => ?_, fun _ hnone => ?_⟩
    · rintro _ heq i hi
      rw [halloc] at heq ⊢
      obtain rfl := Option.some.inj heq
      exact memset_inside hi
    · rintro _ heq
      rw [hfreed] at heq
      rw [halloc, ← heq]
      rfl
    · obtain ⟨hcapacity, hstored⟩ := h.static hkind
      have hle := h.layout.stored
      rw [hfreed, List.length_cons] at hstored
      rw [halloc]
      refine iff_of_false nofun ?_
      omega
    · rw [halloc] at hnone
      cases hnone

theorem next_null (hfreed : s.freed = []) : (s.memory.pools pool).nextFree = 0 := by
  have hlinked := h.layout.linked
  rw [hfreed] at hlinked
  exact hlinked

theorem bumped (hroom : (s.memory.pools pool).stored < (s.memory.pools pool).capacity) :
    Inv numItems elemSize kind pool
      { s with
        memory := { s.memory with
          pools := Function.update s.memory.pools pool
            { s.memory.pools pool with stored := (s.memory.pools pool).stored + 1 } }
        live := ((s.memory.pools pool).items + (s.memory.pools pool).stored * (s.memory.pools pool).elementSize) ::
          s.live } := by
  refine ⟨?_, ?_, ?_, ?_, ?_⟩
  all_goals simp only [Function.update_self]
  · exact h.layout.bump hroom
  · exact h.home
  · exact h.width
  · exact h.ofKind
  · intro hkind
    obtain ⟨hcapacity, hstored⟩ := h.static hkind
    exact ⟨hcapacity, congrArg (· + 1) hstored⟩

theorem bump (calloc : Option Nat) (hfreed : s.freed = [])
    (hroom : (s.memory.pools pool).stored < (s.memory.pools pool).capacity) :
    Inv numItems elemSize kind pool (allocate pool s calloc) ∧
      AllocLaw numItems kind pool s calloc := by
  have hnext := h.next_null hfreed
  have hgrows : ¬ Grows s.memory pool := fun hg =>
    Nat.ne_of_lt hroom (of_decide_eq_true hg.2.1)
  have halloc := alloc_bump calloc 1 hnext (Nat.ne_of_lt hroom)
  constructor
  · have hbumped := h.bumped hroom
    simp only [allocate, halloc, State.granted, if_neg hgrows, Option.isSome_some, if_true,
      List.nil_append, Option.toList_some, List.singleton_append, Option.elim_some, hfreed,
      List.erase_nil]
    simpa only [hfreed] using hbumped
  · refine ⟨?_, ?_, fun hkind => ?_, fun _ hnone => ?_⟩
    · rintro _ heq i hi
      rw [halloc] at heq ⊢
      obtain rfl := Option.some.inj heq
      exact h.layout.zero _ ⟨_, Nat.le_refl _, hroom, rfl⟩ i hi
    · rintro _ heq
      rw [hfreed] at heq
      cases heq
    · obtain ⟨hcapacity, hstored⟩ := h.static hkind
      rw [hfreed, List.length_nil] at hstored
      rw [halloc]
      refine iff_of_false nofun ?_
      omega
    · rw [halloc] at hnone
      cases hnone

theorem refused (hfreed : s.freed = [])
    (hfull : (s.memory.pools pool).stored = (s.memory.pools pool).capacity)
    (hrefused : (s.memory.pools pool).kind = .VPOOL_KIND_DYNAMIC → calloc = none) :
    Inv numItems elemSize kind pool (allocate pool s calloc) ∧
      AllocLaw numItems kind pool s calloc := by
  have hnext := h.next_null hfreed
  have halloc := alloc_full 1 hnext (decide_eq_true hfull) hrefused
  constructor
  · simp only [allocate, halloc, Option.isSome_none, Option.toList_none, List.nil_append,
      Option.elim_none]
    exact h
  · refine ⟨?_, ?_, fun hkind => ?_, fun hkind _ => ?_⟩
    · rintro _ heq
      rw [halloc] at heq
      cases heq
    · rintro _ heq
      rw [hfreed] at heq
      cases heq
    · obtain ⟨hcapacity, hstored⟩ := h.static hkind
      rw [hfreed, List.length_nil, Nat.zero_add] at hstored
      rw [halloc]
      exact iff_of_true rfl (hstored.symm.trans (hfull.trans hcapacity))
    · have hdynamic := h.ofKind.trans hkind
      exact ⟨⟨hnext, decide_eq_true hfull, hdynamic⟩, hrefused hdynamic, by rw [halloc]⟩

theorem requested_eq
    (hsize : sizeofVpool + 2 * (s.memory.pools pool).capacity * (s.memory.pools pool).elementSize < sizeMax) :
    2 * (s.memory.pools pool).capacity < sizeMax ∧
      requested s.memory pool =
        sizeofVpool + 2 * (s.memory.pools pool).capacity * (s.memory.pools pool).elementSize := by
  have hwidth := h.layout.width
  have hwrap : 2 * (s.memory.pools pool).capacity < sizeMax := by
    have hpointer : 0 < sizeofPointer := by decide
    have hmul := Nat.le_mul_of_pos_right (2 * (s.memory.pools pool).capacity)
      (Nat.lt_of_lt_of_le hpointer hwidth)
    omega
  refine ⟨hwrap, ?_⟩
  rw [requested, sizeT_of_lt hwrap]
  exact advise_eq hwidth hsize

theorem block_ne_pool {block : Nat}
    (hsize : sizeofVpool + 2 * (s.memory.pools pool).capacity * (s.memory.pools pool).elementSize < sizeMax)
    (hb : Fresh s.blocks ⟨block, requested s.memory pool⟩) : block ≠ pool :=
  h.fresh_ne hb (by rw [(h.requested_eq hsize).2]; exact Nat.le_add_right _ _)

theorem alloc_growth {block : Nat} (hgrows : Grows s.memory pool) (hne : block ≠ pool)
    (hwrap : 2 * (s.memory.pools pool).capacity < sizeMax) :
    vpoolAlloc (some block) 2 s.memory pool =
      let grown := swapped s.memory pool block (2 * (s.memory.pools pool).capacity)
      ({ grown with
          pools := Function.update grown.pools pool
            { grown.pools pool with stored := (grown.pools pool).stored + 1 } },
        some ((grown.pools pool).items + (grown.pools pool).stored * (grown.pools pool).elementSize)) := by
  have hpool := swapped_pool s.memory (2 * (s.memory.pools pool).capacity) hne
  refine (alloc_grow hgrows hne h.layout.width h.layout.capacity hwrap).trans (alloc_bump _ _ ?_ ?_)
  · rw [hpool]
    exact hgrows.1
  · rw [hpool]
    exact Nat.ne_of_lt (Nat.mul_pos Nat.two_pos h.layout.capacity)

theorem grow {block : Nat} (hfreed : s.freed = [])
    (hgrows : Grows s.memory pool)
    (hsize : sizeofVpool + 2 * (s.memory.pools pool).capacity * (s.memory.pools pool).elementSize < sizeMax)
    (hb : Fresh s.blocks ⟨block, requested s.memory pool⟩) :
    Inv numItems elemSize kind pool (allocate pool s (some block)) ∧
      AllocLaw numItems kind pool s (some block) := by
  have hcapacity := Nat.mul_pos Nat.two_pos h.layout.capacity
  have hstatic : kind ≠ .VPOOL_KIND_STATIC := by
    rw [← h.ofKind, hgrows.2.2]
    decide
  obtain ⟨hwrap, hrequested⟩ := h.requested_eq hsize
  have hne := h.block_ne_pool hsize hb
  have hswap := h.swap hb hcapacity (Nat.le_of_eq hrequested.symm) hstatic
  have hpool := swapped_pool s.memory (2 * (s.memory.pools pool).capacity) hne
  have hroom : ((swapped s.memory pool block (2 * (s.memory.pools pool).capacity)).pools pool).stored <
      ((swapped s.memory pool block (2 * (s.memory.pools pool).capacity)).pools pool).capacity := by
    rw [hpool]
    exact hcapacity
  have halloc := h.alloc_growth hgrows hne hwrap
  constructor
  · have hbumped := hswap.bumped hroom
    simp only [allocate, halloc, State.granted, if_pos hgrows, Option.isSome_some, if_true,
      Option.toList_some, List.singleton_append, Option.elim_some, hfreed, List.erase_nil,
      List.map_cons, List.map_nil]
    simpa only [hfreed] using hbumped
  · refine ⟨?_, ?_, fun hkind' => absurd hkind' hstatic, fun _ hnone => ?_⟩
    · rintro _ heq i hi
      rw [halloc] at heq ⊢
      obtain rfl := Option.some.inj heq
      refine hswap.layout.zero _ ⟨_, Nat.le_refl _, hroom, rfl⟩ i ?_
      rw [hpool] at hi ⊢
      exact hi
    · rintro _ heq
      rw [hfreed] at heq
      cases heq
    · rw [halloc] at hnone
      cases hnone

theorem allocate (hadvised : Advised pool s (.alloc calloc))
    (hfresh : ∀ b ∈ s.granted pool calloc, Fresh s.blocks b) :
    Inv numItems elemSize kind pool (Vpool.allocate pool s calloc) ∧
      AllocLaw numItems kind pool s calloc := by
  cases hfreed : s.freed with
  | cons e rest => exact h.reuse calloc hfreed
  | nil =>
    rcases Nat.lt_or_eq_of_le h.layout.stored with hroom | hfull
    · exact h.bump calloc hfreed hroom
    · cases hkind : (s.memory.pools pool).kind with
      | VPOOL_KIND_STATIC => exact h.refused hfreed hfull (by simp [hkind])
      | VPOOL_KIND_GUIDED => exact h.refused hfreed hfull (by simp [hkind])
      | VPOOL_KIND_DYNAMIC =>
        have hgrows : Grows s.memory pool := ⟨h.next_null hfreed, decide_eq_true hfull, hkind⟩
        cases calloc with
        | none => exact h.refused hfreed hfull fun _ => rfl
        | some block =>
          refine h.grow hfreed hgrows (hadvised hgrows nofun) (hfresh _ ?_)
          simp [State.granted, hgrows]

theorem allocate_none (hgrows : ¬ Grows s.memory pool) :
    Inv numItems elemSize kind pool (Vpool.allocate pool s none) ∧
      AllocLaw numItems kind pool s none := by
  refine h.allocate (fun hg => absurd hg hgrows) ?_
  simp [State.granted, hgrows]

theorem deallocate {elem : Nat} (hlive : elem ∈ s.live) :
    Inv numItems elemSize kind pool (Vpool.deallocate pool s elem) := by
  have hslot := h.layout.slot elem (by simp [hlive])
  have hnull := h.layout.slot_ne_zero hslot
  have hpointer : 0 < (s.memory.pools pool).elementSize :=
    Nat.lt_of_lt_of_le (by decide) h.layout.width
  have hnext : (s.memory.pools pool).nextFree < sizeMax :=
    h.layout.linked.head_lt (fun e he => h.layout.slot_lt (h.layout.slot e (by simp [he])) hpointer)
      (by decide)
  have hlength := List.length_erase_of_mem hlive
  have hsome := List.length_pos_of_mem hlive
  have hframe (i : Nat) (hi : ¬ Extent.Has ⟨elem, (s.memory.pools pool).elementSize⟩ i) :
      (vpoolDealloc s.memory pool elem).1.bytes i = s.memory.bytes i :=
    dealloc_frame h.pool_ne_zero hnull fun hin =>
      hi (Extent.Within.has (Extent.head_within (a := ⟨elem, _⟩) h.layout.width) hin)
  rw [dealloc_eq h.pool_ne_zero hnull] at hframe
  refine ⟨?_, ?_, ?_, ?_, ?_⟩
  all_goals simp only [Vpool.deallocate, dealloc_eq h.pool_ne_zero hnull, Function.update_self]
  · refine h.layout.give hlive hframe ?_
    split_ifs with hnull
    · exact loadPointer_storePointer hnext
    · rw [not_not.mp hnull]
      exact loadPointer_zero fun i hi =>
        memset_inside ⟨Nat.le_add_right _ _, Nat.add_lt_add_left hi _⟩
  · exact h.home
  · exact h.width
  · exact h.ofKind
  · intro hkind
    obtain ⟨hcapacity, hstored⟩ := h.static hkind
    refine ⟨hcapacity, hstored.trans ?_⟩
    rw [List.length_cons]
    omega

theorem extend {block memorySize : Nat} (hguided : (s.memory.pools pool).kind = .VPOOL_KIND_GUIDED)
    (hleast : sizeofVpool + (s.memory.pools pool).elementSize ≤ memorySize)
    (hb : Fresh s.blocks ⟨block, memorySize⟩) :
    Inv numItems elemSize kind pool (Vpool.extend pool s block memorySize) := by
  have hne : block ≠ pool := h.fresh_ne hb (Nat.le_of_add_right_le hleast)
  have hmax : memorySize < sizeMax := by
    obtain ⟨hpos, hstop, -⟩ := hb
    simp only [Extent.stop] at hpos hstop
    omega
  have hpointer : 0 < (s.memory.pools pool).elementSize :=
    Nat.lt_of_lt_of_le (by decide) h.layout.width
  have hstatic : kind ≠ .VPOOL_KIND_STATIC := by
    rw [← h.ofKind, hguided]
    decide
  rw [Vpool.extend, guidedExtend_eq h.pool_ne_zero (Nat.ne_of_gt hb.1) hne hguided h.layout.width
    hleast hmax]
  refine h.swap hb (Nat.div_pos (by omega) hpointer) ?_ hstatic
  have hmul := Nat.div_mul_le_self (memorySize - sizeofVpool) (s.memory.pools pool).elementSize
  change sizeofVpool + _ ≤ memorySize
  omega

theorem frame {memory : VpoolMemory} (hpool : memory.pools pool = s.memory.pools pool)
    (hbytes : ∀ i, (∀ e ∈ s.live, ¬ (s.elem pool e).Has i) → (∃ b ∈ s.blocks, b.Has i) →
      memory.bytes i = s.memory.bytes i) :
    Inv numItems elemSize kind pool { s with memory } := by
  refine ⟨?_, h.home, ?_, ?_, ?_⟩
  all_goals simp only [hpool]
  · exact h.layout.write hbytes
  · exact h.width
  · exact h.ofKind
  · exact h.static

theorem write {i : Nat} {value : UInt8} (hw : Writable pool s i) :
    Inv numItems elemSize kind pool (Vpool.write s i value) := by
  refine h.frame rfl fun j hlive hin => Function.update_of_ne ?_ _ _
  rintro rfl
  rcases hw with ⟨e, he, hhas⟩ | hout
  · exact hlive e he hhas
  · obtain ⟨b, hb, hhas⟩ := hin
    exact hout b hb hhas

end Inv

theorem inv_init (hsize : sizeofVpool + numItems * max elemSize sizeofPointer < sizeMax)
    (hi : (machine numItems elemSize kind pool).init s) : Inv numItems elemSize kind pool s := by
  obtain ⟨memory, blocks, live, freed⟩ := s
  obtain ⟨⟨hpos, hstop, -⟩, ⟨before, hcreate⟩, hblocks, hlive, hfreed⟩ := hi
  obtain ⟨hitems, hmemory⟩ := create_eq hcreate
  have hwidth : sizeofPointer ≤ max elemSize sizeofPointer := Nat.le_max_right _ _
  rw [← advise_raised, advise_eq hwidth hsize] at hblocks hstop
  rw [advise_eq hwidth hsize] at hmemory
  subst hblocks hlive hfreed hmemory
  refine ⟨?_, ⟨_, List.mem_singleton_self _, rfl⟩, ?_, ?_, fun _ => ?_⟩
  all_goals simp only [Function.update_self]
  · refine {
      block := ?_
      apart := ?_
      width := hwidth
      capacity := hitems
      stored := Nat.zero_le _
      area := ⟨_, List.mem_singleton_self _, rfl, Nat.le_of_eq (Nat.add_sub_cancel_left ..).symm⟩
      slot := nofun
      nodup := List.nodup_nil
      touched := nofun
      zero := ?_
      linked := rfl }
    · intro b hb
      rw [List.mem_singleton.mp hb]
      exact ⟨hpos, hstop, Nat.le_add_right _ _⟩
    · intro b hb c hc hne
      exact absurd ((List.mem_singleton.mp hb).trans (List.mem_singleton.mp hc).symm) hne
    · intro e he i hi
      refine memset_inside (Extent.Within.has ?_ (he.within.has hi))
      exact ⟨Nat.le_add_right _ _, Nat.le_of_eq (Nat.add_assoc ..)⟩
  · exact Nat.le_max_left _ _
  · simp

theorem inv_step (h : Inv numItems elemSize kind pool s) {l : Label} (hadvised : Advised pool s l)
    (hs : step pool s l = some s') : Inv numItems elemSize kind pool s' := by
  cases l with
  | alloc calloc =>
    obtain ⟨hfresh, hs⟩ := Option.ite_none_right_eq_some.mp hs
    cases hs
    exact (h.allocate hadvised hfresh).1
  | dealloc elem =>
    obtain ⟨hlive, hs⟩ := Option.ite_none_right_eq_some.mp hs
    cases hs
    exact h.deallocate hlive
  | extend block memorySize =>
    obtain ⟨⟨hguided, hleast, hb⟩, hs⟩ := Option.ite_none_right_eq_some.mp hs
    cases hs
    exact h.extend hguided hleast hb
  | write i value =>
    obtain ⟨hw, hs⟩ := Option.ite_none_right_eq_some.mp hs
    cases hs
    exact h.write hw

/-- As long as no size wraps, every run keeps the elements held apart from each other, from
the headers and from the free list, and every allocation obeys its law. -/
theorem slots_run (hsize : sizeofVpool + numItems * max elemSize sizeofPointer < sizeMax)
    {tr : List (State × Label)} (hr : (machine numItems elemSize kind pool).Run tr s)
    (hg : ∀ p ∈ tr, Advised pool p.1 p.2) :
    (∀ x, Machine.Visits tr s x → Sound elemSize pool x) ∧
      ∀ p ∈ tr, ∀ calloc, p.2 = .alloc calloc → AllocLaw numItems kind pool p.1 calloc := by
  have hinit (s : State) (hi : (machine numItems elemSize kind pool).init s) := inv_init hsize hi
  have hstep (s : State) (l : Label) (s' : State) (h : Inv numItems elemSize kind pool s)
      (hl : Advised pool s l) (hs : step pool s l = some s') := inv_step h hl hs
  refine ⟨fun x hx => (hr.visited hinit hstep hg hx).sound,
    hr.steps (L := fun s l => ∀ calloc, l = .alloc calloc → AllocLaw numItems kind pool s calloc)
      hinit hstep ?_ hg⟩
  rintro s _ s' h hl hs calloc rfl
  exact (h.allocate hl (Option.ite_none_right_eq_some.mp hs).1).2

theorem slots_run_grown :
    ∃ tr s, (machine 1 8 .VPOOL_KIND_DYNAMIC 4096).Run tr s ∧
      s.live = [4152, 8248] ∧ s.blocks = [⟨8192, 72⟩, ⟨4096, 64⟩] ∧
      (∀ x, Machine.Visits tr s x → Sound 8 4096 x) ∧
      ∀ p ∈ tr, ∀ calloc, p.2 = .alloc calloc → AllocLaw 1 .VPOOL_KIND_DYNAMIC 4096 p.1 calloc := by
  obtain ⟨tr, s, hr, hs⟩ := Machine.exists_run_of_record (machine 1 8 .VPOOL_KIND_DYNAMIC 4096)
    ⟨(vpoolCreate (some 4096) ⟨fun _ => ⟨0, 0, 0, 0, 0, .VPOOL_KIND_STATIC, 0⟩, fun _ => 7⟩ 1 8
      .VPOOL_KIND_DYNAMIC).1, [⟨4096, 64⟩], [], []⟩
    [.alloc none, .write 4152 9, .alloc (some 8192), .dealloc 4152, .alloc none]
    (fun tr s => s.live = [4152, 8248] ∧ s.blocks = [⟨8192, 72⟩, ⟨4096, 64⟩] ∧
      ∀ p ∈ tr, Advised 4096 p.1 p.2)
    ⟨by decide, ⟨_, rfl⟩, rfl, rfl, rfl⟩ (by decide)
  simp only [decide_eq_true_eq] at hs
  exact ⟨tr, s, hr, hs.1, hs.2.1, slots_run (by decide) hr hs.2.2⟩

/-- The size of `2 ^ 61` elements of 8 bytes wraps to that of a header alone, and the first
element already lies outside of the block. -/
theorem not_slots_wrapped :
    ¬ ∀ (numItems elemSize : Nat) (kind : VpoolKind) (pool : Nat) (tr : List (State × Label))
      (s : State), (machine numItems elemSize kind pool).Run tr s →
        (∀ x, Machine.Visits tr s x → Sound elemSize pool x) ∧
          ∀ p ∈ tr, ∀ calloc, p.2 = .alloc calloc → AllocLaw numItems kind pool p.1 calloc := by
  intro hlaw
  obtain ⟨tr, s, hr, hs⟩ := Machine.exists_run_of_exec
    (machine (2 ^ 61) 8 .VPOOL_KIND_STATIC 4096)
    ⟨(vpoolCreate (some 4096) ⟨fun _ => ⟨0, 0, 0, 0, 0, .VPOOL_KIND_STATIC, 0⟩, fun _ => 7⟩ (2 ^ 61) 8
      .VPOOL_KIND_STATIC).1, [⟨4096, 56⟩], [], []⟩
    [.alloc none] (fun s => s.live = [4152] ∧ s.blocks = [⟨4096, 56⟩])
    ⟨by decide, ⟨_, rfl⟩, rfl, rfl, rfl⟩ (by decide)
  simp only [decide_eq_true_eq] at hs
  have hsound := (hlaw _ _ _ _ tr s hr).1 s (Or.inl rfl)
  obtain ⟨b, hb, -, -, hwithin⟩ := hsound.slot 4152 (by simp [hs.1])
  rw [hs.2, List.mem_singleton] at hb
  subst hb
  have hwidth := hsound.width
  have hstop : 4152 + (s.memory.pools 4096).elementSize ≤ 4096 + 56 + (56 - 56) := hwithin.2
  omega

end Dert.Vpool
