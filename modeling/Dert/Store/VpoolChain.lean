import Dert.Store.VpoolSlots
import Mathlib.Data.List.Nodup

namespace Dert.Vpool

open Library

def area (header : Vpool) : Extent := ⟨header.items, header.capacity * header.elementSize⟩

def Follows (memory : VpoolMemory) : Nat → List Nat → Prop
  | next, [] => next = 0
  | next, b :: rest => next = b ∧ b ≠ 0 ∧ Follows memory (memory.pools b).prev rest

/-- What a dynamic pool is promised of the blocks it has grown by, newest first, and of
its own block. -/
structure Chained (pool : Nat) (s : State) (grown : List Extent) (first : Extent) : Prop where
  blocks : s.blocks = grown ++ [first]
  home : first.start = pool
  within : ∀ b ∈ s.blocks, (b.head sizeofVpool).Within b
  apart : s.blocks.Pairwise Extent.Apart
  walk : Follows s.memory (s.memory.pools pool).prev (grown.map Extent.start)
  once : (s.blocks.map Extent.start).Nodup
  describes : area (s.memory.pools pool) :: grown.map (fun b => area (s.memory.pools b.start)) =
    s.blocks.map fun b => b.body sizeofVpool
  belongs : ∀ b ∈ s.blocks, ∃ c ∈ s.blocks,
    area (s.memory.pools c.start) = b.body sizeofVpool ∧
      ∀ d ∈ s.blocks, area (s.memory.pools d.start) = b.body sizeofVpool → d = c
  destroyed : ∀ heap others, heap.Perm (s.blocks.map Extent.start ++ others) →
    ∃ left, vpoolDestroy s.blocks.length heap s.memory pool = some (left, .ok) ∧
      left.Perm others

def Replaced (pool : Nat) (s : State) (calloc : Option Nat) : Prop :=
  ∀ block, calloc = some block → Grows s.memory pool →
    (vpoolAlloc calloc 2 s.memory pool).1.pools block = s.memory.pools pool

variable {numItems elemSize pool block next : Nat} {s s' : State} {calloc : Option Nat}
  {memory memory' : VpoolMemory} {grown : List Extent} {first b : Extent}

theorem Follows.congr {l : List Nat} (h : Follows memory next l)
    (hsame : ∀ b ∈ l, (memory'.pools b).prev = (memory.pools b).prev) :
    Follows memory' next l := by
  induction l generalizing next with
  | nil => exact h
  | cons b rest ih =>
    obtain ⟨hnext, hnull, hrest⟩ := h
    refine ⟨hnext, hnull, ?_⟩
    rw [hsame b List.mem_cons_self]
    exact ih hrest fun c hc => hsame c (List.mem_cons_of_mem b hc)

theorem Follows.freed {l heap others : List Nat} (h : Follows memory next l)
    (hheap : heap.Perm (l ++ others)) :
    ∃ left, vpoolDeinit.loop memory (l.length + 1) heap next = some left ∧ left.Perm others := by
  induction l generalizing next heap with
  | nil =>
    obtain rfl : next = 0 := h
    exact ⟨heap, by simp [vpoolDeinit.loop], hheap⟩
  | cons b rest ih =>
    obtain ⟨rfl, hnull, hrest⟩ := h
    have hmem : next ∈ heap := hheap.mem_iff.mpr (by simp)
    have herase : (heap.erase next).Perm (rest ++ others) := by
      simpa using hheap.erase next
    obtain ⟨left, hleft, hperm⟩ := ih hrest herase
    refine ⟨left, ?_, hperm⟩
    rw [List.length_cons, vpoolDeinit.loop]
    simpa only [if_neg hnull, free, if_pos hmem, Option.bind_some] using hleft

structure Threaded (pool : Nat) (s : State) (grown : List Extent) (first : Extent) : Prop where
  blocks : s.blocks = grown ++ [first]
  home : first.start = pool
  once : (s.blocks.map Extent.start).Nodup
  walk : Follows s.memory (s.memory.pools pool).prev (grown.map Extent.start)
  describes : area (s.memory.pools pool) :: grown.map (fun b => area (s.memory.pools b.start)) =
    s.blocks.map fun b => b.body sizeofVpool

namespace Threaded

variable (h : Threaded pool s grown first)
include h

theorem grown_ne (hb : b ∈ grown) : b.start ≠ pool := by
  have honce := h.once
  rw [h.blocks, List.map_append, ← h.home] at *
  exact (List.nodup_append.mp honce).2.2 _ (List.mem_map_of_mem hb) _ (by simp)

theorem belongs (hb : b ∈ s.blocks) : ∃ c ∈ s.blocks,
    area (s.memory.pools c.start) = b.body sizeofVpool ∧
      ∀ d ∈ s.blocks, area (s.memory.pools d.start) = b.body sizeofVpool → d = c := by
  have hbodies : (s.blocks.map fun b => b.body sizeofVpool).Nodup := by
    refine (List.nodup_map_iff_inj_on h.once.of_map).mpr fun c hc d hd heq => ?_
    refine List.inj_on_of_nodup_map h.once hc hd ?_
    exact Nat.add_right_cancel (congrArg Extent.start heq)
  have hperm : (s.blocks.map fun b => area (s.memory.pools b.start)).Perm
      (s.blocks.map fun b => b.body sizeofVpool) := by
    rw [← h.describes, h.blocks, List.map_append, List.map_singleton, h.home]
    exact List.perm_append_singleton _ _
  have hareas := hperm.nodup_iff.mpr hbodies
  obtain ⟨c, hc, hbody⟩ := List.mem_map.mp (hperm.mem_iff.mpr (List.mem_map_of_mem hb))
  refine ⟨c, hc, hbody, fun d hd heq => ?_⟩
  exact List.inj_on_of_nodup_map hareas hd hc (heq.trans hbody.symm)

theorem destroyed (hpool : pool ≠ 0) (hkind : (s.memory.pools pool).kind = .VPOOL_KIND_DYNAMIC)
    {heap others : List Nat} (hheap : heap.Perm (s.blocks.map Extent.start ++ others)) :
    ∃ left, vpoolDestroy s.blocks.length heap s.memory pool = some (left, .ok) ∧
      left.Perm others := by
  have hlength : s.blocks.length = grown.length + 1 := by simp [h.blocks]
  rw [h.blocks, List.map_append, List.append_assoc, List.map_singleton, h.home] at hheap
  obtain ⟨left, hleft, hperm⟩ := h.walk.freed hheap
  rw [List.length_map] at hleft
  have hmem : pool ∈ left := hperm.mem_iff.mpr (by simp)
  refine ⟨left.erase pool, ?_, by simpa using hperm.erase pool⟩
  simp [vpoolDestroy, vpoolDeinit, hpool, hkind, hlength, hleft, free, hmem]

theorem touch (hblocks : s'.blocks = s.blocks)
    (hpool : area (s'.memory.pools pool) = area (s.memory.pools pool))
    (hprev : (s'.memory.pools pool).prev = (s.memory.pools pool).prev)
    (hother : ∀ b, b ≠ pool → s'.memory.pools b = s.memory.pools b) :
    Threaded pool s' grown first := by
  refine ⟨hblocks.trans h.blocks, h.home, ?_, ?_, ?_⟩
  · rw [hblocks]
    exact h.once
  · rw [hprev]
    refine h.walk.congr fun b hb => ?_
    obtain ⟨c, hc, rfl⟩ := List.mem_map.mp hb
    rw [hother _ (h.grown_ne hc)]
  · rw [hblocks, hpool, ← h.describes]
    refine congrArg _ (List.map_congr_left fun b hb => ?_)
    rw [hother _ (h.grown_ne hb)]

theorem grow (hblocks : s'.blocks = b :: s.blocks) (hnull : b.start ≠ 0)
    (hfresh : b.start ∉ s.blocks.map Extent.start)
    (hpool : area (s'.memory.pools pool) = b.body sizeofVpool)
    (hprev : (s'.memory.pools pool).prev = b.start)
    (hnew : s'.memory.pools b.start = s.memory.pools pool)
    (hother : ∀ c, c ≠ pool → c ≠ b.start → s'.memory.pools c = s.memory.pools c) :
    Threaded pool s' (b :: grown) first := by
  have hkeep {c : Extent} (hc : c ∈ grown) : s'.memory.pools c.start = s.memory.pools c.start := by
    refine hother _ (h.grown_ne hc) fun heq => hfresh (heq ▸ List.mem_map_of_mem ?_)
    rw [h.blocks]
    exact List.mem_append_left _ hc
  refine ⟨by rw [hblocks, h.blocks, List.cons_append], h.home, ?_, ?_, ?_⟩
  · rw [hblocks, List.map_cons]
    exact List.nodup_cons.mpr ⟨hfresh, h.once⟩
  · refine ⟨hprev, hnull, ?_⟩
    rw [hnew]
    refine h.walk.congr fun c hc => ?_
    obtain ⟨d, hd, rfl⟩ := List.mem_map.mp hc
    rw [hkeep hd]
  · rw [hblocks, List.map_cons, List.map_cons, hpool, hnew, ← h.describes]
    refine congrArg (_ :: _ :: ·) (List.map_congr_left fun c hc => ?_)
    rw [hkeep hc]

end Threaded

theorem Inv.fresh_start {kind : VpoolKind} (h : Inv numItems elemSize kind pool s)
    (hb : Fresh s.blocks b) (hsize : sizeofVpool ≤ b.size) :
    b.start ∉ s.blocks.map Extent.start := by
  intro hmem
  obtain ⟨c, hc, hstart⟩ := List.mem_map.mp hmem
  have hapart := hb.2.2 c hc
  have hleast := (h.layout.block c hc).2.2
  have hpos : 0 < sizeofVpool := by decide
  simp only [Extent.Apart, Extent.stop] at hapart
  omega

theorem Threaded.chained (h : Threaded pool s grown first)
    (hi : Inv numItems elemSize .VPOOL_KIND_DYNAMIC pool s) : Chained pool s grown first where
  blocks := h.blocks
  home := h.home
  within b hb := Extent.head_within (hi.layout.block b hb).2.2
  apart := by
    refine h.once.of_map.imp_of_mem fun hb hc hne => ?_
    exact hi.layout.apart _ hb _ hc hne
  walk := h.walk
  once := h.once
  describes := h.describes
  belongs _ hb := h.belongs hb
  destroyed _ _ hheap := h.destroyed hi.pool_ne_zero hi.ofKind hheap

section Calls

variable (h : Threaded pool s grown first)
include h

theorem allocate_grows (hi : Inv numItems elemSize .VPOOL_KIND_DYNAMIC pool s)
    (hgrows : Grows s.memory pool)
    (hsize : sizeofVpool + 2 * (s.memory.pools pool).capacity * (s.memory.pools pool).elementSize < sizeMax)
    (hb : Fresh s.blocks ⟨block, requested s.memory pool⟩) :
    Threaded pool (allocate pool s (some block)) (⟨block, requested s.memory pool⟩ :: grown) first ∧
      Replaced pool s (some block) := by
  obtain ⟨hwrap, hrequested⟩ := hi.requested_eq hsize
  have hne := hi.block_ne_pool hsize hb
  have halloc := hi.alloc_growth hgrows hne hwrap
  have hpool := swapped_pool s.memory (2 * (s.memory.pools pool).capacity) hne
  have hfresh := hi.fresh_start hb (by rw [hrequested]; exact Nat.le_add_right _ _)
  have hheader : { s.memory.pools pool with nextFree := 0 } = s.memory.pools pool := by
    rw [← hgrows.1]
  have hnew : (vpoolAlloc (some block) 2 s.memory pool).1.pools block = s.memory.pools pool := by
    rw [halloc]
    simp only [Function.update_of_ne hne, swapped, Function.update_self, hheader]
  refine ⟨h.grow ?_ (Nat.ne_of_gt hb.1) hfresh ?_ ?_ hnew ?_, ?_⟩
  · simp [allocate, halloc, State.granted, hgrows]
  · simp only [allocate, halloc, Function.update_self, hpool, area, Extent.body, hrequested,
      Nat.add_sub_cancel_left]
  · simp only [allocate, halloc, Function.update_self, hpool]
  · intro c hc hcb
    simp only [allocate, halloc, Function.update_of_ne hc, swapped, Function.update_of_ne hcb]
  · rintro _ heq -
    obtain rfl := Option.some.inj heq
    exact hnew

theorem allocate_stays (hgrows : ¬ Grows s.memory pool ∨ calloc = none) :
    Threaded pool (allocate pool s calloc) grown first ∧ Replaced pool s calloc := by
  have hblocks : (allocate pool s calloc).blocks = s.blocks := by
    rcases hgrows with hgrows | rfl
    · simp [allocate, State.granted, hgrows]
    · simp [allocate, State.granted]
  obtain ⟨stored, nextFree, halloc⟩ := alloc_stays 1 hgrows
  refine ⟨h.touch hblocks ?_ ?_ fun b hb => ?_, fun block hcalloc hg => ?_⟩
  · simp only [allocate, halloc, Function.update_self, area]
  · simp only [allocate, halloc, Function.update_self]
  · simp only [allocate, halloc, Function.update_of_ne hb]
  · rcases hgrows with hgrows | rfl
    · exact absurd hg hgrows
    · cases hcalloc

theorem deallocate_stays {elem : Nat} (hpool : pool ≠ 0) (helem : elem ≠ 0) :
    Threaded pool (deallocate pool s elem) grown first := by
  refine h.touch rfl ?_ ?_ fun b hb => ?_
  all_goals simp only [deallocate, dealloc_eq hpool helem, Function.update_self, area]
  rw [Function.update_of_ne hb]

end Calls

section Runs

theorem threaded_init (hsize : sizeofVpool + numItems * max elemSize sizeofPointer < sizeMax)
    (hi : (machine numItems elemSize .VPOOL_KIND_DYNAMIC pool).init s) :
    Threaded pool s [] ⟨pool, vpoolAdvise numItems elemSize⟩ := by
  obtain ⟨memory, blocks, live, freed⟩ := s
  obtain ⟨-, ⟨before, hcreate⟩, hblocks, -, -⟩ := hi
  obtain ⟨-, hmemory⟩ := create_eq hcreate
  have hadvise := advise_eq (Nat.le_max_right elemSize sizeofPointer) hsize
  rw [advise_raised] at hadvise
  subst hblocks hmemory
  refine ⟨rfl, rfl, by simp, ?_, ?_⟩
  · simp only [Function.update_self]
    rfl
  · simp only [Function.update_self, area, hadvise, Extent.body, List.map_nil, List.map_cons,
      Nat.add_sub_cancel_left]

def Growing (numItems elemSize pool : Nat) (s : State) : Prop :=
  Inv numItems elemSize .VPOOL_KIND_DYNAMIC pool s ∧ ∃ grown first, Threaded pool s grown first

theorem allocate_law (hg : Growing numItems elemSize pool s) (hadvised : Advised pool s (.alloc calloc))
    (hfresh : ∀ b ∈ s.granted pool calloc, Fresh s.blocks b) :
    (∃ grown first, Threaded pool (allocate pool s calloc) grown first) ∧
      Replaced pool s calloc := by
  obtain ⟨hi, grown, first, h⟩ := hg
  by_cases hgrows : Grows s.memory pool
  · cases calloc with
    | none =>
      have hnone : ¬ Grows s.memory pool ∨ (none : Option Nat) = none := .inr rfl
      obtain ⟨hthreaded, hreplaced⟩ := allocate_stays h hnone
      exact ⟨⟨_, _, hthreaded⟩, hreplaced⟩
    | some block =>
      have hb : Fresh s.blocks ⟨block, requested s.memory pool⟩ :=
        hfresh _ (by simp [State.granted, hgrows])
      obtain ⟨hthreaded, hreplaced⟩ :=
        allocate_grows h hi hgrows (hadvised hgrows (by simp)) hb
      exact ⟨⟨_, _, hthreaded⟩, hreplaced⟩
  · have hsome : ¬ Grows s.memory pool ∨ calloc = none := .inl hgrows
    obtain ⟨hthreaded, hreplaced⟩ := allocate_stays h hsome
    exact ⟨⟨_, _, hthreaded⟩, hreplaced⟩

theorem growing_step (hg : Growing numItems elemSize pool s) {l : Label} (hadvised : Advised pool s l)
    (hs : step pool s l = some s') : Growing numItems elemSize pool s' := by
  refine ⟨inv_step hg.1 hadvised hs, ?_⟩
  have ⟨hi, grown, first, h⟩ := hg
  cases l with
  | alloc calloc =>
    obtain ⟨hfresh, hs⟩ := Option.ite_none_right_eq_some.mp hs
    cases hs
    exact (allocate_law hg hadvised hfresh).1
  | dealloc elem =>
    obtain ⟨hlive, hs⟩ := Option.ite_none_right_eq_some.mp hs
    cases hs
    have hslot := hi.layout.slot elem (by simp [hlive])
    exact ⟨_, _, deallocate_stays h hi.pool_ne_zero (hi.layout.slot_ne_zero hslot)⟩
  | extend block memorySize =>
    obtain ⟨⟨hguided, -⟩, -⟩ := Option.ite_none_right_eq_some.mp hs
    rw [hi.ofKind] at hguided
    cases hguided
  | write i value =>
    obtain ⟨-, hs⟩ := Option.ite_none_right_eq_some.mp hs
    cases hs
    exact ⟨_, _, h.touch rfl rfl rfl fun _ _ => rfl⟩

/-- As long as no size wraps, a dynamic pool keeps its blocks on one chain that ends before
the pool's own block, with one header for the items of each, and gives back exactly these. -/
theorem chain_run (hsize : sizeofVpool + numItems * max elemSize sizeofPointer < sizeMax)
    {tr : List (State × Label)}
    (hr : (machine numItems elemSize .VPOOL_KIND_DYNAMIC pool).Run tr s)
    (hg : ∀ p ∈ tr, Advised pool p.1 p.2) :
    (∀ x, Machine.Visits tr s x → ∃ grown first, Chained pool x grown first) ∧
      ∀ p ∈ tr, ∀ calloc, p.2 = .alloc calloc → Replaced pool p.1 calloc := by
  have hinit (s : State) (hi : (machine numItems elemSize .VPOOL_KIND_DYNAMIC pool).init s) :
      Growing numItems elemSize pool s :=
    ⟨inv_init hsize hi, _, _, threaded_init hsize hi⟩
  have hstep (s : State) (l : Label) (s' : State) (h : Growing numItems elemSize pool s)
      (hl : Advised pool s l) (hs : step pool s l = some s') := growing_step h hl hs
  refine ⟨fun x hx => ?_,
    hr.steps (L := fun s l => ∀ calloc, l = .alloc calloc → Replaced pool s calloc)
      hinit hstep ?_ hg⟩
  · obtain ⟨hi, grown, first, h⟩ := hr.visited hinit hstep hg hx
    exact ⟨grown, first, h.chained hi⟩
  · rintro s _ s' h hl hs calloc rfl
    exact (allocate_law h hl (Option.ite_none_right_eq_some.mp hs).1).2

theorem chain_run_twice :
    ∃ tr s, (machine 1 8 .VPOOL_KIND_DYNAMIC 4096).Run tr s ∧
      s.blocks = [⟨12288, 88⟩, ⟨8192, 72⟩, ⟨4096, 64⟩] ∧
      (∀ x, Machine.Visits tr s x → ∃ grown first, Chained 4096 x grown first) ∧
      ∀ p ∈ tr, ∀ calloc, p.2 = .alloc calloc → Replaced 4096 p.1 calloc := by
  obtain ⟨tr, s, hr, hs⟩ := Machine.exists_run_of_record (machine 1 8 .VPOOL_KIND_DYNAMIC 4096)
    ⟨(vpoolCreate (some 4096) ⟨fun _ => ⟨0, 0, 0, 0, 0, .VPOOL_KIND_STATIC, 0⟩, fun _ => 7⟩ 1 8
      .VPOOL_KIND_DYNAMIC).1, [⟨4096, 64⟩], [], []⟩
    [.alloc none, .alloc none, .alloc (some 8192), .alloc none, .dealloc 8248, .alloc none,
      .alloc (some 12288)]
    (fun tr s => s.blocks = [⟨12288, 88⟩, ⟨8192, 72⟩, ⟨4096, 64⟩] ∧
      ∀ p ∈ tr, Advised 4096 p.1 p.2)
    ⟨by decide, ⟨_, rfl⟩, rfl, rfl, rfl⟩ (by decide)
  simp only [decide_eq_true_eq] at hs
  exact ⟨tr, s, hr, hs.1, chain_run (by decide) hr hs.2⟩

/-- The sizes of one and of two elements of `2 ^ 64 - 8` bytes wrap to 48 and 40 bytes: the
header does not fit into its block, and the header of the next block lies on top of it. -/
theorem not_chain_wrapped :
    ¬ ∀ (numItems elemSize pool : Nat) (tr : List (State × Label)) (s : State),
      (machine numItems elemSize .VPOOL_KIND_DYNAMIC pool).Run tr s →
        (∀ x, Machine.Visits tr s x → ∃ grown first, Chained pool x grown first) ∧
          ∀ p ∈ tr, ∀ calloc, p.2 = .alloc calloc → Replaced pool p.1 calloc := by
  intro hlaw
  obtain ⟨tr, s, hr, hs⟩ := Machine.exists_run_of_exec
    (machine 1 (2 ^ 64 - 8) .VPOOL_KIND_DYNAMIC 4096)
    ⟨(vpoolCreate (some 4096) ⟨fun _ => ⟨0, 0, 0, 0, 0, .VPOOL_KIND_STATIC, 0⟩, fun _ => 7⟩ 1
      (2 ^ 64 - 8) .VPOOL_KIND_DYNAMIC).1, [⟨4096, 48⟩], [], []⟩
    [.alloc none, .alloc (some 4144)] (fun s => s.blocks = [⟨4144, 40⟩, ⟨4096, 48⟩])
    ⟨by decide, ⟨_, rfl⟩, rfl, rfl, rfl⟩ (by decide)
  simp only [decide_eq_true_eq] at hs
  obtain ⟨grown, first, h⟩ := (hlaw _ _ _ tr s hr).1 s (Or.inl rfl)
  have hwithin := h.within ⟨4096, 48⟩ (by simp [hs])
  have hstop : 4096 + 56 ≤ 4096 + 48 := hwithin.2
  omega

end Runs

end Dert.Vpool
