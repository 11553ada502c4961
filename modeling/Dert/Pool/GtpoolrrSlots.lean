import Dert.Pool.GtpoolrrLaws

namespace Dert.Gtpoolrr

open Library

variable {jobsPerThread : Nat} {s s' : State jobsPerThread} {l : Label}

def State.header (s : State jobsPerThread) : Vpool := s.memory.pools s.greenThreads

section Vpool

variable {memory memory' : VpoolMemory} {pool elem depth : Nat} {calloc : Option Nat}

theorem vpoolAlloc_some (hfree : (memory.pools pool).nextFree = 0)
    (hkind : (memory.pools pool).kind = .VPOOL_KIND_STATIC)
    (h : vpoolAlloc calloc (depth + 1) memory pool = (memory', some elem)) :
    memory'.pools pool = { memory.pools pool with stored := (memory.pools pool).stored + 1 } := by
  unfold vpoolAlloc at h
  simp only [hfree, hkind, vpoolFull, ne_eq, not_true_eq_false, if_false] at h
  split_ifs at h
  · simp at h
  · simp only [Prod.mk.injEq] at h
    obtain ⟨rfl, -⟩ := h
    simp [hfree, hkind]

theorem vpoolAlloc_none (hfree : (memory.pools pool).nextFree = 0)
    (hkind : (memory.pools pool).kind = .VPOOL_KIND_STATIC)
    (h : vpoolAlloc calloc (depth + 1) memory pool = (memory', none)) :
    (memory.pools pool).stored = (memory.pools pool).capacity ∧ memory' = memory := by
  unfold vpoolAlloc at h
  simp only [hfree, hkind, vpoolFull, ne_eq, not_true_eq_false, if_false] at h
  split_ifs at h with hfull
  · simp only [Prod.mk.injEq, and_true] at h
    exact ⟨of_decide_eq_true hfull, h.symm⟩
  · simp at h

theorem vpoolInUse_fresh (hfree : (memory.pools pool).nextFree = 0) :
    vpoolInUse memory pool = (memory.pools pool).stored := by
  have hnone : vpoolFreeList memory.bytes (memory.pools pool).stored 0 = [] := by
    cases (memory.pools pool).stored with
    | zero => rfl
    | succ n => rfl
  rw [vpoolInUse, hfree, hnone]
  rfl

end Vpool

/-- How the counts of jobs and of slots hang together: no slot is ever given back. -/
structure Counts (s : State jobsPerThread) : Prop where
  nextFree : s.header.nextFree = 0
  kind : s.header.kind = .VPOOL_KIND_STATIC
  capacity : s.header.capacity = jobsPerThread
  stored : s.header.stored = s.started
  dequeued : s.dequeued.length =
    s.started + s.expired + if s.pc = .noGreenThread then 1 else 0
  completed : s.completed.length +
    (if s.pc = .complete ∨ s.pc = .completionFull then 1 else 0) = s.finished + s.expired
  popped : s.popped + s.completionQueue.length = s.completed.length
  acknowledged : s.acknowledged ≤ s.popped
  exhausted : s.pc = .noGreenThread → s.started = jobsPerThread

theorem counts_start (ring : Bool) (memory : VpoolMemory) (greenThreads : Nat)
    (hpos : 0 < jobsPerThread) :
    Counts (start ring memory greenThreads : State jobsPerThread) := by
  have hheader : (start ring memory greenThreads : State jobsPerThread).header =
      ⟨greenThreads + sizeofVpool, greentAdvise, 0, jobsPerThread, 0, .VPOOL_KIND_STATIC, 0⟩ := by
    simp [State.header, start, vpoolInit, _vpoolInit, Nat.ne_of_gt hpos, greentAdvise, sizeofPointer]
  refine ⟨?_, ?_, ?_, ?_, ?_, ?_, ?_, ?_, ?_⟩
  all_goals first | rw [hheader] | skip
  all_goals cases ring <;> simp [start, Fifo.length, Fifo.empty]

theorem Counts.step (h : Counts s) (hs : Step s l s') : Counts s' := by
  obtain ⟨hfree, hkind, hcap, hstored, hdeq, hcomp, hpop, hack, hex⟩ := h
  cases hs
  case started job submissionQueue memory thread hpc hlist halloc =>
    have hheader := vpoolAlloc_some hfree hkind halloc
    refine ⟨?_, ?_, ?_, ?_, ?_, ?_, hpop, hack, by simp⟩
    · rw [State.header, hheader]
      exact hfree
    · rw [State.header, hheader]
      exact hkind
    · rw [State.header, hheader]
      exact hcap
    · rw [State.header, hheader]
      exact congrArg (· + 1) hstored
    · simp [hpc] at hdeq ⊢
      omega
    · simpa [hpc] using hcomp
  case noGreenThread job submissionQueue memory hpc hlist halloc =>
    obtain ⟨hfull, rfl⟩ := vpoolAlloc_none hfree hkind halloc
    have hexhausted : s.started = jobsPerThread := hstored.symm.trans (hfull.trans hcap)
    refine ⟨hfree, hkind, hcap, hstored, ?_, ?_, hpop, hack, fun _ => hexhausted⟩
    · simp [hpc] at hdeq ⊢
      omega
    · simpa [hpc] using hcomp
  case expired hpc hlist =>
    refine ⟨hfree, hkind, hcap, hstored, ?_, ?_, hpop, hack, by simp⟩
    · simp [hpc] at hdeq ⊢
      omega
    · simp [hpc] at hcomp ⊢
      omega
  case completed hpc hjob hlist =>
    refine ⟨hfree, hkind, hcap, hstored, ?_, ?_, ?_, hack, by simp⟩
    · simpa [hpc] using hdeq
    · simp [hpc] at hcomp ⊢
      omega
    · simp [Fifo.length, hlist] at hpop ⊢
      omega
  case completionFull hpc =>
    refine ⟨hfree, hkind, hcap, hstored, ?_, ?_, hpop, hack, by simp⟩
    · simpa [hpc] using hdeq
    · simpa [hpc] using hcomp
  case finished hpc =>
    refine ⟨hfree, hkind, hcap, hstored, ?_, ?_, hpop, hack, by simp⟩
    · simpa [hpc] using hdeq
    · simp [hpc] at hcomp ⊢
      omega
  case popped hlist =>
    refine ⟨hfree, hkind, hcap, hstored, hdeq, hcomp, ?_, ?_, hex⟩
    · simp [Fifo.length, hlist] at hpop ⊢
      omega
    · exact Nat.le_succ_of_le hack
  case acked hlt => exact ⟨hfree, hkind, hcap, hstored, hdeq, hcomp, hpop, hlt, hex⟩
  all_goals
    exact ⟨hfree, hkind, hcap, hstored, by simp_all, by simp_all, hpop, hack, by simp_all⟩

/-- The law of the slots: allocation has not failed, and the slots in use are those of the
jobs that have started and not finished. -/
def SlotLaw (s : State jobsPerThread) : Prop :=
  s.pc ≠ .noGreenThread ∧ vpoolInUse s.memory s.greenThreads + s.finished = s.started

/-- Before any job has finished, a failed allocation means too many jobs at once. -/
theorem Counts.pending_gt (h : Counts s) (hinv : Inv s) (hnone : s.finished = 0)
    (hpc : s.pc = .noGreenThread) : jobsPerThread < s.pending := by
  have hdeq := h.dequeued
  have hcomp := h.completed
  have hpop := h.popped
  have hack := h.acknowledged
  have hacc := congrArg List.length hinv.split
  simp [hpc] at hdeq hcomp
  have hfull := h.exhausted hpc
  rw [List.length_append] at hacc
  rw [State.pending]
  omega

/-- As long as no more jobs are pending than the worker has green threads for, the slots
obey their law in every state of a run exactly when no job that was started returns. -/
theorem slotLaw_iff {tr : List (State jobsPerThread × Label)} (hr : (machine jobsPerThread).Run tr s)
    (hlimit : ∀ x, Machine.Visits tr s x → x.pending ≤ jobsPerThread) :
    (∀ x, Machine.Visits tr s x → SlotLaw x) ↔ ∀ p ∈ tr, p.2 ≠ .finish := by
  have hinit : ∀ s, (machine jobsPerThread).init s → (Inv s ∧ Counts s) ∧ s.finished = 0 := by
    rintro s ⟨hpos, ring, memory, greenThreads, rfl⟩
    exact ⟨⟨inv_start ring memory greenThreads, counts_start ring memory greenThreads hpos⟩, rfl⟩
  have hstep : ∀ s l s', (Inv s ∧ Counts s) ∧ s.finished = 0 → l ≠ .finish →
      (machine jobsPerThread).step s l = some s' → (Inv s' ∧ Counts s') ∧ s'.finished = 0 := by
    rintro s l s' ⟨⟨hinv, hcounts⟩, hnone⟩ hl hs
    have hs := step_cases hs
    refine ⟨⟨hinv.step hs, hcounts.step hs⟩, ?_⟩
    cases hs
    case finished => exact absurd rfl hl
    all_goals exact hnone
  have hbalance := hr.visited_iff (I := fun s => (Inv s ∧ Counts s) ∧ s.finished = 0)
    (P := fun s => vpoolInUse s.memory s.greenThreads + s.finished = s.started)
    (G := fun _ l => l ≠ .finish) hinit hstep ?_ ?_
  · constructor
    · intro hlaw
      exact hbalance.mp fun x hx => (hlaw x hx).2
    · intro hgood x hx
      refine ⟨fun hpc => ?_, hbalance.mpr hgood x hx⟩
      obtain ⟨⟨hinv, hcounts⟩, hnone⟩ := hr.visited hinit hstep hgood hx
      exact absurd (hlimit x hx) (Nat.not_le_of_lt (hcounts.pending_gt hinv hnone hpc))
  · rintro s ⟨⟨-, hcounts⟩, hnone⟩
    rw [vpoolInUse_fresh hcounts.nextFree, hnone]
    exact hcounts.stored
  · rintro s l s' ⟨⟨hinv, hcounts⟩, hnone⟩ hl hs hbalance
    have hs := step_cases hs
    have hcounts' := hcounts.step hs
    rw [vpoolInUse_fresh hcounts'.nextFree] at hbalance
    have hstored : s'.header.stored = s'.started := hcounts'.stored
    simp only [ne_eq, Classical.not_not] at hl
    subst hl
    cases hs
    simp [State.header] at hbalance hstored
    omega

def starting : List Label :=
  [.work 0, .work 0, .push 0, .push 0, .work 0, .work 0, .yield .IOURING_READ, .work 0, .work 0,
    .work 0, .work 0]

theorem slotLaw_iff_starting :
    ∃ (tr : List (State 2 × Label)) (s : State 2), (machine 2).Run tr s ∧ s.started = 2 ∧
      ((∀ x, Machine.Visits tr s x → SlotLaw x) ↔ ∀ p ∈ tr, p.2 ≠ .finish) := by
  obtain ⟨tr, s, hr, hlimit, hs⟩ := (machine 2).exists_run_through (start true noPools 4096) starting
    (fun s => s.pending ≤ 2) (fun s => s.started = 2) ⟨by decide, _, _, _, rfl⟩ (by decide)
  simp only [decide_eq_true_eq] at hlimit hs
  exact ⟨tr, s, hr, hs, slotLaw_iff hr hlimit⟩

/-- A worker for one job runs one, which is acknowledged, and then has no green thread for
the next. -/
theorem not_slotLaw_secondJob :
    ¬ ∀ (tr : List (State 1 × Label)) (s : State 1), (machine 1).Run tr s →
      (∀ x, Machine.Visits tr s x → x.pending ≤ 1) → ∀ x, Machine.Visits tr s x → SlotLaw x := by
  obtain ⟨tr, s, hr, hlimit, hs⟩ := (machine 1).exists_run_through (start true noPools 4096)
    [.work 0, .work 0, .push 0, .work 0, .work 0, .finish, .work 0, .pop, .ack, .push 0, .work 0,
      .work 0, .work 0, .work 0]
    (fun s => s.pending ≤ 1) (fun s => s.pc = .noGreenThread) ⟨by decide, _, _, _, rfl⟩ (by decide)
  simp only [decide_eq_true_eq] at hlimit hs
  intro hlaw
  exact (hlaw tr s hr hlimit s (.inl rfl)).1 hs

end Dert.Gtpoolrr
