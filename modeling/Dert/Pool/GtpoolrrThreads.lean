import Dert.Pool.GtpoolrrJoin
import Dert.Pool.GtpoolrrSlots

namespace Dert.Gtpoolrr

open Library

variable {jobsPerThread : Nat} {s s' : State jobsPerThread} {l : Label}

section Vpool

variable {memory memory' : VpoolMemory} {pool elem depth : Nat} {calloc : Option Nat}

theorem vpoolAlloc_slot (hfree : (memory.pools pool).nextFree = 0)
    (hkind : (memory.pools pool).kind = .VPOOL_KIND_STATIC)
    (h : vpoolAlloc calloc (depth + 1) memory pool = (memory', some elem)) :
    elem = (memory.pools pool).items +
        (memory.pools pool).stored * (memory.pools pool).elementSize ∧
      (memory.pools pool).stored ≠ (memory.pools pool).capacity := by
  unfold vpoolAlloc at h
  simp only [hfree, hkind, vpoolFull, ne_eq, not_true_eq_false, if_false] at h
  split_ifs at h with hfull
  · simp at h
  · simp only [Prod.mk.injEq, Option.some.injEq] at h
    exact ⟨h.2.symm, by simpa using hfull⟩

end Vpool

def State.slot (s : State jobsPerThread) (i : Nat) : Nat :=
  s.greenThreads + sizeofVpool + i * greentAdvise

/-- What a step does to the green threads: they change places, a new one starts, or the one that
runs is over. -/
inductive Flow (s s' : State jobsPerThread) : Prop
  | kept : s'.live.Perm s.live → s'.started = s.started → s'.finished = s.finished →
      s'.header = s.header → Flow s s'
  | started (memory thread) : vpoolAlloc none 2 s.memory s.greenThreads = (memory, some thread) →
      s'.live.Perm (thread :: s.live) → s'.started = s.started + 1 → s'.finished = s.finished →
      s'.memory = memory → Flow s s'
  | finished (thread) : s.live.Perm (thread :: s'.live) → s'.started = s.started →
      s'.finished = s.finished + 1 → s'.header = s.header → Flow s s'

theorem submitted_parked (op : GreentDo) (thread : Nat) (h : greentDoSubmit op ≠ []) :
    (((greentDoSubmit op).map fun timeout => (thread, timeout)).filter
      fun cqe => cqe.2 = false).map Prod.fst = [thread] := by
  cases op <;> simp_all [greentDoSubmit]

theorem flow (h : Inv s) (hcounts : Counts s) (hs : Step s l s') : Flow s s' := by
  cases hs
  case started hpc hlist halloc =>
    refine .started _ _ halloc ?_ rfl rfl rfl
    simp [State.live, State.parked, h.running (.inl hpc)]
  case noGreenThread halloc =>
    obtain ⟨-, rfl⟩ := vpoolAlloc_none hcounts.nextFree hcounts.kind halloc
    exact .kept (.refl _) rfl rfl rfl
  case finished hpc =>
    obtain ⟨thread, hrun⟩ := Option.isSome_iff_exists.mp (h.inJob hpc)
    refine .finished thread ?_ rfl rfl rfl
    simp [State.live, State.parked, hrun]
  case posted i cqe hcqe =>
    refine .kept ?_ rfl rfl rfl
    have hperm : (s.outstanding.eraseIdx i ++ (s.posted ++ [cqe])).Perm
        (s.outstanding ++ s.posted) := by
      obtain ⟨hi, rfl⟩ := List.getElem?_eq_some_iff.mp hcqe
      rw [← List.append_assoc]
      refine List.perm_append_singleton _ _ |>.trans ?_
      rw [← List.cons_append]
      exact (List.getElem_cons_eraseIdx_perm hi).append_right _
    exact ((hperm.filter _).map _).append_left _
  case submitted op thread hpc hrun hsub =>
    refine .kept ?_ rfl rfl rfl
    simp only [State.live, State.parked, hrun, List.filter_append, List.map_append,
      submitted_parked op thread hsub, Option.toList_none, Option.toList_some, List.nil_append,
      List.append_assoc, List.cons_append]
    rw [← List.append_assoc]
    refine List.perm_middle.trans ?_
    rw [List.append_assoc]
  case readied hpc hposted hlist =>
    refine .kept ?_ rfl rfl rfl
    simp only [State.live, State.parked, hposted, hlist, List.filter_append, List.map_append,
      List.filter_cons, decide_true, if_true, List.map_cons, List.append_assoc,
      List.singleton_append]
    exact (List.perm_middle.symm.append_left _).append_left _
  case chosen hpc hrun hlist =>
    refine .kept ?_ rfl rfl rfl
    simp [State.live, State.parked, hrun, hlist]
  all_goals
    refine .kept ?_ rfl rfl rfl
    simp_all [State.live, State.parked]

/-- The green threads are those of the jobs that have started and not finished, each in the slot
that it got. -/
structure Threads (s : State jobsPerThread) : Prop where
  inv : Inv s
  counts : Counts s
  items : s.header.items = s.greenThreads + sizeofVpool
  elementSize : s.header.elementSize = greentAdvise
  bounded : s.started ≤ jobsPerThread
  nodup : s.live.Nodup
  slots : ∀ thread ∈ s.live, ∃ i < s.started, thread = s.slot i
  length : s.live.length + s.finished = s.started

theorem threads_start (ring : Bool) (memory : VpoolMemory) (greenThreads : Nat)
    (hpos : 0 < jobsPerThread) :
    Threads (start ring memory greenThreads : State jobsPerThread) := by
  have hheader : (start ring memory greenThreads : State jobsPerThread).header =
      ⟨greenThreads + sizeofVpool, greentAdvise, 0, jobsPerThread, 0, .VPOOL_KIND_STATIC, 0⟩ := by
    simp [State.header, start, vpoolInit, _vpoolInit, Nat.ne_of_gt hpos, greentAdvise,
      sizeofPointer]
  refine ⟨inv_start ring memory greenThreads, counts_start ring memory greenThreads hpos,
    ?_, ?_, ?_, ?_, ?_, ?_⟩
  · rw [hheader]
    rfl
  · rw [hheader]
  · exact Nat.zero_le _
  · exact List.nodup_nil
  · simp [State.live, State.parked, start, Fifo.empty]
  · rfl

theorem State.slot_injective (s : State jobsPerThread) {i j : Nat} (h : s.slot i = s.slot j) :
    i = j := by
  simp only [State.slot, greentAdvise] at h
  omega

theorem greenThreads_step (hs : Step s l s') : s'.greenThreads = s.greenThreads := by
  cases hs <;> rfl

theorem Threads.step (h : Threads s) (hs : Step s l s') : Threads s' := by
  have hpool := greenThreads_step hs
  have hslot : s'.slot = s.slot := by
    funext i
    rw [State.slot, State.slot, hpool]
  have hcounts := h.counts.step hs
  cases flow h.inv h.counts hs with
  | kept hlive hstarted hfinished hheader =>
    refine ⟨h.inv.step hs, hcounts, ?_, ?_, ?_, hlive.nodup_iff.mpr h.nodup, ?_, ?_⟩
    · rw [hheader, hpool, h.items]
    · rw [hheader, h.elementSize]
    · rw [hstarted]
      exact h.bounded
    · rw [hslot, hstarted]
      exact fun thread hmem => h.slots thread (hlive.mem_iff.mp hmem)
    · rw [hlive.length_eq, hstarted, hfinished, h.length]
  | finished thread hlive hstarted hfinished hheader =>
    have hnodup := hlive.nodup_iff.mp h.nodup
    refine ⟨h.inv.step hs, hcounts, ?_, ?_, ?_, (List.nodup_cons.mp hnodup).2, ?_, ?_⟩
    · rw [hheader, hpool, h.items]
    · rw [hheader, h.elementSize]
    · rw [hstarted]
      exact h.bounded
    · rw [hslot, hstarted]
      exact fun thread hmem => h.slots thread (hlive.mem_iff.mpr (List.mem_cons_of_mem _ hmem))
    · have hlength := h.length
      rw [hlive.length_eq, List.length_cons] at hlength
      omega
  | started memory thread halloc hlive hstarted hfinished hmemory =>
    have hheader := vpoolAlloc_some h.counts.nextFree h.counts.kind halloc
    obtain ⟨hthread, hroom⟩ := vpoolAlloc_slot h.counts.nextFree h.counts.kind halloc
    have hheader' : s'.header = { s.header with stored := s.header.stored + 1 } := by
      rw [State.header, hmemory, hpool, hheader]
      rfl
    have hnew : thread = s.slot s.started := by
      rw [hthread]
      change s.header.items + s.header.stored * s.header.elementSize = _
      rw [h.items, h.elementSize, h.counts.stored]
      rfl
    have hless : s.started ≠ jobsPerThread := fun heq =>
      hroom (h.counts.stored.trans (heq.trans h.counts.capacity.symm))
    have hold : thread ∉ s.live := by
      intro hmem
      obtain ⟨i, hi, heq⟩ := h.slots thread hmem
      exact Nat.ne_of_lt hi (s.slot_injective (heq.symm.trans hnew))
    have hbounded := h.bounded
    refine ⟨h.inv.step hs, hcounts, ?_, ?_, by omega, ?_, ?_, ?_⟩
    · rw [hheader', hpool, ← h.items]
    · rw [hheader', ← h.elementSize]
    · exact hlive.nodup_iff.mpr (List.nodup_cons.mpr ⟨hold, h.nodup⟩)
    · rw [hslot, hstarted]
      intro u hu
      rcases List.mem_cons.mp (hlive.mem_iff.mp hu) with rfl | hmem
      · exact ⟨s.started, Nat.lt_succ_self _, hnew⟩
      · obtain ⟨i, hi, heq⟩ := h.slots u hmem
        exact ⟨i, Nat.lt_succ_of_lt hi, heq⟩
    · have hlength := h.length
      rw [hlive.length_eq, List.length_cons]
      omega

/-- The ready queue has room for the green thread of a completion. -/
theorem Threads.ready_lt (h : Threads s) {thread : Nat} {posted : List (Nat × Bool)}
    (hposted : s.posted = (thread, false) :: posted) :
    s.readyThreads.list.length < jobsPerThread := by
  have hlength := h.length
  have hbounded := h.bounded
  simp [State.live, State.parked, hposted] at hlength
  omega

/-- The completion queue has room for the job of a worker that has no more pending jobs than it
may have. -/
theorem Threads.completion_lt (h : Threads s) (hpc : s.pc = .complete)
    (hpending : s.pending ≤ jobsPerThread) :
    s.completionQueue.list.length < jobsPerThread := by
  have hdequeued := h.counts.dequeued
  have hcompleted := h.counts.completed
  have hpopped := h.counts.popped
  have hacknowledged := h.counts.acknowledged
  have hlength := h.length
  have haccepted := congrArg List.length h.inv.split
  simp [hpc] at hdequeued hcompleted
  rw [List.length_append] at haccepted
  rw [State.pending] at hpending
  rw [Fifo.length] at hpopped
  omega

theorem Threads.not_readyFull (h : Threads s) (hs : Gtpoolrr.step s l = some s')
    (hready : s.pc ≠ .readyFull) : s'.pc ≠ .readyFull := by
  cases step_cases hs
  case readyFull now hpc =>
    rw [Gtpoolrr.step, gtpoolrrWorker, hpc] at hs
    cases hposted : s.posted with
    | nil => simp [hposted] at hs
    | cons cqe posted =>
      obtain ⟨thread, timeout⟩ := cqe
      cases timeout with
      | true => simp [hposted] at hs
      | false => simp [hposted, Fifo.push_of_lt (h.ready_lt hposted)] at hs
  all_goals simp_all

theorem Threads.not_completionFull (h : Threads s) (hs : Gtpoolrr.step s l = some s')
    (hpending : s.pending ≤ jobsPerThread) (hcompletion : s.pc ≠ .completionFull) :
    s'.pc ≠ .completionFull := by
  cases step_cases hs
  case completionFull now hpc =>
    rw [Gtpoolrr.step, gtpoolrrWorker, hpc] at hs
    cases hjob : s.job with
    | none => simp [hjob] at hs
    | some job => simp [hjob, Fifo.push_of_lt (h.completion_lt hpc hpending)] at hs
  all_goals simp_all

section Runs

variable {tr : List (State jobsPerThread × Label)}

theorem threads_inv (hr : (machine jobsPerThread).Run tr s) : Threads s ∧ s.pc ≠ .readyFull := by
  refine hr.always (I := fun s => Threads s ∧ s.pc ≠ .readyFull) ?_
    fun s l s' h hs => ⟨h.1.step (step_cases hs), h.1.not_readyFull hs h.2⟩
  rintro s ⟨hpos, ring, memory, greenThreads, rfl⟩
  exact ⟨threads_start ring memory greenThreads hpos, by cases ring <;> simp [start]⟩

/-- The worker neither loses nor doubles a green thread: the one that runs, those that are ready
and those whose operations are under way are all different, each is in a slot of the pool, and
they are as many as jobs have started and not finished.  There is always room to make one
ready. -/
theorem threads_run (hr : (machine jobsPerThread).Run tr s) :
    s.live.Nodup ∧ (∀ thread ∈ s.live, ∃ i < jobsPerThread, thread = s.slot i) ∧
      s.live.length + s.finished = s.started ∧ s.started ≤ jobsPerThread ∧ s.pc ≠ .readyFull := by
  obtain ⟨h, hready⟩ := threads_inv hr
  refine ⟨h.nodup, fun thread hmem => ?_, h.length, h.bounded, hready⟩
  obtain ⟨i, hi, heq⟩ := h.slots thread hmem
  exact ⟨i, Nat.lt_of_lt_of_le hi h.bounded, heq⟩

theorem threads_run_starting : ∃ (tr : List (State 2 × Label)) (s : State 2),
    (machine 2).Run tr s ∧ s.live.length = 2 ∧ s.live.Nodup := by
  obtain ⟨tr, s, hr, hs⟩ := (machine 2).exists_run_of_exec (start true noPools 4096) starting
    (fun s => s.live.length = 2) ⟨by decide, _, _, _, rfl⟩ (by decide)
  rw [decide_eq_true_eq] at hs
  exact ⟨tr, s, hr, hs, (threads_run hr).1⟩

/-- As long as no more jobs are pending than the worker may have, no assertion of it fails but
the one that `vpool_alloc` had a green thread, and that one not before a job has finished. -/
theorem asserts_run (hr : (machine jobsPerThread).Run tr s)
    (hlimit : ∀ x, Machine.Visits tr s x → x.pending ≤ jobsPerThread) :
    s.pc ≠ .readyFull ∧ s.pc ≠ .completionFull ∧
      (s.pc = .noGreenThread → s.started = jobsPerThread ∧ 0 < s.finished) := by
  obtain ⟨h, hready⟩ := threads_inv hr
  refine ⟨hready, ?_, fun hpc => ⟨h.counts.exhausted hpc, ?_⟩⟩
  · refine (hr.invariant (I := fun s => Threads s ∧ s.pc ≠ .completionFull)
      (G := fun s _ => s.pending ≤ jobsPerThread) ?_ (fun s l s' h hg hs =>
        ⟨h.1.step (step_cases hs), h.1.not_completionFull hs hg h.2⟩) fun p hp => ?_).2
    · rintro s ⟨hpos, ring, memory, greenThreads, rfl⟩
      exact ⟨threads_start ring memory greenThreads hpos, by cases ring <;> simp [start]⟩
    · exact hlimit p.1 (.inr (List.mem_map_of_mem hp))
  · by_contra hnone
    have hpending := h.counts.pending_gt h.inv (Nat.eq_zero_of_not_pos hnone) hpc
    exact Nat.not_le_of_lt hpending (hlimit s (.inl rfl))

theorem asserts_run_secondJob : ∃ (tr : List (State 1 × Label)) (s : State 1),
    (machine 1).Run tr s ∧ s.pc = .noGreenThread ∧ 0 < s.finished := by
  obtain ⟨tr, s, hr, hlimit, hs⟩ := (machine 1).exists_run_through (start true noPools 4096)
    [.work 0, .work 0, .push 0, .work 0, .work 0, .finish, .work 0, .pop, .ack, .push 0, .work 0,
      .work 0, .work 0, .work 0]
    (fun s => s.pending ≤ 1) (fun s => s.pc = .noGreenThread) ⟨by decide, _, _, _, rfl⟩ (by decide)
  simp only [decide_eq_true_eq] at hlimit hs
  exact ⟨tr, s, hr, hs, ((asserts_run hr hlimit).2.2 hs).2⟩

end Runs

end Dert.Gtpoolrr
