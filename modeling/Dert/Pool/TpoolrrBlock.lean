import Dert.Pool.PoolLayout
import Dert.Pool.TpoolrrJoin

namespace Dert.Tpoolrr

open Library

section Definitions

variable {threadsTotal jobsPerThread : Nat}

section Queues

variable (threadsTotal jobsPerThread queues index : Nat)

def queueElems : Nat :=
  (arrayInitvElems sizeofAqueue threadsTotal queues sizeofTpoolrrJob jobsPerThread).getD index 0

def elemsRegion : Extent :=
  ⟨queueElems threadsTotal jobsPerThread queues index, jobsPerThread * sizeofTpoolrrJob⟩

def slotRegion (i : Nat) : Extent :=
  ⟨queueElems threadsTotal jobsPerThread queues index + sizeT (i * sizeofTpoolrrJob),
    sizeofTpoolrrJob⟩

end Queues

def completes (k : Fin threadsTotal) (s : State threadsTotal jobsPerThread) :
    Label threadsTotal → List TpoolrrJob
  | .work index _ =>
    let t := s.threads k
    if index = k ∧ t.pc = .enqueue ∧ t.completionQueue.length ≠ jobsPerThread then [t.job] else []
  | _ => []

structure Copy (threadsTotal : Nat) where
  queues : Nat
  index : Fin threadsTotal
  slot : Nat
  deriving DecidableEq

/-- The copy that the next step makes.  A queue's `back` counts, modulo its capacity, what was
enqueued there before. -/
def copies (p : Tpoolrr) (tr : Trace threadsTotal jobsPerThread)
    (s : State threadsTotal jobsPerThread) : Label threadsTotal → Option (Copy threadsTotal)
  | .main =>
    match s.main with
    | .jobsAddEnqueue _ index =>
      if (s.threads index).submissionQueue.length = jobsPerThread then none
      else some ⟨p.jobSubmissionQueues, index, (putOn index s.placed).length % jobsPerThread⟩
    | _ => none
  | .work index now =>
    if completes index s (.work index now) = [] then none
    else some ⟨p.jobCompletionQueues, index, (history (completes index) tr).length % jobsPerThread⟩
  | _ => none

variable (pthread : Pthread) (memory : Nat)

/-- The copy stays in the block of the pool, and leaves all of it but the elements of its queue
alone. -/
def Copy.Kept (jobsPerThread : Nat) (p : Tpoolrr) (copy : Copy threadsTotal) : Prop :=
  let slot := slotRegion threadsTotal jobsPerThread copy.queues copy.index copy.slot
  let elems := elemsRegion threadsTotal jobsPerThread copy.queues copy.index
  slot.Within ⟨memory, tpoolrrAdvise pthread threadsTotal jobsPerThread⟩ ∧
    ∀ r ∈ (p.regions pthread threadsTotal jobsPerThread).erase elems, slot.Apart r

def CopiesKept (p : Tpoolrr) : Trace threadsTotal jobsPerThread → Prop
  | [] => True
  | (s, l) :: tr => CopiesKept p tr ∧
    ∀ copy, copies p tr s l = some copy → copy.Kept pthread memory jobsPerThread p

/-- On the memory given to `tpoolrr_init`, the queues of the pool are apart from each other and
from everything else. -/
def Contained (tr : Trace threadsTotal jobsPerThread) : Prop :=
  ∃ p, tpoolrrInit pthread threadsTotal jobsPerThread memory = some p ∧
    CopiesKept pthread memory p tr

end Definitions

section Laws

variable {threadsTotal jobsPerThread : Nat} {pthread : Pthread}

theorem queueElems_mem {index : Nat} (queues : Nat) (hindex : index < threadsTotal) :
    queueElems threadsTotal jobsPerThread queues index ∈
      arrayInitvElems sizeofAqueue threadsTotal queues sizeofTpoolrrJob jobsPerThread := by
  have hlen : (arrayInitvElems sizeofAqueue threadsTotal queues sizeofTpoolrrJob
      jobsPerThread).length = threadsTotal := by
    rw [arrayInitvElems, initvElems_eq, List.length_map, List.length_range]
  have hlt := hlen.symm ▸ hindex
  rw [queueElems, List.getD_eq_getElem?_getD, List.getElem?_eq_getElem hlt, Option.getD_some]
  exact List.getElem_mem hlt

theorem elemsRegion_mem {index : Nat} (queues : Nat) (hindex : index < threadsTotal) :
    elemsRegion threadsTotal jobsPerThread queues index ∈
      aqueueInitvRegions threadsTotal queues sizeofTpoolrrJob jobsPerThread :=
  List.mem_append_right _ (List.mem_map_of_mem (queueElems_mem queues hindex))

theorem slotRegion_within {queues index i : Nat} (hi : i < jobsPerThread)
    (hsize : jobsPerThread * sizeofTpoolrrJob < sizeMax) :
    (slotRegion threadsTotal jobsPerThread queues index i).Within
      (elemsRegion threadsTotal jobsPerThread queues index) := by
  have hle := Nat.mul_le_mul_right sizeofTpoolrrJob (Nat.succ_le_of_lt hi)
  rw [Nat.succ_mul] at hle
  rw [slotRegion, sizeT_of_lt (by omega)]
  refine ⟨Nat.le_add_right _ _, ?_⟩
  simp only [Extent.stop, elemsRegion]
  omega

theorem copies_eq {p : Tpoolrr} {tr : Trace threadsTotal jobsPerThread}
    {s : State threadsTotal jobsPerThread} {l : Label threadsTotal} {copy : Copy threadsTotal}
    (hjobs : 0 < jobsPerThread) (h : copies p tr s l = some copy) :
    (copy.queues = p.jobSubmissionQueues ∨ copy.queues = p.jobCompletionQueues) ∧
      copy.slot < jobsPerThread := by
  cases l with
  | main =>
    simp only [copies] at h
    split at h
    · split_ifs at h
      cases h
      exact ⟨.inl rfl, Nat.mod_lt _ hjobs⟩
    · cases h
  | work index now =>
    simp only [copies] at h
    split_ifs at h
    cases h
    exact ⟨.inr rfl, Nat.mod_lt _ hjobs⟩
  | _ => cases h

variable [NeZero threadsTotal]

theorem contained_of_size (hjobs : 0 < jobsPerThread)
    (hsize : tpoolrrTotal pthread threadsTotal jobsPerThread < sizeMax) (memory : Nat)
    (tr : Trace threadsTotal jobsPerThread) : Contained pthread memory tr := by
  have hthreads : 0 < threadsTotal := NeZero.pos threadsTotal
  obtain ⟨p, hinit, hfills⟩ := tpoolrr_fills hthreads hjobs hsize memory
  have hone := Nat.le_mul_of_pos_left (sizeofAqueue + jobsPerThread * sizeofTpoolrrJob) hthreads
  have helems : jobsPerThread * sizeofTpoolrrJob < sizeMax := by
    simp only [tpoolrrTotal] at hsize
    omega
  refine ⟨p, hinit, ?_⟩
  induction tr with
  | nil => trivial
  | cons q tr ih =>
    refine ⟨ih, fun copy hcopy => ?_⟩
    obtain ⟨hqueues, hslot⟩ := copies_eq hjobs hcopy
    refine hfills.only ?_ (slotRegion_within hslot helems)
    have hmem : elemsRegion threadsTotal jobsPerThread copy.queues copy.index ∈
        aqueueInitvRegions threadsTotal copy.queues sizeofTpoolrrJob jobsPerThread :=
      elemsRegion_mem copy.queues copy.index.isLt
    rcases hqueues with hqueues | hqueues <;>
      simp only [Tpoolrr.regions, List.mem_cons, List.mem_append, hqueues] at hmem ⊢ <;> tauto

section Runs

variable {tr : Trace threadsTotal jobsPerThread} {s : State threadsTotal jobsPerThread}

theorem jobs_pos (hr : (machine threadsTotal jobsPerThread).Run tr s) : 0 < jobsPerThread := by
  obtain ⟨x, ⟨hjobs, -⟩, -⟩ := hr.visits_init
  exact hjobs

/-- Where the size of the block does not wrap: when all submission queues are empty and no worker
holds a job, no job is lost, and none was copied to a place that is not its own, exactly when no
completion ever met a full queue. -/
theorem noneLost_contained_iff (hsize : tpoolrrTotal pthread threadsTotal jobsPerThread < sizeMax)
    (memory : Nat) (hr : (machine threadsTotal jobsPerThread).Run tr s) (hd : s.Drained) :
    s.NoneLost ∧ Contained pthread memory tr ↔ ∀ p ∈ tr, ¬ Overfull p.1 p.2 := by
  rw [and_iff_left (contained_of_size (jobs_pos hr) hsize memory tr)]
  exact noneLost_iff hr hd

/-- Where the size of the block does not wrap, the jobs of a run that stops no thread and joins
with its last call only are served, and none is copied to a place that is not its own. -/
theorem jobs_contained_run (hsize : tpoolrrTotal pthread threadsTotal jobsPerThread < sizeMax)
    (memory : Nat) (hr : (machine threadsTotal jobsPerThread).Run tr s)
    (hstop : Call.stopSafe ∉ calls tr) (hjoin : Call.join ∉ (calls tr).tail) :
    Served tr s ∧ Contained pthread memory tr :=
  ⟨jobs_run hr hstop hjoin, contained_of_size (jobs_pos hr) hsize memory tr⟩

end Runs

end Laws

section Turns

def addOne (tag : UInt64) : List (Label 2) :=
  [.call (.jobsAdd zeroJob tag 1 1 0 0), .main, .main, .main, .main, .main]

def serveOne (k : Fin 2) : List (Label 2) :=
  [.work k 0, .work k 0, .work k 0, .work k 0, .work k 0, .finish k 0, .work k 0]

def setBoth (call : Call) : List (Label 2) :=
  [.call call, .main, .main, .main, .main, .main, .main, .main]

def joinOne (k : Fin 2) : List (Label 2) :=
  [.main, .main, .main, .work k 0, .work k 0, .work k 0, .main]

theorem noneLost_contained_iff_threeJobs :
    ∃ (tr : Trace 2 2) (s : State 2 2), (machine 2 2).Run tr s ∧ s.accepted.length = 3 ∧
      s.popped.length = 1 ∧ s.NoneLost ∧ Contained ⟨8, 48, 40⟩ 4096 tr := by
  obtain ⟨tr, s, hr, hs⟩ := (machine 2 2).exists_run_of_record (start fun _ => zeroJob)
    (addOne 7 ++ addOne 8 ++ addOne 9 ++ serveOne 1 ++ serveOne 0 ++
      [.call .completionsPop, .main] ++ serveOne 0)
    (fun tr s => s.Drained ∧ s.accepted.length = 3 ∧ s.popped.length = 1 ∧
      tr.all fun p => decide (∀ index, (p.1.threads index).completionQueue.length ≠ 2))
    ⟨by decide, _, rfl⟩ (by decide)
  simp only [decide_eq_true_eq, List.all_eq_true] at hs
  obtain ⟨hdrained, haccepted, hpopped, hroom⟩ := hs
  have hfull : ∀ p ∈ tr, ¬ Overfull p.1 p.2 := by
    rintro p hp ⟨index, now, -, -, hfull⟩
    exact hroom p hp index hfull
  exact ⟨tr, s, hr, haccepted, hpopped,
    (noneLost_contained_iff (by decide) 4096 hr hdrained).mpr hfull⟩

theorem jobs_contained_run_threeJobs :
    ∃ (tr : Trace 2 2) (s : State 2 2), (machine 2 2).Run tr s ∧
      (s.accepted.map fun p => (p.1, p.2.userTag)) = [(0, 7), (1, 8), (0, 9)] ∧
      Returned .join tr s ∧ Served tr s ∧ Contained ⟨8, 48, 40⟩ 4096 tr := by
  obtain ⟨tr, s, hr, hs⟩ := (machine 2 2).exists_run_of_record (start fun _ => zeroJob)
    (addOne 7 ++ addOne 8 ++ setBoth .pause ++ addOne 9 ++ setBoth .resume ++ serveOne 1 ++
      serveOne 0 ++ serveOne 0 ++ [.call .join] ++ joinOne 0 ++ joinOne 1 ++ [.main])
    (fun tr s => Call.stopSafe ∉ calls tr ∧ Call.join ∉ (calls tr).tail ∧ Returned .join tr s ∧
      (s.accepted.map fun p => (p.1, p.2.userTag)) = [(0, 7), (1, 8), (0, 9)])
    ⟨by decide, _, rfl⟩ (by decide)
  simp only [decide_eq_true_eq] at hs
  obtain ⟨hstop, hjoin, hret, htags⟩ := hs
  exact ⟨tr, s, hr, htags, hret, jobs_contained_run (by decide) 4096 hr hstop hjoin⟩

/-- For `2 ^ 61` jobs the size wraps to that of the headers, and the first job is copied over the
header of the completion queue. -/
theorem not_contained_wrapped :
    ¬ ∀ (jobsPerThread memory : Nat) (tr : Trace 1 jobsPerThread) (s : State 1 jobsPerThread),
      (machine 1 jobsPerThread).Run tr s → Call.stopSafe ∉ calls tr →
        Call.join ∉ (calls tr).tail → Served tr s ∧ Contained ⟨8, 48, 40⟩ memory tr := by
  let p : Tpoolrr := ⟨4096, 4200, 4208, 4224, 4272, 4320, 4324, 4328, 4376⟩
  obtain ⟨tr, s, hr, hs⟩ := (machine 1 (2 ^ 61)).exists_run_of_record (start fun _ => zeroJob)
    [.call (.jobsAdd zeroJob 7 1 1 0 0), .main, .main]
    (fun tr s => (Call.stopSafe ∉ calls tr ∧ Call.join ∉ (calls tr).tail) ∧
      tr.head?.any fun q => copies p tr.tail q.1 q.2 = some ⟨4224, 0, 0⟩)
    ⟨by decide, _, rfl⟩ (by decide)
  simp only [decide_eq_true_eq] at hs
  obtain ⟨⟨hstop, hjoin⟩, hcopy⟩ := hs
  intro hlaw
  obtain ⟨-, p', hinit, hkept⟩ := hlaw (2 ^ 61) 4096 tr s hr hstop hjoin
  obtain rfl : p = p' := Option.some.inj ((show _ = some p from rfl).symm.trans hinit)
  cases tr with
  | nil => simp at hcopy
  | cons q tr =>
    have hcopy : copies p tr q.1 q.2 = some ⟨4224, 0, 0⟩ := of_decide_eq_true hcopy
    exact absurd ((hkept.2 _ hcopy).2 ⟨4272, 48⟩ (by decide)) (by decide)

end Turns

end Dert.Tpoolrr
