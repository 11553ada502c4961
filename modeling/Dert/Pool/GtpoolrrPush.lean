import Dert.Library.Scan
import Dert.Pool.TpoolrrLaws

universe u

namespace Dert

open Library

structure GtpoolrrJobPtr (Ptr : Type u) where
  job : Ptr
  function : UInt64
  arg : UInt64

structure GtpoolrrPool (Ptr : Type u) (threadsTotal jobsPerThread : Nat) where
  rrIndex : UInt64
  jobSubmissionQueues : Fin threadsTotal → Fifo Ptr jobsPerThread

variable {Ptr : Type u} {threadsTotal jobsPerThread : Nat}

def gtpoolrrSbsPushDirect (pool : GtpoolrrPool Ptr threadsTotal jobsPerThread)
    (threadIndex : Fin threadsTotal) (job : GtpoolrrJobPtr Ptr) :
    GtpoolrrPool Ptr threadsTotal jobsPerThread × Ret :=
  if job.function = 0 ∨ job.arg = 0 then (pool, .EINVAL)
  else
    match (pool.jobSubmissionQueues threadIndex).push job.job with
    | none => (pool, .EXFULL)
    | some queue =>
      ({ pool with
        jobSubmissionQueues := Function.update pool.jobSubmissionQueues threadIndex queue }, .ok)

section Direct

variable {pool : GtpoolrrPool Ptr threadsTotal jobsPerThread} {threadIndex : Fin threadsTotal}
  {job : GtpoolrrJobPtr Ptr}

theorem gtpoolrrSbsPushDirect_of_null (hnull : job.function = 0 ∨ job.arg = 0) :
    gtpoolrrSbsPushDirect pool threadIndex job = (pool, .EINVAL) :=
  if_pos hnull

theorem gtpoolrrSbsPushDirect_of_none (hnull : ¬ (job.function = 0 ∨ job.arg = 0))
    (hpush : (pool.jobSubmissionQueues threadIndex).push job.job = none) :
    gtpoolrrSbsPushDirect pool threadIndex job = (pool, .EXFULL) := by
  rw [gtpoolrrSbsPushDirect, if_neg hnull, hpush]

theorem gtpoolrrSbsPushDirect_of_some {queue : Fifo Ptr jobsPerThread}
    (hnull : ¬ (job.function = 0 ∨ job.arg = 0))
    (hpush : (pool.jobSubmissionQueues threadIndex).push job.job = some queue) :
    gtpoolrrSbsPushDirect pool threadIndex job =
      (⟨pool.rrIndex, Function.update pool.jobSubmissionQueues threadIndex queue⟩, .ok) := by
  rw [gtpoolrrSbsPushDirect, if_neg hnull, hpush]

end Direct

variable [NeZero threadsTotal]

def gtpoolrrSbsPushRrLoop (pool : GtpoolrrPool Ptr threadsTotal jobsPerThread)
    (job : GtpoolrrJobPtr Ptr) (i : Nat) : Nat → GtpoolrrPool Ptr threadsTotal jobsPerThread × Ret
  | 0 => (pool, .EBUSY)
  | left + 1 =>
    let index := Fin.ofNat threadsTotal (UInt64.ofNat i + pool.rrIndex).toNat
    match gtpoolrrSbsPushDirect pool index job with
    | (pool, res) =>
      if res ≠ .ok then (pool, res)
      else if res = .EXFULL then gtpoolrrSbsPushRrLoop pool job (i + 1) left
      else ({ pool with rrIndex := pool.rrIndex + 1 }, .ok)

def gtpoolrrSbsPushRr (pool : GtpoolrrPool Ptr threadsTotal jobsPerThread)
    (job : GtpoolrrJobPtr Ptr) : GtpoolrrPool Ptr threadsTotal jobsPerThread × Ret :=
  if job.function = 0 ∨ job.arg = 0 then (pool, .EINVAL)
  else gtpoolrrSbsPushRrLoop pool job 0 (threadsTotal + 1)

namespace Gtpoolrr

/-- The job goes to the first queue with room, going round from `rr_index`. -/
def PushRrLaw (pool : GtpoolrrPool Ptr threadsTotal jobsPerThread) (job : GtpoolrrJobPtr Ptr) :
    Prop :=
  match firstFrom (fun k => (pool.jobSubmissionQueues k).length ≠ jobsPerThread)
      pool.rrIndex.toNat with
  | none => gtpoolrrSbsPushRr pool job = (pool, .EBUSY)
  | some k => ∃ rrIndex queue, queue.list = (pool.jobSubmissionQueues k).list ++ [job.job] ∧
      gtpoolrrSbsPushRr pool job =
        (⟨rrIndex, Function.update pool.jobSubmissionQueues k queue⟩, .ok)

variable {pool : GtpoolrrPool Ptr threadsTotal jobsPerThread} {job : GtpoolrrJobPtr Ptr}

/-- Only the first queue is tried. -/
theorem pushRr_eq (hfunction : job.function ≠ 0) (harg : job.arg ≠ 0) :
    gtpoolrrSbsPushRr pool job =
      match (pool.jobSubmissionQueues (Fin.ofNat threadsTotal pool.rrIndex.toNat)).push job.job with
      | none => (pool, .EXFULL)
      | some queue => (⟨pool.rrIndex + 1, Function.update pool.jobSubmissionQueues
          (Fin.ofNat threadsTotal pool.rrIndex.toNat) queue⟩, .ok) := by
  have hindex : UInt64.ofNat 0 + pool.rrIndex = pool.rrIndex := UInt64.zero_add _
  have hnull := not_or.mpr ⟨hfunction, harg⟩
  rw [gtpoolrrSbsPushRr, if_neg hnull, gtpoolrrSbsPushRrLoop, hindex]
  cases hpush : (pool.jobSubmissionQueues (Fin.ofNat threadsTotal pool.rrIndex.toNat)).push
    job.job with
  | none =>
    simp only [gtpoolrrSbsPushDirect_of_none hnull hpush]
    rfl
  | some queue =>
    simp only [gtpoolrrSbsPushDirect_of_some hnull hpush]
    rfl

theorem PushRrLaw.res (hlaw : PushRrLaw pool job) :
    (gtpoolrrSbsPushRr pool job).2 = .ok ∨ (gtpoolrrSbsPushRr pool job).2 = .EBUSY := by
  rw [PushRrLaw] at hlaw
  split at hlaw
  · exact .inr (by rw [hlaw])
  · obtain ⟨rrIndex, queue, -, hpush⟩ := hlaw
    exact .inl (by rw [hpush])

/-- A push finds the first queue with room exactly when that is the one it begins at. -/
theorem pushRrLaw_iff : PushRrLaw pool job ↔ (job.function ≠ 0 ∧ job.arg ≠ 0) ∧
    (pool.jobSubmissionQueues (Fin.ofNat threadsTotal pool.rrIndex.toNat)).length ≠
      jobsPerThread := by
  by_cases hnull : job.function = 0 ∨ job.arg = 0
  · refine iff_of_false (fun hlaw => ?_) fun h => hnull.elim h.1.1 h.1.2
    have hpush := hlaw.res
    rw [gtpoolrrSbsPushRr, if_pos hnull] at hpush
    simp at hpush
  · obtain ⟨hfunction, harg⟩ := not_or.mp hnull
    rw [and_iff_right ⟨hfunction, harg⟩]
    constructor
    · intro hlaw hfull
      have hpush := hlaw.res
      rw [pushRr_eq hfunction harg, Fifo.push_of_full hfull] at hpush
      simp at hpush
    · intro hroom
      rw [PushRrLaw, firstFrom_of_pass (by simpa using hroom), pushRr_eq hfunction harg]
      have hlt := Nat.lt_of_le_of_ne
        (pool.jobSubmissionQueues (Fin.ofNat threadsTotal pool.rrIndex.toNat)).bounded hroom
      rw [Fifo.push_of_lt hlt]
      exact ⟨_, _, rfl, rfl⟩

def filled (full : Fin 2 → Bool) : GtpoolrrPool Nat 2 1 :=
  ⟨0, fun k => if full k then ⟨[1], by decide⟩ else .empty⟩

theorem pushRrLaw_iff_second : PushRrLaw (filled fun k => k = 1) ⟨2, 1, 1⟩ :=
  pushRrLaw_iff.mpr ⟨by decide, by decide⟩

/-- The first queue is full, and the second is not tried. -/
theorem not_pushRrLaw_first : ¬ PushRrLaw (filled fun k => k = 0) ⟨2, 1, 1⟩ := by
  intro hlaw
  have hfails : (gtpoolrrSbsPushRr (filled fun k => k = 0) ⟨2, 1, 1⟩).2 = .EXFULL := by decide
  have hres := hlaw.res
  rw [hfails] at hres
  exact absurd hres (by decide)

end Gtpoolrr

namespace Tpoolrr

variable {s : State threadsTotal jobsPerThread} {job : TpoolrrJob} {i left : Nat}

def scanned (s : State threadsTotal jobsPerThread) (job : TpoolrrJob) :
    Option (Fin threadsTotal) → State threadsTotal jobsPerThread
  | none => { s with main := .returned .EBUSY }
  | some index => { s with main := .jobsAddEnqueue job index }

omit [NeZero threadsTotal] in
theorem scanned_main (main) (next : Option (Fin threadsTotal)) :
    scanned { s with main } job next = scanned s job next := by
  cases next <;> rfl

theorem jobsAdd_scanFrom (hmain : s.main = .jobsAddScan job i) (hleft : i + left = threadsTotal + 1)
    (hword : threadsTotal + s.rrIndex < sizeMax) :
    ∃ n, (machine threadsTotal jobsPerThread).exec s (List.replicate n .main) =
      some (scanned s job (scanFrom
        (fun k => (s.threads k).submissionQueue.length ≠ jobsPerThread) (s.rrIndex + i) left)) := by
  induction left generalizing s i with
  | zero =>
    refine ⟨1, ?_⟩
    have hend : ¬ i ≤ threadsTotal := by omega
    simp [Machine.exec, machine, step, mainStep, hmain, _tpoolrrJobsAdd, hend, scanFrom, scanned]
  | succ left ih =>
    have hi : i ≤ threadsTotal := by omega
    have hindex : s.index i = Fin.ofNat threadsTotal (s.rrIndex + i) := by
      rw [State.index, sizeT_of_lt (by omega), Nat.add_comm]
    have hstep : (machine threadsTotal jobsPerThread).step s .main =
        some (_tpoolrrJobsAdd s job i) := by
      simp [machine, step, mainStep, hmain]
    rw [scanFrom, ← hindex]
    by_cases hfull : (s.threads (s.index i)).submissionQueue.length = jobsPerThread
    · obtain ⟨n, hn⟩ := ih (s := { s with main := .jobsAddScan job (i + 1) }) (i := i + 1) rfl
        (by omega) hword
      refine ⟨n + 1, ?_⟩
      rw [scanned_main, ← Nat.add_assoc] at hn
      rw [List.replicate_succ]
      refine Machine.exec_cons (hstep.trans ?_) (by simpa [hfull] using hn)
      simp only [_tpoolrrJobsAdd, if_pos hi, if_pos hfull]
    · refine ⟨1, ?_⟩
      rw [List.replicate_one, Machine.exec, hstep, _tpoolrrJobsAdd, if_pos hi]
      simp [hfull, Machine.exec, scanned]

theorem jobsAdd_firstFrom (hmain : s.main = .jobsAddScan job 0)
    (hword : threadsTotal + s.rrIndex < sizeMax) :
    ∃ n, (machine threadsTotal jobsPerThread).exec s (List.replicate n .main) =
      some (scanned s job (firstFrom
        (fun k => (s.threads k).submissionQueue.length ≠ jobsPerThread) s.rrIndex)) := by
  obtain ⟨n, hn⟩ := jobsAdd_scanFrom hmain (Nat.zero_add (threadsTotal + 1)) hword
  exact ⟨n, by rw [hn, Nat.add_zero, scanFrom_of_le (Nat.le_succ _)]⟩

end Tpoolrr

end Dert
