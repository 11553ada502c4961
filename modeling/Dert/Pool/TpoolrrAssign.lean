import Dert.Pool.TpoolrrRoundRobin

namespace Dert.Tpoolrr

open Library

/-- Where `tpoolrr_jobs_assign` is: at queue `j` of `tpoolrr_submissions_empty` in the first loop,
or in the second loop's `_tpoolrr_jobs_add`, whose own step is in the pool.  `aborted` is a failed
assertion. -/
inductive Assign
  | submissionsEmpty (i j total : Nat)
  | jobsAdd (i : Nat)
  | returned (res : Ret)
  | aborted
  deriving DecidableEq

structure Assigning (threadsTotal jobsPerThread : Nat) where
  pool : State threadsTotal jobsPerThread
  job : TpoolrrJob
  assign : Assign

inductive Assigns (threadsTotal : Nat)
  | main
  | remove (index : Fin threadsTotal)
  deriving DecidableEq

variable {threadsTotal jobsPerThread : Nat}

def Assigning.add (a : Assigning threadsTotal jobsPerThread) (i : Nat) :
    Assigning threadsTotal jobsPerThread :=
  if i < threadsTotal then
    { a with pool := { a.pool with main := .jobsAddScan a.job 0 }, assign := .jobsAdd i }
  else { a with assign := .returned .ok }

def tpoolrrSubmissionsEmpty (a : Assigning threadsTotal jobsPerThread) (i j total : Nat) :
    Assigning threadsTotal jobsPerThread :=
  if h : j < threadsTotal then
    let room := (a.pool.threads ⟨j, h⟩).submissionQueue.room
    { a with assign := .submissionsEmpty i (j + 1) (sizeT (total + room)) }
  else if total = 0 then { a with assign := .returned .EBUSY }
  else if i + 1 < threadsTotal then { a with assign := .submissionsEmpty (i + 1) 0 0 }
  else a.add 0

def tpoolrrJobsAssign (pool : State threadsTotal jobsPerThread) (uninit : TpoolrrJob)
    (userTag function arg expiration now : UInt64) : Assigning threadsTotal jobsPerThread :=
  if function = 0 ∨ arg = 0 then { pool, job := zeroJob, assign := .returned .EINVAL }
  else
    let expirationAsMonotonicTime := if expiration = 0 then 0 else now + expiration
    { pool
      job := tpoolrrJobConstruct uninit userTag function arg expirationAsMonotonicTime
      assign := .submissionsEmpty 0 0 0 }

def removed (k : Fin threadsTotal) :
    List (Assigning threadsTotal jobsPerThread × Assigns threadsTotal) → List TpoolrrJob
  | [] => []
  | (_, .main) :: tr => removed k tr
  | (a, .remove index) :: tr =>
    removed k tr ++ if index = k then (a.pool.threads k).submissionQueue.list.take 1 else []

def Assigning.queue (a : Assigning threadsTotal jobsPerThread) (k : Fin threadsTotal) :
    List TpoolrrJob := (a.pool.threads k).submissionQueue.list

def Assigning.Over (a : Assigning threadsTotal jobsPerThread) : Prop :=
  ∃ res, a.assign = .returned res

structure State.Resting (s : State threadsTotal jobsPerThread) : Prop where
  returned : ∃ res, s.main = .returned res
  unlocked : ∀ k, (s.threads k).conditionMutex = none
  small : s.rrIndex < sizeMax
  capacity : 0 < jobsPerThread

def State.room (s : State threadsTotal jobsPerThread) (k : Fin threadsTotal) : Nat :=
  (s.threads k).submissionQueue.room

def State.roomBefore (s : State threadsTotal jobsPerThread) (j : Nat) : Nat :=
  ∑ k : Fin threadsTotal with k.val < j, s.room k

def State.free (s : State threadsTotal jobsPerThread) : Nat := s.roomBefore threadsTotal

variable [NeZero threadsTotal]

def Assigning.step (a : Assigning threadsTotal jobsPerThread) :
    Assigns threadsTotal → Option (Assigning threadsTotal jobsPerThread)
  | .main =>
    match a.assign with
    | .submissionsEmpty i j total => some (tpoolrrSubmissionsEmpty a i j total)
    | .jobsAdd i =>
      match a.pool.main with
      | .returned res => some (if res = .ok then a.add (i + 1) else { a with assign := .aborted })
      | _ => (mainStep a.pool).map fun pool => { a with pool }
    | .returned _ => none
    | .aborted => none
  | .remove index =>
    (a.pool.threads index).submissionQueue.pop.map fun (_, submissionQueue) =>
      { a with pool := a.pool.set index { a.pool.threads index with submissionQueue } }

def Assigning.machine (call : Assigning threadsTotal jobsPerThread) :
    Machine (Assigning threadsTotal jobsPerThread) (Assigns threadsTotal) where
  init := (· = call)
  step := Assigning.step

/-- A call that reaches every thread or none, whatever the workers remove meanwhile. -/
structure AssignLaw (call : Assigning threadsTotal jobsPerThread) : Prop where
  ends : ∃ n, ∀ tr a, call.machine.Run tr a →
    tr.countP (fun p => p.2 = .main) ≤ n ∧ (a.Over ∨ (a.step .main).isSome)
  asserted : ∀ tr a, call.machine.Run tr a → a.assign ≠ .aborted
  toEvery : call.pool.Roomy → ∀ tr a res, call.machine.Run tr a → a.assign = .returned res →
    res = .ok ∧ ∀ k, call.queue k ++ [call.job] = removed k tr ++ a.queue k
  toNone : ¬ call.pool.Roomy → ∀ tr a, call.machine.Run tr a →
    (∀ res, a.assign = .returned res → res = .EBUSY) ∧ ∀ k, call.queue k = removed k tr ++ a.queue k

section Flow

omit [NeZero threadsTotal]

variable {call a a' : Assigning threadsTotal jobsPerThread} {l : Assigns threadsTotal}
  {tr : List (Assigning threadsTotal jobsPerThread × Assigns threadsTotal)}

def Flow (call : Assigning threadsTotal jobsPerThread)
    (tr : List (Assigning threadsTotal jobsPerThread × Assigns threadsTotal))
    (a : Assigning threadsTotal jobsPerThread) : Prop :=
  ∃ added, a.pool.placed = call.pool.placed ++ added ∧
    ∀ k, call.queue k ++ putOn k added = removed k tr ++ a.queue k

theorem flow_start (call : Assigning threadsTotal jobsPerThread) : Flow call [] call :=
  ⟨[], by simp, fun k => by simp [putOn, removed]⟩

theorem Flow.same (h : Flow call tr a) (hplaced : a'.pool.placed = a.pool.placed)
    (hqueue : ∀ k, a'.queue k = a.queue k) : Flow call ((a, .main) :: tr) a' := by
  obtain ⟨added, hadded, hflow⟩ := h
  refine ⟨added, hplaced.trans hadded, fun k => ?_⟩
  rw [hqueue, removed, hflow]

theorem Flow.remove (h : Flow call tr a) {index : Fin threadsTotal} {job : TpoolrrJob}
    {submissionQueue : Fifo TpoolrrJob jobsPerThread}
    (hlist : a.queue index = job :: submissionQueue.list) :
    Flow call ((a, .remove index) :: tr)
      { a with pool := a.pool.set index { a.pool.threads index with submissionQueue } } := by
  obtain ⟨added, hadded, hflow⟩ := h
  refine ⟨added, hadded, fun k => ?_⟩
  rw [hflow, removed, List.append_assoc]
  congr 1
  by_cases hk : index = k
  · subst hk
    simp only [Assigning.queue, set_threads_self] at hlist ⊢
    simp [hlist]
  · simp only [Assigning.queue, set_threads_of_ne (Ne.symm hk), if_neg hk, List.nil_append]

theorem Flow.places (h : Flow call tr a) {next : State threadsTotal jobsPerThread}
    (hp : Places a.pool next) : Flow call ((a, .main) :: tr) { a with pool := next } := by
  cases hp with
  | same _ hplaced hqueue =>
    exact h.same hplaced fun k => congrArg Fifo.list (hqueue k)
  | one job index submissionQueue hmain hlist =>
    obtain ⟨added, hadded, hflow⟩ := h
    have haccepted : a.pool.accepted = call.pool.placed ++ added := by
      rw [← hadded, State.placed, hmain]
      simp [Main.placing]
    refine ⟨added ++ [(index, job)], ?_, fun k => ?_⟩
    · rw [State.placed]
      simp only [State.set, Main.placing, haccepted, List.append_assoc]
    · rw [putOn_append, ← List.append_assoc, hflow, removed, List.append_assoc]
      congr 1
      simp only [Assigning.queue]
      by_cases hk : k = index
      · subst hk
        rw [putOn_self, set_threads_self, hlist]
      · rw [putOn_of_ne hk, set_threads_of_ne hk, List.append_nil]

end Flow

section Steps

variable {call a a' : Assigning threadsTotal jobsPerThread} {l : Assigns threadsTotal}
  {tr : List (Assigning threadsTotal jobsPerThread × Assigns threadsTotal)}

inductive Proceeds (a : Assigning threadsTotal jobsPerThread) :
    Assigning threadsTotal jobsPerThread → Prop
  | summed (i j total) (h : j < threadsTotal) : a.assign = .submissionsEmpty i j total →
      Proceeds a
        { a with assign := .submissionsEmpty i (j + 1) (sizeT (total + a.pool.room ⟨j, h⟩)) }
  | refused (i j) : a.assign = .submissionsEmpty i j 0 → ¬ j < threadsTotal →
      Proceeds a { a with assign := .returned .EBUSY }
  | again (i j total) : a.assign = .submissionsEmpty i j total → ¬ j < threadsTotal →
      total ≠ 0 → i + 1 < threadsTotal → Proceeds a { a with assign := .submissionsEmpty (i + 1) 0 0 }
  | begun (i j total) : a.assign = .submissionsEmpty i j total → ¬ j < threadsTotal →
      total ≠ 0 → ¬ i + 1 < threadsTotal → Proceeds a (a.add 0)
  | added (i) : a.assign = .jobsAdd i → a.pool.main = .returned .ok → Proceeds a (a.add (i + 1))
  | failed (i res) : a.assign = .jobsAdd i → a.pool.main = .returned res → res ≠ .ok →
      Proceeds a { a with assign := .aborted }
  | within (i next) : a.assign = .jobsAdd i → mainStep a.pool = some next →
      Proceeds a { a with pool := next }

theorem proceeds (hs : a.step .main = some a') : Proceeds a a' := by
  simp only [Assigning.step] at hs
  split at hs
  next i j total hassign =>
    simp only [Option.some.injEq, tpoolrrSubmissionsEmpty] at hs
    split_ifs at hs with hj htotal hi
    · exact hs ▸ .summed i j total hj hassign
    · subst htotal
      exact hs ▸ .refused i j hassign hj
    · exact hs ▸ .again i j total hassign hj htotal hi
    · exact hs ▸ .begun i j total hassign hj htotal hi
  next i hassign =>
    split at hs
    next res hmain =>
      split_ifs at hs with hres
      · subst hres
        cases hs
        exact .added i hassign hmain
      · cases hs
        exact .failed i res hassign hmain hres
    next =>
      obtain ⟨next, hnext, rfl⟩ := Option.map_eq_some_iff.mp hs
      exact .within i next hassign hnext
  next => cases hs
  next => cases hs

theorem remove_cases {index : Fin threadsTotal} (hs : a.step (.remove index) = some a') :
    ∃ job submissionQueue, a.queue index = job :: submissionQueue.list ∧
      a' = { a with pool := a.pool.set index { a.pool.threads index with submissionQueue } } := by
  obtain ⟨⟨job, submissionQueue⟩, hpop, rfl⟩ := Option.map_eq_some_iff.mp hs
  exact ⟨job, submissionQueue, Fifo.pop_eq_some hpop, rfl⟩

omit [NeZero threadsTotal] in
theorem add_placed {res : Ret} (hmain : a.pool.main = .returned res) (i : Nat) :
    (a.add i).pool.placed = a.pool.placed := by
  rw [Assigning.add]
  split_ifs
  · simp [State.placed, hmain, Main.placing]
  · rfl

omit [NeZero threadsTotal] in
theorem add_queue (i : Nat) (k : Fin threadsTotal) : (a.add i).queue k = a.queue k := by
  rw [Assigning.add]
  split_ifs <;> rfl

def Assigning.Apart (a : Assigning threadsTotal jobsPerThread) : Prop :=
  ∀ i j total, a.assign = .submissionsEmpty i j total → ∃ res, a.pool.main = .returned res

theorem Assigning.Apart.step (h : a.Apart) (hs : a.step l = some a') : a'.Apart := by
  cases l with
  | main =>
    cases proceeds hs with
    | summed i j total _ hassign => exact fun _ _ _ _ => h i j total hassign
    | again i j total hassign => exact fun _ _ _ _ => h i j total hassign
    | begun =>
      intro i j total
      rw [Assigning.add]
      split_ifs <;> simp
    | added =>
      intro i j total
      rw [Assigning.add]
      split_ifs <;> simp
    | within i next hassign =>
      intro _ _ _ hcheck
      rw [hassign] at hcheck
      cases hcheck
    | _ =>
      intro _ _ _ hcheck
      cases hcheck
  | remove index =>
    obtain ⟨job, submissionQueue, -, rfl⟩ := remove_cases hs
    exact h

theorem Flow.step (h : Flow call tr a) (hapart : a.Apart) (hs : a.step l = some a') :
    Flow call ((a, l) :: tr) a' := by
  cases l with
  | main =>
    cases proceeds hs with
    | begun i j total hassign =>
      obtain ⟨res, hmain⟩ := hapart i j total hassign
      exact h.same (add_placed hmain 0) (add_queue 0)
    | added i _ hmain => exact h.same (add_placed hmain _) (add_queue _)
    | within i next _ hnext => exact h.places (controls hnext).places
    | _ => exact h.same rfl fun _ => rfl
  | remove index =>
    obtain ⟨job, submissionQueue, hlist, rfl⟩ := remove_cases hs
    exact h.remove hlist

structure Keeps (call : Assigning threadsTotal jobsPerThread)
    (tr : List (Assigning threadsTotal jobsPerThread × Assigns threadsTotal))
    (a : Assigning threadsTotal jobsPerThread) : Prop where
  flow : Flow call tr a
  apart : a.Apart
  job : a.job = call.job

theorem step_job (hs : a.step l = some a') : a'.job = a.job := by
  cases l with
  | main =>
    cases proceeds hs with
    | begun =>
      rw [Assigning.add]
      split_ifs <;> rfl
    | added =>
      rw [Assigning.add]
      split_ifs <;> rfl
    | _ => rfl
  | remove index =>
    obtain ⟨job, submissionQueue, -, rfl⟩ := remove_cases hs
    rfl

theorem keeps_run (hcall : call.Apart) (hr : call.machine.Run tr a) : Keeps call tr a := by
  induction hr with
  | start h =>
    cases h
    exact ⟨flow_start call, hcall, rfl⟩
  | next _ hs ih => exact ⟨ih.flow.step ih.apart hs, ih.apart.step hs, (step_job hs).trans ih.job⟩

end Steps

end Dert.Tpoolrr
