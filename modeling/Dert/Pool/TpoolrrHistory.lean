import Dert.Pool.TpoolrrCompletions

namespace Dert.Tpoolrr

open Library

variable {threadsTotal jobsPerThread : Nat}

abbrev Trace (threadsTotal jobsPerThread : Nat) :=
  List (State threadsTotal jobsPerThread × Label threadsTotal)

def made : Label threadsTotal → List Call
  | .call call => [call]
  | _ => []

def calls : Trace threadsTotal jobsPerThread → List Call
  | [] => []
  | (_, l) :: tr => made l ++ calls tr

def Returned (call : Call) (tr : Trace threadsTotal jobsPerThread)
    (s : State threadsTotal jobsPerThread) : Prop :=
  (calls tr).head? = some call ∧ s.main = .returned .ok

instance (call : Call) (tr : Trace threadsTotal jobsPerThread)
    (s : State threadsTotal jobsPerThread) : Decidable (Returned call tr s) :=
  inferInstanceAs (Decidable (_ ∧ _))

def Main.placing : Main threadsTotal → List (Fin threadsTotal × TpoolrrJob)
  | .jobsAddLock job index => [(index, job)]
  | .jobsAddSignal job index => [(index, job)]
  | .jobsAddUnlock job index => [(index, job)]
  | _ => []

def State.placed (s : State threadsTotal jobsPerThread) : List (Fin threadsTotal × TpoolrrJob) :=
  s.accepted ++ s.main.placing

def putOn (k : Fin threadsTotal) (placed : List (Fin threadsTotal × TpoolrrJob)) :
    List TpoolrrJob :=
  (placed.filter fun p => p.1 = k).map Prod.snd

def Thread.fresh (t : Thread jobsPerThread) (now : UInt64) : Prop :=
  t.job.expiration = 0 ∨ now < t.job.expiration

instance (t : Thread jobsPerThread) (now : UInt64) : Decidable (t.fresh now) :=
  inferInstanceAs (Decidable (_ ∨ _))

def Thread.dequeues (t : Thread jobsPerThread) : List TpoolrrJob :=
  if t.pc = .dequeue then t.submissionQueue.list.take 1 else []

def Thread.starts (t : Thread jobsPerThread) (now : UInt64) : List TpoolrrJob :=
  if t.pc = .run ∧ t.fresh now then [t.job] else []

def Thread.expires (t : Thread jobsPerThread) (now : UInt64) : List TpoolrrJob :=
  if t.pc = .run ∧ ¬ t.fresh now then [t.job] else []

section Steps

variable (k : Fin threadsTotal) (s : State threadsTotal jobsPerThread)

def dequeues : Label threadsTotal → List TpoolrrJob
  | .work index _ => if index = k then (s.threads k).dequeues else []
  | _ => []

def starts : Label threadsTotal → List TpoolrrJob
  | .work index now => if index = k then (s.threads k).starts now else []
  | _ => []

def expires : Label threadsTotal → List TpoolrrJob
  | .work index now => if index = k then (s.threads k).expires now else []
  | _ => []

def returns : Label threadsTotal → List TpoolrrJob
  | .finish index _ => if index = k then [(s.threads k).job] else []
  | _ => []

/-- A job is handled when its function is called, or when it is found expired. -/
def handles (l : Label threadsTotal) : List TpoolrrJob := starts k s l ++ expires k s l

/-- A job is processed when its function has returned, or when it is found expired. -/
def processes (l : Label threadsTotal) : List TpoolrrJob := returns k s l ++ expires k s l

end Steps

def history (event : State threadsTotal jobsPerThread → Label threadsTotal → List TpoolrrJob) :
    Trace threadsTotal jobsPerThread → List TpoolrrJob
  | [] => []
  | (s, l) :: tr => history event tr ++ event s l

@[simp] theorem history_append
    (event : State threadsTotal jobsPerThread → Label threadsTotal → List TpoolrrJob)
    (later tr : Trace threadsTotal jobsPerThread) :
    history event (later ++ tr) = history event tr ++ history event later := by
  induction later with
  | nil => simp [history]
  | cons p later ih => simp [history, ih]

@[simp] theorem calls_append (later tr : Trace threadsTotal jobsPerThread) :
    calls (later ++ tr) = calls later ++ calls tr := by
  induction later with
  | nil => rfl
  | cons p later ih => simp [calls, ih]

@[simp] theorem putOn_append (k : Fin threadsTotal)
    (placed placed' : List (Fin threadsTotal × TpoolrrJob)) :
    putOn k (placed ++ placed') = putOn k placed ++ putOn k placed' := by
  simp [putOn]

theorem putOn_self (k : Fin threadsTotal) (job : TpoolrrJob) : putOn k [(k, job)] = [job] := by
  simp [putOn]

theorem putOn_of_ne {k index : Fin threadsTotal} (h : k ≠ index) (job : TpoolrrJob) :
    putOn k [(index, job)] = [] := by
  simp [putOn, h.symm]

def submitted (jobs : List TpoolrrJob) : List Submission := jobs.map TpoolrrJob.submitted

@[simp] theorem submitted_append (jobs jobs' : List TpoolrrJob) :
    submitted (jobs ++ jobs') = submitted jobs ++ submitted jobs' := List.map_append ..

def Thread.ready (t : Thread jobsPerThread) : List TpoolrrJob :=
  if t.pc = .run then [t.job] else []

def Thread.running (t : Thread jobsPerThread) : List TpoolrrJob :=
  if t.pc = .run ∨ t.pc = .inJob then [t.job] else []

section Threads

variable {index : Nat} {t t' : Thread jobsPerThread} {now : UInt64}

theorem work_run (hpc : t.pc = .run) (hw : tpoolrrWorker index now t = some t') :
    t.fresh now ∧ t' = { t with pc := .inJob } ∨
      ¬ t.fresh now ∧ t' = { t with job := { t.job with ret := 0, flags := 1 }, pc := .enqueue } := by
  simp only [tpoolrrWorker, hpc] at hw
  split_ifs at hw with hfresh
  · cases hw
    exact .inl ⟨hfresh, rfl⟩
  · cases hw
    exact .inr ⟨hfresh, rfl⟩

theorem Works.dequeues (h : Works index t t') :
    t.submissionQueue.list = t.dequeues ++ t'.submissionQueue.list := by
  cases h with
  | dequeued job submissionQueue hpc hlist => simp [Thread.dequeues, hpc, hlist]
  | stale hpc hempty => simp [Thread.dequeues, hpc, hempty]
  | _ => simp_all [Thread.dequeues]

theorem work_handles (hw : tpoolrrWorker index now t = some t') (ht : t.Sound) :
    submitted t.ready ++ submitted t.dequeues =
      submitted (t.starts now ++ t.expires now) ++ submitted t'.ready := by
  by_cases hpc : t.pc = .run
  · rcases work_run hpc hw with ⟨hfresh, rfl⟩ | ⟨hfresh, rfl⟩ <;>
      simp [Thread.ready, Thread.dequeues, Thread.starts, Thread.expires, hpc, hfresh, submitted]
  · cases works hw with
    | dequeued job submissionQueue hpc hlist =>
      simp [Thread.ready, Thread.dequeues, Thread.starts, Thread.expires, hpc, hlist, submitted,
        TpoolrrJob.submitted]
    | stale hpc hempty => exact absurd hempty (ht (.inr hpc))
    | _ => simp_all [Thread.ready, Thread.dequeues, Thread.starts, Thread.expires]

theorem work_processes (hw : tpoolrrWorker index now t = some t') (ht : t.Sound) :
    submitted t.running ++ submitted t.dequeues =
      submitted (t.expires now) ++ submitted t'.running := by
  by_cases hpc : t.pc = .run
  · rcases work_run hpc hw with ⟨hfresh, rfl⟩ | ⟨hfresh, rfl⟩ <;>
      simp [Thread.running, Thread.dequeues, Thread.expires, hpc, hfresh, submitted]
  · cases works hw with
    | dequeued job submissionQueue hpc hlist =>
      simp [Thread.running, Thread.dequeues, Thread.expires, hpc, hlist, submitted,
        TpoolrrJob.submitted]
    | stale hpc hempty => exact absurd hempty (ht (.inr hpc))
    | _ => simp_all [Thread.running, Thread.dequeues, Thread.expires]

theorem Thread.Like.ready (h : t.Like t') : t'.ready = t.ready := by
  rcases h.pc with hpc | ⟨hpc, hpc'⟩
  · rw [Thread.ready, hpc, h.job]
    rfl
  · simp [Thread.ready, hpc, hpc']

theorem Thread.Like.running (h : t.Like t') : t'.running = t.running := by
  rcases h.pc with hpc | ⟨hpc, hpc'⟩
  · rw [Thread.running, hpc, h.job]
    rfl
  · simp [Thread.running, hpc, hpc']

end Threads

section Runs

variable {s s' : State threadsTotal jobsPerThread} {l : Label threadsTotal}
  {tr : Trace threadsTotal jobsPerThread} {k : Fin threadsTotal}

@[simp] theorem placed_set (s : State threadsTotal jobsPerThread) (index : Fin threadsTotal)
    (t : Thread jobsPerThread) : (s.set index t).placed = s.placed := rfl

theorem enter_placing (call : Call) : (enter call : Main threadsTotal).placing = [] := by
  cases call with
  | jobsAdd =>
    rw [enter]
    split_ifs <;> rfl
  | _ => rfl

theorem call_placed {res : Ret} (hmain : s.main = .returned res) (call : Call) :
    State.placed { s with main := enter call } = s.placed := by
  rw [State.placed, enter_placing, State.placed, hmain]
  rfl

inductive Places (s : State threadsTotal jobsPerThread) : State threadsTotal jobsPerThread → Prop
  | same (next) : next.placed = s.placed →
      (∀ k, (next.threads k).submissionQueue = (s.threads k).submissionQueue) → Places s next
  | one (job index submissionQueue) : s.main = .jobsAddEnqueue job index →
      submissionQueue.list = (s.threads index).submissionQueue.list ++ [job] →
      Places s
        { s.set index { s.threads index with submissionQueue } with main := .jobsAddLock job index }

variable [NeZero threadsTotal]

theorem Controls.placed (h : Controls s s')
    (hmain : ∀ job index, s.main ≠ .jobsAddEnqueue job index) : s'.placed = s.placed := by
  cases h <;> simp_all [State.placed, State.set, Main.placing]

theorem Controls.queue (h : Controls s s')
    (hmain : ∀ job index, s.main ≠ .jobsAddEnqueue job index) (k : Fin threadsTotal) :
    (s'.threads k).submissionQueue = (s.threads k).submissionQueue := by
  cases h.moves with
  | quiet _ hq => exact (hq.threads k).submissionQueue
  | enqueued job index _ hadd => exact absurd hadd (hmain job index)
  | popped index => exact set_congr Thread.submissionQueue (by rfl) k

theorem Controls.places (h : Controls s s') : Places s s' := by
  by_cases hmain : ∃ job index, s.main = .jobsAddEnqueue job index
  · obtain ⟨job, index, hmain⟩ := hmain
    cases h with
    | enqueued job index submissionQueue hmain hlist =>
      exact .one job index submissionQueue hmain hlist
    | enqueueFull => exact .same _ (by simp [State.placed, hmain, Main.placing]) fun _ => rfl
    | _ => simp_all
  · simp only [not_exists] at hmain
    exact .same _ (h.placed hmain) (h.queue hmain)

theorem step_queue (hs : step s l = some s')
    (hmain : l = .main → ∀ job index, s.main ≠ .jobsAddEnqueue job index) (k : Fin threadsTotal) :
    (s.threads k).submissionQueue.list =
      dequeues k s l ++ (s'.threads k).submissionQueue.list := by
  cases l with
  | work index now =>
    obtain ⟨t, ht, rfl⟩ := Option.map_eq_some_iff.mp hs
    by_cases hk : k = index
    · subst hk
      rw [set_threads_self, (works ht).dequeues]
      simp [dequeues]
    · rw [set_threads_of_ne hk]
      simp [dequeues, Ne.symm hk]
  | finish index ret =>
    cases step_cases hs with
    | finish =>
      rw [set_congr Thread.submissionQueue (by rfl) k]
      rfl
  | spurious index =>
    cases step_cases hs with
    | spurious =>
      rw [set_congr Thread.submissionQueue (by rfl) k]
      rfl
  | call call =>
    cases step_cases hs with
    | call => rfl
  | main =>
    rw [(controls hs).queue (hmain rfl)]
    rfl

theorem step_dequeues (hs : step s l = some s') {taken : List TpoolrrJob}
    (h : putOn k s.placed = taken ++ (s.threads k).submissionQueue.list) :
    putOn k s'.placed = taken ++ dequeues k s l ++ (s'.threads k).submissionQueue.list := by
  have hsame (hplaced : s'.placed = s.placed)
      (hmain : l = .main → ∀ job index, s.main ≠ .jobsAddEnqueue job index) :
      putOn k s'.placed = taken ++ dequeues k s l ++ (s'.threads k).submissionQueue.list := by
    rw [hplaced, h, step_queue hs hmain k, List.append_assoc]
  cases step_cases hs with
  | work => exact hsame rfl (by simp)
  | finish => exact hsame rfl (by simp)
  | spurious => exact hsame rfl (by simp)
  | call call res hmain => exact hsame (call_placed hmain call) (by simp)
  | main =>
    have hnone : dequeues k s .main = [] := rfl
    cases (controls hs).places with
    | same _ hplaced hqueue => rw [hnone, hplaced, hqueue, h, List.append_nil]
    | one job index submissionQueue hmain hlist =>
      have hplaced : putOn k (s.accepted ++ [(index, job)]) =
          putOn k s.placed ++ putOn k [(index, job)] := by
        simp [State.placed, hmain, Main.placing]
      rw [hnone, List.append_nil]
      change putOn k (s.accepted ++ [(index, job)]) =
        taken ++ ((s.set index _).threads k).submissionQueue.list
      by_cases hk : k = index
      · subst hk
        rw [hplaced, set_threads_self, hlist, h, putOn_self, List.append_assoc]
      · rw [hplaced, set_threads_of_ne hk, h, putOn_of_ne hk, List.append_nil]

theorem step_handles (hs : step s l = some s') (ht : (s.threads k).Sound) :
    submitted (s.threads k).ready ++ submitted (dequeues k s l) =
      submitted (handles k s l) ++ submitted (s'.threads k).ready := by
  cases l with
  | work index now =>
    obtain ⟨t, hw, rfl⟩ := Option.map_eq_some_iff.mp hs
    by_cases hk : k = index
    · subst hk
      rw [set_threads_self]
      simpa [handles, dequeues, starts, expires] using work_handles hw ht
    · rw [set_threads_of_ne hk]
      simp [handles, dequeues, starts, expires, Ne.symm hk, submitted]
  | finish index ret =>
    cases step_cases hs with
    | finish _ _ hpc =>
      rw [set_congr Thread.ready (by simp [Thread.ready, hpc]) k]
      simp [handles, dequeues, starts, expires, submitted]
  | spurious index =>
    cases step_cases hs with
    | spurious _ hpc =>
      rw [set_congr Thread.ready (by simp [Thread.ready, hpc]) k]
      simp [handles, dequeues, starts, expires, submitted]
  | call call =>
    cases step_cases hs with
    | call => simp [handles, dequeues, starts, expires, submitted]
  | main =>
    have hready : (s'.threads k).ready = (s.threads k).ready := by
      cases (controls hs).moves with
      | quiet _ hq => exact (hq.threads k).ready
      | enqueued => exact set_congr Thread.ready (by rfl) k
      | popped => exact set_congr Thread.ready (by rfl) k
    rw [hready]
    simp [handles, dequeues, starts, expires, submitted]

theorem step_processes (hs : step s l = some s') (ht : (s.threads k).Sound) :
    submitted (s.threads k).running ++ submitted (dequeues k s l) =
      submitted (processes k s l) ++ submitted (s'.threads k).running := by
  cases l with
  | work index now =>
    obtain ⟨t, hw, rfl⟩ := Option.map_eq_some_iff.mp hs
    by_cases hk : k = index
    · subst hk
      rw [set_threads_self]
      simpa [processes, dequeues, returns, expires] using work_processes hw ht
    · rw [set_threads_of_ne hk]
      simp [processes, dequeues, returns, expires, Ne.symm hk, submitted]
  | finish index ret =>
    cases step_cases hs with
    | finish _ _ hpc =>
      by_cases hk : k = index
      · subst hk
        rw [set_threads_self]
        simp [processes, dequeues, returns, expires, Thread.running, hpc, submitted]
      · rw [set_threads_of_ne hk]
        simp [processes, dequeues, returns, expires, Ne.symm hk, submitted]
  | spurious index =>
    cases step_cases hs with
    | spurious _ hpc =>
      rw [set_congr Thread.running (by simp [Thread.running, hpc]) k]
      simp [processes, dequeues, returns, expires, submitted]
  | call call =>
    cases step_cases hs with
    | call => simp [processes, dequeues, returns, expires, submitted]
  | main =>
    have hrunning : (s'.threads k).running = (s.threads k).running := by
      cases (controls hs).moves with
      | quiet _ hq => exact (hq.threads k).running
      | enqueued => exact set_congr Thread.running (by rfl) k
      | popped => exact set_congr Thread.running (by rfl) k
    rw [hrunning]
    simp [processes, dequeues, returns, expires, submitted]

theorem inv_run (hr : (machine threadsTotal jobsPerThread).Run tr s) : Inv s := by
  refine hr.always ?_ fun s l s' h hs => h.step (step_cases hs)
  rintro s ⟨-, garbage, rfl⟩
  exact inv_start garbage

/-- What was put on a queue is what its worker took, in the same order, and what is still
there. -/
theorem placed_run (hr : (machine threadsTotal jobsPerThread).Run tr s) (k : Fin threadsTotal) :
    putOn k s.placed = history (dequeues k) tr ++ (s.threads k).submissionQueue.list := by
  induction hr with
  | start hi =>
    obtain ⟨-, garbage, rfl⟩ := hi
    rfl
  | next _ hs ih => exact step_dequeues hs ih

theorem handled_run (hr : (machine threadsTotal jobsPerThread).Run tr s) (k : Fin threadsTotal) :
    submitted (history (dequeues k) tr) =
      submitted (history (handles k) tr) ++ submitted (s.threads k).ready := by
  induction hr with
  | start hi =>
    obtain ⟨-, garbage, rfl⟩ := hi
    rfl
  | next hr hs ih =>
    have hstep := step_handles hs ((inv_run hr).sound k)
    simp only [history, submitted_append, ih, List.append_assoc, hstep]

theorem processed_run (hr : (machine threadsTotal jobsPerThread).Run tr s) (k : Fin threadsTotal) :
    submitted (history (dequeues k) tr) =
      submitted (history (processes k) tr) ++ submitted (s.threads k).running := by
  induction hr with
  | start hi =>
    obtain ⟨-, garbage, rfl⟩ := hi
    rfl
  | next hr hs ih =>
    have hstep := step_processes hs ((inv_run hr).sound k)
    simp only [history, submitted_append, ih, List.append_assoc, hstep]

end Runs

end Dert.Tpoolrr
