import Dert.Pool.TpoolrrJoin

namespace Dert.Tpoolrr

open Library

variable {threadsTotal jobsPerThread : Nat}

def Call.Rests (call : Call) : Prop := call ≠ .resume ∧ call ≠ .join ∧ call ≠ .stopSafe

instance (call : Call) : Decidable call.Rests := inferInstanceAs (Decidable (_ ∧ _ ∧ _))

def Evaluates (k : Fin threadsTotal)
    (p : State threadsTotal jobsPerThread × Label threadsTotal) : Prop :=
  ∃ now, p.2 = .work k now ∧ (p.1.threads k).pc = .evaluate

/-- How many jobs a worker can start before it next evaluates its desired state. -/
def Thread.pending (t : Thread jobsPerThread) : Nat :=
  if t.pc = .unlock ∨ t.pc = .dequeue ∨ t.pc = .run then 1 else 0

theorem Thread.pending_le (t : Thread jobsPerThread) : t.pending ≤ 1 := by
  rw [pending]
  split <;> omega

theorem Thread.Like.pending {t t' : Thread jobsPerThread} (h : t.Like t') :
    t'.pending = t.pending := by
  rcases h.pc with hpc | ⟨hpc, hpc'⟩
  · rw [Thread.pending, hpc, Thread.pending]
  · simp [Thread.pending, hpc, hpc']

theorem work_pending {index : Nat} {now : UInt64} {t t' : Thread jobsPerThread}
    (hw : tpoolrrWorker index now t = some t') (hpaused : t.desiredState = .PAUSED) :
    (t.starts now).length + t'.pending ≤ t.pending := by
  by_cases hpc : t.pc = .run
  · rcases work_run hpc hw with ⟨hfresh, rfl⟩ | ⟨hfresh, rfl⟩ <;>
      simp [Thread.starts, Thread.pending, hpc, hfresh]
  · cases works hw <;> simp_all [Thread.starts, Thread.pending]

section Steps

variable [NeZero threadsTotal] {s s' : State threadsTotal jobsPerThread}
  {l : Label threadsTotal} {k : Fin threadsTotal}

/-- A paused worker starts no more than what is pending, and nothing new becomes so. -/
theorem step_pending (hs : step s l = some s') (hpaused : (s.threads k).desiredState = .PAUSED) :
    (starts k s l).length + (s'.threads k).pending ≤ (s.threads k).pending := by
  cases l with
  | work index now =>
    obtain ⟨t, hw, rfl⟩ := Option.map_eq_some_iff.mp hs
    by_cases hk : k = index
    · subst hk
      rw [set_threads_self]
      simpa [starts] using work_pending hw hpaused
    · rw [set_threads_of_ne hk]
      simp [starts, Ne.symm hk]
  | finish index ret =>
    cases step_cases hs with
    | finish _ _ hpc =>
      rw [set_congr Thread.pending (by simp [Thread.pending, hpc]) k]
      simp [starts]
  | spurious index =>
    cases step_cases hs with
    | spurious _ hpc =>
      rw [set_congr Thread.pending (by simp [Thread.pending, hpc]) k]
      simp [starts]
  | call call =>
    cases step_cases hs with
    | call => simp [starts]
  | main =>
    have hpending : (s'.threads k).pending = (s.threads k).pending := by
      cases (controls hs).moves with
      | quiet _ hq => exact (hq.threads k).pending
      | enqueued => exact set_congr Thread.pending (by rfl) k
      | popped => exact set_congr Thread.pending (by rfl) k
    simp [hpending, starts]

theorem step_left (hs : step s l = some s') (hleft : (s.threads k).pc = .left) :
    (s'.threads k).pc = .left ∧ starts k s l = [] := by
  cases l with
  | work index now =>
    obtain ⟨t, hw, rfl⟩ := Option.map_eq_some_iff.mp hs
    have hk : k ≠ index := by
      rintro rfl
      exact (works hw).left hleft
    rw [set_threads_of_ne hk]
    exact ⟨hleft, by simp [starts, Ne.symm hk]⟩
  | finish index ret =>
    cases step_cases hs with
    | finish _ _ hpc =>
      have hk : k ≠ index := by
        rintro rfl
        simp [hleft] at hpc
      rw [set_threads_of_ne hk]
      exact ⟨hleft, rfl⟩
  | spurious index =>
    cases step_cases hs with
    | spurious _ hpc =>
      have hk : k ≠ index := by
        rintro rfl
        simp [hleft] at hpc
      rw [set_threads_of_ne hk]
      exact ⟨hleft, rfl⟩
  | call call =>
    cases step_cases hs with
    | call => exact ⟨hleft, rfl⟩
  | main =>
    refine ⟨?_, rfl⟩
    cases (controls hs).moves with
    | quiet _ hq =>
      rcases (hq.threads k).pc with hpc | ⟨hpc, -⟩
      · exact hpc.trans hleft
      · simp [hleft] at hpc
    | enqueued => exact (set_congr Thread.pc (by rfl) k).trans hleft
    | popped => exact (set_congr Thread.pc (by rfl) k).trans hleft

theorem Step.desiredState {last : Option TpoolrrThreadState} (hs : Step s l s')
    (hin : s.main.In last) (k : Fin threadsTotal) :
    (s'.threads k).desiredState = (s.threads k).desiredState ∨
      last = some (s'.threads k).desiredState := by
  cases hs with
  | work index now t hw => exact .inl (set_congr Thread.desiredState hw.desiredState k)
  | finish => exact .inl (set_congr Thread.desiredState (by rfl) k)
  | spurious => exact .inl (set_congr Thread.desiredState (by rfl) k)
  | call => exact .inl rfl
  | main _ hc => exact hc.desiredState hin k

end Steps

section Runs

variable [NeZero threadsTotal] {s s' : State threadsTotal jobsPerThread}
  {tr later : Trace threadsTotal jobsPerThread} {k : Fin threadsTotal}

theorem lastSets_rests {earlier resting : List Call} (hcalls : ∀ call ∈ resting, call.Rests)
    (hlast : ∀ state, lastSets earlier = some state → state = .PAUSED) {state : TpoolrrThreadState}
    (h : lastSets (resting ++ earlier) = some state) : state = .PAUSED := by
  cases resting with
  | nil => exact hlast state h
  | cons call resting =>
    have hrests := hcalls call List.mem_cons_self
    cases call with
    | pause => exact (Option.some.inj h).symm
    | resume => exact absurd rfl hrests.1
    | join => exact absurd rfl hrests.2.1
    | stopSafe => exact absurd rfl hrests.2.2
    | _ => cases h

theorem paused_later (hr : (machine threadsTotal jobsPerThread).Run tr s)
    (hlast : ∀ state, lastSets (calls tr) = some state → state = .PAUSED)
    (hpaused : (s.threads k).desiredState = .PAUSED)
    (hl : ((machine threadsTotal jobsPerThread).after s).Run later s')
    (hcalls : ∀ call ∈ calls later, call.Rests) :
    (s'.threads k).desiredState = .PAUSED ∧
      (history (starts k) later).length + (s'.threads k).pending ≤ (s.threads k).pending := by
  induction hl with
  | start h =>
    cases h
    exact ⟨hpaused, by simp [history]⟩
  | @next later s₁ l s₂ hl hs ih =>
    have hcalls' : ∀ call ∈ calls later, call.Rests := fun call hcall =>
      hcalls call (List.mem_append_right _ hcall)
    obtain ⟨hdesired, hcount⟩ := ih hcalls'
    constructor
    · have hin := (states_run (hr.append hl)).within
      rw [calls_append] at hin
      rcases (step_cases hs).desiredState hin k with hsame | hset
      · exact hsame.trans hdesired
      · exact lastSets_rests hcalls' hlast hset
    · have hstep := step_pending hs hdesired
      simp only [history, List.length_append]
      omega

theorem left_later (hleft : (s.threads k).pc = .left)
    (hl : ((machine threadsTotal jobsPerThread).after s).Run later s') :
    (s'.threads k).pc = .left ∧ history (starts k) later = [] := by
  induction hl with
  | start h =>
    cases h
    exact ⟨hleft, rfl⟩
  | next _ hs ih =>
    obtain ⟨hpc, hnone⟩ := step_left hs ih.1
    exact ⟨hpc, by simp [history, ih.2, hnone]⟩

/-- From when a pause has returned until a call lifts it a worker starts at most one job, and
none after it has evaluated its desired state.  From when a stop has returned no worker starts
a job, and a job that no worker has started or found expired is still in its queue. -/
theorem pause_run (hr : (machine threadsTotal jobsPerThread).Run tr s) :
    (Returned .pause tr s → ∀ later s',
      ((machine threadsTotal jobsPerThread).after s).Run later s' →
      (∀ call ∈ calls later, call.Rests) → ∀ k, (history (starts k) later).length ≤ 1 ∧
        ∀ newer p older, later = newer ++ p :: older → Evaluates k p →
          history (starts k) newer = []) ∧
    (Returned .stopSafe tr s → ∀ later s',
      ((machine threadsTotal jobsPerThread).after s).Run later s' → ∀ k,
        history (starts k) later = [] ∧
        submitted (putOn k s'.placed) = submitted (history (handles k) (later ++ tr)) ++
          submitted (s'.threads k).submissionQueue.list) := by
  constructor
  · intro hret later s' hl hcalls k
    have hpaused := desiredState_of_returned hr hret rfl k
    have hlast : ∀ state, lastSets (calls tr) = some state → state = .PAUSED := fun state hs =>
      Option.some.inj (hs.symm.trans hret.lastSets)
    constructor
    · have hcount := (paused_later hr hlast hpaused hl hcalls).2
      have hle := (s.threads k).pending_le
      omega
    · rintro newer ⟨x, l⟩ older rfl ⟨now, hlabel, hpc⟩
      rw [calls_append] at hcalls
      have hnewer : ∀ call ∈ calls newer, call.Rests := fun call hcall =>
        hcalls call (List.mem_append_left _ hcall)
      have holder : ∀ call ∈ calls ((x, l) :: older), call.Rests := fun call hcall =>
        hcalls call (List.mem_append_right _ hcall)
      obtain ⟨s₁, hevaluate, hrest⟩ := hl.split
      have hdesired := (paused_later hr hlast hpaused hevaluate holder).1
      have hzero : (s₁.threads k).pending = 0 := by
        cases hevaluate with
        | next hx hs =>
          have hx := (paused_later hr hlast hpaused hx fun call hcall =>
            holder call (List.mem_append_right _ hcall)).1
          have hstep := step_pending hs hx
          have hnone : (x.threads k).pending = 0 := by
            have hpc : (x.threads k).pc = .evaluate := hpc
            simp [Thread.pending, hpc]
          omega
      have hlast₁ : ∀ state, lastSets (calls (((x, l) :: older) ++ tr)) = some state →
          state = .PAUSED := by
        rw [calls_append]
        exact fun state => lastSets_rests holder hlast
      have hcount := (paused_later (hr.append hevaluate) hlast₁ hdesired hrest hnewer).2
      exact List.length_eq_zero_iff.mp (by omega)
  · intro hret later s' hl k
    have hleft := left_of_returned hr hret rfl (by simp [Over]) k
    obtain ⟨hpc, hnone⟩ := left_later hleft hl
    have hplaced := placed_run (hr.append hl) k
    have hhandled := handled_run (hr.append hl) k
    refine ⟨hnone, ?_⟩
    have hready : (s'.threads k).ready = [] := by simp [Thread.ready, hpc]
    rw [hplaced, submitted_append, hhandled, hready]
    simp [submitted]

end Runs

def pausedJob (k : Fin 1) : List (Label 1) :=
  [.call (.jobsAdd zeroJob 7 1 1 1 0), .main, .main, .main, .main, .main, .work k 0, .work k 0,
    .work k 0, .call .pause, .main, .main, .main, .main]

theorem pause_run_pausedJob :
    ∃ (tr : Trace 1 1) (s : State 1 1), (machine 1 1).Run tr s ∧ Returned .pause tr s ∧
      (s.threads 0).pc = .dequeue ∧ ∀ later s', ((machine 1 1).after s).Run later s' →
        (∀ call ∈ calls later, call.Rests) → ∀ k, (history (starts k) later).length ≤ 1 := by
  obtain ⟨tr, s, hr, hs⟩ := (machine 1 1).exists_run_of_record (start fun _ => zeroJob)
    (pausedJob 0)
    (fun tr s => Returned .pause tr s ∧ (s.threads 0).pc = .dequeue) ⟨by decide, _, rfl⟩
    (by decide)
  simp only [decide_eq_true_eq] at hs
  refine ⟨tr, s, hr, hs.1, hs.2, fun later s' hl hcalls k => ?_⟩
  exact ((pause_run hr).1 hs.1 later s' hl hcalls k).1

def expiredJob (k : Fin 1) : List (Label 1) :=
  [.call (.jobsAdd zeroJob 7 1 1 1 0), .main, .main, .main, .main, .main, .work k 0, .work k 0,
    .work k 0, .work k 0, .work k 5, .work k 5, .call .stopSafe, .main, .main, .main, .work k 5,
    .work k 5, .work k 5, .main, .main]

/-- A job that was never started is not in its queue after a stop: it had expired. -/
theorem not_pauseLaw_expiredJob :
    ¬ ∀ (tr : Trace 1 1) (s : State 1 1), (machine 1 1).Run tr s → Returned .stopSafe tr s →
      ∀ job ∈ s.accepted, job.2.submitted ∉ submitted (history (starts job.1) tr) →
        job.2 ∈ (s.threads job.1).submissionQueue.list := by
  obtain ⟨tr, s, hr, hs⟩ := (machine 1 1).exists_run_of_record (start fun _ => zeroJob)
    (expiredJob 0)
    (fun tr s => Returned .stopSafe tr s ∧ ∃ job ∈ s.accepted,
      job.2.submitted ∉ submitted (history (starts job.1) tr) ∧
        job.2 ∉ (s.threads job.1).submissionQueue.list) ⟨by decide, _, rfl⟩ (by decide)
  simp only [decide_eq_true_eq] at hs
  obtain ⟨hret, job, hmem, hnot, hgone⟩ := hs
  exact fun hlaw => hgone (hlaw tr s hr hret job hmem hnot)

end Dert.Tpoolrr
