import Dert.Pool.GtpoolrrLaws

namespace Dert.Gtpoolrr

open Library

variable {jobsPerThread : Nat} {s s' : State jobsPerThread} {l : Label}

def Pc.weight : Pc → Nat
  | .complete => 1
  | .noGreenThread => 1
  | .completionFull => 1
  | _ => 0

def State.live (s : State jobsPerThread) : List Nat :=
  s.runningThread.toList ++ s.readyThreads.list ++ s.parked

def State.busy (s : State jobsPerThread) : Nat := s.live.length + s.pc.weight

theorem busy_eq : s.busy =
    s.runningThread.toList.length + s.readyThreads.list.length +
      ((s.outstanding.filter fun cqe => cqe.2 = false).length +
        (s.posted.filter fun cqe => cqe.2 = false).length) + s.pc.weight := by
  simp [State.busy, State.live, State.parked, Nat.add_assoc]

/-- What a step does to the jobs: nothing, take one, or complete the one in `job`. -/
inductive Effect (s : State jobsPerThread) (l : Label) (s' : State jobsPerThread) : Prop
  | quiet : s'.busy = s.busy → s'.job = s.job → s'.dequeued = s.dequeued →
      s'.completed = s.completed → Effect s l s'
  | taken (now job rest) : l = .work now → s.pc = .take → s.submissionQueue.list = job :: rest →
      s'.busy = s.busy + 1 → s'.job = some job → s'.dequeued = s.dequeued ++ [job] →
      s'.completed = s.completed → Effect s l s'
  | completed (job) : s.job = some job → s'.busy + 1 = s.busy → s'.job = s.job →
      s'.dequeued = s.dequeued → s'.completed = s.completed ++ [job] → Effect s l s'

theorem submitted_length (op : GreentDo) (thread : Nat) (h : greentDoSubmit op ≠ []) :
    (((greentDoSubmit op).map fun timeout => (thread, timeout)).filter
      fun cqe => cqe.2 = false).length = 1 := by
  cases op <;> simp_all [greentDoSubmit]

theorem posted_length {outstanding : List (Nat × Bool)} {i : Nat} {cqe : Nat × Bool}
    (h : outstanding[i]? = some cqe) (p : Nat × Bool → Bool) :
    (outstanding.filter p).length =
      ((outstanding.eraseIdx i).filter p).length + ([cqe].filter p).length := by
  obtain ⟨hi, rfl⟩ := List.getElem?_eq_some_iff.mp h
  have hperm := (List.getElem_cons_eraseIdx_perm hi).symm.filter p
  rw [hperm.length_eq, ← List.singleton_append, List.filter_append, List.length_append, Nat.add_comm]

theorem effect (h : Inv s) (hs : Step s l s') : Effect s l s' := by
  cases hs
  case started hpc hlist _ =>
    refine .taken _ _ _ rfl hpc hlist ?_ rfl rfl rfl
    simp [busy_eq, h.running (.inl hpc), hpc, Pc.weight]
    omega
  case noGreenThread hpc hlist _ =>
    refine .taken _ _ _ rfl hpc hlist ?_ rfl rfl rfl
    simp [busy_eq, hpc, Pc.weight]
  case expired hpc hlist =>
    refine .taken _ _ _ rfl hpc hlist ?_ rfl rfl rfl
    simp [busy_eq, hpc, Pc.weight]
  case completed hpc hjob hlist =>
    refine .completed _ hjob ?_ rfl rfl rfl
    simp [busy_eq, hpc, Pc.weight]
  case posted i cqe hcqe =>
    refine .quiet ?_ rfl rfl rfl
    simp only [busy_eq, posted_length hcqe, List.filter_append, List.length_append]
    omega
  case submitted op thread hpc hrun hsub =>
    refine .quiet ?_ rfl rfl rfl
    simp only [busy_eq, hpc, Pc.weight, hrun, List.filter_append, List.length_append,
      submitted_length op thread hsub, Option.toList_none, Option.toList_some, List.length_nil,
      List.length_singleton]
    omega
  case readied hpc hposted hlist =>
    refine .quiet ?_ rfl rfl rfl
    simp [busy_eq, hposted, hlist]
    omega
  case chosen hpc hrun hlist =>
    refine .quiet ?_ rfl rfl rfl
    simp [busy_eq, hpc, hrun, hlist, Pc.weight]
    omega
  case finished hpc =>
    refine .quiet ?_ rfl rfl rfl
    obtain ⟨thread, hrun⟩ := Option.isSome_iff_exists.mp (h.inJob hpc)
    simp [busy_eq, hpc, hrun, Pc.weight]
    omega
  all_goals
    refine .quiet ?_ rfl rfl rfl
    simp_all [busy_eq, Pc.weight]

def Seeks (s : State jobsPerThread) : Prop :=
  s.pc = .take ∧ s.submissionQueue.length ≠ 0 ∨
    s.pc = .joinTest ∧ s.runningThread = none ∧ s.submissionQueue.length = 0 ∧
      s.readyThreads.length = 0

theorem left_of_step (hs : Step s l s') (hleft : s'.pc = .left .JOINED) :
    s.pc = .left .JOINED ∨ s.pc = .joinTest ∧ Seeks s ∧ ∃ now, l = .work now := by
  cases hs
  case joined now hpc hrun hsub hready =>
    refine .inr ⟨hpc, .inr ⟨hpc, hrun, ?_, ?_⟩, now, rfl⟩
    · rw [Fifo.length, hsub, List.length_nil]
    · rw [Fifo.length, hready, List.length_nil]
  all_goals simp_all

/-- The worker does not look for new work in this step, or no green thread is parked. -/
def Unparked (s : State jobsPerThread) (l : Label) : Prop :=
  (∃ now, l = .work now) → Seeks s → s.parked = []

structure Serial (s : State jobsPerThread) : Prop where
  inv : Inv s
  jobs : s.busy = 0 ∧ s.dequeued = s.completed ∨
    s.busy = 1 ∧ ∃ job, s.job = some job ∧ s.dequeued = s.completed ++ [job]
  joined : s.pc = .left .JOINED → s.busy = 0

theorem busy_of_seeks (h : Inv s) (hseeks : Seeks s) (hparked : s.parked = []) : s.busy = 0 := by
  have hbusy : s.runningThread = none ∧ s.readyThreads.list = [] ∧ s.pc.weight = 0 := by
    rcases hseeks with ⟨hpc, -⟩ | ⟨hpc, hrun, -, hready⟩
    · exact ⟨h.running (.inl hpc), h.ready hpc, by rw [hpc]; rfl⟩
    · exact ⟨hrun, List.length_eq_zero_iff.mp hready, by rw [hpc]; rfl⟩
  rw [State.busy, State.live, hbusy.1, hbusy.2.1, hbusy.2.2, hparked]
  rfl

theorem Serial.step (h : Serial s) (hfree : Unparked s l) (hs : Step s l s') :
    Serial s' := by
  refine ⟨h.inv.step hs, ?_, ?_⟩
  · cases effect h.inv hs with
    | quiet hbusy hjob hdequeued hcompleted =>
      rw [hbusy, hjob, hdequeued, hcompleted]
      exact h.jobs
    | taken now job rest hl hpc hlist hbusy hjob hdequeued hcompleted =>
      have hseek : Seeks s := .inl ⟨hpc, by simp [Fifo.length, hlist]⟩
      have hidle := busy_of_seeks h.inv hseek (hfree ⟨now, hl⟩ hseek)
      rcases h.jobs with ⟨-, hjobs⟩ | ⟨hone, -⟩
      · exact .inr ⟨by rw [hbusy, hidle], job, hjob, by rw [hdequeued, hcompleted, hjobs]⟩
      · rw [hidle] at hone
        cases hone
    | completed job hjob hbusy _ hdequeued hcompleted =>
      rcases h.jobs with ⟨hzero, -⟩ | ⟨hone, job', hjob', hjobs⟩
      · rw [hzero] at hbusy
        cases hbusy
      · rw [hjob, Option.some.injEq] at hjob'
        subst hjob'
        exact .inl ⟨by omega, by rw [hdequeued, hcompleted, hjobs]⟩
  · intro hleft
    have hidle : s.pc ≠ .take ∧ s.busy = 0 := by
      rcases left_of_step hs hleft with hpc | ⟨hpc, hseek, hl⟩
      · exact ⟨by simp [hpc], h.joined hpc⟩
      · exact ⟨by simp [hpc], busy_of_seeks h.inv hseek (hfree hl hseek)⟩
    cases effect h.inv hs with
    | quiet hbusy => exact hbusy.trans hidle.2
    | taken _ _ _ _ hpc => exact absurd hpc hidle.1
    | completed _ _ hbusy =>
      rw [hidle.2] at hbusy
      cases hbusy

/-- A job that can no longer be completed: the worker has taken another one since, and
completes only the one it took last. -/
def Lost (s : State jobsPerThread) : Prop :=
  ∃ job ∈ s.dequeued, job ∉ s.completed ∧ s.job ≠ some job

theorem Lost.step (h : Lost s) (hinv : Inv s) (hs : Step s l s') : Lost s' := by
  obtain ⟨lost, hmem, hnot, hother⟩ := h
  cases effect hinv hs with
  | quiet _ hjob hdequeued hcompleted =>
    exact ⟨lost, hdequeued ▸ hmem, hcompleted ▸ hnot, hjob ▸ hother⟩
  | taken _ job rest _ _ hlist _ hjob hdequeued hcompleted =>
    refine ⟨lost, hdequeued ▸ List.mem_append_left _ hmem, hcompleted ▸ hnot, ?_⟩
    rw [hjob]
    rintro ⟨rfl⟩
    exact hinv.fresh hlist hmem
  | completed job hjob _ hjob' hdequeued hcompleted =>
    refine ⟨lost, hdequeued ▸ hmem, ?_, hjob' ▸ hother⟩
    rw [hcompleted, List.mem_append, List.mem_singleton, not_or]
    refine ⟨hnot, ?_⟩
    rintro rfl
    exact hother hjob

def Stranded (s : State jobsPerThread) : Prop := s.pc = .left .JOINED ∧ s.parked ≠ []

theorem parked_posted {i : Nat} {cqe : Nat × Bool} (hcqe : s.outstanding[i]? = some cqe) :
    (State.parked { s with
      outstanding := s.outstanding.eraseIdx i, posted := s.posted ++ [cqe] }).length =
      s.parked.length := by
  simp only [State.parked, List.length_map, List.filter_append, List.length_append,
    posted_length hcqe]
  omega

theorem Stranded.step (h : Stranded s) (hs : Step s l s') : Stranded s' := by
  obtain ⟨hpc, hparked⟩ := h
  cases hs
  case posted i cqe hcqe =>
    refine ⟨hpc, List.ne_nil_of_length_pos ?_⟩
    rw [parked_posted hcqe]
    exact List.length_pos_iff.mpr hparked
  case pushed => exact ⟨hpc, hparked⟩
  case submissionFull => exact ⟨hpc, hparked⟩
  case popped => exact ⟨hpc, hparked⟩
  case nonePopped => exact ⟨hpc, hparked⟩
  case acked => exact ⟨hpc, hparked⟩
  case desired => exact ⟨hpc, hparked⟩
  case destructed => exact ⟨hpc, hparked⟩
  case unkeyed => exact ⟨hpc, hparked⟩
  all_goals simp_all

theorem Serial.lost (h : Serial s) (hparked : s.parked ≠ []) {job : GtpoolrrJob}
    {rest : List GtpoolrrJob} (hlist : s.submissionQueue.list = job :: rest)
    (hjob : s'.job = some job) (hdequeued : s'.dequeued = s.dequeued ++ [job])
    (hcompleted : s'.completed = s.completed) : Lost s' := by
  have hbusy : s.busy ≠ 0 := by
    intro hzero
    rw [State.busy, State.live, List.length_append] at hzero
    exact hparked (List.length_eq_zero_iff.mp (by omega))
  rcases h.jobs with ⟨hzero, -⟩ | ⟨-, lost, -, hjobs⟩
  · exact absurd hzero hbusy
  · have hmem : lost ∈ s.dequeued := by simp [hjobs]
    have hnd := h.inv.dequeued_nodup
    rw [hjobs, List.nodup_append] at hnd
    refine ⟨lost, hdequeued ▸ List.mem_append_left _ hmem, ?_, ?_⟩
    · rw [hcompleted]
      exact fun hmem => hnd.2.2 lost hmem lost List.mem_cons_self rfl
    · rw [hjob]
      rintro ⟨rfl⟩
      exact h.inv.fresh hlist hmem

/-- The first step that looks for new work while a green thread is parked loses a job or
leaves the green thread behind. -/
theorem Serial.spoiled (h : Serial s) (hfree : ¬ Unparked s l) (hs : Step s l s') :
    Lost s' ∨ Stranded s' := by
  simp only [Unparked, Classical.not_imp] at hfree
  obtain ⟨⟨now, rfl⟩, hseeks, hparked⟩ := hfree
  rcases hseeks with ⟨hpc, hlen⟩ | ⟨hpc, htest⟩
  · cases hs
    case started hlist _ => exact .inl (h.lost hparked hlist rfl rfl rfl)
    case noGreenThread hlist _ => exact .inl (h.lost hparked hlist rfl rfl rfl)
    case expired hlist => exact .inl (h.lost hparked hlist rfl rfl rfl)
    case empty hlist => exact absurd (by rw [Fifo.length, hlist, List.length_nil]) hlen
    all_goals simp_all
  · cases hs
    case joined => exact .inr ⟨rfl, hparked⟩
    case unjoined hfail => exact absurd htest hfail
    all_goals simp_all

/-- What joining promises: all jobs the worker ever took are completed, and no green
thread is parked. -/
def Drained (s : State jobsPerThread) : Prop :=
  (∀ job ∈ s.dequeued, job ∈ s.completed) ∧ s.parked = []

theorem Serial.drained (h : Serial s) (hpc : s.pc = .left .JOINED) : Drained s := by
  have hidle := h.joined hpc
  constructor
  · rcases h.jobs with ⟨-, hjobs⟩ | ⟨hone, -⟩
    · exact fun job hjob => hjobs ▸ hjob
    · rw [hidle] at hone
      cases hone
  · rw [State.busy, State.live, List.length_append] at hidle
    exact List.length_eq_zero_iff.mp (by omega)

/-- A worker that has left because of a join is drained exactly when it never took a job
from its submission queue, and did not leave, while a green thread was parked. -/
theorem drained_iff {tr : List (State jobsPerThread × Label)} (hr : (machine jobsPerThread).Run tr s)
    (hpc : s.pc = .left .JOINED) :
    Drained s ↔ ∀ p ∈ tr, Unparked p.1 p.2 := by
  have hruns := hr.good_or_bad (I := Serial) (B := fun s => Inv s ∧ (Lost s ∨ Stranded s))
    (G := Unparked) ?_ ?_ ?_ ?_
  · rcases hruns with ⟨hgood, hserial⟩ | ⟨hbad, -, hlost⟩
    · exact iff_of_true (hserial.drained hpc) hgood
    · refine iff_of_false ?_ hbad
      rintro ⟨hall, hparked⟩
      rcases hlost with ⟨lost, hmem, hnot, -⟩ | ⟨-, hstranded⟩
      · exact hnot (hall lost hmem)
      · exact hstranded hparked
  · rintro s ⟨-, ring, memory, greenThreads, rfl⟩
    have hidle : (start ring memory greenThreads : State jobsPerThread).busy = 0 := by
      cases ring <;> rfl
    exact ⟨inv_start ring memory greenThreads, .inl ⟨hidle, rfl⟩, fun _ => hidle⟩
  · intro s l s' h hfree hs
    exact h.step hfree (step_cases hs)
  · intro s l s' h hfree hs
    have hs := step_cases hs
    exact ⟨h.inv.step hs, h.spoiled hfree hs⟩
  · rintro s l s' ⟨hinv, hbad⟩ hs
    have hs := step_cases hs
    exact ⟨hinv.step hs, hbad.imp (fun h => h.step hinv hs) fun h => h.step hs⟩

def resuming : List Label :=
  [.work 0, .work 0, .push 0, .work 0, .work 0, .yield .IOURING_READ, .post 0, .work 0, .work 0,
    .work 0, .work 0, .finish, .work 0, .desire .JOINED, .work 0, .work 0, .work 0]

theorem drained_iff_resuming :
    ∃ tr s, (machine 1).Run tr s ∧ s.pc = .left .JOINED ∧ s.completed.length = 1 ∧
      (Drained s ↔ ∀ p ∈ tr, Unparked p.1 p.2) := by
  obtain ⟨tr, s, hr, hs⟩ := (machine 1).exists_run_of_exec (start true noPools 4096) resuming
    (fun s => s.pc = .left .JOINED ∧ s.completed.length = 1) ⟨by decide, _, _, _, rfl⟩ (by decide)
  simp only [decide_eq_true_eq] at hs
  exact ⟨tr, s, hr, hs.1, hs.2, drained_iff hr hs.1⟩

/-- The only job waits for a read when the worker is told to join, and the worker leaves. -/
theorem not_drained_reading :
    ¬ ∀ (tr : List (State 1 × Label)) (s : State 1), (machine 1).Run tr s →
      s.pc = .left .JOINED → Drained s := by
  obtain ⟨tr, s, hr, hs⟩ := (machine 1).exists_run_of_exec (start true noPools 4096)
    [.work 0, .work 0, .push 0, .work 0, .work 0, .yield .IOURING_READ, .desire .JOINED, .work 0,
      .work 0, .work 0]
    (fun s => s.pc = .left .JOINED ∧ s.dequeued.length = 1 ∧ s.completed = [])
    ⟨by decide, _, _, _, rfl⟩ (by decide)
  simp only [decide_eq_true_eq] at hs
  obtain ⟨hpc, hlen, hnone⟩ := hs
  intro hall
  obtain ⟨job, hjob⟩ := List.exists_mem_of_length_pos (Nat.lt_of_lt_of_eq Nat.zero_lt_one hlen.symm)
  have hmem := (hall tr s hr hpc).1 job hjob
  rw [hnone] at hmem
  cases hmem

end Dert.Gtpoolrr
