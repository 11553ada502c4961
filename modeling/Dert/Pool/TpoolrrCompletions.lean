import Dert.Pool.TpoolrrLaws
import Mathlib.Tactic.Abel

namespace Dert.Tpoolrr

open Library

variable {threadsTotal jobsPerThread : Nat}

@[simp] theorem submissions_nil : submissions [] = 0 := rfl

@[simp] theorem submissions_append (jobs jobs' : List TpoolrrJob) :
    submissions (jobs ++ jobs') = submissions jobs + submissions jobs' := by
  rw [submissions, List.map_append, ← Multiset.coe_add]
  rfl

theorem submissions_cons (job : TpoolrrJob) (jobs : List TpoolrrJob) :
    submissions (job :: jobs) = submissions [job] + submissions jobs :=
  submissions_append [job] jobs

theorem submissions_eq_zero {jobs : List TpoolrrJob} : submissions jobs = 0 ↔ jobs = [] := by
  rw [submissions, Multiset.coe_eq_zero, List.map_eq_nil_iff]

section Threads

variable {index : Nat} {t t' : Thread jobsPerThread}

def Thread.weight (t : Thread jobsPerThread) : Multiset Submission :=
  submissions t.submissionQueue.list + submissions t.held + submissions t.completionQueue.list +
    submissions t.dropped

/-- A worker that goes to dequeue finds a job: nobody else takes one from its queue. -/
def Thread.Sound (t : Thread jobsPerThread) : Prop :=
  t.pc = .unlock ∨ t.pc = .dequeue → t.submissionQueue.list ≠ []

structure Thread.Like (t t' : Thread jobsPerThread) : Prop where
  submissionQueue : t'.submissionQueue = t.submissionQueue
  completionQueue : t'.completionQueue = t.completionQueue
  job : t'.job = t.job
  dropped : t'.dropped = t.dropped
  pc : t'.pc = t.pc ∨ t.pc = .waiting ∧ t'.pc = .wake

theorem Thread.Like.refl (t : Thread jobsPerThread) : t.Like t := ⟨rfl, rfl, rfl, rfl, .inl rfl⟩

theorem like_unlock (t : Thread jobsPerThread) : t.Like t.unlock := ⟨rfl, rfl, rfl, rfl, .inl rfl⟩

theorem like_signal (t : Thread jobsPerThread) : t.Like t.signal := by
  rw [Thread.signal]
  split
  next hpc => exact ⟨rfl, rfl, rfl, rfl, .inr ⟨hpc, rfl⟩⟩
  next => exact .refl t

theorem Thread.Like.weight (h : t.Like t') : t'.weight = t.weight := by
  have hheld : t'.held = t.held := by
    rcases h.pc with hpc | ⟨hpc, hpc'⟩
    · simp only [held, hpc, h.job]
    · simp only [held, hpc, hpc']
  rw [Thread.weight, h.submissionQueue, hheld, h.completionQueue, h.dropped]
  rfl

theorem Thread.Like.sound (h : t.Like t') (ht : t.Sound) : t'.Sound := by
  rcases h.pc with hpc | ⟨hpc, hpc'⟩
  · rw [Sound, hpc, h.submissionQueue]
    exact ht
  · simp [Sound, hpc']

theorem Works.weight (h : Works index t t') (ht : t.Sound) : t'.weight = t.weight := by
  cases h with
  | dequeued job submissionQueue hpc hlist =>
    simp only [Thread.weight, Thread.held, hpc, hlist]
    rw [submissions_cons job]
    simp only [submissions_nil, add_zero]
    congr 2
    exact add_comm _ _
  | stale hpc hempty => exact absurd hempty (ht (.inr hpc))
  | completed completionQueue hpc hlist =>
    simp only [Thread.weight, Thread.held, hpc, hlist, submissions_append]
    abel
  | dropped hpc =>
    simp only [Thread.weight, Thread.held, hpc, submissions_append]
    abel
  | started hpc => simp [Thread.weight, Thread.held, hpc]
  | expired hpc =>
    simp only [Thread.weight, Thread.held, hpc]
    rfl
  | _ => simp_all [Thread.weight, Thread.held]

theorem Works.sound (h : Works index t t') (ht : t.Sound) : t'.Sound := by
  cases h with
  | active _ _ hqueue => exact fun _ => hqueue
  | draining _ _ hqueue => exact fun _ => hqueue
  | unlocked hpc => exact fun _ => ht (.inl hpc)
  | _ => simp [Thread.Sound]

theorem Works.dropped_or (h : Works index t t') :
    t'.dropped = t.dropped ∧ ¬ (t.pc = .enqueue ∧ t.completionQueue.length = jobsPerThread) ∨
      (t.pc = .enqueue ∧ t.completionQueue.length = jobsPerThread) ∧ t'.dropped ≠ [] := by
  cases h with
  | dropped hpc hfull => exact .inr ⟨⟨hpc, hfull⟩, by simp⟩
  | completed completionQueue hpc hlist hroom =>
    exact .inl ⟨rfl, fun hfull => Nat.ne_of_lt hroom hfull.2⟩
  | _ => simp_all

end Threads

section Pool

variable {s s' : State threadsTotal jobsPerThread} {l : Label threadsTotal}

def State.given (s : State threadsTotal jobsPerThread) : Multiset Submission :=
  submissions (s.accepted.map Prod.snd) + submissions s.main.published

structure Quiet (s s' : State threadsTotal jobsPerThread) : Prop where
  threads : ∀ k, (s.threads k).Like (s'.threads k)
  given : s'.given = s.given
  popped : s'.popped = s.popped

theorem quiet_main {main next : Main threadsTotal} (hmain : s.main = main)
    (h : next.published = main.published) : Quiet s { s with main := next } where
  threads k := .refl _
  given := by simp only [State.given, hmain, h]
  popped := rfl

theorem quiet_set {index : Fin threadsTotal} {t : Thread jobsPerThread}
    {main next : Main threadsTotal} (ht : (s.threads index).Like t) (hmain : s.main = main)
    (h : next.published = main.published) : Quiet s { s.set index t with main := next } where
  threads := set_forall (P := fun k => (s.threads k).Like) ht fun k _ => .refl _
  given := by simp only [State.given, State.set, hmain, h]
  popped := rfl

theorem enter_published (call : Call) : (enter call : Main threadsTotal).published = [] := by
  cases call with
  | jobsAdd =>
    rw [enter]
    split_ifs <;> rfl
  | _ => rfl

inductive Moves (s : State threadsTotal jobsPerThread) : State threadsTotal jobsPerThread → Prop
  | quiet (next) : Quiet s next → Moves s next
  | enqueued (job index submissionQueue) : s.main = .jobsAddEnqueue job index →
      submissionQueue.list = (s.threads index).submissionQueue.list ++ [job] →
      Moves s
        { s.set index { s.threads index with submissionQueue } with main := .jobsAddLock job index }
  | popped (index job completionQueue rrIndex) : s.main.published = [] →
      (s.threads index).completionQueue.list = job :: completionQueue.list →
      Moves s { s.set index { s.threads index with completionQueue } with
        rrIndex
        main := .returned .ok
        popped := s.popped ++ [job] }

structure Inv (s : State threadsTotal jobsPerThread) : Prop where
  sound : ∀ k, (s.threads k).Sound
  balance : s.given = submissions s.popped + tally Thread.weight s.threads

theorem Inv.quiet (h : Inv s) (hq : Quiet s s') : Inv s' where
  sound k := (hq.threads k).sound (h.sound k)
  balance := by
    rw [hq.given, hq.popped, h.balance]
    congr 1
    exact Finset.sum_congr rfl fun k _ => (hq.threads k).weight.symm

theorem Inv.moves (h : Inv s) (hm : Moves s s') : Inv s' := by
  cases hm with
  | quiet _ hq => exact h.quiet hq
  | enqueued job index submissionQueue hmain hlist =>
    constructor
    · apply set_forall
      · intro _
        simp [hlist]
      · exact fun k _ => h.sound k
    · have hgive : Thread.weight { s.threads index with submissionQueue } =
          submissions [job] + (s.threads index).weight := by
        simp only [Thread.weight, hlist, submissions_append]
        change _ + submissions (s.threads index).held + _ + _ = _
        abel
      have hbalance := h.balance
      simp only [State.given, hmain, Main.published, submissions_nil, add_zero] at hbalance
      simp only [State.given, State.set, Main.published, hbalance, tally_give hgive]
      abel
  | popped index job completionQueue rrIndex hmain hlist =>
    constructor
    · apply set_forall
      · exact h.sound index
      · exact fun k _ => h.sound k
    · have htake : (s.threads index).weight =
          submissions [job] + Thread.weight { s.threads index with completionQueue } := by
        simp only [Thread.weight, hlist]
        rw [submissions_cons]
        change _ = _ + (_ + submissions (s.threads index).held + _ + _)
        abel
      have hbalance := h.balance
      simp only [State.given, hmain, submissions_nil, add_zero, tally_take htake] at hbalance
      simp only [State.given, State.set, Main.published, submissions_append, hbalance,
        submissions_nil, add_zero]
      abel

theorem Inv.set (h : Inv s) {index : Fin threadsTotal} {t : Thread jobsPerThread}
    (hsound : t.Sound) (hweight : t.weight = (s.threads index).weight) : Inv (s.set index t) where
  sound := set_forall (P := fun _ => Thread.Sound) hsound fun k _ => h.sound k
  balance := by
    rw [State.set, tally_same hweight]
    exact h.balance

theorem inv_start (garbage : Fin threadsTotal → TpoolrrJob) :
    Inv (start garbage : State threadsTotal jobsPerThread) where
  sound k := by simp [Thread.Sound, start]
  balance := by
    have hnone : tally Thread.weight (start garbage : State threadsTotal jobsPerThread).threads = 0 :=
      tally_zero fun _ => rfl
    rw [hnone]
    rfl

theorem Inv.noneLost (h : Inv s) (hd : s.Drained) :
    s.NoneLost ↔ ∀ k, (s.threads k).dropped = [] := by
  have hweight : tally Thread.weight s.threads =
      tally (fun t => submissions t.completionQueue.list) s.threads +
        tally (fun t => submissions t.dropped) s.threads := by
    rw [← tally_add]
    apply tally_congr
    intro k
    simp [Thread.weight, (hd k).1, (hd k).2]
  calc s.NoneLost
    _ ↔ submissions s.popped + tally Thread.weight s.threads =
        submissions s.popped + tally (fun t => submissions t.completionQueue.list) s.threads := by
      rw [State.NoneLost, ← h.balance]
      rfl
    _ ↔ tally (fun t => submissions t.dropped) s.threads = 0 := by
      rw [hweight, add_right_inj, add_eq_left]
    _ ↔ ∀ k, (s.threads k).dropped = [] := by
      simp only [tally_eq_zero, submissions_eq_zero]

section Steps

variable [NeZero threadsTotal]

theorem Controls.moves (h : Controls s s') : Moves s s' := by
  have hlocked (t : Thread jobsPerThread) (state : TpoolrrThreadState) :
      t.Like { t with conditionMutex := some .main, desiredState := state } :=
    ⟨rfl, rfl, rfl, rfl, .inl rfl⟩
  cases h with
  | scanFull job i hmain => exact .quiet _ (quiet_main hmain rfl)
  | scanRoom job i hmain => exact .quiet _ (quiet_main hmain rfl)
  | scanEnd job i hmain => exact .quiet _ (quiet_main hmain rfl)
  | enqueueFull job index hmain => exact .quiet _ (quiet_main hmain rfl)
  | enqueued job index submissionQueue hmain hlist =>
    exact .enqueued job index submissionQueue hmain hlist
  | addLocked job index hmain => exact .quiet _ (quiet_set (hlocked _ _) hmain rfl)
  | addSignalled job index hmain => exact .quiet _ (quiet_set (like_signal _) hmain rfl)
  | added job index hmain =>
    refine .quiet _ ⟨(quiet_set (like_unlock _) hmain rfl).threads, ?_, rfl⟩
    simp [State.given, hmain, Main.published]
  | popped i job completionQueue hmain _ hlist =>
    exact .popped (s.index i) job completionQueue _ (by rw [hmain]; rfl) hlist
  | popNone i hmain => exact .quiet _ (quiet_main hmain rfl)
  | popEnd i hmain => exact .quiet _ (quiet_main hmain rfl)
  | setLocked state i hmain => exact .quiet _ (quiet_set (hlocked _ _) hmain rfl)
  | setEnd state i hmain => exact .quiet _ (quiet_main hmain rfl)
  | setSignalled state i hmain => exact .quiet _ (quiet_set (like_signal _) hmain rfl)
  | setUnlocked state i hmain => exact .quiet _ (quiet_set (like_unlock _) hmain rfl)
  | endLocked state i hmain => exact .quiet _ (quiet_set (hlocked _ _) hmain rfl)
  | endEnd state i hmain => exact .quiet _ (quiet_main hmain rfl)
  | needed state i hmain => exact .quiet _ (quiet_set (like_unlock _) hmain rfl)
  | unneeded state i hmain => exact .quiet _ (quiet_set (like_unlock _) hmain rfl)
  | endSignalled state i hmain => exact .quiet _ (quiet_set (like_signal _) hmain rfl)
  | endJoined state i hmain => exact .quiet _ (quiet_main hmain rfl)

theorem Inv.step (h : Inv s) (hs : Step s l s') : Inv s' := by
  cases hs with
  | work index now t hw => exact h.set (hw.sound (h.sound index)) (hw.weight (h.sound index))
  | finish index ret hpc =>
    apply h.set
    · simp [Thread.Sound]
    · simp only [Thread.weight, Thread.held, hpc]
      rfl
  | spurious index hpc =>
    have hlike : (s.threads index).Like { s.threads index with pc := .wake } :=
      ⟨rfl, rfl, rfl, rfl, .inr ⟨hpc, rfl⟩⟩
    exact h.set (hlike.sound (h.sound index)) hlike.weight
  | call call res hmain => exact h.quiet (quiet_main hmain (enter_published call))
  | main _ hc => exact h.moves hc.moves

theorem Step.dropped (hs : Step s l s') :
    ¬ Overfull s l ∧ (∀ k, (s'.threads k).dropped = (s.threads k).dropped) ∨
      Overfull s l ∧ ∃ k, (s'.threads k).dropped ≠ [] := by
  have hkept {index : Fin threadsTotal} {t : Thread jobsPerThread}
      (h : t.dropped = (s.threads index).dropped) :
      ∀ k, ((s.set index t).threads k).dropped = (s.threads k).dropped :=
    set_forall (P := fun k t => t.dropped = (s.threads k).dropped) h fun k _ => rfl
  cases hs with
  | work index now t hw =>
    rcases hw.dropped_or with ⟨hsame, hfull⟩ | ⟨⟨hpc, hfull⟩, hnil⟩
    · refine .inl ⟨?_, hkept hsame⟩
      rintro ⟨k, now', hl, hover⟩
      cases hl
      exact hfull hover
    · refine .inr ⟨⟨index, now, rfl, hpc, hfull⟩, index, ?_⟩
      rwa [set_threads_self]
  | finish => exact .inl ⟨by simp [Overfull], hkept rfl⟩
  | spurious => exact .inl ⟨by simp [Overfull], hkept rfl⟩
  | call => exact .inl ⟨by simp [Overfull], fun k => rfl⟩
  | main _ hc =>
    refine .inl ⟨by simp [Overfull], ?_⟩
    cases hc.moves with
    | quiet _ hq => exact fun k => (hq.threads k).dropped
    | enqueued => exact hkept rfl
    | popped => exact hkept rfl

/-- When all submission queues are empty and no worker holds a job, no job is lost
exactly when no completion ever met a full queue. -/
theorem noneLost_iff {tr : List (State threadsTotal jobsPerThread × Label threadsTotal)}
    (hr : (machine threadsTotal jobsPerThread).Run tr s) (hd : s.Drained) :
    s.NoneLost ↔ ∀ p ∈ tr, ¬ Overfull p.1 p.2 := by
  have hcases := hr.good_or_bad
    (I := fun s => Inv s ∧ ∀ k, (s.threads k).dropped = [])
    (B := fun s => Inv s ∧ ∃ k, (s.threads k).dropped ≠ [])
    (G := fun s l => ¬ Overfull s l) ?_ ?_ ?_ ?_
  · rcases hcases with ⟨hg, hinv, hnone⟩ | ⟨hg, hinv, k, hk⟩
    · exact iff_of_true ((hinv.noneLost hd).mpr hnone) hg
    · exact iff_of_false (fun h => hk ((hinv.noneLost hd).mp h k)) hg
  · rintro s ⟨-, garbage, rfl⟩
    exact ⟨inv_start garbage, fun k => rfl⟩
  · rintro s l s' ⟨hinv, hnone⟩ hl hs
    have hs := step_cases hs
    rcases hs.dropped with ⟨-, hsame⟩ | ⟨hfull, -⟩
    · exact ⟨hinv.step hs, fun k => (hsame k).trans (hnone k)⟩
    · exact absurd hfull hl
  · rintro s l s' ⟨hinv, -⟩ hl hs
    have hs := step_cases hs
    rcases hs.dropped with ⟨hfull, -⟩ | ⟨-, hdropped⟩
    · exact absurd hfull hl
    · exact ⟨hinv.step hs, hdropped⟩
  · rintro s l s' ⟨hinv, k, hk⟩ hs
    have hs := step_cases hs
    rcases hs.dropped with ⟨-, hsame⟩ | ⟨-, hdropped⟩
    · exact ⟨hinv.step hs, k, by rwa [hsame]⟩
    · exact ⟨hinv.step hs, hdropped⟩

end Steps

end Pool

def zeroJob : TpoolrrJob := ⟨0, 0, 0, 0, 0, 0, 0⟩

def oneJob : List (Label 1) :=
  [.call (.jobsAdd zeroJob 7 1 1 0 0), .main, .main, .main, .main, .main, .work 0 0, .work 0 0,
    .work 0 0, .work 0 0, .work 0 0, .finish 0 0, .work 0 0]

/-- A second job is completed before the first is popped. -/
theorem not_noneLost_secondJob :
    ¬ ∀ (tr : List (State 1 1 × Label 1)) (s : State 1 1), (machine 1 1).Run tr s →
      s.Drained → s.NoneLost := by
  obtain ⟨tr, s, hr, hs⟩ := (machine 1 1).exists_run_of_exec (start fun _ => zeroJob)
    (oneJob ++ oneJob) (fun s => s.Drained ∧ ¬ s.NoneLost) ⟨by decide, _, rfl⟩ (by decide)
  simp only [decide_eq_true_eq] at hs
  intro hlaw
  exact hs.2 (hlaw tr s hr hs.1)

end Dert.Tpoolrr
