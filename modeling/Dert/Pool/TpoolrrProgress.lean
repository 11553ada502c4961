import Dert.Library.Settling
import Dert.Pool.TpoolrrStates

namespace Dert.Tpoolrr

open Library

variable {threadsTotal jobsPerThread : Nat}

/-- The workers take their steps, the functions of the jobs return, and the main thread goes on
in the call it is in. -/
def Label.Own : Label threadsTotal → Prop
  | .work _ _ => True
  | .finish _ _ => True
  | .main => True
  | _ => False

instance : (l : Label threadsTotal) → Decidable l.Own
  | .work _ _ => .isTrue trivial
  | .finish _ _ => .isTrue trivial
  | .main => .isTrue trivial
  | .spurious _ => .isFalse id
  | .call _ => .isFalse id

@[simp] def Main.signals : Main threadsTotal → Option (Fin threadsTotal)
  | .jobsAddLock _ k => some k
  | .jobsAddSignal _ k => some k
  | .setSignal _ k => some k
  | .endUnlock _ k => some k
  | .endSignal _ k => some k
  | _ => none

/-- The worker has nothing to do: it is paused, or active without a job. -/
def Thread.Idle (t : Thread jobsPerThread) : Prop :=
  t.desiredState = .PAUSED ∨ t.desiredState = .ACTIVE ∧ t.submissionQueue.list = []

/-- A mutex that is locked belongs to who is inside, and a worker that waits, or is about to,
has nothing to do unless it is about to be signalled. -/
structure Thread.Attended (holds signals : Prop) (t : Thread jobsPerThread) : Prop where
  worker : t.conditionMutex = some .worker → t.pc.inside = true
  main : t.conditionMutex = some .main → holds
  waits : t.pc = .condWait ∨ t.pc = .waiting → signals ∨ t.Idle
  stays : t.pc = .condWait → ¬ Over t.desiredState

section Threads

variable {holds holds' signals signals' : Prop} {t t' : Thread jobsPerThread} {index : Nat}

theorem Thread.Attended.mono (h : t.Attended holds signals) (hh : holds → holds')
    (hs : signals → signals') : t.Attended holds' signals' :=
  ⟨h.worker, hh ∘ h.main, fun hpc => (h.waits hpc).imp_left hs, h.stays⟩

theorem Works.attended (hw : Works index t t')
    (hin : t.pc.inside = true → t.conditionMutex = some .worker) (h : t.Attended holds signals) :
    t'.Attended holds signals := by
  refine ⟨?_, ?_, ?_, ?_⟩
  · have := h.worker
    cases hw <;> simp_all [Pc.inside]
  · have := h.main
    cases hw <;> simp_all [Pc.inside]
  · have := h.waits
    cases hw <;> simp_all [Thread.Idle]
  · cases hw <;> simp_all [Over]

theorem attended_lock (hfree : t.conditionMutex = none)
    (hin : t.pc.inside = true → t.conditionMutex = some .worker) (state : TpoolrrThreadState)
    (hh : holds) (hs : signals) :
    Thread.Attended holds signals
      { t with conditionMutex := some .main, desiredState := state } where
  worker := by simp
  main _ := hh
  waits _ := .inl hs
  stays hpc := by
    dsimp only at hpc
    simp [hpc, Pc.inside, hfree] at hin

theorem Thread.Attended.signal (h : t.Attended holds signals) (hpc : t.pc ≠ .condWait) :
    t.signal.Attended holds False := by
  rw [Thread.signal]
  split
  next hwaiting =>
    exact ⟨fun hm => by simpa [hwaiting, Pc.inside] using h.worker hm, h.main, by simp, by simp⟩
  next hwaiting =>
    exact ⟨h.worker, h.main, fun hw => (hw.elim hpc hwaiting).elim, h.stays⟩

theorem Thread.Attended.unlock (h : t.Attended holds signals) :
    t.unlock.Attended False signals :=
  ⟨by simp [Thread.unlock], by simp [Thread.unlock], h.waits, h.stays⟩

end Threads

section Pool

variable [NeZero threadsTotal] {s s' : State threadsTotal jobsPerThread}
  {l : Label threadsTotal} {last : Option TpoolrrThreadState}

def State.Attended (s : State threadsTotal jobsPerThread) : Prop :=
  ∀ k, (s.threads k).Attended (s.main.holds = some k) (s.main.signals = some k)

omit [NeZero threadsTotal] in
theorem attended_set {main next : Main threadsTotal} {index : Fin threadsTotal}
    {t : Thread jobsPerThread}
    (h : ∀ k, (s.threads k).Attended (main.holds = some k) (main.signals = some k))
    (ht : t.Attended (next.holds = some index) (next.signals = some index))
    (hh : ∀ k, index ≠ k → main.holds = some k → next.holds = some k)
    (hs : ∀ k, index ≠ k → main.signals = some k → next.signals = some k) :
    ∀ k, ((s.set index t).threads k).Attended (next.holds = some k) (next.signals = some k) :=
  set_forall (P := fun k t => t.Attended (next.holds = some k) (next.signals = some k)) ht
    fun k hk => (h k).mono (hh k hk.symm) (hs k hk.symm)

theorem Controls.attended (hc : Controls s s') (hstates : States last s.threads s.main)
    (h : s.Attended) : s'.Attended := by
  have hout {index : Fin threadsTotal} (hm : s.main.holds = some index) :
      (s.threads index).pc ≠ .condWait := by
    intro hpc
    have hworker := (hstates.threads index).worker (by rw [hpc]; rfl)
    rw [(hstates.threads index).main hm] at hworker
    cases hworker
  cases hc with
  | scanFull job i hmain => exact fun k => (h k).mono (by simp [hmain]) (by simp [hmain])
  | scanRoom job i hmain => exact fun k => (h k).mono (by simp [hmain]) (by simp [hmain])
  | scanEnd job i hmain => exact fun k => (h k).mono (by simp [hmain]) (by simp [hmain])
  | enqueueFull job index hmain => exact fun k => (h k).mono (by simp [hmain]) (by simp [hmain])
  | popNone i hmain => exact fun k => (h k).mono (by simp [hmain]) (by simp [hmain])
  | popEnd i hmain => exact fun k => (h k).mono (by simp [hmain]) (by simp [hmain])
  | setEnd state i hmain => exact fun k => (h k).mono (by simp [hmain]) (by simp [hmain])
  | endEnd state i hmain => exact fun k => (h k).mono (by simp [hmain]) (by simp [hmain])
  | endJoined state i hmain => exact fun k => (h k).mono (by simp [hmain]) (by simp [hmain])
  | enqueued job index submissionQueue hmain =>
    have hi := h index
    refine attended_set h ⟨hi.worker, ?_, fun _ => .inl rfl, hi.stays⟩ ?_ ?_
    · simpa [hmain] using hi.main
    · simp [hmain]
    · simp [hmain]
  | addLocked job index hmain hfree =>
    refine attended_set h ?_ (by simp [hmain]) (by simp [hmain])
    exact attended_lock hfree (hstates.threads index).worker _ rfl rfl
  | addSignalled job index hmain =>
    refine attended_set h ?_ (by simp [hmain]) (by simp [hmain])
    exact ((h index).signal (hout (by simp [hmain]))).mono (by simp [hmain]) (by simp)
  | added job index hmain =>
    refine attended_set h ?_ (by simp [hmain]) (by simp [hmain])
    exact (h index).unlock.mono (by simp) (by simp [hmain])
  | popped i job completionQueue hmain =>
    have hi := h (s.index i)
    refine attended_set h ⟨hi.worker, ?_, fun hpc => .inr ?_, hi.stays⟩ (by simp [hmain])
      (by simp [hmain])
    · simpa [hmain] using hi.main
    · exact (hi.waits hpc).resolve_left (by simp [hmain])
  | setLocked state i hmain hfree =>
    refine attended_set h ?_ (by simp [hmain]) (by simp [hmain])
    exact attended_lock hfree (hstates.threads i).worker _ rfl rfl
  | setSignalled state i hmain =>
    refine attended_set h ?_ (by simp [hmain]) (by simp [hmain])
    exact ((h i).signal (hout (by simp [hmain]))).mono (by simp [hmain]) (by simp)
  | setUnlocked state i hmain =>
    refine attended_set h ?_ (by simp [hmain]) (by simp [hmain])
    exact (h i).unlock.mono (by simp) (by simp [hmain])
  | endLocked state i hmain hfree =>
    refine attended_set h ?_ (by simp [hmain]) (by simp [hmain])
    exact attended_lock hfree (hstates.threads i).worker _ rfl rfl
  | needed state i hmain =>
    refine attended_set h ?_ (by simp [hmain]) (by simp [hmain])
    exact (h i).unlock.mono (by simp) (by simp)
  | unneeded state i hmain hover =>
    -- a thread that is over has left
    have hleft : (s.threads i).pc = .left := (hstates.threads i).left hover (by simp [hmain])
    refine attended_set h ⟨by simp [Thread.unlock], by simp [Thread.unlock], ?_, ?_⟩
      (by simp [hmain]) (by simp [hmain])
    · simp [Thread.unlock, hleft]
    · simp [Thread.unlock, hleft]
  | endSignalled state i hmain =>
    refine attended_set h ?_ (by simp [hmain]) (by simp [hmain])
    have hin := hstates.within
    have hset := (hstates.threads i).set state
    simp only [hmain, Main.In, Main.HasSet] at hin hset
    refine ((h i).signal fun hpc => (h i).stays hpc ?_).mono (by simp [hmain]) (by simp)
    rw [hset ⟨hin.1, le_refl _⟩]
    exact hin.2

theorem Step.attended (hs : Step s l s') (hstates : States last s.threads s.main)
    (h : s.Attended) : s'.Attended := by
  cases hs with
  | work index now t hw =>
    exact attended_set h (hw.attended (hstates.threads index).worker (h index))
      (fun _ _ => id) fun _ _ => id
  | finish index ret hpc =>
    have hi := h index
    refine attended_set h ⟨fun hm => ?_, hi.main, by simp, by simp⟩ (fun _ _ => id) fun _ _ => id
    simpa [hpc, Pc.inside] using hi.worker hm
  | spurious index hpc =>
    have hi := h index
    refine attended_set h ⟨fun hm => ?_, hi.main, by simp, by simp⟩ (fun _ _ => id) fun _ _ => id
    simpa [hpc, Pc.inside] using hi.worker hm
  | call call res hmain =>
    exact fun k => (h k).mono (by simp [hmain]) (by simp [hmain])
  | main _ hc => exact hc.attended hstates h

theorem attended_run {tr : Trace threadsTotal jobsPerThread}
    (hr : (machine threadsTotal jobsPerThread).Run tr s) : s.Attended := by
  induction hr with
  | start hi =>
    obtain ⟨-, garbage, rfl⟩ := hi
    intro k
    constructor <;> simp [start]
  | next hr hs ih => exact (step_cases hs).attended (states_run hr) ih

end Pool

def Pc.rank : Pc → Nat
  | .run => 6
  | .inJob => 5
  | .wake => 5
  | .unlockAwake => 4
  | .enqueue => 4
  | .lock => 3
  | .evaluate => 2
  | .condWait => 1
  | .unlock => 1
  | .unlockLeave => 1
  | .dequeue => 0
  | .waiting => 0
  | .left => 0

def Thread.rank (t : Thread jobsPerThread) : Nat := 7 * t.submissionQueue.list.length + t.pc.rank

def Main.rank : Main threadsTotal → Nat
  | .returned _ => 0
  | .jobsAddScan _ i => threadsTotal + 1 - i + 5
  | .jobsAddEnqueue _ _ => 4
  | .jobsAddLock _ _ => 3
  | .jobsAddSignal _ _ => 2
  | .jobsAddUnlock _ _ => 1
  | .completionsPopScan i => threadsTotal - i + 1
  | .setLock _ i => 3 * (threadsTotal - i) + 1
  | .setSignal _ i => 3 * (threadsTotal - i)
  | .setUnlock _ i => 3 * (threadsTotal - i) - 1
  | .endLock _ i => 4 * (threadsTotal - i) + 1
  | .endUnlock _ i => 4 * (threadsTotal - i)
  | .endSignal _ i => 4 * (threadsTotal - i) - 1
  | .endJoin _ i => 4 * (threadsTotal - i) - 2

def State.rank (s : State threadsTotal jobsPerThread) : Nat :=
  8 * s.main.rank + tally Thread.rank s.threads

section Ranks

variable {t t' : Thread jobsPerThread} {index : Nat}

theorem Works.rank_lt (hw : Works index t t') (ht : t.Sound) : t'.rank < t.rank := by
  cases hw with
  | dequeued job submissionQueue hpc hlist =>
    simp only [Thread.rank, Pc.rank, hpc, hlist, List.length_cons]
    omega
  | stale hpc hempty => exact absurd hempty (ht (.inr hpc))
  | _ => simp [Thread.rank, Pc.rank, *]

theorem Thread.rank_signal (t : Thread jobsPerThread) : t.signal.rank ≤ t.rank + 5 := by
  rw [Thread.signal]
  split
  next hpc => simp [Thread.rank, Pc.rank, hpc]
  next => omega

variable {s s' : State threadsTotal jobsPerThread} {l : Label threadsTotal}

theorem tally_rank_set {k : Fin threadsTotal} {n : Nat} (h : t.rank ≤ (s.threads k).rank + n) :
    tally Thread.rank (s.set k t).threads ≤ tally Thread.rank s.threads + n := by
  rw [State.set, tally_update_split, tally_split Thread.rank s.threads k]
  omega

theorem tally_rank_lt {k : Fin threadsTotal} (h : t.rank < (s.threads k).rank) :
    tally Thread.rank (s.set k t).threads < tally Thread.rank s.threads := by
  rw [State.set, tally_update_split, tally_split Thread.rank s.threads k]
  omega

variable [NeZero threadsTotal]

theorem Controls.rank_lt (hc : Controls s s') : s'.rank < s.rank := by
  have hmove {next : Main threadsTotal} {t : Thread jobsPerThread} {k : Fin threadsTotal}
      (ht : t.rank ≤ (s.threads k).rank + 7) (hnext : next.rank < s.main.rank) :
      8 * next.rank + tally Thread.rank (s.set k t).threads < s.rank := by
    have htally := tally_rank_set ht
    rw [State.rank]
    omega
  have hstay {next : Main threadsTotal} (hnext : next.rank < s.main.rank) :
      8 * next.rank + tally Thread.rank s.threads < s.rank := by
    rw [State.rank]
    omega
  cases hc with
  | scanFull job i hmain hi => exact hstay (by simp only [hmain, Main.rank]; omega)
  | scanRoom job i hmain => exact hstay (by simp only [hmain, Main.rank]; omega)
  | scanEnd job i hmain => exact hstay (by simp only [hmain, Main.rank]; omega)
  | enqueueFull job index hmain => exact hstay (by simp only [hmain, Main.rank]; omega)
  | popNone i hmain hi => exact hstay (by simp only [hmain, Main.rank]; omega)
  | popEnd i hmain => exact hstay (by simp only [hmain, Main.rank]; omega)
  | setEnd state i hmain => exact hstay (by simp only [hmain, Main.rank]; omega)
  | endEnd state i hmain => exact hstay (by simp only [hmain, Main.rank]; omega)
  | endJoined state i hmain =>
    have hi := i.isLt
    exact hstay (by simp only [hmain, Main.rank]; omega)
  | enqueued job index submissionQueue hmain hlist =>
    refine hmove ?_ (by simp only [hmain, Main.rank]; omega)
    simp only [Thread.rank, hlist, List.length_append, List.length_singleton]
    omega
  | addLocked job index hmain =>
    exact hmove (Nat.le_add_right _ 7) (by simp only [hmain, Main.rank]; omega)
  | addSignalled job index hmain =>
    have hsignal := (s.threads index).rank_signal
    exact hmove (by omega) (by simp only [hmain, Main.rank]; omega)
  | added job index hmain =>
    exact hmove (Nat.le_add_right _ 7) (by simp only [hmain, Main.rank]; omega)
  | popped i job completionQueue hmain =>
    exact hmove (Nat.le_add_right _ 7) (by simp only [hmain, Main.rank]; omega)
  | setLocked state i hmain =>
    exact hmove (Nat.le_add_right _ 7) (by simp only [hmain, Main.rank]; omega)
  | setSignalled state i hmain =>
    have hi := i.isLt
    have hsignal := (s.threads i).rank_signal
    exact hmove (by omega) (by simp only [hmain, Main.rank]; omega)
  | setUnlocked state i hmain =>
    have hi := i.isLt
    exact hmove (Nat.le_add_right _ 7) (by simp only [hmain, Main.rank]; omega)
  | endLocked state i hmain =>
    exact hmove (Nat.le_add_right _ 7) (by simp only [hmain, Main.rank]; omega)
  | needed state i hmain =>
    have hi := i.isLt
    exact hmove (Nat.le_add_right _ 7) (by simp only [hmain, Main.rank]; omega)
  | unneeded state i hmain =>
    have hi := i.isLt
    exact hmove (Nat.le_add_right _ 7) (by simp only [hmain, Main.rank]; omega)
  | endSignalled state i hmain =>
    have hi := i.isLt
    have hsignal := (s.threads i).rank_signal
    exact hmove (by omega) (by simp only [hmain, Main.rank]; omega)

theorem Step.rank_lt (hs : Step s l s') (hown : l.Own) (hi : Inv s) : s'.rank < s.rank := by
  cases hs with
  | work index now t hw =>
    exact Nat.add_lt_add_left (tally_rank_lt (hw.rank_lt (hi.sound index))) _
  | finish index ret hpc =>
    refine Nat.add_lt_add_left (tally_rank_lt ?_) _
    simp [Thread.rank, Pc.rank, hpc]
  | spurious => exact hown.elim
  | call => exact hown.elim
  | main _ hc => exact hc.rank_lt

theorem uses_rank :
    (machine threadsTotal jobsPerThread).Uses Inv (fun _ l => l.Own) State.rank := by
  intro s l s' hi hown hs
  exact ⟨hi.step (step_cases hs), (step_cases hs).rank_lt hown hi⟩

end Ranks

section Rest

variable {t : Thread jobsPerThread} {s : State threadsTotal jobsPerThread}

theorem lock_none {owner : Owner} (h : t.lock owner = none) : t.conditionMutex ≠ none := by
  intro hfree
  simp [Thread.lock, hfree] at h

/-- A worker is stopped only where it has to be woken, its job to return, or its mutex to be
unlocked. -/
theorem worker_none {index : Nat} {now : UInt64} (h : tpoolrrWorker index now t = none) :
    t.pc = .waiting ∨ t.pc = .inJob ∨ t.pc = .left ∨
      (t.pc.inside = false ∧ t.conditionMutex ≠ none) := by
  cases hpc : t.pc with
  | waiting => exact .inl rfl
  | inJob => exact .inr (.inl rfl)
  | left => exact .inr (.inr (.inl rfl))
  | lock =>
    simp only [tpoolrrWorker, hpc, Option.map_eq_none_iff] at h
    exact .inr (.inr (.inr ⟨rfl, lock_none h⟩))
  | wake =>
    simp only [tpoolrrWorker, hpc, Option.map_eq_none_iff] at h
    exact .inr (.inr (.inr ⟨rfl, lock_none h⟩))
  | run =>
    simp only [tpoolrrWorker, hpc] at h
    split at h <;> cases h
  | enqueue =>
    simp only [tpoolrrWorker, hpc] at h
    split at h <;> cases h
  | _ => simp [tpoolrrWorker, hpc] at h

variable [NeZero threadsTotal] {last : Option TpoolrrThreadState}

theorem mainStep_none (h : mainStep s = none) :
    (∃ res, s.main = .returned res) ∨
      (s.main.holds = none ∧ ∃ k, (s.threads k).conditionMutex ≠ none) ∨
      ∃ state k, s.main = .endJoin state k ∧ (s.threads k).pc ≠ .left := by
  cases hmain : s.main with
  | returned res => exact .inl ⟨res, rfl⟩
  | jobsAddLock job index =>
    simp only [mainStep, hmain, Option.map_eq_none_iff] at h
    exact .inr (.inl ⟨rfl, index, lock_none h⟩)
  | setLock state i =>
    simp only [mainStep, hmain] at h
    split at h
    · exact .inr (.inl ⟨rfl, _, lock_none (Option.map_eq_none_iff.mp h)⟩)
    · cases h
  | endLock state i =>
    simp only [mainStep, hmain] at h
    split at h
    · exact .inr (.inl ⟨rfl, _, lock_none (Option.map_eq_none_iff.mp h)⟩)
    · cases h
  | endJoin state i =>
    simp only [mainStep, hmain] at h
    split at h
    · cases h
    · exact .inr (.inr ⟨state, i, rfl, by assumption⟩)
  | jobsAddEnqueue job index =>
    simp only [mainStep, hmain] at h
    split at h <;> cases h
  | _ => simp [mainStep, hmain] at h

/-- The pool comes to rest only when the main thread is outside calls and every worker has left
or has nothing to do. -/
theorem State.Attended.rests (h : s.Attended) (hstates : States last s.threads s.main)
    (hrest : (machine threadsTotal jobsPerThread).Rests Label.Own s) :
    (∃ res, s.main = .returned res) ∧
      ∀ k, (s.threads k).pc = .left ∨ (s.threads k).pc = .waiting ∧ (s.threads k).Idle := by
  have hmain : mainStep s = none := hrest .main trivial
  have hstopped := mainStep_none hmain
  -- who holds a mutex can take a step
  have houtside : s.main.holds = none := by
    rcases hstopped with ⟨res, hm⟩ | ⟨hm, -⟩ | ⟨state, k, hm, -⟩
    · rw [hm]
      rfl
    · exact hm
    · rw [hm]
      rfl
  have howner (k : Fin threadsTotal) (hin : (s.threads k).pc.inside = false) :
      (s.threads k).conditionMutex = none := by
    cases hmutex : (s.threads k).conditionMutex with
    | none => rfl
    | some owner =>
      cases owner with
      | main =>
        have hholds := (h k).main hmutex
        rw [houtside] at hholds
        cases hholds
      | worker => simp [(h k).worker hmutex] at hin
  have hpc (k : Fin threadsTotal) : (s.threads k).pc = .left ∨ (s.threads k).pc = .waiting := by
    have hwork : tpoolrrWorker k 0 (s.threads k) = none :=
      Option.map_eq_none_iff.mp (hrest (.work k 0) trivial)
    rcases worker_none hwork with hw | hj | hl | ⟨hin, hlocked⟩
    · exact .inr hw
    · have hfinish := hrest (.finish k 0) trivial
      simp [machine, step, hj] at hfinish
    · exact .inl hl
    · exact absurd (howner k hin) hlocked
  have hfree (k : Fin threadsTotal) : (s.threads k).conditionMutex = none := by
    refine howner k ?_
    rcases hpc k with hk | hk <;> rw [hk] <;> rfl
  have hreturned : ∃ res, s.main = .returned res := by
    rcases hstopped with hret | ⟨-, k, hlocked⟩ | ⟨state, k, hm, hstays⟩
    · exact hret
    · exact absurd (hfree k) hlocked
    · have hwaiting := (hpc k).resolve_left hstays
      have hidle := ((h k).waits (.inr hwaiting)).resolve_left (by simp [hm])
      have hin := hstates.within
      have hset := (hstates.threads k).set state
      simp only [hm, Main.In, Main.HasSet] at hin hset
      have hdesired := hset ⟨hin.1, le_refl _⟩
      rcases hidle with hpaused | ⟨hactive, -⟩
      · exact absurd (.inr (hdesired.symm.trans hpaused)) hin.2
      · exact absurd (.inl (hdesired.symm.trans hactive)) hin.2
  obtain ⟨res, hm⟩ := hreturned
  refine ⟨⟨res, hm⟩, fun k => (hpc k).imp_right fun hwaiting => ⟨hwaiting, ?_⟩⟩
  exact ((h k).waits (.inr hwaiting)).resolve_left (by simp [hm])

end Rest

section Runs

variable [NeZero threadsTotal] {s s' : State threadsTotal jobsPerThread}
  {tr later : Trace threadsTotal jobsPerThread}

/-- No wake-up is lost: a worker that is blocked has nothing to do, or the main thread is in a
call that is about to signal it. -/
theorem waiting_idle (hr : (machine threadsTotal jobsPerThread).Run tr s) (k : Fin threadsTotal)
    (hwaiting : (s.threads k).pc = .waiting) :
    s.main.signals = some k ∨ (s.threads k).desiredState = .PAUSED ∨
      (s.threads k).desiredState = .ACTIVE ∧ (s.threads k).submissionQueue.list = [] :=
  (attended_run hr k).waits (.inr hwaiting)

theorem waiting_idle_fresh : ∃ (tr : Trace 1 1) (s : State 1 1), (machine 1 1).Run tr s ∧
    (s.threads 0).pc = .waiting ∧ (s.main.signals = some 0 ∨ (s.threads 0).desiredState = .PAUSED ∨
      (s.threads 0).desiredState = .ACTIVE ∧ (s.threads 0).submissionQueue.list = []) := by
  obtain ⟨tr, s, hr, hwaiting⟩ := (machine 1 1).exists_run_of_exec (start fun _ => zeroJob)
    [.work 0 0, .work 0 0, .work 0 0] (fun s => (s.threads 0).pc = .waiting) ⟨by decide, _, rfl⟩
    (by decide)
  rw [decide_eq_true_eq] at hwaiting
  exact ⟨tr, s, hr, hwaiting, waiting_idle hr 0 hwaiting⟩

/-- Every call returns: when no worker wakes up by itself any more, the pool takes only so many
steps until the next call, whatever the order of the steps, and it stops only when the main
thread has returned and every worker has left, or waits and has nothing to do. -/
theorem calls_return (hr : (machine threadsTotal jobsPerThread).Run tr s)
    (hl : ((machine threadsTotal jobsPerThread).after s).Run later s')
    (hown : ∀ p ∈ later, p.2.Own) :
    later.length ≤ s.rank ∧
      ((machine threadsTotal jobsPerThread).Rests Label.Own s' → (∃ res, s'.main = .returned res) ∧
        ∀ k, (s'.threads k).pc = .left ∨ (s'.threads k).pc = .waiting ∧
          ((s'.threads k).desiredState = .PAUSED ∨ (s'.threads k).desiredState = .ACTIVE ∧
            (s'.threads k).submissionQueue.list = [])) := by
  have hlength := (uses_rank.length_le (inv_run hr) hl hown).2
  exact ⟨by omega, (attended_run (hr.append hl)).rests (states_run (hr.append hl))⟩

theorem calls_return_join : ∃ (tr later : Trace 1 1) (s s' : State 1 1),
    (machine 1 1).Run tr s ∧ calls tr = [.join] ∧ ((machine 1 1).after s).Run later s' ∧
      s'.main = .returned .ok ∧ later.length = 8 ∧ later.length ≤ s.rank := by
  obtain ⟨tr, s', hr, htr⟩ := (machine 1 1).exists_run_of_record (start fun _ => zeroJob)
    [.call .join, .main, .main, .main, .work 0 0, .work 0 0, .work 0 0, .main, .main]
    (fun tr s' => s'.main = .returned .ok ∧ calls (tr.drop 8) = [.join] ∧
      (tr.take 8).length = 8 ∧ ∀ p ∈ tr.take 8, p.2.Own) ⟨by decide, _, rfl⟩ (by decide)
  simp only [decide_eq_true_eq] at htr
  obtain ⟨hmain, hcalls, hlength, hown⟩ := htr
  rw [← List.take_append_drop 8 tr] at hr
  obtain ⟨s, hr, hl⟩ := hr.split
  exact ⟨tr.drop 8, tr.take 8, s, s', hr, hcalls, hl, hmain, hlength, (calls_return hr hl hown).1⟩

end Runs

end Dert.Tpoolrr
