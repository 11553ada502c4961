import Dert.Pool.TpoolrrStates

namespace Dert.Tpoolrr

open Library

variable {threadsTotal jobsPerThread : Nat}

/-- A worker takes the jobs of its own queue in the order of their adds, each once, and never
from an empty queue; and when a join has returned, every job was taken and processed. -/
structure Served (tr : Trace threadsTotal jobsPerThread) (s : State threadsTotal jobsPerThread) :
    Prop where
  order : ∀ k, putOn k s.placed = history (dequeues k) tr ++ (s.threads k).submissionQueue.list
  found : ∀ p ∈ tr, ∀ k now, p.2 = .work k now → (p.1.threads k).pc = .dequeue →
    (p.1.threads k).submissionQueue.list ≠ []
  joined : Returned .join tr s → ∀ k, history (dequeues k) tr = putOn k s.accepted ∧
    submitted (history (processes k) tr) = submitted (putOn k s.accepted)

structure Thread.Drains (joined : Prop) (t : Thread jobsPerThread) : Prop where
  leaves : t.Leaves → joined ∧ t.submissionQueue.list = []
  desired : Over t.desiredState → joined ∧ t.desiredState = .JOINED

section Threads

variable {joined : Prop} {t t' : Thread jobsPerThread} {index : Nat}

theorem Works.drains (hw : Works index t t') (h : t.Drains joined) : t'.Drains joined := by
  refine ⟨?_, by rw [hw.desiredState]; exact h.desired⟩
  cases hw with
  | joined _ hdesired hempty =>
    exact fun _ => ⟨(h.desired (by simp [Over, hdesired])).1, hempty⟩
  | ended why _ hdesired hwhy =>
    have hover : Over t.desiredState := by rcases hwhy with rfl | rfl <;> simp [Over, hdesired]
    have hjoined := (h.desired hover).2
    rcases hwhy with rfl | rfl <;> simp [hjoined] at hdesired
  | leaving hpc => exact fun _ => h.leaves (.inl hpc)
  | _ => simp [Thread.Leaves, *]

theorem Thread.Like.leaves (h : t.Like t') : t'.Leaves ↔ t.Leaves := by
  rcases h.pc with hpc | ⟨hpc, hpc'⟩
  · rw [Leaves, hpc, Leaves]
  · simp [Leaves, hpc, hpc']

end Threads

section Calls

variable {calls : List Call} {state : TpoolrrThreadState}

theorem lastSets_over (hstop : Call.stopSafe ∉ calls) (hlast : lastSets calls = some state)
    (ho : Over state) : Call.join ∈ calls ∧ state = .JOINED := by
  cases calls with
  | nil => cases hlast
  | cons call calls =>
    cases call <;> simp_all [lastSets, Call.sets]
    all_goals simp [Over, ← hlast] at ho

theorem not_join_of_lastSets (hjoin : Call.join ∉ calls.tail) (hlast : lastSets calls = none) :
    Call.join ∉ calls := by
  cases calls with
  | nil => simp
  | cons call calls =>
    intro hmem
    rcases List.mem_cons.mp hmem with rfl | hmem
    · cases hlast
    · exact hjoin hmem

theorem mem_tail_of_mem_tail {call : Call} (l : Label threadsTotal) (hmem : call ∈ calls.tail) :
    call ∈ (made l ++ calls).tail := by
  cases l with
  | call => exact List.mem_of_mem_tail hmem
  | _ => exact hmem

end Calls

section Runs

variable [NeZero threadsTotal] {s s' : State threadsTotal jobsPerThread}
  {l : Label threadsTotal} {tr : Trace threadsTotal jobsPerThread}

theorem Controls.drains {last : Option TpoolrrThreadState} {joined : Prop} (hc : Controls s s')
    (hin : s.main.In last) (hover : ∀ state, last = some state → Over state →
      joined ∧ state = .JOINED) (hadd : last = none → ¬ joined) (k : Fin threadsTotal)
    (h : (s.threads k).Drains joined) : (s'.threads k).Drains joined := by
  constructor
  · cases hc.moves with
    | quiet _ hq =>
      have hk := hq.threads k
      rw [hk.leaves, hk.submissionQueue]
      exact h.leaves
    | enqueued job index submissionQueue hmain =>
      -- nothing is added after the join, so a worker that leaves is not given a job
      have hnone : last = none := by simpa [hmain] using hin
      have hleaves : ¬ (s.threads k).Leaves := fun hl => hadd hnone (h.leaves hl).1
      intro hl
      refine absurd ?_ hleaves
      rwa [Thread.Leaves, set_congr Thread.pc (by rfl) k] at hl
    | popped index =>
      rw [Thread.Leaves, set_congr Thread.pc (by rfl) k, set_congr Thread.submissionQueue (by rfl) k]
      exact h.leaves
  · intro ho
    rcases hc.desiredState hin k with hsame | hset
    · rw [hsame] at ho ⊢
      exact h.desired ho
    · exact hover _ hset ho

theorem Step.drains {calls : List Call} (hs : Step s l s')
    (hstates : States (lastSets calls) s.threads s.main) (hstop : Call.stopSafe ∉ calls)
    (hjoin : Call.join ∉ calls.tail) (k : Fin threadsTotal)
    (h : (s.threads k).Drains (Call.join ∈ calls)) :
    (s'.threads k).Drains (Call.join ∈ made l ++ calls) := by
  cases hs with
  | work index now t hw => exact set_keeps (P := (·.Drains (Call.join ∈ calls))) hw.drains h
  | finish index ret hpc =>
    apply set_keeps (P := (·.Drains (Call.join ∈ calls))) _ h
    exact fun hi => ⟨by simp [Thread.Leaves], hi.desired⟩
  | spurious index hpc =>
    apply set_keeps (P := (·.Drains (Call.join ∈ calls))) _ h
    exact fun hi => ⟨by simp [Thread.Leaves], hi.desired⟩
  | call call =>
    exact ⟨fun hl => ⟨List.mem_cons_of_mem _ (h.leaves hl).1, (h.leaves hl).2⟩,
      fun ho => ⟨List.mem_cons_of_mem _ (h.desired ho).1, (h.desired ho).2⟩⟩
  | main _ hc =>
    exact hc.drains hstates.within (fun state hlast ho => lastSets_over hstop hlast ho)
      (not_join_of_lastSets hjoin) k h

theorem drains_run (hr : (machine threadsTotal jobsPerThread).Run tr s)
    (hstop : Call.stopSafe ∉ calls tr) (hjoin : Call.join ∉ (calls tr).tail)
    (k : Fin threadsTotal) : (s.threads k).Drains (Call.join ∈ calls tr) := by
  induction hr with
  | start hi =>
    obtain ⟨-, garbage, rfl⟩ := hi
    constructor <;> simp [start, Thread.Leaves, Over]
  | @next tr s l s' hr hs ih =>
    have hstop' : Call.stopSafe ∉ calls tr := fun hmem => hstop (List.mem_append_right _ hmem)
    have hjoin' : Call.join ∉ (calls tr).tail := fun hmem => hjoin (mem_tail_of_mem_tail l hmem)
    exact (step_cases hs).drains (states_run hr) hstop' hjoin' k (ih hstop' hjoin')

theorem jobs_run (hr : (machine threadsTotal jobsPerThread).Run tr s)
    (hstop : Call.stopSafe ∉ calls tr) (hjoin : Call.join ∉ (calls tr).tail) : Served tr s := by
  refine ⟨placed_run hr, ?_, fun hret k => ?_⟩
  · rintro ⟨x, l⟩ hp k now - hpc
    have hx : Inv x := hr.visited (G := fun _ _ => True) ?_ ?_ (fun _ _ => trivial)
      (.inr (List.mem_map_of_mem hp))
    · exact hx.sound k (.inr hpc)
    · rintro s ⟨-, garbage, rfl⟩
      exact inv_start garbage
    · exact fun s l s' h _ hs => h.step (step_cases hs)
  · have hleft := left_of_returned hr hret rfl (by simp [Over]) k
    have hempty := ((drains_run hr hstop hjoin k).leaves (.inr hleft)).2
    have hplaced := placed_run hr k
    have hdone := processed_run hr k
    rw [hempty, List.append_nil, State.placed, hret.2] at hplaced
    have hall : history (dequeues k) tr = putOn k s.accepted := by
      rw [← hplaced]
      simp [Main.placing]
    simp only [Thread.running, hleft, reduceCtorEq, or_self, if_false] at hdone
    exact ⟨hall, by rw [← hall, hdone]; simp [submitted]⟩

end Runs

end Dert.Tpoolrr
