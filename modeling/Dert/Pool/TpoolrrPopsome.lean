import Dert.Pool.TpoolrrHistory

namespace Dert.Tpoolrr

open Library

variable {threadsTotal jobsPerThread : Nat}

def Thread.dequeueCompletion (t : Thread jobsPerThread) :
    Thread jobsPerThread × Ret × Option TpoolrrJob :=
  match t.completionQueue.pop with
  | some (job, completionQueue) => ({ t with completionQueue }, .ok, some job)
  | none => (t, .ENODATA, none)

/-- The loop of `tpoolrr_completions_popsome`, with `left` for `at_most` less the index; `none`
when it reads behind the queues. -/
def tpoolrrCompletionsPopsomeLoop (index : Nat) :
    Nat → State threadsTotal jobsPerThread →
      Option (State threadsTotal jobsPerThread × List TpoolrrJob × Ret)
  | 0, s => some (s, [], .ok)
  | left + 1, s =>
    if h : index < threadsTotal then
      match (s.threads ⟨index, h⟩).dequeueCompletion with
      | (t, .ok, some job) =>
        (tpoolrrCompletionsPopsomeLoop (index + 1) left (s.set ⟨index, h⟩ t)).map
          fun (s, dest, res) => (s, job :: dest, res)
      | (_, .EBUSY, _) => tpoolrrCompletionsPopsomeLoop (index + 1) left s
      | (_, res, _) => some (s, [], res)
    else none

/-- `tpoolrr_completions_popsome`: the pool, `dest`, `*num_popped` and what is returned. -/
def tpoolrrCompletionsPopsome (s : State threadsTotal jobsPerThread) (atMost : Nat) :
    Option (State threadsTotal jobsPerThread × List TpoolrrJob × Nat × Ret) :=
  if atMost = 0 then some (s, [], 0, .EINVAL)
  else
    (tpoolrrCompletionsPopsomeLoop 0 atMost s).map fun (s, dest, res) => (s, dest, dest.length, res)

def State.completion (s : State threadsTotal jobsPerThread) (k : Fin threadsTotal) :
    List TpoolrrJob := (s.threads k).completionQueue.list

def State.completions (s : State threadsTotal jobsPerThread) : Nat := ∑ k, (s.completion k).length

/-- As many jobs are popped as there are, up to `at_most`, each from the front of its queue. -/
def PopsomeLaw (s : State threadsTotal jobsPerThread) (atMost : Nat) : Prop :=
  ∃ s' res, ∃ taken : List (Fin threadsTotal × TpoolrrJob),
    tpoolrrCompletionsPopsome s atMost = some (s', taken.map Prod.snd, taken.length, res) ∧
    taken.length = min atMost s.completions ∧
    (∀ k, s.completion k = putOn k taken ++ s'.completion k) ∧
    res = if taken.length = atMost then .ok else .EBUSY

variable {s s' : State threadsTotal jobsPerThread} {index left atMost : Nat}
  {taken : List (Fin threadsTotal × TpoolrrJob)}

theorem dequeueCompletion_eq {t : Thread jobsPerThread} (h : t.completionQueue.list ≠ []) :
    ∃ job completionQueue, t.dequeueCompletion = ({ t with completionQueue }, .ok, some job) ∧
      t.completionQueue.list = job :: completionQueue.list := by
  obtain ⟨⟨job, completionQueue⟩, hpop⟩ := Option.ne_none_iff_exists'.mp (mt Fifo.pop_eq_none.mp h)
  refine ⟨job, completionQueue, ?_, Fifo.pop_eq_some hpop⟩
  rw [Thread.dequeueCompletion, hpop]

theorem dequeueCompletion_empty {t : Thread jobsPerThread} (h : t.completionQueue.list = []) :
    t.dequeueCompletion = (t, .ENODATA, none) := by
  rw [Thread.dequeueCompletion, Fifo.pop_eq_none.mpr h]

theorem popsomeLoop_eq (hleft : index + left ≤ threadsTotal)
    (hjobs : ∀ k : Fin threadsTotal, index ≤ k.val → k.val < index + left → s.completion k ≠ []) :
    ∃ s', ∃ taken : List (Fin threadsTotal × TpoolrrJob),
      tpoolrrCompletionsPopsomeLoop index left s = some (s', taken.map Prod.snd, .ok) ∧
      taken.length = left ∧ ∀ k, s.completion k = putOn k taken ++ s'.completion k := by
  induction left generalizing index s with
  | zero => exact ⟨s, [], rfl, rfl, fun k => rfl⟩
  | succ left ih =>
    have hindex : index < threadsTotal := by omega
    obtain ⟨job, completionQueue, hdequeue, hlist⟩ :=
      dequeueCompletion_eq (hjobs ⟨index, hindex⟩ (Nat.le_refl _) (by simp only; omega))
    obtain ⟨s', taken, hloop, hlen, hqueues⟩ := ih
      (s := s.set ⟨index, hindex⟩ { s.threads ⟨index, hindex⟩ with completionQueue })
      (by omega : index + 1 + left ≤ threadsTotal)
      fun k hlow hhigh => by
        have hk : k ≠ ⟨index, hindex⟩ := fun hk => by
          rw [hk] at hlow
          exact Nat.not_succ_le_self _ hlow
        rw [State.completion, set_threads_of_ne hk]
        exact hjobs k (by omega) (by omega)
    refine ⟨s', (⟨index, hindex⟩, job) :: taken, ?_, by rw [List.length_cons, hlen], fun k => ?_⟩
    · rw [tpoolrrCompletionsPopsomeLoop, dif_pos hindex, hdequeue]
      simp only [hloop, Option.map_some, List.map_cons]
    · have hk := hqueues k
      rw [← List.singleton_append, putOn_append, List.append_assoc, ← hk, State.completion,
        State.completion]
      by_cases hsame : k = ⟨index, hindex⟩
      · subst hsame
        rw [putOn_self, set_threads_self, hlist]
        rfl
      · rw [putOn_of_ne hsame, set_threads_of_ne hsame, List.nil_append]

theorem popsomeLoop_cases {dest : List TpoolrrJob} {res : Ret} (hindex : index ≤ threadsTotal)
    (hloop : tpoolrrCompletionsPopsomeLoop index left s = some (s', dest, res)) :
    res = .ENODATA ∨ index + left ≤ threadsTotal ∧
      ∀ k : Fin threadsTotal, index ≤ k.val → k.val < index + left → s.completion k ≠ [] := by
  induction left generalizing index s dest with
  | zero => exact .inr ⟨hindex, fun k hlow hhigh => by omega⟩
  | succ left ih =>
    rw [tpoolrrCompletionsPopsomeLoop] at hloop
    split_ifs at hloop with hlt
    by_cases hempty : (s.threads ⟨index, hlt⟩).completionQueue.list = []
    · rw [dequeueCompletion_empty hempty] at hloop
      cases hloop
      exact .inl rfl
    · obtain ⟨job, completionQueue, hdequeue, -⟩ := dequeueCompletion_eq hempty
      rw [hdequeue] at hloop
      obtain ⟨⟨s₁, dest₁, res₁⟩, hrest, heq⟩ := Option.map_eq_some_iff.mp hloop
      cases heq
      rcases ih hlt hrest with hres | ⟨hfits, hjobs⟩
      · exact .inl hres
      · refine .inr ⟨by omega, fun k hlow hhigh => ?_⟩
        by_cases hk : k = ⟨index, hlt⟩
        · rw [hk]
          exact hempty
        · have hjob := hjobs k (by have := Fin.val_ne_of_ne hk; simp only at this; omega) (by omega)
          rwa [State.completion, set_threads_of_ne hk] at hjob

theorem sum_putOn (taken : List (Fin threadsTotal × TpoolrrJob)) :
    ∑ k, (putOn k taken).length = taken.length := by
  induction taken with
  | nil => simp [putOn]
  | cons p taken ih =>
    have hone : ∀ k, (putOn k [p]).length = if p.1 = k then 1 else 0 := fun k => by
      by_cases hk : p.1 = k <;> simp [putOn, hk]
    have hsplit : ∀ k, (putOn k (p :: taken)).length =
        (if p.1 = k then 1 else 0) + (putOn k taken).length := fun k => by
      rw [← List.singleton_append, putOn_append, List.length_append, hone]
    rw [Finset.sum_congr rfl fun k _ => hsplit k, Finset.sum_add_distrib, ih, List.length_cons]
    simp [Nat.add_comm]

theorem length_le_completions (h : ∀ k, s.completion k = putOn k taken ++ s'.completion k) :
    taken.length ≤ s.completions := by
  rw [← sum_putOn, State.completions]
  refine Finset.sum_le_sum fun k _ => ?_
  rw [h k, List.length_append]
  exact Nat.le_add_right _ _

/-- The call takes one job from each of the first `at_most` queues, and is right exactly when there
are so many queues and none of them is empty. -/
theorem popsomeLaw_iff (hpos : 0 < atMost) :
    PopsomeLaw s atMost ↔ atMost ≤ threadsTotal ∧
      ∀ k : Fin threadsTotal, k.val < atMost → s.completion k ≠ [] := by
  constructor
  · rintro ⟨s', res, taken, hpopsome, -, -, hres⟩
    rw [tpoolrrCompletionsPopsome, if_neg (Nat.ne_of_gt hpos)] at hpopsome
    obtain ⟨⟨s₁, dest, res₁⟩, hloop, heq⟩ := Option.map_eq_some_iff.mp hpopsome
    simp only [Prod.mk.injEq] at heq
    obtain ⟨-, -, -, rfl⟩ := heq
    rcases popsomeLoop_cases (Nat.zero_le _) hloop with rfl | ⟨hfits, hjobs⟩
    · split_ifs at hres
    · rw [Nat.zero_add] at hfits hjobs
      exact ⟨hfits, fun k => hjobs k (Nat.zero_le _)⟩
  · rintro ⟨hfits, hjobs⟩
    obtain ⟨s', taken, hloop, hlen, hqueues⟩ := popsomeLoop_eq (s := s)
      (by omega : 0 + atMost ≤ threadsTotal) fun k _ hk => hjobs k (by omega)
    have hle := length_le_completions hqueues
    refine ⟨s', .ok, taken, ?_, by omega, hqueues, by rw [if_pos hlen]⟩
    rw [tpoolrrCompletionsPopsome, if_neg (Nat.ne_of_gt hpos), hloop]
    simp

def completed (done : Fin 2 → Bool) : State 2 1 :=
  let fresh : State 2 1 := start fun _ => zeroJob
  { fresh with
    threads := fun k => { fresh.threads k with
      completionQueue := if done k then ⟨[zeroJob], Nat.le_refl 1⟩ else .empty } }

theorem popsomeLaw_iff_two : PopsomeLaw (completed fun _ => true) 2 :=
  (popsomeLaw_iff (by decide)).mpr ⟨by decide, by decide⟩

/-- The first queue is empty, and the job of the second is not found. -/
theorem not_popsomeLaw_second :
    ¬ ∀ (s : State 2 1) (atMost : Nat), 0 < atMost → PopsomeLaw s atMost := by
  intro h
  obtain ⟨s', res, taken, hpopsome, -, -, hres⟩ := h (completed fun k => k = 1) 1 (by decide)
  have hfails : (tpoolrrCompletionsPopsome (completed fun k => k = 1) 1).map (fun r => r.2.2.2) =
      some .ENODATA := by decide
  rw [hpopsome, Option.map_some, Option.some.injEq] at hfails
  rw [show res = .ENODATA from hfails] at hres
  split_ifs at hres

end Dert.Tpoolrr
