import Dert.Sync.Fmutex

universe u

namespace Dert.Fmutex

open Library

variable {Thread : Type u} [DecidableEq Thread]

inductive Inv (s : State Thread) : Prop
  | free : s.locked = 0 → (∀ t, s.pc t ≠ .critical) → Inv s
  | held (t : Thread) : s.locked = 1 → s.pc t = .critical →
      (∀ u, s.pc u = .critical → u = t) → Inv s

omit [DecidableEq Thread] in
theorem Inv.exclusive {s : State Thread} (h : Inv s) : MutualExclusion s := by
  intro t u ht hu
  cases h with
  | free _ hnone => exact absurd ht (hnone t)
  | held w _ _ honly => rw [honly t ht, honly u hu]

omit [DecidableEq Thread] in
theorem inv_init : Inv (init : State Thread) :=
  .free rfl (by simp [init])

theorem Inv.move {s : State Thread} (h : Inv s) {t : Thread} {p : PC}
    (hold : s.pc t ≠ .critical) (hnew : p ≠ .critical) : Inv (s.setPC t p) := by
  have hsame : ∀ u, (s.setPC t p).pc u = .critical ↔ s.pc u = .critical := by
    intro u
    by_cases hu : u = t
    · subst hu
      simp [hold, hnew]
    · rw [s.setPC_other hu]
  cases h with
  | free hl hnone => exact .free hl fun u hu => hnone u ((hsame u).mp hu)
  | held w hl hw honly =>
    exact .held w hl ((hsame w).mpr hw) fun u hu => honly u ((hsame u).mp hu)

omit [DecidableEq Thread] in
theorem Inv.waiters {s : State Thread} (h : Inv s) (ws : List Thread) :
    Inv { s with waiters := ws } := by
  cases h with
  | free hl hnone => exact .free hl hnone
  | held w hl hw honly => exact .held w hl hw honly

theorem inv_lockCas {s : State Thread} {t : Thread} {expected : UInt32} (h : Inv s)
    (hpc : s.pc t = .cas expected) (hfresh : ¬ (expected = 1 ∧ s.locked = 1)) :
    Inv (lockCas s t expected) := by
  have hold : s.pc t ≠ .critical := by simp [hpc]
  by_cases heq : s.locked = expected
  · cases h with
    | free hl hnone =>
      refine .held t ?_ ?_ ?_
      · simp [lockCas, compareExchange, heq]
      · simp [lockCas, compareExchange, heq]
      · intro u hu
        by_contra hne
        simp only [lockCas, compareExchange, heq, ite_true, State.setPC_other _ hne] at hu
        exact hnone u hu
    | held w hl => exact absurd ⟨heq ▸ hl, hl⟩ hfresh
  · simp only [lockCas, compareExchange, heq, ite_false]
    exact h.move hold (by simp)

theorem inv_futexWait {s : State Thread} {t : Thread} {expected : UInt32} (h : Inv s)
    (hpc : s.pc t = .wait expected) : Inv (futexWait s t expected) := by
  have hold : s.pc t ≠ .critical := by simp [hpc]
  unfold futexWait
  split
  · exact (h.waiters _).move hold (by simp)
  · exact h.move hold (by simp)

theorem inv_unlockCas {s s' : State Thread} {t : Thread} (h : Inv s)
    (hpc : s.pc t = .critical) (hs : unlockCas s t = some s') : Inv s' := by
  cases h with
  | free _ hnone => exact absurd hpc (hnone t)
  | held w hl hw honly =>
    obtain rfl := honly t hpc
    simp only [unlockCas, compareExchange, hl, ite_true, Option.some.injEq] at hs
    subst hs
    refine .free rfl fun u hu => ?_
    by_cases hne : u = t
    · subst hne
      simp at hu
    · rw [State.setPC_other _ hne] at hu
      exact hne (honly u hu)

theorem inv_futexWake {s s' : State Thread} {t : Thread} {waiter : Option Thread} (h : Inv s)
    (hpc : s.pc t = .wake) (hs : futexWake s t waiter = some s') : Inv s' := by
  have hold : s.pc t ≠ .critical := by simp [hpc]
  cases waiter with
  | none =>
    simp only [futexWake, Option.ite_none_right_eq_some, Option.some.injEq] at hs
    obtain ⟨-, rfl⟩ := hs
    exact h.move hold (by simp)
  | some w =>
    cases hw : s.pc w with
    | blocked expected =>
      simp only [futexWake, hw, Option.ite_none_right_eq_some, Option.some.injEq] at hs
      obtain ⟨-, rfl⟩ := hs
      have hne : t ≠ w := by
        rintro rfl
        rw [hpc] at hw
        cases hw
      have hwoken : Inv ({ s with waiters := s.waiters.erase w }.setPC w (.cas expected)) :=
        (h.waiters _).move (by simp [hw]) (by simp)
      refine hwoken.move ?_ (by simp)
      rw [State.setPC_other _ hne]
      exact hold
    | _ => simp [futexWake, hw] at hs

theorem inv_step {s s' : State Thread} {l : Label Thread} (h : Inv s)
    (hfresh : ¬ ExpectsLocked s l) (hs : step s l = some s') : Inv s' := by
  cases l with
  | lock t =>
    simp only [step, Option.ite_none_right_eq_some, Option.some.injEq] at hs
    obtain ⟨hpc, rfl⟩ := hs
    exact h.move (by simp [hpc]) (by simp)
  | lockCas t =>
    cases hpc : s.pc t with
    | cas expected =>
      simp only [step, hpc, Option.some.injEq] at hs
      subst hs
      refine inv_lockCas h hpc ?_
      rintro ⟨rfl, hl⟩
      exact hfresh ⟨t, rfl, hpc, hl⟩
    | _ => simp [step, hpc] at hs
  | futexWait t =>
    cases hpc : s.pc t with
    | wait expected =>
      simp only [step, hpc, Option.some.injEq] at hs
      subst hs
      exact inv_futexWait h hpc
    | _ => simp [step, hpc] at hs
  | unlockCas t =>
    simp only [step, Option.ite_none_right_eq_some] at hs
    exact inv_unlockCas h hs.1 hs.2
  | futexWake t waiter =>
    simp only [step, Option.ite_none_right_eq_some] at hs
    exact inv_futexWake h hs.1 hs.2

theorem critical_of_step {s s' : State Thread} {l : Label Thread} {t : Thread}
    (hs : step s l = some s') (hpc : s.pc t = .critical) (hl : l ≠ .unlockCas t) :
    s'.pc t = .critical := by
  have hkept {s' : State Thread} {u : Thread} {p : PC} (hkeep : s'.pc t = .critical)
      (hu : s.pc u ≠ .critical) : (s'.setPC u p).pc t = .critical := by
    rw [State.setPC_other _ (by rintro rfl; exact hu hpc)]
    exact hkeep
  cases l with
  | lock u =>
    simp only [step, Option.ite_none_right_eq_some, Option.some.injEq] at hs
    obtain ⟨hu, rfl⟩ := hs
    exact hkept hpc (by simp [hu])
  | lockCas u =>
    cases hu : s.pc u with
    | cas expected =>
      simp only [step, hu, Option.some.injEq] at hs
      subst hs
      by_cases heq : s.locked = expected
      · simp only [lockCas, compareExchange, heq, ite_true]
        exact hkept hpc (by simp [hu])
      · simp only [lockCas, compareExchange, heq, ite_false]
        exact hkept hpc (by simp [hu])
    | _ => simp [step, hu] at hs
  | futexWait u =>
    cases hu : s.pc u with
    | wait expected =>
      simp only [step, hu, Option.some.injEq] at hs
      subst hs
      rw [futexWait]
      split
      · exact hkept hpc (by simp [hu])
      · exact hkept hpc (by simp [hu])
    | _ => simp [step, hu] at hs
  | unlockCas u =>
    have hne : t ≠ u := fun h => hl (by rw [h])
    simp only [step, Option.ite_none_right_eq_some, unlockCas] at hs
    obtain ⟨-, hs⟩ := hs
    split at hs
    · cases hs
      rwa [State.setPC_other _ hne]
    · split_ifs at hs
      cases hs
      rwa [State.setPC_other _ hne]
  | futexWake u waiter =>
    simp only [step, Option.ite_none_right_eq_some] at hs
    obtain ⟨hu, hs⟩ := hs
    cases waiter with
    | none =>
      simp only [futexWake, Option.ite_none_right_eq_some, Option.some.injEq] at hs
      obtain ⟨-, rfl⟩ := hs
      exact hkept hpc (by simp [hu])
    | some w =>
      cases hw : s.pc w with
      | blocked expected =>
        simp only [futexWake, hw, Option.ite_none_right_eq_some, Option.some.injEq] at hs
        obtain ⟨-, rfl⟩ := hs
        exact hkept (hkept hpc (by simp [hw])) (by simp [hu])
      | _ => simp [futexWake, hw] at hs

/-- The stale `expected` admits a second thread beside the holder. -/
theorem not_exclusive_of_expectsLocked {s s' : State Thread} {l : Label Thread} (h : Inv s)
    (hbad : ExpectsLocked s l) (hs : step s l = some s') : ¬ MutualExclusion s' := by
  obtain ⟨t, rfl, hpc, hl⟩ := hbad
  cases h with
  | free hl' _ =>
    rw [hl] at hl'
    cases hl'
  | held w _ hw _ =>
    have hne : w ≠ t := by
      rintro rfl
      rw [hpc] at hw
      cases hw
    simp only [step, hpc, lockCas, compareExchange, hl, ite_true, Option.some.injEq] at hs
    subst hs
    intro hexcl
    refine hne (hexcl w t ?_ (by simp))
    rw [State.setPC_other _ hne]
    exact hw

/-- Mutual exclusion holds throughout a run exactly when no compare-exchange of
`fmutex_lock` in it expects 1 and finds 1. -/
theorem mutualExclusion_iff {tr : List (State Thread × Label Thread)} {s : State Thread}
    (hr : (machine Thread).Run tr s) :
    (∀ x, Machine.Visits tr s x → MutualExclusion x) ↔
      ∀ p ∈ tr, ¬ ExpectsLocked p.1 p.2 :=
  hr.visited_iff (I := Inv) (fun _ h => h ▸ inv_init) (fun _ _ _ h hg hs => inv_step h hg hs)
    (fun _ h => h.exclusive)
    fun _ _ _ h hg hs => not_exclusive_of_expectsLocked h (not_not.mp hg) hs

def handover : List (Label Nat) :=
  [.lock 0, .lockCas 0, .lock 1, .lockCas 1, .futexWait 1, .unlockCas 0, .futexWake 0 (some 1),
    .lockCas 1, .futexWait 1, .lockCas 1]

theorem mutualExclusion_iff_handover :
    ∃ tr s, (machine Nat).Run tr s ∧ s.pc 1 = .critical ∧
      ((∀ x, Machine.Visits tr s x → MutualExclusion x) ↔
        ∀ p ∈ tr, ¬ ExpectsLocked p.1 p.2) := by
  obtain ⟨tr, s, hr, hs⟩ := (machine Nat).exists_run_of_exec _ handover
    (fun s => s.pc 1 = .critical) rfl (by decide)
  exact ⟨tr, s, hr, by simpa using hs, mutualExclusion_iff hr⟩

def overtaken : List (Label Nat) :=
  [.lock 0, .lockCas 0, .lock 1, .lockCas 1, .futexWait 1, .unlockCas 0, .futexWake 0 (some 1),
    .lock 2, .lockCas 2, .lockCas 1]

theorem not_mutualExclusion_overtaken :
    ¬ ∀ tr s, (machine Nat).Run tr s → MutualExclusion s := by
  obtain ⟨tr, s, hr, hs⟩ := (machine Nat).exists_run_of_exec _ overtaken
    (fun s => s.pc 1 = .critical ∧ s.pc 2 = .critical) rfl (by decide)
  simp only [decide_eq_true_eq] at hs
  intro h
  exact absurd (h tr s hr 1 2 hs.1 hs.2) (by decide)

end Dert.Fmutex
