import Dert.Library.Settling
import Dert.Library.Tally
import Dert.Sync.FmutexLaws

universe u

namespace Dert.Fmutex

open Library

variable {Thread : Type u}

/-- The threads go on in the calls they are in, and nobody calls `fmutex_lock` anew. -/
def Label.Own : Label Thread → Prop
  | .lock _ => False
  | _ => True

instance : (l : Label Thread) → Decidable l.Own
  | .lock _ => .isFalse id
  | .lockCas _ => .isTrue trivial
  | .futexWait _ => .isTrue trivial
  | .unlockCas _ => .isTrue trivial
  | .futexWake _ _ => .isTrue trivial

def PC.Moves : PC → Prop
  | .cas _ => True
  | .wait _ => True
  | .wake => True
  | .idle => False
  | .blocked _ => False
  | .critical => False

/-- A lock that is taken was taken by a thread that is critical, the kernel's queue holds the
threads that are blocked, and while one is, the lock is taken or somebody moves. -/
structure Live (s : State Thread) : Prop where
  word : s.locked = 0 ∨ s.locked = 1
  taken : s.locked = 1 → ∃ t, s.pc t = .critical
  nodup : s.waiters.Nodup
  waits : ∀ t, t ∈ s.waiters ↔ ∃ expected, s.pc t = .blocked expected
  token : s.waiters ≠ [] → s.locked = 1 ∨ ∃ t, (s.pc t).Moves

section Steps

variable [DecidableEq Thread] {s s' : State Thread} {l : Label Thread}

inductive Step (s : State Thread) : Label Thread → State Thread → Prop
  | lock (t) : s.pc t = .idle → Step s (.lock t) (s.setPC t (.cas 0))
  | locks (t) : s.pc t = .cas s.locked →
      Step s (.lockCas t) ({ s with locked := 1 }.setPC t .critical)
  | fails (t expected) : s.pc t = .cas expected → s.locked ≠ expected →
      Step s (.lockCas t) (s.setPC t (.wait s.locked))
  | blocks (t expected) : s.pc t = .wait expected → s.locked = 1 →
      Step s (.futexWait t) ({ s with waiters := s.waiters ++ [t] }.setPC t (.blocked expected))
  | retries (t expected) : s.pc t = .wait expected → s.locked ≠ 1 →
      Step s (.futexWait t) (s.setPC t (.cas expected))
  | unlocks (t) : s.pc t = .critical → s.locked = 1 →
      Step s (.unlockCas t) ({ s with locked := 0 }.setPC t .wake)
  | finds (t) : s.pc t = .critical → s.locked = 0 → Step s (.unlockCas t) (s.setPC t .idle)
  | wakesNone (t) : s.pc t = .wake → s.waiters = [] → Step s (.futexWake t none) (s.setPC t .idle)
  | wakes (t w expected) : s.pc t = .wake → s.pc w = .blocked expected → w ∈ s.waiters →
      Step s (.futexWake t (some w)) (({ s with waiters := s.waiters.erase w }.setPC w
        (.cas expected)).setPC t .idle)

theorem step_cases (hs : step s l = some s') : Step s l s' := by
  cases l with
  | lock t =>
    simp only [step, Option.ite_none_right_eq_some, Option.some.injEq] at hs
    obtain ⟨hpc, rfl⟩ := hs
    exact .lock t hpc
  | lockCas t =>
    cases hpc : s.pc t with
    | cas expected =>
      simp only [step, hpc, Option.some.injEq] at hs
      subst hs
      by_cases heq : s.locked = expected
      · simp only [lockCas, compareExchange, heq, ite_true]
        exact .locks t (heq ▸ hpc)
      · simp only [lockCas, compareExchange, heq, ite_false]
        exact .fails t expected hpc heq
    | _ => simp [step, hpc] at hs
  | futexWait t =>
    cases hpc : s.pc t with
    | wait expected =>
      simp only [step, hpc, Option.some.injEq] at hs
      subst hs
      rw [futexWait]
      split
      next hlocked => exact .blocks t expected hpc hlocked
      next hfree => exact .retries t expected hpc hfree
    | _ => simp [step, hpc] at hs
  | unlockCas t =>
    simp only [step, Option.ite_none_right_eq_some] at hs
    obtain ⟨hpc, hs⟩ := hs
    by_cases hlocked : s.locked = 1
    · simp only [unlockCas, compareExchange, hlocked, ite_true, Option.some.injEq] at hs
      subst hs
      exact .unlocks t hpc hlocked
    · simp only [unlockCas, compareExchange, hlocked, ite_false, Option.ite_none_right_eq_some,
        Option.some.injEq] at hs
      obtain ⟨hfree, rfl⟩ := hs
      exact .finds t hpc hfree
  | futexWake t waiter =>
    simp only [step, Option.ite_none_right_eq_some] at hs
    obtain ⟨hpc, hs⟩ := hs
    cases waiter with
    | none =>
      simp only [futexWake, Option.ite_none_right_eq_some, Option.some.injEq] at hs
      obtain ⟨hnone, rfl⟩ := hs
      exact .wakesNone t hpc hnone
    | some w =>
      cases hw : s.pc w with
      | blocked expected =>
        simp only [futexWake, hw, Option.ite_none_right_eq_some, Option.some.injEq] at hs
        obtain ⟨hmem, rfl⟩ := hs
        exact .wakes t w expected hpc hw hmem
      | _ => simp [futexWake, hw] at hs

theorem forall_setPC {P : Thread → PC → Prop} {t : Thread} {p : PC} (ht : P t p)
    (ho : ∀ u, u ≠ t → P u (s.pc u)) (u : Thread) : P u ((s.setPC t p).pc u) := by
  by_cases hu : u = t
  · subst hu
    rwa [State.setPC_same]
  · rw [State.setPC_other _ hu]
    exact ho u hu

omit [DecidableEq Thread] in
theorem live_init : Live (init : State Thread) where
  word := .inl rfl
  taken h := by cases h
  nodup := List.nodup_nil
  waits t := by simp [init]
  token h := absurd rfl h

theorem Live.waits_setPC (h : Live s) {t : Thread} {p : PC}
    (hold : ∀ expected, s.pc t ≠ .blocked expected) (hnew : ∀ expected, p ≠ .blocked expected)
    (u : Thread) : u ∈ s.waiters ↔ ∃ expected, (s.setPC t p).pc u = .blocked expected := by
  by_cases hu : u = t
  · subst hu
    rw [State.setPC_same]
    refine iff_of_false (fun hmem => ?_) fun ⟨expected, hp⟩ => hnew expected hp
    obtain ⟨expected, hp⟩ := (h.waits u).mp hmem
    exact hold expected hp
  · rw [State.setPC_other _ hu]
    exact h.waits u

theorem Live.move (h : Live s) {t : Thread} {p : PC} (hold : ∀ expected, s.pc t ≠ .blocked expected)
    (hnew : ∀ expected, p ≠ .blocked expected) (htaken : s.locked = 1 → s.pc t ≠ .critical)
    (htoken : s.waiters ≠ [] → s.locked ≠ 1 → p.Moves ∨ ∃ u, u ≠ t ∧ (s.pc u).Moves) :
    Live (s.setPC t p) where
  word := h.word
  taken hl := by
    obtain ⟨u, hu⟩ := h.taken hl
    have hne : u ≠ t := by
      rintro rfl
      exact htaken hl hu
    exact ⟨u, by rwa [State.setPC_other _ hne]⟩
  nodup := h.nodup
  waits := h.waits_setPC hold hnew
  token hw := by
    by_cases hl : s.locked = 1
    · exact .inl hl
    · rcases htoken hw hl with hp | ⟨u, hu, hp⟩
      · exact .inr ⟨t, by rwa [State.setPC_same]⟩
      · exact .inr ⟨u, by rwa [State.setPC_other _ hu]⟩

theorem Step.live (hs : Step s l s') (h : Live s) : Live s' := by
  cases hs with
  | lock t hpc =>
    exact h.move (by simp [hpc]) (by simp) (by simp [hpc]) fun _ _ => .inl trivial
  | fails t expected hpc =>
    exact h.move (by simp [hpc]) (by simp) (by simp [hpc]) fun _ _ => .inl trivial
  | retries t expected hpc =>
    exact h.move (by simp [hpc]) (by simp) (by simp [hpc]) fun _ _ => .inl trivial
  | wakesNone t hpc hnone =>
    exact h.move (by simp [hpc]) (by simp) (by simp [hpc]) fun hw => absurd hnone hw
  | finds t hpc hfree =>
    refine h.move (by simp [hpc]) (by simp) (by simp [hfree]) fun hw hl => .inr ?_
    obtain ⟨u, hu⟩ := (h.token hw).resolve_left hl
    refine ⟨u, ?_, hu⟩
    rintro rfl
    simp [hpc, PC.Moves] at hu
  | locks t hpc =>
    exact {
      word := .inr rfl
      taken := fun _ => ⟨t, State.setPC_same ..⟩
      nodup := h.nodup
      waits := h.waits_setPC (by simp [hpc]) (by simp)
      token := fun _ => .inl rfl }
  | unlocks t hpc =>
    exact {
      word := .inl rfl
      taken := fun hl => by cases hl
      nodup := h.nodup
      waits := h.waits_setPC (by simp [hpc]) (by simp)
      token := fun _ => .inr ⟨t, by rw [State.setPC_same]; trivial⟩ }
  | blocks t expected hpc hl =>
    have hnew : t ∉ s.waiters := by
      intro hmem
      obtain ⟨seen, hblocked⟩ := (h.waits t).mp hmem
      simp [hpc] at hblocked
    refine ⟨.inr hl, fun _ => ?_, ?_, fun u => ?_, fun _ => .inl hl⟩
    · obtain ⟨u, hu⟩ := h.taken hl
      have hne : u ≠ t := by
        rintro rfl
        simp [hpc] at hu
      exact ⟨u, by rwa [State.setPC_other _ hne]⟩
    · exact List.nodup_append.mpr ⟨h.nodup, List.nodup_singleton t, by
        rintro a ha b hb rfl
        exact hnew (List.mem_singleton.mp hb ▸ ha)⟩
    · by_cases hu : u = t
      · subst hu
        rw [State.setPC_same]
        exact iff_of_true (List.mem_append_right _ List.mem_cons_self) ⟨expected, rfl⟩
      · rw [State.setPC_other _ hu, ← h.waits u]
        change u ∈ s.waiters ++ [t] ↔ u ∈ s.waiters
        simp [hu]
  | wakes t w expected hpc hw hmem =>
    have hne : w ≠ t := by
      rintro rfl
      rw [hpc] at hw
      cases hw
    refine ⟨h.word, fun hl => ?_, h.nodup.erase w, fun u => ?_, fun _ => .inr ⟨w, ?_⟩⟩
    · obtain ⟨u, hu⟩ := h.taken hl
      have hut : u ≠ t := by
        rintro rfl
        simp [hpc] at hu
      have huw : u ≠ w := by
        rintro rfl
        simp [hw] at hu
      exact ⟨u, by rwa [State.setPC_other _ hut, State.setPC_other _ huw]⟩
    · change u ∈ s.waiters.erase w ↔ _
      rw [h.nodup.mem_erase_iff]
      by_cases hut : u = t
      · subst hut
        rw [State.setPC_same]
        exact iff_of_false (fun ⟨_, hu⟩ => by
          obtain ⟨seen, hblocked⟩ := (h.waits u).mp hu
          simp [hpc] at hblocked) (by simp)
      · rw [State.setPC_other _ hut]
        by_cases huw : u = w
        · subst huw
          simp
        · rw [State.setPC_other _ huw, ← h.waits u]
          simp [huw]
    · rw [State.setPC_other _ hne, State.setPC_same]
      trivial

end Steps

def PC.calls : PC → Nat
  | .cas _ => 2
  | .wait _ => 2
  | .blocked _ => 2
  | .critical => 1
  | .idle => 0
  | .wake => 0

def PC.steps (locked : UInt32) : PC → Nat
  | .cas expected => if locked = 1 then 2 else if expected = locked then 1 else 3
  | .wait expected => if locked = 1 then 1 else if expected = locked then 2 else 4
  | .wake => 5
  | .idle => 0
  | .blocked _ => 0
  | .critical => 0

section Ranks

variable [Fintype Thread] {s s' : State Thread} {l : Label Thread}

theorem PC.steps_le (locked : UInt32) (p : PC) : p.steps locked ≤ 5 := by
  cases p with
  | cas expected =>
    simp only [PC.steps]
    split_ifs <;> omega
  | wait expected =>
    simp only [PC.steps]
    split_ifs <;> omega
  | _ => simp [PC.steps]

def State.rank (s : State Thread) : Nat := tiers 5 PC.calls (PC.steps s.locked) s.pc

variable [DecidableEq Thread] {t : Thread} {p : PC}

theorem State.rank_lt_of_calls (h : p.calls < (s.pc t).calls) (locked : UInt32) :
    ({ s with locked := locked }.setPC t p).rank < s.rank := by
  refine tiers_lt_of_coarse (PC.steps_le locked) ?_
  have hcalls := tally_update_add PC.calls s.pc t p
  simp only [State.setPC]
  omega

theorem State.rank_lt_of_steps (hcalls : p.calls = (s.pc t).calls)
    (hsteps : p.steps s.locked < (s.pc t).steps s.locked) : (s.setPC t p).rank < s.rank := by
  refine tiers_lt_of_fine (tally_same hcalls) ?_
  have htally := tally_update_add (PC.steps s.locked) s.pc t p
  simp only [State.setPC]
  omega

theorem Step.rank_lt (hs : Step s l s') (hown : l.Own) : s'.rank < s.rank := by
  cases hs with
  | lock => exact hown.elim
  | locks t hpc => exact State.rank_lt_of_calls (by simp [hpc, PC.calls]) 1
  | unlocks t hpc => exact State.rank_lt_of_calls (by simp [hpc, PC.calls]) 0
  | finds t hpc => exact State.rank_lt_of_calls (by simp [hpc, PC.calls]) s.locked
  | wakesNone t hpc =>
    exact State.rank_lt_of_steps (by simp [hpc, PC.calls]) (by simp [hpc, PC.steps])
  | fails t expected hpc hne =>
    refine State.rank_lt_of_steps (by simp [hpc, PC.calls]) ?_
    by_cases hl : s.locked = 1
    · simp [hpc, PC.steps, hl]
    · simp [hpc, PC.steps, hl, hne.symm]
  | blocks t expected hpc hl =>
    have hlt : (s.setPC t (.blocked expected)).rank < s.rank :=
      State.rank_lt_of_steps (by simp [hpc, PC.calls]) (by simp [hpc, hl, PC.steps])
    exact hlt
  | retries t expected hpc hl =>
    refine State.rank_lt_of_steps (by simp [hpc, PC.calls]) ?_
    by_cases heq : expected = s.locked
    · simp [hpc, PC.steps, hl, heq]
    · simp [hpc, PC.steps, hl, heq]
  | wakes t w expected hpc hw =>
    have hne : t ≠ w := by
      rintro rfl
      rw [hpc] at hw
      cases hw
    have hkept : Function.update s.pc w (.cas expected) t = .wake := by
      rw [Function.update_of_ne hne, hpc]
    refine tiers_lt_of_fine ?_ ?_
    · simp only [State.setPC]
      rw [tally_same (by rw [hkept]; rfl), tally_same (by rw [hw]; rfl)]
    · have hcas : (PC.cas expected).steps s.locked ≤ 3 := by
        simp only [PC.steps]
        split_ifs <;> omega
      have hwoken := tally_update_add (PC.steps s.locked) s.pc w (.cas expected)
      have hleft := tally_update_add (PC.steps s.locked)
        (Function.update s.pc w (.cas expected)) t .idle
      simp only [hkept, PC.steps] at hleft
      simp only [State.setPC]
      omega

theorem uses_rank : (machine Thread).Uses Live (fun _ l => l.Own) State.rank := by
  intro s l s' h hown hs
  exact ⟨(step_cases hs).live h, (step_cases hs).rank_lt hown⟩

end Ranks

section Rest

variable [DecidableEq Thread] {s s' : State Thread} {tr later : List (State Thread × Label Thread)}

theorem live_run (hr : (machine Thread).Run tr s) : Live s :=
  hr.always (I := Live) (fun _ h => h ▸ live_init) fun _ _ _ h hs => (step_cases hs).live h

omit [DecidableEq Thread] in
theorem Live.word_cases (h : Live s) : compareExchange s.locked 1 0 = (true, 0, 1) ∨
    compareExchange s.locked 1 0 = (false, 0, 0) := by
  rcases h.word with hl | hl <;> simp [compareExchange, hl]

theorem lockCas_takes {t : Thread} {expected : UInt32} (hpc : s.pc t = .cas expected) :
    step s (.lockCas t) ≠ none := by
  simp [step, hpc]

theorem futexWait_takes {t : Thread} {expected : UInt32} (hpc : s.pc t = .wait expected) :
    step s (.futexWait t) ≠ none := by
  simp [step, hpc]

theorem Live.unlockCas_takes (h : Live s) {t : Thread} (hpc : s.pc t = .critical) :
    step s (.unlockCas t) ≠ none := by
  rcases h.word_cases with hl | hl <;> simp [step, hpc, unlockCas, hl]

theorem Live.futexWake_takes (h : Live s) {t : Thread} (hpc : s.pc t = .wake) :
    ∃ waiter, step s (.futexWake t waiter) ≠ none := by
  cases hwaiters : s.waiters with
  | nil => exact ⟨none, by simp [step, hpc, futexWake, hwaiters]⟩
  | cons w waiters =>
    have hmem : w ∈ s.waiters := by simp [hwaiters]
    obtain ⟨expected, hw⟩ := (h.waits w).mp hmem
    exact ⟨some w, by simp [step, hpc, futexWake, hw, hmem]⟩

theorem Live.idle_of_rests (h : Live s) (hrest : (machine Thread).Rests Label.Own s)
    (t : Thread) : s.pc t = .idle := by
  have hmoves (u : Thread) : ¬ (s.pc u).Moves := by
    intro hu
    cases hpc : s.pc u with
    | cas expected => exact lockCas_takes hpc (hrest (.lockCas u) trivial)
    | wait expected => exact futexWait_takes hpc (hrest (.futexWait u) trivial)
    | wake =>
      obtain ⟨waiter, hwake⟩ := h.futexWake_takes hpc
      exact hwake (hrest (.futexWake u waiter) trivial)
    | _ => simp [hpc, PC.Moves] at hu
  have hcritical (u : Thread) : s.pc u ≠ .critical := fun hu =>
    h.unlockCas_takes hu (hrest (.unlockCas u) trivial)
  cases hpc : s.pc t with
  | idle => rfl
  | critical => exact absurd hpc (hcritical t)
  | blocked expected =>
    have hmem : t ∈ s.waiters := (h.waits t).mpr ⟨expected, hpc⟩
    rcases h.token (List.ne_nil_of_mem hmem) with hl | ⟨u, hu⟩
    · obtain ⟨u, hu⟩ := h.taken hl
      exact absurd hu (hcritical u)
    · exact absurd hu (hmoves u)
  | _ => exact absurd (show (s.pc t).Moves by rw [hpc]; trivial) (hmoves t)

/-- Once nobody calls `fmutex_lock` anew and who holds the lock gives it back, the calls end
after a bounded number of steps, whichever waiters the kernel wakes, and all of them have
returned: none sleeps with the lock free, not even after two threads were let in. -/
theorem locks_return [Fintype Thread] (hr : (machine Thread).Run tr s)
    (hl : ((machine Thread).after s).Run later s') (hown : ∀ p ∈ later, p.2.Own) :
    later.length ≤ s.rank ∧
      ((machine Thread).Rests Label.Own s' → ∀ t, s'.pc t = .idle) := by
  obtain ⟨h, hle⟩ := uses_rank.length_le (live_run hr) hl hown
  exact ⟨by omega, h.idle_of_rests⟩

theorem locks_return_overtaken :
    ∃ (tr later : List (State (Fin 3) × Label (Fin 3))) (s s' : State (Fin 3)),
      (machine (Fin 3)).Run tr s ∧ tr.length = 10 ∧ ((machine (Fin 3)).after s).Run later s' ∧
        (∀ t, s'.pc t = .idle) ∧ later.length = 3 ∧ later.length ≤ s.rank := by
  obtain ⟨tr, s', hr, htr⟩ := (machine (Fin 3)).exists_run_of_record init
    [.lock 0, .lockCas 0, .lock 1, .lockCas 1, .futexWait 1, .unlockCas 0, .futexWake 0 (some 1),
      .lock 2, .lockCas 2, .lockCas 1, .unlockCas 1, .unlockCas 2, .futexWake 1 none]
    (fun tr s' => (∀ t, s'.pc t = .idle) ∧ (tr.drop 3).length = 10 ∧ (tr.take 3).length = 3 ∧
      ∀ p ∈ tr.take 3, p.2.Own) rfl (by decide)
  simp only [decide_eq_true_eq] at htr
  obtain ⟨hidle, hbefore, hlength, hown⟩ := htr
  rw [← List.take_append_drop 3 tr] at hr
  obtain ⟨s, hr, hl⟩ := hr.split
  exact ⟨tr.drop 3, tr.take 3, s, s', hr, hbefore, hl, hidle, hlength,
    (locks_return hr hl hown).1⟩

end Rest

end Dert.Fmutex
