import Dert.Sync.Fsemaphore
import Dert.Sync.FmutexLaws

universe u

namespace Dert.Fsemaphore

open Library

def PC.inside : PC → Bool
  | .sub => true
  | .add => true
  | .wake => true
  | _ => false

variable {Thread : Type u} {val max : UInt64} {s s' : State Thread} {t u : Thread}

/-- What a thread has loaded still holds while it is inside, and the waits that have
subtracted and not yet returned are a list of threads. -/
structure Inv (val max : UInt64) (s : State Thread) : Prop where
  mutex : Fmutex.Inv s.mutex
  inside : ∀ t, (s.pc t).inside = true → s.mutex.pc t = .critical
  sub : ∀ t, s.pc t = .sub → 0 < s.counter
  add : ∀ t, s.pc t = .add → s.counter < max
  counter : s.counter.toNat + s.decrements = val.toNat + s.increments
  bounded : s.counter ≤ max
  granting : ∃ l : List Thread, l.Nodup ∧ (∀ t, t ∈ l ↔ s.pc t = .unlocking .wait) ∧
    s.granted + l.length = s.decrements

theorem Inv.grants (h : Inv val max s) : Grants val max s where
  counter := h.counter
  bounded := h.bounded
  granted := by
    obtain ⟨l, -, -, hcount⟩ := h.granting
    have hcounter := h.counter
    omega

theorem inv_start (hval : val ≤ max) : Inv val max (start val : State Thread) where
  mutex := Fmutex.inv_init
  inside t ht := by simp [start, PC.inside] at ht
  sub t ht := by simp [start] at ht
  add t ht := by simp [start] at ht
  counter := rfl
  bounded := hval
  granting := ⟨[], List.nodup_nil, by simp [start], rfl⟩

theorem Inv.unique (h : Inv val max s) (ht : (s.pc t).inside = true) (hu : (s.pc u).inside = true) :
    t = u :=
  h.mutex.exclusive t u (h.inside t ht) (h.inside u hu)

theorem Inv.alone (h : Inv val max s) (hpc : (s.pc t).inside = true) (hu : u ≠ t) :
    s.pc u ≠ .sub ∧ s.pc u ≠ .add :=
  ⟨fun hsub => hu (h.unique (by simp [hsub, PC.inside]) hpc),
    fun hadd => hu (h.unique (by simp [hadd, PC.inside]) hpc)⟩

theorem Inv.waiters (h : Inv val max s) (waiters : List Thread) :
    Inv val max { s with waiters } :=
  ⟨h.mutex, h.inside, h.sub, h.add, h.counter, h.bounded, h.granting⟩

theorem Inv.mutexed (h : Inv val max s) {m : Fmutex.State Thread} (hm : Fmutex.Inv m)
    (hkeep : ∀ t, (s.pc t).inside = true → m.pc t = .critical) :
    Inv val max { s with mutex := m } :=
  ⟨hm, hkeep, h.sub, h.add, h.counter, h.bounded, h.granting⟩

variable [DecidableEq Thread]

theorem forall_setPC {P : Thread → PC → Prop} {p : PC} (ht : P t p)
    (ho : ∀ u, u ≠ t → P u (s.pc u)) (u : Thread) : P u ((s.setPC t p).pc u) := by
  by_cases hu : u = t
  · subst hu
    rw [State.setPC_same]
    exact ht
  · rw [State.setPC_other _ hu]
    exact ho u hu

theorem Inv.move (h : Inv val max s) {p : PC} (hin : p.inside = true → s.mutex.pc t = .critical)
    (hsub : p = .sub → 0 < s.counter) (hadd : p = .add → s.counter < max)
    (hold : s.pc t ≠ .unlocking .wait) (hnew : p ≠ .unlocking .wait) :
    Inv val max (s.setPC t p) where
  mutex := h.mutex
  inside := forall_setPC (P := fun u p => p.inside = true → s.mutex.pc u = .critical) hin
    fun u _ => h.inside u
  sub := forall_setPC (P := fun _ p => p = .sub → 0 < s.counter) hsub fun u _ => h.sub u
  add := forall_setPC (P := fun _ p => p = .add → s.counter < max) hadd fun u _ => h.add u
  counter := h.counter
  bounded := h.bounded
  granting := by
    obtain ⟨l, hnodup, hmem, hcount⟩ := h.granting
    refine ⟨l, hnodup, ?_, hcount⟩
    exact forall_setPC (P := fun u p => u ∈ l ↔ p = .unlocking .wait)
      (iff_of_false (fun ht => hold ((hmem t).mp ht)) hnew) fun u _ => hmem u

theorem inv_load (h : Inv val max s) {op : Op} (hpc : s.pc t = .locking op)
    (hcritical : s.mutex.pc t = .critical) : Inv val max (load s max t op) := by
  have hold : s.pc t ≠ .unlocking .wait := by simp [hpc]
  cases op with
  | wait =>
    rw [load]
    split_ifs with hpos
    · exact h.move (fun _ => hcritical) (fun _ => hpos) nofun hold nofun
    · exact h.move nofun nofun nofun hold nofun
  | post =>
    rw [load]
    split_ifs with hfull
    · exact h.move nofun nofun nofun hold nofun
    · exact h.move (fun _ => hcritical) nofun (fun _ => UInt64.lt_of_le_of_ne h.bounded hfull) hold nofun

theorem inv_fetchSub (h : Inv val max s) (hpc : s.pc t = .sub) : Inv val max (fetchSub s t) := by
  have hone : 1 ≤ s.counter := h.sub t hpc
  have hless : (s.counter - 1).toNat = s.counter.toNat - 1 := UInt64.toNat_sub_of_le _ _ hone
  have hpos : 1 ≤ s.counter.toNat := hone
  have hin : (s.pc t).inside = true := by simp [hpc, PC.inside]
  constructor
  · exact h.mutex
  · exact forall_setPC (P := fun u p => p.inside = true → s.mutex.pc u = .critical) nofun
      fun u _ => h.inside u
  · exact forall_setPC (P := fun _ p => p = .sub → 0 < s.counter - 1) nofun fun u hu hsub =>
      absurd hsub (h.alone hin hu).1
  · exact forall_setPC (P := fun _ p => p = .add → s.counter - 1 < max) nofun fun u hu hadd =>
      absurd hadd (h.alone hin hu).2
  · have hcounter := h.counter
    change (s.counter - 1).toNat + (s.decrements + 1) = val.toNat + s.increments
    omega
  · have hbounded : s.counter.toNat ≤ max.toNat := h.bounded
    change (s.counter - 1).toNat ≤ max.toNat
    omega
  · obtain ⟨l, hnodup, hmem, hcount⟩ := h.granting
    have hnew : t ∉ l := fun ht => by simpa [hpc] using (hmem t).mp ht
    refine ⟨t :: l, List.nodup_cons.mpr ⟨hnew, hnodup⟩, ?_, ?_⟩
    · exact forall_setPC (P := fun u p => u ∈ t :: l ↔ p = .unlocking .wait) (by simp)
        fun u hu => by rw [← hmem u, List.mem_cons, or_iff_right hu]
    · change s.granted + (l.length + 1) = s.decrements + 1
      omega

theorem inv_fetchAdd (h : Inv val max s) (hpc : s.pc t = .add) : Inv val max (fetchAdd s t) := by
  have hlt : s.counter.toNat < max.toNat := h.add t hpc
  have hmore : (s.counter + 1).toNat = s.counter.toNat + 1 := by
    rw [UInt64.toNat_add]
    exact Nat.mod_eq_of_lt (Nat.lt_of_le_of_lt hlt max.toNat_lt)
  have hin : (s.pc t).inside = true := by simp [hpc, PC.inside]
  constructor
  · exact h.mutex
  · exact forall_setPC (P := fun u p => p.inside = true → s.mutex.pc u = .critical)
      (fun _ => h.inside t hin) fun u _ => h.inside u
  · exact forall_setPC (P := fun _ p => p = .sub → 0 < s.counter + 1) nofun fun u hu hsub =>
      absurd hsub (h.alone hin hu).1
  · exact forall_setPC (P := fun _ p => p = .add → s.counter + 1 < max) nofun fun u hu hadd =>
      absurd hadd (h.alone hin hu).2
  · have hcounter := h.counter
    change (s.counter + 1).toNat + s.decrements = val.toNat + (s.increments + 1)
    omega
  · change (s.counter + 1).toNat ≤ max.toNat
    omega
  · obtain ⟨l, hnodup, hmem, hcount⟩ := h.granting
    refine ⟨l, hnodup, ?_, hcount⟩
    exact forall_setPC (P := fun u p => u ∈ l ↔ p = .unlocking .wait)
      (iff_of_false (fun ht => by simpa [hpc] using (hmem t).mp ht) nofun) fun u _ => hmem u

theorem inv_futexWake {waiter : Option Thread} (h : Inv val max s) (hpc : s.pc t = .wake)
    (hs : futexWake s t waiter = some s') : Inv val max s' := by
  cases waiter with
  | none =>
    simp only [futexWake, Option.ite_none_right_eq_some, Option.some.injEq] at hs
    obtain ⟨-, rfl⟩ := hs
    exact h.move nofun nofun nofun (by simp [hpc]) nofun
  | some w =>
    simp only [futexWake, Option.ite_none_right_eq_some, Option.some.injEq] at hs
    obtain ⟨⟨-, hw⟩, rfl⟩ := hs
    have hne : t ≠ w := by
      rintro rfl
      simp [hpc] at hw
    have hwoken : Inv val max ({ s with waiters := s.waiters.erase w }.setPC w (.locking .wait)) :=
      (h.waiters _).move nofun nofun nofun (by simp [hw]) nofun
    refine hwoken.move nofun nofun nofun ?_ nofun
    rw [State.setPC_other _ hne]
    simp [hpc]

theorem inv_unlocked {after : After} (h : Inv val max s) (hpc : s.pc t = .unlocking after) :
    Inv val max (unlocked s t after) := by
  cases after with
  | sleep =>
    rw [unlocked]
    split_ifs
    · exact (h.waiters _).move nofun nofun nofun (by simp [hpc]) nofun
    · exact h.move nofun nofun nofun (by simp [hpc]) nofun
  | wait =>
    obtain ⟨l, hnodup, hmem, hcount⟩ := h.granting
    have ht : t ∈ l := (hmem t).mpr hpc
    constructor
    · exact h.mutex
    · exact forall_setPC (P := fun u p => p.inside = true → s.mutex.pc u = .critical) nofun
        fun u _ => h.inside u
    · exact forall_setPC (P := fun _ p => p = .sub → 0 < s.counter) nofun fun u _ => h.sub u
    · exact forall_setPC (P := fun _ p => p = .add → s.counter < max) nofun fun u _ => h.add u
    · exact h.counter
    · exact h.bounded
    · refine ⟨l.erase t, hnodup.erase t, ?_, ?_⟩
      · refine forall_setPC (P := fun u p => u ∈ l.erase t ↔ p = .unlocking .wait) ?_ fun u hu => ?_
        · exact iff_of_false hnodup.not_mem_erase nofun
        · rw [List.mem_erase_of_ne hu, hmem u]
      · change s.granted + 1 + (l.erase t).length = s.decrements
        have hlen := List.length_erase_of_mem ht
        have hpos := List.length_pos_of_mem ht
        omega
  | post => exact h.move nofun nofun nofun (by simp [hpc]) nofun

theorem inv_unblock (h : Inv val max s) {p : Fmutex.PC} {expected : UInt32}
    (hpc : s.mutex.pc t = .blocked expected) (hp : p ≠ .critical) :
    Inv val max { s with mutex := unblock s.mutex t p } := by
  refine h.mutexed ((h.mutex.waiters _).move (by simp [hpc]) hp) fun u hu => ?_
  have hcritical := h.inside u hu
  have hne : u ≠ t := by
    rintro rfl
    simp [hpc] at hcritical
  rw [unblock, Fmutex.State.setPC_other _ hne]
  exact hcritical

theorem inv_spurious (h : Inv val max s) (hs : spurious s t = some s') : Inv val max s' := by
  rw [spurious] at hs
  split at hs
  next hmutex =>
    cases hs
    exact inv_unblock h hmutex nofun
  next hpc =>
    cases hs
    exact (h.waiters _).move nofun nofun nofun (by simp [hpc]) nofun
  next => cases hs

theorem inv_interrupt (h : Inv val max s) (hs : interrupt s t = some s') : Inv val max s' := by
  rw [interrupt] at hs
  split at hs
  next hpc hmutex =>
    cases hs
    have hfree := inv_unblock (p := .idle) h hmutex nofun
    exact hfree.move nofun nofun nofun (by simp [hpc]) nofun
  next hpc =>
    cases hs
    exact (h.waiters _).move nofun nofun nofun (by simp [hpc]) nofun
  next => cases hs

theorem inv_mutex {l : Fmutex.Label Thread} {m : Fmutex.State Thread} (h : Inv val max s)
    (hl : s.admits l = true) (hfresh : ¬ Fmutex.ExpectsLocked s.mutex l)
    (hs : Fmutex.step s.mutex l = some m) : Inv val max { s with mutex := m } := by
  refine h.mutexed (Fmutex.inv_step h.mutex hfresh hs) fun u hu => ?_
  refine Fmutex.critical_of_step hs (h.inside u hu) ?_
  rintro rfl
  cases hpc : s.pc u <;> simp_all [State.admits, PC.unlocks, PC.inside]

theorem inv_step {l : Label Thread} (h : Inv val max s) (hfresh : ¬ ExpectsLocked s l)
    (hs : step max s l = some s') : Inv val max s' := by
  cases l with
  | call t op =>
    simp only [step, Option.ite_none_right_eq_some, Option.some.injEq] at hs
    obtain ⟨hpc, rfl⟩ := hs
    exact h.move nofun nofun nofun (by simp [hpc]) nofun
  | mutex l =>
    simp only [step, Option.ite_none_right_eq_some] at hs
    obtain ⟨hl, hs⟩ := hs
    obtain ⟨m, hm, rfl⟩ := Option.map_eq_some_iff.mp hs
    exact inv_mutex h hl (fun hbad => hfresh ⟨l, rfl, hbad⟩) hm
  | load t =>
    cases hpc : s.pc t with
    | locking op =>
      simp only [step, hpc, Option.ite_none_right_eq_some, Option.some.injEq] at hs
      obtain ⟨hcritical, rfl⟩ := hs
      exact inv_load h hpc hcritical
    | _ => simp [step, hpc] at hs
  | fetchSub t =>
    simp only [step, Option.ite_none_right_eq_some, Option.some.injEq] at hs
    obtain ⟨hpc, rfl⟩ := hs
    exact inv_fetchSub h hpc
  | fetchAdd t =>
    simp only [step, Option.ite_none_right_eq_some, Option.some.injEq] at hs
    obtain ⟨hpc, rfl⟩ := hs
    exact inv_fetchAdd h hpc
  | futexWake t waiter =>
    simp only [step, Option.ite_none_right_eq_some] at hs
    exact inv_futexWake h hs.1 hs.2
  | unlocked t =>
    cases hpc : s.pc t with
    | unlocking after =>
      simp only [step, hpc, Option.ite_none_right_eq_some, Option.some.injEq] at hs
      obtain ⟨-, rfl⟩ := hs
      exact inv_unlocked h hpc
    | _ => simp [step, hpc] at hs
  | spurious t => exact inv_spurious h hs
  | interrupt t => exact inv_interrupt h hs

/-- A run in which no compare-exchange of `fmutex_lock` expects 1 and finds 1 never grants more
than it has. -/
theorem grants_run (hval : val ≤ max) {tr : List (State Thread × Label Thread)}
    (hr : (machine Thread val max).Run tr s) (hfresh : ∀ p ∈ tr, ¬ ExpectsLocked p.1 p.2) :
    ∀ x, Machine.Visits tr s x → Grants val max x := by
  intro x hx
  refine (hr.visited (I := Inv val max) (fun s hi => ?_) (fun s l s' => inv_step) hfresh hx).grants
  rw [hi.2]
  exact inv_start hval

def served : List (Label Nat) :=
  [.call 0 .wait, .mutex (.lock 0), .mutex (.lockCas 0), .load 0, .fetchSub 0,
    .mutex (.unlockCas 0), .mutex (.futexWake 0 none), .unlocked 0,
    .call 1 .wait, .mutex (.lock 1), .mutex (.lockCas 1), .load 1, .mutex (.unlockCas 1),
    .mutex (.futexWake 1 none), .unlocked 1,
    .call 2 .post, .mutex (.lock 2), .mutex (.lockCas 2), .load 2, .fetchAdd 2,
    .futexWake 2 (some 1), .mutex (.unlockCas 2), .mutex (.futexWake 2 none), .unlocked 2,
    .mutex (.lock 1), .mutex (.lockCas 1), .load 1, .fetchSub 1, .mutex (.unlockCas 1),
    .mutex (.futexWake 1 none), .unlocked 1]

theorem grants_run_served :
    ∃ (tr : List (State Nat × Label Nat)) (s : State Nat), (machine Nat 1 1).Run tr s ∧
      s.granted = 2 ∧ ∀ x, Machine.Visits tr s x → Grants 1 1 x := by
  obtain ⟨tr, s, hr, hs⟩ := (machine Nat 1 1).exists_run_of_record (start 1) served
    (fun tr s => s.granted = 2 ∧ ∀ p ∈ tr, ¬ ExpectsLocked p.1 p.2) ⟨by decide, rfl⟩ (by decide)
  simp only [decide_eq_true_eq] at hs
  exact ⟨tr, s, hr, hs.1, grants_run (by decide) hr hs.2⟩

def overgranted : List (Label Nat) :=
  [.call 0 .wait, .mutex (.lock 0), .mutex (.lockCas 0), .load 0,
    .call 1 .wait, .mutex (.lock 1), .mutex (.lockCas 1), .mutex (.futexWait 1),
    .fetchSub 0, .mutex (.unlockCas 0), .mutex (.futexWake 0 (some 1)), .unlocked 0,
    .call 2 .wait, .mutex (.lock 2), .mutex (.lockCas 2), .mutex (.lockCas 1),
    .load 2, .load 1, .fetchSub 2, .fetchSub 1]

theorem not_grants_overgranted :
    ¬ ∀ val max (tr : List (State Nat × Label Nat)) (s : State Nat), val ≤ max →
      (machine Nat val max).Run tr s → ∀ x, Machine.Visits tr s x → Grants val max x := by
  obtain ⟨tr, s, hr, hs⟩ := (machine Nat 2 2).exists_run_of_exec (start 2) overgranted
    (fun s => s.counter.toNat = 2 ^ 64 - 1) ⟨by decide, rfl⟩ (by decide)
  simp only [decide_eq_true_eq] at hs
  intro hlaw
  have hbounded := (hlaw 2 2 tr s (by decide) hr s (.inl rfl)).bounded
  rw [UInt64.le_iff_toNat_le, hs] at hbounded
  exact absurd hbounded (by decide)

end Dert.Fsemaphore
