import Dert.Sync.FmutexProgress
import Dert.Sync.FsemaphoreLaws

universe u

namespace Dert.Fsemaphore

open Library

variable {Thread : Type u}

/-- The threads go on in the calls they are in, and no wait on a futex ends by itself. -/
def Label.Own : Label Thread → Prop
  | .call _ _ => False
  | .spurious _ => False
  | .interrupt _ => False
  | .mutex _ => True
  | .load _ => True
  | .fetchSub _ => True
  | .fetchAdd _ => True
  | .futexWake _ _ => True
  | .unlocked _ => True

instance : (l : Label Thread) → Decidable l.Own
  | .call _ _ => .isFalse id
  | .spurious _ => .isFalse id
  | .interrupt _ => .isFalse id
  | .mutex _ => .isTrue trivial
  | .load _ => .isTrue trivial
  | .fetchSub _ => .isTrue trivial
  | .fetchAdd _ => .isTrue trivial
  | .futexWake _ _ => .isTrue trivial
  | .unlocked _ => .isTrue trivial

def GivesUp (s : State Thread) : Label Thread → Prop
  | .interrupt t => s.pc t = .locking .wait
  | _ => False

instance (s : State Thread) : (l : Label Thread) → Decidable (GivesUp s l)
  | .interrupt t => inferInstanceAs (Decidable (s.pc t = .locking .wait))
  | .call _ _ => .isFalse id
  | .spurious _ => .isFalse id
  | .mutex _ => .isFalse id
  | .load _ => .isFalse id
  | .fetchSub _ => .isFalse id
  | .fetchAdd _ => .isFalse id
  | .futexWake _ _ => .isFalse id
  | .unlocked _ => .isFalse id

def PC.Within (m : Fmutex.PC) : PC → Prop
  | .idle => m = .idle
  | .blocked => m = .idle
  | .locking _ => m ≠ .wake
  | .sub => m = .critical
  | .add => m = .critical
  | .wake => m = .critical
  | .unlocking _ => m = .critical ∨ m = .wake ∨ m = .idle

def PC.looks : PC → Nat
  | .locking .wait => 1
  | .locking .post => 0
  | .sub => 1
  | .unlocking .sleep => 1
  | .unlocking .wait => 0
  | .unlocking .post => 0
  | .wake => 1
  | .idle => 0
  | .add => 0
  | .blocked => 0

section Steps

variable [DecidableEq Thread] {max : UInt64} {s s' : State Thread} {l : Label Thread}

inductive Step (max : UInt64) (s : State Thread) : Label Thread → State Thread → Prop
  | call (t op) : s.pc t = .idle → Step max s (.call t op) (s.setPC t (.locking op))
  | mutex (l m) : s.admits l = true → Fmutex.Step s.mutex l m →
      Step max s (.mutex l) { s with mutex := m }
  | takes (t) : s.pc t = .locking .wait → s.mutex.pc t = .critical → 0 < s.counter →
      Step max s (.load t) (s.setPC t .sub)
  | finds (t) : s.pc t = .locking .wait → s.mutex.pc t = .critical → s.counter = 0 →
      Step max s (.load t) (s.setPC t (.unlocking .sleep))
  | gives (t) : s.pc t = .locking .post → s.mutex.pc t = .critical → s.counter ≠ max →
      Step max s (.load t) (s.setPC t .add)
  | full (t) : s.pc t = .locking .post → s.mutex.pc t = .critical → s.counter = max →
      Step max s (.load t) (s.setPC t (.unlocking .post))
  | subs (t) : s.pc t = .sub → Step max s (.fetchSub t) (fetchSub s t)
  | adds (t) : s.pc t = .add → Step max s (.fetchAdd t) (fetchAdd s t)
  | wakesNone (t) : s.pc t = .wake → s.waiters = [] →
      Step max s (.futexWake t none) (s.setPC t (.unlocking .post))
  | wakes (t w) : s.pc t = .wake → w ∈ s.waiters → s.pc w = .blocked →
      Step max s (.futexWake t (some w))
        (({ s with waiters := s.waiters.erase w }.setPC w (.locking .wait)).setPC t
          (.unlocking .post))
  | sleeps (t) : s.pc t = .unlocking .sleep → s.mutex.pc t = .idle → s.counter.toUInt32 = 0 →
      Step max s (.unlocked t) ({ s with waiters := s.waiters ++ [t] }.setPC t .blocked)
  | stays (t) : s.pc t = .unlocking .sleep → s.mutex.pc t = .idle → s.counter.toUInt32 ≠ 0 →
      Step max s (.unlocked t) (s.setPC t (.locking .wait))
  | granted (t) : s.pc t = .unlocking .wait → s.mutex.pc t = .idle →
      Step max s (.unlocked t) ({ s with granted := s.granted + 1 }.setPC t .idle)
  | posted (t) : s.pc t = .unlocking .post → s.mutex.pc t = .idle →
      Step max s (.unlocked t) (s.setPC t .idle)
  | retries (t op expected) : s.pc t = .locking op → s.mutex.pc t = .blocked expected →
      Step max s (.spurious t) { s with mutex := unblock s.mutex t (.cas expected) }
  | wakens (t) : s.pc t = .blocked →
      Step max s (.spurious t) ({ s with waiters := s.waiters.erase t }.setPC t (.locking .wait))
  | aborts (t op expected) : s.pc t = .locking op → s.mutex.pc t = .blocked expected →
      Step max s (.interrupt t) ({ s with mutex := unblock s.mutex t .idle }.setPC t .idle)
  | leaves (t) : s.pc t = .blocked →
      Step max s (.interrupt t) ({ s with waiters := s.waiters.erase t }.setPC t .idle)

theorem step_cases (hs : step max s l = some s') : Step max s l s' := by
  cases l with
  | call t op =>
    simp only [step, Option.ite_none_right_eq_some, Option.some.injEq] at hs
    obtain ⟨hpc, rfl⟩ := hs
    exact .call t op hpc
  | mutex l =>
    simp only [step, Option.ite_none_right_eq_some] at hs
    obtain ⟨hl, hs⟩ := hs
    obtain ⟨m, hm, rfl⟩ := Option.map_eq_some_iff.mp hs
    exact .mutex l m hl (Fmutex.step_cases hm)
  | load t =>
    cases hpc : s.pc t with
    | locking op =>
      simp only [step, hpc, Option.ite_none_right_eq_some, Option.some.injEq] at hs
      obtain ⟨hcritical, rfl⟩ := hs
      cases op with
      | wait =>
        rw [load]
        split_ifs with hpos
        · exact .takes t hpc hcritical hpos
        · exact .finds t hpc hcritical (UInt64.le_zero_iff.mp (UInt64.not_lt.mp hpos))
      | post =>
        rw [load]
        split_ifs with hfull
        · exact .full t hpc hcritical hfull
        · exact .gives t hpc hcritical hfull
    | _ => simp [step, hpc] at hs
  | fetchSub t =>
    simp only [step, Option.ite_none_right_eq_some, Option.some.injEq] at hs
    obtain ⟨hpc, rfl⟩ := hs
    exact .subs t hpc
  | fetchAdd t =>
    simp only [step, Option.ite_none_right_eq_some, Option.some.injEq] at hs
    obtain ⟨hpc, rfl⟩ := hs
    exact .adds t hpc
  | futexWake t waiter =>
    simp only [step, Option.ite_none_right_eq_some] at hs
    obtain ⟨hpc, hs⟩ := hs
    cases waiter with
    | none =>
      simp only [futexWake, Option.ite_none_right_eq_some, Option.some.injEq] at hs
      obtain ⟨hnone, rfl⟩ := hs
      exact .wakesNone t hpc hnone
    | some w =>
      simp only [futexWake, Option.ite_none_right_eq_some, Option.some.injEq] at hs
      obtain ⟨⟨hmem, hw⟩, rfl⟩ := hs
      exact .wakes t w hpc hmem hw
  | unlocked t =>
    cases hpc : s.pc t with
    | unlocking after =>
      simp only [step, hpc, Option.ite_none_right_eq_some, Option.some.injEq] at hs
      obtain ⟨hidle, rfl⟩ := hs
      cases after with
      | sleep =>
        rw [unlocked]
        split_ifs with hzero
        · exact .sleeps t hpc hidle hzero
        · exact .stays t hpc hidle hzero
      | wait => exact .granted t hpc hidle
      | post => exact .posted t hpc hidle
    | _ => simp [step, hpc] at hs
  | spurious t =>
    simp only [step, spurious] at hs
    split at hs
    next op expected hpc hmutex =>
      cases hs
      exact .retries t op expected hpc hmutex
    next hpc =>
      cases hs
      exact .wakens t hpc
    next => cases hs
  | interrupt t =>
    simp only [step, interrupt] at hs
    split at hs
    next op expected hpc hmutex =>
      cases hs
      exact .aborts t op expected hpc hmutex
    next hpc =>
      cases hs
      exact .leaves t hpc
    next => cases hs

end Steps

structure Placed (s : State Thread) : Prop where
  mutex : Fmutex.Live s.mutex
  within : ∀ t, (s.pc t).Within (s.mutex.pc t)
  nodup : s.waiters.Nodup
  waits : ∀ t, t ∈ s.waiters ↔ s.pc t = .blocked

/-- While a thread sleeps, no more is left to take than threads that will look at the counter. -/
def Watched [Fintype Thread] (s : State Thread) : Prop :=
  s.waiters ≠ [] → s.counter.toNat ≤ tally PC.looks s.pc

section Places

variable [DecidableEq Thread] {m m' : Fmutex.State Thread} {t : Thread}
  {lm : Fmutex.Label Thread}

theorem live_unblock (h : Fmutex.Live m) {p : Fmutex.PC} {expected : UInt32}
    (hpc : m.pc t = .blocked expected) (hnew : ∀ expected, p ≠ .blocked expected) :
    Fmutex.Live (unblock m t p) := by
  have hother {u : Thread} (hu : m.pc u ≠ .blocked expected) : (unblock m t p).pc u = m.pc u := by
    rw [unblock, Fmutex.State.setPC_other]
    rintro rfl
    exact hu hpc
  refine ⟨h.word, fun hl => ?_, h.nodup.erase t, fun u => ?_, fun hw => ?_⟩
  · obtain ⟨u, hu⟩ := h.taken hl
    exact ⟨u, by rw [hother (by simp [hu]), hu]⟩
  · change u ∈ m.waiters.erase t ↔ _
    rw [h.nodup.mem_erase_iff]
    by_cases hu : u = t
    · subst hu
      simp [unblock, hnew]
    · rw [unblock, Fmutex.State.setPC_other _ hu, ← h.waits u]
      simp [hu]
  · have hmore : m.waiters ≠ [] := by
      rintro hnil
      simp [unblock, Fmutex.State.setPC, hnil] at hw
    refine (h.token hmore).imp_right ?_
    rintro ⟨u, hu⟩
    refine ⟨u, ?_⟩
    rwa [hother]
    rintro hblocked
    simp [hblocked, Fmutex.PC.Moves] at hu

theorem within_locks {m : Fmutex.PC} {p : PC} (hp : p.locks = true) (hm : m ≠ .wake) :
    p.Within m := by
  cases p <;> simp_all [PC.locks, PC.Within]

theorem within_unlocks {m : Fmutex.PC} {p : PC} (hp : p.unlocks = true)
    (hm : m = .critical ∨ m = .wake ∨ m = .idle) : p.Within m := by
  cases p <;> simp_all [PC.unlocks, PC.Within]

variable {s s' : State Thread}

theorem within_mutex (hl : s.admits lm = true) (hs : Fmutex.Step s.mutex lm m')
    (h : ∀ u, (s.pc u).Within (s.mutex.pc u)) : ∀ u, (s.pc u).Within (m'.pc u) := by
  cases hs with
  | lock t | locks t | fails t | blocks t | retries t =>
    exact Fmutex.forall_setPC (P := fun u m => (s.pc u).Within m) (within_locks hl (by simp))
      fun u _ => h u
  | unlocks t | finds t | wakesNone t =>
    exact Fmutex.forall_setPC (P := fun u m => (s.pc u).Within m) (within_unlocks hl (by simp))
      fun u _ => h u
  | wakes t w expected hpc hw =>
    refine Fmutex.forall_setPC (P := fun u m => (s.pc u).Within m) (within_unlocks hl (by simp))
      fun u _ => ?_
    refine Fmutex.forall_setPC (P := fun u m => (s.pc u).Within m) ?_ (fun u _ => h u) u
    have hwithin := h w
    rw [hw] at hwithin
    cases hsem : s.pc w <;> simp_all [PC.Within]

variable {max val : UInt64} {l : Label Thread} {p : PC}

omit [DecidableEq Thread] in
theorem placed_start : Placed (start val : State Thread) where
  mutex := Fmutex.live_init
  within _ := rfl
  nodup := List.nodup_nil
  waits t := by simp [start]

theorem Placed.move (h : Placed s) (hold : s.pc t ≠ .blocked) (hnew : p ≠ .blocked)
    (hwithin : p.Within (s.mutex.pc t)) : Placed (s.setPC t p) where
  mutex := h.mutex
  within := forall_setPC (P := fun u p => p.Within (s.mutex.pc u)) hwithin fun u _ => h.within u
  nodup := h.nodup
  waits := forall_setPC (P := fun u p => u ∈ s.waiters ↔ p = .blocked)
    (iff_of_false (fun hmem => hold ((h.waits t).mp hmem)) hnew) fun u _ => h.waits u

theorem Placed.wake (h : Placed s) (hpc : s.pc t = .blocked) (hnew : p ≠ .blocked)
    (hwithin : p.Within .idle) : Placed ({ s with waiters := s.waiters.erase t }.setPC t p) where
  mutex := h.mutex
  within := by
    have hidle : s.mutex.pc t = .idle := by simpa [hpc, PC.Within] using h.within t
    exact forall_setPC (P := fun u p => p.Within (s.mutex.pc u)) (by rwa [hidle])
      fun u _ => h.within u
  nodup := h.nodup.erase t
  waits := by
    refine forall_setPC (P := fun u p => u ∈ s.waiters.erase t ↔ p = .blocked)
      (iff_of_false h.nodup.not_mem_erase hnew) fun u hu => ?_
    rw [List.mem_erase_of_ne hu, h.waits u]

theorem Placed.unblock (h : Placed s) {m : Fmutex.PC} {op : Op} {expected : UInt32}
    (hpc : s.pc t = .locking op) (hmutex : s.mutex.pc t = .blocked expected)
    (hnew : ∀ expected, m ≠ .blocked expected) (hwake : m ≠ .wake) :
    Placed { s with mutex := unblock s.mutex t m } where
  mutex := live_unblock h.mutex hmutex hnew
  within := Fmutex.forall_setPC (P := fun u m => (s.pc u).Within m) (by rwa [hpc])
    fun u _ => h.within u
  nodup := h.nodup
  waits := h.waits

theorem Step.placed (hs : Step max s l s') (h : Placed s) : Placed s' := by
  cases hs with
  | call t op hpc =>
    have hidle : s.mutex.pc t = .idle := by simpa [hpc, PC.Within] using h.within t
    exact h.move (by simp [hpc]) (by simp) (by simp [hidle, PC.Within])
  | mutex l m hl hs =>
    exact ⟨hs.live h.mutex, within_mutex (s := s) hl hs h.within, h.nodup, h.waits⟩
  | takes t hpc hcritical | finds t hpc hcritical | gives t hpc hcritical | full t hpc hcritical =>
    exact h.move (by simp [hpc]) (by simp) (by simp [hcritical, PC.Within])
  | subs t hpc =>
    have hin := h.within t
    rw [hpc] at hin
    exact Placed.move (s := { s with counter := s.counter - 1, decrements := s.decrements + 1 })
      ⟨h.mutex, h.within, h.nodup, h.waits⟩ (by simp [hpc]) (by simp) (.inl hin)
  | adds t hpc =>
    have hin := h.within t
    rw [hpc] at hin
    exact Placed.move (s := { s with counter := s.counter + 1, increments := s.increments + 1 })
      ⟨h.mutex, h.within, h.nodup, h.waits⟩ (by simp [hpc]) (by simp) hin
  | wakesNone t hpc =>
    have hin := h.within t
    rw [hpc] at hin
    exact h.move (by simp [hpc]) (by simp) (.inl hin)
  | wakes t w hpc hmem hw =>
    have hin := h.within t
    rw [hpc] at hin
    have hne : t ≠ w := by
      rintro rfl
      rw [hpc] at hw
      cases hw
    refine (h.wake (p := .locking .wait) hw (by simp) (by simp [PC.Within])).move ?_ (by simp)
      (.inl hin)
    rw [State.setPC_other _ hne]
    simp [hpc]
  | sleeps t hpc hidle =>
    have hnew : t ∉ s.waiters := by simp [h.waits t, hpc]
    refine ⟨h.mutex, ?_, ?_, ?_⟩
    · exact forall_setPC (P := fun u p => p.Within (s.mutex.pc u)) hidle fun u _ => h.within u
    · exact List.nodup_append.mpr ⟨h.nodup, List.nodup_singleton t, by
        rintro a ha b hb rfl
        exact hnew (List.mem_singleton.mp hb ▸ ha)⟩
    · exact forall_setPC (P := fun u p => u ∈ s.waiters ++ [t] ↔ p = .blocked) (by simp)
        fun u hu => by simp [hu, h.waits u]
  | stays t hpc hidle =>
    exact h.move (by simp [hpc]) (by simp) (by simp [hidle, PC.Within])
  | granted t hpc hidle =>
    exact Placed.move (s := { s with granted := s.granted + 1 })
      ⟨h.mutex, h.within, h.nodup, h.waits⟩ (by simp [hpc]) (by simp) hidle
  | posted t hpc hidle => exact h.move (by simp [hpc]) (by simp) hidle
  | retries t op expected hpc hmutex => exact h.unblock hpc hmutex (by simp) (by simp)
  | wakens t hpc => exact h.wake hpc (by simp) (by simp [PC.Within])
  | aborts t op expected hpc hmutex =>
    refine (h.unblock (m := .idle) hpc hmutex (by simp) (by simp)).move (by simp [hpc]) (by simp) ?_
    simp [PC.Within, unblock]
  | leaves t hpc => exact h.wake hpc (by simp) rfl

end Places

section Looks

variable [Fintype Thread] [DecidableEq Thread] {val max : UInt64} {s s' : State Thread}
  {l : Label Thread} {t : Thread} {p : PC}

omit [DecidableEq Thread] in
theorem watched_start : Watched (start val : State Thread) := fun h => absurd rfl h

theorem Watched.move (h : Watched s) (hlooks : (s.pc t).looks ≤ p.looks) :
    Watched (s.setPC t p) := by
  intro hw
  have htally := tally_update_add PC.looks s.pc t p
  have hle := h hw
  simp only [State.setPC]
  omega

theorem Watched.wake (h : Watched s) (hpc : s.pc t = .blocked) :
    Watched ({ s with waiters := s.waiters.erase t }.setPC t p) := by
  refine Watched.move (s := { s with waiters := s.waiters.erase t }) (fun hw => h ?_)
    (by simp [hpc, PC.looks])
  rintro hnil
  simp [hnil] at hw

theorem Step.watched (hs : Step max s l s') (hi : Inv val max s) (hmax : max.toNat < 2 ^ 32)
    (hstays : ¬ GivesUp s l) (h : Watched s) : Watched s' := by
  cases hs with
  | mutex => exact h
  | retries => exact h
  | call t op hpc => exact h.move (by simp [hpc, PC.looks])
  | takes t hpc => exact h.move (by simp [hpc, PC.looks])
  | finds t hpc => exact h.move (by simp [hpc, PC.looks])
  | gives t hpc => exact h.move (by simp [hpc, PC.looks])
  | full t hpc => exact h.move (by simp [hpc, PC.looks])
  | stays t hpc => exact h.move (by simp [hpc, PC.looks])
  | posted t hpc => exact h.move (by simp [hpc, PC.looks])
  | granted t hpc =>
    exact Watched.move (s := { s with granted := s.granted + 1 }) h (by simp [hpc, PC.looks])
  | wakens t hpc => exact h.wake hpc
  | leaves t hpc => exact h.wake hpc
  | subs t hpc =>
    intro hw
    have hle := h hw
    have htally := tally_update_add PC.looks s.pc t (.unlocking .wait)
    have hone : 1 ≤ s.counter := hi.sub t hpc
    have hless : (s.counter - 1).toNat = s.counter.toNat - 1 := UInt64.toNat_sub_of_le _ _ hone
    simp only [hpc, PC.looks] at htally
    change (s.counter - 1).toNat ≤ tally PC.looks (Function.update s.pc t (.unlocking .wait))
    omega
  | adds t hpc =>
    intro hw
    have hle := h hw
    have htally := tally_update_add PC.looks s.pc t .wake
    have hlt : s.counter.toNat < max.toNat := hi.add t hpc
    have hmore : (s.counter + 1).toNat = s.counter.toNat + 1 := by
      rw [UInt64.toNat_add]
      exact Nat.mod_eq_of_lt (Nat.lt_of_le_of_lt hlt max.toNat_lt)
    simp only [hpc, PC.looks] at htally
    change (s.counter + 1).toNat ≤ tally PC.looks (Function.update s.pc t .wake)
    omega
  | wakesNone t hpc hnone => exact fun hw => absurd hnone hw
  | wakes t w hpc hmem hw =>
    intro _
    have hle := h (List.ne_nil_of_mem hmem)
    have hne : t ≠ w := by
      rintro rfl
      rw [hpc] at hw
      cases hw
    have hwoken := tally_update_add PC.looks s.pc w (.locking .wait)
    have hposts := tally_update_add PC.looks (Function.update s.pc w (.locking .wait)) t
      (.unlocking .post)
    simp only [Function.update_of_ne hne, hpc, hw, PC.looks] at hwoken hposts
    simp only [State.setPC]
    omega
  | sleeps t hpc hidle hzero =>
    -- the low half of the counter is all of it
    have hcounter : s.counter.toNat = 0 := by
      have hbounded : s.counter.toNat ≤ max.toNat := hi.bounded
      have hlow := congrArg UInt32.toNat hzero
      rw [UInt64.toNat_toUInt32] at hlow
      have hmod : s.counter.toNat % 2 ^ 32 = s.counter.toNat := Nat.mod_eq_of_lt (by omega)
      rw [hmod] at hlow
      exact hlow
    intro _
    change s.counter.toNat ≤ _
    omega
  | aborts t op expected hpc hmutex =>
    cases op with
    | wait => exact absurd hpc hstays
    | post =>
      exact Watched.move (s := { s with mutex := unblock s.mutex t .idle }) h
        (by simp [hpc, PC.looks])

end Looks

def PC.posts : PC → Nat
  | .locking .post => 1
  | .add => 1
  | .locking .wait => 0
  | .sub => 0
  | .unlocking .sleep => 0
  | .unlocking .wait => 0
  | .unlocking .post => 0
  | .wake => 0
  | .idle => 0
  | .blocked => 0

def PC.steps (counter : UInt64) : PC → Nat
  | .locking .wait => 3
  | .locking .post => 1
  | .sub => 2
  | .unlocking .sleep => if counter = 0 then 1 else 4
  | .unlocking .wait => 1
  | .unlocking .post => 1
  | .wake => 5
  | .idle => 0
  | .add => 0
  | .blocked => 0

def State.cells (s : State Thread) (t : Thread) : PC × Fmutex.PC := (s.pc t, s.mutex.pc t)

def pends (c : PC × Fmutex.PC) : Nat := if c.1.locks = true ∧ c.2 = .idle then 1 else 0

section Ranks

variable [Fintype Thread] {val max : UInt64} {s s' : State Thread} {l : Label Thread} {t : Thread}
  {p : PC}

def State.upper (s : State Thread) : Nat := tiers 5 PC.posts (PC.steps s.counter) s.pc

def lockRoom (Thread : Type u) [Fintype Thread] : Nat := 10 * Fintype.card Thread + 6

def State.rank (s : State Thread) : Nat :=
  s.upper * (lockRoom Thread + 1) + tally pends s.cells * lockRoom Thread + s.mutex.rank

theorem PC.steps_le (counter : UInt64) (p : PC) : p.steps counter ≤ 5 := by
  cases p with
  | unlocking after =>
    cases after with
    | sleep =>
      simp only [PC.steps]
      split_ifs <;> omega
    | _ => simp [PC.steps]
  | locking op => cases op <;> simp [PC.steps]
  | _ => simp [PC.steps]

theorem pends_le (c : PC × Fmutex.PC) : pends c ≤ 1 := by
  rw [pends]
  split_ifs <;> omega

theorem rank_lt_of_upper (hupper : s'.upper < s.upper) (hmutex : s'.mutex = s.mutex)
    (hpends : tally pends s'.cells ≤ tally pends s.cells + 1) : s'.rank < s.rank := by
  have hmore := Nat.mul_le_mul_right (lockRoom Thread) hpends
  have hless := Nat.mul_le_mul_right (lockRoom Thread + 1) (Nat.succ_le_of_lt hupper)
  rw [Nat.succ_mul] at hmore hless
  rw [State.rank, State.rank, hmutex]
  omega

variable [DecidableEq Thread]

omit [Fintype Thread] in
theorem cells_setPC (s : State Thread) (t : Thread) (p : PC) :
    (s.setPC t p).cells = Function.update s.cells t (p, s.mutex.pc t) := by
  funext u
  by_cases hu : u = t
  · subst hu
    simp [State.cells, State.setPC]
  · simp [State.cells, State.setPC, hu]

omit [Fintype Thread] in
theorem cells_mutex (s : State Thread) (t : Thread) (m : Fmutex.PC) :
    ({ s with mutex := s.mutex.setPC t m } : State Thread).cells =
      Function.update s.cells t (s.pc t, m) := by
  funext u
  by_cases hu : u = t
  · subst hu
    simp [State.cells]
  · simp [State.cells, Fmutex.State.setPC, hu]

theorem tally_pends_setPC (s : State Thread) (t : Thread) (p : PC) :
    tally pends (s.setPC t p).cells ≤ tally pends s.cells + 1 := by
  have htally := tally_update_add pends s.cells t (p, s.mutex.pc t)
  have hle := pends_le (p, s.mutex.pc t)
  rw [cells_setPC]
  omega

theorem rank_lt_of_posts (h : p.posts < (s.pc t).posts) (counter : UInt64) (increments : Nat) :
    ({ s with counter, increments }.setPC t p).rank < s.rank := by
  refine rank_lt_of_upper (tiers_lt_of_coarse (PC.steps_le counter) ?_) rfl
    (tally_pends_setPC _ t p)
  have hposts := tally_update_add PC.posts s.pc t p
  simp only [State.setPC]
  omega

theorem rank_lt_of_steps (hposts : p.posts = (s.pc t).posts)
    (hsteps : p.steps s.counter < (s.pc t).steps s.counter) : (s.setPC t p).rank < s.rank := by
  refine rank_lt_of_upper (tiers_lt_of_fine (tally_same hposts) ?_) rfl (tally_pends_setPC s t p)
  have htally := tally_update_add (PC.steps s.counter) s.pc t p
  simp only [State.setPC]
  omega

omit [DecidableEq Thread] in
theorem tally_steps_sub (hpos : s.counter ≠ 0) (counter : UInt64) :
    tally (PC.steps counter) s.pc ≤ tally (PC.steps s.counter) s.pc := by
  refine Finset.sum_le_sum fun u _ => ?_
  cases hpc : s.pc u with
  | unlocking after =>
    cases after with
    | sleep =>
      simp only [PC.steps, hpos, ite_false]
      split_ifs <;> omega
    | _ => simp [PC.steps]
  | locking op => cases op <;> simp [PC.steps]
  | _ => simp [PC.steps]

theorem mutex_rank_lock {m : Fmutex.State Thread} (hpc : m.pc t = .idle) :
    (m.setPC t (.cas 0)).rank + 1 ≤ m.rank + lockRoom Thread := by
  have hcalls := tally_update_add Fmutex.PC.calls m.pc t (.cas 0)
  have hsteps := tally_update_add (Fmutex.PC.steps m.locked) m.pc t (.cas 0)
  have hcas : (Fmutex.PC.cas 0).steps m.locked ≤ 3 := by
    simp only [Fmutex.PC.steps]
    split_ifs <;> omega
  rw [hpc] at hcalls hsteps
  have hmul : tally Fmutex.PC.calls (Function.update m.pc t (.cas 0)) =
      tally Fmutex.PC.calls m.pc + 2 := hcalls
  simp only [Fmutex.State.rank, tiers, Fmutex.State.setPC, lockRoom, hmul, Nat.add_mul]
  simp only [Fmutex.PC.steps] at hsteps hcas ⊢
  omega

omit [Fintype Thread] in
theorem pends_mutex {m : Fmutex.State Thread} {lm : Fmutex.Label Thread}
    (hl : s.admits lm = true) (hs : Fmutex.Step s.mutex lm m) (u : Thread) :
    pends (s.pc u, m.pc u) ≤ pends (s.pc u, s.mutex.pc u) := by
  have hidle : (s.pc u).locks = true → m.pc u = .idle → s.mutex.pc u = .idle := by
    have hnot {t : Thread} (hunlocks : (s.pc t).unlocks = true) : (s.pc t).locks ≠ true := by
      cases hpc : s.pc t <;> simp_all [PC.unlocks, PC.locks]
    revert u
    cases hs with
    | lock t | locks t | fails t | blocks t | retries t =>
      exact Fmutex.forall_setPC
        (P := fun u m => (s.pc u).locks = true → m = .idle → s.mutex.pc u = .idle) (by simp)
        fun u _ _ => id
    | unlocks t | finds t | wakesNone t =>
      exact Fmutex.forall_setPC
        (P := fun u m => (s.pc u).locks = true → m = .idle → s.mutex.pc u = .idle)
        (fun hlocks => absurd hlocks (hnot hl)) fun u _ _ => id
    | wakes t w expected hpc hw =>
      refine Fmutex.forall_setPC
        (P := fun u m => (s.pc u).locks = true → m = .idle → s.mutex.pc u = .idle)
        (fun hlocks => absurd hlocks (hnot hl)) fun u _ => ?_
      exact Fmutex.forall_setPC
        (P := fun u m => (s.pc u).locks = true → m = .idle → s.mutex.pc u = .idle) (by simp)
        (fun u _ _ => id) u
  simp only [pends]
  split_ifs with hnew hold
  · omega
  · exact absurd ⟨hnew.1, hidle hnew.1 hnew.2⟩ hold
  · omega
  · omega

theorem Step.rank_lt (hs : Step max s l s') (hown : l.Own) (hi : Inv val max s) :
    s'.rank < s.rank := by
  cases hs with
  | call => exact hown.elim
  | retries => exact hown.elim
  | wakens => exact hown.elim
  | aborts => exact hown.elim
  | leaves => exact hown.elim
  | mutex l m hl hs =>
    cases l with
    | lock t =>
      cases hs with
      | lock _ hpc =>
        have hcells : ({ s with mutex := s.mutex.setPC t (.cas 0) } : State Thread).cells =
            Function.update s.cells t (s.pc t, .cas 0) := cells_mutex s t (.cas 0)
        have htally := tally_update_add pends s.cells t (s.pc t, .cas 0)
        have hnew : pends (s.pc t, .cas 0) = 0 := by simp [pends]
        have hold : pends (s.cells t) = 1 := if_pos ⟨hl, hpc⟩
        have hrank := mutex_rank_lock hpc
        rw [hnew, hold, ← hcells] at htally
        have hless := congrArg (· * lockRoom Thread) htally
        simp only [Nat.add_mul] at hless
        change s.upper * _ + _ + (s.mutex.setPC t (.cas 0)).rank < s.upper * _ + _ + s.mutex.rank
        omega
    | _ =>
      have hpends : tally pends ({ s with mutex := m } : State Thread).cells ≤
          tally pends s.cells := Finset.sum_le_sum fun u _ => pends_mutex hl hs u
      have hmul := Nat.mul_le_mul_right (lockRoom Thread) hpends
      exact Nat.add_lt_add_of_le_of_lt (Nat.add_le_add_left hmul _) (hs.rank_lt trivial)
  | takes t hpc =>
    exact rank_lt_of_steps (by simp [hpc, PC.posts]) (by simp [hpc, PC.steps])
  | finds t hpc hcritical hzero =>
    exact rank_lt_of_steps (by simp [hpc, PC.posts]) (by simp [hpc, hzero, PC.steps])
  | gives t hpc => exact rank_lt_of_steps (by simp [hpc, PC.posts]) (by simp [hpc, PC.steps])
  | full t hpc =>
    exact rank_lt_of_posts (by simp [hpc, PC.posts]) s.counter s.increments
  | adds t hpc => exact rank_lt_of_posts (by simp [hpc, PC.posts]) _ _
  | subs t hpc =>
    have hpos : s.counter ≠ 0 := UInt64.pos_iff_ne_zero.mp (hi.sub t hpc)
    refine rank_lt_of_upper (tiers_lt_of_fine ?_ ?_) rfl (tally_pends_setPC _ t _)
    · exact tally_same (by simp [hpc, PC.posts])
    · have hall := tally_steps_sub hpos (s.counter - 1)
      have htally := tally_update_add (PC.steps (s.counter - 1)) s.pc t (.unlocking .wait)
      simp only [hpc, PC.steps] at htally
      change tally (PC.steps (s.counter - 1)) (Function.update s.pc t (.unlocking .wait)) < _
      omega
  | wakesNone t hpc =>
    exact rank_lt_of_steps (by simp [hpc, PC.posts]) (by simp [hpc, PC.steps])
  | wakes t w hpc hmem hw =>
    have hne : t ≠ w := by
      rintro rfl
      rw [hpc] at hw
      cases hw
    have hkept : Function.update s.pc w (.locking .wait) t = .wake := by
      rw [Function.update_of_ne hne, hpc]
    refine rank_lt_of_upper (tiers_lt_of_fine ?_ ?_) rfl ?_
    · simp only [State.setPC]
      rw [tally_same (by rw [hkept]; rfl), tally_same (by rw [hw]; rfl)]
    · have hwoken := tally_update_add (PC.steps s.counter) s.pc w (.locking .wait)
      have hposts := tally_update_add (PC.steps s.counter)
        (Function.update s.pc w (.locking .wait)) t (.unlocking .post)
      simp only [hkept, hw, PC.steps] at hwoken hposts
      simp only [State.setPC]
      omega
    · have hwoken : tally pends (({ s with waiters := s.waiters.erase w } : State Thread).setPC w
          (.locking .wait)).cells ≤ tally pends s.cells + 1 := tally_pends_setPC _ w _
      have hposts := tally_update_add pends
        (({ s with waiters := s.waiters.erase w } : State Thread).setPC w (.locking .wait)).cells t
        (.unlocking .post, s.mutex.pc t)
      have hzero : pends (.unlocking .post, s.mutex.pc t) = 0 := rfl
      rw [cells_setPC]
      change tally pends (Function.update _ t (.unlocking .post, s.mutex.pc t)) ≤ _
      omega
  | sleeps t hpc =>
    have hlt : (s.setPC t .blocked).rank < s.rank := by
      refine rank_lt_of_steps (by simp [hpc, PC.posts]) ?_
      simp only [hpc, PC.steps]
      split_ifs <;> omega
    exact hlt
  | stays t hpc hidle hlow =>
    have hpos : s.counter ≠ 0 := by
      rintro hzero
      simp [hzero] at hlow
    exact rank_lt_of_steps (by simp [hpc, PC.posts]) (by simp [hpc, hpos, PC.steps])
  | granted t hpc =>
    have hlt : (s.setPC t .idle).rank < s.rank :=
      rank_lt_of_steps (by simp [hpc, PC.posts]) (by simp [hpc, PC.steps])
    exact hlt
  | posted t hpc => exact rank_lt_of_steps (by simp [hpc, PC.posts]) (by simp [hpc, PC.steps])

end Ranks

section Rest

variable [DecidableEq Thread] {val max : UInt64} {s s' : State Thread}
  {tr later : List (State Thread × Label Thread)}

theorem mutex_rests (hrest : (machine Thread val max).Rests Label.Own s)
    {l : Fmutex.Label Thread} (hl : s.admits l = true) : Fmutex.step s.mutex l = none := by
  simpa [machine, step, hl] using hrest (.mutex l) trivial

theorem Placed.locks (h : Placed s) (hrest : (machine Thread val max).Rests Label.Own s)
    (t : Thread) : s.mutex.pc t ≠ .critical ∧
      (s.pc t = .idle ∨ s.pc t = .blocked ∨ (s.pc t).locks = true) := by
  have hin := h.within t
  cases hpc : s.pc t with
  | idle =>
    rw [hpc] at hin
    exact ⟨by rw [show s.mutex.pc t = .idle from hin]; simp, .inl rfl⟩
  | blocked =>
    rw [hpc] at hin
    exact ⟨by rw [show s.mutex.pc t = .idle from hin]; simp, .inr (.inl rfl)⟩
  | locking op =>
    refine ⟨fun hcritical => ?_, .inr (.inr rfl)⟩
    exact absurd (hrest (.load t) trivial) (by simp [machine, step, hpc, hcritical])
  | sub => exact absurd (hrest (.fetchSub t) trivial) (by simp [machine, step, hpc])
  | add => exact absurd (hrest (.fetchAdd t) trivial) (by simp [machine, step, hpc])
  | wake =>
    cases hwaiters : s.waiters with
    | nil =>
      exact absurd (hrest (.futexWake t none) trivial)
        (by simp [machine, step, hpc, futexWake, hwaiters])
    | cons w waiters =>
      have hmem : w ∈ s.waiters := by simp [hwaiters]
      exact absurd (hrest (.futexWake t (some w)) trivial)
        (by simp [machine, step, hpc, futexWake, hmem, (h.waits w).mp hmem])
  | unlocking after =>
    rw [hpc] at hin
    rcases hin with hmutex | hmutex | hmutex
    · refine absurd (mutex_rests hrest ?_) (h.mutex.unlockCas_takes hmutex)
      simp [State.admits, hpc, PC.unlocks]
    · obtain ⟨waiter, hwake⟩ := h.mutex.futexWake_takes hmutex
      refine absurd (mutex_rests hrest ?_) hwake
      simp [State.admits, hpc, PC.unlocks]
    · exact absurd (hrest (.unlocked t) trivial) (by simp [machine, step, hpc, hmutex])

theorem Placed.rests (h : Placed s) (hrest : (machine Thread val max).Rests Label.Own s)
    (t : Thread) : s.pc t = .idle ∨ s.pc t = .blocked := by
  have hmoves (u : Thread) : ¬ (s.mutex.pc u).Moves := by
    intro hu
    have hin := h.within u
    obtain ⟨-, hpc | hpc | hlocks⟩ := h.locks hrest u
    · rw [hpc] at hin
      simp [show s.mutex.pc u = .idle from hin, Fmutex.PC.Moves] at hu
    · rw [hpc] at hin
      simp [show s.mutex.pc u = .idle from hin, Fmutex.PC.Moves] at hu
    · cases hm : s.mutex.pc u with
      | cas expected =>
        exact Fmutex.lockCas_takes hm (mutex_rests hrest (l := .lockCas u) hlocks)
      | wait expected =>
        exact Fmutex.futexWait_takes hm (mutex_rests hrest (l := .futexWait u) hlocks)
      | wake =>
        cases hpc : s.pc u <;> simp_all [PC.locks, PC.Within]
      | _ => simp [hm, Fmutex.PC.Moves] at hu
  obtain ⟨hcritical, hpc | hpc | hlocks⟩ := h.locks hrest t
  · exact .inl hpc
  · exact .inr hpc
  cases hm : s.mutex.pc t with
  | idle => exact absurd (mutex_rests hrest (l := .lock t) hlocks) (by simp [Fmutex.step, hm])
  | critical => exact absurd hm hcritical
  | blocked expected =>
    have hmem : t ∈ s.mutex.waiters := (h.mutex.waits t).mpr ⟨expected, hm⟩
    rcases h.mutex.token (List.ne_nil_of_mem hmem) with hl | ⟨u, hu⟩
    · obtain ⟨u, hu⟩ := h.mutex.taken hl
      exact absurd hu (h.locks hrest u).1
    · exact absurd hu (hmoves u)
  | _ => exact absurd (show (s.mutex.pc t).Moves by rw [hm]; trivial) (hmoves t)

variable [Fintype Thread]

theorem uses_rank (hmax : max.toNat < 2 ^ 32) :
    (machine Thread val max).Uses (fun s => Inv val max s ∧ Placed s ∧ Watched s)
      (fun s l => l.Own ∧ ¬ ExpectsLocked s l) State.rank := by
  intro s l s' ⟨hi, hplaced, hwatched⟩ ⟨hown, hfresh⟩ hs
  have hstays : ¬ GivesUp s l := by
    cases l with
    | interrupt t => exact hown.elim
    | _ => exact id
  exact ⟨⟨inv_step hi hfresh hs, (step_cases hs).placed hplaced,
    (step_cases hs).watched hi hmax hstays hwatched⟩, (step_cases hs).rank_lt hown hi⟩

/-- The semaphore settles: once nobody calls it anew, its calls end after a bounded number of
steps, and a wait that has not ended sleeps on a counter of zero. -/
theorem calls_settle (hval : val ≤ max) (hmax : max.toNat < 2 ^ 32)
    (hr : (machine Thread val max).Run tr s)
    (hfresh : ∀ p ∈ tr, ¬ ExpectsLocked p.1 p.2 ∧ ¬ GivesUp p.1 p.2)
    (hl : ((machine Thread val max).after s).Run later s')
    (hown : ∀ p ∈ later, p.2.Own ∧ ¬ ExpectsLocked p.1 p.2) :
    later.length ≤ s.rank ∧ ((machine Thread val max).Rests Label.Own s' →
      ∀ t, s'.pc t = .idle ∨ s'.pc t = .blocked ∧ s'.counter = 0) := by
  have hinv : Inv val max s ∧ Placed s ∧ Watched s := by
    refine hr.invariant (I := fun s => Inv val max s ∧ Placed s ∧ Watched s)
      (G := fun s l => ¬ ExpectsLocked s l ∧ ¬ GivesUp s l) (fun s hi => ?_)
      (fun s l s' ⟨hi, hplaced, hwatched⟩ hg hs => ?_) hfresh
    · rw [hi.2]
      exact ⟨inv_start hval, placed_start, watched_start⟩
    · exact ⟨inv_step hi hg.1 hs, (step_cases hs).placed hplaced,
        (step_cases hs).watched hi hmax hg.2 hwatched⟩
  obtain ⟨⟨-, hplaced, hwatched⟩, hle⟩ := (uses_rank hmax).length_le hinv hl hown
  refine ⟨by omega, fun hrest t => ?_⟩
  have hall := hplaced.rests hrest
  refine (hall t).imp_right fun hpc => ⟨hpc, ?_⟩
  have hnone : tally PC.looks s'.pc = 0 := tally_zero fun u => by
    rcases hall u with hu | hu <;> rw [hu] <;> rfl
  have hzero := hwatched (List.ne_nil_of_mem ((hplaced.waits t).mpr hpc))
  rw [hnone] at hzero
  exact UInt64.toNat_inj.mp (Nat.le_zero.mp hzero)

theorem calls_settle_posted :
    ∃ (tr later : List (State (Fin 3) × Label (Fin 3))) (s s' : State (Fin 3)),
      (machine (Fin 3) 1 1).Run tr s ∧ tr.length = 16 ∧
        ((machine (Fin 3) 1 1).after s).Run later s' ∧ s'.granted = 2 ∧ later.length = 15 ∧
          later.length ≤ s.rank := by
  obtain ⟨tr, s', hr, htr⟩ := (machine (Fin 3) 1 1).exists_run_of_record (start 1)
    [.call 0 .wait, .mutex (.lock 0), .mutex (.lockCas 0), .load 0, .fetchSub 0,
      .mutex (.unlockCas 0), .mutex (.futexWake 0 none), .unlocked 0,
      .call 1 .wait, .mutex (.lock 1), .mutex (.lockCas 1), .load 1, .mutex (.unlockCas 1),
      .mutex (.futexWake 1 none), .unlocked 1,
      .call 2 .post, .mutex (.lock 2), .mutex (.lockCas 2), .load 2, .fetchAdd 2,
      .futexWake 2 (some 1), .mutex (.unlockCas 2), .mutex (.futexWake 2 none), .unlocked 2,
      .mutex (.lock 1), .mutex (.lockCas 1), .load 1, .fetchSub 1, .mutex (.unlockCas 1),
      .mutex (.futexWake 1 none), .unlocked 1]
    (fun tr s' => s'.granted = 2 ∧ (tr.drop 15).length = 16 ∧ (tr.take 15).length = 15 ∧
      (∀ p ∈ tr.drop 15, ¬ ExpectsLocked p.1 p.2 ∧ ¬ GivesUp p.1 p.2) ∧
        ∀ p ∈ tr.take 15, p.2.Own ∧ ¬ ExpectsLocked p.1 p.2) ⟨by decide, rfl⟩ (by decide)
  simp only [decide_eq_true_eq] at htr
  obtain ⟨hgranted, hbefore, hlength, hfresh, hown⟩ := htr
  rw [← List.take_append_drop 15 tr] at hr
  obtain ⟨s, hr, hl⟩ := hr.split
  exact ⟨tr.drop 15, tr.take 15, s, s', hr, hbefore, hl, hgranted, hlength,
    (calls_settle (by decide) (by decide) hr hfresh hl hown).1⟩

end Rest

end Dert.Fsemaphore
