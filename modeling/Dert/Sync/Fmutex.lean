import Dert.Base.Prelude
import Dert.Library.Machine
import Mathlib.Logic.Function.Basic

universe u

namespace Dert.Fmutex

/-- Where a thread stands.  `cas` and `wait` are the condition and the body of the
retry loop of `fmutex_lock`, with its local `expected`; a thread is `critical` once
that call has returned zero. -/
inductive PC
  | idle
  | cas (expected : UInt32)
  | wait (expected : UInt32)
  | blocked (expected : UInt32)
  | critical
  | wake
  deriving DecidableEq

/-- The shared word, the kernel's wait queue on it and every thread's position. -/
structure State (Thread : Type u) where
  locked : UInt32
  waiters : List Thread
  pc : Thread → PC

inductive Label (Thread : Type u)
  | lock (t : Thread)
  | lockCas (t : Thread)
  | futexWait (t : Thread)
  | unlockCas (t : Thread)
  | futexWake (t : Thread) (waiter : Option Thread)

variable {Thread : Type u} [DecidableEq Thread]

def State.setPC (s : State Thread) (t : Thread) (p : PC) : State Thread :=
  { s with pc := Function.update s.pc t p }

@[simp] theorem State.setPC_locked (s : State Thread) (t : Thread) (p : PC) :
    (s.setPC t p).locked = s.locked := rfl

@[simp] theorem State.setPC_same (s : State Thread) (t : Thread) (p : PC) :
    (s.setPC t p).pc t = p := by simp [State.setPC]

theorem State.setPC_other (s : State Thread) {t u : Thread} (h : u ≠ t) (p : PC) :
    (s.setPC t p).pc u = s.pc u := by simp [State.setPC, h]

def lockCas (s : State Thread) (t : Thread) (expected : UInt32) : State Thread :=
  match compareExchange s.locked expected 1 with
  | (true, word, _) => { s with locked := word }.setPC t .critical
  | (false, _, seen) => s.setPC t (.wait seen)

/-- `FUTEX_WAIT` on the value `true`: it blocks while the word is 1, else it fails
with `EAGAIN` and the loop goes round. -/
def futexWait (s : State Thread) (t : Thread) (expected : UInt32) : State Thread :=
  if s.locked = 1 then { s with waiters := s.waiters ++ [t] }.setPC t (.blocked expected)
  else s.setPC t (.cas expected)

/-- The compare-exchange of `fmutex_unlock`; its failure branch asserts that the
word was 0. -/
def unlockCas (s : State Thread) (t : Thread) : Option (State Thread) :=
  match compareExchange s.locked 1 0 with
  | (true, word, _) => some ({ s with locked := word }.setPC t .wake)
  | (false, _, seen) => if seen = 0 then some (s.setPC t .idle) else none

/-- `FUTEX_WAKE` of one waiter, which the kernel chooses; a woken thread returns to
the compare-exchange with the `expected` it had. -/
def futexWake (s : State Thread) (t : Thread) : Option Thread → Option (State Thread)
  | none => if s.waiters = [] then some (s.setPC t .idle) else none
  | some w =>
    match s.pc w with
    | .blocked expected =>
      if w ∈ s.waiters then
        some (({ s with waiters := s.waiters.erase w }.setPC w (.cas expected)).setPC t .idle)
      else none
    | _ => none

def step (s : State Thread) : Label Thread → Option (State Thread)
  | .lock t => if s.pc t = .idle then some (s.setPC t (.cas 0)) else none
  | .lockCas t =>
    match s.pc t with
    | .cas expected => some (lockCas s t expected)
    | _ => none
  | .futexWait t =>
    match s.pc t with
    | .wait expected => some (futexWait s t expected)
    | _ => none
  | .unlockCas t => if s.pc t = .critical then unlockCas s t else none
  | .futexWake t waiter => if s.pc t = .wake then futexWake s t waiter else none

def init : State Thread where
  locked := 0
  waiters := []
  pc := fun _ => .idle

def machine (Thread : Type u) [DecidableEq Thread] :
    Library.Machine (State Thread) (Label Thread) where
  init := (· = init)
  step := step

/-- At most one thread is between an `fmutex_lock` that returned zero and the
`fmutex_unlock` that matches it. -/
def MutualExclusion (s : State Thread) : Prop :=
  ∀ t u, s.pc t = .critical → s.pc u = .critical → t = u

/-- The step is a compare-exchange of `fmutex_lock` that expects 1 and finds it. -/
def ExpectsLocked (s : State Thread) (l : Label Thread) : Prop :=
  ∃ t, l = .lockCas t ∧ s.pc t = .cas 1 ∧ s.locked = 1

omit [DecidableEq Thread] in
theorem expectsLocked_lockCas {s : State Thread} {t : Thread} :
    ExpectsLocked s (.lockCas t) ↔ s.pc t = .cas 1 ∧ s.locked = 1 := by
  constructor
  · rintro ⟨u, hl, h⟩
    cases hl
    exact h
  · exact fun h => ⟨t, rfl, h⟩

instance decidableExpectsLocked (s : State Thread) : (l : Label Thread) →
    Decidable (ExpectsLocked s l)
  | .lockCas _ => decidable_of_iff _ expectsLocked_lockCas.symm
  | .lock _ => isFalse (by simp [ExpectsLocked])
  | .futexWait _ => isFalse (by simp [ExpectsLocked])
  | .unlockCas _ => isFalse (by simp [ExpectsLocked])
  | .futexWake _ _ => isFalse (by simp [ExpectsLocked])

end Dert.Fmutex
