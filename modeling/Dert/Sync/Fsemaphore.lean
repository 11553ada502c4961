import Dert.Sync.Fmutex

universe u

namespace Dert.Fsemaphore

inductive Op
  | wait
  | post
  deriving DecidableEq

/-- What follows an `fmutex_unlock`: the `FUTEX_WAIT` on the counter, or the return of a
call. -/
inductive After
  | sleep
  | wait
  | post
  deriving DecidableEq

/-- Where a thread stands.  It is `locking` from the call of `fmutex_lock` to the load of the
counter, and `unlocking` in `fmutex_unlock`. -/
inductive PC
  | idle
  | locking (op : Op)
  | sub
  | add
  | wake
  | unlocking (after : After)
  | blocked
  deriving DecidableEq

/-- The semaphore with its mutex, the kernel's wait queue on the counter, and every thread's
position.  The last three count the steps that add to the counter, those that subtract, and
the waits that have returned zero. -/
structure State (Thread : Type u) where
  mutex : Fmutex.State Thread
  counter : UInt64
  waiters : List Thread
  pc : Thread → PC
  increments : Nat
  decrements : Nat
  granted : Nat

/-- `spurious` ends a `FUTEX_WAIT` with zero though nobody woke the thread, and `interrupt`
ends it with `EINTR`. -/
inductive Label (Thread : Type u)
  | call (t : Thread) (op : Op)
  | mutex (l : Fmutex.Label Thread)
  | load (t : Thread)
  | fetchSub (t : Thread)
  | fetchAdd (t : Thread)
  | futexWake (t : Thread) (waiter : Option Thread)
  | unlocked (t : Thread)
  | spurious (t : Thread)
  | interrupt (t : Thread)

variable {Thread : Type u} [DecidableEq Thread]

def State.setPC (s : State Thread) (t : Thread) (p : PC) : State Thread :=
  { s with pc := Function.update s.pc t p }

@[simp] theorem State.setPC_same (s : State Thread) (t : Thread) (p : PC) :
    (s.setPC t p).pc t = p := by simp [State.setPC]

theorem State.setPC_other (s : State Thread) {t u : Thread} (h : u ≠ t) (p : PC) :
    (s.setPC t p).pc u = s.pc u := by simp [State.setPC, h]

def PC.locks : PC → Bool
  | .locking _ => true
  | _ => false

def PC.unlocks : PC → Bool
  | .unlocking _ => true
  | _ => false

omit [DecidableEq Thread] in
def State.admits (s : State Thread) : Fmutex.Label Thread → Bool
  | .lock t => (s.pc t).locks
  | .lockCas t => (s.pc t).locks
  | .futexWait t => (s.pc t).locks
  | .unlockCas t => (s.pc t).unlocks
  | .futexWake t _ => (s.pc t).unlocks

def load (s : State Thread) (max : UInt64) (t : Thread) : Op → State Thread
  | .wait => if 0 < s.counter then s.setPC t .sub else s.setPC t (.unlocking .sleep)
  | .post => if s.counter = max then s.setPC t (.unlocking .post) else s.setPC t .add

def fetchSub (s : State Thread) (t : Thread) : State Thread :=
  { s with counter := s.counter - 1, decrements := s.decrements + 1 }.setPC t (.unlocking .wait)

def fetchAdd (s : State Thread) (t : Thread) : State Thread :=
  { s with counter := s.counter + 1, increments := s.increments + 1 }.setPC t .wake

def futexWake (s : State Thread) (t : Thread) : Option Thread → Option (State Thread)
  | none => if s.waiters = [] then some (s.setPC t (.unlocking .post)) else none
  | some w =>
    if w ∈ s.waiters ∧ s.pc w = .blocked then
      some (({ s with waiters := s.waiters.erase w }.setPC w (.locking .wait)).setPC t
        (.unlocking .post))
    else none

/-- What a thread does after `fmutex_unlock`.  `FUTEX_WAIT` compares the low 32 bits of the
counter. -/
def unlocked (s : State Thread) (t : Thread) : After → State Thread
  | .sleep =>
    if s.counter.toUInt32 = 0 then { s with waiters := s.waiters ++ [t] }.setPC t .blocked
    else s.setPC t (.locking .wait)
  | .wait => { s with granted := s.granted + 1 }.setPC t .idle
  | .post => s.setPC t .idle

def unblock (m : Fmutex.State Thread) (t : Thread) (p : Fmutex.PC) : Fmutex.State Thread :=
  { m with waiters := m.waiters.erase t }.setPC t p

def spurious (s : State Thread) (t : Thread) : Option (State Thread) :=
  match s.pc t, s.mutex.pc t with
  | .locking _, .blocked expected => some { s with mutex := unblock s.mutex t (.cas expected) }
  | .blocked, _ => some ({ s with waiters := s.waiters.erase t }.setPC t (.locking .wait))
  | _, _ => none

def interrupt (s : State Thread) (t : Thread) : Option (State Thread) :=
  match s.pc t, s.mutex.pc t with
  | .locking _, .blocked _ => some ({ s with mutex := unblock s.mutex t .idle }.setPC t .idle)
  | .blocked, _ => some ({ s with waiters := s.waiters.erase t }.setPC t .idle)
  | _, _ => none

def step (max : UInt64) (s : State Thread) : Label Thread → Option (State Thread)
  | .call t op => if s.pc t = .idle then some (s.setPC t (.locking op)) else none
  | .mutex l =>
    if s.admits l then (Fmutex.step s.mutex l).map fun m => { s with mutex := m } else none
  | .load t =>
    match s.pc t with
    | .locking op => if s.mutex.pc t = .critical then some (load s max t op) else none
    | _ => none
  | .fetchSub t => if s.pc t = .sub then some (fetchSub s t) else none
  | .fetchAdd t => if s.pc t = .add then some (fetchAdd s t) else none
  | .futexWake t waiter => if s.pc t = .wake then futexWake s t waiter else none
  | .unlocked t =>
    match s.pc t with
    | .unlocking after => if s.mutex.pc t = .idle then some (unlocked s t after) else none
    | _ => none
  | .spurious t => spurious s t
  | .interrupt t => interrupt s t

omit [DecidableEq Thread] in
def start (val : UInt64) : State Thread where
  mutex := Fmutex.init
  counter := val
  waiters := []
  pc := fun _ => .idle
  increments := 0
  decrements := 0
  granted := 0

def machine (Thread : Type u) [DecidableEq Thread] (val max : UInt64) :
    Library.Machine (State Thread) (Label Thread) where
  init s := max ≠ 0 ∧ s = start val
  step := step max

/-- The counter is what was never taken of `val` and of the increments, it is at most `max`,
and no more waits were granted than there was to take. -/
structure Grants (val max : UInt64) (s : State Thread) : Prop where
  counter : s.counter.toNat + s.decrements = val.toNat + s.increments
  bounded : s.counter ≤ max
  granted : s.granted ≤ val.toNat + s.increments

def ExpectsLocked (s : State Thread) (l : Label Thread) : Prop :=
  ∃ m, l = .mutex m ∧ Fmutex.ExpectsLocked s.mutex m

omit [DecidableEq Thread] in
theorem expectsLocked_mutex {s : State Thread} {m : Fmutex.Label Thread} :
    ExpectsLocked s (.mutex m) ↔ Fmutex.ExpectsLocked s.mutex m := by
  constructor
  · rintro ⟨m', hl, h⟩
    cases hl
    exact h
  · exact fun h => ⟨m, rfl, h⟩

instance decidableExpectsLocked (s : State Thread) (l : Label Thread) :
    Decidable (ExpectsLocked s l) :=
  match l with
  | .mutex _ => decidable_of_iff _ expectsLocked_mutex.symm
  | .call _ _ => isFalse (by simp [ExpectsLocked])
  | .load _ => isFalse (by simp [ExpectsLocked])
  | .fetchSub _ => isFalse (by simp [ExpectsLocked])
  | .fetchAdd _ => isFalse (by simp [ExpectsLocked])
  | .futexWake _ _ => isFalse (by simp [ExpectsLocked])
  | .unlocked _ => isFalse (by simp [ExpectsLocked])
  | .spurious _ => isFalse (by simp [ExpectsLocked])
  | .interrupt _ => isFalse (by simp [ExpectsLocked])

end Dert.Fsemaphore
