import Dert.Pool.GtpoolrrPops

namespace Dert.Gtpoolrr

open Library

variable {threadsTotal jobsPerThread : Nat}

def State.Left (w : State jobsPerThread) : Prop := ∃ why, w.pc = .left why

def Main.WaitsFor (k : Fin threadsTotal) : Main threadsTotal → Prop
  | .endSet _ i => i = k
  | .endTest _ i => i = k
  | _ => False

def Main.Asks : Main threadsTotal → Prop
  | .set state _ => threadAlreadyDone state = false
  | .endSet state _ => threadAlreadyDone state = true
  | .endTest state _ => threadAlreadyDone state = true
  | _ => True

/-- How worker `k` gets into a final state: the main thread asks for one and waits, the worker
leaves its loop, and its destructor sets the state. -/
structure Exits (main : Main threadsTotal) (k : Fin threadsTotal) (w : State jobsPerThread) :
    Prop where
  destructed : w.exit = .destructed ↔ threadAlreadyDone w.currentState = true
  left : w.exit ≠ .pending → w.Left
  asked : threadAlreadyDone w.desiredState = true → w.exit = .destructed ∨ main.WaitsFor k
  told : w.pc = .joinTest ∨ w.Left ∧ w.exit = .pending → threadAlreadyDone w.desiredState = true

section Workers

variable {main main' : Main threadsTotal} {k : Fin threadsTotal} {w w' : State jobsPerThread}
  {l : Label}

theorem Exits.pending (h : Exits main k w) (hleft : ¬ w.Left) : w.exit = .pending := by
  by_contra hexit
  exact hleft (h.left hexit)

theorem Exits.left_of_done (h : Exits main k w) (hdone : threadAlreadyDone w.currentState = true) :
    w.Left :=
  h.left (by rw [h.destructed.mpr hdone]; decide)

theorem Exits.waits (h : Exits main k w) (hwaits : main.WaitsFor k → main'.WaitsFor k) :
    Exits main' k w :=
  ⟨h.destructed, h.left, fun hdone => (h.asked hdone).imp_right hwaits, h.told⟩

theorem exits_start (main : Main threadsTotal) (k : Fin threadsTotal) (ring : Bool)
    (memory : VpoolMemory) (greenThreads : Nat) :
    Exits main k (start ring memory greenThreads : State jobsPerThread) := by
  refine ⟨iff_of_false (by simp [start]) Bool.false_ne_true, fun hne => absurd rfl hne,
    fun hdone => absurd hdone Bool.false_ne_true, fun htold => ?_⟩
  have hpc : (start ring memory greenThreads : State jobsPerThread).pc = .forEachCqe ∨
    (start ring memory greenThreads : State jobsPerThread).pc = .noRing := start_pc ..
  rcases htold with hjoin | ⟨⟨why, hleft⟩, -⟩
  · rcases hpc with hpc | hpc <;> cases hpc.symm.trans hjoin
  · rcases hpc with hpc | hpc <;> cases hpc.symm.trans hleft

theorem Exits.inLoop (h : Exits main k w) (hleft : ¬ w.Left)
    (hcurrent : threadAlreadyDone w'.currentState = threadAlreadyDone w.currentState)
    (hdesired : w'.desiredState = w.desiredState) (hexit : w'.exit = w.exit)
    (htold : w'.pc = .joinTest ∨ w'.Left → threadAlreadyDone w.desiredState = true) :
    Exits main k w' := by
  refine ⟨?_, fun hne => absurd (hexit.trans (h.pending hleft)) hne, ?_, fun ht => ?_⟩
  · rw [hexit, hcurrent]
    exact h.destructed
  · rw [hexit, hdesired]
    exact h.asked
  · rw [hdesired]
    exact htold (ht.imp_right And.left)

theorem Exits.not_done (h : Exits main k w) (hleft : ¬ w.Left) :
    threadAlreadyDone w.currentState = false := by
  rw [← Bool.not_eq_true, ← h.destructed, h.pending hleft]
  decide

theorem not_left_of_pc {pc : Pc} (hpc : w.pc = pc) (hne : ∀ why, pc ≠ .left why) : ¬ w.Left := by
  rintro ⟨why, hleft⟩
  exact hne why (hpc.symm.trans hleft)

theorem Exits.step (h : Exits main k w) (hs : Step w l w') (hown : l.own = true) :
    Exits main k w' := by
  cases hs
  case active hpc _ =>
    have hleft := not_left_of_pc hpc (by simp)
    exact h.inLoop hleft (h.not_done hleft).symm rfl rfl (by simp [State.Left])
  case paused hpc _ =>
    have hleft := not_left_of_pc hpc (by simp)
    exact h.inLoop hleft (h.not_done hleft).symm rfl rfl (by simp [State.Left])
  case joining hpc hjoining =>
    exact h.inLoop (not_left_of_pc hpc (by simp)) rfl rfl rfl fun _ => by rw [hjoining]; rfl
  case stopped why hpc hdesired hwhy =>
    refine h.inLoop (not_left_of_pc hpc (by simp)) rfl rfl rfl fun _ => ?_
    rw [hdesired]
    rcases hwhy with rfl | rfl <;> rfl
  case joined hpc _ _ _ =>
    exact h.inLoop (not_left_of_pc hpc (by simp)) rfl rfl rfl fun _ => h.told (.inl hpc)
  case destructed hpc hexit =>
    have hdone := h.told (.inr ⟨⟨_, hpc⟩, hexit⟩)
    exact ⟨iff_of_true rfl hdone, fun _ => ⟨_, hpc⟩, fun _ => .inl rfl, fun _ => hdone⟩
  case unkeyed hpc hexit =>
    have hdone := h.told (.inr ⟨⟨_, hpc⟩, hexit⟩)
    have hnot : ¬ threadAlreadyDone w.currentState = true := by
      rw [← h.destructed, hexit]
      decide
    refine ⟨iff_of_false (by simp) hnot, fun _ => ⟨_, hpc⟩, fun _ => .inr ?_, fun _ => hdone⟩
    exact (h.asked hdone).resolve_left (by rw [hexit]; decide)
  case posted => exact ⟨h.destructed, h.left, h.asked, h.told⟩
  case acked => exact ⟨h.destructed, h.left, h.asked, h.told⟩
  case pushed => cases hown
  case submissionFull => cases hown
  case popped => cases hown
  case nonePopped => cases hown
  case desired => cases hown
  all_goals
    refine h.inLoop ?_ rfl rfl rfl ?_
    · simp_all [State.Left]
    · simp_all [State.Left]

theorem Exits.queues (h : Exits main k w) (hpc : w'.pc = w.pc)
    (hcurrent : w'.currentState = w.currentState) (hdesired : w'.desiredState = w.desiredState)
    (hexit : w'.exit = w.exit) : Exits main k w' := by
  obtain ⟨hdestructed, hleft, hasked, htold⟩ := h
  refine ⟨?_, ?_, ?_, ?_⟩
  · rwa [hexit, hcurrent]
  · rwa [hexit, State.Left, hpc]
  · rwa [hdesired, hexit]
  · rwa [hpc, State.Left, hpc, hexit, hdesired]

theorem Exits.lifted (h : Exits main k w) (hwaits : ¬ main.WaitsFor k)
    {state : GtpoolrrThreadState} (hstate : threadAlreadyDone state = false) :
    Exits main k { w with desiredState := state } := by
  refine ⟨h.destructed, h.left, fun hdone => ?_, fun htold => ?_⟩
  · rw [hstate] at hdone
    cases hdone
  · have hexit := (h.asked (h.told htold)).resolve_right hwaits
    obtain ⟨why, hleft⟩ := h.left (by rw [hexit]; decide)
    rcases htold with hpc | ⟨-, hpending⟩
    · cases hpc.symm.trans hleft
    · cases hpending.symm.trans hexit

theorem Exits.told_final (h : Exits main k w) (hwaits : main'.WaitsFor k)
    {state : GtpoolrrThreadState} (hstate : threadAlreadyDone state = true) :
    Exits main' k { w with desiredState := state } :=
  ⟨h.destructed, h.left, fun _ => .inr hwaits, fun _ => hstate⟩

end Workers

section Pools

theorem asks_enter (call : Call threadsTotal) : (enter call).Asks := by
  cases call <;> simp only [enter] <;> try trivial
  all_goals split_ifs <;> trivial

theorem asks_popped (popper : Popper) (n : Nat) : (popper.popped n : Main threadsTotal).Asks := by
  cases popper <;> simp only [Popper.popped] <;> try trivial
  all_goals split_ifs <;> trivial

theorem asks_busy (popper : Popper) : (popper.busy : Main threadsTotal).Asks := by
  cases popper <;> trivial

variable [NeZero threadsTotal] {s s' : Pool threadsTotal jobsPerThread}
  {l : PoolLabel threadsTotal} {index k : Fin threadsTotal}

/-- Every worker of the pool gets into a final state in this way only. -/
structure Leaves (s : Pool threadsTotal jobsPerThread) : Prop where
  exits : ∀ k, Exits s.main k (s.workers k)
  asks : s.main.Asks

section

omit [NeZero threadsTotal]

theorem exits_set (h : ∀ k, Exits s.main k (s.workers k)) {main : Main threadsTotal}
    {worker : State jobsPerThread} (hworker : Exits main index worker)
    (hothers : ∀ k ≠ index, s.main.WaitsFor k → main.WaitsFor k) (k : Fin threadsTotal) :
    Exits main k ((s.set index worker).workers k) := by
  by_cases hk : k = index
  · subst hk
    rwa [set_workers_self]
  · rw [set_workers_of_ne worker hk]
    exact (h k).waits (hothers k hk)

theorem Leaves.free (h : Leaves s) (hwaits : ∀ k, ¬ s.main.WaitsFor k) (main : Main threadsTotal)
    (k : Fin threadsTotal) : Exits main k (s.workers k) :=
  (h.exits k).waits fun hwait => absurd hwait (hwaits k)

theorem Leaves.free_set (h : Leaves s) (hwaits : ∀ k, ¬ s.main.WaitsFor k)
    (main : Main threadsTotal) {worker : State jobsPerThread}
    (hworker : Exits s.main index worker) (k : Fin threadsTotal) :
    Exits main k ((s.set index worker).workers k) :=
  (exits_set h.exits hworker (fun _ _ => id) k).waits fun hwait => absurd hwait (hwaits k)

end

theorem Leaves.mainStep (h : Leaves s) (hs : MainStep s s') : Leaves s' := by
  have hasks := h.asks
  cases hs with
  | pushRr job jobs i submissionQueue hmain =>
    have hwaits (k : Fin threadsTotal) : ¬ s.main.WaitsFor k := by rw [hmain]; exact id
    exact ⟨h.free_set hwaits _ ((h.exits _).queues rfl rfl rfl rfl), trivial⟩
  | pushDirect job jobs index submissionQueue hmain =>
    have hwaits (k : Fin threadsTotal) : ¬ s.main.WaitsFor k := by rw [hmain]; exact id
    exact ⟨h.free_set hwaits _ ((h.exits _).queues rfl rfl rfl rfl), trivial⟩
  | pushEnd hmain =>
    have hwaits (k : Fin threadsTotal) : ¬ s.main.WaitsFor k := by
      rcases hmain with ⟨_, hmain⟩ | ⟨_, hmain⟩ <;> rw [hmain] <;> exact id
    exact ⟨h.free hwaits _, trivial⟩
  | pushFails res hmain =>
    have hwaits (k : Fin threadsTotal) : ¬ s.main.WaitsFor k := by
      rcases hmain with ⟨_, _, hmain, -⟩ | ⟨_, _, hmain, -⟩ <;> rw [hmain] <;> exact id
    exact ⟨h.free hwaits _, trivial⟩
  | cpsPop popper i _ hmain hs =>
    have hwaits (k : Fin threadsTotal) : ¬ s.main.WaitsFor k := by rw [hmain]; exact id
    cases hs with
    | popped =>
      exact ⟨h.free_set hwaits _ ((h.exits _).queues rfl rfl rfl rfl), asks_popped popper _⟩
    | none => exact ⟨h.free hwaits _, trivial⟩
    | busy => exact ⟨h.free hwaits _, asks_busy popper⟩
  | set state i hi hmain =>
    have hwaits (k : Fin threadsTotal) : ¬ s.main.WaitsFor k := by rw [hmain]; exact id
    rw [hmain] at hasks
    exact ⟨h.free_set hwaits _ ((h.exits _).lifted (hwaits _) hasks), hasks⟩
  | setEnd state i hmain =>
    have hwaits (k : Fin threadsTotal) : ¬ s.main.WaitsFor k := by rw [hmain]; exact id
    exact ⟨h.free hwaits _, trivial⟩
  | endSet state i hi hmain =>
    rw [hmain] at hasks
    have hwait : (Main.endTest state ⟨i, hi⟩ : Main threadsTotal).WaitsFor ⟨i, hi⟩ := rfl
    refine ⟨exits_set h.exits ((h.exits _).told_final hwait hasks) fun k hk hwaits => ?_, hasks⟩
    rw [hmain] at hwaits
    exact absurd (Fin.ext hwaits.symm) hk
  | ended state i hmain hi =>
    have hwaits (k : Fin threadsTotal) : ¬ s.main.WaitsFor k := by
      rw [hmain]
      exact fun hik => absurd k.isLt (Nat.not_lt.mpr (hik ▸ hi))
    exact ⟨h.free hwaits _, trivial⟩
  | endDone state i hmain hdone =>
    rw [hmain] at hasks
    refine ⟨fun k => ?_, hasks⟩
    have hk := h.exits k
    refine ⟨hk.destructed, hk.left, fun hdesired => .inl ?_, hk.told⟩
    rcases hk.asked hdesired with hexit | hwaits
    · exact hexit
    · rw [hmain] at hwaits
      have hik : i = k := hwaits
      rw [hik] at hdone
      exact hk.destructed.mpr hdone
  | endAgain state i hmain hdone =>
    rw [hmain] at hasks
    refine ⟨fun k => (h.exits k).waits fun hwaits => ?_, hasks⟩
    rw [hmain] at hwaits
    have hik : i = k := hwaits
    rw [hik]
    rfl

theorem Leaves.step (h : Leaves s) (hs : PoolStep s l s') : Leaves s' := by
  cases hs with
  | worker _ index own worker hpart hw =>
    exact ⟨exits_set h.exits ((h.exits index).step (step_cases hw) (part_own hpart))
      fun k _ => id, h.asks⟩
  | called call res hmain =>
    refine ⟨fun k => (h.exits k).waits fun hwaits => ?_, asks_enter call⟩
    rw [hmain] at hwaits
    exact hwaits.elim
  | main _ _ hs => exact h.mainStep hs

omit [NeZero threadsTotal] in
theorem leaves_start (ring : Fin threadsTotal → Bool) (memory : Fin threadsTotal → VpoolMemory)
    (greenThreads : Fin threadsTotal → Nat) :
    Leaves (startPool ring memory greenThreads : Pool threadsTotal jobsPerThread) :=
  ⟨fun k => exits_start _ k (ring k) (memory k) (greenThreads k), trivial⟩

end Pools

end Dert.Gtpoolrr
