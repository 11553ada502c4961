import Dert.Pool.TpoolrrAssign

namespace Dert.Tpoolrr

open Library

variable {threadsTotal jobsPerThread : Nat} [NeZero threadsTotal]

section Turns

variable {call a a' : Assigning threadsTotal jobsPerThread} {l : Assigns threadsTotal}
  {tr : List (Assigning threadsTotal jobsPerThread × Assigns threadsTotal)} {i : Nat}
  {pool next : State threadsTotal jobsPerThread} {held : Option (Fin threadsTotal)}

def State.turn (s : State threadsTotal jobsPerThread) (i : Nat) : Fin threadsTotal :=
  Fin.ofNat threadsTotal (sizeT (s.rrIndex + i))

def Assigning.turns (call : Assigning threadsTotal jobsPerThread) (n : Nat) :
    List (Fin threadsTotal × TpoolrrJob) :=
  ((List.range n).map call.pool.turn).map fun k => (k, call.job)

theorem turns_succ (call : Assigning threadsTotal jobsPerThread) (n : Nat) :
    call.turns (n + 1) = call.turns n ++ [(call.pool.turn n, call.job)] := by
  simp [Assigning.turns, List.range_succ]

omit [NeZero threadsTotal] in
theorem putOn_map (k : Fin threadsTotal) (indices : List (Fin threadsTotal)) (job : TpoolrrJob) :
    putOn k (indices.map fun index => (index, job)) = List.replicate (indices.count k) job := by
  induction indices with
  | nil => rfl
  | cons index indices ih =>
    rw [List.map_cons, ← List.singleton_append, putOn_append, ih]
    by_cases hk : k = index
    · subst hk
      rw [putOn_self, List.count_cons_self, List.replicate_succ]
      rfl
    · rw [putOn_of_ne hk, List.count_cons_of_ne (Ne.symm hk), List.nil_append]

structure Added (call : Assigning threadsTotal jobsPerThread) (i : Nat)
    (held : Option (Fin threadsTotal)) (pool : State threadsTotal jobsPerThread) : Prop where
  accepted : pool.accepted = call.pool.accepted ++ call.turns i
  rrIndex : pool.rrIndex = sizeT (call.pool.rrIndex + i)
  unlocked : ∀ k, held ≠ some k → (pool.threads k).conditionMutex = none

inductive Within (call : Assigning threadsTotal jobsPerThread) (i : Nat) :
    Option (Fin threadsTotal) → Main threadsTotal → Prop
  | scan : Within call i none (.jobsAddScan call.job 0)
  | enqueue : Within call i none (.jobsAddEnqueue call.job (call.pool.turn i))
  | lock : Within call i none (.jobsAddLock call.job (call.pool.turn i))
  | signal : Within call i (some (call.pool.turn i)) (.jobsAddSignal call.job (call.pool.turn i))
  | unlock : Within call i (some (call.pool.turn i)) (.jobsAddUnlock call.job (call.pool.turn i))

theorem Added.index_eq (h : Added call i held pool) : pool.index 0 = call.pool.turn i := by
  rw [State.index, Nat.zero_add, h.rrIndex, State.turn, sizeT, sizeT, Nat.mod_mod]

theorem Added.set (h : Added call i held pool) {index : Fin threadsTotal}
    {t : Thread jobsPerThread} (ht : held ≠ some index → t.conditionMutex = none) :
    Added call i held (pool.set index t) := by
  refine ⟨h.accepted, h.rrIndex, fun k => ?_⟩
  exact set_forall (P := fun k t => held ≠ some k → t.conditionMutex = none) ht
    (fun k _ => h.unlocked k) k

def Main.left : Main threadsTotal → Nat
  | .jobsAddScan _ _ => 6
  | .jobsAddEnqueue _ _ => 5
  | .jobsAddLock _ _ => 4
  | .jobsAddSignal _ _ => 3
  | .jobsAddUnlock _ _ => 2
  | _ => 1

theorem added_start (hrest : call.pool.Resting) : Added call 0 none call.pool :=
  ⟨by simp [Assigning.turns], by simp [sizeT_of_lt hrest.small], fun k _ => hrest.unlocked k⟩

theorem Added.within (h : Added call i held pool) (hwithin : Within call i held pool.main)
    (hroom : pool.main.placing = [] →
      (pool.threads (call.pool.turn i)).submissionQueue.length ≠ jobsPerThread) :
    ∃ next, mainStep pool = some next ∧ next.main.left + 1 = pool.main.left ∧
      ((∃ held', Added call i held' next ∧ Within call i held' next.main ∧
          (next.main.placing = [] → pool.main.placing = [] ∧ next.threads = pool.threads)) ∨
        Added call (i + 1) none next ∧ next.main = .returned .ok) := by
  have hmain : ∃ main, pool.main = main := ⟨_, rfl⟩
  obtain ⟨main, hmain⟩ := hmain
  rw [hmain] at hwithin hroom ⊢
  cases hwithin with
  | scan =>
    have hindex := h.index_eq
    refine ⟨{ pool with main := .jobsAddEnqueue call.job (call.pool.turn i) }, ?_, rfl,
      .inl ⟨none, ⟨h.accepted, h.rrIndex, h.unlocked⟩, .enqueue, fun _ => ⟨rfl, rfl⟩⟩⟩
    simp only [mainStep, hmain, _tpoolrrJobsAdd, hindex, if_neg (hroom rfl), Nat.zero_le, if_true]
  | enqueue =>
    have hlt := Nat.lt_of_le_of_ne (pool.threads (call.pool.turn i)).submissionQueue.bounded
      (hroom rfl)
    obtain ⟨submissionQueue, hpush⟩ : ∃ submissionQueue, (pool.threads
        (call.pool.turn i)).submissionQueue.push call.job = some submissionQueue :=
      ⟨_, Fifo.push_of_lt hlt call.job⟩
    have hset : Added call i none (pool.set (call.pool.turn i)
        { pool.threads (call.pool.turn i) with submissionQueue }) := h.set (h.unlocked _)
    refine ⟨{ pool.set (call.pool.turn i) { pool.threads (call.pool.turn i) with submissionQueue }
      with main := .jobsAddLock call.job (call.pool.turn i) }, ?_, rfl,
      .inl ⟨none, ⟨hset.accepted, hset.rrIndex, hset.unlocked⟩, .lock, by simp [Main.placing]⟩⟩
    simp only [mainStep, hmain, hpush]
  | lock =>
    have hfree := h.unlocked (call.pool.turn i) (by simp)
    refine ⟨{ pool.set (call.pool.turn i)
        { pool.threads (call.pool.turn i) with conditionMutex := some .main } with
        main := .jobsAddSignal call.job (call.pool.turn i) }, ?_, rfl,
      .inl ⟨_, ⟨h.accepted, h.rrIndex, fun k hk => ?_⟩, .signal, by simp [Main.placing]⟩⟩
    · simp only [mainStep, hmain, Thread.lock, hfree, Option.map_some]
    · have hne : k ≠ call.pool.turn i := fun hk' => hk (congrArg some hk'.symm)
      rw [set_threads_of_ne hne]
      exact h.unlocked k (by simp)
  | signal =>
    have hset : Added call i (some (call.pool.turn i)) (pool.set (call.pool.turn i)
        (pool.threads (call.pool.turn i)).signal) := h.set fun hne => absurd rfl hne
    refine ⟨{ pool.set (call.pool.turn i) (pool.threads (call.pool.turn i)).signal with
        main := .jobsAddUnlock call.job (call.pool.turn i) }, ?_, rfl,
      .inl ⟨_, ⟨hset.accepted, hset.rrIndex, hset.unlocked⟩, .unlock, by simp [Main.placing]⟩⟩
    simp only [mainStep, hmain]
  | unlock =>
    refine ⟨{ pool.set (call.pool.turn i) (pool.threads (call.pool.turn i)).unlock with
        rrIndex := sizeT (pool.rrIndex + 1)
        main := .returned .ok
        accepted := pool.accepted ++ [(call.pool.turn i, call.job)] }, ?_, rfl,
      .inr ⟨⟨?_, ?_, fun k _ => ?_⟩, rfl⟩⟩
    · simp only [mainStep, hmain]
    · rw [h.accepted, turns_succ, List.append_assoc]
    · rw [h.rrIndex, sizeT, sizeT, sizeT, Nat.mod_add_mod, Nat.add_assoc]
    · by_cases hk : k = call.pool.turn i
      · subst hk
        rw [set_threads_self, Thread.unlock]
      · rw [set_threads_of_ne hk]
        exact h.unlocked k fun hne => hk (Option.some.inj hne).symm

end Turns

section Rooms

variable {s : State threadsTotal jobsPerThread} {j : Nat}

omit [NeZero threadsTotal]

theorem room_le (s : State threadsTotal jobsPerThread) (k : Fin threadsTotal) :
    s.room k ≤ jobsPerThread := Nat.sub_le _ _

theorem roomBefore_zero (s : State threadsTotal jobsPerThread) : s.roomBefore 0 = 0 := by
  simp [State.roomBefore]

theorem roomBefore_succ (s : State threadsTotal jobsPerThread) (h : j < threadsTotal) :
    s.roomBefore (j + 1) = s.roomBefore j + s.room ⟨j, h⟩ := by
  have hinsert : Finset.univ.filter (fun k : Fin threadsTotal => k.val < j + 1) =
      insert ⟨j, h⟩ (Finset.univ.filter fun k : Fin threadsTotal => k.val < j) := by
    ext k
    simp only [Finset.mem_filter, Finset.mem_univ, true_and, Finset.mem_insert, Fin.ext_iff]
    omega
  rw [State.roomBefore, hinsert, Finset.sum_insert (by simp), Nat.add_comm]
  rfl

theorem free_eq (s : State threadsTotal jobsPerThread) :
    s.free = tally (fun t => t.submissionQueue.room) s.threads := by
  have hall : Finset.univ.filter (fun k : Fin threadsTotal => k.val < threadsTotal) = Finset.univ :=
    Finset.filter_true_of_mem fun k _ => k.isLt
  rw [State.free, State.roomBefore, hall]
  rfl

theorem free_le (s : State threadsTotal jobsPerThread) :
    s.free ≤ threadsTotal * jobsPerThread := by
  rw [free_eq, tally]
  calc ∑ k, (s.threads k).submissionQueue.room
    _ ≤ ∑ _ : Fin threadsTotal, jobsPerThread := Finset.sum_le_sum fun k _ => Nat.sub_le _ _
    _ = threadsTotal * jobsPerThread := by simp

theorem free_lt {k : Fin threadsTotal} (hcapacity : 0 < jobsPerThread)
    (hfull : (s.threads k).submissionQueue.length = jobsPerThread) :
    s.free < threadsTotal * jobsPerThread := by
  rw [free_eq, tally]
  calc ∑ k, (s.threads k).submissionQueue.room
    _ < ∑ _ : Fin threadsTotal, jobsPerThread := by
      refine Finset.sum_lt_sum (fun k _ => Nat.sub_le _ _) ⟨k, Finset.mem_univ k, ?_⟩
      rw [Fifo.room, hfull, Nat.sub_self]
      exact hcapacity
    _ = threadsTotal * jobsPerThread := by simp

theorem exists_job (hfree : s.free < threadsTotal * jobsPerThread) :
    ∃ k, (s.threads k).submissionQueue.list ≠ [] := by
  by_contra hnone
  simp only [not_exists, not_not] at hnone
  have hroom : ∀ k, (s.threads k).submissionQueue.room = jobsPerThread := fun k => by
    simp [Fifo.room, Fifo.length, hnone k]
  rw [free_eq, tally, Finset.sum_congr rfl fun k _ => hroom k] at hfree
  simp at hfree

end Rooms

section Good

variable {call a a' : Assigning threadsTotal jobsPerThread}
  {tr : List (Assigning threadsTotal jobsPerThread × Assigns threadsTotal)}

/-- Each thread has its turn, and the room that is counted is never none. -/
structure Good (pool : State threadsTotal jobsPerThread) : Prop where
  roomy : pool.Roomy
  turns : ∀ i < threadsTotal, ∀ j < threadsTotal, pool.turn i = pool.turn j → i = j
  counted : ∀ m, pool.free ≤ m → m ≤ threadsTotal * jobsPerThread → sizeT m ≠ 0

inductive Stage (call a : Assigning threadsTotal jobsPerThread) : Prop
  | checking (i j m) : a.assign = .submissionsEmpty i j (sizeT m) → i < threadsTotal →
      j ≤ threadsTotal → (∃ res, a.pool.main = .returned res) → Added call 0 none a.pool →
      call.pool.roomBefore j ≤ m → m ≤ j * jobsPerThread → Stage call a
  | adding (i held) : a.assign = .jobsAdd i → i < threadsTotal → Added call i held a.pool →
      Within call i held a.pool.main → Stage call a
  | added (i) : a.assign = .jobsAdd i → i < threadsTotal → Added call (i + 1) none a.pool →
      a.pool.main = .returned .ok → Stage call a
  | done : a.assign = .returned .ok → Added call threadsTotal none a.pool →
      a.pool.main = .returned .ok → Stage call a

def Assigning.left (a : Assigning threadsTotal jobsPerThread) : Nat :=
  match a.assign with
  | .submissionsEmpty i j _ =>
    (threadsTotal - 1 - i) * (threadsTotal + 1) + (threadsTotal - j) + 1 + 6 * threadsTotal
  | .jobsAdd i => 6 * (threadsTotal - 1 - i) + a.pool.main.left
  | _ => 0

omit [NeZero threadsTotal] in
theorem Flow.queue (h : Flow call tr a) {added : List (Fin threadsTotal × TpoolrrJob)}
    (hadded : a.pool.placed = call.pool.placed ++ added) (k : Fin threadsTotal) :
    call.queue k ++ putOn k added = removed k tr ++ a.queue k := by
  obtain ⟨added', hadded', hflow⟩ := h
  obtain rfl := List.append_cancel_left (hadded.symm.trans hadded')
  exact hflow k

theorem Stage.add (hjob : a.job = call.job) {i : Nat} (hi : i ≤ threadsTotal)
    (h : Added call i none a.pool) (hmain : 0 < i → a.pool.main = .returned .ok)
    (hpos : 0 < i ∨ i < threadsTotal) :
    Stage call (a.add i) ∧ (a.add i).left = 6 * (threadsTotal - i) := by
  rw [Assigning.add]
  split_ifs with hlt
  · refine ⟨.adding i none rfl hlt ⟨h.accepted, h.rrIndex, h.unlocked⟩ ?_, ?_⟩
    · rw [hjob]
      exact .scan
    · simp only [Assigning.left, Main.left]
      omega
  · obtain rfl : i = threadsTotal := by omega
    refine ⟨.done rfl h (hmain (by omega)), ?_⟩
    simp [Assigning.left]

variable (hcall : call.pool.main.placing = [])

include hcall

theorem Added.room {i : Nat} {held : Option (Fin threadsTotal)} (h : Added call i held a.pool)
    (hflow : Flow call tr a) (hmain : a.pool.main.placing = []) {k : Fin threadsTotal}
    (hk : ∀ j < i, call.pool.turn j ≠ k) :
    (a.pool.threads k).submissionQueue.length ≤ (call.pool.threads k).submissionQueue.length := by
  have hadded : a.pool.placed = call.pool.placed ++ call.turns i := by
    rw [State.placed, State.placed, hcall, hmain, List.append_nil, List.append_nil, h.accepted]
  have hnone : putOn k (call.turns i) = [] := by
    rw [Assigning.turns, putOn_map, List.count_eq_zero_of_not_mem]
    · rfl
    · simpa using hk
  have hlen := congrArg List.length (hflow.queue hadded k)
  rw [hnone, List.append_nil, List.length_append] at hlen
  change (a.queue k).length ≤ (call.queue k).length
  omega

theorem Stage.check (hgood : Good call.pool) (hk : Keeps call tr a) {i j m : Nat}
    (hassign : a.assign = .submissionsEmpty i j (sizeT m)) (hi : i < threadsTotal)
    (hj : j ≤ threadsTotal) (hmain : ∃ res, a.pool.main = .returned res)
    (hadded : Added call 0 none a.pool) (hlow : call.pool.roomBefore j ≤ m)
    (hhigh : m ≤ j * jobsPerThread) :
    ∃ a', a.step .main = some a' ∧ Stage call a' ∧ a'.left + 1 = a.left := by
  have hleft : a.left =
      (threadsTotal - 1 - i) * (threadsTotal + 1) + (threadsTotal - j) + 1 + 6 * threadsTotal := by
    rw [Assigning.left, hassign]
  have hstep : a.step .main = some (tpoolrrSubmissionsEmpty a i j (sizeT m)) := by
    rw [Assigning.step, hassign]
  refine ⟨_, hstep, ?_⟩
  rw [hleft, tpoolrrSubmissionsEmpty]
  split_ifs with hlt hzero hagain
  · have hroom : call.pool.room ⟨j, hlt⟩ ≤ a.pool.room ⟨j, hlt⟩ := by
      obtain ⟨res, hmain⟩ := hmain
      refine Nat.sub_le_sub_left (hadded.room hcall hk.flow ?_ ?_) _
      · rw [hmain]
        rfl
      · exact fun _ h => absurd h (Nat.not_lt_zero _)
    have hle := room_le a.pool ⟨j, hlt⟩
    refine ⟨.checking i (j + 1) (m + a.pool.room ⟨j, hlt⟩) ?_ hi hlt hmain hadded ?_ ?_, ?_⟩
    · simp only [sizeT, Nat.mod_add_mod]
      rfl
    · rw [roomBefore_succ _ hlt]
      exact Nat.add_le_add hlow hroom
    · rw [Nat.succ_mul]
      exact Nat.add_le_add hhigh hle
    · simp only [Assigning.left]
      omega
  · obtain rfl : threadsTotal = j := Nat.le_antisymm (Nat.le_of_not_lt hlt) hj
    exact absurd hzero (hgood.counted m hlow hhigh)
  · obtain rfl : threadsTotal = j := Nat.le_antisymm (Nat.le_of_not_lt hlt) hj
    refine ⟨.checking (i + 1) 0 0 rfl hagain (Nat.zero_le _) hmain hadded ?_ (Nat.zero_le _), ?_⟩
    · rw [roomBefore_zero]
    · have hnext : threadsTotal - 1 - i = threadsTotal - 1 - (i + 1) + 1 := by omega
      rw [hnext, Nat.succ_mul]
      simp only [Assigning.left]
      omega
  · obtain rfl : threadsTotal = j := Nat.le_antisymm (Nat.le_of_not_lt hlt) hj
    have hlast : threadsTotal - 1 - i = 0 := by omega
    obtain ⟨hstage, hleft'⟩ := Stage.add hk.job (Nat.zero_le _) hadded (by simp)
      (.inr (Nat.pos_of_neZero threadsTotal))
    refine ⟨hstage, ?_⟩
    rw [hleft', hlast]
    omega

theorem Stage.within (hgood : Good call.pool) (hk : Keeps call tr a) {i : Nat}
    {held : Option (Fin threadsTotal)} (hassign : a.assign = .jobsAdd i) (hi : i < threadsTotal)
    (hadded : Added call i held a.pool) (hwithin : Within call i held a.pool.main) :
    ∃ a', a.step .main = some a' ∧ Stage call a' ∧ a'.left + 1 = a.left := by
  have hroom (hmain : a.pool.main.placing = []) :
      (a.pool.threads (call.pool.turn i)).submissionQueue.length ≠ jobsPerThread := by
    have hle := hadded.room hcall hk.flow hmain fun j hj hturn =>
      absurd (hgood.turns j (hj.trans hi) i hi hturn) (Nat.ne_of_lt hj)
    have hlt := Nat.lt_of_le_of_ne (call.pool.threads (call.pool.turn i)).submissionQueue.bounded
      (hgood.roomy (call.pool.turn i))
    exact Nat.ne_of_lt (Nat.lt_of_le_of_lt hle hlt)
  obtain ⟨next, hnext, hleft, hstage⟩ := hadded.within hwithin hroom
  have hstep : a.step .main = some { a with pool := next } := by
    rw [Assigning.step, hassign]
    generalize hmain : a.pool.main = main at hwithin
    cases hwithin <;> simp only [hnext, Option.map_some]
  refine ⟨_, hstep, ?_, ?_⟩
  · rcases hstage with ⟨held', hadded', hwithin', -⟩ | ⟨hadded', hmain'⟩
    · exact .adding i held' hassign hi hadded' hwithin'
    · exact .added i hassign hi hadded' hmain'
  · simp only [Assigning.left, hassign]
    omega

theorem Stage.main (hgood : Good call.pool) (hk : Keeps call tr a) (h : Stage call a) :
    a.assign = .returned .ok ∨
      ∃ a', a.step .main = some a' ∧ Stage call a' ∧ a'.left + 1 = a.left := by
  cases h with
  | checking i j m hassign hi hj hmain hadded hlow hhigh =>
    exact .inr (Stage.check hcall hgood hk hassign hi hj hmain hadded hlow hhigh)
  | adding i held hassign hi hadded hwithin =>
    exact .inr (Stage.within hcall hgood hk hassign hi hadded hwithin)
  | added i hassign hi hadded hmain =>
    right
    obtain ⟨hstage, hleft⟩ := Stage.add hk.job hi hadded (fun _ => hmain)
      (.inl (Nat.succ_pos i))
    refine ⟨a.add (i + 1), ?_, hstage, ?_⟩
    · rw [Assigning.step, hassign]
      simp only [hmain, if_true]
    · rw [hleft, Assigning.left, hassign, hmain]
      simp only [Main.left]
      omega
  | done hassign => exact .inl hassign

omit hcall in
theorem Stage.remove (h : Stage call a) {index : Fin threadsTotal}
    {submissionQueue : Fifo TpoolrrJob jobsPerThread} :
    Stage call { a with
      pool := a.pool.set index { a.pool.threads index with submissionQueue } } := by
  have hset {i : Nat} {held : Option (Fin threadsTotal)} (h : Added call i held a.pool) :
      Added call i held (a.pool.set index { a.pool.threads index with submissionQueue }) :=
    h.set (h.unlocked index)
  cases h with
  | checking i j m hassign hi hj hmain hadded hlow hhigh =>
    exact .checking i j m hassign hi hj hmain (hset hadded) hlow hhigh
  | adding i held hassign hi hadded hwithin =>
    exact .adding i held hassign hi (hset hadded) hwithin
  | added i hassign hi hadded hmain => exact .added i hassign hi (hset hadded) hmain
  | done hassign hadded hmain => exact .done hassign (hset hadded) hmain

theorem stage_run (hgood : Good call.pool) (hapart : call.Apart) (hstart : Stage call call)
    (hr : call.machine.Run tr a) :
    Stage call a ∧ tr.countP (fun p => p.2 = .main) + a.left = call.left := by
  induction hr with
  | start h =>
    cases h
    exact ⟨hstart, by simp⟩
  | @next tr a l a' hr hs ih =>
    obtain ⟨hstage, hleft⟩ := ih
    cases l with
    | main =>
      rw [List.countP_cons_of_pos (by simp)]
      rcases hstage.main hcall hgood (keeps_run hapart hr) with
        hassign | ⟨next, hnext, hstage', hleft'⟩
      · have hstep : a.step .main = none := by rw [Assigning.step, hassign]
        cases hstep.symm.trans hs
      · obtain rfl := Option.some.inj (hnext.symm.trans hs)
        exact ⟨hstage', by omega⟩
    | remove index =>
      rw [List.countP_cons_of_neg (by simp)]
      obtain ⟨job, submissionQueue, -, rfl⟩ := remove_cases hs
      exact ⟨hstage.remove, hleft⟩

omit hcall in
theorem putOn_turns (hturns : ∀ i < threadsTotal, ∀ j < threadsTotal,
    call.pool.turn i = call.pool.turn j → i = j) (k : Fin threadsTotal) :
    putOn k (call.turns threadsTotal) = [call.job] := by
  have hinj : Function.Injective fun i : Fin threadsTotal => call.pool.turn i.val :=
    fun i j hij => Fin.ext (hturns i i.isLt j j.isLt hij)
  obtain ⟨i, hi⟩ := Finite.injective_iff_surjective.mp hinj k
  have hmem : k ∈ (List.range threadsTotal).map call.pool.turn :=
    List.mem_map.mpr ⟨i.val, List.mem_range.mpr i.isLt, hi⟩
  have hnodup : ((List.range threadsTotal).map call.pool.turn).Nodup :=
    List.Nodup.map_on
      (fun i hi j hj hij => hturns i (List.mem_range.mp hi) j (List.mem_range.mp hj) hij)
      List.nodup_range
  rw [Assigning.turns, putOn_map, List.count_eq_one_of_mem hnodup hmem]
  rfl

theorem assignLaw_of_good (hgood : Good call.pool) (hapart : call.Apart) (hstart : Stage call call) :
    AssignLaw call := by
  have hend {tr a res} (hr : call.machine.Run tr a) (hassign : a.assign = .returned res) :
      res = .ok ∧ Added call threadsTotal none a.pool ∧ a.pool.main = .returned .ok := by
    cases (stage_run hcall hgood hapart hstart hr).1 with
    | done hok hadded hmain =>
      cases hassign.symm.trans hok
      exact ⟨rfl, hadded, hmain⟩
    | _ => simp_all
  refine ⟨⟨call.left, fun tr a hr => ?_⟩, fun tr a hr => ?_, fun _ tr a res hr hassign => ?_,
    fun hbad => absurd hgood.roomy hbad⟩
  · obtain ⟨hstage, hleft⟩ := stage_run hcall hgood hapart hstart hr
    refine ⟨by omega, ?_⟩
    rcases hstage.main hcall hgood (keeps_run hapart hr) with hassign | ⟨next, hnext, -⟩
    · exact .inl ⟨.ok, hassign⟩
    · exact .inr (by rw [hnext]; rfl)
  · cases (stage_run hcall hgood hapart hstart hr).1 <;> simp_all
  · obtain ⟨hres, hadded, hmain⟩ := hend hr hassign
    refine ⟨hres, fun k => ?_⟩
    have hplaced : a.pool.placed = call.pool.placed ++ call.turns threadsTotal := by
      rw [State.placed, State.placed, hcall, hmain, hadded.accepted]
      simp [Main.placing]
    rw [← (keeps_run hapart hr).flow.queue hplaced k, putOn_turns hgood.turns]

end Good

end Dert.Tpoolrr
