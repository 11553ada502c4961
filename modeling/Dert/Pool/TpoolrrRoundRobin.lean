import Dert.Library.Rotation
import Dert.Pool.TpoolrrHistory

namespace Dert.Tpoolrr

open Library

variable {threadsTotal jobsPerThread : Nat}

structure RoundRobin (s : State threadsTotal jobsPerThread) : Prop where
  placed : Rotates (s.placed.map Prod.fst)
  balanced : ∀ i j, (putOn i s.placed).length ≤ (putOn j s.placed).length + 1

def State.Roomy (s : State threadsTotal jobsPerThread) : Prop :=
  ∀ k, (s.threads k).submissionQueue.length ≠ jobsPerThread

instance (s : State threadsTotal jobsPerThread) : Decidable s.Roomy :=
  inferInstanceAs (Decidable (∀ _, _))

def puts (s : State threadsTotal jobsPerThread) : Label threadsTotal → Bool
  | .main =>
    match s.main with
    | .jobsAddEnqueue _ _ => true
    | _ => false
  | _ => false

section Definitions

variable [NeZero threadsTotal]

/-- How far a step moves `rr_index`, but for the one that an add counts: a pop by the number
of empty queues it has passed, and an add only when the count overflows. -/
def offset (s : State threadsTotal jobsPerThread) : Label threadsTotal → Int
  | .main =>
    match s.main with
    | .jobsAddUnlock _ _ => sizeT (s.rrIndex + 1) - (s.rrIndex + 1)
    | .completionsPopScan i =>
      if i < threadsTotal ∧ (s.threads (s.index i)).completionQueue.list ≠ [] then
        sizeT (s.rrIndex + i) - s.rrIndex
      else 0
    | _ => 0
  | _ => 0

def drift : Trace threadsTotal jobsPerThread → Int
  | [] => 0
  | (s, l) :: tr => if puts s l then 0 else drift tr + offset s l

/-- Between two adds that put a job on a queue `rr_index` is moved by whole rounds. -/
def Steady : Trace threadsTotal jobsPerThread → Prop
  | [] => True
  | (s, l) :: tr => Steady tr ∧ (puts s l → s.placed = [] ∨ (threadsTotal : Int) ∣ drift tr)

end Definitions

variable {s s' : State threadsTotal jobsPerThread} {l : Label threadsTotal}
  {tr : Trace threadsTotal jobsPerThread}

theorem puts_iff : puts s l = true ↔ l = .main ∧ ∃ job index, s.main = .jobsAddEnqueue job index := by
  cases l with
  | main => cases hmain : s.main <;> simp [puts, hmain]
  | _ => simp [puts]

theorem length_putOn (k : Fin threadsTotal) (placed : List (Fin threadsTotal × TpoolrrJob)) :
    (putOn k placed).length = (placed.map Prod.fst).count k := by
  induction placed with
  | nil => rfl
  | cons p placed ih =>
    rw [List.map_cons, List.count_cons, ← ih]
    by_cases hk : p.1 = k <;> simp [putOn, hk]

theorem roundRobin_iff_rotates : RoundRobin s ↔ Rotates (s.placed.map Prod.fst) := by
  refine ⟨RoundRobin.placed, fun h => ⟨h, fun i j => ?_⟩⟩
  rw [length_putOn, length_putOn]
  exact h.balanced i j

variable [NeZero threadsTotal]

structure Cursor (tr : Trace threadsTotal jobsPerThread) (s : State threadsTotal jobsPerThread) :
    Prop where
  small : s.rrIndex < sizeMax
  scan : ∀ job i, s.main = .jobsAddScan job i → i = 0
  aim : ∀ job index, s.main = .jobsAddEnqueue job index → index.val = s.rrIndex % threadsTotal
  last : ∀ index, (s.placed.map Prod.fst).getLast? = some index → (threadsTotal : Int) ∣
    s.rrIndex + s.main.placing.length - (index + 1 + drift tr)

theorem Cursor.keep (h : Cursor tr s) (hrr : s'.rrIndex = s.rrIndex) (hplaced : s'.placed = s.placed)
    (hplacing : s'.main.placing.length = s.main.placing.length)
    (hdrift : drift ((s, l) :: tr) = drift tr)
    (hscan : ∀ job i, s'.main = .jobsAddScan job i → i = 0)
    (haim : ∀ job index, s'.main = .jobsAddEnqueue job index →
      index.val = s.rrIndex % threadsTotal) : Cursor ((s, l) :: tr) s' where
  small := hrr ▸ h.small
  scan := hscan
  aim := by
    rw [hrr]
    exact haim
  last index hlast := by
    rw [hplaced] at hlast
    rw [hrr, hplacing, hdrift]
    exact h.last index hlast

theorem Cursor.controls (h : Cursor tr s) (hroom : s.Roomy) (hc : Controls s s') :
    Cursor ((s, .main) :: tr) s' := by
  cases hc with
  | scanFull job i hmain hi hfull => exact absurd hfull (hroom _)
  | scanRoom job i hmain =>
    have hi := h.scan job i hmain
    subst hi
    have haim : (s.index 0).val = s.rrIndex % threadsTotal := by
      rw [State.index, Nat.zero_add, sizeT_of_lt h.small]
      rfl
    refine h.keep rfl ?_ ?_ ?_ (by simp) ?_
    · simp [State.placed, hmain, Main.placing]
    · simp [hmain, Main.placing]
    · simp [drift, puts, offset, hmain]
    · simp_all
  | scanEnd job i hmain hi =>
    rw [h.scan job i hmain] at hi
    exact absurd (Nat.zero_le _) hi
  | enqueueFull job index hmain hfull => exact absurd hfull (hroom _)
  | enqueued job index submissionQueue hmain hlist =>
    have haim := h.aim job index hmain
    refine ⟨h.small, by simp, by simp, fun last hlast => ?_⟩
    have hindex : index = last := by simpa [State.placed, State.set, Main.placing] using hlast
    subst hindex
    have hmod : (threadsTotal : Int) ∣ s.rrIndex - index.val := by
      rw [haim, Int.natCast_mod]
      exact Int.dvd_self_sub_emod
    simpa [drift, puts, hmain, Main.placing, State.set] using hmod
  | added job index hmain =>
    refine ⟨Nat.mod_lt _ (by decide), by simp, by simp, fun last hlast => ?_⟩
    have hlast := h.last last (by simpa [State.placed, State.set, hmain, Main.placing] using hlast)
    simp only [hmain, Main.placing, List.length_singleton] at hlast
    simp only [drift, puts, offset, hmain, Main.placing, List.length_nil]
    convert hlast using 1
    push_cast
    ring
  | popped i job completionQueue hmain hi hlist =>
    refine ⟨?_, by simp, by simp, fun last hlast => ?_⟩
    · exact (Nat.mod_le _ _).trans_lt (Nat.mod_lt _ (by decide))
    · have hlast := h.last last (by simpa [State.placed, State.set, hmain, Main.placing] using hlast)
      simp only [hmain, Main.placing, List.length_nil] at hlast
      have hmod : (threadsTotal : Int) ∣
          sizeT (s.rrIndex + i) - (sizeT (s.rrIndex + i) % threadsTotal : Nat) := by
        rw [Int.natCast_mod]
        exact Int.dvd_self_sub_emod
      have hmoved : offset s .main = sizeT (s.rrIndex + i) - s.rrIndex := by
        simp [offset, hmain, hi, hlist]
      have hkept : drift ((s, .main) :: tr) = drift tr + offset s .main := by
        simp [drift, puts, hmain]
      rw [hkept, hmoved]
      convert Int.dvd_sub hlast hmod using 1
      simp only [Main.placing, List.length_nil]
      ring
  | popNone i hmain hi hempty =>
    refine h.keep rfl ?_ ?_ ?_ (by simp) (by simp)
    · simp [State.placed, hmain, Main.placing]
    · simp [hmain, Main.placing]
    · simp [drift, puts, offset, hmain, hempty]
  | _ =>
    refine h.keep rfl ?_ ?_ ?_ ?_ ?_ <;>
      simp_all [State.placed, State.set, Main.placing, drift, puts, offset]

omit [NeZero threadsTotal] in
theorem enter_scan {call : Call} {job : TpoolrrJob} {i : Nat}
    (h : (enter call : Main threadsTotal) = .jobsAddScan job i) : i = 0 := by
  cases call with
  | jobsAdd uninit userTag function arg expiration now =>
    by_cases hnull : function = 0 ∨ arg = 0
    · rw [enter, if_pos hnull] at h
      cases h
    · rw [enter, if_neg hnull] at h
      exact (Main.jobsAddScan.inj h).2.symm
  | _ => cases h

omit [NeZero threadsTotal] in
theorem enter_ne_enqueue (call : Call) {job : TpoolrrJob} {index : Fin threadsTotal} :
    enter call ≠ .jobsAddEnqueue job index := by
  cases call with
  | jobsAdd =>
    rw [enter]
    split_ifs <;> simp
  | _ => simp [enter]

theorem Cursor.step (h : Cursor tr s) (hroom : s.Roomy) (hs : Step s l s') :
    Cursor ((s, l) :: tr) s' := by
  cases hs with
  | work => exact h.keep rfl rfl rfl (by simp [drift, puts, offset]) h.scan h.aim
  | finish => exact h.keep rfl rfl rfl (by simp [drift, puts, offset]) h.scan h.aim
  | spurious => exact h.keep rfl rfl rfl (by simp [drift, puts, offset]) h.scan h.aim
  | call call res hmain =>
    refine h.keep rfl (call_placed hmain call) ?_ (by simp [drift, puts, offset])
      (fun job i => enter_scan) (fun job index hnext => absurd hnext (enter_ne_enqueue call))
    rw [enter_placing, hmain]
    rfl
  | main _ hc => exact h.controls hroom hc

theorem cursor_of_run (hr : (machine threadsTotal jobsPerThread).Run tr s)
    (hroom : ∀ x, Machine.Visits tr s x → x.Roomy) : Cursor tr s := by
  induction hr with
  | start hi =>
    obtain ⟨-, garbage, rfl⟩ := hi
    exact ⟨Nat.pos_of_ne_zero (by decide), by simp [start], by simp [start],
      by simp [start, State.placed, Main.placing]⟩
  | @next tr s l s' hr hs ih =>
    have hroom' : ∀ x, Machine.Visits tr s x → x.Roomy := fun x hx =>
      hroom x (Machine.visits_cons.mpr (.inr hx))
    exact (ih hroom').step (hroom' s (.inl rfl)) (step_cases hs)

theorem roundRobin_put {job : TpoolrrJob} {index : Fin threadsTotal} (h : Cursor tr s)
    (hmain : s.main = .jobsAddEnqueue job index) :
    Rotates (s.placed.map Prod.fst ++ [index]) ↔
      Rotates (s.placed.map Prod.fst) ∧ (s.placed = [] ∨ (threadsTotal : Int) ∣ drift tr) := by
  cases hlast : (s.placed.map Prod.fst).getLast? with
  | none =>
    have hnil : s.placed = [] := by simpa using hlast
    simp [hnil, rotates_singleton, rotates_nil]
  | some last =>
    have hne : s.placed ≠ [] := by
      rintro hnil
      simp [hnil] at hlast
    have hdrift := h.last last hlast
    simp only [hmain, Main.placing, List.length_nil] at hdrift
    have hiff : index.val ≡ last.val + 1 [MOD threadsTotal] ↔ (threadsTotal : Int) ∣ drift tr := by
      have haim := h.aim job index hmain
      have hmod : index.val ≡ s.rrIndex [MOD threadsTotal] := by
        rw [haim]
        exact Nat.mod_modEq _ _
      have hsum : (s.rrIndex : Int) - (last + 1 : Nat) =
          (s.rrIndex + (0 : Nat) - (last + 1 + drift tr)) + drift tr := by
        push_cast
        ring
      calc index.val ≡ last.val + 1 [MOD threadsTotal]
        _ ↔ last.val + 1 ≡ s.rrIndex [MOD threadsTotal] :=
          ⟨fun hi => hi.symm.trans hmod, fun hi => hmod.trans hi.symm⟩
        _ ↔ (threadsTotal : Int) ∣ s.rrIndex - (last.val + 1 : Nat) := Nat.modEq_iff_dvd
        _ ↔ (threadsTotal : Int) ∣ drift tr := by rw [hsum, dvd_add_right hdrift]
    rw [rotates_append_singleton hlast, hiff]
    simp [hne]

theorem Cursor.roundRobin (h : Cursor tr s) (hroom : s.Roomy) (hs : Step s l s') :
    RoundRobin s' ↔
      RoundRobin s ∧ (puts s l = true → s.placed = [] ∨ (threadsTotal : Int) ∣ drift tr) := by
  have hsame (hplaced : s'.placed = s.placed) (hputs : puts s l = false) :
      RoundRobin s' ↔
        RoundRobin s ∧ (puts s l = true → s.placed = [] ∨ (threadsTotal : Int) ∣ drift tr) := by
    simp [roundRobin_iff_rotates, hplaced, hputs]
  cases hs with
  | work => exact hsame rfl rfl
  | finish => exact hsame rfl rfl
  | spurious => exact hsame rfl rfl
  | call call res hmain => exact hsame (call_placed hmain call) rfl
  | main _ hc =>
    by_cases hputs : puts s .main = true
    · obtain ⟨-, job, index, hmain⟩ := puts_iff.mp hputs
      have hplaced : s'.placed = s.placed ++ [(index, job)] := by
        cases hc with
        | enqueueFull _ _ _ hfull => exact absurd hfull (hroom _)
        | enqueued job' index' submissionQueue hmain' =>
          cases hmain.symm.trans hmain'
          simp [State.placed, State.set, hmain, Main.placing]
        | _ => simp_all
      simp only [hputs, true_imp_iff]
      rw [roundRobin_iff_rotates, hplaced, List.map_append, roundRobin_iff_rotates]
      exact roundRobin_put h hmain
    · have hne : ∀ job index, s.main ≠ .jobsAddEnqueue job index := fun job index hmain =>
        hputs (puts_iff.mpr ⟨rfl, job, index, hmain⟩)
      exact hsame (hc.placed hne) (Bool.eq_false_iff.mpr hputs)

/-- Where no submission queue is ever full, the jobs go round the queues exactly when between
two adds the pops, and the overflows of `rr_index`, move it by whole rounds. -/
theorem roundRobin_iff (hr : (machine threadsTotal jobsPerThread).Run tr s)
    (hroom : ∀ x, Machine.Visits tr s x → x.Roomy) :
    (∀ x, Machine.Visits tr s x → RoundRobin x) ↔ Steady tr := by
  induction hr with
  | start hi =>
    obtain ⟨-, garbage, rfl⟩ := hi
    simp only [Machine.visits_nil, Steady, iff_true]
    rintro x rfl
    exact roundRobin_iff_rotates.mpr rotates_nil
  | @next tr s l s' hr hs ih =>
    have hroom' : ∀ x, Machine.Visits tr s x → x.Roomy := fun x hx =>
      hroom x (Machine.visits_cons.mpr (.inr hx))
    have ih := ih hroom'
    have hnext := (cursor_of_run hr hroom').roundRobin (hroom' s (.inl rfl)) (step_cases hs)
    simp only [Machine.visits_cons, Steady]
    constructor
    · intro h
      exact ⟨ih.mp fun x hx => h x (.inr hx), (hnext.mp (h s' (.inl rfl))).2⟩
    · rintro ⟨hsteady, hput⟩ x (rfl | hx)
      · exact hnext.mpr ⟨ih.mpr hsteady s (.inl rfl), hput⟩
      · exact ih.mpr hsteady x hx

def twoJobs : List (Label 2) :=
  [.call (.jobsAdd zeroJob 7 1 1 0 0), .main, .main, .main, .main, .main,
    .call (.jobsAdd zeroJob 7 1 1 0 0), .main, .main, .main, .main, .main]

theorem roundRobin_iff_twoJobs :
    ∃ (tr : Trace 2 2) (s : State 2 2), (machine 2 2).Run tr s ∧ s.accepted.length = 2 ∧
      ((∀ x, Machine.Visits tr s x → RoundRobin x) ↔ Steady tr) := by
  obtain ⟨tr, s, hr, hroom, hs⟩ := (machine 2 2).exists_run_through (start fun _ => zeroJob)
    twoJobs (fun x => x.Roomy) (fun s => s.accepted.length = 2) ⟨by decide, _, rfl⟩ (by decide)
  simp only [decide_eq_true_eq] at hroom hs
  exact ⟨tr, s, hr, hs, roundRobin_iff hr hroom⟩

def poppedFirst (k : Fin 2) : List (Label 2) :=
  [.call (.jobsAdd zeroJob 7 1 1 0 0), .main, .main, .main, .main, .main, .work k 0, .work k 0,
    .work k 0, .work k 0, .work k 0, .finish k 0, .work k 0, .call .completionsPop, .main, .main,
    .call (.jobsAdd zeroJob 7 1 1 0 0), .main, .main, .main, .main, .main]

/-- The pop finds the completion one queue past `rr_index` and takes it back to the first
queue, which is given both jobs. -/
theorem not_roundRobin_poppedFirst :
    ¬ ∀ (tr : Trace 2 2) (s : State 2 2), (machine 2 2).Run tr s →
      (∀ x, Machine.Visits tr s x → x.Roomy) → ∀ x, Machine.Visits tr s x → RoundRobin x := by
  obtain ⟨tr, s, hr, hroom, hs⟩ := (machine 2 2).exists_run_through (start fun _ => zeroJob)
    (poppedFirst 0) (fun x => x.Roomy)
    (fun s => ¬ ∀ i j, (putOn i s.placed).length ≤ (putOn j s.placed).length + 1)
    ⟨by decide, _, rfl⟩ (by decide +kernel)
  simp only [decide_eq_true_eq] at hroom hs
  exact fun hlaw => hs (hlaw tr s hr hroom s (.inl rfl)).balanced

end Dert.Tpoolrr
