import Mathlib.Data.List.Basic

universe u v

namespace Dert.Library

/-- A machine that takes one labelled step at a time.  The label settles every
choice of the schedule, so a step is a partial function. -/
structure Machine (State : Type u) (Label : Type v) where
  init : State → Prop
  step : State → Label → Option State

namespace Machine

variable {State : Type u} {Label : Type v} {M : Machine State Label}

/-- `M.Run tr s` is a finite run that ends in `s`.  The trace `tr` holds, newest
first, each label together with the state it was taken in. -/
inductive Run (M : Machine State Label) : List (State × Label) → State → Prop
  | start {s} : M.init s → Run M [] s
  | next {tr s l s'} : Run M tr s → M.step s l = some s' → Run M ((s, l) :: tr) s'

def Visits (tr : List (State × Label)) (s x : State) : Prop :=
  x = s ∨ x ∈ tr.map Prod.fst

def exec (M : Machine State Label) : State → List Label → Option State
  | s, [] => some s
  | s, l :: ls => (M.step s l).bind fun s' => M.exec s' ls

theorem exec_cons {s s' t : State} {l : Label} {ls : List Label} (hs : M.step s l = some s')
    (he : M.exec s' ls = some t) : M.exec s (l :: ls) = some t :=
  Option.bind_eq_some_iff.mpr ⟨s', hs, he⟩

theorem exec_append {s s' t : State} {ls later : List Label} (hs : M.exec s ls = some s')
    (he : M.exec s' later = some t) : M.exec s (ls ++ later) = some t := by
  induction ls generalizing s with
  | nil =>
    cases hs
    exact he
  | cons l ls ih =>
    obtain ⟨next, hnext, hs⟩ := Option.bind_eq_some_iff.mp hs
    exact exec_cons hnext (ih hs)

theorem visits_nil {s x : State} : Visits ([] : List (State × Label)) s x ↔ x = s := by
  simp [Visits]

theorem visits_cons {tr : List (State × Label)} {s s' x : State} {l : Label} :
    Visits ((s, l) :: tr) s' x ↔ x = s' ∨ Visits tr s x := by
  simp [Visits]

theorem Run.visits_init {tr : List (State × Label)} {s : State} (hr : M.Run tr s) :
    ∃ x, M.init x ∧ Visits tr s x := by
  induction hr with
  | @start s h => exact ⟨s, h, visits_nil.mpr rfl⟩
  | next _ _ ih =>
    obtain ⟨x, hinit, hx⟩ := ih
    exact ⟨x, hinit, visits_cons.mpr (.inr hx)⟩

theorem Run.exec {tr : List (State × Label)} {s s' : State} {ls : List Label}
    (hr : M.Run tr s) (he : M.exec s ls = some s') : ∃ tr', M.Run tr' s' := by
  induction ls generalizing tr s with
  | nil =>
    cases he
    exact ⟨tr, hr⟩
  | cons l ls ih =>
    obtain ⟨t, ht, he⟩ := Option.bind_eq_some_iff.mp he
    exact ih (hr.next ht) he

theorem exists_run_of_exec (M : Machine State Label) (s : State) (ls : List Label)
    (P : State → Bool) (hi : M.init s) (h : (M.exec s ls).any P = true) :
    ∃ tr s', M.Run tr s' ∧ P s' = true := by
  obtain ⟨s', he, hP⟩ := (Option.any_eq_true _ _).mp h
  obtain ⟨tr, hr⟩ := (Run.start hi).exec he
  exact ⟨tr, s', hr, hP⟩

def record (M : Machine State Label) :
    List (State × Label) → State → List Label → Option (List (State × Label) × State)
  | tr, s, [] => some (tr, s)
  | tr, s, l :: ls => (M.step s l).bind fun s' => M.record ((s, l) :: tr) s' ls

theorem Run.record {tr : List (State × Label)} {s : State} {ls : List Label}
    {r : List (State × Label) × State} (hr : M.Run tr s) (he : M.record tr s ls = some r) :
    M.Run r.1 r.2 := by
  induction ls generalizing tr s with
  | nil =>
    cases he
    exact hr
  | cons l ls ih =>
    obtain ⟨t, ht, he⟩ := Option.bind_eq_some_iff.mp he
    exact ih (hr.next ht) he

theorem exists_run_of_record (M : Machine State Label) (s : State) (ls : List Label)
    (P : List (State × Label) → State → Bool) (hi : M.init s)
    (h : (M.record [] s ls).any (fun r => P r.1 r.2) = true) :
    ∃ tr s', M.Run tr s' ∧ P tr s' = true := by
  obtain ⟨r, he, hP⟩ := (Option.any_eq_true _ _).mp h
  exact ⟨r.1, r.2, (Run.start hi).record he, hP⟩

def after (M : Machine State Label) (s : State) : Machine State Label where
  init := (· = s)
  step := M.step

theorem Run.append {tr later : List (State × Label)} {s s' : State} (hr : M.Run tr s)
    (hl : (M.after s).Run later s') : M.Run (later ++ tr) s' := by
  induction hl with
  | start h =>
    cases h
    exact hr
  | next _ hs ih => exact ih.next hs

theorem Run.split {tr later : List (State × Label)} {s' : State} (hr : M.Run (later ++ tr) s') :
    ∃ s, M.Run tr s ∧ (M.after s).Run later s' := by
  induction later generalizing s' with
  | nil => exact ⟨s', hr, .start rfl⟩
  | cons p later ih =>
    cases hr with
    | next hr hs =>
      obtain ⟨s, hr, hl⟩ := ih hr
      exact ⟨s, hr, hl.next hs⟩

def execThrough (M : Machine State Label) (Q : State → Bool) : State → List Label → Option State
  | s, [] => if Q s then some s else none
  | s, l :: ls => if Q s then (M.step s l).bind fun s' => M.execThrough Q s' ls else none

theorem Run.execThrough {Q : State → Bool} {tr : List (State × Label)} {s s' : State}
    {ls : List Label} (hr : M.Run tr s) (hq : ∀ x ∈ tr.map Prod.fst, Q x = true)
    (he : M.execThrough Q s ls = some s') :
    ∃ tr', M.Run tr' s' ∧ ∀ x, Visits tr' s' x → Q x = true := by
  induction ls generalizing tr s with
  | nil =>
    simp only [Machine.execThrough, Option.ite_none_right_eq_some, Option.some.injEq] at he
    obtain ⟨hs, rfl⟩ := he
    refine ⟨tr, hr, fun x hx => ?_⟩
    rcases hx with rfl | hx
    · exact hs
    · exact hq x hx
  | cons l ls ih =>
    simp only [Machine.execThrough, Option.ite_none_right_eq_some] at he
    obtain ⟨hs, he⟩ := he
    obtain ⟨t, ht, he⟩ := Option.bind_eq_some_iff.mp he
    refine ih (hr.next ht) ?_ he
    simpa using ⟨hs, by simpa using hq⟩

theorem exists_run_through (M : Machine State Label) (s : State) (ls : List Label)
    (Q P : State → Bool) (hi : M.init s) (h : (M.execThrough Q s ls).any P = true) :
    ∃ tr s', M.Run tr s' ∧ (∀ x, Visits tr s' x → Q x = true) ∧ P s' = true := by
  obtain ⟨s', he, hP⟩ := (Option.any_eq_true _ _).mp h
  obtain ⟨tr, hr, hQ⟩ := (Run.start hi).execThrough (by simp) he
  exact ⟨tr, s', hr, hQ, hP⟩

section Rules

variable {I : State → Prop} {G : State → Label → Prop}

/-- The invariant rule: `I` holds at the end of every run whose steps all meet `G`. -/
theorem Run.invariant (hinit : ∀ s, M.init s → I s)
    (hstep : ∀ s l s', I s → G s l → M.step s l = some s' → I s')
    {tr : List (State × Label)} {s : State} (hr : M.Run tr s)
    (hg : ∀ p ∈ tr, G p.1 p.2) : I s := by
  induction hr with
  | start h => exact hinit _ h
  | @next tr s l s' _ h ih =>
    have hG : G s l := hg _ List.mem_cons_self
    exact hstep _ _ _ (ih fun p hp => hg p (List.mem_cons_of_mem _ hp)) hG h

theorem Run.steps {L : State → Label → Prop} (hinit : ∀ s, M.init s → I s)
    (hstep : ∀ s l s', I s → G s l → M.step s l = some s' → I s')
    (hL : ∀ s l s', I s → G s l → M.step s l = some s' → L s l)
    {tr : List (State × Label)} {s : State} (hr : M.Run tr s) (hg : ∀ p ∈ tr, G p.1 p.2) :
    ∀ p ∈ tr, L p.1 p.2 := by
  induction hr with
  | start => simp
  | @next tr s l s' hr hs ih =>
    obtain ⟨hl, hg⟩ := List.forall_mem_cons.mp hg
    exact List.forall_mem_cons.mpr ⟨hL s l s' (hr.invariant hinit hstep hg) hl hs, ih hg⟩

theorem Run.always (hinit : ∀ s, M.init s → I s)
    (hstep : ∀ s l s', I s → M.step s l = some s' → I s')
    {tr : List (State × Label)} {s : State} (hr : M.Run tr s) : I s :=
  hr.invariant (G := fun _ _ => True) hinit (fun s l s' hI _ => hstep s l s' hI)
    fun _ _ => trivial

theorem Run.visited (hinit : ∀ s, M.init s → I s)
    (hstep : ∀ s l s', I s → G s l → M.step s l = some s' → I s')
    {tr : List (State × Label)} {s : State} (hr : M.Run tr s)
    (hg : ∀ p ∈ tr, G p.1 p.2) {x : State} (hx : Visits tr s x) : I x := by
  induction hr with
  | start h =>
    rw [visits_nil.mp hx]
    exact hinit _ h
  | @next tr s l s' hr h ih =>
    rcases visits_cons.mp hx with rfl | hx
    · exact (hr.next h).invariant hinit hstep hg
    · exact ih (fun p hp => hg p (List.mem_cons_of_mem _ hp)) hx

/-- The exactness rule for states: when a step outside `G` lands in a state
without `P`, a run keeps `P` everywhere exactly when it never leaves `G`. -/
theorem Run.visited_iff {P : State → Prop} (hinit : ∀ s, M.init s → I s)
    (hstep : ∀ s l s', I s → G s l → M.step s l = some s' → I s')
    (hP : ∀ s, I s → P s)
    (hbad : ∀ s l s', I s → ¬ G s l → M.step s l = some s' → ¬ P s')
    {tr : List (State × Label)} {s : State} (hr : M.Run tr s) :
    (∀ x, Visits tr s x → P x) ↔ ∀ p ∈ tr, G p.1 p.2 := by
  refine ⟨fun h => ?_, fun hg x hx => hP x (hr.visited hinit hstep hg hx)⟩
  induction hr with
  | start => intro p hp; cases hp
  | @next tr s l s' hr hs ih =>
    have hg := ih fun x hx => h x (visits_cons.mpr (Or.inr hx))
    intro p hp
    rcases List.mem_cons.mp hp with rfl | hp
    · by_contra hG
      exact hbad s l s' (hr.invariant hinit hstep hg) hG hs (h s' (Or.inl rfl))
    · exact hg p hp

/-- The exactness rule for steps: when `L` and `G` agree on the steps taken where
`I` holds, a run has only `L` steps exactly when it has only `G` steps. -/
theorem Run.steps_iff {L : State → Label → Prop} (hinit : ∀ s, M.init s → I s)
    (hstep : ∀ s l s', I s → G s l → M.step s l = some s' → I s')
    (hL : ∀ s l s', I s → M.step s l = some s' → (L s l ↔ G s l))
    {tr : List (State × Label)} {s : State} (hr : M.Run tr s) :
    (∀ p ∈ tr, L p.1 p.2) ↔ ∀ p ∈ tr, G p.1 p.2 := by
  induction hr with
  | start => simp
  | @next tr s l s' hr hs ih =>
    simp only [List.forall_mem_cons]
    constructor
    · rintro ⟨hl, htr⟩
      have hg := ih.mp htr
      exact ⟨(hL s l s' (hr.invariant hinit hstep hg) hs).mp hl, hg⟩
    · rintro ⟨hG, hg⟩
      exact ⟨(hL s l s' (hr.invariant hinit hstep hg) hs).mpr hG, ih.mpr hg⟩

/-- The exactness rule for last states: when a step outside `G` leads into `B`, which no
step leaves, a run ends in `I` exactly when it never leaves `G`. -/
theorem Run.good_or_bad {B : State → Prop} (hinit : ∀ s, M.init s → I s)
    (hstep : ∀ s l s', I s → G s l → M.step s l = some s' → I s')
    (hleave : ∀ s l s', I s → ¬ G s l → M.step s l = some s' → B s')
    (hbad : ∀ s l s', B s → M.step s l = some s' → B s')
    {tr : List (State × Label)} {s : State} (hr : M.Run tr s) :
    (∀ p ∈ tr, G p.1 p.2) ∧ I s ∨ ¬ (∀ p ∈ tr, G p.1 p.2) ∧ B s := by
  induction hr with
  | start h => exact .inl ⟨by simp, hinit _ h⟩
  | @next tr s l s' hr hs ih =>
    simp only [List.forall_mem_cons]
    rcases ih with ⟨hg, hI⟩ | ⟨hg, hB⟩
    · by_cases hG : G s l
      · exact .inl ⟨⟨hG, hg⟩, hstep s l s' hI hG hs⟩
      · exact .inr ⟨fun h => hG h.1, hleave s l s' hI hG hs⟩
    · exact .inr ⟨fun h => hg h.2, hbad s l s' hB hs⟩

end Rules

end Machine

end Dert.Library
