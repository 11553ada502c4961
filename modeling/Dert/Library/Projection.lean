import Dert.Library.Machine

universe u v w x

namespace Dert.Library.Machine

variable {State : Type u} {Label : Type v} {State' : Type w} {Label' : Type x}
  {M : Machine State Label} {N : Machine State' Label'} {part : State' → State}

/-- Each step of `N` leaves a part of its state alone, or takes a step of `M` there. -/
structure Projects (N : Machine State' Label') (M : Machine State Label) (part : State' → State) :
    Prop where
  init : ∀ s, N.init s → M.init (part s)
  step : ∀ s l s', N.step s l = some s' →
    part s' = part s ∨ ∃ m, M.step (part s) m = some (part s')

theorem Projects.run (h : N.Projects M part) {tr : List (State' × Label')} {s : State'}
    (hr : N.Run tr s) : ∃ tr', M.Run tr' (part s) := by
  induction hr with
  | start hi => exact ⟨[], .start (h.init _ hi)⟩
  | next _ hs ih =>
    obtain ⟨tr', hr'⟩ := ih
    rcases h.step _ _ _ hs with hsame | ⟨m, hm⟩
    · exact ⟨tr', hsame ▸ hr'⟩
    · exact ⟨_, hr'.next hm⟩

end Dert.Library.Machine
