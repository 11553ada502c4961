import Dert.Library.Machine
import Dert.Library.Memory
import Dert.Library.Refinement

universe u v w x y z

namespace Dert.Library

/-- Structures that live in a memory: what a call does to the one at a place, the extents
that one owns, the calls a caller may make and those that end it. -/
structure Resident (β : Type u) (Place : Type v) (Call : Type w) (Reply : Type x) where
  call : Place → Memory β → Call → Memory β × Reply
  extents : Place → List Extent
  allows : Call → Bool
  ends : Call → Bool

namespace Resident

open Memory Machine

variable {β : Type u} {Place : Type v} {Call : Type w} {Reply : Type x} {S : Type y}
  {ι : Type z} [DecidableEq ι] {R : Resident β Place Call Reply}

structure Shared (β : Type u) (ι : Type z) where
  memory : Memory β
  ended : List ι

def machine (R : Resident β Place Call Reply) (place : ι → Place) (m : Memory β) :
    Machine (Shared β ι) (ι × Call) where
  init s := s = ⟨m, []⟩
  step s l :=
    if l.1 ∈ s.ended ∨ R.allows l.2 = false then none
    else
      some ⟨(R.call (place l.1) s.memory l.2).1,
        if R.ends l.2 then l.1 :: s.ended else s.ended⟩

def calls (i : ι) : List (Shared β ι × ι × Call) → List Call
  | [] => []
  | (_, l) :: tr => if l.1 = i then calls i tr ++ [l.2] else calls i tr

def returned (R : Resident β Place Call Reply) (place : ι → Place) (i : ι) :
    List (Shared β ι × ι × Call) → List Reply
  | [] => []
  | (s, l) :: tr =>
    if l.1 = i then R.returned place i tr ++ [(R.call (place i) s.memory l.2).2]
    else R.returned place i tr

def Served (R : Resident β Place Call Reply) : List Call → Prop
  | [] => True
  | c :: cs => R.allows c = true ∧ (R.ends c = true → cs = []) ∧ R.Served cs

/-- A structure at a place stands for a value.  Its calls write nothing but its own extents
and return what the value's calls return. -/
structure Refines (R : Resident β Place Call Reply) (Rep : Place → Memory β → S → Prop)
    (model : S → Call → S × Reply) : Prop where
  frame : ∀ {p m m' s}, Rep p m s → (∀ a ∈ R.extents p, Agree a m m') → Rep p m' s
  confined : ∀ {p m s c}, Rep p m s → R.allows c = true →
    Confined (R.extents p) m (R.call p m c).1
  reply : ∀ {p m s c}, Rep p m s → R.allows c = true → (R.call p m c).2 = (model s c).2
  next : ∀ {p m s c}, Rep p m s → R.allows c = true → R.ends c = false →
    Rep p (R.call p m c).1 (model s c).1

structure Step (R : Resident β Place Call Reply) (Rep : Place → Memory β → S → Prop) (p : Place)
    (m : Memory β) (r : Memory β × Reply) (r' : S × Reply) : Prop where
  confined : Confined (R.extents p) m r.1
  reply : r.2 = r'.2
  rep : Rep p r.1 r'.1

/-- Structures in a block do not interfere: a call writes only what its own structure owns,
leaves what the others own, and returns what the same calls return on a structure that is
alone in a memory. -/
structure SideBySide (R : Resident β Place Call Reply) (place : ι → Place) (block : Extent)
    (m : Memory β) (Alone : Place → Memory β → Prop) : Prop where
  within : ∀ i, ∀ a ∈ R.extents (place i), a.Within block
  writes : ∀ {tr s}, (R.machine place m).Run tr s → ∀ t i c, (t, i, c) ∈ tr →
    Confined (R.extents (place i)) t.memory (R.call (place i) t.memory c).1
  others : ∀ {tr s}, (R.machine place m).Run tr s → ∀ t i c, (t, i, c) ∈ tr → ∀ j ≠ i,
    ∀ a ∈ R.extents (place j), Agree a t.memory (R.call (place i) t.memory c).1
  alone : ∀ {tr s}, (R.machine place m).Run tr s → ∀ i p m', Alone p m' →
    R.returned place i tr = replies (R.call p) m' (calls i tr)

theorem Served.snoc {cs : List Call} {c : Call} (h : R.Served cs)
    (hends : ∀ c ∈ cs, R.ends c = false) (hc : R.allows c = true) : R.Served (cs ++ [c]) := by
  induction cs with
  | nil => exact ⟨hc, fun _ => rfl, trivial⟩
  | cons d cs ih =>
    obtain ⟨hd, hcs⟩ := List.forall_mem_cons.mp hends
    exact ⟨h.1, fun hend => by simp [hd] at hend, ih h.2.2 hcs⟩

namespace Refines

variable {Rep : Place → Memory β → S → Prop} {model : S → Call → S × Reply} {p : Place}
  {m : Memory β} {s₀ : S} {cs : List Call}

theorem of_steps
    (hframe : ∀ {p m m' s}, Rep p m s → (∀ a ∈ R.extents p, Agree a m m') → Rep p m' s)
    (hstep : ∀ {p m s c}, Rep p m s → R.allows c = true → R.ends c = false →
      R.Step Rep p m (R.call p m c) (model s c))
    (hend : ∀ {p m s c}, Rep p m s → R.ends c = true →
      Confined (R.extents p) m (R.call p m c).1 ∧ (R.call p m c).2 = (model s c).2) :
    R.Refines Rep model where
  frame := hframe
  confined {p m s c} hrep hc := by
    cases hends : R.ends c with
    | false => exact (hstep hrep hc hends).confined
    | true => exact (hend hrep hends).1
  reply {p m s c} hrep hc := by
    cases hends : R.ends c with
    | false => exact (hstep hrep hc hends).reply
    | true => exact (hend hrep hends).2
  next hrep hc hends := (hstep hrep hc hends).rep

theorem replies (h : R.Refines Rep model) (hrep : Rep p m s₀) (hs : R.Served cs) :
    Library.replies (R.call p) m cs = Library.replies model s₀ cs := by
  induction cs generalizing m s₀ with
  | nil => rfl
  | cons c cs ih =>
    obtain ⟨hc, hend, hcs⟩ := hs
    rw [Library.replies, Library.replies, h.reply hrep hc]
    cases hends : R.ends c with
    | true =>
      rw [hend hends]
      rfl
    | false => rw [ih (h.next hrep hc hends) hcs]

structure At (R : Resident β Place Call Reply) (Rep : Place → Memory β → S → Prop)
    (model : S → Call → S × Reply) (place : ι → Place) (s₀ : S)
    (tr : List (Shared β ι × ι × Call)) (s : Shared β ι) (i : ι) : Prop where
  returned : R.returned place i tr = Library.replies model s₀ (calls i tr)
  served : R.Served (calls i tr)
  live : i ∉ s.ended → (∀ c ∈ calls i tr, R.ends c = false) ∧
    Rep (place i) s.memory (final model s₀ (calls i tr))

variable {place : ι → Place} {tr : List (Shared β ι × ι × Call)} {s s' : Shared β ι} {i j : ι}
  {c : Call}

theorem At.other (h : R.Refines Rep model) (hi : At R Rep model place s₀ tr s i) (hij : j ≠ i)
    (hended : i ∉ s'.ended → i ∉ s.ended)
    (hkept : ∀ a ∈ R.extents (place i), Agree a s.memory s'.memory) :
    At R Rep model place s₀ ((s, j, c) :: tr) s' i where
  returned := by
    rw [Resident.returned, calls, if_neg hij, if_neg hij]
    exact hi.returned
  served := by
    rw [calls, if_neg hij]
    exact hi.served
  live hlive := by
    obtain ⟨hends, hrep⟩ := hi.live (hended hlive)
    rw [calls, if_neg hij]
    exact ⟨hends, h.frame hrep hkept⟩

theorem At.own (h : R.Refines Rep model) (hi : At R Rep model place s₀ tr s i)
    (hlive : i ∉ s.ended) (hc : R.allows c = true)
    (hmemory : s'.memory = (R.call (place i) s.memory c).1)
    (hended : i ∉ s'.ended → R.ends c = false) :
    At R Rep model place s₀ ((s, i, c) :: tr) s' i := by
  obtain ⟨hends, hrep⟩ := hi.live hlive
  refine ⟨?_, ?_, fun hlive' => ?_⟩
  · rw [Resident.returned, calls, if_pos rfl, if_pos rfl, replies_append, hi.returned,
      h.reply hrep hc]
    rfl
  · rw [calls, if_pos rfl]
    exact hi.served.snoc hends hc
  · have hend := hended hlive'
    rw [calls, if_pos rfl, final_append, hmemory]
    refine ⟨fun d hd => ?_, h.next hrep hc hend⟩
    rcases List.mem_append.mp hd with hd | hd
    · exact hends d hd
    · rwa [List.mem_singleton.mp hd]

section Runs

variable (h : R.Refines Rep model)
  (hapart : ∀ i j, i ≠ j → ∀ a ∈ R.extents (place i), ∀ b ∈ R.extents (place j), a.Apart b)

include h hapart in
theorem step (hs : (R.machine place m).step s (j, c) = some s')
    (hat : ∀ i, At R Rep model place s₀ tr s i) (i : ι) :
    At R Rep model place s₀ ((s, j, c) :: tr) s' i := by
  simp only [machine, Option.ite_none_left_eq_some, not_or, Bool.not_eq_false,
    Option.some.injEq] at hs
  obtain ⟨⟨hlive, hc⟩, rfl⟩ := hs
  have hrep := ((hat j).live hlive).2
  by_cases hij : j = i
  · subst hij
    refine (hat j).own h hlive hc rfl fun hlive' => ?_
    by_contra hend
    refine hlive' ?_
    dsimp only
    rw [if_pos ((Bool.not_eq_false _).mp hend)]
    exact List.mem_cons_self
  · refine (hat i).other h hij (fun hlive' => ?_) ?_
    · intro hi
      refine hlive' ?_
      dsimp only
      split
      · exact List.mem_cons_of_mem _ hi
      · exact hi
    · exact fun a ha => (h.confined hrep hc).agree fun b hb => hapart j i hij b hb a ha

variable (hinit : ∀ i, Rep (place i) m s₀) (hr : (R.machine place m).Run tr s)

include h hapart hinit hr in
theorem run (i : ι) : At R Rep model place s₀ tr s i := by
  induction hr generalizing i with
  | start hs =>
    obtain rfl := hs
    exact ⟨rfl, trivial, fun _ => ⟨by simp [calls], hinit i⟩⟩
  | next _ hs ih => exact h.step hapart hs ih i

include h hapart hinit hr in
theorem writes (t : Shared β ι) (i : ι) (c : Call) (ht : (t, i, c) ∈ tr) :
    Confined (R.extents (place i)) t.memory (R.call (place i) t.memory c).1 := by
  induction hr with
  | start => cases ht
  | next hr hs ih =>
    rcases List.mem_cons.mp ht with heq | ht
    · obtain ⟨rfl, rfl⟩ := Prod.mk.inj heq
      simp only [machine, Option.ite_none_left_eq_some, not_or, Bool.not_eq_false] at hs
      obtain ⟨⟨hlive, hc⟩, -⟩ := hs
      exact h.confined ((h.run hapart hinit hr i).live hlive).2 hc
    · exact ih ht

end Runs

/-- Structures that own separate extents do not interfere. -/
theorem sideBySide {block : Extent} {Alone : Place → Memory β → Prop} (h : R.Refines Rep model)
    (hapart : ∀ i j, i ≠ j → ∀ a ∈ R.extents (place i), ∀ b ∈ R.extents (place j), a.Apart b)
    (hwithin : ∀ i, ∀ a ∈ R.extents (place i), a.Within block)
    (hinit : ∀ i, Rep (place i) m s₀) (halone : ∀ p m', Alone p m' → Rep p m' s₀) :
    R.SideBySide place block m Alone where
  within := hwithin
  writes hr := h.writes hapart hinit hr
  others hr t i c ht j hij a ha :=
    (h.writes hapart hinit hr t i c ht).agree fun b hb => hapart i j hij.symm b hb a ha
  alone hr i p m' hp := by
    have hat := h.run hapart hinit hr i
    rw [hat.returned, h.replies (halone p m' hp) hat.served]

end Refines

end Resident

end Dert.Library
