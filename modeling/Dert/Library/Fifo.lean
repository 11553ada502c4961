import Mathlib.Data.List.Basic

universe u

namespace Dert.Library

/-- A first-in first-out queue of at most `cap` elements, the next one out first. -/
structure Fifo (α : Type u) (cap : Nat) where
  list : List α
  bounded : list.length ≤ cap

namespace Fifo

variable {α : Type u} {cap : Nat}

@[ext] theorem ext {q r : Fifo α cap} (h : q.list = r.list) : q = r := by
  cases q
  cases r
  cases h
  rfl

def empty : Fifo α cap := ⟨[], Nat.zero_le _⟩

def length (q : Fifo α cap) : Nat := q.list.length

def room (q : Fifo α cap) : Nat := cap - q.length

def push (q : Fifo α cap) (x : α) : Option (Fifo α cap) :=
  if h : q.list.length < cap then some ⟨q.list ++ [x], by simpa using Nat.succ_le_of_lt h⟩ else none

def shift (q : Fifo α cap) (x : α) : Fifo α cap :=
  ⟨(q.list ++ [x]).tail, by simpa using q.bounded⟩

def force (q : Fifo α cap) (x : α) : Fifo α cap := (q.push x).getD (q.shift x)

def pop (q : Fifo α cap) : Option (α × Fifo α cap) :=
  match q with
  | ⟨[], _⟩ => none
  | ⟨x :: xs, h⟩ => some (x, ⟨xs, Nat.le_of_succ_le h⟩)

def drop (q : Fifo α cap) (n : Nat) : Fifo α cap :=
  ⟨q.list.drop n, by rw [List.length_drop]; exact Nat.le_trans (Nat.sub_le _ _) q.bounded⟩

@[simp] theorem length_empty : (empty : Fifo α cap).length = 0 := rfl

@[simp] theorem list_empty : (empty : Fifo α cap).list = [] := rfl

theorem push_of_lt {q : Fifo α cap} (h : q.length < cap) (x : α) :
    q.push x = some ⟨q.list ++ [x], by rw [List.length_append]; exact h⟩ := dif_pos h

theorem push_of_full {q : Fifo α cap} (h : q.length = cap) (x : α) : q.push x = none :=
  dif_neg (by rw [show q.list.length = cap from h]; exact Nat.lt_irrefl cap)

theorem push_eq_some {q r : Fifo α cap} {x : α} (h : q.push x = some r) :
    r.list = q.list ++ [x] ∧ q.length < cap := by
  by_cases hlt : q.length < cap
  · rw [push_of_lt hlt, Option.some.injEq] at h
    exact ⟨h ▸ rfl, hlt⟩
  · rw [push_of_full (Nat.le_antisymm q.bounded (Nat.le_of_not_lt hlt))] at h
    cases h

theorem push_eq_none {q : Fifo α cap} {x : α} : q.push x = none ↔ q.length = cap := by
  constructor
  · intro h
    by_contra hne
    rw [push_of_lt (Nat.lt_of_le_of_ne q.bounded hne)] at h
    cases h
  · exact fun h => push_of_full h x

theorem pop_eq_some {q r : Fifo α cap} {x : α} (h : q.pop = some (x, r)) :
    q.list = x :: r.list := by
  obtain ⟨xs, hxs⟩ := q
  cases xs with
  | nil => cases h
  | cons y ys =>
    cases h
    rfl

theorem pop_eq_none {q : Fifo α cap} : q.pop = none ↔ q.list = [] := by
  obtain ⟨xs, hxs⟩ := q
  cases xs <;> simp [pop]

theorem force_list (q : Fifo α cap) (x : α) :
    (q.force x).list = (q.list ++ [x]).drop (q.length + 1 - cap) := by
  by_cases h : q.length < cap
  · rw [force, push_of_lt h, Nat.sub_eq_zero_of_le h]
    rfl
  · have hfull : q.length = cap := Nat.le_antisymm q.bounded (Nat.le_of_not_lt h)
    rw [force, push_of_full hfull, hfull, Nat.add_sub_cancel_left]
    exact List.drop_one.symm

theorem foldl_force_list (q : Fifo α cap) (xs : List α) :
    (xs.foldl force q).list = (q.list ++ xs).drop (q.length + xs.length - cap) := by
  induction xs generalizing q with
  | nil =>
    have hzero : q.length - cap = 0 := Nat.sub_eq_zero_of_le q.bounded
    simp [hzero]
  | cons x xs ih =>
    have hlen : (q.force x).length = q.length + 1 - (q.length + 1 - cap) := by
      rw [length, force_list, List.length_drop, List.length_append]
      rfl
    have happ : (q.list ++ [x]).drop (q.length + 1 - cap) ++ xs =
        (q.list ++ x :: xs).drop (q.length + 1 - cap) := by
      rw [← List.drop_append_of_le_length, List.append_assoc]
      · rfl
      · rw [List.length_append]
        exact Nat.sub_le _ _
    rw [List.foldl_cons, ih, force_list, happ, List.drop_drop, hlen, List.length_cons]
    congr 1
    have := q.bounded
    change q.length ≤ cap at this
    omega

inductive Event (α : Type u)
  | idle
  | pushed (xs : List α)
  | refused
  | popped (xs : List α)
  | missed

def Event.given : Event α → List α
  | .pushed xs => xs
  | _ => []

def Event.taken : Event α → List α
  | .popped xs => xs
  | _ => []

inductive Allows (q : Fifo α cap) : Event α → Fifo α cap → Prop
  | idle : Allows q .idle q
  | pushed (xs r) : r.list = q.list ++ xs → Allows q (.pushed xs) r
  | refused : q.length = cap → Allows q .refused q
  | popped (xs r) : q.list = xs ++ r.list → Allows q (.popped xs) r
  | missed : q.list = [] → Allows q .missed q

theorem allows_pushed_iff {q r : Fifo α cap} {x : α} :
    Allows q (.pushed [x]) r ↔ q.push x = some r := by
  constructor
  · rintro ⟨⟩
    next h =>
      have hlt : q.length < cap := by
        have hr := r.bounded
        rw [h, List.length_append] at hr
        exact hr
      rw [push_of_lt hlt, Option.some.injEq]
      exact ext h.symm
  · exact fun h => .pushed [x] r (push_eq_some h).1

theorem allows_popped_iff {q r : Fifo α cap} {x : α} :
    Allows q (.popped [x]) r ↔ q.pop = some (x, r) := by
  constructor
  · rintro ⟨⟩
    next h =>
      cases hpop : q.pop with
      | none =>
        rw [pop_eq_none.mp hpop] at h
        cases h
      | some popped =>
        have hlist := (pop_eq_some hpop).symm.trans h
        simp only [List.singleton_append, List.cons.injEq] at hlist
        rw [← hlist.1, ← ext hlist.2]
  · exact fun h => .popped [x] r (pop_eq_some h)

theorem allows_of_balance {q r : Fifo α cap} {event : Event α}
    (h : q.list ++ event.given = event.taken ++ r.list) (hrefused : event = .refused → q.length = cap)
    (hmissed : event = .missed → q.list = []) : Allows q event r := by
  cases event with
  | idle =>
    simp only [Event.given, Event.taken, List.append_nil, List.nil_append] at h
    rw [ext h]
    exact .idle
  | pushed xs => exact .pushed xs r h.symm
  | refused =>
    simp only [Event.given, Event.taken, List.append_nil, List.nil_append] at h
    rw [← ext h]
    exact .refused (hrefused rfl)
  | popped xs =>
    simp only [Event.given, List.append_nil] at h
    exact .popped xs r h
  | missed =>
    simp only [Event.given, Event.taken, List.append_nil, List.nil_append] at h
    rw [← ext h]
    exact .missed (hmissed rfl)

end Fifo

end Dert.Library
