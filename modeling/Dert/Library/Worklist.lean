import Mathlib.Data.List.Basic
import Mathlib.Algebra.BigOperators.Group.List.Basic
import Mathlib.Algebra.GroupWithZero.Nat

universe u

namespace Dert.Library.Worklist

variable {α : Type u} (kids : α → List α)

/-- The items in the order in which a queue is worked off: each puts its children at the end. -/
def workOff : Nat → List α → List α
  | 0, _ => []
  | _, [] => []
  | fuel + 1, a :: queue => a :: workOff fuel (queue ++ kids a)

def load (weight : α → Nat) (queue : List α) : Nat := (queue.map weight).sum

variable {kids} {P : α → Prop} {weight bound : α → Nat} {queue : List α} {a : α} {fuel : Nat}

@[simp] theorem load_nil : load weight [] = 0 := rfl

@[simp] theorem load_cons : load weight (a :: queue) = weight a + load weight queue := by
  simp [load]

@[simp] theorem load_append (queue more : List α) :
    load weight (queue ++ more) = load weight queue + load weight more := by
  simp [load]

theorem forall_next (hkids : ∀ a, P a → ∀ b ∈ kids a, P b) (ha : P a) (hqueue : ∀ b ∈ queue, P b) :
    ∀ b ∈ queue ++ kids a, P b := by
  intro b hb
  rcases List.mem_append.mp hb with hb | hb
  · exact hqueue b hb
  · exact hkids a ha b hb

theorem load_le_countP (hkids : ∀ a, P a → ∀ b ∈ kids a, P b) (hqueue : ∀ a ∈ queue, P a)
    (hweight : ∀ a, P a → weight a = load weight (kids a) + 1) (hfuel : load weight queue ≤ fuel)
    (p : α → Bool) (hbound : ∀ a, P a → bound a ≤ (if p a then 1 else 0) + load bound (kids a)) :
    load bound queue ≤ (workOff kids fuel queue).countP p := by
  induction fuel generalizing queue with
  | zero =>
    cases queue with
    | nil => exact Nat.le_refl 0
    | cons a queue =>
      have hone := hweight a (hqueue a List.mem_cons_self)
      rw [load_cons] at hfuel
      omega
  | succ fuel ih =>
    cases queue with
    | nil => exact Nat.le_refl 0
    | cons a queue =>
      obtain ⟨ha, hqueue⟩ := List.forall_mem_cons.mp hqueue
      have hone := hweight a ha
      have hle := hbound a ha
      rw [load_cons] at hfuel ⊢
      have hrest : load bound (queue ++ kids a) ≤ (workOff kids fuel (queue ++ kids a)).countP p := by
        apply ih (forall_next hkids ha hqueue)
        rw [load_append]
        omega
      rw [load_append] at hrest
      rw [workOff, List.countP_cons]
      omega

end Dert.Library.Worklist
