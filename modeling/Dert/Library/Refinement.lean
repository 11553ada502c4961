universe u v w x

namespace Dert.Library

/-! Objects whose calls change a state and return a reply, and the simulation rule
by which one object refines another. -/

variable {S : Type u} {T : Type v} {I : Type w} {R : Type x}

def final (f : S → I → S × R) : S → List I → S
  | s, [] => s
  | s, i :: is => final f (f s i).1 is

def replies (f : S → I → S × R) : S → List I → List R
  | _, [] => []
  | s, i :: is => (f s i).2 :: replies f (f s i).1 is

def Along (f : S → I → S × R) (P : S → I → Prop) : S → List I → Prop
  | _, [] => True
  | s, i :: is => P s i ∧ Along f P (f s i).1 is

theorem along_of_forall {f : S → I → S × R} {P : S → I → Prop} (h : ∀ s i, P s i) (s : S)
    (is : List I) : Along f P s is := by
  induction is generalizing s with
  | nil => trivial
  | cons i is ih => exact ⟨h s i, ih _⟩

theorem final_append (f : S → I → S × R) (s : S) (is js : List I) :
    final f s (is ++ js) = final f (final f s is) js := by
  induction is generalizing s with
  | nil => rfl
  | cons i is ih => exact ih _

theorem replies_append (f : S → I → S × R) (s : S) (is js : List I) :
    replies f s (is ++ js) = replies f s is ++ replies f (final f s is) js := by
  induction is generalizing s with
  | nil => rfl
  | cons i is ih => simp only [List.cons_append, replies, final, ih]

/-- Related objects return the same replies and stay related, when each call made
under `P` on one side and `Q` on the other does so. -/
theorem simulation {f : S → I → S × R} {g : T → I → T × R} {P : S → I → Prop}
    {Q : T → I → Prop} {Rel : S → T → Prop}
    (hstep : ∀ s t i, Rel s t → P s i → Q t i →
      (f s i).2 = (g t i).2 ∧ Rel (f s i).1 (g t i).1)
    {s : S} {t : T} {is : List I} (h : Rel s t) (hP : Along f P s is) (hQ : Along g Q t is) :
    replies f s is = replies g t is ∧ Rel (final f s is) (final g t is) := by
  induction is generalizing s t with
  | nil => exact ⟨rfl, h⟩
  | cons i is ih =>
    obtain ⟨hreply, hnext⟩ := hstep s t i h hP.1 hQ.1
    obtain ⟨hreplies, hfinal⟩ := ih hnext hP.2 hQ.2
    exact ⟨by rw [replies, replies, hreply, hreplies], hfinal⟩

/-- Two guards that agree wherever the objects are related hold at the same calls,
when the related objects stay related under one of them. -/
theorem along_iff {f : S → I → S × R} {g : T → I → T × R} {P P' : S → I → Prop}
    {Q : T → I → Prop} {Rel : S → T → Prop}
    (hstep : ∀ s t i, Rel s t → P s i → Q t i → Rel (f s i).1 (g t i).1)
    (hiff : ∀ s t i, Rel s t → Q t i → (P' s i ↔ P s i))
    {s : S} {t : T} {is : List I} (h : Rel s t) (hQ : Along g Q t is) :
    Along f P' s is ↔ Along f P s is := by
  induction is generalizing s t with
  | nil => exact Iff.rfl
  | cons i is ih =>
    simp only [Along, hiff s t i h hQ.1]
    exact and_congr_right fun hP => ih (hstep s t i h hP hQ.1) hQ.2

theorem along_of_final_lt {f : S → I → S × R} {size : S → Nat} {bound : Nat}
    (hmono : ∀ s i, size s ≤ size (f s i).1) {s : S} {is : List I}
    (h : size (final f s is) < bound) : Along f (fun s i => size (f s i).1 < bound) s is := by
  have hle : ∀ (is : List I) (s : S), size s ≤ size (final f s is) := by
    intro is
    induction is with
    | nil => exact fun _ => Nat.le_refl _
    | cons i is ih => exact fun s => Nat.le_trans (hmono s i) (ih _)
  induction is generalizing s with
  | nil => trivial
  | cons i is ih => exact ⟨Nat.lt_of_le_of_lt (hle is _) h, ih h⟩

end Dert.Library
