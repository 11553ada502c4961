import Dert.Library.Refinement
import Dert.Queue.Vqueue

universe u

namespace Dert.Vqueue

open Library Library.Cyclic

variable {α : Type u} {cap : Nat} {q q' : Vqueue α} {s s' : Spec α cap}

section Spec

theorem Spec.enqueue_accepts {overwrite : Bool}
    (h : overwrite = true ∨ s.queue.length < cap) (src : α) :
    s.enqueue src overwrite = (⟨s.queue.force src, s.total + 1⟩, .ok) := by
  cases overwrite with
  | true => rfl
  | false =>
    have hlt : s.queue.length < cap := h.resolve_left (by simp)
    simp [Spec.enqueue, Fifo.force, Fifo.push_of_lt hlt]

theorem Spec.enqueue_full (h : s.queue.length = cap) (src : α) :
    s.enqueue src false = (s, .EXFULL) := by
  simp [Spec.enqueue, Fifo.push_of_full h]

theorem Spec.foldl_enqueue {overwrite : Bool} (xs : List α)
    (h : overwrite = true ∨ s.queue.length + xs.length ≤ cap) :
    xs.foldl (fun s x => (s.enqueue x overwrite).1) s =
      ⟨xs.foldl Fifo.force s.queue, s.total + xs.length⟩ := by
  induction xs generalizing s with
  | nil => rfl
  | cons x xs ih =>
    have hroom : overwrite = true ∨ s.queue.length < cap :=
      h.imp_right fun h => by rw [List.length_cons] at h; omega
    have hnext : overwrite = true ∨ (s.queue.force x).length + xs.length ≤ cap := by
      refine h.imp_right fun h => ?_
      rw [Fifo.length, Fifo.force_list, List.length_drop, List.length_append]
      simp only [List.length_cons, List.length_nil, Fifo.length] at h ⊢
      omega
    rw [List.foldl_cons, Spec.enqueue_accepts hroom, ih hnext]
    simp only [List.foldl_cons, List.length_cons, Spec.mk.injEq, true_and]
    omega

theorem Spec.accepts_le_cap (n : Nat) (overwrite : Bool) : s.accepts n overwrite ≤ cap := by
  cases overwrite <;> simp [Spec.accepts, Fifo.room]

theorem Spec.foldl_enqueue_take (src : List α) (overwrite : Bool) :
    (src.take (s.accepts src.length overwrite)).foldl (fun s x => (s.enqueue x overwrite).1) s =
      ⟨(src.take (s.accepts src.length overwrite)).foldl Fifo.force s.queue,
        s.total + s.accepts src.length overwrite⟩ := by
  have hlen : (src.take (s.accepts src.length overwrite)).length =
      s.accepts src.length overwrite := by
    rw [List.length_take]
    exact Nat.min_eq_left (Nat.min_le_left _ _)
  rw [Spec.foldl_enqueue, hlen]
  cases overwrite with
  | true => exact Or.inl rfl
  | false =>
    have hbound := s.queue.bounded
    rw [hlen]
    simp only [Spec.accepts, Fifo.room, Fifo.length, Bool.false_eq_true, ite_false] at hbound ⊢
    omega

theorem Spec.total_le_call (s : Spec α cap) (op : Op α) : s.total ≤ (s.call op).1.total := by
  cases op with
  | enqueue src overwrite =>
    simp only [Spec.call, Spec.enqueue]
    split <;> simp
  | dequeue =>
    simp only [Spec.call]
    split <;> exact Nat.le_refl _
  | enqueueSome src overwrite =>
    simp only [Spec.call]
    split
    · exact Nat.le_refl _
    · rw [Spec.foldl_enqueue_take]
      exact Nat.le_add_right _ _
  | dequeueSome n =>
    simp only [Spec.call]
    split <;> exact Nat.le_refl _
  | front => exact Nat.le_refl _
  | back => exact Nat.le_refl _

end Spec

/-- The queue holds the list, and the elements accepted so far bound its cursors. -/
structure Refines (q : Vqueue α) (s : Spec α cap) : Prop where
  cap_eq : q.cap = cap
  cap_pos : 0 < cap
  len_eq : q.len = s.queue.length
  content : window q.elems cap q.front q.len = s.queue.list
  back_eq : q.back % cap = (q.front + q.len) % cap
  front_le : q.front + q.len ≤ s.total
  back_le : q.back ≤ s.total

theorem refines_init (zero : α) (h : vqueueInit zero cap = some q) :
    Refines q (Spec.start cap) := by
  unfold vqueueInit at h
  split at h
  · cases h
  · next hcap =>
    cases h
    exact ⟨rfl, Nat.pos_of_ne_zero hcap, rfl, rfl, rfl, Nat.le_refl _, Nat.le_refl _⟩

namespace Refines

theorem len_le (h : Refines q s) : q.len ≤ cap := by
  rw [h.len_eq]
  exact s.queue.bounded

theorem list_nil_iff (h : Refines q s) : s.queue.list = [] ↔ q.len = 0 := by
  rw [h.len_eq]
  exact List.length_eq_zero_iff.symm

theorem written (h : Refines q s) (xs : List α) (hxs : xs.length ≤ cap)
    (hcap : q'.cap = q.cap) (helems : q'.elems = fill q.elems cap q.back xs)
    (hback : Cursor cap (q.back + xs.length) q'.back)
    (hfront : Cursor cap (q.front + (q.len + xs.length - cap)) q'.front)
    (hlen : q'.len = q.len + xs.length - (q.len + xs.length - cap))
    (hlist : s'.queue.list = (s.queue.list ++ xs).drop (q.len + xs.length - cap))
    (htotal : s'.total = s.total + xs.length) : Refines q' s' := by
  have hle := h.len_le
  have hfl := h.front_le
  have hbl := h.back_le
  obtain ⟨hback, hbackle⟩ := hback
  obtain ⟨hfront, hfrontle⟩ := hfront
  generalize hd : q.len + xs.length - cap = d at *
  have hdlen : d ≤ q.len := by omega
  have hlen' : q'.len = (q.len - d) + xs.length := by omega
  have hwindow : window q.elems cap (q.front + d) (q.len - d) = s.queue.list.drop d := by
    rw [← h.content, ← window_drop, Nat.add_sub_cancel' hdlen]
  have hcontent : window q'.elems cap q'.front q'.len = s'.queue.list := by
    have hstart : q.back % cap = (q.front + d + (q.len - d)) % cap := by
      rw [h.back_eq, Nat.add_assoc, Nat.add_sub_cancel' hdlen]
    rw [window_modEq hfront, hlen', helems, fill_modEq hstart, window_fill (by omega), hwindow,
      hlist, List.drop_append_of_le_length]
    rw [← Fifo.length, ← h.len_eq]
    exact hdlen
  refine ⟨hcap.trans h.cap_eq, h.cap_pos, ?_, hcontent, ?_, by omega, by omega⟩
  · rw [Fifo.length, ← hcontent, window_length]
  · calc
      q'.back % cap = (q.back + xs.length) % cap := hback
      _ = (q.front + q.len + xs.length) % cap := Nat.ModEq.add_right _ h.back_eq
      _ = (q.front + d + q'.len) % cap := by
        congr 1
        omega
      _ = (q'.front + q'.len) % cap := (Nat.ModEq.add_right _ hfront).symm

theorem consumed (h : Refines q s) {m : Nat} (hm : m ≤ q.len) (hcap : q'.cap = q.cap)
    (helems : q'.elems = q.elems) (hback : q'.back = q.back)
    (hfront : Cursor cap (q.front + m) q'.front)
    (hlen : q'.len = q.len - m) (hlist : s'.queue.list = s.queue.list.drop m)
    (htotal : s'.total = s.total) : Refines q' s' := by
  have hfl := h.front_le
  have hbl := h.back_le
  obtain ⟨hfront, hfrontle⟩ := hfront
  have hcontent : window q'.elems cap q'.front q'.len = s'.queue.list := by
    rw [window_modEq hfront, helems, hlen, hlist, ← h.content, ← window_drop,
      Nat.add_sub_cancel' hm]
  refine ⟨hcap.trans h.cap_eq, h.cap_pos, ?_, hcontent, ?_, by omega, by omega⟩
  · rw [Fifo.length, ← hcontent, window_length]
  · calc
      q'.back % cap = (q.front + q.len) % cap := by rw [hback, h.back_eq]
      _ = (q.front + m + q'.len) % cap := by
        congr 1
        omega
      _ = (q'.front + q'.len) % cap := (Nat.ModEq.add_right _ hfront).symm

theorem copyIn_eq (h : Refines q s) {xs : List α} (hxs : xs.length ≤ cap) :
    vqueueCopyIn q xs = fill q.elems cap q.back xs := by
  have hlt := Nat.mod_lt q.back h.cap_pos
  simp only [vqueueCopyIn, vqueueWrap, h.cap_eq]
  split
  · exact copyIn_eq_fill h.cap_pos (by omega)
  · exact copyIn_split h.cap_pos hxs (by omega)

theorem copyOut_eq (h : Refines q s) {n : Nat} (hn : n ≤ q.len) :
    vqueueCopyOut q n = s.queue.list.take n := by
  have hlt := Nat.mod_lt q.front h.cap_pos
  have hcap := h.len_le
  have htake : s.queue.list.take n = window q.elems cap q.front n := by
    rw [← h.content, ← Nat.add_sub_cancel' hn, window_add]
    exact List.take_left' (window_length n)
  rw [htake]
  simp only [vqueueCopyOut, vqueueWrap, h.cap_eq]
  split
  · exact copyOut_eq_window (by omega)
  · exact copyOut_split h.cap_pos (by omega) (by omega)

theorem frontDirect_eq (h : Refines q s) :
    vqueueFrontDirect q = if q.len = 0 then none else some (q.front % cap) := by
  rw [vqueueFrontDirect, vqueueWrap, h.cap_eq]

theorem front_eq (h : Refines q s) :
    vqueueFront q = match s.queue.list.head? with
      | some x => (.ok, some x)
      | none => (.ENOTRECOVERABLE, none) := by
  rw [vqueueFront, h.frontDirect_eq, ← h.content]
  cases hlen : q.len with
  | zero => simp
  | succ n => simp [window_succ]

end Refines

end Dert.Vqueue
