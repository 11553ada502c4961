import Dert.Queue.QueueLayout
import Dert.Queue.VqueueLaws

universe u

namespace Dert.Vqueue

open Library Library.Cyclic

variable {α : Type u} {cap : Nat} {q : Vqueue α} {s : Spec α cap}

theorem vqueueEnqueueSome_eq {src : List α} {overwrite : Bool} {m : Nat}
    (hm : m = min src.length ((if overwrite then q.len else 0) + (q.cap - q.len)))
    (hpos : 0 < m) :
    vqueueEnqueueSome q src overwrite =
      (if m > q.cap - q.len then
        { q with
          elems := vqueueCopyIn q (src.take m)
          back := sizeT (q.back + m)
          front := sizeT (q.front + (m - (q.cap - q.len)))
          len := q.len + (q.cap - q.len) }
      else
        { q with
          elems := vqueueCopyIn q (src.take m)
          back := sizeT (q.back + m)
          len := q.len + m },
        if m = src.length then .ok else .EXFULL, some m) := by
  simp only [vqueueEnqueueSome, vqueueCap, vqueueLen]
  obtain ⟨can, hcan⟩ : ∃ can, can = (if overwrite then q.len else 0) + (q.cap - q.len) :=
    ⟨_, rfl⟩
  simp only [← hcan] at hm ⊢
  have hshould : (if can ≥ src.length then src.length else can) = m := by
    split <;> omega
  have hres : (if can ≥ src.length then Ret.ok else .EXFULL) =
      if m = src.length then .ok else .EXFULL := by
    split <;> split <;> first | rfl | omega
  rw [if_neg (by omega), if_neg (by omega), hshould, hres]
  split <;> rfl

theorem vqueueDequeueSome_eq {n : Nat} (hpos : 0 < min n q.len) :
    vqueueDequeueSome q n =
      ({ q with front := sizeT (q.front + min n q.len), len := q.len - min n q.len },
        if min n q.len = n then .ok else .ENODATA, some (min n q.len),
        vqueueCopyOut q (min n q.len)) := by
  have hlen : vqueueLen q = q.len := rfl
  have hshould : (if vqueueLen q ≥ n then n else vqueueLen q) = min n q.len := by
    split <;> omega
  have hres : (if vqueueLen q ≥ n then Ret.ok else .ENODATA) =
      if min n q.len = n then .ok else .ENODATA := by
    split <;> split <;> first | rfl | omega
  simp only [vqueueDequeueSome]
  rw [if_neg (by omega : ¬ n = 0), if_neg (by omega : ¬ vqueueLen q = 0), hshould, hres]

namespace Refines

theorem enqueue (h : Refines q s) (src : α) (overwrite : Bool)
    (ht : (s.enqueue src overwrite).1.total < sizeMax) :
    (vqueueEnqueue q src overwrite).2 = (s.enqueue src overwrite).2 ∧
      Refines (vqueueEnqueue q src overwrite).1 (s.enqueue src overwrite).1 := by
  obtain rfl := h.cap_eq
  have hle := h.len_le
  have hfl := h.front_le
  have hbl := h.back_le
  have hpos := h.cap_pos
  by_cases hfail : q.len = q.cap ∧ overwrite = false
  · obtain ⟨hfull, rfl⟩ := hfail
    rw [Spec.enqueue_full (by rw [← h.len_eq, hfull])]
    simp only [vqueueEnqueue, hfull, and_self, ite_true]
    exact ⟨trivial, h⟩
  · have hroom : overwrite = true ∨ s.queue.length < q.cap := by
      cases overwrite with
      | true => exact Or.inl rfl
      | false =>
        have hne : q.len ≠ q.cap := fun heq => hfail ⟨heq, rfl⟩
        rw [← h.len_eq]
        exact Or.inr (Nat.lt_of_le_of_ne hle hne)
    rw [Spec.enqueue_accepts hroom] at ht ⊢
    change s.total + 1 < sizeMax at ht
    have hback : sizeT (q.back + 1) = q.back + 1 := sizeT_of_lt (by omega)
    have hlist := s.queue.force_list src
    rw [← h.len_eq] at hlist
    simp only [vqueueEnqueue, if_neg hfail, hback]
    split
    · next hfull =>
      have hfront : sizeT (q.front + 1) = q.front + 1 := sizeT_of_lt (by omega)
      have hover : q.len + [src].length - q.cap = 1 := by rw [List.length_singleton]; omega
      refine ⟨rfl, h.written [src] hpos rfl rfl (Cursor.refl q.cap (q.back + 1)).wrap ?_ ?_ hlist rfl⟩
      · rw [hover, hfront]
        exact (Cursor.refl q.cap (q.front + 1)).wrap
      · rw [hover]
        exact (Nat.add_sub_cancel q.len 1).symm
    · next hfull =>
      have hover : q.len + [src].length - q.cap = 0 := by rw [List.length_singleton]; omega
      refine ⟨rfl, h.written [src] hpos rfl rfl (Cursor.refl q.cap (q.back + 1)).wrap ?_ ?_ hlist rfl⟩
      · rw [hover]
        exact Cursor.refl q.cap (q.front + 0)
      · rw [hover]
        rfl

theorem dequeue (h : Refines q s) (ht : s.total < sizeMax) :
    (q.call .dequeue).2 = (s.call .dequeue).2 ∧
      Refines (q.call .dequeue).1 (s.call .dequeue).1 := by
  obtain rfl := h.cap_eq
  have hfl := h.front_le
  cases hpop : s.queue.pop with
  | none =>
    have hnil := Fifo.pop_eq_none.mp hpop
    simp only [Spec.call, hpop, Vqueue.call, vqueueDequeue, h.front_eq, hnil, List.head?_nil]
    exact ⟨rfl, h⟩
  | some p =>
    obtain ⟨x, queue⟩ := p
    have hcons := Fifo.pop_eq_some hpop
    have hlen : 0 < q.len := by
      refine Nat.pos_of_ne_zero fun hzero => ?_
      rw [h.list_nil_iff.mpr hzero] at hcons
      cases hcons
    simp only [Spec.call, hpop, Vqueue.call, vqueueDequeue, h.front_eq, hcons, List.head?_cons]
    have hfront : sizeT (q.front + 1) = q.front + 1 := sizeT_of_lt (by omega)
    refine ⟨rfl, h.consumed hlen rfl rfl rfl ?_ rfl (by rw [hcons]; rfl) rfl⟩
    rw [hfront]
    exact (Cursor.refl q.cap (q.front + 1)).wrap

theorem accepts_eq (h : Refines q s) (n : Nat) (overwrite : Bool) :
    s.accepts n overwrite = min n ((if overwrite then q.len else 0) + (q.cap - q.len)) := by
  have hle := h.len_le
  rw [Spec.accepts, Fifo.room, ← h.len_eq, h.cap_eq]
  cases overwrite with
  | false => simp
  | true => simp [Nat.add_sub_cancel' hle]

theorem enqueueSome_taken (h : Refines q s) {src : List α} {overwrite : Bool}
    (hm : 0 < s.accepts src.length overwrite)
    (ht : s.total + s.accepts src.length overwrite < sizeMax) :
    (vqueueEnqueueSome q src overwrite).2 =
        (if s.accepts src.length overwrite = src.length then .ok else .EXFULL,
          some (s.accepts src.length overwrite)) ∧
      Refines (vqueueEnqueueSome q src overwrite).1
        ⟨(src.take (s.accepts src.length overwrite)).foldl Fifo.force s.queue,
          s.total + s.accepts src.length overwrite⟩ := by
  obtain rfl := h.cap_eq
  have hle := h.len_le
  have hfl := h.front_le
  have hbl := h.back_le
  have haccepts := h.accepts_eq src.length overwrite
  have hmcap := s.accepts_le_cap src.length overwrite
  rw [vqueueEnqueueSome_eq haccepts hm]
  generalize s.accepts src.length overwrite = m at *
  have hlen : (src.take m).length = m := by
    rw [List.length_take]
    omega
  have hback : sizeT (q.back + m) = q.back + m := sizeT_of_lt (by omega)
  have hlist := s.queue.foldl_force_list (src.take m)
  rw [hlen, ← h.len_eq] at hlist
  have hwritten {q' : Vqueue α} (hcap : q'.cap = q.cap)
      (helems : q'.elems = vqueueCopyIn q (src.take m)) (hback : q'.back = q.back + m)
      (hfront : q'.front = q.front + (q.len + m - q.cap))
      (hlen' : q'.len = q.len + m - (q.len + m - q.cap)) :
      Refines q' (⟨(src.take m).foldl Fifo.force s.queue, s.total + m⟩ : Spec α q.cap) := by
    refine h.written (src.take m) (by omega) hcap ?_ ?_ ?_ ?_ ?_ ?_
    · rw [helems, h.copyIn_eq (by omega)]
    · rw [hback, hlen]
      exact Cursor.refl q.cap (q.back + m)
    · rw [hfront, hlen]
      exact Cursor.refl q.cap (q.front + _)
    · rw [hlen', hlen]
    · rw [hlist, hlen]
    · rw [hlen]
  refine ⟨rfl, ?_⟩
  split
  · next hover =>
    have hfront : sizeT (q.front + (m - (q.cap - q.len))) = q.front + (q.len + m - q.cap) := by
      rw [sizeT_of_lt (by omega)]
      omega
    refine hwritten rfl rfl hback hfront ?_
    show q.len + (q.cap - q.len) = _
    omega
  · next hover =>
    refine hwritten rfl rfl hback ?_ ?_
    · show q.front = _
      omega
    · show q.len + m = _
      omega

theorem enqueueSome (h : Refines q s) (src : List α) (overwrite : Bool)
    (ht : (s.call (.enqueueSome src overwrite)).1.total < sizeMax) :
    (q.call (.enqueueSome src overwrite)).2 = (s.call (.enqueueSome src overwrite)).2 ∧
      Refines (q.call (.enqueueSome src overwrite)).1 (s.call (.enqueueSome src overwrite)).1 := by
  simp only [Vqueue.call, Spec.call] at ht ⊢
  by_cases hzero : src.length = 0
  · simp only [vqueueEnqueueSome, hzero, ite_true]
    exact ⟨trivial, h⟩
  · simp only [hzero, ite_false, Spec.foldl_enqueue_take] at ht ⊢
    by_cases hm : s.accepts src.length overwrite = 0
    · have hnone : (if overwrite then vqueueLen q else 0) + (vqueueCap q - vqueueLen q) = 0 := by
        have haccepts := h.accepts_eq src.length overwrite
        simp only [vqueueLen, vqueueCap]
        omega
      simp only [vqueueEnqueueSome, hzero, hnone, hm, ite_true, ite_false, Nat.lt_irrefl,
        List.take_zero, Ne.symm hzero]
      exact ⟨trivial, h⟩
    · obtain ⟨hreply, hnext⟩ := h.enqueueSome_taken (Nat.pos_of_ne_zero hm) ht
      simp only [hreply, if_pos (Nat.pos_of_ne_zero hm)]
      exact ⟨trivial, hnext⟩

theorem dequeueSome (h : Refines q s) (n : Nat) (ht : s.total < sizeMax) :
    (q.call (.dequeueSome n)).2 = (s.call (.dequeueSome n)).2 ∧
      Refines (q.call (.dequeueSome n)).1 (s.call (.dequeueSome n)).1 := by
  obtain rfl := h.cap_eq
  have hfl := h.front_le
  simp only [Vqueue.call, Spec.call, ← h.len_eq]
  by_cases hzero : n = 0
  · simp only [vqueueDequeueSome, hzero, ite_true]
    exact ⟨trivial, h⟩
  · by_cases hempty : q.len = 0
    · simp only [vqueueDequeueSome, vqueueLen, hzero, hempty, ite_true, ite_false, Nat.min_zero,
        Nat.lt_irrefl, List.take_zero, Ne.symm hzero]
      exact ⟨trivial,
        h.consumed (Nat.zero_le _) rfl rfl rfl (Cursor.refl q.cap (q.front + 0)) rfl rfl rfl⟩
    · have hpos : 0 < min n q.len := by omega
      have hfront : sizeT (q.front + min n q.len) = q.front + min n q.len :=
        sizeT_of_lt (by omega)
      simp only [vqueueDequeueSome_eq hpos, hzero, hpos, hfront, ite_true, ite_false,
        h.copyOut_eq (Nat.min_le_right n q.len)]
      exact ⟨trivial, h.consumed (Nat.min_le_right n q.len) rfl rfl rfl
        (Cursor.refl q.cap (q.front + _)) rfl rfl rfl⟩

theorem front (h : Refines q s) : (q.call .front).2 = (s.call .front).2 := by
  simp only [Vqueue.call, Spec.call, h.front_eq]
  cases s.queue.list.head? <;> rfl

end Refines

def lastSlot (q : Vqueue α) : Option Nat :=
  if q.len = 0 then none else some ((q.front + (q.len - 1)) % q.cap)

namespace Refines

theorem lastSlot_elems (h : Refines q s) :
    (lastSlot q).map q.elems = s.queue.list.getLast? := by
  obtain rfl := h.cap_eq
  rw [← h.content, lastSlot]
  cases hlen : q.len with
  | zero => rfl
  | succ n =>
    rw [window_add, List.getLast?_append]
    simp [window]

/-- `vqueue_back_direct` finds the last element exactly when its index is in range. -/
theorem backDirect_iff (h : Refines q s) (hcap : cap < sizeMax) (ht : s.total < sizeMax) :
    vqueueBackDirect q = lastSlot q ↔ BackInRange q := by
  obtain rfl := h.cap_eq
  have hpos := h.cap_pos
  have hbl := h.back_le
  unfold vqueueBackDirect lastSlot BackInRange
  by_cases hlen : q.len = 0
  · simp [hlen]
  · simp only [hlen, ite_false, false_or, Option.some.injEq, vqueueWrap]
    have hle := h.len_le
    have hexact : (q.cap + q.back - 1) % q.cap = (q.front + (q.len - 1)) % q.cap := by
      have hb : q.cap + q.back - 1 + 1 ≡ q.front + (q.len - 1) + 1 [MOD q.cap] := by
        rw [Nat.sub_add_cancel (by omega), Nat.add_assoc, Nat.sub_add_cancel (by omega),
          Nat.ModEq, Nat.add_mod_left, h.back_eq]
      exact Nat.ModEq.add_right_cancel' 1 hb
    have hindex : sizeT (sizeT (q.cap + q.back) + (sizeMax - 1)) = (q.cap + q.back - 1) % sizeMax := by
      rw [sizeT, sizeT, Nat.mod_add_mod, show q.cap + q.back + (sizeMax - 1) =
        q.cap + q.back - 1 + sizeMax by omega, Nat.add_mod_right]
    rw [hindex, ← hexact]
    by_cases hrange : q.cap + q.back ≤ sizeMax
    · simp only [hrange, true_or, iff_true]
      rw [Nat.mod_eq_of_lt (by omega : q.cap + q.back - 1 < sizeMax)]
    · have hwrap : (q.cap + q.back - 1) % sizeMax = q.cap + q.back - 1 - sizeMax := by
        rw [Nat.mod_eq_sub_mod (by omega), Nat.mod_eq_of_lt (by omega)]
      simp only [hrange, false_or, hwrap]
      exact (Nat.modEq_iff_dvd' (Nat.sub_le _ _)).trans (by rw [Nat.sub_sub_self (by omega)])

theorem back (h : Refines q s) (hb : vqueueBackDirect q = lastSlot q) :
    (q.call .back).2 = (s.call .back).2 := by
  simp only [Vqueue.call, Spec.call, vqueueBack, hb, ← h.lastSlot_elems]
  cases lastSlot q <;> rfl

theorem pushed (h : Refines q s) (hlt : s.queue.length < cap) (ht : s.total + 1 < sizeMax) (x : α) :
    ∃ q', ∃ s' : Spec α cap, vqueueEnqueue q x false = (q', .ok) ∧ Refines q' s' ∧
      s'.queue.list = s.queue.list ++ [x] ∧ s'.total = s.total + 1 := by
  have haccepts : s.enqueue x false = (⟨s.queue.force x, s.total + 1⟩, .ok) :=
    Spec.enqueue_accepts (.inr hlt) x
  have hlist := s.queue.force_list x
  rw [Nat.sub_eq_zero_of_le hlt, List.drop_zero] at hlist
  obtain ⟨hret, hrefines⟩ := h.enqueue x false (by
    rw [haccepts]
    exact ht)
  rw [haccepts] at hret hrefines
  exact ⟨_, _, Prod.ext rfl hret, hrefines, hlist, rfl⟩

theorem popped (h : Refines q s) {x : α} {xs : List α} (hlist : s.queue.list = x :: xs)
    (ht : s.total < sizeMax) :
    ∃ q', ∃ s' : Spec α cap, vqueueDequeue q = (q', .ok, some x) ∧ q'.back = q.back ∧
      Refines q' s' ∧ s'.queue.list = xs ∧ s'.total = s.total := by
  have hfront : vqueueFront q = (.ok, some x) := by
    rw [h.front_eq, hlist]
    rfl
  obtain ⟨-, hrefines⟩ := h.dequeue ht
  cases hpop : s.queue.pop with
  | none =>
    rw [Fifo.pop_eq_none.mp hpop] at hlist
    cases hlist
  | some next =>
    obtain ⟨y, queue⟩ := next
    obtain ⟨-, hrest⟩ := List.cons.inj ((Fifo.pop_eq_some hpop).symm.trans hlist)
    simp only [Vqueue.call, vqueueDequeue, hfront, Spec.call, hpop] at hrefines
    have hdequeue : vqueueDequeue q =
        ({ q with front := vqueueWrap q (sizeT (q.front + 1)), len := q.len - 1 }, .ok, some x) := by
      simp only [vqueueDequeue, hfront]
    exact ⟨_, ⟨queue, s.total⟩, hdequeue, rfl, hrefines, hrest, rfl⟩

theorem drained (h : Refines q s) (hlist : s.queue.list = []) :
    vqueueDequeue q = (q, .ENODATA, none) := by
  simp [vqueueDequeue, h.front_eq, hlist]

end Refines

def BackAtLast (q : Vqueue α) (op : Op α) : Prop :=
  match op with
  | .back => vqueueBackDirect q = lastSlot q
  | _ => True

theorem Refines.call (h : Refines q s) {op : Op α} (hback : BackAtLast q op)
    (ht : (s.call op).1.total < sizeMax) :
    (q.call op).2 = (s.call op).2 ∧ Refines (q.call op).1 (s.call op).1 := by
  have htotal := Nat.lt_of_le_of_lt (s.total_le_call op) ht
  cases op with
  | enqueue src overwrite =>
    obtain ⟨hreply, hnext⟩ := h.enqueue src overwrite ht
    simp only [Vqueue.call, Spec.call, hreply]
    exact ⟨trivial, hnext⟩
  | dequeue => exact h.dequeue htotal
  | enqueueSome src overwrite => exact h.enqueueSome src overwrite ht
  | dequeueSome n => exact h.dequeueSome n htotal
  | front => exact ⟨h.front, h⟩
  | back => exact ⟨h.back hback, h⟩

section Slots

theorem copySlot_lt {pos n i : Nat} (hcap : 0 < q.cap) (hn : n ≤ q.cap) (h : CopySlot q pos n i) :
    i < q.cap := by
  have hstart : vqueueWrap q pos < q.cap := Nat.mod_lt _ hcap
  simp only [CopySlot] at h
  split_ifs at h <;> omega

theorem num_enqueued_le (hlen : q.len ≤ q.cap) (src : List α) (overwrite : Bool) :
    (vqueueEnqueueSome q src overwrite).2.2.getD 0 ≤ q.cap := by
  simp only [vqueueEnqueueSome, vqueueCap, vqueueLen]
  split_ifs <;> simp only [Option.getD_none, Option.getD_some] <;> omega

theorem num_enqueued_le_src (src : List α) (overwrite : Bool) :
    (vqueueEnqueueSome q src overwrite).2.2.getD 0 ≤ src.length := by
  simp only [vqueueEnqueueSome, vqueueCap, vqueueLen]
  split_ifs <;> simp only [Option.getD_none, Option.getD_some] <;> omega

theorem num_dequeued_le (hlen : q.len ≤ q.cap) (n : Nat) :
    (vqueueDequeueSome q n).2.2.1.getD 0 ≤ q.cap := by
  rcases Nat.eq_zero_or_pos (min n q.len) with hnone | hpos
  · have hnum : (vqueueDequeueSome q n).2.2.1 = none := by
      rcases Nat.min_eq_zero_iff.mp hnone with hn | hempty
      · simp [vqueueDequeueSome, hn]
      · have hlen : vqueueLen q = 0 := hempty
        simp only [vqueueDequeueSome, hlen, if_true]
        split_ifs <;> rfl
    rw [hnum]
    exact Nat.zero_le _
  · rw [vqueueDequeueSome_eq hpos]
    exact Nat.le_trans (Nat.min_le_right _ _) hlen

theorem copyIn_of_not_copySlot {src : List α} {i : Nat}
    (h : ¬ CopySlot q q.back src.length i) : vqueueCopyIn q src i = q.elems i := by
  have hout (slots : Nat → α) (pos : Nat) (xs : List α) (hi : ¬ (pos ≤ i ∧ i < pos + xs.length)) :
      copyIn slots pos xs i = slots i := by
    rw [copyIn]
    split_ifs with hlt
    · rfl
    · rw [List.getD_eq_getElem?_getD, List.getElem?_eq_none (by omega), Option.getD_none]
  simp only [CopySlot] at h
  simp only [vqueueCopyIn]
  split_ifs at h ⊢ with hle
  · exact hout _ _ _ h
  · obtain ⟨hfirst, hsecond⟩ := not_or.mp h
    rw [hout _ _ _ (by rw [List.length_drop]; omega), hout _ _ _ (by rw [List.length_take]; omega)]

theorem enqueueSome_elems (src : List α) (overwrite : Bool) :
    (vqueueEnqueueSome q src overwrite).1.elems =
      vqueueCopyIn q (src.take ((vqueueEnqueueSome q src overwrite).2.2.getD 0)) := by
  have hnone : vqueueCopyIn q [] = q.elems :=
    funext fun i => copyIn_of_not_copySlot (by simp [CopySlot])
  simp only [vqueueEnqueueSome]
  split_ifs <;> first | rfl | exact hnone.symm

theorem dequeueSome_elems (n : Nat) : (vqueueDequeueSome q n).1.elems = q.elems := by
  simp only [vqueueDequeueSome]
  split_ifs <;> rfl

theorem call_elems {op : Op α} {i : Nat} (h : ¬ op.Uses q i) : (q.call op).1.elems i = q.elems i := by
  cases op with
  | enqueue src overwrite =>
    simp only [Op.Uses, not_and] at h
    simp only [Vqueue.call, vqueueEnqueue]
    split_ifs at h ⊢ with hfull <;> simp_all
  | enqueueSome src overwrite =>
    rw [Op.Uses] at h
    change (vqueueEnqueueSome q src overwrite).1.elems i = q.elems i
    rw [enqueueSome_elems]
    refine copyIn_of_not_copySlot ?_
    rwa [List.length_take, Nat.min_eq_left (num_enqueued_le_src src overwrite)]
  | dequeue =>
    simp only [Vqueue.call, vqueueDequeue]
    split <;> rfl
  | dequeueSome n =>
    change (vqueueDequeueSome q n).1.elems i = q.elems i
    rw [dequeueSome_elems]
  | front => rfl
  | back => rfl

end Slots

/-- The queue's header and the slots that a call uses lie in the block that `vqueue_advise` asks
for, and the call changes no other slot. -/
def Inside (elemSize : Nat) (q : Vqueue α) (op : Op α) : Prop :=
  (ArrayInside sizeofVqueue elemSize q.cap fun i => op.Uses q i) ∧
    ∀ i, ¬ op.Uses q i → (q.call op).1.elems i = q.elems i

theorem Refines.uses_lt (h : Refines q s) {op : Op α} {i : Nat} (huses : op.Uses q i) :
    i < q.cap := by
  have hpos : 0 < q.cap := h.cap_eq ▸ h.cap_pos
  have hlen : q.len ≤ q.cap := h.cap_eq ▸ h.len_le
  have hwrap (pos : Nat) : vqueueWrap q pos < q.cap := Nat.mod_lt _ hpos
  have hfront (hf : vqueueFrontDirect q = some i) : i < q.cap := by
    rw [vqueueFrontDirect] at hf
    split_ifs at hf
    cases hf
    exact hwrap _
  cases op with
  | enqueue src overwrite => exact huses.2 ▸ hwrap _
  | dequeue => exact hfront huses
  | enqueueSome src overwrite => exact copySlot_lt hpos (num_enqueued_le hlen src overwrite) huses
  | dequeueSome n => exact copySlot_lt hpos (num_dequeued_le hlen n) huses
  | front => exact hfront huses
  | back =>
    rw [Op.Uses, vqueueBackDirect] at huses
    split_ifs at huses
    exact Option.some.inj huses ▸ hwrap _

/-- Every call replies as the bounded list does, `vqueue_back` finds the last element's slot, and
no call leaves the queue's block. -/
def Lawful (elemSize cap : Nat) (q : Vqueue α) (ops : List (Op α)) : Prop :=
  replies call q ops = replies Spec.call (Spec.start cap) ops ∧
    Along call (fun q op => BackAtLast q op ∧ Inside elemSize q op) q ops

theorem refines_of_size {zero : α} {elemSize : Nat} (hinit : vqueueInit zero cap = some q)
    (hcap : cap < sizeMax) (hsize : sizeofVqueue + cap * elemSize < sizeMax) {ops : List (Op α)}
    (ht : (final Spec.call (Spec.start cap) ops).total < sizeMax) :
    Lawful elemSize cap q ops ↔ Along call (fun q op => op = .back → BackInRange q) q ops := by
  have hrel := refines_init zero hinit
  have hQ := along_of_final_lt Spec.total_le_call ht
  have hinside {q : Vqueue α} {s : Spec α cap} (h : Refines q s) (op : Op α) :
      Inside elemSize q op := by
    rw [Inside, h.cap_eq]
    exact ⟨arrayInside_of_lt hsize fun i huses => h.cap_eq ▸ h.uses_lt huses,
      fun i huses => call_elems huses⟩
  have hiff : Along call (fun q op => BackAtLast q op ∧ Inside elemSize q op) q ops ↔
      Along call (fun q op => op = .back → BackInRange q) q ops := by
    refine (along_iff (fun _ _ _ h hP ht => (h.call hP.1 ht).2) ?_ hrel hQ).symm
    intro q s op h ht
    rw [and_iff_left (hinside h op)]
    cases op with
    | back => simpa [BackAtLast] using (h.backDirect_iff hcap ht).symm
    | _ => simp [BackAtLast]
  rw [Lawful, ← hiff]
  exact ⟨And.right,
    fun hP => ⟨(simulation (fun _ _ _ h hP ht => h.call hP.1 ht) hrel hP hQ).1, hP⟩⟩

theorem uses_enqueueSome {src : List α} {i : Nat} (hinit : q.len = 0 ∧ q.back = 0)
    (hsrc : src.length ≤ q.cap) (hi : i < src.length) :
    (Op.enqueueSome src false).Uses q i := by
  have hnum : (vqueueEnqueueSome q src false).2.2 = some src.length := by
    have hm : src.length = min src.length ((if false then q.len else 0) + (q.cap - q.len)) := by
      simp [hinit.1, hsrc]
    rw [vqueueEnqueueSome_eq hm (by omega)]
  rw [Op.Uses, hnum, CopySlot, vqueueWrap, hinit.2, Nat.zero_mod]
  simp only [Option.getD_some, Nat.sub_zero]
  rw [if_pos hsrc]
  omega

/-- From `vqueue_init` on, the calls obey their law exactly when no call of `vqueue_back` leaves
the range of `size_t`, for every sequence of calls if and only if the size of the queue's block
does not wrap. -/
theorem refines_iff {zero : α} (elemSize : Nat) (hinit : vqueueInit zero cap = some q)
    (hcap : cap < sizeMax) :
    (∀ ops : List (Op α), (final Spec.call (Spec.start cap) ops).total < sizeMax →
      (Lawful elemSize cap q ops ↔
        Along call (fun q op => op = .back → BackInRange q) q ops)) ↔
      sizeofVqueue + cap * elemSize < sizeMax := by
  refine ⟨fun hlaw => ?_, fun hsize ops ht => refines_of_size hinit hcap hsize ht⟩
  by_contra hwrap
  obtain ⟨i, hi, hsmall, houtside⟩ :=
    exists_slot_outside (by decide) (by decide) (Nat.le_of_not_lt hwrap)
  have hrel := refines_init zero hinit
  have hempty : q.len = 0 ∧ q.back = 0 := by
    rw [vqueueInit] at hinit
    split_ifs at hinit
    cases hinit
    exact ⟨rfl, rfl⟩
  have hlen : (List.replicate (i + 1) zero).length = i + 1 := List.length_replicate
  have ht : (final Spec.call (Spec.start cap)
      [.enqueueSome (List.replicate (i + 1) zero) false]).total < sizeMax := by
    have haccepts : (Spec.start cap : Spec α cap).accepts (i + 1) false = i + 1 :=
      Nat.min_eq_left hi
    simp only [final, Spec.call, hlen, if_neg (Nat.succ_ne_zero i), haccepts]
    have htotal := Spec.foldl_enqueue_take (s := Spec.start cap) (List.replicate (i + 1) zero) false
    rw [hlen, haccepts] at htotal
    rw [htotal]
    exact (Nat.zero_add (i + 1)).symm ▸ hsmall
  obtain ⟨-, ⟨-, hinside, -⟩, -⟩ :=
    (hlaw [.enqueueSome (List.replicate (i + 1) zero) false] ht).mpr ⟨by simp, trivial⟩
  have hslot := hinside.slots i (uses_enqueueSome hempty (by rw [hlen, hrel.cap_eq]; exact hi)
    (by rw [hlen]; exact Nat.lt_succ_self i))
  rw [hrel.cap_eq] at hslot
  exact houtside hslot

theorem refines_iff_wrapped :
    let q : Vqueue Nat := ⟨fun _ => 0, 0, 0, 0, 3⟩
    let ops : List (Op Nat) :=
      [.enqueueSome [1, 2] false, .dequeue, .enqueueSome [3, 4, 5] true, .back, .dequeueSome 4]
    Lawful 8 3 q ops ↔ Along call (fun q op => op = .back → BackInRange q) q ops :=
  (refines_iff 8 (show vqueueInit 0 3 = some _ from rfl) (by decide)).mpr (by decide) _ (by decide)

section Overflow

def rounds (n : Nat) : List (Op Bool) :=
  (List.replicate n [.enqueueSome [false, false, false] false, .dequeueSome 3]).flatten

def afterRounds (n : Nat) : Vqueue Bool := ⟨fun _ => false, 3 * n, 3 * n, 0, 3⟩

theorem rounds_succ (n : Nat) :
    rounds (n + 1) = rounds n ++ [.enqueueSome [false, false, false] false, .dequeueSome 3] := by
  simp [rounds, List.replicate_succ']

theorem final_rounds {n : Nat} (h : 3 * n < sizeMax) :
    final call (afterRounds 0) (rounds n) = afterRounds n := by
  induction n with
  | zero => rfl
  | succ n ih =>
    have hnext : sizeT (3 * n + 3) = 3 * n + 3 := sizeT_of_lt h
    have hcopy : copyIn (fun _ => false) 0 [false, false, false] = fun _ => false := by
      funext i
      simp only [copyIn, Nat.not_lt_zero, ite_false]
      rcases i with _ | _ | _ | i <;> rfl
    rw [rounds_succ, final_append, ih (by omega)]
    simp [final, afterRounds, call, vqueueEnqueueSome, vqueueDequeueSome, vqueueLen, vqueueCap,
      vqueueCopyIn, vqueueWrap, hnext, hcopy, Nat.mul_add]

theorem final_spec_rounds (n : Nat) :
    final Spec.call (Spec.start 3) (rounds n) = ⟨Fifo.empty, 3 * n⟩ := by
  induction n with
  | zero => rfl
  | succ n ih =>
    rw [rounds_succ, final_append, ih]
    rfl

def overflowing : List (Op Bool) :=
  rounds 6148914691236517204 ++ [.enqueueSome [false, true] false, .back]

theorem not_refines_overflowing :
    ¬ ∀ (cap : Nat) (q : Vqueue Bool) (ops : List (Op Bool)), vqueueInit false cap = some q →
      cap < sizeMax → (final Spec.call (Spec.start cap) ops).total < sizeMax →
        replies call q ops = replies Spec.call (Spec.start cap) ops := by
  intro h
  have hreplies := h 3 (afterRounds 0) overflowing rfl (by decide) (by
    rw [overflowing, final_append, final_spec_rounds]
    decide)
  have hlast := congrArg List.getLast? hreplies
  rw [overflowing, replies_append, replies_append, final_rounds (by decide), final_spec_rounds,
    List.getLast?_append, List.getLast?_append] at hlast
  revert hlast
  decide

end Overflow

end Dert.Vqueue
