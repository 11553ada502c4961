import Dert.Queue.RawQueue
import Dert.Queue.VqueueLaws

namespace Dert.RawQueue

open Library Library.Memory

variable {elemSize numElems : Nat} {p : Place} {m m₀ : Ram} {q : Dert.Vqueue (List UInt8)}
  {pos value : Nat}

/-- The bytes at a place are those of a queue of elements. -/
structure Rep (elemSize numElems : Nat) (p : Place) (m : Ram) (q : Dert.Vqueue (List UInt8)) :
    Prop where
  members : m.fields p.header numMembers = [p.elems, elemSize, q.front, q.back, q.len, q.cap]
  slots : ∀ i < numElems, m.slot p.elems elemSize i = q.elems i
  cap_eq : q.cap = numElems
  len_le : q.len ≤ q.cap
  elemSize_pos : 0 < elemSize
  numElems_pos : 0 < numElems
  size_lt : elemSize * numElems < sizeMax
  apart : Extent.Apart ⟨p.header, sizeofPointer * numMembers⟩ ⟨p.elems, elemSize * numElems⟩

namespace Rep

theorem field_elems (h : Rep elemSize numElems p m q) : m.field p.header atElems = p.elems :=
  Ram.field_eq h.members rfl

theorem field_elemSize (h : Rep elemSize numElems p m q) :
    m.field p.header atElemSize = elemSize := Ram.field_eq h.members rfl

theorem field_front (h : Rep elemSize numElems p m q) : m.field p.header atFront = q.front :=
  Ram.field_eq h.members rfl

theorem field_back (h : Rep elemSize numElems p m q) : m.field p.header atBack = q.back :=
  Ram.field_eq h.members rfl

theorem field_len (h : Rep elemSize numElems p m q) : m.field p.header atLen = q.len :=
  Ram.field_eq h.members rfl

theorem field_cap (h : Rep elemSize numElems p m q) : m.field p.header atCap = q.cap :=
  Ram.field_eq h.members rfl

theorem cap_lt (h : Rep elemSize numElems p m q) : q.cap < sizeMax := by
  rw [h.cap_eq]
  exact Nat.lt_of_le_of_lt (Nat.le_mul_of_pos_left _ h.elemSize_pos) h.size_lt

theorem wrap_eq (h : Rep elemSize numElems p m q) (pos : Nat) :
    wrap m p.header pos = vqueueWrap q pos := by rw [wrap, h.field_cap, vqueueWrap]

theorem wrap_lt (h : Rep elemSize numElems p m q) (pos : Nat) : vqueueWrap q pos < q.cap :=
  Nat.mod_lt _ (by rw [h.cap_eq]; exact h.numElems_pos)

theorem size_eq (h : Rep elemSize numElems p m q) {n : Nat} (hn : n ≤ q.cap) :
    sizeT (elemSize * n) = elemSize * n := by
  rw [h.cap_eq] at hn
  exact sizeT_of_lt (Nat.lt_of_le_of_lt (Nat.mul_le_mul_left _ hn) h.size_lt)

theorem address_eq (h : Rep elemSize numElems p m q) (pos : Nat) :
    address m p.header pos = p.elems + elemSize * vqueueWrap q pos := by
  rw [address, h.field_elems, h.field_elemSize, h.wrap_eq, h.size_eq (h.wrap_lt pos).le]

theorem bytes_eq (h : Rep elemSize numElems p m q) (pos n : Nat) (hn : pos + n ≤ q.cap) :
    m.bytes (p.elems + elemSize * pos) (elemSize * n) =
      (Cyclic.copyOut q.elems pos n).flatten := by
  rw [Ram.bytes_slots]
  refine congrArg List.flatten (List.map_congr_left fun i hi => h.slots _ ?_)
  have hlt := List.mem_range.mp hi
  rw [h.cap_eq] at hn
  omega

theorem bytes_slot (h : Rep elemSize numElems p m q) (hpos : pos < q.cap) :
    m.bytes (p.elems + elemSize * pos) elemSize = q.elems pos :=
  h.slots pos (by rwa [← h.cap_eq])

theorem frame {m' : Ram} (h : Rep elemSize numElems p m q)
    (hkept : ∀ a ∈ extents elemSize numElems p, Agree a m m') : Rep elemSize numElems p m' q :=
  { h with
    members := by
      rw [← h.members]
      exact Ram.fields_congr (hkept _ List.mem_cons_self)
    slots := fun i hi => by
      rw [← h.slots i hi]
      exact Ram.slot_congr hi (hkept _ (List.mem_cons_of_mem _ List.mem_cons_self)) }

theorem setField (h : Rep elemSize numElems p m q) {j : Nat} (hj : j < numMembers)
    (hvalue : value < sizeMax) {q' : Dert.Vqueue (List UInt8)} (helems : q'.elems = q.elems)
    (hcap : q'.cap = q.cap) (hlen : q'.len ≤ q'.cap)
    (hset : [p.elems, elemSize, q.front, q.back, q.len, q.cap].set j value =
      [p.elems, elemSize, q'.front, q'.back, q'.len, q'.cap]) :
    Rep elemSize numElems p (m.setField p.header j value) q' :=
  { h with
    members := by rw [Ram.fields_setField hvalue, h.members, hset]
    slots := fun i hi => by
      rw [helems, ← h.slots i hi]
      exact Ram.slot_congr hi
        (agree_write (h.apart.mono (Extent.piece_within hj) (Extent.Within.refl _)))
    cap_eq := hcap.trans h.cap_eq
    len_le := hlen }

theorem memcpy (h : Rep elemSize numElems p m q) (pos : Nat) (xs : List (List UInt8))
    (hxs : ∀ x ∈ xs, x.length = elemSize) (hpos : pos + xs.length ≤ q.cap) :
    Rep elemSize numElems p (m.memcpy (p.elems + elemSize * pos) xs.flatten)
      { q with elems := Cyclic.copyIn q.elems pos xs } :=
  { h with
    members := by
      rw [← h.members]
      refine Ram.fields_congr (agree_write (h.apart.symm.mono ?_ (Extent.Within.refl _)))
      rw [Ram.flatten_length hxs, ← h.cap_eq]
      exact Extent.pieces_within hpos
    slots := fun i hi => by
      simp only [Ram.slot_memcpy hxs, Cyclic.copyIn, h.slots i hi] }

end Rep

structure Reach (elemSize numElems : Nat) (p : Place) (m₀ m : Ram)
    (q : Dert.Vqueue (List UInt8)) : Prop where
  confined : Confined (extents elemSize numElems p) m₀ m
  rep : Rep elemSize numElems p m q

theorem Rep.reach (h : Rep elemSize numElems p m q) : Reach elemSize numElems p m m q :=
  ⟨Confined.refl _ _, h⟩

namespace Reach

theorem setField (h : Reach elemSize numElems p m₀ m q) {j : Nat} (hj : j < numMembers)
    {q' : Dert.Vqueue (List UInt8)} (hrep : Rep elemSize numElems p (m.setField p.header j value) q') :
    Reach elemSize numElems p m₀ (m.setField p.header j value) q' :=
  ⟨h.confined.trans (Ram.confined_setField hj ⟨_, List.mem_cons_self, rfl⟩), hrep⟩

theorem setFront (h : Reach elemSize numElems p m₀ m q) (hvalue : value < sizeMax) :
    Reach elemSize numElems p m₀ (m.setField p.header atFront value) { q with front := value } :=
  h.setField (by decide) (h.rep.setField (by decide) hvalue rfl rfl h.rep.len_le rfl)

theorem setBack (h : Reach elemSize numElems p m₀ m q) (hvalue : value < sizeMax) :
    Reach elemSize numElems p m₀ (m.setField p.header atBack value) { q with back := value } :=
  h.setField (by decide) (h.rep.setField (by decide) hvalue rfl rfl h.rep.len_le rfl)

theorem setLen (h : Reach elemSize numElems p m₀ m q) (hvalue : value ≤ q.cap) :
    Reach elemSize numElems p m₀ (m.setField p.header atLen value) { q with len := value } :=
  h.setField (by decide)
    (h.rep.setField (by decide) (Nat.lt_of_le_of_lt hvalue h.rep.cap_lt) rfl rfl hvalue rfl)

theorem memcpy (h : Reach elemSize numElems p m₀ m q) (pos : Nat) (xs : List (List UInt8))
    (hxs : ∀ x ∈ xs, x.length = elemSize) (hpos : pos + xs.length ≤ q.cap) :
    Reach elemSize numElems p m₀ (m.memcpy (p.elems + elemSize * pos) xs.flatten)
      { q with elems := Cyclic.copyIn q.elems pos xs } := by
  refine ⟨h.confined.trans (confined_write ?_), h.rep.memcpy pos xs hxs hpos⟩
  refine ⟨_, List.mem_cons_of_mem _ List.mem_cons_self, ?_⟩
  rw [Ram.flatten_length hxs, ← h.rep.cap_eq]
  exact Extent.pieces_within hpos

theorem step {r : Ram × Reply} {r' : Dert.Vqueue (List UInt8) × Reply}
    (h : Reach elemSize numElems p m₀ r.1 r'.1) (hreply : r.2 = r'.2) :
    (vqueues elemSize numElems).Step (Rep elemSize numElems) p m₀ r r' :=
  ⟨h.confined, hreply, h.rep⟩

end Reach

section Single

theorem copyIn_singleton (slots : Nat → List UInt8) (pos : Nat) (x : List UInt8) :
    Cyclic.copyIn slots pos [x] = Function.update slots pos x := by
  funext i
  rw [Cyclic.copyIn, Function.update_apply]
  split
  case isTrue hi => rw [if_neg (Nat.ne_of_lt hi)]
  case isFalse hi =>
    by_cases hpos : i = pos
    · simp [hpos]
    · rw [if_neg hpos, List.getD_eq_default]
      simp only [List.length_singleton]
      omega

theorem Rep.wrapped_lt (h : Rep elemSize numElems p m q) (pos : Nat) :
    pos % q.cap < sizeMax := Nat.lt_trans (h.wrap_lt pos) h.cap_lt

theorem Rep.next_back (h : Rep elemSize numElems p m q) :
    wrap m p.header (sizeT (m.field p.header atBack + 1)) = sizeT (q.back + 1) % q.cap := by
  rw [wrap, h.field_back, h.field_cap]

theorem Rep.next_front (h : Rep elemSize numElems p m q) :
    wrap m p.header (sizeT (m.field p.header atFront + 1)) = sizeT (q.front + 1) % q.cap := by
  rw [wrap, h.field_front, h.field_cap]

variable (h : Rep elemSize numElems p m q)
include h

theorem enqueue_eq {src : List UInt8} (hsrc : src.length = elemSize) (overwrite : Bool) :
    Reach elemSize numElems p m (enqueue m p.header src overwrite).1
        (Dert.vqueueEnqueue q src overwrite).1 ∧
      (enqueue m p.header src overwrite).2 = (Dert.vqueueEnqueue q src overwrite).2 := by
  have htake : src.take elemSize = [src].flatten := by simp [← hsrc]
  have hcopied := h.reach.memcpy (vqueueWrap q q.back) [src] (by simpa using hsrc)
    (h.wrap_lt q.back)
  rw [copyIn_singleton] at hcopied
  have hback := hcopied.setBack (h.wrapped_lt (sizeT (q.back + 1)))
  simp only [enqueue, Dert.vqueueEnqueue, h.field_len, h.field_cap, h.field_back,
    h.field_elemSize, h.address_eq, htake, decide_eq_true_eq]
  split
  case isTrue => exact ⟨h.reach, rfl⟩
  case isFalse hroom =>
    rw [hcopied.rep.next_back]
    dsimp only
    split
    case isTrue hfull =>
      rw [hback.rep.next_front]
      exact ⟨hback.setFront (h.wrapped_lt (sizeT (q.front + 1))), rfl⟩
    case isFalse hnot =>
      have hlt : q.len + 1 ≤ q.cap := Nat.lt_of_le_of_ne h.len_le hnot
      have hlen : sizeT (q.len + 1) = q.len + 1 := sizeT_of_lt (Nat.lt_of_le_of_lt hlt h.cap_lt)
      rw [hback.rep.field_len, hlen]
      exact ⟨hback.setLen hlt, rfl⟩

theorem frontDirect_eq : frontDirect m p.header =
    (Dert.vqueueFrontDirect q).map fun i => p.elems + elemSize * i := by
  rw [frontDirect, Dert.vqueueFrontDirect, h.field_len, h.field_front, h.address_eq]
  split <;> rfl

theorem front_eq : front m p.header =
    ((Dert.vqueueFront q).1, (Dert.vqueueFront q).2.toList.flatten) := by
  rw [front, Dert.vqueueFront, frontDirect_eq h, h.field_elemSize]
  cases hfront : Dert.vqueueFrontDirect q with
  | none => rfl
  | some i =>
    have hi : i < q.cap := by
      simp only [Dert.vqueueFrontDirect, Option.ite_none_left_eq_some, Option.some.injEq] at hfront
      obtain ⟨-, rfl⟩ := hfront
      exact h.wrap_lt _
    simp [h.bytes_slot hi]

theorem backDirect_eq : backDirect m p.header =
    (Dert.vqueueBackDirect q).map fun i => p.elems + elemSize * i := by
  simp only [backDirect, Dert.vqueueBackDirect, h.field_len, h.field_cap, h.field_back,
    h.address_eq]
  split <;> rfl

theorem back_eq : back m p.header =
    ((Dert.vqueueBack q).1, (Dert.vqueueBack q).2.toList.flatten) := by
  rw [back, Dert.vqueueBack, backDirect_eq h, h.field_elemSize]
  cases hback : Dert.vqueueBackDirect q with
  | none => rfl
  | some i =>
    have hi : i < q.cap := by
      simp only [Dert.vqueueBackDirect, Option.ite_none_left_eq_some, Option.some.injEq] at hback
      obtain ⟨-, rfl⟩ := hback
      exact h.wrap_lt _
    simp [h.bytes_slot hi]

theorem dequeue_eq :
    Reach elemSize numElems p m (dequeue m p.header).1 (Dert.vqueueDequeue q).1 ∧
      (dequeue m p.header).2 =
        ((Dert.vqueueDequeue q).2.1, (Dert.vqueueDequeue q).2.2.toList.flatten) := by
  rw [dequeue, Dert.vqueueDequeue, front_eq h]
  by_cases hlen : q.len = 0
  · have hfront : Dert.vqueueFront q = (.ENOTRECOVERABLE, none) := by
      simp [Dert.vqueueFront, Dert.vqueueFrontDirect, hlen]
    rw [hfront]
    exact ⟨h.reach, rfl⟩
  · have hfront : Dert.vqueueFront q = (.ok, some (q.elems (vqueueWrap q q.front))) := by
      simp [Dert.vqueueFront, Dert.vqueueFrontDirect, hlen]
    have hmoved := h.reach.setFront (h.wrapped_lt (sizeT (q.front + 1)))
    have hle : q.len - 1 ≤ q.cap := Nat.le_trans (Nat.sub_le _ _) h.len_le
    have hsub : sizeT (q.len + (sizeMax - 1)) = q.len - 1 :=
      sizeT_sub (Nat.one_le_iff_ne_zero.mpr hlen) (Nat.lt_of_le_of_lt h.len_le h.cap_lt)
    rw [hfront, h.next_front]
    dsimp only
    rw [hmoved.rep.field_len, hsub]
    exact ⟨hmoved.setLen hle, rfl⟩

end Single

section Bulk

variable (h : Rep elemSize numElems p m q)
include h

theorem Rep.before_eq (pos : Nat) :
    sizeT (m.field p.header atCap + (sizeMax - wrap m p.header pos)) =
      q.cap - vqueueWrap q pos := by
  rw [h.wrap_eq, h.field_cap]
  exact sizeT_sub (h.wrap_lt pos).le h.cap_lt

theorem copyIn_eq {src : List (List UInt8)} (hsrc : ∀ x ∈ src, x.length = elemSize) {n : Nat}
    (hn : n ≤ src.length) (hcap : n ≤ q.cap) :
    Reach elemSize numElems p m (copyIn m p.header src.flatten n)
      { q with elems := vqueueCopyIn q (src.take n) } := by
  have htake (k : Nat) : ∀ x ∈ src.take k, x.length = elemSize :=
    fun x hx => hsrc x (List.mem_of_mem_take hx)
  have hlength : (src.take n).length = n := List.length_take_of_le hn
  have hstart := h.wrap_lt q.back
  simp only [copyIn, vqueueCopyIn, h.before_eq, h.field_back, h.field_elemSize, h.address_eq,
    hlength]
  split
  case isTrue hone =>
    rw [h.size_eq hcap, Ram.flatten_take hsrc]
    exact h.reach.memcpy _ _ (htake n) (by omega)
  case isFalse hsplit =>
    obtain ⟨before, hbefore⟩ : ∃ before, before = q.cap - vqueueWrap q q.back := ⟨_, rfl⟩
    rw [← hbefore] at hsplit ⊢
    have hlt : before < n := Nat.lt_of_not_le hsplit
    have hafter : sizeT (n + (sizeMax - before)) = n - before :=
      sizeT_sub hlt.le (Nat.lt_of_le_of_lt hcap h.cap_lt)
    have hfirst := h.reach.memcpy (vqueueWrap q q.back) _ (htake before) (by
      rw [List.length_take_of_le (by omega)]
      omega)
    have hrest : ∀ x ∈ (src.drop before).take (n - before), x.length = elemSize :=
      fun x hx => hsrc x (List.mem_of_mem_drop (List.mem_of_mem_take hx))
    have hsecond := hfirst.memcpy 0 _ hrest (by
      simp only [List.length_take, List.length_drop]
      omega)
    have hbytes := h.size_eq (hlt.le.trans hcap)
    have hbytes' := h.size_eq (by omega : n - before ≤ q.cap)
    rw [hafter, hbytes, Ram.flatten_take hsrc, hfirst.rep.field_elemSize, hfirst.rep.field_elems,
      hbytes, hbytes', Ram.flatten_drop hsrc,
      Ram.flatten_take (fun x hx => hsrc x (List.mem_of_mem_drop hx)), List.take_take,
      Nat.min_eq_left hlt.le, List.drop_take]
    exact hsecond

theorem copyOut_eq {n : Nat} (hn : n ≤ q.len) :
    copyOut m p.header n = (vqueueCopyOut q n).flatten := by
  have hstart := h.wrap_lt q.front
  have hcap : n ≤ q.cap := hn.trans h.len_le
  simp only [copyOut, vqueueCopyOut, h.before_eq, h.field_front, h.field_elemSize, h.address_eq,
    h.field_elems]
  split
  case isTrue hone =>
    rw [h.size_eq hcap]
    exact h.bytes_eq _ _ (by omega)
  case isFalse hsplit =>
    obtain ⟨before, hbefore⟩ : ∃ before, before = q.cap - vqueueWrap q q.front := ⟨_, rfl⟩
    rw [← hbefore] at hsplit ⊢
    have hlt : before < n := Nat.lt_of_not_le hsplit
    have hafter : sizeT (n + (sizeMax - before)) = n - before :=
      sizeT_sub hlt.le (Nat.lt_of_le_of_lt hcap h.cap_lt)
    have hsecond := h.bytes_eq 0 (n - before) (by omega)
    rw [hafter, h.size_eq (hlt.le.trans hcap),
      h.size_eq (by omega : n - before ≤ q.cap), List.flatten_append, ← hsecond,
      h.bytes_eq _ before (by omega)]
    rfl

theorem enqueueSome_eq {src : List (List UInt8)} (hsrc : ∀ x ∈ src, x.length = elemSize)
    (overwrite : Bool) :
    Reach elemSize numElems p m
        (enqueueSome m p.header src.length src.flatten overwrite).1
        (Dert.vqueueEnqueueSome q src overwrite).1 ∧
      (enqueueSome m p.header src.length src.flatten overwrite).2 =
        (Dert.vqueueEnqueueSome q src overwrite).2 := by
  have hcap := h.cap_lt
  have hlen := h.len_le
  have hwithout : sizeT (q.cap + (sizeMax - q.len)) = q.cap - q.len := sizeT_sub hlen hcap
  have hcan : sizeT ((if overwrite then q.len else 0) + (q.cap - q.len)) =
      (if overwrite then q.len else 0) + (q.cap - q.len) := sizeT_of_lt (by split <;> omega)
  simp only [enqueueSome, Dert.vqueueEnqueueSome, Dert.vqueueCap, Dert.vqueueLen, h.field_len,
    h.field_cap, hwithout, hcan]
  split
  case isTrue => exact ⟨h.reach, rfl⟩
  case isFalse =>
    obtain ⟨can, hcan⟩ : ∃ can, can = (if overwrite then q.len else 0) + (q.cap - q.len) :=
      ⟨_, rfl⟩
    simp only [← hcan]
    have hle : can ≤ q.cap := by rw [hcan]; split <;> omega
    split
    case isTrue => exact ⟨h.reach, rfl⟩
    case isFalse =>
      obtain ⟨should, hshould⟩ :
        ∃ should, should = if can ≥ src.length then src.length else can := ⟨_, rfl⟩
      simp only [← hshould]
      have hn : should ≤ src.length := by rw [hshould]; split <;> omega
      have hn' : should ≤ q.cap := by rw [hshould]; split <;> omega
      have hcopied := copyIn_eq h hsrc hn hn'
      have hback := hcopied.setBack (sizeT_lt (q.back + should))
      rw [hcopied.rep.field_back]
      dsimp only
      split
      case isTrue hover =>
        have hsub : sizeT (should + (sizeMax - (q.cap - q.len))) = should - (q.cap - q.len) :=
          sizeT_sub hover.le (Nat.lt_of_le_of_lt hn' hcap)
        have hfront := hback.setFront (sizeT_lt (q.front + (should - (q.cap - q.len))))
        have hfull : q.len + (q.cap - q.len) ≤ q.cap := by omega
        have hsum := sizeT_of_lt (Nat.lt_of_le_of_lt hfull hcap)
        rw [hback.rep.field_front, hsub]
        rw [hfront.rep.field_len, hsum]
        exact ⟨hfront.setLen hfull, rfl⟩
      case isFalse hnot =>
        have hroom : q.len + should ≤ q.cap := by omega
        have hsum := sizeT_of_lt (Nat.lt_of_le_of_lt hroom hcap)
        rw [hback.rep.field_len, hsum]
        exact ⟨hback.setLen hroom, rfl⟩

theorem dequeueSome_eq (n : Nat) :
    Reach elemSize numElems p m (dequeueSome m p.header n).1 (Dert.vqueueDequeueSome q n).1 ∧
      (dequeueSome m p.header n).2 =
        ((Dert.vqueueDequeueSome q n).2.1, (Dert.vqueueDequeueSome q n).2.2.1,
          (Dert.vqueueDequeueSome q n).2.2.2.flatten) := by
  have hcap := h.cap_lt
  have hlen := h.len_le
  have hslots : Dert.vqueueLen q = q.len := rfl
  simp only [dequeueSome, Dert.vqueueDequeueSome, h.field_len, h.field_front]
  split
  case isTrue => exact ⟨h.reach, rfl⟩
  case isFalse =>
    by_cases hempty : q.len = 0
    · rw [if_pos hempty, if_pos (hslots.trans hempty)]
      exact ⟨h.reach, rfl⟩
    · rw [if_neg hempty, if_neg (hslots.trans_ne hempty)]
      obtain ⟨should, hshould⟩ : ∃ should, should = if q.len ≥ n then n else q.len := ⟨_, rfl⟩
      have hshould' : (if Dert.vqueueLen q ≥ n then n else Dert.vqueueLen q) = should := hshould.symm
      simp only [← hshould, hshould']
      have hle : should ≤ q.len := by rw [hshould]; split <;> omega
      have hfront := h.reach.setFront (sizeT_lt (q.front + should))
      have hsub : sizeT (q.len + (sizeMax - should)) = q.len - should :=
        sizeT_sub hle (Nat.lt_of_le_of_lt hlen hcap)
      have hrest : q.len - should ≤ q.cap := (Nat.sub_le _ _).trans hlen
      rw [hfront.rep.field_len, hsub, copyOut_eq h hle]
      exact ⟨hfront.setLen hrest, rfl⟩

end Bulk

section Calls

theorem deinit_confined :
    Confined (extents elemSize numElems p) m (deinit sizeofVqueue m p.header) := by
  rw [deinit]
  split
  · exact Confined.refl _ _
  · have hlen : Confined (extents elemSize numElems p) m (m.setField p.header atLen 0) :=
      Ram.confined_setField (by decide) ⟨_, List.mem_cons_self, rfl⟩
    refine hlen.trans ?_
    exact confined_write ⟨_, List.mem_cons_self, Extent.Within.refl _⟩

theorem address_sub (elems : Nat) (i : Option Nat) :
    (i.map fun i => elems + elemSize * i).map (· - elems) = i.map (elemSize * ·) := by
  cases i with
  | none => rfl
  | some i => exact congrArg some (Nat.add_sub_cancel_left _ _)

theorem call_eq (h : Rep elemSize numElems p m q) {c : Vqueue.Call}
    (hc : Vqueue.allows elemSize c = true) (hends : Vqueue.ends c = false) :
    (vqueues elemSize numElems).Step (Rep elemSize numElems) p m (Vqueue.call p m c)
      (Vqueue.model elemSize q c) := by
  cases c with
  | op op =>
    cases op with
    | enqueue src overwrite =>
      have hspec := enqueue_eq h (of_decide_eq_true hc) overwrite
      simp only [Vqueue.call, Vqueue.model, Dert.Vqueue.call, vqueueEnqueue]
      generalize enqueue m p.header src overwrite = r at hspec ⊢
      generalize Dert.vqueueEnqueue q src overwrite = r' at hspec ⊢
      exact hspec.1.step (congrArg (fun r => Reply.mk r none []) hspec.2)
    | dequeue =>
      have hspec := dequeue_eq h
      simp only [Vqueue.call, Vqueue.model, Dert.Vqueue.call, vqueueDequeue]
      generalize dequeue m p.header = r at hspec ⊢
      generalize Dert.vqueueDequeue q = r' at hspec ⊢
      exact hspec.1.step (congrArg (fun r => Reply.mk r.1 none r.2) hspec.2)
    | enqueueSome src overwrite =>
      have hspec := enqueueSome_eq h (of_decide_eq_true hc).2 overwrite
      simp only [Vqueue.call, Vqueue.model, Dert.Vqueue.call, vqueueEnqueueSome]
      generalize enqueueSome m p.header src.length src.flatten overwrite = r at hspec ⊢
      generalize Dert.vqueueEnqueueSome q src overwrite = r' at hspec ⊢
      exact hspec.1.step (congrArg (fun r => Reply.mk r.1 r.2 []) hspec.2)
    | dequeueSome n =>
      have hspec := dequeueSome_eq h n
      simp only [Vqueue.call, Vqueue.model, Dert.Vqueue.call, vqueueDequeueSome]
      generalize dequeueSome m p.header n = r at hspec ⊢
      generalize Dert.vqueueDequeueSome q n = r' at hspec ⊢
      exact hspec.1.step (congrArg (fun r => Reply.mk r.1 r.2.1 r.2.2) hspec.2)
    | front =>
      simp only [Vqueue.call, Vqueue.model, Dert.Vqueue.call, vqueueFront, front_eq h]
      exact h.reach.step rfl
    | back =>
      simp only [Vqueue.call, Vqueue.model, Dert.Vqueue.call, vqueueBack, back_eq h]
      exact h.reach.step rfl
  | frontDirect =>
    simp only [Vqueue.call, Vqueue.model, vqueueFrontDirect, frontDirect_eq h, address_sub]
    exact h.reach.step rfl
  | backDirect =>
    simp only [Vqueue.call, Vqueue.model, vqueueBackDirect, backDirect_eq h, address_sub]
    exact h.reach.step rfl
  | len =>
    simp only [Vqueue.call, Vqueue.model, vqueueLen, len, h.field_len, Dert.vqueueLen]
    exact h.reach.step rfl
  | cap =>
    simp only [Vqueue.call, Vqueue.model, vqueueCap, cap, h.field_cap, Dert.vqueueCap]
    exact h.reach.step rfl
  | deinit => cases hends

end Calls

section Init

variable {queue elems num memory : Nat}

theorem initMembers_confined (m : Ram) (queue elems elemSize numElems : Nat) :
    Confined [⟨queue, sizeofPointer * numMembers⟩] m
      (initMembers m queue elems elemSize numElems) := by
  refine Confined.trans ?_ (Ram.confined_member (by decide))
  refine Confined.trans ?_ (Ram.confined_member (by decide))
  refine Confined.trans ?_ (Ram.confined_member (by decide))
  refine Confined.trans ?_ (Ram.confined_member (by decide))
  exact (Ram.confined_member (by decide)).trans (Ram.confined_member (by decide))

theorem initMembers_fields (m : Ram) (queue : Nat) (helems : elems < sizeMax)
    (hsize : elemSize < sizeMax) (hnum : numElems < sizeMax) :
    (initMembers m queue elems elemSize numElems).fields queue numMembers =
      [elems, elemSize, 0, 0, 0, numElems] := by
  have hzero : 0 < sizeMax := by decide
  simp only [initMembers]
  rw [Ram.fields_setField hzero, Ram.fields_setField hnum, Ram.fields_setField hzero,
    Ram.fields_setField hzero, Ram.fields_setField hsize, Ram.fields_setField helems]
  rfl

def fresh (elemSize numElems : Nat) : Dert.Vqueue (List UInt8) where
  elems _ := List.replicate elemSize 0
  front := 0
  back := 0
  len := 0
  cap := numElems

theorem initv_eq (m : Ram) (hmemory : 0 < memory) (hsize : 0 < elemSize) (hnum : 0 < numElems)
    (hqueues : 0 < num) (hadvise : num * (sizeofVqueue + elemSize * numElems) < sizeMax)
    (hblock : memory + num * (sizeofVqueue + elemSize * numElems) ≤ sizeMax) :
    (initv sizeofVqueue m num memory elemSize numElems).2 = (.ok, some memory) ∧
      Confined [⟨memory, num * (sizeofVqueue + elemSize * numElems)⟩] m
        (initv sizeofVqueue m num memory elemSize numElems).1 ∧
      ∀ i < num, Rep elemSize numElems
        (initvPlace sizeofVqueue (elemSize * numElems) num memory i)
        (initv sizeofVqueue m num memory elemSize numElems).1 (fresh elemSize numElems) := by
  have hone := Nat.le_mul_of_pos_left (sizeofVqueue + elemSize * numElems) hqueues
  have hsize' : elemSize ≤ elemSize * numElems := Nat.le_mul_of_pos_right _ hnum
  have hnum' : numElems ≤ elemSize * numElems := Nat.le_mul_of_pos_left _ hsize
  have hbytes := hadvise
  rw [Nat.mul_comm elemSize] at hbytes
  rw [initv, if_neg (by omega), arrayAdvisev_eq hqueues hbytes,
    arrayInitvElems_eq memory hqueues hbytes, Nat.mul_comm numElems]
  obtain ⟨hconfined, hplaces⟩ := initvLoop_places
    (fun m queue ptr => initMembers_confined m queue ptr elemSize numElems)
    (fun m queue ptr hptr => initMembers_fields m queue (by omega) (by omega) (by omega))
    hblock rfl
    (m.memset memory 0 (num * (sizeofVqueue + elemSize * numElems)))
  refine ⟨rfl, (confined_write ⟨_, List.mem_cons_self, Extent.Within.refl _⟩).trans hconfined,
    fun i hi => ?_⟩
  obtain ⟨hmembers, hkept⟩ := hplaces i hi
  exact
    { members := hmembers
      slots := fun j hj => by
        exact (Ram.slot_congr hj hkept).trans (Ram.bytes_memset ((Extent.piece_within hj).trans
          (initvPlace_within hi (List.mem_cons_of_mem _ List.mem_cons_self))))
      cap_eq := rfl
      len_le := Nat.zero_le _
      elemSize_pos := hsize
      numElems_pos := hnum
      size_lt := by omega
      apart := initvPlace_own hi }

theorem advise_eq (hsize : sizeofVqueue + elemSize * numElems < sizeMax) :
    arrayAdvise sizeofVqueue elemSize numElems = sizeofVqueue + elemSize * numElems := by
  rw [Nat.mul_comm elemSize] at hsize ⊢
  exact arrayAdvise_eq hsize

theorem advisev_eq (hqueues : 0 < num)
    (hsize : num * (sizeofVqueue + elemSize * numElems) < sizeMax) :
    arrayAdvisev sizeofVqueue num elemSize numElems =
      num * (sizeofVqueue + elemSize * numElems) := by
  rw [Nat.mul_comm elemSize] at hsize ⊢
  exact arrayAdvisev_eq hqueues hsize

theorem init_eq (m : Ram) (memory elemSize numElems : Nat) :
    init sizeofVqueue m memory elemSize numElems =
      initv sizeofVqueue m 1 memory elemSize numElems := by
  have hadvise : arrayAdvisev sizeofVqueue 1 elemSize numElems =
      arrayAdvise sizeofVqueue elemSize numElems := by
    rw [arrayAdvisev, Nat.one_mul]
    exact sizeT_of_lt (sizeT_lt _)
  rw [init, initv, hadvise]
  rfl

theorem init_rep {p : Place} {m m' : Ram} (hsize : 0 < elemSize) (hnum : 0 < numElems)
    (hblock : p.header + (sizeofVqueue + elemSize * numElems) ≤ sizeMax)
    (hinit : init sizeofVqueue m p.header elemSize numElems = (m', .ok, some p.header))
    (helems : p.elems = p.header + sizeofVqueue) :
    Rep elemSize numElems p m' (fresh elemSize numElems) := by
  have hheader : 0 < p.header := by
    refine Nat.pos_of_ne_zero fun hzero => ?_
    rw [init, if_pos (Or.inl hzero)] at hinit
    cases hinit
  rw [init_eq] at hinit
  have hrep := (initv_eq m hheader hsize hnum Nat.one_pos (by omega) (by omega)).2.2 0 Nat.one_pos
  rw [hinit] at hrep
  rwa [initvPlace_one helems] at hrep

end Init

theorem vqueues_refines (elemSize numElems : Nat) :
    (vqueues elemSize numElems).Refines (Rep elemSize numElems) (Vqueue.model elemSize) :=
  .of_steps (fun h hkept => h.frame hkept) (fun h hc hends => call_eq h hc hends)
    fun {p m q c} h hends => by
      cases c with
      | deinit => exact ⟨deinit_confined, rfl⟩
      | _ => cases hends

theorem Aqueue.call_toVqueue (p : Place) (m : Ram) (c : Aqueue.Call) :
    Aqueue.call p m c = Vqueue.call p m c.toVqueue := by
  cases c <;> rfl

theorem aqueues_refines (elemSize numElems : Nat) :
    (aqueues elemSize numElems).Refines (Rep elemSize numElems)
      fun q c => Vqueue.model elemSize q c.toVqueue := by
  have h := vqueues_refines elemSize numElems
  refine ⟨h.frame, fun {p m q c} hrep hc => ?_, fun {p m q c} hrep hc => ?_,
    fun {p m q c} hrep hc hends => ?_⟩
  all_goals
    dsimp only [aqueues]
    rw [Aqueue.call_toVqueue]
  · exact h.confined hrep hc
  · exact h.reply hrep hc
  · exact h.next hrep hc hends

end Dert.RawQueue
