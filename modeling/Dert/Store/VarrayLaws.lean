import Dert.Store.Varray
import Mathlib.Data.Nat.Find

namespace Dert.Varray

open Library

section Loop

def Doubles (atLeast x w : Nat) : Prop :=
  ∃ k, w = sizeT (2 ^ k * x) ∧ atLeast ≤ w ∧ ∀ j < k, sizeT (2 ^ j * x) < atLeast

variable {atLeast x w fuel : Nat}

theorem sizeT_double (j x : Nat) : sizeT (2 ^ j * sizeT (2 * x)) = sizeT (2 ^ (j + 1) * x) := by
  rw [sizeT, sizeT, Nat.mul_mod_mod, Nat.pow_succ, Nat.mul_assoc, sizeT]

theorem growLoop_eq_ok (hx : x < sizeMax) :
    varrayGrowLoop atLeast fuel x = .ok w ↔
      ∃ k < fuel, w = sizeT (2 ^ k * x) ∧ atLeast ≤ w ∧ ∀ j < k, sizeT (2 ^ j * x) < atLeast := by
  have hself : sizeT (2 ^ 0 * x) = x := by rw [Nat.pow_zero, Nat.one_mul, sizeT_of_lt hx]
  induction fuel generalizing x with
  | zero => simp [varrayGrowLoop]
  | succ fuel ih =>
    rw [varrayGrowLoop]
    split_ifs with hlt
    · have hself' : sizeT (2 ^ 0 * sizeT (2 * x)) = sizeT (2 * x) := by
        rw [sizeT_double, Nat.zero_add, Nat.pow_one]
      refine (ih (sizeT_lt _) hself').trans ?_
      constructor
      · rintro ⟨k, hk, rfl, hle, hless⟩
        refine ⟨k + 1, Nat.succ_lt_succ hk, sizeT_double k x, hle, fun j hj => ?_⟩
        cases j with
        | zero => rwa [hself]
        | succ j => exact sizeT_double j x ▸ hless j (Nat.lt_of_succ_lt_succ hj)
      · rintro ⟨k, hk, rfl, hle, hless⟩
        cases k with
        | zero =>
          rw [hself] at hle
          exact absurd hlt (Nat.not_lt.mpr hle)
        | succ k =>
          refine ⟨k, Nat.lt_of_succ_lt_succ hk, (sizeT_double k x).symm, hle, fun j hj => ?_⟩
          rw [sizeT_double]
          exact hless (j + 1) (Nat.succ_lt_succ hj)
    · constructor
      · intro heq
        obtain rfl := Except.ok.inj heq
        exact ⟨0, Nat.succ_pos _, hself.symm, Nat.not_lt.mp hlt, nofun⟩
      · rintro ⟨k, -, rfl, -, hless⟩
        cases k with
        | zero => rw [hself]
        | succ k =>
          have hzero := hless 0 (Nat.succ_pos k)
          rw [hself] at hzero
          exact absurd hzero hlt

theorem growLoop_cases (atLeast x fuel : Nat) :
    varrayGrowLoop atLeast fuel x = .error .hangs ∨ ∃ w, varrayGrowLoop atLeast fuel x = .ok w := by
  induction fuel generalizing x with
  | zero => exact .inl rfl
  | succ fuel ih =>
    rw [varrayGrowLoop]
    split_ifs
    · exact ih _
    · exact .inr ⟨x, rfl⟩

theorem Doubles.rounds (h : Doubles atLeast x w) (hpos : 0 < atLeast) :
    ∃ k < 64, w = sizeT (2 ^ k * x) ∧ atLeast ≤ w ∧ ∀ j < k, sizeT (2 ^ j * x) < atLeast := by
  obtain ⟨k, rfl, hle, hless⟩ := h
  refine ⟨k, Nat.lt_of_not_le fun hk => ?_, rfl, hle, hless⟩
  obtain ⟨i, rfl⟩ := Nat.exists_eq_add_of_le hk
  have hgone : sizeT (2 ^ (64 + i) * x) = 0 := by
    rw [sizeT, sizeMax, Nat.pow_add, Nat.mul_assoc]
    exact Nat.mul_mod_right ..
  omega

theorem Doubles.growLoop (h : Doubles atLeast x w) (hpos : 0 < atLeast) (hx : x < sizeMax)
    (hfuel : 64 ≤ fuel) : varrayGrowLoop atLeast fuel x = .ok w := by
  obtain ⟨k, hk, hdoubles⟩ := h.rounds hpos
  exact (growLoop_eq_ok hx).mpr ⟨k, Nat.lt_of_lt_of_le hk hfuel, hdoubles⟩

theorem doubles_of_growLoop (hx : x < sizeMax) (h : varrayGrowLoop atLeast fuel x = .ok w) :
    Doubles atLeast x w := by
  obtain ⟨k, -, hdoubles⟩ := (growLoop_eq_ok hx).mp h
  exact ⟨k, hdoubles⟩

theorem Doubles.unique {w' : Nat} (h : Doubles atLeast x w) (h' : Doubles atLeast x w') :
    w = w' := by
  obtain ⟨k, rfl, hle, hless⟩ := h
  obtain ⟨k', rfl, hle', hless'⟩ := h'
  rcases Nat.lt_trichotomy k k' with hlt | rfl | hlt
  · exact absurd (hless' k hlt) (Nat.not_lt.mpr hle)
  · rfl
  · exact absurd (hless k' hlt) (Nat.not_lt.mpr hle')

theorem Doubles.le (h : Doubles atLeast x w) : atLeast ≤ w := h.elim fun _ h => h.2.1

theorem Doubles.lt (h : Doubles atLeast x w) : w < sizeMax := by
  obtain ⟨k, rfl, -⟩ := h
  exact sizeT_lt _

end Loop

section Bytes

variable {bytes src : List UInt8} {size offset j : Nat} {garbage : Nat → UInt8}

@[simp] theorem length_kept : (Heap.kept bytes size garbage).length = size := by simp [Heap.kept]

theorem getElem?_kept (hj : j < size) (hbytes : j < bytes.length) :
    (Heap.kept bytes size garbage)[j]? = bytes[j]? := by
  simp [Heap.kept, hj, hbytes]

@[simp] theorem length_overwrite (h : offset + src.length ≤ bytes.length) :
    (Heap.overwrite bytes offset src).length = bytes.length := by
  simp only [Heap.overwrite, List.length_append, List.length_take, List.length_drop]
  omega

theorem getElem?_overwrite_before (h : offset + src.length ≤ bytes.length) (hj : j < offset) :
    (Heap.overwrite bytes offset src)[j]? = bytes[j]? := by
  rw [Heap.overwrite, List.append_assoc, List.getElem?_append_left (by simp; omega),
    List.getElem?_take_of_lt hj]

theorem getElem?_overwrite_inside (h : offset + src.length ≤ bytes.length)
    (hj : j < src.length) : (Heap.overwrite bytes offset src)[offset + j]? = src[j]? := by
  have htake : (bytes.take offset).length = offset := by simp; omega
  rw [Heap.overwrite, List.append_assoc, List.getElem?_append_right (by omega), htake,
    Nat.add_sub_cancel_left, List.getElem?_append_left hj]

theorem getElem?_overwrite_behind (h : offset + src.length ≤ bytes.length)
    (hj : offset + src.length ≤ j) : (Heap.overwrite bytes offset src)[j]? = bytes[j]? := by
  have htake : (bytes.take offset ++ src).length = offset + src.length := by simp; omega
  rw [Heap.overwrite, List.getElem?_append_right (by omega), htake, List.getElem?_drop,
    Nat.add_sub_cancel' hj]

def window (bytes : List UInt8) (offset count : Nat) : List UInt8 :=
  (bytes.drop offset).take count

theorem getElem?_window (bytes : List UInt8) {offset count : Nat} (hj : j < count) :
    (window bytes offset count)[j]? = bytes[offset + j]? := by
  rw [window, List.getElem?_take_of_lt hj, List.getElem?_drop]

theorem window_ext {bytes' : List UInt8} {offset offset' count : Nat}
    (h : ∀ j < count, bytes[offset + j]? = bytes'[offset' + j]?) :
    window bytes offset count = window bytes' offset' count := by
  refine List.ext_getElem? fun j => ?_
  rcases Nat.lt_or_ge j count with hj | hj
  · rw [getElem?_window _ hj, getElem?_window _ hj, h j hj]
  · rw [window, window, List.getElem?_eq_none (by simp; omega),
      List.getElem?_eq_none (by simp; omega)]

end Bytes

section Realloc

variable {heap : Heap} {ptr size : Nat} {bytes : List UInt8} {grant : Grant}

theorem realloc_none (h : heap ptr = some bytes) :
    heap.realloc ptr size none
      = .ok (if size = 0 then Function.update heap ptr none else heap, 0) := by
  rw [Heap.realloc, h]

theorem realloc_refused (h : heap ptr = some bytes) (hbig : ptrdiffMax < size) :
    heap.realloc ptr size (some grant) = .ok (heap, 0) := by
  simp only [Heap.realloc, h, if_pos hbig]

theorem realloc_moved (h : heap ptr = some bytes) (hsmall : size ≤ ptrdiffMax) :
    heap.realloc ptr size (some grant)
      = .ok (Function.update (Function.update heap ptr none) grant.address
          (some (Heap.kept bytes size grant.garbage)), grant.address) := by
  simp only [Heap.realloc, h, if_neg (Nat.not_lt.mpr hsmall)]

theorem store_update (heap : Heap) (ptr offset : Nat) (bytes src : List UInt8) :
    Heap.store (Function.update heap ptr (some bytes)) ptr offset src
      = if offset + src.length ≤ bytes.length then
          .ok (Function.update heap ptr (some (Heap.overwrite bytes offset src)))
        else .error .wild := by
  rw [Heap.store, Function.update_self]
  simp only [Function.update_idem]

end Realloc

variable {s s' : State} {answer : Option Grant} {elemSize newSize fuel ret : Nat}

/-- What no sequence of calls can break. -/
structure Sane (elemSize : Nat) (s : State) : Prop where
  width : s.array.elemSize = elemSize
  pos : 0 < elemSize
  null : s.heap 0 = none
  empty : s.array.elems = 0 → s.array.cap = 0
  stored : s.array.stored ≤ s.array.cap
  small : s.array.cap < sizeMax
  short : ∀ bytes, s.heap s.array.elems = some bytes → bytes.length < sizeMax

def State.request (s : State) (w : Nat) : Nat := sizeT (w * s.array.elemSize)

def Refused (s : State) (w : Nat) (answer : Option Grant) : Prop :=
  answer = none ∨ ptrdiffMax < s.request w

inductive Grows (s : State) (newSize w : Nat) : Option Grant → State → Nat → Prop
  | refused (answer : Option Grant) (ret : Nat) : ret ≠ 0 →
      (s.array.elems ≠ 0 → Refused s w answer ∧ s.request w ≠ 0) → Grows s newSize w answer s ret
  | first (grant : Grant) : s.array.elems = 0 → newSize * s.array.elemSize ≤ ptrdiffMax →
      grant.address ≠ 0 →
      Grows s newSize w (some grant)
        { heap := Function.update s.heap grant.address
            (some (List.replicate (newSize * s.array.elemSize) 0))
          array := { s.array with elems := grant.address, stored := newSize, cap := newSize } } 0
  | freed : s.array.elems ≠ 0 → Doubles newSize (s.array.cap + 1) w → s.request w = 0 →
      Grows s newSize w none { s with heap := Function.update s.heap s.array.elems none } 5
  | moved (grant : Grant) (bytes : List UInt8) : s.heap s.array.elems = some bytes →
      Doubles newSize (s.array.cap + 1) w → s.request w ≤ ptrdiffMax → grant.address ≠ 0 →
      s.request s.array.cap + s.request (w - s.array.cap) ≤ s.request w →
      Grows s newSize w (some grant)
        { heap := Function.update (Function.update s.heap s.array.elems none) grant.address
            (some (Heap.overwrite (Heap.kept bytes (s.request w) grant.garbage)
              (s.request s.array.cap) (List.replicate (s.request (w - s.array.cap)) 0)))
          array := { s.array with
            elems := grant.address
            stored := s.array.stored + (newSize - s.array.cap)
            cap := w } } 0

theorem grow_first (fuel : Nat) (h : Sane elemSize s) (hnull : s.array.elems = 0)
    (hgrow : s.array.cap < newSize) (hsize : newSize < sizeMax) (hanswer : Grants s answer)
    (w : Nat) :
    ∃ s' ret, varrayGrow fuel s (newSize - s.array.cap) answer = .ok (s', ret) ∧
      Grows s newSize w answer s' ret := by
  have hcap := h.empty hnull
  have hstored : s.array.stored = 0 := Nat.le_zero.mp (hcap ▸ h.stored)
  have hpos : newSize ≠ 0 := Nat.ne_of_gt (Nat.zero_lt_of_lt hgrow)
  rw [varrayGrow]
  simp only [hcap, hnull, hstored, Nat.sub_zero, if_neg hpos, if_true, Nat.zero_add,
    sizeT_of_lt hsize]
  cases answer with
  | none => exact ⟨s, 4, rfl, .refused none 4 (by decide) (absurd hnull)⟩
  | some grant =>
    rw [Heap.calloc]
    split_ifs with hbig
    · exact ⟨s, 4, rfl, .refused _ 4 (by decide) (absurd hnull)⟩
    · obtain ⟨address, hne⟩ := Nat.exists_eq_succ_of_ne_zero hanswer.1
      refine ⟨_, 0, ?_, .first grant hnull (Nat.not_lt.mp hbig) hanswer.1⟩
      rw [hne]
      rfl

theorem grow_moved (h : Sane elemSize s) (hlive : s.array.elems ≠ 0) {bytes : List UInt8}
    (hbytes : s.heap s.array.elems = some bytes) (hgrow : s.array.cap < newSize)
    (hsize : newSize < sizeMax) (hanswer : Grants s answer) {w : Nat}
    (hloop : varrayGrowLoop newSize fuel (s.array.cap + 1) = .ok w) :
    (∃ s' ret, varrayGrow fuel s (newSize - s.array.cap) answer = .ok (s', ret) ∧
      Grows s newSize w answer s' ret) ∨
    (varrayGrow fuel s (newSize - s.array.cap) answer = .error .wild ∧ answer ≠ none ∧
      s.request w ≤ ptrdiffMax ∧
      s.request w < s.request s.array.cap + s.request (w - s.array.cap)) := by
  have hpos : newSize - s.array.cap ≠ 0 := Nat.sub_ne_zero_of_lt hgrow
  have hsum : s.array.cap + (newSize - s.array.cap) = newSize := by omega
  have hnext : s.array.cap + 1 < sizeMax := Nat.lt_of_le_of_lt hgrow hsize
  have hw := doubles_of_growLoop hnext hloop
  have hadded : sizeT (w + (sizeMax - s.array.cap)) = w - s.array.cap :=
    sizeT_sub (Nat.le_trans (Nat.le_of_lt hgrow) hw.le) hw.lt
  have hstored : s.array.stored + (newSize - s.array.cap) < sizeMax := by
    have hle := h.stored
    omega
  have hrequest (n : Nat) : sizeT (n * s.array.elemSize) = s.request n := rfl
  rw [varrayGrow]
  simp only [if_neg hpos, if_neg hlive, hsum, sizeT_of_lt hsize, sizeT_of_lt hnext, hloop,
    sizeT_of_lt hstored, bind, Except.bind, hrequest, hadded]
  cases answer with
  | none =>
    rw [realloc_none hbytes]
    refine .inl ⟨_, 5, rfl, ?_⟩
    split_ifs with hzero
    · exact .freed hlive hw hzero
    · exact .refused none 5 (by decide) fun _ => ⟨.inl rfl, hzero⟩
  | some grant =>
    rcases Nat.lt_or_ge ptrdiffMax (s.request w) with hbig | hsmall
    · rw [realloc_refused hbytes hbig]
      exact .inl ⟨s, 5, rfl, .refused _ 5 (by decide) fun _ =>
        ⟨.inr hbig, Nat.ne_of_gt (Nat.zero_lt_of_lt hbig)⟩⟩
    · obtain ⟨address, hne⟩ := Nat.exists_eq_succ_of_ne_zero hanswer.1
      rw [realloc_moved hbytes hsmall, hne]
      simp only [store_update, length_kept, List.length_replicate]
      split_ifs with hfits
      · refine .inl ⟨_, 0, rfl, ?_⟩
        rw [← hne]
        exact .moved grant bytes hbytes hw hsmall hanswer.1 hfits
      · exact .inr ⟨rfl, by simp, hsmall, Nat.not_le.mp hfits⟩

theorem grow_hangs (hlive : s.array.elems ≠ 0) (hgrow : s.array.cap < newSize)
    (hsize : newSize < sizeMax)
    (hloop : varrayGrowLoop newSize fuel (s.array.cap + 1) = .error .hangs) :
    varrayGrow fuel s (newSize - s.array.cap) answer = .error .hangs := by
  have hsum : s.array.cap + (newSize - s.array.cap) = newSize := by omega
  have hnext : s.array.cap + 1 < sizeMax := Nat.lt_of_le_of_lt hgrow hsize
  rw [varrayGrow]
  simp only [if_neg (Nat.sub_ne_zero_of_lt hgrow), if_neg hlive, hsum, sizeT_of_lt hsize,
    sizeT_of_lt hnext, hloop, bind, Except.bind]

inductive Moves (s : State) : Call → State → Nat → Prop
  | same (newSize : Nat) (answer : Option Grant) :
      newSize = s.array.cap → Moves s (.realloc newSize answer) s 0
  | exposed (newSize : Nat) (answer : Option Grant) : newSize ≤ s.array.cap →
      Moves s (.resize newSize answer) { s with array := { s.array with stored := newSize } } 0
  | grown (c : Call) (newSize w : Nat) (answer : Option Grant) (s' : State) (ret : Nat) :
      c = .resize newSize answer ∨ c = .realloc newSize answer → s.array.cap < newSize →
      newSize < sizeMax → Grows s newSize w answer s' ret → Moves s c s' ret
  | refused (newSize : Nat) (answer : Option Grant) : newSize < s.array.cap →
      s.request newSize ≠ 0 → Moves s (.realloc newSize answer) s 5
  | freed (newSize : Nat) : newSize < s.array.cap → s.request newSize = 0 →
      Moves s (.realloc newSize none)
        { s with heap := Function.update s.heap s.array.elems none } 5
  | shrunk (newSize : Nat) (grant : Grant) (bytes : List UInt8) : newSize < s.array.cap →
      s.heap s.array.elems = some bytes → s.request newSize ≤ ptrdiffMax → grant.address ≠ 0 →
      Moves s (.realloc newSize (some grant))
        { heap := Function.update (Function.update s.heap s.array.elems none) grant.address
            (some (Heap.kept bytes (s.request newSize) grant.garbage))
          array := { s.array with
            elems := grant.address, stored := min newSize s.array.stored, cap := newSize } } 0
  | outside (pos : Nat) (src : Nat → UInt8) : s.array.stored ≤ pos → Moves s (.set pos src) s 1
  | written (pos : Nat) (src : Nat → UInt8) (bytes : List UInt8) : pos < s.array.stored →
      s.heap s.array.elems = some bytes →
      s.request pos + s.array.elemSize ≤ bytes.length →
      Moves s (.set pos src)
        { s with heap := Function.update s.heap s.array.elems (some (Heap.overwrite bytes
            (s.request pos) ((List.range s.array.elemSize).map src))) } 0

variable {c : Call}

theorem call_eq_grow (h : s.array.stored ≤ s.array.cap) (hgrow : s.array.cap < newSize)
    (hc : c = .resize newSize answer ∨ c = .realloc newSize answer) :
    call fuel s c = varrayGrow fuel s (newSize - s.array.cap) answer := by
  have hrealloc : varrayRealloc fuel s newSize answer
      = varrayGrow fuel s (newSize - s.array.cap) answer := by
    rw [varrayRealloc, if_neg (Nat.ne_of_gt hgrow), if_pos hgrow]
  have hstored := Nat.lt_of_le_of_lt h hgrow
  rcases hc with rfl | rfl
  · rw [call, varrayResize, if_neg (Nat.ne_of_gt hstored), if_pos hstored, if_pos hgrow, hrealloc]
  · rw [call, hrealloc]

theorem call_exposes (hle : newSize ≤ s.array.cap) :
    call fuel s (.resize newSize answer)
      = .ok ({ s with array := { s.array with stored := newSize } }, 0) := by
  rw [call, varrayResize]
  split_ifs with hsame
  · rw [hsame]
  · omega
  · rfl
  · rfl

theorem call_shrinks (fuel : Nat) (hless : newSize < s.array.cap)
    {bytes : List UInt8} (hbytes : s.heap s.array.elems = some bytes)
    (hallowed : Allowed s (.realloc newSize answer)) :
    ∃ s' ret, call fuel s (.realloc newSize answer) = .ok (s', ret) ∧
      Moves s (.realloc newSize answer) s' ret := by
  have hcap : s.array.cap - (s.array.cap - newSize) = newSize := by omega
  have hrequest : sizeT (newSize * s.array.elemSize) = s.request newSize := rfl
  rw [call, varrayRealloc, if_neg (Nat.ne_of_lt hless),
    if_neg (Nat.not_lt.mpr (Nat.le_of_lt hless)),
    varrayShrink]
  simp only [if_neg (Nat.sub_ne_zero_of_lt hless), if_neg (Nat.not_lt.mpr (Nat.sub_le ..)), hcap,
    hrequest, bind, Except.bind]
  cases answer with
  | none =>
    rw [realloc_none hbytes]
    refine ⟨_, 5, rfl, ?_⟩
    split_ifs with hzero
    · exact .freed newSize hless hzero
    · exact .refused newSize none hless hzero
  | some grant =>
    rcases Nat.lt_or_ge ptrdiffMax (s.request newSize) with hbig | hsmall
    · rw [realloc_refused hbytes hbig]
      exact ⟨s, 5, rfl, .refused newSize _ hless (Nat.ne_of_gt (Nat.zero_lt_of_lt hbig))⟩
    · obtain ⟨address, hne⟩ := Nat.exists_eq_succ_of_ne_zero hallowed.2.1
      rw [realloc_moved hbytes hsmall, hne]
      refine ⟨_, 0, rfl, ?_⟩
      have hmin : (if newSize < s.array.stored then newSize else s.array.stored)
          = min newSize s.array.stored := by grind
      rw [← hne, hmin]
      exact .shrunk newSize grant bytes hless hbytes hsmall hallowed.2.1

theorem call_shrinks_wild (hless : newSize < s.array.cap) (hdead : s.heap s.array.elems = none) :
    call fuel s (.realloc newSize answer) = .error .wild := by
  rw [call, varrayRealloc, if_neg (Nat.ne_of_lt hless),
    if_neg (Nat.not_lt.mpr (Nat.le_of_lt hless)),
    varrayShrink]
  simp only [if_neg (Nat.sub_ne_zero_of_lt hless), if_neg (Nat.not_lt.mpr (Nat.sub_le ..)),
    Heap.realloc, hdead, bind, Except.bind]

theorem grow_dead (fuel : Nat) (answer : Option Grant) (hlive : s.array.elems ≠ 0)
    (hdead : s.heap s.array.elems = none) (hgrow : s.array.cap < newSize) :
    ∃ fault, varrayGrow fuel s (newSize - s.array.cap) answer = .error fault := by
  rw [varrayGrow]
  simp only [if_neg (Nat.sub_ne_zero_of_lt hgrow), if_neg hlive, bind, Except.bind]
  rcases growLoop_cases (sizeT (s.array.cap + (newSize - s.array.cap)))
    (sizeT (s.array.cap + 1)) fuel with hloop | ⟨w, hloop⟩
  · exact ⟨.hangs, by rw [hloop]⟩
  · exact ⟨.wild, by simp only [hloop, Heap.realloc, hdead]⟩

theorem getDirect_outside {pos : Nat} (h : s.array.stored ≤ pos) :
    varrayGetDirect s.array pos = none := if_pos h

theorem Sane.elems_ne (h : Sane elemSize s) {n : Nat} (hn : n < s.array.cap) :
    s.array.elems ≠ 0 := fun hnull => by
  rw [h.empty hnull] at hn
  exact Nat.not_lt_zero n hn

theorem getDirect_inside (h : Sane elemSize s) {pos : Nat} (hpos : pos < s.array.stored) :
    varrayGetDirect s.array pos = some (s.request pos) := by
  have hlive := h.elems_ne (Nat.lt_of_lt_of_le hpos h.stored)
  rw [varrayGetDirect, if_neg (Nat.not_le.mpr hpos)]
  exact if_neg fun hnull => hlive hnull.1

theorem Sane.init (h : (machine fuel elemSize).init s) : Sane elemSize s ∧ s.array.elems = 0 := by
  obtain ⟨harray, hnull⟩ := h
  rw [varrayInit] at harray
  split_ifs at harray with hzero
  obtain ⟨heap, array⟩ := s
  obtain rfl := Option.some.inj harray
  exact ⟨⟨rfl, Nat.pos_of_ne_zero hzero, hnull, fun _ => rfl, Nat.le_refl 0, by simp [sizeMax],
    fun bytes hbytes => by simp_all⟩, rfl⟩

theorem Sane.live (h : Sane elemSize s) {bytes : List UInt8}
    (hbytes : s.heap s.array.elems = some bytes) : s.array.elems ≠ 0 := fun hnull => by
  rw [hnull, h.null] at hbytes
  cases hbytes

theorem Sane.place (h : Sane elemSize s) {heap : Heap} {address stored cap : Nat}
    {bytes : List UInt8} (hnull : heap 0 = none) (hne : address ≠ 0) (hstored : stored ≤ cap)
    (hsmall : cap < sizeMax) (hshort : bytes.length < sizeMax) :
    Sane elemSize { heap := Function.update heap address (some bytes)
                    array := { s.array with elems := address, stored, cap } } where
  width := h.width
  pos := h.pos
  null := (Function.update_of_ne (Ne.symm hne) ..).trans hnull
  empty hzero := absurd hzero hne
  stored := hstored
  small := hsmall
  short bytes' hbytes := by
    obtain rfl : bytes = bytes' := by simpa using hbytes
    exact hshort

theorem Sane.vacate (h : Sane elemSize s) :
    Sane elemSize { s with heap := Function.update s.heap s.array.elems none } :=
  { h with
    null := by simp only [Function.update_apply, h.null, ite_self]
    short := fun bytes hbytes => by simp at hbytes }

theorem Sane.grows {w : Nat} (h : Sane elemSize s) (hgrow : s.array.cap < newSize)
    (hsize : newSize < sizeMax) (hg : Grows s newSize w answer s' ret) : Sane elemSize s' := by
  cases hg with
  | refused => exact h
  | first grant hnull hsmall hne =>
    refine h.place h.null hne (Nat.le_refl _) hsize ?_
    rw [List.length_replicate]
    exact Nat.lt_of_le_of_lt hsmall (by decide)
  | freed => exact h.vacate
  | moved grant bytes hbytes hw hsmall hne hfits =>
    refine h.place h.vacate.null hne ?_ hw.lt ?_
    · have hle := h.stored
      have hwle := hw.le
      omega
    · rw [length_overwrite (by simpa using hfits), length_kept]
      exact Nat.lt_of_le_of_lt hsmall (by decide)

theorem Sane.moves (h : Sane elemSize s) (hm : Moves s c s' ret) : Sane elemSize s' := by
  cases hm with
  | same => exact h
  | exposed newSize answer hle => exact { h with stored := hle }
  | grown c newSize w answer s' ret hc hgrow hsize hg => exact h.grows hgrow hsize hg
  | refused => exact h
  | freed => exact h.vacate
  | shrunk newSize grant bytes hless hbytes hsmall hne =>
    refine h.place h.vacate.null hne (Nat.min_le_left ..) (Nat.lt_trans hless h.small) ?_
    rw [length_kept]
    exact Nat.lt_of_le_of_lt hsmall (by decide)
  | outside => exact h
  | written pos src bytes hpos hbytes hfits =>
    refine h.place h.null (h.live hbytes) h.stored h.small ?_
    rw [length_overwrite (by simpa using hfits)]
    exact h.short bytes hbytes

theorem call_sets (h : Sane elemSize s) {pos : Nat} {src : Nat → UInt8} {bytes : List UInt8}
    (hpos : pos < s.array.stored) (hbytes : s.heap s.array.elems = some bytes)
    (hfits : s.request pos + s.array.elemSize ≤ bytes.length) :
    ∃ s', call fuel s (.set pos src) = .ok (s', 0) ∧ Moves s (.set pos src) s' 0 := by
  refine ⟨_, ?_, .written pos src bytes hpos hbytes hfits⟩
  rw [call, varraySet, getDirect_inside h hpos]
  simp only [Heap.store, hbytes, List.length_map, List.length_range, if_pos hfits, Except.map]

theorem grow_grows (h : Sane elemSize s) (hgrow : s.array.cap < newSize) (hsize : newSize < sizeMax)
    (hanswer : Grants s answer)
    (hcall : varrayGrow fuel s (newSize - s.array.cap) answer = .ok (s', ret)) :
    ∃ w, Grows s newSize w answer s' ret := by
  by_cases hnull : s.array.elems = 0
  · obtain ⟨s'', ret', hcall', hg⟩ := grow_first fuel h hnull hgrow hsize hanswer 0
    obtain ⟨rfl, rfl⟩ := Prod.mk.inj (Except.ok.inj (hcall.symm.trans hcall'))
    exact ⟨0, hg⟩
  rcases growLoop_cases newSize (s.array.cap + 1) fuel with hloop | ⟨w, hloop⟩
  · rw [grow_hangs hnull hgrow hsize hloop] at hcall
    cases hcall
  · cases hbytes : s.heap s.array.elems with
    | none =>
      obtain ⟨fault, hfault⟩ := grow_dead fuel answer hnull hbytes hgrow
      rw [hfault] at hcall
      cases hcall
    | some bytes =>
      rcases grow_moved h hnull hbytes hgrow hsize hanswer hloop with
        ⟨s'', ret', hcall', hg⟩ | ⟨hwild, -⟩
      · obtain ⟨rfl, rfl⟩ := Prod.mk.inj (Except.ok.inj (hcall.symm.trans hcall'))
        exact ⟨w, hg⟩
      · rw [hwild] at hcall
        cases hcall

theorem call_moves (h : Sane elemSize s) (hallowed : Allowed s c)
    (hcall : call fuel s c = .ok (s', ret)) : Moves s c s' ret := by
  have hgrown (newSize : Nat) (answer : Option Grant)
      (hc : c = .resize newSize answer ∨ c = .realloc newSize answer)
      (hgrow : s.array.cap < newSize) (hsize : newSize < sizeMax) (hanswer : Grants s answer) :
      Moves s c s' ret := by
    rw [call_eq_grow h.stored hgrow hc] at hcall
    obtain ⟨w, hg⟩ := grow_grows h hgrow hsize hanswer hcall
    exact .grown c newSize w answer s' ret hc hgrow hsize hg
  cases c with
  | resize newSize answer =>
    rcases Nat.lt_or_ge s.array.cap newSize with hgrow | hle
    · exact hgrown newSize answer (.inl rfl) hgrow hallowed.1 hallowed.2
    · rw [call_exposes hle] at hcall
      obtain ⟨rfl, rfl⟩ := Prod.mk.inj (Except.ok.inj hcall)
      exact .exposed newSize answer hle
  | realloc newSize answer =>
    rcases Nat.lt_trichotomy newSize s.array.cap with hless | hsame | hgrow
    · cases hbytes : s.heap s.array.elems with
      | none =>
        rw [call_shrinks_wild hless hbytes] at hcall
        cases hcall
      | some bytes =>
        obtain ⟨s'', ret', hcall', hm⟩ := call_shrinks fuel hless hbytes hallowed
        obtain ⟨rfl, rfl⟩ := Prod.mk.inj (Except.ok.inj (hcall.symm.trans hcall'))
        exact hm
    · rw [call, varrayRealloc, if_pos hsame] at hcall
      obtain ⟨rfl, rfl⟩ := Prod.mk.inj (Except.ok.inj hcall)
      exact .same newSize answer hsame
    · exact hgrown newSize answer (.inr rfl) hgrow hallowed.1 hallowed.2
  | set pos src =>
    rcases Nat.lt_or_ge pos s.array.stored with hpos | hout
    · simp only [call, varraySet, getDirect_inside h hpos, Heap.store] at hcall
      cases hbytes : s.heap s.array.elems with
      | none => simp [hbytes, Except.map] at hcall
      | some bytes =>
        simp only [hbytes, List.length_map, List.length_range] at hcall
        split_ifs at hcall with hfits
        · obtain ⟨rfl, rfl⟩ := Prod.mk.inj (Except.ok.inj hcall)
          exact .written pos src bytes hpos hbytes hfits
        · cases hcall
    · rw [call, varraySet, getDirect_outside hout] at hcall
      obtain ⟨rfl, rfl⟩ := Prod.mk.inj (Except.ok.inj hcall)
      exact .outside pos src hout

theorem step_eq_some :
    (machine fuel elemSize).step s c = some s' ↔
      Allowed s c ∧ ∃ ret, call fuel s c = .ok (s', ret) := by
  simp only [machine]
  split_ifs with hallowed
  · cases hcall : call fuel s c with
    | error fault => simp [Except.toOption, hallowed]
    | ok r => simp [Except.toOption, hallowed, Prod.ext_iff, eq_comm]
  · simp [hallowed]

theorem Sane.run {tr : List (State × Call)}
    (hr : (machine fuel elemSize).Run tr s) : Sane elemSize s := by
  induction hr with
  | start h => exact (Sane.init h).1
  | next _ hstep ih =>
    obtain ⟨hallowed, ret, hcall⟩ := step_eq_some.mp hstep
    exact ih.moves (call_moves ih hallowed hcall)

end Dert.Varray
