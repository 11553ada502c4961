import Dert.Store.VarrayBlocks

namespace Dert.Varray

open Library

variable {s s' : State} {answer : Option Grant} {c : Call} {elemSize newSize fuel ret w : Nat}
  {tr : List (State × Call)}

section Contents

def slot (s : State) (i : Nat) : List UInt8 :=
  match s.heap s.array.elems with
  | none => []
  | some bytes => window bytes (i * s.array.elemSize) s.array.elemSize

def zeros (count : Nat) : List UInt8 := List.replicate count 0

structure KeepsLaw (s : State) (c : Call) (s' : State) (ret : Nat) : Prop where
  stored : s'.array.stored ≤ s'.array.cap
  kept : ∀ i, i < s.array.cap → i < s'.array.cap →
    (∀ src, c = .set i src → s.array.stored ≤ i) → slot s' i = slot s i
  written : ∀ i src, c = .set i src → i < s.array.stored →
    ret = 0 ∧ slot s' i = (List.range s.array.elemSize).map src
  zeroed : ∀ i, s.array.cap ≤ i → i < s'.array.cap → slot s' i = zeros s.array.elemSize
  failed : ret ≠ 0 → s' = s

def lastSet (elemSize i : Nat) : List (State × Call) → List UInt8
  | [] => zeros elemSize
  | (s, c) :: tr =>
    if s.array.cap ≤ i then zeros elemSize
    else
      match c with
      | .set pos src =>
        if pos = i ∧ i < s.array.stored then (List.range elemSize).map src
        else lastSet elemSize i tr
      | _ => lastSet elemSize i tr

theorem slot_eq {bytes : List UInt8} (h : s.heap s.array.elems = some bytes) (i : Nat) :
    slot s i = window bytes (i * s.array.elemSize) s.array.elemSize := by
  rw [slot, h]

theorem slot_end {i j n width : Nat} (hi : i < n) (hj : j < width) : i * width + j < n * width := by
  calc i * width + j < i * width + width := Nat.add_lt_add_left hj _
    _ = (i + 1) * width := (Nat.succ_mul ..).symm
    _ ≤ n * width := Nat.mul_le_mul_right _ hi

theorem Holds.get (h : Holds s) (hsane : Sane elemSize s) {i : Nat} (hi : i < s.array.stored) :
    varrayGet s i = .ok (0, some (slot s i)) := by
  obtain ⟨bytes, hbytes, hle⟩ := h
  have hcap := Nat.lt_of_lt_of_le hi hsane.stored
  have hrequest : s.request i = i * s.array.elemSize :=
    Owned.request (.inr ⟨bytes, hbytes, hle⟩) hsane (Nat.le_of_lt hcap)
  have hend : i * s.array.elemSize + s.array.elemSize ≤ bytes.length := by
    rw [← Nat.succ_mul]
    exact Nat.le_trans (Nat.mul_le_mul_right _ hcap) hle
  rw [varrayGet, getDirect_inside hsane hi]
  simp only [Heap.load, hbytes, hrequest, if_pos hend, Except.map, slot_eq hbytes, window]

theorem get_outside {i : Nat} (hi : s.array.stored ≤ i) : varrayGet s i = .ok (2, none) := by
  rw [varrayGet, getDirect_outside hi]

section Slots

variable {bytes : List UInt8} {i n width : Nat}

theorem window_zeros {count : Nat} (hle : n + width ≤ count) :
    window (List.replicate count 0) n width = zeros width := by
  rw [window, List.drop_replicate, List.take_replicate, zeros]
  congr 1
  omega

theorem window_kept {garbage : Nat → UInt8} (hi : i < n) (hbytes : n * width ≤ bytes.length) :
    window (Heap.kept bytes (n * width) garbage) (i * width) width
      = window bytes (i * width) width :=
  window_ext fun j hj => by
    have hend := slot_end hi hj
    exact getElem?_kept hend (Nat.lt_of_lt_of_le hend hbytes)

theorem window_moved {w : Nat} {garbage : Nat → UInt8} (hi : i < n) (hn : n ≤ w)
    (hbytes : n * width ≤ bytes.length) :
    window (Heap.overwrite (Heap.kept bytes (w * width) garbage) (n * width)
      (List.replicate ((w - n) * width) 0)) (i * width) width = window bytes (i * width) width :=
  window_ext fun j hj => by
    have hend := slot_end hi hj
    have hmul := Nat.mul_le_mul_right width hn
    have hsum : n * width + (w - n) * width = w * width := by
      rw [← Nat.add_mul, Nat.add_sub_cancel' hn]
    rw [getElem?_overwrite_before (by simp [hsum]) hend,
      getElem?_kept (Nat.lt_of_lt_of_le hend hmul) (Nat.lt_of_lt_of_le hend hbytes)]

theorem window_added {w : Nat} {garbage : Nat → UInt8} (hn : n ≤ i) (hi : i < w) :
    window (Heap.overwrite (Heap.kept bytes (w * width) garbage) (n * width)
      (List.replicate ((w - n) * width) 0)) (i * width) width = zeros width := by
  have hsum : n * width + (w - n) * width = w * width := by
    rw [← Nat.add_mul, Nat.add_sub_cancel' (Nat.le_trans hn (Nat.le_of_lt hi))]
  have hmul := Nat.mul_le_mul_right width hn
  rw [← window_zeros (n := 0) (Nat.le_of_eq (Nat.zero_add width))]
  refine window_ext fun j hj => ?_
  have hend := slot_end hi hj
  obtain ⟨k, hk⟩ := Nat.exists_eq_add_of_le (Nat.le_trans hmul (Nat.le_add_right _ j))
  rw [hk, getElem?_overwrite_inside (by simp [hsum]) (by simp; omega), Nat.zero_add,
    List.getElem?_replicate, List.getElem?_replicate, if_pos (by omega), if_pos hj]

theorem window_written {src : List UInt8} (hsrc : src.length = width)
    (hfits : i * width + width ≤ bytes.length) :
    window (Heap.overwrite bytes (i * width) src) (i * width) width = src := by
  subst hsrc
  have hself : window src 0 src.length = src := by simp [window]
  refine (window_ext fun j hj => ?_).trans hself
  rw [getElem?_overwrite_inside hfits hj, Nat.zero_add]

theorem window_beside {pos : Nat} {src : List UInt8} (hsrc : src.length = width)
    (hfits : pos * width + width ≤ bytes.length) (hne : i ≠ pos) :
    window (Heap.overwrite bytes (pos * width) src) (i * width) width
      = window bytes (i * width) width := by
  subst hsrc
  refine window_ext fun j hj => ?_
  rcases Nat.lt_or_gt_of_ne hne with hlt | hgt
  · exact getElem?_overwrite_before hfits (slot_end hlt hj)
  · have hmul := Nat.mul_le_mul_right src.length (Nat.succ_le_of_lt hgt)
    rw [Nat.succ_mul] at hmul
    exact getElem?_overwrite_behind hfits (Nat.le_trans hmul (Nat.le_add_right ..))

end Slots

theorem KeepsLaw.refl (h : Sane elemSize s) (hset : ∀ i src, c = .set i src → s.array.stored ≤ i) :
    KeepsLaw s c s ret where
  stored := h.stored
  kept _ _ _ _ := rfl
  written i src hc hi := absurd hi (Nat.not_lt.mpr (hset i src hc))
  zeroed _ hi hi' := absurd hi' (Nat.not_lt.mpr hi)
  failed _ := rfl

theorem Owned.keepsGrown (h : Owned s) (hsane : Sane elemSize s)
    (hspares : s.array.elems ≠ 0 → Spares s newSize answer)
    (hgrow : s.array.cap < newSize) (hsize : newSize < sizeMax)
    (hc : c = .resize newSize answer ∨ c = .realloc newSize answer)
    (hg : Grows s newSize w answer s' ret) : KeepsLaw s c s' ret := by
  have hset (i : Nat) (src : Nat → UInt8) : c ≠ .set i src := by
    rcases hc with rfl | rfl <;> simp
  have hstored := (hsane.grows hgrow hsize hg).stored
  cases hg with
  | refused => exact .refl hsane fun i src hi => absurd hi (hset i src)
  | first grant hnull hsmall hne =>
    exact {
      stored := hstored
      kept := fun i hi _ _ => by
        rw [hsane.empty hnull] at hi
        exact absurd hi (Nat.not_lt_zero i)
      written := fun i src hi _ => absurd hi (hset i src)
      zeroed := fun i _ hi => by
        rw [slot_eq (Function.update_self ..)]
        exact window_zeros (Nat.succ_mul i _ ▸ Nat.mul_le_mul_right _ hi)
      failed := fun hret => absurd rfl hret }
  | freed hlive hw hzero =>
    exact absurd hzero ((hspares hlive).not_freed hsane (Nat.zero_lt_of_lt hgrow) hw)
  | moved grant bytes hbytes hdoubles hsmall hne hfits =>
    have hlt := (hspares (hsane.live hbytes)).moved hdoubles hsmall
    have hle := Nat.le_trans (Nat.le_of_lt hgrow) hdoubles.le
    have hroom := h.room hsane hbytes
    have hw : s.request w = w * s.array.elemSize := sizeT_of_lt hlt
    have hcap := h.request hsane (Nat.le_refl _)
    have hadded : s.request (w - s.array.cap) = (w - s.array.cap) * s.array.elemSize :=
      sizeT_of_lt (Nat.lt_of_le_of_lt (Nat.mul_le_mul_right _ (Nat.sub_le ..)) hlt)
    exact {
      stored := hstored
      kept := fun i hi _ _ => by
        rw [slot_eq (Function.update_self ..), slot_eq hbytes, hw, hcap, hadded]
        exact window_moved hi hle hroom
      written := fun i src hi _ => absurd hi (hset i src)
      zeroed := fun i hi hi' => by
        rw [slot_eq (Function.update_self ..), hw, hcap, hadded]
        exact window_added hi hi'
      failed := fun hret => absurd rfl hret }

theorem Owned.keeps (h : Owned s) (hsane : Sane elemSize s) (hcareful : Careful s c)
    (hm : Moves s c s' ret) : KeepsLaw s c s' ret := by
  have hstored := (hsane.moves hm).stored
  cases hm with
  | same => exact .refl hsane (by simp)
  | exposed =>
    exact {
      stored := hstored
      kept := fun _ _ _ _ => rfl
      written := by simp
      zeroed := fun _ hi hi' => absurd hi' (Nat.not_lt.mpr hi)
      failed := fun hret => absurd rfl hret }
  | grown c newSize w answer s' ret hc hgrow hsize hg =>
    exact h.keepsGrown hsane (hcareful.grows hc hgrow) hgrow hsize hc hg
  | refused => exact .refl hsane (by simp)
  | freed newSize hless hzero =>
    exact absurd rfl (hcareful.2 hless (h.freed hsane hless hzero))
  | shrunk newSize grant bytes hless hbytes hsmall hne =>
    have hroom := h.room hsane hbytes
    have hmul := Nat.mul_le_mul_right s.array.elemSize (Nat.le_of_lt hless)
    exact {
      stored := hstored
      kept := fun i _ hi _ => by
        rw [slot_eq (Function.update_self ..), slot_eq hbytes,
          h.request hsane (Nat.le_of_lt hless)]
        exact window_kept hi (Nat.le_trans hmul hroom)
      written := by simp
      zeroed := fun i hi hi' => absurd hi' (Nat.not_lt.mpr (Nat.le_trans (Nat.le_of_lt hless) hi))
      failed := fun hret => absurd rfl hret }
  | outside pos src hpos =>
    refine .refl hsane fun i src' hi => ?_
    obtain ⟨rfl, -⟩ := Call.set.inj hi
    exact hpos
  | written pos src bytes hpos hbytes hfits =>
    have hrequest := h.request hsane (Nat.le_of_lt (Nat.lt_of_lt_of_le hpos hsane.stored))
    rw [hrequest] at hfits
    exact {
      stored := hstored
      kept := fun i _ _ hother => by
        have hne : i ≠ pos := fun hi => absurd (hother src (hi ▸ rfl)) (hi ▸ Nat.not_le.mpr hpos)
        rw [slot_eq (Function.update_self ..), slot_eq hbytes, hrequest]
        exact window_beside (by simp) hfits hne
      written := fun i src' hi _ => by
        obtain ⟨rfl, rfl⟩ := Call.set.inj hi
        rw [slot_eq (Function.update_self ..), hrequest]
        exact ⟨rfl, window_written (by simp) hfits⟩
      zeroed := fun _ hi hi' => absurd hi' (Nat.not_lt.mpr hi)
      failed := fun hret => absurd rfl hret }

section Runs

structure Kept (elemSize : Nat) (tr : List (State × Call)) (s : State) : Prop where
  sane : Sane elemSize s
  owned : Owned s
  slots : ∀ i < s.array.cap, slot s i = lastSet elemSize i tr

theorem KeepsLaw.slots (h : KeepsLaw s c s' ret) (hsane : Sane elemSize s)
    (hslots : ∀ i < s.array.cap, slot s i = lastSet elemSize i tr) {i : Nat}
    (hi : i < s'.array.cap) : slot s' i = lastSet elemSize i ((s, c) :: tr) := by
  by_cases hnew : s.array.cap ≤ i
  · have hlast : lastSet elemSize i ((s, c) :: tr) = zeros elemSize := by
      cases c <;> simp only [lastSet, if_pos hnew]
    rw [h.zeroed i hnew hi, hlast, hsane.width]
  have hcap := Nat.not_le.mp hnew
  cases c with
  | resize => simp only [lastSet, if_neg hnew, h.kept i hcap hi (by simp), hslots i hcap]
  | realloc => simp only [lastSet, if_neg hnew, h.kept i hcap hi (by simp), hslots i hcap]
  | set pos src =>
    simp only [lastSet, if_neg hnew]
    split_ifs with hwritten
    · obtain ⟨rfl, hlt⟩ := hwritten
      rw [(h.written pos src rfl hlt).2, hsane.width]
    · rw [h.kept i hcap hi, hslots i hcap]
      rintro src' heq
      obtain ⟨rfl, -⟩ := Call.set.inj heq
      exact Nat.not_lt.mp fun hlt => hwritten ⟨rfl, hlt⟩

theorem Kept.run (hr : (machine fuel elemSize).Run tr s) (hsafe : ∀ e ∈ tr, Safe e.1 e.2) :
    Kept elemSize tr s := by
  induction hr with
  | start h =>
    obtain ⟨hsane, hnull⟩ := Sane.init h
    have hcap := hsane.empty hnull
    exact ⟨hsane, .inl ⟨hnull, hcap⟩, fun i hi => by omega⟩
  | next _ hstep ih =>
    obtain ⟨hsane, howned, hslots⟩ := ih fun e he => hsafe e (List.mem_cons_of_mem _ he)
    obtain ⟨hallowed, ret, hcall⟩ := step_eq_some.mp hstep
    have hm := call_moves hsane hallowed hcall
    have hcareful := (hsafe _ (List.mem_cons_self ..)).careful
    exact ⟨hsane.moves hm, howned.moves hsane hcareful hm, fun i hi =>
      (howned.keeps hsane hcareful hm).slots hsane hslots hi⟩

theorem Kept.get (h : Kept elemSize tr s) (i : Nat) :
    varrayGet s i
      = .ok (if i < s.array.stored then (0, some (lastSet elemSize i tr)) else (2, none)) := by
  split_ifs with hi
  · have hcap := Nat.lt_of_lt_of_le hi h.sane.stored
    rw [(h.owned.live (h.sane.elems_ne hcap)).get h.sane hi, h.slots i hcap]
  · exact get_outside (Nat.not_lt.mp hi)

/-- The contents survive every call but the ones that write them. -/
theorem contents_kept (hfuel : 64 ≤ fuel) (hr : (machine fuel elemSize).Run tr s)
    (hsafe : ∀ e ∈ tr, Safe e.1 e.2) :
    s.array.stored ≤ s.array.cap ∧
    (∀ i, varrayGet s i
      = .ok (if i < s.array.stored then (0, some (lastSet elemSize i tr)) else (2, none))) ∧
    ∀ c, Allowed s c → Safe s c →
      ∃ s' ret, call fuel s c = .ok (s', ret) ∧ KeepsLaw s c s' ret := by
  have hkept := Kept.run hr hsafe
  refine ⟨hkept.sane.stored, hkept.get, fun c hallowed hcsafe => ?_⟩
  obtain ⟨s', ret, hcall⟩ := hkept.owned.returns hkept.sane hcsafe hallowed hfuel
  exact ⟨s', ret, hcall,
    hkept.owned.keeps hkept.sane hcsafe.careful (call_moves hkept.sane hallowed hcall)⟩

section Witness

theorem contents_kept_grown :
    varrayGet grown 1 = .ok (0, some [3, 4]) ∧ varrayGet grown 4 = .ok (0, some [0, 0]) ∧
      varrayGet grown 5 = .ok (2, none) := by
  have hrun : (machine 64 2).Run ((pairSet, .resize 5 (some (grantAt 16))) :: pairTrace) grown :=
    pairSet_run.next (step_eq_some.mpr ⟨by decide, 0, grown_eq⟩)
  obtain ⟨-, hget, -⟩ := contents_kept (Nat.le_refl 64) hrun
    (List.forall_mem_cons.mpr ⟨pairSet_safe, pairTrace_safe⟩)
  exact ⟨hget 1, hget 4, hget 5⟩

end Witness

end Runs

end Contents

section Length

def ResizeLaw (s' : State) (newSize : Nat) : Prop :=
  varrayLen s'.array = newSize ∧
    ∀ pos, (∃ dest, varrayGet s' pos = .ok (0, some dest)) ↔ pos < newSize

theorem Kept.resizeLaw (h : Kept elemSize tr s') :
    ResizeLaw s' newSize ↔ s'.array.stored = newSize := by
  refine ⟨And.left, ?_⟩
  rintro rfl
  refine ⟨rfl, fun pos => ?_⟩
  rw [h.get]
  split_ifs with hpos <;> simp [hpos]

theorem Moves.resized (hm : Moves s (.resize newSize answer) s' 0) (h : Sane elemSize s) :
    s'.array.stored = newSize ↔ newSize ≤ s.array.cap ∨ s.array.stored = s.array.cap := by
  have hle := h.stored
  cases hm with
  | exposed newSize answer hexposed => simp [hexposed]
  | grown c n w answer s' ret hc hgrow hsize hg =>
    obtain ⟨rfl, rfl⟩ : newSize = n ∧ _ = answer := by simpa using hc
    cases hg with
    | refused answer ret hret => exact absurd rfl hret
    | first grant hnull =>
      have hcap := h.empty hnull
      simp only [true_iff]
      omega
    | moved grant bytes hbytes hw hsmall hne hfits =>
      simp only
      omega

/-- A resize gives the length asked for unless it grows an array that is not full. -/
theorem resizeLaw_iff (hr : (machine fuel elemSize).Run tr s) (hsafe : ∀ e ∈ tr, Safe e.1 e.2)
    (hallowed : Allowed s (.resize newSize answer)) (hcsafe : Safe s (.resize newSize answer))
    (hcall : call fuel s (.resize newSize answer) = .ok (s', 0)) :
    ResizeLaw s' newSize ↔ newSize ≤ s.array.cap ∨ s.array.stored = s.array.cap := by
  have hrun := hr.next (step_eq_some.mpr ⟨hallowed, 0, hcall⟩)
  have hkept : Kept elemSize ((s, .resize newSize answer) :: tr) s' :=
    Kept.run hrun (by simpa using ⟨hcsafe, by simpa using hsafe⟩)
  exact hkept.resizeLaw.trans ((call_moves (Sane.run hr) hallowed hcall).resized (Sane.run hr))

theorem resizeLaw_grown : ResizeLaw grown 5 :=
  (resizeLaw_iff pairSet_run pairTrace_safe (by decide) pairSet_safe grown_eq).mpr (.inr rfl)

def emptied : State :=
  { heap := Function.update (created 1).heap 8 (some [0, 0, 0, 0])
    array := { elems := 8, elemSize := 1, stored := 0, cap := 4 } }

def emptiedTrace : List (State × Call) :=
  [({ emptied with array := { emptied.array with stored := 4 } }, .resize 0 none),
    (created 1, .realloc 4 (some (grantAt 8)))]

theorem emptied_run : (machine 64 1).Run emptiedTrace emptied :=
  .next (.next (.start ⟨rfl, rfl⟩) (step_eq_some.mpr ⟨by decide, 0, rfl⟩))
    (step_eq_some.mpr ⟨by decide, 0, rfl⟩)

theorem not_resizeLaw_emptied :
    (machine 64 1).Run emptiedTrace emptied ∧ (∀ e ∈ emptiedTrace, Safe e.1 e.2) ∧
      Allowed emptied (.resize 5 (some (grantAt 16))) ∧
      Safe emptied (.resize 5 (some (grantAt 16))) ∧
      ∃ s', call 64 emptied (.resize 5 (some (grantAt 16))) = .ok (s', 0) ∧ ¬ResizeLaw s' 5 := by
  refine ⟨emptied_run, by simp [emptiedTrace, Safe, created, emptied], by decide,
    fun _ _ => ⟨5, ⟨0, rfl, by decide, by simp⟩, by decide⟩, _, rfl, fun h => ?_⟩
  exact absurd h.1 (by decide)

end Length

end Dert.Varray
