import Dert.Store.Varena

namespace Dert.Varena

open Library

variable {bytes bytes' : Nat → UInt8} {arena arena' : Varena} {numBytes offset top bottom i : Nat}
  {saved : VarenaFrame}

section Memory

theorem loadFrame_storeFrame (htop : saved.top < sizeMax) (hbottom : saved.bottom < sizeMax) :
    loadFrame (storeFrame bytes offset saved) offset = saved := by
  have hfirst : loadPointer (storeFrame bytes offset saved) offset =
      loadPointer (storePointer bytes offset saved.top) offset := by
    refine loadPointer_congr fun i hi => storePointer_outside fun hin => ?_
    exact Nat.not_lt.mpr hin.1 (Nat.add_lt_add_left hi offset)
  rw [loadFrame, hfirst, loadPointer_storePointer htop, storeFrame,
    loadPointer_storePointer hbottom]

theorem storeFrame_outside (h : ¬ Extent.Has ⟨offset, sizeofVarenaFrame⟩ i) :
    storeFrame bytes offset saved i = bytes i := by
  have hsize : sizeofVarenaFrame = sizeofPointer + sizeofPointer := rfl
  simp only [Extent.Has, Extent.stop, hsize, not_and] at h
  rw [storeFrame, storePointer_outside, storePointer_outside]
  · simp only [Extent.Has, Extent.stop]
    omega
  · simp only [Extent.Has, Extent.stop]
    omega

theorem loadFrame_congr
    (h : ∀ i, Extent.Has ⟨offset, sizeofVarenaFrame⟩ i → bytes' i = bytes i) :
    loadFrame bytes' offset = loadFrame bytes offset := by
  have hsize : sizeofVarenaFrame = sizeofPointer + sizeofPointer := rfl
  simp only [Extent.Has, Extent.stop, hsize] at h
  have htop : loadPointer bytes' offset = loadPointer bytes offset :=
    loadPointer_congr fun i hi => h _ (by omega)
  have hbottom : loadPointer bytes' (offset + sizeofPointer) =
      loadPointer bytes (offset + sizeofPointer) := loadPointer_congr fun i hi => h _ (by omega)
  rw [loadFrame, loadFrame, htop, hbottom]

end Memory

section Calls

theorem frameTop_none (h : arena.bottom < sizeofVarenaFrame) : varenaFrameTop arena = none :=
  if_pos h

theorem frameTop_some (h : sizeofVarenaFrame ≤ arena.bottom) :
    varenaFrameTop arena = some (arena.bottom - sizeofVarenaFrame) := if_neg (Nat.not_lt.mpr h)

theorem claim_ok (h : varenaClaim arena numBytes = some (arena', 0)) :
    numBytes ≠ 0 ∧ sizeT (arena.bottom + sizeT (numBytes + sizeofVarenaFrame)) ≤ arena.capacity ∧
      sizeofVarenaFrame ≤ sizeT (arena.bottom + sizeT (numBytes + sizeofVarenaFrame)) ∧
      arena' =
        { arena with
          bytes := storeFrame arena.bytes
            (sizeT (arena.bottom + sizeT (numBytes + sizeofVarenaFrame)) - sizeofVarenaFrame)
            ⟨arena.top, arena.bottom⟩
          top := arena.bottom
          bottom := sizeT (arena.bottom + sizeT (numBytes + sizeofVarenaFrame)) } := by
  simp only [varenaClaim] at h
  split_ifs at h with hzero hfull
  · simp at h
  · simp at h
  · obtain ⟨dest, hdest, h⟩ := Option.map_eq_some_iff.mp h
    rw [varenaFrameTop] at hdest
    split_ifs at hdest with hshort
    simp only [Prod.mk.injEq, and_true] at h
    exact ⟨hzero, Nat.not_lt.mp hfull, Nat.not_lt.mp hshort, by rw [← h, ← Option.some.inj hdest]⟩

theorem claim_fits {code : Nat} (hzero : numBytes ≠ 0)
    (hfits : sizeT (arena.bottom + sizeT (numBytes + sizeofVarenaFrame)) ≤ arena.capacity)
    (h : varenaClaim arena numBytes = some (arena', code)) : code = 0 := by
  simp only [varenaClaim, if_neg hzero, if_neg (Nat.not_lt.mpr hfits)] at h
  obtain ⟨dest, hdest, hpair⟩ := Option.map_eq_some_iff.mp h
  exact (Prod.mk.inj hpair).2.symm

theorem claim_fails {code : Nat} (h : varenaClaim arena numBytes = some (arena', code))
    (hcode : code ≠ 0) : arena' = arena := by
  simp only [varenaClaim] at h
  split_ifs at h
  · simp only [Option.some.injEq, Prod.mk.injEq] at h
    exact h.1.symm
  · simp only [Option.some.injEq, Prod.mk.injEq] at h
    exact h.1.symm
  · obtain ⟨dest, hdest, hpair⟩ := Option.map_eq_some_iff.mp h
    exact absurd (Prod.mk.inj hpair).2.symm hcode

theorem alloc_ok (h : sizeT (arena.top + numBytes) ≤
      sizeT (arena.bottom + (sizeMax - sizeofVarenaFrame))) :
    varenaAlloc arena numBytes =
      ({ arena with top := sizeT (arena.top + numBytes) }, some arena.top) :=
  if_neg (Nat.not_lt.mpr h)

theorem alloc_fails (h : sizeT (arena.bottom + (sizeMax - sizeofVarenaFrame)) <
      sizeT (arena.top + numBytes)) :
    varenaAlloc arena numBytes = (arena, none) := if_pos h

end Calls

section Stack

/-- The bytes of one claim, and the regions that were allocated from it, newest first. -/
structure Frame where
  claimed : Extent
  regions : List Extent
  deriving DecidableEq

def Frame.header (f : Frame) : Extent := ⟨f.claimed.stop - sizeofVarenaFrame, sizeofVarenaFrame⟩

/-- The frames still claimed, newest first, as the headers between them save them. -/
inductive Stack (bytes : Nat → UInt8) : List Frame → Nat → Nat → Prop
  | empty : Stack bytes [] 0 0
  | frame {f fs top saved} : f.claimed.start ≤ top → top + sizeofVarenaFrame ≤ f.claimed.stop →
      (∀ r ∈ f.regions, f.claimed.start ≤ r.start ∧ r.stop ≤ top) →
      loadFrame bytes (f.claimed.stop - sizeofVarenaFrame) = ⟨saved, f.claimed.start⟩ →
      Stack bytes fs saved f.claimed.start → Stack bytes (f :: fs) top f.claimed.stop

variable {frames : List Frame} {f g : Frame} {r : Extent}

namespace Stack

theorem nil_eq (h : Stack bytes [] top bottom) : top = 0 ∧ bottom = 0 := by
  cases h
  exact ⟨rfl, rfl⟩

theorem frames_nil (h : Stack bytes frames top bottom) (hshort : bottom < sizeofVarenaFrame) :
    frames = [] := by
  cases h with
  | empty => rfl
  | frame _ htop => omega

theorem under (h : Stack bytes frames top bottom) (hg : g ∈ frames) :
    g.claimed.stop ≤ bottom ∧ g.header.stop ≤ bottom ∧ ∀ r ∈ g.regions, r.stop ≤ bottom := by
  induction h with
  | empty => cases hg
  | @frame f fs top saved hstart htop hregions _ _ ih =>
    rcases List.mem_cons.mp hg with rfl | hg
    · refine ⟨Nat.le_refl _, ?_, fun r hr => ?_⟩
      · simp only [Frame.header, Extent.stop] at *
        omega
      · have hr := (hregions r hr).2
        omega
    · obtain ⟨hclaimed, hheader, hbelow⟩ := ih hg
      refine ⟨by omega, by omega, fun r hr => ?_⟩
      have hr := hbelow r hr
      omega

theorem region_apart_header (h : Stack bytes frames top bottom) (hf : f ∈ frames)
    (hr : r ∈ f.regions) (hg : g ∈ frames) : r.Apart g.header := by
  induction h with
  | empty => cases hf
  | @frame e fs top saved hstart htop hregions _ hrest ih =>
    rcases List.mem_cons.mp hf with rfl | hf'
    · rcases List.mem_cons.mp hg with rfl | hg'
      · have hstop := (hregions r hr).2
        exact Or.inl (Nat.le_sub_of_add_le (Nat.le_trans (Nat.add_le_add_right hstop _) htop))
      · have hheader := (hrest.under hg').2.1
        exact Or.inr (Nat.le_trans hheader (hregions r hr).1)
    · rcases List.mem_cons.mp hg with rfl | hg'
      · have hstop := (hrest.under hf').2.2 r hr
        refine Or.inl (Nat.le_sub_of_add_le ?_)
        omega
      · exact ih hf' hg'

theorem congr (h : Stack bytes frames top bottom)
    (hsame : ∀ g ∈ frames, ∀ i, g.header.Has i → bytes' i = bytes i) :
    Stack bytes' frames top bottom := by
  induction h with
  | empty => exact .empty
  | @frame f fs top saved hstart htop hregions hload _ ih =>
    refine .frame hstart htop hregions ?_ (ih fun g hg => hsame g (List.mem_cons_of_mem f hg))
    rw [loadFrame_congr (hsame f List.mem_cons_self), hload]

theorem exists_frame (h : Stack bytes frames top bottom) (hframe : sizeofVarenaFrame ≤ bottom) :
    ∃ f fs, frames = f :: fs ∧ f.claimed.stop = bottom ∧ f.claimed.start ≤ top ∧
      top + sizeofVarenaFrame ≤ bottom := by
  cases h with
  | empty => exact absurd hframe (by decide)
  | @frame f fs _ _ hstart htop => exact ⟨f, fs, rfl, rfl, hstart, htop⟩

theorem pop (h : Stack bytes (f :: frames) top bottom) :
    ∃ saved, loadFrame bytes (bottom - sizeofVarenaFrame) = ⟨saved, f.claimed.start⟩ ∧
      Stack bytes frames saved f.claimed.start := by
  cases h with
  | frame _ _ _ hload hrest => exact ⟨_, hload, hrest⟩

theorem region_le_top (h : Stack bytes frames top bottom) (hg : g ∈ frames) (hr : r ∈ g.regions) :
    r.stop ≤ top := by
  cases h with
  | empty => cases hg
  | frame hstart _ hregions _ hrest =>
    rcases List.mem_cons.mp hg with rfl | hg
    · exact (hregions r hr).2
    · exact Nat.le_trans ((hrest.under hg).2.2 r hr) hstart

theorem top_le (h : Stack bytes frames top bottom) : top ≤ bottom := by
  cases h with
  | empty => exact Nat.le_refl 0
  | frame _ htop => exact Nat.le_of_add_right_le htop

theorem push (h : Stack bytes frames top bottom) (hbottom : bottom < sizeMax) (numBytes : Nat) :
    Stack (storeFrame bytes (bottom + numBytes) ⟨top, bottom⟩)
      (⟨⟨bottom, numBytes + sizeofVarenaFrame⟩, []⟩ :: frames) bottom
      (bottom + (numBytes + sizeofVarenaFrame)) := by
  have hheader : bottom + (numBytes + sizeofVarenaFrame) - sizeofVarenaFrame = bottom + numBytes := by
    omega
  refine .frame (f := ⟨⟨bottom, numBytes + sizeofVarenaFrame⟩, []⟩) (Nat.le_refl _)
    ?_ nofun ?_ (h.congr fun g hg i hi => storeFrame_outside fun hin => ?_)
  · simp only [Extent.stop]
    omega
  · simp only [Extent.stop, hheader]
    exact loadFrame_storeFrame (Nat.lt_of_le_of_lt h.top_le hbottom) hbottom
  · have hstop := (h.under hg).2.1
    have hlt : i < g.header.stop := hi.2
    have hle : bottom + numBytes ≤ i := hin.1
    omega

theorem allot (h : Stack bytes (f :: frames) top bottom) (hroom : r.stop + sizeofVarenaFrame ≤ bottom)
    (hstart : r.start = top) :
    Stack bytes ({ f with regions := r :: f.regions } :: frames) r.stop bottom := by
  cases h with
  | @frame _ _ _ saved hclaimed htop hregions hload hrest =>
    have hgrows : top ≤ r.stop := by
      rw [← hstart]
      exact Nat.le_add_right _ _
    refine .frame (f := { f with regions := r :: f.regions }) (Nat.le_trans hclaimed hgrows) hroom
      (fun r' hr => ?_) hload hrest
    rcases List.mem_cons.mp hr with rfl | hr
    · exact ⟨by rw [hstart]; exact hclaimed, Nat.le_refl _⟩
    · exact (hregions r' hr).imp_right fun hstop => Nat.le_trans hstop hgrows

end Stack

end Stack

end Dert.Varena
