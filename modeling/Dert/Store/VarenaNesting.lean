import Dert.Store.VarenaFrames

namespace Dert.Varena

open Library

variable {capacity numBytes : Nat} {s s' x : State} {later : List (State × Label)}

def Modest (s : State) : Label → Prop
  | .claim numBytes => numBytes ≤ s.arena.capacity
  | .alloc numBytes => numBytes ≤ s.arena.capacity ∧ s.frames ≠ []
  | _ => True

instance (s : State) (l : Label) : Decidable (Modest s l) :=
  l.casesOn (motive := fun l => Decidable (Modest s l))
    (fun _ => inferInstanceAs (Decidable (_ ≤ _))) (fun _ => inferInstanceAs (Decidable (_ ∧ _)))
    (inferInstanceAs (Decidable True)) (fun _ _ => inferInstanceAs (Decidable True))

section Bounds

theorem Stack.header_le {bytes : Nat → UInt8} {frames : List Frame} {top bottom : Nat}
    (h : Stack bytes frames top bottom) (hne : frames ≠ []) : sizeofVarenaFrame ≤ bottom := by
  cases h with
  | empty => exact absurd rfl hne
  | frame _ htop => exact Nat.le_of_add_left_le htop

theorem Stack.current {bytes : Nat → UInt8} {f : Frame} {fs : List Frame} {top bottom : Nat}
    (h : Stack bytes (f :: fs) top bottom) :
    f.claimed.stop = bottom ∧ f.claimed.start ≤ top ∧ top + sizeofVarenaFrame ≤ bottom := by
  cases h with
  | frame hstart htop => exact ⟨rfl, hstart, htop⟩

theorem step_capacity {l : Label} (hs : step s l = some s') :
    s'.arena.capacity = s.arena.capacity := by
  cases l with
  | claim numBytes =>
    obtain ⟨-, hs⟩ := Option.ite_none_right_eq_some.mp hs
    obtain ⟨⟨arena, code⟩, hclaim, rfl⟩ := Option.map_eq_some_iff.mp hs
    by_cases hcode : code = 0
    · subst hcode
      obtain ⟨-, -, -, rfl⟩ := claim_ok hclaim
      rfl
    · have hsame : arena = s.arena := claim_fails hclaim hcode
      exact congrArg Varena.capacity hsame
  | alloc numBytes =>
    obtain ⟨-, hs⟩ := Option.ite_none_right_eq_some.mp hs
    cases hs
    rw [Varena.alloc]
    rcases Nat.lt_or_ge (sizeT (s.arena.bottom + (sizeMax - sizeofVarenaFrame)))
      (sizeT (s.arena.top + numBytes)) with hfull | hfits
    · rw [alloc_fails hfull]
    · rw [alloc_ok hfits]
  | disclaim =>
    cases hs
    simp only [Varena.disclaim, varenaDisclaim]
    cases varenaFrameTop s.arena <;> rfl
  | write i value =>
    obtain ⟨-, hs⟩ := Option.ite_none_right_eq_some.mp hs
    cases hs
    rfl

/-- In an arena of less than half the addresses no sum of a call that returns wraps: one that
does leaves less than a header, and the frame is copied to NULL. -/
theorem bounded_of_modest (h : Inv s) (hcapacity : s.arena.capacity < 2 ^ 63) {l : Label}
    (hmodest : Modest s l) (hs : step s l = some s') : Bounded s l := by
  have hmax : sizeMax = 2 ^ 63 + 2 ^ 63 := rfl
  have hheader : sizeofVarenaFrame = 16 := rfl
  have hroom := h.room
  have htop := h.stack.top_le
  cases l with
  | claim numBytes =>
    intro hzero hfits
    obtain ⟨-, hs⟩ := Option.ite_none_right_eq_some.mp hs
    obtain ⟨⟨arena, code⟩, hclaim, -⟩ := Option.map_eq_some_iff.mp hs
    obtain rfl := claim_fits hzero hfits hclaim
    obtain ⟨-, -, hleast, -⟩ := claim_ok hclaim
    have hnum : numBytes ≤ s.arena.capacity := hmodest
    by_contra hwrap
    rw [sum_eq, Nat.mod_eq_sub_mod (Nat.not_lt.mp hwrap), Nat.mod_eq_of_lt (by omega)] at hleast
    omega
  | alloc numBytes =>
    obtain ⟨hnum, hframes⟩ := hmodest
    simp only [Bounded, frameTop_some (h.stack.header_le hframes), Option.isSome_some, if_true]
    omega
  | disclaim => trivial
  | write i value => trivial

theorem inv_run {tr : List (State × Label)} (hcapacity : capacity < 2 ^ 63)
    (hr : (machine capacity).Run tr s) (hmodest : ∀ p ∈ tr, Modest p.1 p.2) :
    Inv s ∧ s.arena.capacity = capacity := by
  refine hr.invariant (I := fun s => Inv s ∧ s.arena.capacity = capacity) (G := Modest) ?_ ?_
    hmodest
  · intro s hi
    refine ⟨inv_init hi, ?_⟩
    obtain ⟨arena, frames⟩ := s
    obtain ⟨-, hcreate, -⟩ := hi
    rw [varenaCreate] at hcreate
    split_ifs at hcreate
    rw [← Option.some.inj hcreate]
  · rintro s l s' ⟨h, hcap⟩ hm hs
    have hbounded := bounded_of_modest h (hcap ▸ hcapacity) hm hs
    exact ⟨inv_step h hbounded hs, (step_capacity hs).trans hcap⟩

end Bounds

section Inner

theorem Stack.above {bytes : Nat → UInt8} {pre fs : List Frame} {f g : Frame} {r : Extent}
    {top bottom : Nat} (h : Stack bytes (pre ++ f :: fs) top bottom) (hg : g ∈ pre ++ [f])
    (hr : r ∈ g.regions) : f.claimed.start ≤ r.start := by
  induction pre generalizing top bottom with
  | nil =>
    obtain rfl := List.mem_singleton.mp hg
    cases h with
    | frame _ _ hregions => exact (hregions r hr).1
  | cons e pre ih =>
    cases h with
    | frame hstart htop hregions hload hrest =>
      rcases List.mem_cons.mp hg with rfl | hg
      · have hstop := (hrest.under (List.mem_append_right pre List.mem_cons_self)).1
        have hle : f.claimed.start ≤ f.claimed.stop := Nat.le_add_right _ _
        exact hle.trans (hstop.trans (hregions r hr).1)
      · exact ih hrest hg

def Wrote (later : List (State × Label)) (i : Nat) : Prop :=
  ∃ p ∈ later, ∃ value, p.2 = .write i value

structure Inner (s : State) (numBytes : Nat) (later : List (State × Label)) (x : State) : Prop where
  inv : Inv x
  frames : ∃ pre f, x.frames = pre ++ f :: s.frames ∧
    f.claimed = ⟨s.arena.bottom, numBytes + sizeofVarenaFrame⟩
  saved : loadFrame x.arena.bytes (s.arena.bottom + numBytes) = ⟨s.arena.top, s.arena.bottom⟩
  outer : ∀ i < s.arena.bottom, x.arena.bytes i ≠ s.arena.bytes i →
    Wrote later i ∧ ∃ g ∈ s.frames, ∃ r ∈ g.regions, r.Has i

theorem inner_claim (h : Inv s) {arena : Varena} (hclaim : varenaClaim s.arena numBytes = some (arena, 0))
    (hsum : s.arena.bottom + (numBytes + sizeofVarenaFrame) < sizeMax)
    (hinv : Inv ⟨arena, claimed s arena :: s.frames⟩) :
    Inner s numBytes [] ⟨arena, claimed s arena :: s.frames⟩ := by
  obtain ⟨-, -, -, rfl⟩ := claim_ok hclaim
  have hbottom : sizeT (s.arena.bottom + sizeT (numBytes + sizeofVarenaFrame)) =
      s.arena.bottom + (numBytes + sizeofVarenaFrame) := by
    rw [sum_eq]
    exact Nat.mod_eq_of_lt hsum
  have hheader : s.arena.bottom + (numBytes + sizeofVarenaFrame) - sizeofVarenaFrame =
      s.arena.bottom + numBytes := by omega
  simp only [hbottom, hheader] at hinv ⊢
  refine ⟨hinv, ⟨[], _, rfl, ?_⟩, ?_, fun i hi hne => absurd ?_ hne⟩
  · simp only [claimed, Nat.add_sub_cancel_left]
  · exact loadFrame_storeFrame (Nat.lt_of_le_of_lt h.stack.top_le h.bottom_lt) h.bottom_lt
  · refine storeFrame_outside fun hin => ?_
    have hle : s.arena.bottom + numBytes ≤ i := hin.1
    omega

theorem Wrote.mono {p : State × Label} {i : Nat} (h : Wrote later i) : Wrote (p :: later) i := by
  obtain ⟨q, hq, hwrite⟩ := h
  exact ⟨q, List.mem_cons_of_mem p hq, hwrite⟩

namespace Inner

variable (h : Inner s numBytes later x)
include h

theorem stop_le : s.arena.bottom + (numBytes + sizeofVarenaFrame) ≤ x.arena.bottom := by
  obtain ⟨pre, f, hframes, hclaimed⟩ := h.frames
  have hstop := ((hframes ▸ h.inv.stack).under (List.mem_append_right pre List.mem_cons_self)).1
  rw [hclaimed] at hstop
  exact hstop

theorem keep {p : State × Label} {y : State} (hinv : Inv y) (hbytes : y.arena.bytes = x.arena.bytes)
    (hframes : ∃ pre f, y.frames = pre ++ f :: s.frames ∧
      f.claimed = ⟨s.arena.bottom, numBytes + sizeofVarenaFrame⟩) :
    Inner s numBytes (p :: later) y :=
  ⟨hinv, hframes, hbytes ▸ h.saved, fun i hi hne =>
    (h.outer i hi (hbytes ▸ hne)).imp_left Wrote.mono⟩

theorem claim {m : Nat} {y : State} (hbounded : Bounded x (.claim m))
    (hs : step x (.claim m) = some y) : Inner s numBytes ((x, .claim m) :: later) y := by
  have hinv := inv_step h.inv hbounded hs
  obtain ⟨-, hs⟩ := Option.ite_none_right_eq_some.mp hs
  obtain ⟨⟨arena, code⟩, hclaim, rfl⟩ := Option.map_eq_some_iff.mp hs
  by_cases hcode : code = 0
  · subst hcode
    obtain ⟨pre, f, hframes, hclaimed⟩ := h.frames
    have hstop := h.stop_le
    obtain ⟨hzero, hfits, -, harena⟩ := claim_ok hclaim
    -- the new header lies at the end of the new frame, behind the old bottom
    have hbelow {i : Nat} (hi : i < x.arena.bottom) : arena.bytes i = x.arena.bytes i := by
      rw [harena]
      refine storeFrame_outside fun hin => ?_
      have hle := hin.1
      rw [sum_eq, Nat.mod_eq_of_lt (hbounded hzero hfits)] at hle
      change x.arena.bottom + (m + sizeofVarenaFrame) - sizeofVarenaFrame ≤ i at hle
      omega
    refine ⟨hinv, ⟨claimed x arena :: pre, f, ?_, hclaimed⟩, ?_, fun i hi hne => ?_⟩
    · rw [if_pos rfl, hframes]
      rfl
    · refine (loadFrame_congr fun i hi => hbelow ?_).trans h.saved
      have hlt : i < s.arena.bottom + numBytes + sizeofVarenaFrame := hi.2
      omega
    · have hsame : arena.bytes i = x.arena.bytes i := hbelow (by omega)
      exact (h.outer i hi (hsame ▸ hne)).imp_left Wrote.mono
  · have hsame : arena = x.arena := claim_fails hclaim hcode
    refine h.keep hinv (congrArg Varena.bytes hsame) ?_
    simp only [if_neg hcode]
    exact h.frames

theorem alloc {m : Nat} {y : State} (hbounded : Bounded x (.alloc m))
    (hs : step x (.alloc m) = some y) : Inner s numBytes ((x, .alloc m) :: later) y := by
  have hinv := inv_step h.inv hbounded hs
  obtain ⟨hsize, hs⟩ := Option.ite_none_right_eq_some.mp hs
  obtain ⟨pre, f, hframes, hclaimed⟩ := h.frames
  cases hs
  rcases h.inv.alloc_cases hsize hbounded with halloc | ⟨-, -, halloc⟩
  · simp only [Varena.alloc, halloc, Option.elim_none] at hinv ⊢
    exact h.keep hinv rfl ⟨pre, f, hframes, hclaimed⟩
  · simp only [Varena.alloc, halloc, Option.elim_some, hframes] at hinv ⊢
    cases pre with
    | nil => exact h.keep hinv rfl ⟨[], _, rfl, hclaimed⟩
    | cons g pre => exact h.keep hinv rfl ⟨_ :: pre, f, rfl, hclaimed⟩

theorem disclaim {y : State} (hs : step x .disclaim = some y)
    (hdeep : s.frames.length < y.frames.length) : Inner s numBytes ((x, .disclaim) :: later) y := by
  have hinv : Inv y := inv_step h.inv (l := .disclaim) trivial hs
  obtain ⟨pre, f, hframes, hclaimed⟩ := h.frames
  cases hs
  have hbytes : (Varena.disclaim x).arena.bytes = x.arena.bytes := by
    simp only [Varena.disclaim, varenaDisclaim]
    cases varenaFrameTop x.arena <;> rfl
  refine h.keep hinv hbytes ?_
  simp only [Varena.disclaim] at hdeep ⊢
  split_ifs at hdeep ⊢
  · cases pre with
    | nil =>
      rw [hframes, List.nil_append, List.tail_cons] at hdeep
      exact absurd hdeep (Nat.lt_irrefl _)
    | cons g pre => exact ⟨pre, f, by rw [hframes]; rfl, hclaimed⟩
  · exact ⟨pre, f, hframes, hclaimed⟩

theorem write {i : Nat} {value : UInt8} {y : State} (hs : step x (.write i value) = some y) :
    Inner s numBytes ((x, .write i value) :: later) y := by
  have hinv : Inv y := inv_step h.inv (l := .write i value) trivial hs
  obtain ⟨⟨g, hg, r, hr, hi⟩, hs⟩ := Option.ite_none_right_eq_some.mp hs
  obtain ⟨pre, f, hframes, hclaimed⟩ := h.frames
  cases hs
  have hstack := hframes ▸ h.inv.stack
  refine ⟨hinv, ⟨pre, f, hframes, hclaimed⟩, ?_, fun j hj hne => ?_⟩
  · refine (loadFrame_congr fun j hj => Function.update_of_ne ?_ _ _).trans h.saved
    rintro rfl
    have hheader : f.header = ⟨s.arena.bottom + numBytes, sizeofVarenaFrame⟩ := by
      rw [Frame.header, hclaimed]
      simp only [Extent.stop]
      congr 1
    have hapart := h.inv.stack.region_apart_header hg hr
      (g := f) (hframes ▸ List.mem_append_right pre List.mem_cons_self)
    rw [hheader] at hapart
    exact hapart.not_has hi hj
  · by_cases hji : j = i
    · subst hji
      refine ⟨⟨_, List.mem_cons_self, value, rfl⟩, g, ?_, r, hr, hi⟩
      rw [hframes, List.append_cons, List.mem_append] at hg
      refine hg.resolve_left fun hinner => ?_
      have hstart := hstack.above hinner hr
      rw [hclaimed] at hstart
      exact Nat.not_lt.mpr (hstart.trans hi.1) hj
    · have hsame : Function.update x.arena.bytes i value j = x.arena.bytes j :=
        Function.update_of_ne hji _ _
      exact (h.outer j hj (hsame ▸ hne)).imp_left Wrote.mono

end Inner

theorem inner_run (hcapacity : capacity < 2 ^ 63) (h : Inv s) (hcap : s.arena.capacity = capacity)
    (hmodest : Modest s (.claim numBytes)) {arena : Varena}
    (hclaim : varenaClaim s.arena numBytes = some (arena, 0))
    (hs : step s (.claim numBytes) = some ⟨arena, claimed s arena :: s.frames⟩)
    (hlater : ((machine capacity).after ⟨arena, claimed s arena :: s.frames⟩).Run later x)
    (hmodest' : ∀ p ∈ later, Modest p.1 p.2)
    (hdeep : ∀ p ∈ later, s.frames.length < p.1.frames.length)
    (hback : s.frames.length < x.frames.length) :
    Inner s numBytes later x ∧ x.arena.capacity = capacity := by
  induction hlater with
  | start hx =>
    cases hx
    have hbounded := bounded_of_modest h (hcap ▸ hcapacity) hmodest hs
    obtain ⟨hzero, hfits, -⟩ := claim_ok hclaim
    exact ⟨inner_claim h hclaim (hbounded hzero hfits) (inv_step h hbounded hs),
      (step_capacity hs).trans hcap⟩
  | @next tr y l y' _ hy ih =>
    obtain ⟨hmodestY, hmodest'⟩ := List.forall_mem_cons.mp hmodest'
    obtain ⟨hdeepY, hdeep⟩ := List.forall_mem_cons.mp hdeep
    obtain ⟨hinner, hcapY⟩ := ih hmodest' hdeep hdeepY
    have hbounded := bounded_of_modest hinner.inv (hcapY ▸ hcapacity) hmodestY hy
    refine ⟨?_, (step_capacity hy).trans hcapY⟩
    cases l with
    | claim m => exact hinner.claim hbounded hy
    | alloc m => exact hinner.alloc hbounded hy
    | disclaim => exact hinner.disclaim hy hback
    | write i value => exact hinner.write hy

end Inner

/-- While a claimed frame is still there, what is used of it and what is not add up to what was
claimed; and once the frames claimed after it are given up again, to give it up restores the
arena as it was before the claim, but for what was written to regions of the frames below. -/
theorem frames_nest (hcapacity : capacity < 2 ^ 63) {tr : List (State × Label)}
    (hr : (machine capacity).Run tr s) (hmodest : ∀ p ∈ tr, Modest p.1 p.2)
    (hsize : numBytes ≤ capacity) {arena : Varena}
    (hclaim : varenaClaim s.arena numBytes = some (arena, 0))
    (hlater : ((machine capacity).after ⟨arena, claimed s arena :: s.frames⟩).Run later x)
    (hmodest' : ∀ p ∈ later, Modest p.1 p.2)
    (hdeep : ∀ p ∈ later, s.frames.length < p.1.frames.length)
    (hback : x.frames.length = s.frames.length + 1) :
    (∃ used, varenaFrameUsed x.arena = some used ∧ used + varenaFrameUnused x.arena = numBytes) ∧
      (disclaim x).arena.top = s.arena.top ∧ (disclaim x).arena.bottom = s.arena.bottom ∧
      (disclaim x).frames = s.frames ∧
      ∀ i < s.arena.bottom, (disclaim x).arena.bytes i ≠ s.arena.bytes i →
        Wrote later i ∧ ∃ f ∈ s.frames, ∃ r ∈ f.regions, r.Has i := by
  obtain ⟨hinv, hcap⟩ := inv_run hcapacity hr hmodest
  have hmodest₀ : Modest s (.claim numBytes) := by
    change numBytes ≤ s.arena.capacity
    rwa [hcap]
  have hstep : step s (.claim numBytes) = some ⟨arena, claimed s arena :: s.frames⟩ := by
    have hlt : numBytes < sizeMax := Nat.lt_of_le_of_lt (hcap ▸ hsize) hinv.size
    simp [step, hlt, Varena.claim, hclaim]
  obtain ⟨hinner, -⟩ := inner_run hcapacity hinv hcap hmodest₀ hclaim hstep hlater hmodest' hdeep
    (by omega)
  obtain ⟨pre, f, hframes, hclaimed⟩ := hinner.frames
  obtain rfl : pre = [] := by
    rw [hframes, List.length_append, List.length_cons] at hback
    exact List.length_eq_zero_iff.mp (by omega)
  have hstack := hframes ▸ hinner.inv.stack
  obtain ⟨hstop, hstart, htop⟩ := hstack.current
  rw [hclaimed] at hstop hstart
  change s.arena.bottom + (numBytes + sizeofVarenaFrame) = x.arena.bottom at hstop
  have hlong : sizeofVarenaFrame ≤ x.arena.bottom := Nat.le_of_add_left_le htop
  have hheader : x.arena.bottom - sizeofVarenaFrame = s.arena.bottom + numBytes := by omega
  have hframeTop : varenaFrameTop x.arena = some (s.arena.bottom + numBytes) := by
    rw [frameTop_some hlong, hheader]
  have hdisclaim : varenaDisclaim x.arena =
      ({ x.arena with top := s.arena.top, bottom := s.arena.bottom }, 0) := by
    simp only [varenaDisclaim, hframeTop, hinner.saved]
  have hlt := hinner.inv.bottom_lt
  have hsub := hinner.inv.header_sub hlong
  simp only [disclaim, hdisclaim, if_true, hframes]
  refine ⟨⟨x.arena.top - s.arena.bottom, ?_, ?_⟩, trivial, trivial, rfl, hinner.outer⟩
  · rw [varenaFrameUsed, hframeTop, Option.map_some, hinner.saved]
    exact congrArg some (sizeT_sub hstart (by omega))
  · rw [varenaFrameUnused, hsub, sizeT_sub (by omega) (by omega)]
    change s.arena.bottom ≤ x.arena.top at hstart
    omega

theorem frames_nest_twice :
    ∃ tr s arena later x, (machine 128).Run tr s ∧ s.frames ≠ [] ∧
      varenaClaim s.arena 8 = some (arena, 0) ∧
      ((machine 128).after ⟨arena, claimed s arena :: s.frames⟩).Run later x ∧ later.length = 4 ∧
      (∃ used, varenaFrameUsed x.arena = some used ∧ used + varenaFrameUnused x.arena = 8) ∧
      (disclaim x).arena.top = s.arena.top ∧ (disclaim x).arena.bottom = s.arena.bottom ∧
      (disclaim x).frames = s.frames ∧
      ∀ i < s.arena.bottom, (disclaim x).arena.bytes i ≠ s.arena.bytes i →
        Wrote later i ∧ ∃ f ∈ s.frames, ∃ r ∈ f.regions, r.Has i := by
  obtain ⟨tr, s, hr, hs⟩ := Machine.exists_run_of_record (machine 128)
    ⟨⟨fun _ => 0, 0, 0, 128⟩, []⟩ [.claim 8, .alloc 4]
    (fun tr s => (s.frames ≠ [] ∧ ∀ p ∈ tr, Modest p.1 p.2) ∧
      (varenaClaim s.arena 8).any fun answer => answer.2 = 0 ∧
        (((machine 128).after ⟨answer.1, claimed s answer.1 :: s.frames⟩).record []
          ⟨answer.1, claimed s answer.1 :: s.frames⟩
          [.alloc 8, .claim 2, .write 3 7, .disclaim]).any fun r =>
            (∀ p ∈ r.1, Modest p.1 p.2) ∧ (∀ p ∈ r.1, s.frames.length < p.1.frames.length) ∧
              r.2.frames.length = s.frames.length + 1 ∧ r.1.length = 4)
    ⟨by decide, rfl, rfl⟩ (by decide)
  simp only [decide_eq_true_eq, Option.any_eq_true] at hs
  obtain ⟨⟨hne, hmodest⟩, ⟨arena, code⟩, hclaim, rfl, hlater⟩ := hs
  obtain ⟨⟨later, x⟩, hrecord, hmodest', hdeep, hback, hlength⟩ := hlater
  have hrun := (Machine.Run.start (M := (machine 128).after ⟨arena, claimed s arena :: s.frames⟩)
    rfl).record hrecord
  exact ⟨tr, s, arena, later, x, hr, hne, hclaim, hrun, hlength,
    frames_nest (by decide) hr hmodest (by decide) hclaim hrun hmodest' hdeep hback⟩

end Dert.Varena
