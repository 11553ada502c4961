import Dert.Library.Machine
import Dert.Store.VarenaLaws

namespace Dert.Varena

open Library

structure State where
  arena : Varena
  frames : List Frame

inductive Label
  | claim (numBytes : Nat)
  | alloc (numBytes : Nat)
  | disclaim
  | write (i : Nat) (value : UInt8)

def claimed (s : State) (arena : Varena) : Frame :=
  ⟨⟨s.arena.bottom, arena.bottom - s.arena.bottom⟩, []⟩

def allotted (r : Extent) : List Frame → List Frame
  | [] => []
  | f :: frames => { f with regions := r :: f.regions } :: frames

def claim (s : State) (numBytes : Nat) : Option State :=
  (varenaClaim s.arena numBytes).map fun answer =>
    { arena := answer.1
      frames := if answer.2 = 0 then claimed s answer.1 :: s.frames else s.frames }

def alloc (s : State) (numBytes : Nat) : State :=
  let answer := varenaAlloc s.arena numBytes
  { arena := answer.1
    frames := answer.2.elim s.frames fun offset => allotted ⟨offset, numBytes⟩ s.frames }

def disclaim (s : State) : State :=
  let answer := varenaDisclaim s.arena
  { arena := answer.1, frames := if answer.2 = 0 then s.frames.tail else s.frames }

def write (s : State) (i : Nat) (value : UInt8) : State :=
  { s with arena := { s.arena with bytes := Function.update s.arena.bytes i value } }

def step (s : State) : Label → Option State
  | .claim numBytes => if numBytes < sizeMax then claim s numBytes else none
  | .alloc numBytes => if numBytes < sizeMax then some (alloc s numBytes) else none
  | .disclaim => some (disclaim s)
  | .write i value =>
    if ∃ f ∈ s.frames, ∃ r ∈ f.regions, r.Has i then some (write s i value) else none

def machine (capacity : Nat) : Machine State Label where
  init s := capacity < sizeMax ∧ varenaCreate true true capacity = some s.arena ∧ s.frames = []
  step := step

structure Placed (s : State) (r : Extent) : Prop where
  current : ∃ f, s.frames.head? = some f ∧ r.Within f.claimed
  inside : r.Within ⟨0, s.arena.capacity⟩
  regions : ∀ f ∈ s.frames, ∀ r' ∈ f.regions, r.Apart r'
  headers : ∀ f ∈ s.frames, r.Apart f.header

def Lawful (s : State) : Label → Prop
  | .claim numBytes => ∀ arena, varenaClaim s.arena numBytes = some (arena, 0) →
    arena.bottom ≤ arena.capacity ∧
      Extent.Within ⟨arena.bottom - sizeofVarenaFrame, sizeofVarenaFrame⟩ (claimed s arena).claimed
  | .alloc numBytes => ∀ offset, (varenaAlloc s.arena numBytes).2 = some offset →
    Placed s ⟨offset, numBytes⟩
  | _ => True

/-- The sums of the bounds tests do not wrap where the tests pass: a claim that fits after the
wrap fits before it, an allocation is made in a frame, and one made in no frame is of more
bytes than any arena but the header has. -/
def Bounded (s : State) : Label → Prop
  | .claim numBytes => numBytes ≠ 0 →
    sizeT (s.arena.bottom + sizeT (numBytes + sizeofVarenaFrame)) ≤ s.arena.capacity →
      s.arena.bottom + (numBytes + sizeofVarenaFrame) < sizeMax
  | .alloc numBytes =>
    if (varenaFrameTop s.arena).isSome then s.arena.top + numBytes < sizeMax
    else sizeMax - sizeofVarenaFrame < numBytes
  | _ => True

instance (s : State) (l : Label) : Decidable (Bounded s l) := by
  cases l with
  | claim numBytes => exact inferInstanceAs (Decidable (_ → _ → _))
  | alloc numBytes => exact inferInstanceAs (Decidable (ite _ _ _))
  | disclaim => exact inferInstanceAs (Decidable True)
  | write i value => exact inferInstanceAs (Decidable True)

structure Inv (s : State) : Prop where
  size : s.arena.capacity < sizeMax
  room : s.arena.bottom ≤ s.arena.capacity
  stack : Stack s.arena.bytes s.frames s.arena.top s.arena.bottom

variable {capacity numBytes : Nat} {s s' : State} {arena : Varena}

theorem inv_init (hi : (machine capacity).init s) : Inv s := by
  obtain ⟨arena, frames⟩ := s
  obtain ⟨hsize, hcreate, hframes⟩ := hi
  rw [varenaCreate] at hcreate
  split_ifs at hcreate with hzero
  obtain rfl := Option.some.inj hcreate
  subst hframes
  exact ⟨hsize, Nat.zero_le _, .empty⟩

theorem sum_eq (bottom numBytes : Nat) :
    sizeT (bottom + sizeT (numBytes + sizeofVarenaFrame)) =
      (bottom + (numBytes + sizeofVarenaFrame)) % sizeMax := by
  rw [sizeT, sizeT, Nat.add_mod_mod]

namespace Inv

variable (h : Inv s)
include h

theorem bottom_lt : s.arena.bottom < sizeMax := Nat.lt_of_le_of_lt h.room h.size

theorem claim (hbounded : Bounded s (.claim numBytes)) (hs : Varena.claim s numBytes = some s') :
    Inv s' := by
  obtain ⟨⟨arena, code⟩, hclaim, rfl⟩ := Option.map_eq_some_iff.mp hs
  by_cases hcode : code = 0
  · subst hcode
    obtain ⟨hzero, hfits, -, rfl⟩ := claim_ok hclaim
    have hsum : sizeT (s.arena.bottom + sizeT (numBytes + sizeofVarenaFrame)) =
        s.arena.bottom + (numBytes + sizeofVarenaFrame) := by
      rw [sum_eq]
      exact Nat.mod_eq_of_lt (hbounded hzero hfits)
    rw [hsum] at hfits
    have hpush := h.stack.push h.bottom_lt numBytes
    refine ⟨h.size, ?_, ?_⟩
    · simpa only [hsum] using hfits
    · have hheader : s.arena.bottom + (numBytes + sizeofVarenaFrame) - sizeofVarenaFrame =
          s.arena.bottom + numBytes := by omega
      simp only [hsum, hheader, claimed, Nat.add_sub_cancel_left, if_true]
      exact hpush
  · have hsame : arena = s.arena := claim_fails hclaim hcode
    simp only [hsame, if_neg hcode]
    exact h

theorem claim_lawful_iff (hsize : numBytes < sizeMax) (hs : Varena.claim s numBytes = some s') :
    Lawful s (.claim numBytes) ↔ Bounded s (.claim numBytes) := by
  constructor
  · intro hlaw hzero hfits
    obtain ⟨⟨arena, code⟩, hclaim, -⟩ := Option.map_eq_some_iff.mp hs
    obtain rfl := claim_fits hzero hfits hclaim
    obtain ⟨-, hstart, -⟩ := hlaw arena hclaim
    obtain ⟨-, -, hleast, rfl⟩ := claim_ok hclaim
    simp only [claimed] at hstart
    rw [sum_eq] at hstart hleast
    by_contra hwrap
    have hbottom := h.bottom_lt
    have hframe : sizeofVarenaFrame = 16 := rfl
    have hmod := Nat.mod_le (s.arena.bottom + (numBytes + sizeofVarenaFrame) - sizeMax) sizeMax
    rw [← Nat.mod_eq_sub_mod (Nat.not_lt.mp hwrap)] at hmod
    omega
  · intro hbounded arena hclaim
    obtain ⟨hzero, hfits, -, rfl⟩ := claim_ok hclaim
    have hsum := sum_eq s.arena.bottom numBytes
    rw [Nat.mod_eq_of_lt (hbounded hzero hfits)] at hsum
    rw [hsum] at hfits
    simp only [hsum]
    refine ⟨hfits, ?_⟩
    simp only [claimed, Extent.Within, Extent.stop]
    omega

theorem placed (hframe : sizeofVarenaFrame ≤ s.arena.bottom)
    (hroom : s.arena.top + numBytes + sizeofVarenaFrame ≤ s.arena.bottom) :
    Placed s ⟨s.arena.top, numBytes⟩ := by
  obtain ⟨f, fs, hframes, hstop, hstart, -⟩ := h.stack.exists_frame hframe
  refine ⟨⟨f, by rw [hframes]; rfl, hstart, ?_⟩, ⟨Nat.zero_le _, ?_⟩, fun g hg r hr => ?_,
    fun g hg => ?_⟩
  · rw [hstop]
    exact Nat.le_of_add_right_le hroom
  · have hcapacity := h.room
    simp only [Extent.stop]
    omega
  · exact Or.inr (h.stack.region_le_top hg hr)
  · rw [hframes] at hg
    have hallot := (hframes ▸ h.stack).allot (r := ⟨s.arena.top, numBytes⟩) hroom rfl
    have hmem : (⟨s.arena.top, numBytes⟩ : Extent) ∈ ⟨s.arena.top, numBytes⟩ :: f.regions :=
      List.mem_cons_self
    rcases List.mem_cons.mp hg with rfl | hg
    · exact hallot.region_apart_header (g := ⟨g.claimed, _ :: g.regions⟩) List.mem_cons_self hmem
        List.mem_cons_self
    · exact hallot.region_apart_header List.mem_cons_self hmem (List.mem_cons_of_mem _ hg)

theorem header_sub (hlong : sizeofVarenaFrame ≤ s.arena.bottom) :
    sizeT (s.arena.bottom + (sizeMax - sizeofVarenaFrame)) = s.arena.bottom - sizeofVarenaFrame :=
  sizeT_sub hlong h.bottom_lt

theorem short_sums (hshort : s.arena.bottom < sizeofVarenaFrame) (hsize : numBytes < sizeMax) :
    sizeT (s.arena.top + numBytes) = numBytes ∧
      sizeT (s.arena.bottom + (sizeMax - sizeofVarenaFrame)) = sizeMax - sizeofVarenaFrame := by
  have hheader : sizeofVarenaFrame < sizeMax := by decide
  obtain ⟨htop, hbottom⟩ := (h.stack.frames_nil hshort ▸ h.stack).nil_eq
  rw [htop, hbottom, Nat.zero_add, Nat.zero_add]
  exact ⟨sizeT_of_lt hsize, sizeT_of_lt (by omega)⟩

theorem alloc_cases (hsize : numBytes < sizeMax) (hbounded : Bounded s (.alloc numBytes)) :
    varenaAlloc s.arena numBytes = (s.arena, none) ∨
      sizeofVarenaFrame ≤ s.arena.bottom ∧
        s.arena.top + numBytes + sizeofVarenaFrame ≤ s.arena.bottom ∧
        varenaAlloc s.arena numBytes =
          ({ s.arena with top := s.arena.top + numBytes }, some s.arena.top) := by
  rcases Nat.lt_or_ge (sizeT (s.arena.bottom + (sizeMax - sizeofVarenaFrame)))
    (sizeT (s.arena.top + numBytes)) with hfull | hfits
  · exact Or.inl (alloc_fails hfull)
  · rcases Nat.lt_or_ge s.arena.bottom sizeofVarenaFrame with hshort | hlong
    · obtain ⟨hsum, hsub⟩ := h.short_sums hshort hsize
      simp only [Bounded, frameTop_none hshort, Option.isSome_none, Bool.false_eq_true,
        if_false] at hbounded
      omega
    · simp only [Bounded, frameTop_some hlong, Option.isSome_some, if_true] at hbounded
      have hsum := sizeT_of_lt hbounded
      have halloc := alloc_ok hfits
      rw [hsum] at halloc hfits
      rw [h.header_sub hlong] at hfits
      exact Or.inr ⟨hlong, Nat.add_le_of_le_sub hlong hfits, halloc⟩

theorem alloc_lawful_iff (hsize : numBytes < sizeMax) :
    Lawful s (.alloc numBytes) ↔ Bounded s (.alloc numBytes) := by
  constructor
  · intro hlaw
    rcases Nat.lt_or_ge s.arena.bottom sizeofVarenaFrame with hshort | hlong
    · obtain ⟨hsum, hsub⟩ := h.short_sums hshort hsize
      simp only [Bounded, frameTop_none hshort, Option.isSome_none, Bool.false_eq_true, if_false]
      by_contra hle
      have halloc := alloc_ok (by rw [hsum, hsub]; exact Nat.not_lt.mp hle)
      obtain ⟨f, hf, -⟩ := (hlaw _ (by rw [halloc])).current
      rw [h.stack.frames_nil hshort] at hf
      cases hf
    · simp only [Bounded, frameTop_some hlong, Option.isSome_some, if_true]
      by_contra hwrap
      obtain ⟨-, -, -, -, -, htop⟩ := h.stack.exists_frame hlong
      have hmod := Nat.mod_le (s.arena.top + numBytes - sizeMax) sizeMax
      rw [← Nat.mod_eq_sub_mod (Nat.not_lt.mp hwrap)] at hmod
      have hfits : sizeT (s.arena.top + numBytes) ≤
          sizeT (s.arena.bottom + (sizeMax - sizeofVarenaFrame)) := by
        rw [h.header_sub hlong, sizeT]
        omega
      have halloc := alloc_ok hfits
      obtain ⟨-, hinside⟩ := (hlaw _ (by rw [halloc])).inside
      have hcapacity := h.size
      simp only [Extent.stop] at hinside
      omega
  · intro hbounded offset hoffset
    rcases h.alloc_cases hsize hbounded with halloc | ⟨hlong, hroom, halloc⟩
    · rw [halloc] at hoffset
      cases hoffset
    · rw [halloc] at hoffset
      obtain rfl := Option.some.inj hoffset
      exact h.placed hlong hroom

theorem alloc (hsize : numBytes < sizeMax) (hbounded : Bounded s (.alloc numBytes)) :
    Inv (Varena.alloc s numBytes) := by
  rcases h.alloc_cases hsize hbounded with halloc | ⟨hlong, hroom, halloc⟩
  · simp only [Varena.alloc, halloc, Option.elim_none]
    exact h
  · obtain ⟨f, fs, hframes, -⟩ := h.stack.exists_frame hlong
    have hallot := (hframes ▸ h.stack).allot (r := ⟨s.arena.top, numBytes⟩) hroom rfl
    simp only [Varena.alloc, halloc, Option.elim_some, hframes, allotted]
    exact ⟨h.size, h.room, hallot⟩

theorem disclaim : Inv (Varena.disclaim s) := by
  rcases Nat.lt_or_ge s.arena.bottom sizeofVarenaFrame with hshort | hlong
  · simp only [Varena.disclaim, varenaDisclaim, frameTop_none hshort]
    exact h
  · obtain ⟨f, fs, hframes, hstop, hstart, htop⟩ := h.stack.exists_frame hlong
    obtain ⟨saved, hload, hrest⟩ := (hframes ▸ h.stack).pop
    have hle := h.stack.top_le
    have hroom := h.room
    simp only [Varena.disclaim, varenaDisclaim, frameTop_some hlong, if_true, hframes, List.tail_cons]
    refine ⟨h.size, ?_, ?_⟩
    · rw [hload]
      change f.claimed.start ≤ s.arena.capacity
      omega
    · rw [hload]
      exact hrest

theorem write {i : Nat} {value : UInt8} {f : Frame} {r : Extent} (hf : f ∈ s.frames)
    (hr : r ∈ f.regions) (hi : r.Has i) : Inv (Varena.write s i value) := by
  refine ⟨h.size, h.room, h.stack.congr fun g hg j hj => Function.update_of_ne ?_ _ _⟩
  rintro rfl
  exact (h.stack.region_apart_header hf hr hg).not_has hi hj

end Inv

theorem inv_step (h : Inv s) {l : Label} (hbounded : Bounded s l) (hs : step s l = some s') :
    Inv s' := by
  cases l with
  | claim numBytes =>
    obtain ⟨-, hs⟩ := Option.ite_none_right_eq_some.mp hs
    exact h.claim hbounded hs
  | alloc numBytes =>
    obtain ⟨hsize, hs⟩ := Option.ite_none_right_eq_some.mp hs
    cases hs
    exact h.alloc hsize hbounded
  | disclaim =>
    cases hs
    exact h.disclaim
  | write i value =>
    obtain ⟨⟨f, hf, r, hr, hi⟩, hs⟩ := Option.ite_none_right_eq_some.mp hs
    cases hs
    exact h.write hf hr hi

theorem lawful_iff (h : Inv s) {l : Label} (hs : step s l = some s') :
    Lawful s l ↔ Bounded s l := by
  cases l with
  | claim numBytes =>
    obtain ⟨hsize, hs⟩ := Option.ite_none_right_eq_some.mp hs
    exact h.claim_lawful_iff hsize hs
  | alloc numBytes => exact h.alloc_lawful_iff (Option.ite_none_right_eq_some.mp hs).1
  | disclaim => exact Iff.rfl
  | write i value => exact Iff.rfl

/-- The calls of a run all keep to their frames exactly when no sum of theirs wraps and none
allocates without a frame. -/
theorem lawful_run_iff {tr : List (State × Label)} (hr : (machine capacity).Run tr s) :
    (∀ p ∈ tr, Lawful p.1 p.2) ↔ ∀ p ∈ tr, Bounded p.1 p.2 :=
  hr.steps_iff (fun _ hi => inv_init hi) (fun _ _ _ h hl hs => inv_step h hl hs)
    fun _ _ _ h hs => lawful_iff h hs

theorem lawful_run_iff_nested :
    ∃ tr s, (machine 64).Run tr s ∧ s.frames = [⟨⟨0, 24⟩, [⟨4, 4⟩, ⟨0, 4⟩]⟩] ∧
      ∀ p ∈ tr, Lawful p.1 p.2 := by
  obtain ⟨tr, s, hr, hs⟩ := Machine.exists_run_of_record (machine 64)
    ⟨⟨fun _ => 0, 0, 0, 64⟩, []⟩
    [.claim 8, .alloc 4, .write 3 7, .claim 16, .alloc 9, .disclaim, .alloc 4]
    (fun tr s => s.frames = [⟨⟨0, 24⟩, [⟨4, 4⟩, ⟨0, 4⟩]⟩] ∧ ∀ p ∈ tr, Bounded p.1 p.2)
    ⟨by decide, rfl, rfl⟩ (by decide)
  simp only [decide_eq_true_eq] at hs
  exact ⟨tr, s, hr, hs.1, (lawful_run_iff hr).mpr hs.2⟩

/-- In an arena of which nothing is claimed, the header's size wraps below zero and an
allocation of 1000 bytes passes the test. -/
theorem not_lawful_unclaimed :
    ¬ ∀ (capacity : Nat) (tr : List (State × Label)) (s : State),
      (machine capacity).Run tr s → ∀ p ∈ tr, Lawful p.1 p.2 := by
  intro hlaw
  have hr : (machine 64).Run [(⟨⟨fun _ => 0, 0, 0, 64⟩, []⟩, .alloc 1000)]
      (alloc ⟨⟨fun _ => 0, 0, 0, 64⟩, []⟩ 1000) := .next (.start ⟨by decide, rfl, rfl⟩) rfl
  obtain ⟨f, hf, -⟩ := (hlaw 64 _ _ hr _ List.mem_cons_self 0 rfl).current
  cases hf

end Dert.Varena
