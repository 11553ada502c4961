import Dert.Store.VarrayLaws

namespace Dert.Varray

open Library

variable {s s' : State} {answer : Option Grant} {c : Call} {elemSize newSize fuel ret w : Nat}
  {tr : List (State × Call)}

section Owned

def Holds (s : State) : Prop :=
  ∃ bytes, s.heap s.array.elems = some bytes ∧ s.array.cap * s.array.elemSize ≤ bytes.length

def Owned (s : State) : Prop := s.array.elems = 0 ∧ s.array.cap = 0 ∨ Holds s

/-- The byte size of a growth does not overflow, and a block is given up only for another. -/
def Safe (s : State) : Call → Prop
  | .resize newSize _ => s.array.cap < newSize → s.array.elems ≠ 0 →
      ∃ w, Doubles newSize (s.array.cap + 1) w ∧ w * s.array.elemSize < sizeMax
  | .realloc newSize answer =>
      (s.array.cap < newSize → s.array.elems ≠ 0 →
        ∃ w, Doubles newSize (s.array.cap + 1) w ∧ w * s.array.elemSize < sizeMax) ∧
      (newSize < s.array.cap → newSize = 0 → answer ≠ none)
  | .set _ _ => True

def Spares (s : State) (newSize : Nat) (answer : Option Grant) : Prop :=
  ∀ w, Doubles newSize (s.array.cap + 1) w →
    w * s.array.elemSize < sizeMax ∨ Refused s w answer ∧ s.request w ≠ 0

/-- No block is lost, and none is too small. -/
def Careful (s : State) : Call → Prop
  | .resize newSize answer =>
      s.array.cap < newSize → s.array.elems ≠ 0 → Spares s newSize answer
  | .realloc newSize answer =>
      (s.array.cap < newSize → s.array.elems ≠ 0 → Spares s newSize answer) ∧
      (newSize < s.array.cap → newSize = 0 → answer ≠ none)
  | .set _ _ => True

theorem Careful.grows (h : Careful s c)
    (hc : c = .resize newSize answer ∨ c = .realloc newSize answer)
    (hgrow : s.array.cap < newSize) (hlive : s.array.elems ≠ 0) : Spares s newSize answer := by
  rcases hc with rfl | rfl
  · exact h hgrow hlive
  · exact h.1 hgrow hlive

theorem spares_of_small
    (h : ∃ w, Doubles newSize (s.array.cap + 1) w ∧ w * s.array.elemSize < sizeMax) :
    Spares s newSize answer := by
  obtain ⟨w, hw, hlt⟩ := h
  exact fun w' hw' => .inl (hw.unique hw' ▸ hlt)

theorem Safe.careful (h : Safe s c) : Careful s c := by
  cases c with
  | resize newSize answer => exact fun hgrow hlive => spares_of_small (h hgrow hlive)
  | realloc newSize answer => exact ⟨fun hgrow hlive => spares_of_small (h.1 hgrow hlive), h.2⟩
  | set pos src => trivial

theorem Safe.grows (h : Safe s c) (hc : c = .resize newSize answer ∨ c = .realloc newSize answer)
    (hgrow : s.array.cap < newSize) (hlive : s.array.elems ≠ 0) :
    ∃ w, Doubles newSize (s.array.cap + 1) w ∧ w * s.array.elemSize < sizeMax := by
  rcases hc with rfl | rfl
  · exact h hgrow hlive
  · exact h.1 hgrow hlive

theorem Owned.live (h : Owned s) (hlive : s.array.elems ≠ 0) : Holds s :=
  h.resolve_left fun hnull => hlive hnull.1

theorem Owned.room (h : Owned s) (hsane : Sane elemSize s) {bytes : List UInt8}
    (hbytes : s.heap s.array.elems = some bytes) :
    s.array.cap * s.array.elemSize ≤ bytes.length := by
  obtain ⟨bytes', hbytes', hroom⟩ := h.live (hsane.live hbytes)
  obtain rfl := Option.some.inj (hbytes.symm.trans hbytes')
  exact hroom

theorem Owned.request (h : Owned s) (hsane : Sane elemSize s) {n : Nat} (hn : n ≤ s.array.cap) :
    s.request n = n * s.array.elemSize := by
  refine sizeT_of_lt ?_
  rcases h with ⟨-, hcap⟩ | ⟨bytes, hbytes, hle⟩
  · have hzero : n = 0 := by omega
    rw [hzero, Nat.zero_mul]
    decide
  · have hmul := Nat.mul_le_mul_right s.array.elemSize hn
    have hshort := hsane.short bytes hbytes
    omega

theorem moved_fits (hle : s.array.cap ≤ w) (hw : w * s.array.elemSize < sizeMax) :
    s.request s.array.cap + s.request (w - s.array.cap) = s.request w := by
  have hsum : s.array.cap * s.array.elemSize + (w - s.array.cap) * s.array.elemSize
      = w * s.array.elemSize := by
    rw [← Nat.add_mul, Nat.add_sub_cancel' hle]
  rw [State.request, State.request, State.request, sizeT_of_lt hw, sizeT_of_lt (by omega),
    sizeT_of_lt (by omega), hsum]

theorem Grows.holds (h : Grows s newSize w answer s' 0)
    (hw : Refused s w answer ∨ w * s.array.elemSize < sizeMax) :
    newSize ≤ s'.array.cap ∧ Holds s' := by
  cases h with
  | refused answer ret hret => exact absurd rfl hret
  | first grant hnull hsmall hne =>
    exact ⟨Nat.le_refl _, _, Function.update_self .., by simp⟩
  | moved grant bytes hbytes hdoubles hsmall hne hfits =>
    refine ⟨hdoubles.le, _, Function.update_self .., ?_⟩
    rw [length_overwrite (by simpa using hfits), length_kept]
    rcases hw with (hnone | hbig) | hlt
    · cases hnone
    · exact absurd hsmall (Nat.not_le.mpr hbig)
    · exact Nat.le_of_eq (sizeT_of_lt hlt).symm

theorem request_ne_zero (h : Sane elemSize s) (hw : w * s.array.elemSize < sizeMax) (hpos : 0 < w) :
    s.request w ≠ 0 := by
  rw [State.request, sizeT_of_lt hw, h.width]
  exact Nat.ne_of_gt (Nat.mul_pos hpos h.pos)

theorem Owned.freed (h : Owned s) (hsane : Sane elemSize s) (hless : newSize < s.array.cap)
    (hzero : s.request newSize = 0) : newSize = 0 := by
  have hrequest := h.request hsane (Nat.le_of_lt hless)
  rw [hzero, hsane.width] at hrequest
  exact (Nat.mul_eq_zero.mp hrequest.symm).resolve_right (Nat.ne_of_gt hsane.pos)

theorem Spares.not_freed (h : Spares s newSize answer) (hsane : Sane elemSize s)
    (hpos : 0 < newSize) (hw : Doubles newSize (s.array.cap + 1) w) : s.request w ≠ 0 := by
  rcases h w hw with hlt | ⟨-, hne⟩
  · exact request_ne_zero hsane hlt (Nat.lt_of_lt_of_le hpos hw.le)
  · exact hne

theorem Spares.moved {grant : Grant} (h : Spares s newSize (some grant))
    (hw : Doubles newSize (s.array.cap + 1) w) (hsmall : s.request w ≤ ptrdiffMax) :
    w * s.array.elemSize < sizeMax := by
  rcases h w hw with hlt | ⟨hnone | hbig, -⟩
  · exact hlt
  · cases hnone
  · exact absurd hsmall (Nat.not_le.mpr hbig)

theorem Owned.grows (h : Owned s) (hsane : Sane elemSize s)
    (hspares : s.array.elems ≠ 0 → Spares s newSize answer)
    (hgrow : s.array.cap < newSize) (hg : Grows s newSize w answer s' ret) : Owned s' := by
  cases hg with
  | refused => exact h
  | first grant hnull hsmall hne => exact .inr ⟨_, Function.update_self .., by simp⟩
  | freed hlive hw hzero =>
    exact absurd hzero ((hspares hlive).not_freed hsane (Nat.zero_lt_of_lt hgrow) hw)
  | moved grant bytes hbytes hw hsmall hne hfits =>
    have hlt := (hspares (hsane.live hbytes)).moved hw hsmall
    exact .inr ((Grows.moved grant bytes hbytes hw hsmall hne hfits).holds (.inr hlt)).2

theorem Owned.moves (h : Owned s) (hsane : Sane elemSize s) (hcareful : Careful s c)
    (hm : Moves s c s' ret) : Owned s' := by
  cases hm with
  | same => exact h
  | exposed => exact h
  | grown c newSize w answer s' ret hc hgrow hsize hg =>
    exact h.grows hsane (hcareful.grows hc hgrow) hgrow hg
  | refused => exact h
  | freed newSize hless hzero =>
    exact absurd rfl (hcareful.2 hless (h.freed hsane hless hzero))
  | shrunk newSize grant bytes hless hbytes hsmall hne =>
    refine .inr ⟨_, Function.update_self .., ?_⟩
    rw [length_kept, h.request hsane (Nat.le_of_lt hless)]
  | outside => exact h
  | written pos src bytes hpos hbytes hfits =>
    refine .inr ⟨_, Function.update_self .., ?_⟩
    rw [length_overwrite (by simpa using hfits)]
    exact h.room hsane hbytes

def Hangs (fuel : Nat) (s : State) (c : Call) : Prop :=
  ∃ newSize answer, (c = .resize newSize answer ∨ c = .realloc newSize answer) ∧
    s.array.cap < newSize ∧ newSize < sizeMax ∧ s.array.elems ≠ 0 ∧
    varrayGrowLoop newSize fuel (s.array.cap + 1) = .error .hangs

theorem Owned.grow_ends (h : Owned s) (hsane : Sane elemSize s)
    (hspares : s.array.elems ≠ 0 → Spares s newSize answer)
    (hc : c = .resize newSize answer ∨ c = .realloc newSize answer)
    (hgrow : s.array.cap < newSize) (hsize : newSize < sizeMax) (hanswer : Grants s answer) :
    (∃ s' ret, call fuel s c = .ok (s', ret)) ∨
      call fuel s c = .error .hangs ∧ Hangs fuel s c := by
  rw [call_eq_grow hsane.stored hgrow hc]
  by_cases hnull : s.array.elems = 0
  · obtain ⟨s', ret, hok, -⟩ := grow_first fuel hsane hnull hgrow hsize hanswer 0
    exact .inl ⟨s', ret, hok⟩
  obtain ⟨bytes, hbytes, hroom⟩ := h.live hnull
  rcases growLoop_cases newSize (s.array.cap + 1) fuel with hloop | ⟨w, hloop⟩
  · exact .inr ⟨grow_hangs hnull hgrow hsize hloop, newSize, answer, hc, hgrow, hsize, hnull, hloop⟩
  rcases grow_moved hsane hnull hbytes hgrow hsize hanswer hloop with
    ⟨s', ret, hok, -⟩ | ⟨-, hsome, hsmall, hover⟩
  · exact .inl ⟨s', ret, hok⟩
  · have hw := doubles_of_growLoop (Nat.lt_of_le_of_lt hgrow hsize) hloop
    obtain ⟨grant, rfl⟩ := Option.ne_none_iff_exists'.mp hsome
    have hlt := (hspares hnull).moved hw hsmall
    have hle := Nat.le_trans (Nat.le_of_lt hgrow) hw.le
    exact absurd (Nat.le_of_eq (moved_fits hle hlt)) (Nat.not_le.mpr hover)

theorem Owned.set_fits (h : Owned s) (hsane : Sane elemSize s) {pos : Nat}
    (hpos : pos < s.array.stored) : ∃ bytes, s.heap s.array.elems = some bytes ∧
      s.request pos + s.array.elemSize ≤ bytes.length := by
  have hcap := Nat.lt_of_lt_of_le hpos hsane.stored
  obtain ⟨bytes, hbytes, hroom⟩ := h.live (hsane.elems_ne hcap)
  refine ⟨bytes, hbytes, ?_⟩
  rw [h.request hsane (Nat.le_of_lt hcap), ← Nat.succ_mul]
  exact Nat.le_trans (Nat.mul_le_mul_right _ hcap) hroom

theorem Owned.ends (h : Owned s) (fuel : Nat) (hsane : Sane elemSize s) (hcareful : Careful s c)
    (hallowed : Allowed s c) :
    (∃ s' ret, call fuel s c = .ok (s', ret)) ∨
      call fuel s c = .error .hangs ∧ Hangs fuel s c := by
  cases c with
  | resize newSize answer =>
    rcases Nat.lt_or_ge s.array.cap newSize with hgrow | hle
    · exact h.grow_ends hsane (hcareful hgrow) (.inl rfl) hgrow hallowed.1 hallowed.2
    · exact .inl ⟨_, 0, call_exposes hle⟩
  | realloc newSize answer =>
    rcases Nat.lt_trichotomy newSize s.array.cap with hless | hsame | hgrow
    · obtain ⟨bytes, hbytes, -⟩ := h.live (hsane.elems_ne hless)
      obtain ⟨s', ret, hok, -⟩ := call_shrinks fuel hless hbytes hallowed
      exact .inl ⟨s', ret, hok⟩
    · exact .inl ⟨s, 0, by rw [call, varrayRealloc, if_pos hsame]⟩
    · exact h.grow_ends hsane (hcareful.1 hgrow) (.inr rfl) hgrow hallowed.1 hallowed.2
  | set pos src =>
    rcases Nat.lt_or_ge pos s.array.stored with hpos | hout
    · obtain ⟨bytes, hbytes, hfits⟩ := h.set_fits hsane hpos
      obtain ⟨s', hok, -⟩ := call_sets hsane hpos hbytes hfits
      exact .inl ⟨s', 0, hok⟩
    · exact .inl ⟨s, 1, by rw [call, varraySet, getDirect_outside hout]⟩

theorem Owned.returns (h : Owned s) (hsane : Sane elemSize s) (hsafe : Safe s c)
    (hallowed : Allowed s c) (hfuel : 64 ≤ fuel) : ∃ s' ret, call fuel s c = .ok (s', ret) := by
  refine (h.ends fuel hsane hsafe.careful hallowed).resolve_right ?_
  rintro ⟨-, newSize, answer, hc, hgrow, hsize, hlive, hloop⟩
  obtain ⟨w, hw, -⟩ := hsafe.grows hc hgrow hlive
  rw [hw.growLoop (Nat.zero_lt_of_lt hgrow) (Nat.lt_of_le_of_lt hgrow hsize) hfuel] at hloop
  cases hloop

end Owned

section Growth

theorem Grows.refused_or_small (hg : Grows s newSize w answer s' ret) (h : Sane elemSize s)
    (hgrow : s.array.cap < newSize) (hsize : newSize < sizeMax) (hlive : s.array.elems ≠ 0)
    (hholds : ret = 0 → Holds s') : Refused s w answer ∨ w * s.array.elemSize < sizeMax := by
  have hsane := h.grows hgrow hsize hg
  cases hg with
  | refused answer ret hret hrefused => exact .inl (hrefused hlive).1
  | first grant hnull => exact absurd hnull hlive
  | freed => exact .inl (.inl rfl)
  | moved grant bytes hbytes hdoubles hsmall hne hfits =>
    obtain ⟨bytes', hbytes', hle⟩ := hholds rfl
    exact .inr (Nat.lt_of_le_of_lt hle (hsane.short bytes' hbytes'))

def GrowLaw (s : State) (c : Call) (newSize : Nat) : Prop :=
  (s.array.elems ≠ 0 →
    ∃ fuel w, varrayGrowLoop newSize fuel (s.array.cap + 1) = .ok w ∧ newSize ≤ w) ∧
  ∃ fuel s' ret, call fuel s c = .ok (s', ret) ∧
    (ret = 0 → newSize ≤ s'.array.cap ∧ Holds s')

theorem growLaw_iff_of_sane (h : Sane elemSize s) (hgrow : s.array.cap < newSize)
    (hc : c = .resize newSize answer ∨ c = .realloc newSize answer)
    (hsize : newSize < sizeMax) (hanswer : Grants s answer) :
    GrowLaw s c newSize ↔ s.array.elems = 0 ∨ s.heap s.array.elems ≠ none ∧
      ∃ w, Doubles newSize (s.array.cap + 1) w ∧
        (Refused s w answer ∨ w * s.array.elemSize < sizeMax) := by
  have hnext : s.array.cap + 1 < sizeMax := Nat.lt_of_le_of_lt hgrow hsize
  have hpos : 0 < newSize := Nat.zero_lt_of_lt hgrow
  have hcall (fuel : Nat) : call fuel s c = varrayGrow fuel s (newSize - s.array.cap) answer :=
    call_eq_grow h.stored hgrow hc
  constructor
  · rintro ⟨-, fuel, s', ret, hok, hlaw⟩
    refine or_iff_not_imp_left.mpr fun hlive => ?_
    rw [hcall] at hok
    rcases growLoop_cases newSize (s.array.cap + 1) fuel with hloop | ⟨w, hloop⟩
    · rw [grow_hangs hlive hgrow hsize hloop] at hok
      cases hok
    cases hbytes : s.heap s.array.elems with
    | none =>
      obtain ⟨fault, hfault⟩ := grow_dead fuel answer hlive hbytes hgrow
      rw [hfault] at hok
      cases hok
    | some bytes =>
      refine ⟨by simp, w, doubles_of_growLoop hnext hloop, ?_⟩
      rcases grow_moved h hlive hbytes hgrow hsize hanswer hloop with
        ⟨s'', ret', hok', hg⟩ | ⟨hwild, -⟩
      · obtain ⟨rfl, rfl⟩ := Prod.mk.inj (Except.ok.inj (hok.symm.trans hok'))
        exact hg.refused_or_small h hgrow hsize hlive fun hret => (hlaw hret).2
      · rw [hwild] at hok
        cases hok
  · rintro (hnull | ⟨hlive, w, hw, hsmall⟩)
    · obtain ⟨s', ret, hok, hg⟩ := grow_first 0 h hnull hgrow hsize hanswer 0
      refine ⟨absurd hnull, 0, s', ret, (hcall 0).trans hok, ?_⟩
      rintro rfl
      exact hg.holds (.inr (by simp [sizeMax]))
    · obtain ⟨bytes, hbytes⟩ := Option.ne_none_iff_exists'.mp hlive
      have hloop := hw.growLoop hpos hnext (Nat.le_refl 64)
      refine ⟨fun _ => ⟨64, w, hloop, hw.le⟩, 64, ?_⟩
      rcases grow_moved h (h.live hbytes) hbytes hgrow hsize hanswer hloop with
        ⟨s', ret, hok, hg⟩ | ⟨-, hsome, hgranted, hover⟩
      · refine ⟨s', ret, (hcall 64).trans hok, ?_⟩
        rintro rfl
        exact hg.holds hsmall
      · rcases hsmall with (hnone | hbig) | hlt
        · exact absurd hnone hsome
        · exact absurd hgranted (Nat.not_le.mpr hbig)
        · have hcap := Nat.le_trans (Nat.le_of_lt hgrow) hw.le
          exact absurd (Nat.le_of_eq (moved_fits hcap hlt)) (Nat.not_le.mpr hover)

/-- A growth ends well exactly where the doubling loop ends and either the product does not wrap
or the allocator refuses. -/
theorem growLaw_iff (hr : (machine fuel elemSize).Run tr s) (hgrow : s.array.cap < newSize)
    (hc : c = .resize newSize answer ∨ c = .realloc newSize answer) (hallowed : Allowed s c) :
    GrowLaw s c newSize ↔ s.array.elems = 0 ∨ s.heap s.array.elems ≠ none ∧
      ∃ w, Doubles newSize (s.array.cap + 1) w ∧
        (Refused s w answer ∨ w * s.array.elemSize < sizeMax) := by
  obtain ⟨hsize, hanswer⟩ : newSize < sizeMax ∧ Grants s answer := by
    rcases hc with rfl | rfl <;> exact hallowed
  exact growLaw_iff_of_sane (Sane.run hr) hgrow hc hsize hanswer

def created (elemSize : Nat) : State :=
  { heap := fun _ => none, array := { elems := 0, elemSize, stored := 0, cap := 0 } }

def grantAt (address : Nat) : Grant := { address, garbage := fun _ => 0 }

def single : State :=
  { heap := Function.update (created 1).heap 8 (some [0])
    array := { elems := 8, elemSize := 1, stored := 1, cap := 1 } }

theorem single_run :
    (machine 64 1).Run [(created 1, .realloc 1 (some (grantAt 8)))] single :=
  .next (.start ⟨rfl, rfl⟩) (step_eq_some.mpr ⟨by decide, 0, rfl⟩)

def src (bytes : List UInt8) (i : Nat) : UInt8 := bytes.getD i 0

def pair : State :=
  { heap := Function.update (created 2).heap 8 (some [0, 0, 0, 0])
    array := { elems := 8, elemSize := 2, stored := 2, cap := 2 } }

def firstSet : State := { pair with heap := Function.update pair.heap 8 (some [1, 2, 0, 0]) }

def pairSet : State := { pair with heap := Function.update firstSet.heap 8 (some [1, 2, 3, 4]) }

def grown : State :=
  { heap := Function.update (Function.update (Function.update pairSet.heap 8 none) 16
        (some [1, 2, 3, 4, 0, 0, 0, 0, 0, 0, 0, 0])) 16
      (some [1, 2, 3, 4, 0, 0, 0, 0, 0, 0, 0, 0])
    array := { elems := 16, elemSize := 2, stored := 5, cap := 6 } }

def pairTrace : List (State × Call) :=
  [(firstSet, .set 1 (src [3, 4])), (pair, .set 0 (src [1, 2])),
    (created 2, .realloc 2 (some (grantAt 8)))]

theorem pair_eq : call 64 (created 2) (.realloc 2 (some (grantAt 8))) = .ok (pair, 0) := rfl

theorem firstSet_eq : call 64 pair (.set 0 (src [1, 2])) = .ok (firstSet, 0) := rfl

theorem pairSet_eq : call 64 firstSet (.set 1 (src [3, 4])) = .ok (pairSet, 0) := rfl

theorem pairSet_run : (machine 64 2).Run pairTrace pairSet :=
  .next (.next (.next (.start ⟨rfl, rfl⟩) (step_eq_some.mpr ⟨by decide, 0, pair_eq⟩))
    (step_eq_some.mpr ⟨trivial, 0, firstSet_eq⟩)) (step_eq_some.mpr ⟨trivial, 0, pairSet_eq⟩)

theorem grown_eq : call 64 pairSet (.resize 5 (some (grantAt 16))) = .ok (grown, 0) := rfl

theorem pairTrace_safe : ∀ e ∈ pairTrace, Safe e.1 e.2 := by
  simp [pairTrace, Safe, created]

theorem pairSet_safe : Safe pairSet (.resize 5 (some (grantAt 16))) :=
  fun _ _ => ⟨6, ⟨1, rfl, by decide, by decide⟩, by decide⟩

theorem growLaw_single : GrowLaw single (.realloc 3 (some (grantAt 16))) 3 :=
  (growLaw_iff single_run (by decide) (.inr rfl) (by decide)).mpr
    (.inr ⟨by simp [single], 4, ⟨1, rfl, by decide, by decide⟩, .inr (by decide)⟩)

theorem not_growLaw_single :
    ∃ tr s, (machine 64 1).Run tr s ∧ Allowed s (.realloc (2 ^ 63 + 1) none) ∧
      ¬GrowLaw s (.realloc (2 ^ 63 + 1) none) (2 ^ 63 + 1) := by
  refine ⟨_, single, single_run, by decide, ?_⟩
  rintro ⟨hends, -⟩
  obtain ⟨fuel, w, hloop, -⟩ := hends (by decide)
  obtain ⟨k, hk, rfl, hle, -⟩ := (doubles_of_growLoop (by decide) hloop).rounds (by decide)
  have hshort : ∀ k < 64, sizeT (2 ^ k * (single.array.cap + 1)) < 2 ^ 63 + 1 := by decide
  exact absurd hle (Nat.not_le.mpr (hshort k hk))

end Growth

end Dert.Varray
