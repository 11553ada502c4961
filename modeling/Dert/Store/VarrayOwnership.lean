import Dert.Store.VarrayContents

namespace Dert.Varray

open Library

variable {s s' : State} {answer : Option Grant} {c : Call} {elemSize newSize fuel ret w : Nat}
  {tr : List (State × Call)}

section Ownership

def OwnsLaw (fuel : Nat) (s : State) (c : Call) : Prop :=
  call fuel s c ≠ .error .wild ∧ ∀ s' ret, call fuel s c = .ok (s', ret) →
    Owned s' ∧ varrayDeinit s' ≠ .error .wild ∧ (∀ pos, varrayGet s' pos ≠ .error .wild) ∧
    (ret ≠ 0 → s'.array = s.array)

def Throughout (P : State → Call → Prop) (fuel : Nat) : State → List Call → Prop
  | _, [] => True
  | s, c :: cs => P s c ∧ ∀ s' ret, call fuel s c = .ok (s', ret) → Throughout P fuel s' cs

theorem Throughout.cons {P : State → Call → Prop} {cs : List Call}
    (hcall : call fuel s c = .ok (s', ret)) (hc : P s c) (h : Throughout P fuel s' cs) :
    Throughout P fuel s (c :: cs) := by
  refine ⟨hc, fun t res hok => ?_⟩
  obtain ⟨rfl, -⟩ := Prod.mk.inj (Except.ok.inj (hcall.symm.trans hok))
  exact h

theorem Owned.deinit (h : Owned s) : varrayDeinit s ≠ .error .wild := by
  rw [varrayDeinit]
  split_ifs with hlive
  · obtain ⟨bytes, hbytes, -⟩ := h.live hlive
    simp [Heap.free, hbytes]
  · simp

theorem Owned.get (h : Owned s) (hsane : Sane elemSize s) (pos : Nat) :
    varrayGet s pos ≠ .error .wild := by
  rcases Nat.lt_or_ge pos s.array.stored with hpos | hout
  · obtain ⟨bytes, hbytes, -⟩ := h.set_fits hsane hpos
    rw [(h.live (hsane.live hbytes)).get hsane hpos]
    simp
  · rw [get_outside hout]
    simp

theorem OwnsLaw.of_careful (h : Owned s) (hsane : Sane elemSize s) (hallowed : Allowed s c)
    (hcareful : Careful s c) : OwnsLaw fuel s c := by
  refine ⟨fun hwild => ?_, fun s' ret hcall => ?_⟩
  · rcases h.ends fuel hsane hcareful hallowed with ⟨s', ret, hok⟩ | ⟨hhangs, -⟩
    · rw [hok] at hwild
      cases hwild
    · rw [hhangs] at hwild
      cases hwild
  · have hm := call_moves hsane hallowed hcall
    have howned := h.moves hsane hcareful hm
    refine ⟨howned, howned.deinit, howned.get (hsane.moves hm), fun hret => ?_⟩
    rw [(h.keeps hsane hcareful hm).failed hret]

theorem OwnsLaw.spares (hlaw : OwnsLaw fuel s c) (h : Owned s) (hsane : Sane elemSize s)
    (hc : c = .resize newSize answer ∨ c = .realloc newSize answer)
    (hgrow : s.array.cap < newSize) (hsize : newSize < sizeMax) (hanswer : Grants s answer)
    (hlive : s.array.elems ≠ 0) (hfuel : 64 ≤ fuel) : Spares s newSize answer := by
  intro w hw
  obtain ⟨bytes, hbytes, -⟩ := h.live hlive
  have hloop := hw.growLoop (Nat.zero_lt_of_lt hgrow) (Nat.lt_of_le_of_lt hgrow hsize) hfuel
  obtain ⟨hsafe, hok⟩ := hlaw
  rw [call_eq_grow hsane.stored hgrow hc] at hsafe
  rcases grow_moved hsane hlive hbytes hgrow hsize hanswer hloop with
    ⟨s', ret, hgrown, hg⟩ | ⟨hwild, -⟩
  · obtain ⟨howned, -⟩ := hok s' ret ((call_eq_grow hsane.stored hgrow hc).trans hgrown)
    have hsane' := hsane.grows hgrow hsize hg
    cases hg with
    | refused answer ret hret hrefused => exact .inr (hrefused hlive)
    | first grant hnull => exact absurd hnull hlive
    | freed =>
      obtain ⟨bytes', hbytes', -⟩ := howned.live hlive
      simp at hbytes'
    | moved grant bytes hbytes hdoubles hsmall hne hfits =>
      obtain ⟨bytes', hbytes', hle⟩ := howned.live hne
      exact .inl (Nat.lt_of_le_of_lt hle (hsane'.short bytes' hbytes'))
  · exact absurd hwild hsafe

theorem OwnsLaw.shrinks (hlaw : OwnsLaw fuel s (.realloc 0 none)) (h : Owned s)
    (hsane : Sane elemSize s) (hless : 0 < s.array.cap) : False := by
  have hlive := hsane.elems_ne hless
  obtain ⟨bytes, hbytes, -⟩ := h.live hlive
  obtain ⟨s', ret, hok, hm⟩ := call_shrinks fuel hless hbytes
    (show Allowed s (.realloc 0 none) from ⟨by decide, trivial⟩)
  obtain ⟨howned, -⟩ := hlaw.2 s' ret hok
  cases hm with
  | same newSize answer hsame => exact absurd hsame (Nat.ne_of_lt hless)
  | grown c newSize w answer s' ret hc hgrow =>
    obtain ⟨rfl, -⟩ : 0 = newSize ∧ none = answer := by simpa using hc
    exact Nat.not_lt_zero _ hgrow
  | refused newSize answer _ hne => exact hne (by simp [State.request, sizeT])
  | freed =>
    obtain ⟨bytes', hbytes', -⟩ := howned.live hlive
    simp at hbytes'

theorem ownsLaw_iff (h : Owned s) (hsane : Sane elemSize s) (hallowed : Allowed s c)
    (hfuel : 64 ≤ fuel) : OwnsLaw fuel s c ↔ Careful s c := by
  refine ⟨fun hlaw => ?_, .of_careful h hsane hallowed⟩
  cases c with
  | resize newSize answer =>
    exact fun hgrow hlive =>
      hlaw.spares h hsane (.inl rfl) hgrow hallowed.1 hallowed.2 hlive hfuel
  | realloc newSize answer =>
    refine ⟨fun hgrow hlive =>
      hlaw.spares h hsane (.inr rfl) hgrow hallowed.1 hallowed.2 hlive hfuel, ?_⟩
    rintro hless rfl rfl
    exact hlaw.shrinks h hsane hless
  | set pos src => trivial

theorem throughout_iff (h : Owned s) (hsane : Sane elemSize s) (hfuel : 64 ≤ fuel)
    {cs : List Call} (hallowed : Throughout Allowed fuel s cs) :
    Throughout (OwnsLaw fuel) fuel s cs ↔ Throughout Careful fuel s cs := by
  induction cs generalizing s with
  | nil => exact Iff.rfl
  | cons c cs ih =>
    obtain ⟨hhead, htail⟩ := hallowed
    have hlaw := ownsLaw_iff h hsane hhead hfuel
    have hnext (hcareful : Careful s c) (s' : State) (ret : Nat)
        (hok : call fuel s c = .ok (s', ret)) :
        Throughout (OwnsLaw fuel) fuel s' cs ↔ Throughout Careful fuel s' cs := by
      have hm := call_moves hsane hhead hok
      exact ih (h.moves hsane hcareful hm) (hsane.moves hm) (htail s' ret hok)
    constructor
    · rintro ⟨howns, hrest⟩
      have hcareful := hlaw.mp howns
      exact ⟨hcareful, fun s' ret hok => (hnext hcareful s' ret hok).mp (hrest s' ret hok)⟩
    · rintro ⟨hcareful, hrest⟩
      exact ⟨hlaw.mpr hcareful, fun s' ret hok =>
        (hnext hcareful s' ret hok).mpr (hrest s' ret hok)⟩

/-- The block stays the array's through exactly the careful sequences. -/
theorem ownsLaw_throughout_iff (hfuel : 64 ≤ fuel) (hinit : (machine fuel elemSize).init s)
    {cs : List Call} (hallowed : Throughout Allowed fuel s cs) :
    Throughout (OwnsLaw fuel) fuel s cs ↔ Throughout Careful fuel s cs := by
  obtain ⟨hsane, hnull⟩ := Sane.init hinit
  exact throughout_iff (.inl ⟨hnull, hsane.empty hnull⟩) hsane hfuel hallowed

def givenBack : List Call := [.realloc 1 (some (grantAt 8)), .realloc 0 none]

theorem givenBack_allowed : Throughout Allowed 64 (created 1) givenBack := by
  refine ⟨by decide, fun s' ret hok => ⟨⟨by decide, trivial⟩, fun _ _ _ => trivial⟩⟩

def growing : List Call :=
  [.realloc 2 (some (grantAt 8)), .set 0 (src [1, 2]), .set 1 (src [3, 4]),
    .resize 5 (some (grantAt 16)), .realloc 1 (some (grantAt 8))]

theorem growing_allowed : Throughout Allowed 64 (created 2) growing :=
  .cons pair_eq (by decide) <| .cons firstSet_eq trivial <| .cons pairSet_eq trivial <|
    .cons grown_eq (by decide) ⟨by decide, fun _ _ _ => trivial⟩

theorem growing_careful : Throughout Careful 64 (created 2) growing :=
  .cons pair_eq ⟨fun _ hlive => absurd rfl hlive, fun _ hzero => absurd hzero (by decide)⟩ <|
    .cons firstSet_eq trivial <| .cons pairSet_eq trivial <| .cons grown_eq pairSet_safe.careful
      ⟨⟨fun hgrow => absurd hgrow (by decide), fun _ hzero => absurd hzero (by decide)⟩,
        fun _ _ _ => trivial⟩

theorem ownsLaw_throughout_growing : Throughout (OwnsLaw 64) 64 (created 2) growing :=
  (ownsLaw_throughout_iff (Nat.le_refl 64) (show (machine 64 2).init (created 2) from ⟨rfl, rfl⟩)
    growing_allowed).mpr growing_careful

theorem not_ownsLaw_givenBack :
    Throughout Allowed 64 (created 1) givenBack ∧
      ¬Throughout (OwnsLaw 64) 64 (created 1) givenBack := by
  refine ⟨givenBack_allowed, fun h => ?_⟩
  obtain ⟨hlaw, -⟩ := h.2 single 0 rfl
  obtain ⟨-, hdeinit, -⟩ := hlaw.2 _ 5 rfl
  exact hdeinit rfl

end Ownership

end Dert.Varray
