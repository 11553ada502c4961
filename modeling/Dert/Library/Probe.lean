import Mathlib.Data.Finset.Card
import Mathlib.Data.Finset.Range
import Mathlib.Data.List.Nodup
import Mathlib.Data.Nat.Find
import Mathlib.Logic.Function.Basic

universe u v

namespace Dert.Library.Probe

/-! Open addressing: every key has a sequence of slots, it is stored in one of them, and
a search walks the sequence until it finds the key or a vacant slot. -/

abbrev Slots (K : Type u) (V : Type v) := Nat → Option (K × V)

variable {K : Type u} {V : Type v} {slots : Slots K V} {seq : K → Nat → Nat}
  {k k' : K} {v v' : V} {i i' j n bound : Nat}

def Passes (slots : Slots K V) (k : K) (i : Nat) : Prop := ∃ p, slots i = some p ∧ p.1 ≠ k

def Chain (slots : Slots K V) (seq : K → Nat → Nat) (k : K) (j : Nat) : Prop :=
  ∀ m < j, Passes slots k (seq k m)

/-- Every stored key is reached along its own sequence, which has no gap before it. -/
def Wf (seq : K → Nat → Nat) (bound : Nat) (slots : Slots K V) : Prop :=
  ∀ i k v, slots i = some (k, v) → ∃ j < bound, seq k j = i ∧ Chain slots seq k j

/-- No stored key's search passes through slot `i` on the way to its own. -/
def Untangled (seq : K → Nat → Nat) (slots : Slots K V) (i : Nat) : Prop :=
  ∀ k v j, slots (seq k j) = some (k, v) → Chain slots seq k j → ∀ m < j, seq k m ≠ i

section Search

variable [DecidableEq K]

def stop (slots : Slots K V) (seq : K → Nat → Nat) (k : K) : Nat → Nat → Option Nat
  | 0, _ => none
  | n + 1, j =>
    match slots (seq k j) with
    | none => some (seq k j)
    | some p => if p.1 = k then some (seq k j) else stop slots seq k n (j + 1)

def find (slots : Slots K V) (seq : K → Nat → Nat) (n : Nat) (k : K) : Option V :=
  (stop slots seq k n 0).bind fun i => (slots i).map Prod.snd

theorem stop_succ_of_passes (h : Passes slots k (seq k j)) :
    stop slots seq k (n + 1) j = stop slots seq k n (j + 1) := by
  obtain ⟨p, hp, hne⟩ := h
  rw [stop, hp]
  exact if_neg hne

theorem stop_succ_of_not_passes (h : ¬ Passes slots k (seq k j)) :
    stop slots seq k (n + 1) j = some (seq k j) := by
  rw [stop]
  cases hp : slots (seq k j) with
  | none => rfl
  | some p => exact if_pos (by_contra fun hne => h ⟨p, hp, hne⟩)

theorem stop_eq_some_iff :
    stop slots seq k n j = some i ↔
      ∃ m < n, seq k (j + m) = i ∧ (∀ m' < m, Passes slots k (seq k (j + m'))) ∧
        ¬ Passes slots k i := by
  induction n generalizing j with
  | zero => simp [stop]
  | succ n ih =>
    by_cases hpass : Passes slots k (seq k j)
    · rw [stop_succ_of_passes hpass, ih]
      constructor
      · rintro ⟨m, hm, hi, hbefore, hstop⟩
        refine ⟨m + 1, by omega, by rw [← hi]; congr 1; omega, fun m' hm' => ?_, hstop⟩
        cases m' with
        | zero => exact hpass
        | succ m' =>
          rw [show j + (m' + 1) = j + 1 + m' by omega]
          exact hbefore m' (by omega)
      · rintro ⟨m, hm, hi, hbefore, hstop⟩
        cases m with
        | zero => exact absurd (hi ▸ hpass) hstop
        | succ m =>
          refine ⟨m, by omega, by rw [← hi]; congr 1; omega, fun m' hm' => ?_, hstop⟩
          rw [show j + 1 + m' = j + (m' + 1) by omega]
          exact hbefore (m' + 1) (by omega)
    · rw [stop_succ_of_not_passes hpass, Option.some.injEq]
      constructor
      · rintro rfl
        exact ⟨0, by omega, rfl, by simp, hpass⟩
      · rintro ⟨m, hm, hi, hbefore, hstop⟩
        cases m with
        | zero => exact hi
        | succ m => exact absurd (hbefore 0 (by omega)) hpass

theorem stop_iff : stop slots seq k n 0 = some i ↔
    ∃ j < n, seq k j = i ∧ Chain slots seq k j ∧ ¬ Passes slots k i := by
  simp only [stop_eq_some_iff, Nat.zero_add, Chain]

theorem stop_eq_none_iff : stop slots seq k n 0 = none ↔ Chain slots seq k n := by
  constructor
  · intro h
    by_contra hchain
    have hex : ∃ j, j < n ∧ ¬ Passes slots k (seq k j) := by
      simpa [Chain] using hchain
    classical
    obtain ⟨hlt, hstop⟩ := Nat.find_spec hex
    have hbefore : Chain slots seq k (Nat.find hex) := fun m hm => by
      by_contra hm'
      exact Nat.find_min hex hm ⟨by omega, hm'⟩
    rw [stop_iff.mpr ⟨_, hlt, rfl, hbefore, hstop⟩] at h
    cases h
  · intro h
    rw [Option.eq_none_iff_forall_ne_some]
    intro i hi
    obtain ⟨j, hj, rfl, -, hstop⟩ := stop_iff.mp hi
    exact hstop (h j hj)

omit [DecidableEq K] in
theorem not_passes_of_held (h : slots i = some (k, v)) : ¬ Passes slots k i := by
  rintro ⟨p, hp, hne⟩
  rw [h, Option.some.injEq] at hp
  exact hne (hp ▸ rfl)

theorem held_of_stop (h : stop slots seq k n 0 = some i) {p : K × V} (hp : slots i = some p) :
    p.1 = k := by
  obtain ⟨j, -, -, -, hstop⟩ := stop_iff.mp h
  exact by_contra fun hne => hstop ⟨p, hp, hne⟩

theorem find_put_self (hstop : stop slots seq k n 0 = some i) (v : V) :
    find (Function.update slots i (some (k, v))) seq n k = some v := by
  obtain ⟨j, hj, hseq, hchain, hi⟩ := stop_iff.mp hstop
  have hput : stop (Function.update slots i (some (k, v))) seq k n 0 = some i := by
    refine stop_iff.mpr ⟨j, hj, hseq, fun m hm => ?_,
      not_passes_of_held (v := v) (Function.update_self ..)⟩
    have hne : seq k m ≠ i := fun heq => hi (heq ▸ hchain m hm)
    rw [Passes, Function.update_of_ne hne]
    exact hchain m hm
  rw [find, hput, Option.bind_some, Function.update_self]
  rfl

namespace Wf

theorem stop_of_held (h : Wf seq bound slots) (hn : bound ≤ n) (hi : slots i = some (k, v)) :
    stop slots seq k n 0 = some i := by
  obtain ⟨j, hj, hseq, hchain⟩ := h i k v hi
  exact stop_iff.mpr ⟨j, by omega, hseq, hchain, not_passes_of_held hi⟩

theorem unique (h : Wf seq bound slots) (hi : slots i = some (k, v))
    (hi' : slots i' = some (k, v')) : i = i' := by
  have h1 := h.stop_of_held (Nat.le_refl _) hi
  rw [h.stop_of_held (Nat.le_refl _) hi'] at h1
  exact (Option.some.inj h1).symm

theorem find_iff (h : Wf seq bound slots) (hn : bound ≤ n) :
    find slots seq n k = some v ↔ ∃ i, slots i = some (k, v) := by
  constructor
  · intro hf
    obtain ⟨i, hi, hv⟩ := Option.bind_eq_some_iff.mp hf
    obtain ⟨p, hp, rfl⟩ := Option.map_eq_some_iff.mp hv
    obtain ⟨k', v'⟩ := p
    obtain rfl : k' = k := held_of_stop hi hp
    exact ⟨i, hp⟩
  · rintro ⟨i, hi⟩
    rw [find, h.stop_of_held hn hi]
    simp [hi]

theorem find_eq_none_iff (h : Wf seq bound slots) (hn : bound ≤ n) :
    find slots seq n k = none ↔ ∀ i v, slots i ≠ some (k, v) := by
  rw [Option.eq_none_iff_forall_ne_some]
  simp only [ne_eq, h.find_iff hn, not_exists]
  exact forall_comm

theorem put (h : Wf seq bound slots) (hstop : stop slots seq k bound 0 = some i) (v : V) :
    Wf seq bound (Function.update slots i (some (k, v))) := by
  obtain ⟨j, hj, hseq, hchain, hi⟩ := stop_iff.mp hstop
  have hkeep {k' : K} {j' : Nat} (hchain' : Chain slots seq k' j')
      (hne : k' = k → i ∉ (List.range j').map (seq k')) :
      Chain (Function.update slots i (some (k, v))) seq k' j' := by
    intro m hm
    by_cases hmi : seq k' m = i
    · rw [Passes, hmi, Function.update_self]
      refine ⟨(k, v), rfl, fun heq => hne heq.symm ?_⟩
      exact List.mem_map.mpr ⟨m, List.mem_range.mpr hm, hmi⟩
    · rw [Passes, Function.update_of_ne hmi]
      exact hchain' m hm
  have hself {j' : Nat} (hchain' : Chain slots seq k j') :
      i ∉ (List.range j').map (seq k) := by
    intro hmem
    obtain ⟨m, hm, hmi⟩ := List.mem_map.mp hmem
    exact hi (hmi ▸ hchain' m (List.mem_range.mp hm))
  intro i' k' v' hi'
  by_cases hii : i' = i
  · rw [hii, Function.update_self, Option.some.injEq, Prod.mk.injEq] at hi'
    obtain ⟨rfl, rfl⟩ := hi'
    exact ⟨j, hj, hseq.trans hii.symm, hkeep hchain fun _ => hself hchain⟩
  · rw [Function.update_of_ne hii] at hi'
    obtain ⟨j', hj', hseq', hchain'⟩ := h i' k' v' hi'
    exact ⟨j', hj', hseq', hkeep hchain' fun heq => by subst heq; exact hself hchain'⟩

theorem find_put (h : Wf seq bound slots) (hn : bound ≤ n)
    (hstop : stop slots seq k bound 0 = some i) (v : V) (k' : K) :
    find (Function.update slots i (some (k, v))) seq n k' =
      if k' = k then some v else find slots seq n k' := by
  have hput := h.put hstop v
  by_cases hk : k' = k
  · subst hk
    rw [if_pos rfl, hput.find_iff hn]
    exact ⟨i, Function.update_self ..⟩
  · rw [if_neg hk]
    have hne {v' : V} : slots i ≠ some (k', v') := fun hp => hk (held_of_stop hstop hp)
    refine Option.ext fun v' => ?_
    rw [hput.find_iff hn, h.find_iff hn]
    constructor
    · rintro ⟨i', hi'⟩
      by_cases hii : i' = i
      · rw [hii, Function.update_self, Option.some.injEq, Prod.mk.injEq] at hi'
        exact absurd hi'.1.symm hk
      · exact ⟨i', by rwa [Function.update_of_ne hii] at hi'⟩
    · rintro ⟨i', hi'⟩
      have hii : i' ≠ i := fun heq => hne (heq ▸ hi')
      exact ⟨i', by rwa [Function.update_of_ne hii]⟩

omit [DecidableEq K] in
theorem remove (h : Wf seq bound slots) (hfree : Untangled seq slots i) :
    Wf seq bound (Function.update slots i none) := by
  intro i' k' v' hi'
  have hii : i' ≠ i := by
    rintro rfl
    rw [Function.update_self] at hi'
    cases hi'
  rw [Function.update_of_ne hii] at hi'
  obtain ⟨j, hj, hseq, hchain⟩ := h i' k' v' hi'
  refine ⟨j, hj, hseq, fun m hm => ?_⟩
  rw [Passes, Function.update_of_ne (hfree k' v' j (by rwa [hseq]) hchain m hm)]
  exact hchain m hm

theorem find_remove_self (h : Wf seq bound slots) (hn : bound ≤ n) (hi : slots i = some (k, v)) :
    find (Function.update slots i none) seq n k = none := by
  obtain ⟨j, hj, hseq, hchain⟩ := h i k v hi
  have hne (m : Nat) (hm : m < j) : seq k m ≠ i := fun heq =>
    not_passes_of_held hi (heq ▸ hchain m hm)
  have hstop : stop (Function.update slots i none) seq k n 0 = some i := by
    refine stop_iff.mpr ⟨j, by omega, hseq, fun m hm => ?_, ?_⟩
    · rw [Passes, Function.update_of_ne (hne m hm)]
      exact hchain m hm
    · rintro ⟨p, hp, -⟩
      rw [Function.update_self] at hp
      cases hp
  rw [find, hstop]
  simp

theorem find_remove (h : Wf seq bound slots) (hn : bound ≤ n) (hi : slots i = some (k, v))
    (hfree : Untangled seq slots i) (hk : k' ≠ k) :
    find (Function.update slots i none) seq n k' = find slots seq n k' := by
  have hrem := h.remove hfree
  refine Option.ext fun v' => ?_
  rw [hrem.find_iff hn, h.find_iff hn]
  constructor
  · rintro ⟨i', hi'⟩
    have hii : i' ≠ i := by
      rintro rfl
      rw [Function.update_self] at hi'
      cases hi'
    exact ⟨i', by rwa [Function.update_of_ne hii] at hi'⟩
  · rintro ⟨i', hi'⟩
    have hii : i' ≠ i := by
      rintro rfl
      rw [hi, Option.some.injEq, Prod.mk.injEq] at hi'
      exact hk hi'.1.symm
    exact ⟨i', by rwa [Function.update_of_ne hii]⟩

/-- Emptying any other slot hides a key that is still stored. -/
theorem exists_hidden (h : Wf seq bound slots) (hn : bound ≤ n) (hi : slots i = some (k, v))
    (hcut : ¬ Untangled seq slots i) :
    ∃ k' v', k' ≠ k ∧ find slots seq n k' = some v' ∧
      find (Function.update slots i none) seq n k' = none := by
  simp only [Untangled, not_forall, ne_eq, not_not] at hcut
  obtain ⟨k', v', j, hheld, hchain, m, hm, hmi⟩ := hcut
  have hk : k' ≠ k := by
    rintro rfl
    exact not_passes_of_held hi (hmi ▸ hchain m hm)
  have hfound := (h.find_iff hn).mpr ⟨_, hheld⟩
  refine ⟨k', v', hk, hfound, ?_⟩
  obtain ⟨j', hj', hseq', hchain'⟩ := h _ k' v' hheld
  have hmj : m < j' := by
    by_contra hge
    exact not_passes_of_held (hseq' ▸ hheld) (hchain j' (by omega))
  classical
  have hex : ∃ m, m < j' ∧ seq k' m = i := ⟨m, hmj, hmi⟩
  obtain ⟨hlt, hfirst⟩ := Nat.find_spec hex
  have hstop : stop (Function.update slots i none) seq k' n 0 = some i := by
    refine stop_iff.mpr ⟨Nat.find hex, by omega, hfirst, fun m' hm' => ?_, ?_⟩
    · have hne : seq k' m' ≠ i := fun heq => Nat.find_min hex hm' ⟨by omega, heq⟩
      rw [Passes, Function.update_of_ne hne]
      exact hchain' m' (by omega)
    · rintro ⟨p, hp, -⟩
      rw [Function.update_self] at hp
      cases hp
  rw [find, hstop]
  simp

end Wf

end Search

section Count

def pairs (slots : Slots K V) (n : Nat) : List (K × V) := (List.range n).filterMap slots

def occupied (slots : Slots K V) (n : Nat) : Finset Nat :=
  (Finset.range n).filter fun i => (slots i).isSome

theorem mem_pairs {p : K × V} : p ∈ pairs slots n ↔ ∃ i < n, slots i = some p := by
  simp [pairs]

theorem mem_occupied : i ∈ occupied slots n ↔ i < n ∧ (slots i).isSome := by
  simp [occupied]

theorem pairs_length : (pairs slots n).length = (occupied slots n).card := by
  induction n with
  | zero => rfl
  | succ n ih =>
    have hsplit : occupied slots (n + 1) =
        if (slots n).isSome then insert n (occupied slots n) else occupied slots n := by
      rw [occupied, Finset.range_add_one, Finset.filter_insert]
      rfl
    have hnot : n ∉ occupied slots n := by simp [mem_occupied]
    have hlist : pairs slots (n + 1) = pairs slots n ++ (slots n).toList := by
      rw [pairs, List.range_succ, List.filterMap_append]
      cases h : slots n <;> simp [pairs, h]
    rw [hsplit, hlist, List.length_append, ih]
    cases h : slots n <;> simp [hnot]

theorem pairs_update_none {p : K × V} (hi : slots i = some p) (hn : i < n) :
    (pairs slots n).Perm (p :: pairs (Function.update slots i none) n) := by
  have hrange : (List.range n).Perm (i :: (List.range n).erase i) :=
    List.perm_cons_erase (List.mem_range.mpr hn)
  have hrest : ((List.range n).erase i).filterMap slots =
      ((List.range n).erase i).filterMap (Function.update slots i none) := by
    refine List.filterMap_congr fun m hm => ?_
    have hne : m ≠ i := ((List.nodup_range.mem_erase_iff).mp hm).1
    rw [Function.update_of_ne hne]
  have hbefore := hrange.filterMap slots
  have hafter := hrange.filterMap (Function.update slots i none)
  rw [List.filterMap_cons_some hi] at hbefore
  rw [List.filterMap_cons_none (Function.update_self ..), ← hrest] at hafter
  exact hbefore.trans (hafter.symm.cons p)

theorem occupied_update_some (hi : i < n) (p : K × V) :
    occupied (Function.update slots i (some p)) n = insert i (occupied slots n) := by
  ext m
  by_cases hm : m = i
  · subst hm
    simp [mem_occupied, hi]
  · simp [mem_occupied, hm]

theorem occupied_update_none :
    occupied (Function.update slots i none) n = (occupied slots n).erase i := by
  ext m
  by_cases hm : m = i
  · subst hm
    simp [mem_occupied]
  · simp [mem_occupied, hm]

theorem Wf.pairs_nodup [DecidableEq K] (h : Wf seq bound slots) :
    ((pairs slots n).map Prod.fst).Nodup := by
  rw [pairs, List.map_filterMap]
  refine (List.nodup_range).filterMap fun i i' k hi hi' => ?_
  simp only [Option.mem_def, Option.map_eq_some_iff] at hi hi'
  obtain ⟨⟨k1, v1⟩, hp, rfl⟩ := hi
  obtain ⟨⟨k2, v2⟩, hp', heq⟩ := hi'
  obtain rfl : k2 = k1 := heq
  exact h.unique hp hp'

end Count

end Dert.Library.Probe
