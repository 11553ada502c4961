import Dert.Store.VdllRefusals

universe u

namespace Dert.Vdll

open Library

variable {Elem : Type u} {dll dll' : Vdll Elem} {es : List (Nat × Elem)} {pos n i : Nat}
  {answers : VdllAnswers Elem} {after : Bool}

theorem insertLoop_append {left rest : Nat}
    (h : vdllInsertLoop after answers pos left i dll = some (dll', 0)) :
    vdllInsertLoop after answers pos (left + rest) i dll =
      vdllInsertLoop after answers pos rest (i + left) dll' := by
  induction left generalizing i dll with
  | zero =>
    obtain ⟨rfl, -⟩ := Prod.mk.inj (Option.some.inj h)
    rw [Nat.zero_add, Nat.add_zero]
  | succ left ih =>
    rw [Nat.add_right_comm]
    simp only [vdllInsertLoop] at h ⊢
    cases hanswer : answers i with
    | none =>
      simp only [hanswer] at h
      split_ifs at h
      · obtain ⟨r, -, hr⟩ := Option.bind_eq_some_iff.mp h
        cases hr
      · cases h
    | some answer =>
      simp only [hanswer] at h ⊢
      obtain ⟨d, hlink, hloop⟩ := Option.bind_eq_some_iff.mp h
      rw [hlink, Option.bind_eq_bind, Option.bind_some, ih hloop, Nat.add_right_comm, Nat.add_assoc]

theorem insert_failed (hanswer : answers i = none) (hn : i < n)
    (hrounds : _vdllInsert answers dll pos i after = some (dll', 0)) :
    _vdllInsert answers dll pos n after =
      if i > 1 then (vdllDelete dll' (sizeT (pos + 1)) i).map fun r => (r.1, 3)
      else some (dll', 3) := by
  have hi : i ≠ 0 := fun hi => by
    rw [_vdllInsert, if_pos hi] at hrounds
    cases hrounds
  obtain ⟨rest, rfl⟩ : ∃ rest, n = i + (rest + 1) := ⟨n - i - 1, by omega⟩
  rw [_vdllInsert, if_neg hi] at hrounds
  rw [_vdllInsert, if_neg (by omega)]
  obtain ⟨⟨d, code⟩, hseek, hloop⟩ := Option.bind_eq_some_iff.mp hrounds
  dsimp only at hloop
  split_ifs at hloop with hcode
  · cases hloop
  · rw [hseek, Option.bind_eq_bind, Option.bind_some]
    dsimp only
    rw [if_neg hcode, insertLoop_append hloop, vdllInsertLoop, Nat.zero_add, hanswer]
    dsimp only
    cases vdllDelete dll' (sizeT (pos + 1)) i <;> rfl

/-- What a failed insertion is to leave. -/
def RolledBack (answers : VdllAnswers Elem) (dll : Vdll Elem) (es : List (Nat × Elem))
    (pos n : Nat) (after : Bool) : Prop :=
  ∃ dll', _vdllInsert answers dll pos n after = some (dll', 3) ∧ Holds dll' es

theorem rolledBack_first (h : Holds dll es) (hpos : pos < es.length ∨ es = [] ∧ pos = 0)
    (hn : 0 < n) (hfail : answers 0 = none) : RolledBack answers dll es pos n after := by
  have hseek : ∃ dll', vdllSeek dll pos = some (dll', 0) ∧ Holds dll' es := by
    rcases hpos with hpos | ⟨rfl, rfl⟩
    · exact ⟨_, h.shape.seek_eq (Or.inl (by rwa [List.length_map])), h.moved hpos⟩
    · exact ⟨dll, h.seek_empty, h⟩
  obtain ⟨dll', hseek, hdll'⟩ := hseek
  obtain ⟨rest, rfl⟩ : ∃ rest, n = rest + 1 := ⟨n - 1, by omega⟩
  refine ⟨dll', ?_, hdll'⟩
  rw [_vdllInsert, if_neg (Nat.succ_ne_zero rest), hseek, Option.bind_eq_bind, Option.bind_some]
  dsimp only
  rw [if_neg (by decide), vdllInsertLoop, hfail]
  rfl

theorem cut_placed {α : Type*} (l fresh : List α) {k : Nat} (hk : k ≤ l.length) :
    (l.take k ++ fresh ++ l.drop k).take k ++
      (l.take k ++ fresh ++ l.drop k).drop (k + fresh.length) = l := by
  have hlength : (l.take k).length = k := List.length_take_of_le hk
  rw [List.append_assoc, List.take_append_of_le_length (Nat.le_of_eq hlength.symm),
    List.take_take, Nat.min_self, ← List.append_assoc,
    List.drop_append_of_le_length (by rw [List.length_append, hlength]),
    List.drop_eq_nil_of_le (by rw [List.length_append, hlength]), List.nil_append,
    List.take_append_drop]

theorem rollback_iff (h : Holds dll es) (hlt : pos < es.length) (hi : i ≠ 0)
    {fresh : List (Nat × Elem)} (hlength : fresh.length = i)
    (hd : Holds dll' (es.take (place after pos) ++ fresh ++ es.drop (place after pos))) :
    (∃ d, (vdllDelete dll' (sizeT (pos + 1)) i).map (fun r => (r.1, 3)) = some (d, 3) ∧
      Holds d es) ↔ pos + 1 + 1 - i = place after pos := by
  have hplace : place after pos ≤ es.length := by
    rw [place]
    split_ifs <;> omega
  have hsize : sizeT (pos + 1) = pos + 1 :=
    sizeT_of_lt (Nat.lt_of_le_of_lt (Nat.succ_le_of_lt hlt) h.length_lt)
  have hlong : (es.take (place after pos) ++ fresh ++ es.drop (place after pos)).length =
      es.length + i := by
    simp only [List.length_append, List.length_take, List.length_drop, hlength]
    omega
  have hrange : pos + 1 + i ≤
      (es.take (place after pos) ++ fresh ++ es.drop (place after pos)).length := by
    rw [hlong]
    omega
  obtain ⟨d, hdelete, hholds⟩ := hd.delete hi hrange
  have hcut := cut_placed es fresh hplace
  rw [hlength] at hcut
  have hiff := cut_eq_iff hd.nodup hi (i := pos + 1 + 1 - i) (j := place after pos)
    (by rw [hlong]; omega) (by rw [hlong]; omega)
  rw [hcut] at hiff
  rw [hsize, hdelete, ← hiff]
  constructor
  · rintro ⟨d', hsome, hd'⟩
    obtain ⟨rfl, -⟩ := Prod.mk.inj (Option.some.inj hsome)
    exact hholds.unique hd'
  · intro heq
    exact ⟨d, rfl, heq ▸ hholds⟩

theorem not_rollback_empty (hd : Holds dll' es) (hi : 2 ≤ es.length) :
    ¬ ∃ d, (vdllDelete dll' (sizeT (0 + 1)) es.length).map (fun r => (r.1, 3)) = some (d, 3) ∧
      Holds d [] := by
  have hlt : 1 < (es.map Prod.fst).length := by rwa [List.length_map]
  have hlong : (es.map Prod.fst).length < 1 + es.length := by
    rw [List.length_map]
    omega
  rintro ⟨d, hr, hempty⟩
  rw [show sizeT (0 + 1) = 1 from rfl] at hr
  rcases hd.shape.delete_overrun (by decide) hlt hlong with hnone | hoff
  · rw [hnone] at hr
    cases hr
  · rw [hoff] at hr
    obtain ⟨rfl, -⟩ := Prod.mk.inj (Option.some.inj hr)
    exact not_shape_off hd.shape (List.length_pos_iff.mp (by omega)) _ hempty.shape

/-- An insertion that gets no node in some round is rolled back just where that is the first
round, or where `vdll_grow` has linked two in, or any more at the first position. -/
theorem rolledBack_iff (h : Holds dll es) (hpos : pos < es.length ∨ es = [] ∧ pos = 0)
    (hn : i < n) (hanswers : Granted dll answers i) (hfail : answers i = none) :
    RolledBack answers dll es pos n after ↔
      i = 0 ∨ after = true ∧ es ≠ [] ∧ 2 ≤ i ∧ (i = 2 ∨ pos = 0) := by
  rcases Nat.eq_zero_or_pos i with rfl | hi
  · exact iff_of_true (rolledBack_first h hpos hn hfail) (Or.inl rfl)
  have hne : i ≠ 0 := Nat.ne_of_gt hi
  obtain ⟨dll', fresh, hrounds, -, hlength, hd⟩ := h.insert after hne hpos hanswers
  rw [RolledBack, insert_failed hfail hn hrounds]
  by_cases hguard : i > 1
  · simp only [if_pos hguard]
    rcases hpos with hlt | ⟨rfl, rfl⟩
    · rw [rollback_iff h hlt hne hlength hd]
      have hfull : es ≠ [] := List.length_pos_iff.mp (Nat.zero_lt_of_lt hlt)
      cases after <;> simp only [place, hfull, ne_eq, not_false_eq_true, true_and, if_true,
        false_and, or_false, Bool.false_eq_true, if_false] <;> omega
    · rw [List.take_nil, List.drop_nil, List.nil_append, List.append_nil] at hd
      have hnot := not_rollback_empty hd (by omega)
      rw [hlength] at hnot
      refine iff_of_false hnot ?_
      rintro (hzero | ⟨-, hfull, -⟩)
      · exact hne hzero
      · exact hfull rfl
  · -- a single round is not rolled back
    simp only [if_neg hguard]
    refine iff_of_false ?_ (by omega)
    rintro ⟨d, hsome, hd'⟩
    obtain ⟨rfl, -⟩ := Prod.mk.inj (Option.some.inj hsome)
    have hsame := congrArg List.length (hd.unique hd')
    simp only [List.length_append, List.length_take, List.length_drop, hlength] at hsame
    omega

def twoMore : VdllAnswers Nat := fun i => if i < 2 then some (32 * i + 128, 7) else none

theorem rolledBack_trio :
    trio.Holds [(32, 0), (64, 1), (96, 2)] ∧
      (RolledBack twoMore trio [(32, 0), (64, 1), (96, 2)] 1 3 true ↔
        2 = 0 ∨ true = true ∧ [(32, 0), (64, 1), (96, 2)] ≠ [] ∧ 2 ≤ 2 ∧ (2 = 2 ∨ 1 = 0)) :=
  ⟨trio_holds, rolledBack_iff trio_holds (Or.inl (by decide)) (by decide) (by decide) rfl⟩

/-- An insertion of three elements of which the third gets no node takes out the element at its
position and one of the two that are new. -/
theorem not_rolledBack_trio :
    trio.Holds [(32, 0), (64, 1), (96, 2)] ∧
      ¬ RolledBack twoMore trio [(32, 0), (64, 1), (96, 2)] 1 3 false := by
  refine ⟨trio_holds, ?_⟩
  rintro ⟨dll', hr, h⟩
  have hinsert : (_vdllInsert twoMore trio 1 3 false).map (fun r => r.1.dataOf 64) = some none :=
    rfl
  rw [hr, Option.map_some, h.data (64, 1) (by simp)] at hinsert
  cases hinsert

end Dert.Vdll
