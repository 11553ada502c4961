import Dert.Store.VdllCursor

universe u

namespace Dert.Vdll

open Library

variable {Elem : Type u} {dll : Vdll Elem} {es : List (Nat × Elem)} {pos n : Nat}

structure Holds (dll : Vdll Elem) (es : List (Nat × Elem)) : Prop where
  shape : Shape dll (es.map Prod.fst)
  data : ∀ e ∈ es, dll.dataOf e.1 = some e.2

namespace Holds

theorem unique {es' : List (Nat × Elem)} (h : Holds dll es) (h' : Holds dll es') : es = es' := by
  have hnodes : es.map Prod.fst = es'.map Prod.fst :=
    h.shape.chain.unique h'.shape.chain fun z => (h.shape.nodes z).trans (h'.shape.nodes z).symm
  have hview {es : List (Nat × Elem)} (h : Holds dll es) :
      es.map (fun e => (e.1, some e.2)) = (es.map Prod.fst).map fun z => (z, dll.dataOf z) := by
    rw [List.map_map]
    exact List.map_congr_left fun e he => by rw [Function.comp_apply, h.data e he]
  have hsame : es.map (fun e => (e.1, some e.2)) = es'.map fun e => (e.1, some e.2) := by
    rw [hview h, hview h', hnodes]
  refine List.map_injective_iff.mpr (fun a b hab => ?_) hsame
  obtain ⟨hfst, hsnd⟩ := Prod.mk.inj hab
  exact Prod.ext hfst (Option.some.inj hsnd)

theorem nodup (h : Holds dll es) : es.Nodup := h.shape.chain.nodup.of_map _

theorem length_lt (h : Holds dll es) : es.length < sizeMax := by
  simpa using h.shape.length_lt

theorem delete (h : Holds dll es) (hn : n ≠ 0) (hrange : pos + n ≤ es.length) :
    ∃ dll', vdllDelete dll pos n = some (dll', 0) ∧
      Holds dll' (es.take (pos + 1 - n) ++ es.drop (pos + 1 - n + n)) := by
  have hrange' : pos + n ≤ (es.map Prod.fst).length := by rwa [List.length_map]
  obtain ⟨dll', hdelete, hshape, hdata⟩ := h.shape.delete hn hrange'
  rw [← List.map_take, ← List.map_drop, ← List.map_append] at hshape
  refine ⟨dll', hdelete, hshape, fun e he => ?_⟩
  have hmem : e ∈ es :=
    (List.mem_append.mp he).elim List.mem_of_mem_take List.mem_of_mem_drop
  rw [hdata e.1 ((hshape.nodes e.1).mp (List.mem_map_of_mem he)), h.data e hmem]

theorem shrink_eq (h : Holds dll es) (hn : n ≠ 0) (hrange : n ≤ es.length) :
    vdllShrink dll n = (vdllDelete dll (es.length - n) n).map fun r =>
      (r.1, if r.2 ≠ 0 then 2 else 0) := by
  have hcap : dll.cap = es.length := by rw [h.shape.cap, List.length_map]
  rw [vdllShrink, if_neg hn, hcap, sizeT_sub hrange h.length_lt]
  cases vdllDelete dll (es.length - n) n <;> rfl

theorem grow_eq (h : Holds dll es) (answers : VdllAnswers Elem) (hn : n ≠ 0) :
    vdllGrow answers dll n = (_vdllInsert answers dll (es.length - 1) n true).map fun r =>
      (r.1, if r.2 ≠ 0 then 2 else 0) := by
  have hcap : dll.cap = es.length := by rw [h.shape.cap, List.length_map]
  have htail : (if es.length > 1 then es.length - 1 else 0) = es.length - 1 := by
    split_ifs <;> omega
  rw [vdllGrow, if_neg hn, hcap, htail]
  dsimp only
  cases _vdllInsert answers dll (es.length - 1) n true <;> rfl

theorem insert (h : Holds dll es) (after : Bool) {answers : VdllAnswers Elem} (hn : n ≠ 0)
    (hpos : pos < es.length ∨ es = [] ∧ pos = 0) (hanswers : Granted dll answers n) :
    ∃ dll' fresh, _vdllInsert answers dll pos n after = some (dll', 0) ∧
      fresh.Perm ((List.range n).filterMap answers) ∧ fresh.length = n ∧
      Holds dll' (es.take (place after pos) ++ fresh ++ es.drop (place after pos)) := by
  have hpos' : pos < (es.map Prod.fst).length ∨ es.map Prod.fst = [] ∧ pos = 0 := by
    rwa [List.length_map, List.map_eq_nil_iff]
  obtain ⟨dll', fresh, hinsert, hperm, hlength, hshape, hfresh, hold⟩ :=
    h.shape.insert after hn hpos' hanswers
  rw [← List.map_take, ← List.map_drop, ← List.map_append, ← List.map_append] at hshape
  have hkept : ∀ e ∈ es, dll'.dataOf e.1 = some e.2 := fun e he => by
    rw [hold e.1 (List.mem_map_of_mem he), h.data e he]
  refine ⟨dll', fresh, hinsert, hperm, hlength, hshape, fun e he => ?_⟩
  rcases List.mem_append.mp he with he | he
  · rcases List.mem_append.mp he with he | he
    · exact hkept e (List.mem_of_mem_take he)
    · exact hfresh e he
  · exact hkept e (List.mem_of_mem_drop he)

end Holds

section Deletion

theorem cut_inj {α : Type*} {l : List α} (hl : l.Nodup) (hn : n ≠ 0) {i j : Nat} (hij : i < j)
    (hj : j + n ≤ l.length) : l.take i ++ l.drop (i + n) ≠ l.take j ++ l.drop (j + n) := by
  intro heq
  have hget := congrArg (fun r => r[i]?) heq
  simp only [List.getElem?_append, List.length_take, List.getElem?_take, List.getElem?_drop] at hget
  rw [if_neg (by omega), if_pos (by omega), if_pos hij, Nat.min_eq_left (by omega), Nat.sub_self,
    Nat.add_zero, List.getElem?_eq_getElem (by omega), List.getElem?_eq_getElem (by omega)] at hget
  have hsame := (hl.getElem_inj_iff).mp (Option.some.inj hget)
  omega

theorem cut_eq_iff {α : Type*} {l : List α} (hl : l.Nodup) (hn : n ≠ 0) {i j : Nat}
    (hi : i + n ≤ l.length) (hj : j + n ≤ l.length) :
    l.take i ++ l.drop (i + n) = l.take j ++ l.drop (j + n) ↔ i = j := by
  refine ⟨fun heq => ?_, fun heq => heq ▸ rfl⟩
  rcases Nat.lt_trichotomy i j with hij | hij | hij
  · exact absurd heq (cut_inj hl hn hij hj)
  · exact hij
  · exact absurd heq.symm (cut_inj hl hn hij hi)

theorem Holds.delete_iff (h : Holds dll es) (hn : n ≠ 0) (hrange : pos + n ≤ es.length) :
    (∃ dll', vdllDelete dll pos n = some (dll', 0) ∧
      Holds dll' (es.take pos ++ es.drop (pos + n))) ↔ n = 1 ∨ pos = 0 := by
  obtain ⟨d, hdelete, hd⟩ := h.delete hn hrange
  have hiff : es.take (pos + 1 - n) ++ es.drop (pos + 1 - n + n) =
      es.take pos ++ es.drop (pos + n) ↔ pos + 1 - n = pos :=
    cut_eq_iff h.nodup hn (by omega) hrange
  rw [show (n = 1 ∨ pos = 0) ↔ pos + 1 - n = pos by omega, ← hiff]
  constructor
  · rintro ⟨dll', hdelete', hdll'⟩
    obtain ⟨rfl, -⟩ := Prod.mk.inj (Option.some.inj (hdelete.symm.trans hdelete'))
    exact hd.unique hdll'
  · intro heq
    exact ⟨d, hdelete, heq ▸ hd⟩

/-- A deletion takes out the elements from its position on just where it takes out one, or
starts at the first; a shrink just where it takes out one, or all. -/
theorem delete_range (h : Holds dll es) (hn : n ≠ 0) :
    (pos + n ≤ es.length →
      ((∃ dll', vdllDelete dll pos n = some (dll', 0) ∧
        Holds dll' (es.take pos ++ es.drop (pos + n))) ↔ n = 1 ∨ pos = 0)) ∧
    (n ≤ es.length →
      ((∃ dll', vdllShrink dll n = some (dll', 0) ∧ Holds dll' (es.take (es.length - n))) ↔
        n = 1 ∨ n = es.length)) := by
  refine ⟨h.delete_iff hn, fun hrange => ?_⟩
  have hend : es.length - n + n = es.length := Nat.sub_add_cancel hrange
  have hlast : es.length - n + n ≤ es.length := Nat.le_of_eq hend
  have hdelete := h.delete_iff hn hlast
  rw [hend, List.drop_length, List.append_nil] at hdelete
  have hshrink (dll' : Vdll Elem) :
      vdllShrink dll n = some (dll', 0) ↔ vdllDelete dll (es.length - n) n = some (dll', 0) := by
    obtain ⟨d, hd, -⟩ := h.delete hn hlast
    rw [h.shrink_eq hn hrange, hd]
    simp
  simp only [hshrink, hdelete]
  omega

def trio : Vdll Nat where
  nodes node :=
    if node = 32 then some ⟨0, 0, 64⟩
    else if node = 64 then some ⟨1, 32, 96⟩
    else if node = 96 then some ⟨2, 64, 0⟩
    else none
  ptr := 96
  pos := 2
  cap := 3

theorem trio_holds : Holds trio [(32, 0), (64, 1), (96, 2)] := by
  refine ⟨⟨⟨by decide, by decide, ?_⟩, fun node => ?_, by decide, rfl, Or.inr rfl⟩, by decide⟩
  · simp [Library.Joined, Vdll.nextOf, Vdll.prevOf, trio]
  · simp only [Vdll.dataOf, trio, List.map_cons, List.map_nil]
    split_ifs <;> simp_all

theorem delete_range_trio :
    trio.Holds [(32, 0), (64, 1), (96, 2)] ∧
      (0 + 2 ≤ 3 → ((∃ dll', vdllDelete trio 0 2 = some (dll', 0) ∧ Holds dll' [(96, 2)]) ↔
        2 = 1 ∨ 0 = 0)) ∧
      (2 ≤ 3 → ((∃ dll', vdllShrink trio 2 = some (dll', 0) ∧ Holds dll' [(32, 0)]) ↔
        2 = 1 ∨ 2 = 3)) :=
  ⟨trio_holds, delete_range trio_holds (by decide)⟩

/-- Told to take out the last two of three elements, it takes out the first two. -/
theorem delete_takes_first :
    trio.Holds [(32, 0), (64, 1), (96, 2)] ∧
      (¬ ∃ dll', vdllDelete trio 1 2 = some (dll', 0) ∧ Holds dll' [(32, 0)]) ∧
      ¬ ∃ dll', vdllShrink trio 2 = some (dll', 0) ∧ Holds dll' [(32, 0)] := by
  have hdelete : (vdllDelete trio 1 2).map (fun r => r.1.dataOf 32) = some none := rfl
  have hshrink : (vdllShrink trio 2).map (fun r => r.1.dataOf 32) = some none := rfl
  refine ⟨trio_holds, ?_, ?_⟩
  · rintro ⟨dll', hr, h⟩
    rw [hr, Option.map_some, h.data (32, 0) (by simp)] at hdelete
    cases hdelete
  · rintro ⟨dll', hr, h⟩
    rw [hr, Option.map_some, h.data (32, 0) (by simp)] at hshrink
    cases hshrink

end Deletion

section Insertion

variable {answers : VdllAnswers Elem}

theorem fresh_not_mem (h : Holds dll es) (hanswers : Granted dll answers n)
    {fresh : List (Nat × Elem)} (hperm : fresh.Perm ((List.range n).filterMap answers))
    {e : Nat × Elem} (he : e ∈ fresh) : e ∉ es := by
  obtain ⟨i, hi, hanswer⟩ := List.mem_filterMap.mp (hperm.mem_iff.mp he)
  obtain ⟨answer, hmem, hunused, -⟩ := hanswers i (List.mem_range.mp hi)
  obtain rfl : answer = e := Option.some.inj ((Option.mem_def.mp hmem).symm.trans hanswer)
  exact fun hold => hunused.not_mem h.shape (List.mem_map_of_mem hold)

theorem misplaced (h : Holds dll es) (hanswers : Granted dll answers n)
    {fresh fresh' : List (Nat × Elem)} (hperm : fresh.Perm ((List.range n).filterMap answers))
    (hlength : fresh.length ≠ 0) {i : Nat} (hi : i < es.length) {A B A' B' : List (Nat × Elem)}
    (hold : A ++ fresh' ++ B = A' ++ fresh ++ B') (hA : A[i]? = es[i]?) (hA' : A'.length = i) :
    False := by
  have hget := congrArg (fun r => r[i]?) hold
  have hlt : i < A.length := by
    rw [List.getElem?_eq_getElem hi] at hA
    exact (List.getElem?_eq_some_iff.mp hA).1
  rw [List.append_assoc, List.getElem?_append_left hlt, hA, List.append_assoc,
    List.getElem?_append_right (Nat.le_of_eq hA'), hA', Nat.sub_self,
    List.getElem?_append_left (Nat.pos_of_ne_zero hlength), List.getElem?_eq_getElem hi] at hget
  have hmem : es[i] ∈ fresh := List.mem_of_getElem? hget.symm
  exact fresh_not_mem h hanswers hperm hmem (List.getElem_mem hi)

theorem Holds.insert_iff (h : Holds dll es) (hn : n ≠ 0) (hanswers : Granted dll answers n)
    (hpos : pos < es.length ∨ es = [] ∧ pos = 0) :
    (∃ dll' fresh, vdllInsert answers dll pos n = some (dll', 0) ∧
      fresh.Perm ((List.range n).filterMap answers) ∧
      Holds dll' (es.take pos ++ fresh ++ es.drop pos)) ↔ es = [] := by
  obtain ⟨d, fresh, hinsert, hperm, hlength, hd⟩ := h.insert false hn hpos hanswers
  constructor
  · rintro ⟨dll', fresh', hinsert', hperm', hdll'⟩
    by_contra hne
    have hlt : pos < es.length := hpos.resolve_right fun he => hne he.1
    obtain ⟨rfl, -⟩ := Prod.mk.inj (Option.some.inj (hinsert.symm.trans hinsert'))
    refine misplaced h hanswers hperm' ?_ hlt (hd.unique hdll') ?_ ?_
    · rwa [hperm'.length_eq, ← hperm.length_eq, hlength]
    · exact List.getElem?_take_of_lt (Nat.lt_succ_self pos)
    · rw [List.length_take, Nat.min_eq_left (Nat.le_of_lt hlt)]
  · rintro rfl
    refine ⟨d, fresh, hinsert, hperm, ?_⟩
    simpa using hd

theorem Holds.grow_iff (h : Holds dll es) (hn : n ≠ 0) (hanswers : Granted dll answers n) :
    (∃ dll' fresh, vdllGrow answers dll n = some (dll', 0) ∧
      fresh.Perm ((List.range n).filterMap answers) ∧ Holds dll' (es ++ fresh)) ↔ es = [] := by
  have hlast : es.length - 1 < es.length ∨ es = [] ∧ es.length - 1 = 0 := by
    rw [← List.length_eq_zero_iff]
    omega
  obtain ⟨d, fresh, hinsert, hperm, hlength, hd⟩ := h.insert true hn hlast hanswers
  have hgrow : vdllGrow answers dll n = some (d, 0) := by
    rw [h.grow_eq answers hn, hinsert]
    rfl
  constructor
  · rintro ⟨dll', fresh', hgrow', hperm', hdll'⟩
    by_contra hne
    have hlt : es.length - 1 < es.length := hlast.resolve_right fun he => hne he.1
    obtain ⟨rfl, -⟩ := Prod.mk.inj (Option.some.inj (hgrow.symm.trans hgrow'))
    rw [← List.append_nil (es ++ fresh')] at hdll'
    refine misplaced h hanswers hperm ?_ hlt (hdll'.unique hd) rfl ?_
    · rwa [hlength]
    · exact List.length_take_of_le (Nat.sub_le _ _)
  · rintro rfl
    refine ⟨d, fresh, hgrow, hperm, ?_⟩
    simpa using hd

/-- An insertion puts the new elements before the one at its position, and a growth puts them
after the last, just on an empty list. -/
theorem insert_place (h : Holds dll es) (hn : n ≠ 0) (hanswers : Granted dll answers n) :
    (pos < es.length ∨ es = [] ∧ pos = 0 →
      ((∃ dll' fresh, vdllInsert answers dll pos n = some (dll', 0) ∧
        fresh.Perm ((List.range n).filterMap answers) ∧
        Holds dll' (es.take pos ++ fresh ++ es.drop pos)) ↔ es = [])) ∧
    ((∃ dll' fresh, vdllGrow answers dll n = some (dll', 0) ∧
      fresh.Perm ((List.range n).filterMap answers) ∧ Holds dll' (es ++ fresh)) ↔ es = []) :=
  ⟨h.insert_iff hn hanswers, h.grow_iff hn hanswers⟩

def threeMore : VdllAnswers Nat := fun i => some (32 * i + 128, 7)

theorem insert_place_empty :
    Holds (⟨fun _ => none, 0, 0, 0⟩ : Vdll Nat) [] ∧
      Granted (⟨fun _ => none, 0, 0, 0⟩ : Vdll Nat) threeMore 3 ∧
      (0 < 0 ∨ ([] : List (Nat × Nat)) = [] ∧ 0 = 0 →
        ((∃ dll' fresh, vdllInsert threeMore ⟨fun _ => none, 0, 0, 0⟩ 0 3 = some (dll', 0) ∧
          fresh.Perm ((List.range 3).filterMap threeMore) ∧ Holds dll' ([] ++ fresh ++ [])) ↔
          ([] : List (Nat × Nat)) = [])) ∧
      ((∃ dll' fresh, vdllGrow threeMore ⟨fun _ => none, 0, 0, 0⟩ 3 = some (dll', 0) ∧
        fresh.Perm ((List.range 3).filterMap threeMore) ∧ Holds dll' ([] ++ fresh)) ↔
        ([] : List (Nat × Nat)) = []) :=
  have hempty : Holds (⟨fun _ => none, 0, 0, 0⟩ : Vdll Nat) [] :=
    ⟨Shape.init (show vdllCreate true 1 = some _ from rfl), nofun⟩
  have hgranted : Granted (⟨fun _ => none, 0, 0, 0⟩ : Vdll Nat) threeMore 3 := by decide
  ⟨hempty, hgranted, insert_place hempty (by decide) hgranted⟩

/-- One element inserted before the second of three stands after it, and one grown on to
three stands before the last. -/
theorem insert_behind :
    trio.Holds [(32, 0), (64, 1), (96, 2)] ∧
      (¬ ∃ dll', vdllInsert threeMore trio 1 1 = some (dll', 0) ∧
        Holds dll' [(32, 0), (128, 7), (64, 1), (96, 2)]) ∧
      ¬ ∃ dll', vdllGrow threeMore trio 1 = some (dll', 0) ∧
        Holds dll' [(32, 0), (64, 1), (96, 2), (128, 7)] := by
  have hinsert : (vdllInsert threeMore trio 1 1).map (fun r => r.1.nextOf 32) = some (some 64) :=
    rfl
  have hgrow : (vdllGrow threeMore trio 1).map (fun r => r.1.nextOf 96) = some (some 0) := rfl
  refine ⟨trio_holds, ?_, ?_⟩
  · rintro ⟨dll', hr, h⟩
    rw [hr, Option.map_some, h.shape.chain.next_getElem? (i := 0) rfl] at hinsert
    cases hinsert
  · rintro ⟨dll', hr, h⟩
    rw [hr, Option.map_some, h.shape.chain.next_getElem? (i := 2) rfl] at hgrow
    cases hgrow

end Insertion

end Dert.Vdll
