import Dert.Store.VdllElements

universe u

namespace Dert.Vdll

open Library

variable {Elem : Type u} {dll dll' : Vdll Elem} {l : List Nat} {es : List (Nat × Elem)}
  {pos n i left : Nat}

section Overrun

theorem windLoop_append {cap rest : Nat}
    (h : vdllWindLoop cap left i dll = some (dll', i + left)) :
    vdllWindLoop cap (left + rest) i dll = vdllWindLoop cap rest (i + left) dll' := by
  induction left generalizing i dll with
  | zero =>
    obtain ⟨rfl, -⟩ := Prod.mk.inj (Option.some.inj h)
    rw [Nat.zero_add, Nat.add_zero]
  | succ left ih =>
    rw [Nat.add_right_comm]
    simp only [vdllWindLoop] at h ⊢
    by_cases hcap : i + 1 < cap
    · rw [if_pos hcap] at h ⊢
      obtain ⟨node, hnode, hloop⟩ := Option.bind_eq_some_iff.mp h
      rw [hnode, Option.bind_eq_bind, Option.bind_some,
        ih (hloop.trans (by rw [Nat.add_right_comm, Nat.add_assoc])),
        Nat.add_right_comm, Nat.add_assoc]
    · rw [if_neg hcap] at h
      obtain ⟨-, hsame⟩ := Prod.mk.inj (Option.some.inj h)
      omega

theorem Shape.null (h : Shape dll l) : dll.nodes 0 = none := by
  cases hnode : dll.nodes 0 with
  | none => rfl
  | some n => exact absurd ((h.nodes 0).mpr (exists_node.mpr ⟨n, hnode⟩)) h.chain.real

theorem Shape.windLoop_moves (h : Shape dll l) {k j : Nat} (hcap : k < l.length)
    (hto : dll.pos + k = j) (hlast : j ≤ l.length) :
    vdllWindLoop dll.cap k 0 dll = some (moveTo dll l j, 0 + k) := by
  have hbound : 0 + k < dll.cap := by rwa [h.cap, Nat.zero_add]
  have hloop : vdllWindLoop dll.cap k 0 (moveTo dll l dll.pos) = some _ :=
    windLoop_eq h.chain h.length_lt hbound (by rwa [hto])
  rwa [h.moveTo_self, hto] at hloop

/-- From behind the first node, the bound on the steps of a wind lets it step off the last. -/
theorem Shape.wind_overrun (h : Shape dll l) (hpos : 0 < dll.pos) (hlast : l.length ≤ dll.pos + n) :
    vdllWind dll n = none ∨ ∃ code, vdllWind dll n = some (moveTo dll l l.length, code) := by
  have hne : l ≠ [] := by
    rintro rfl
    exact absurd (h.cursor.resolve_right (by simp)).2.1 (Nat.ne_of_gt hpos)
  have hlt := h.pos_lt hne
  have hsteps := h.windLoop_moves (by omega) (Nat.add_sub_cancel' (Nat.le_of_lt hlt)) (Nat.le_refl _)
  have hnull : (moveTo dll l l.length).nodes (moveTo dll l l.length).ptr = none := by
    rw [show (moveTo dll l l.length).ptr = 0 by simp [moveTo]]
    exact h.null
  obtain ⟨rest, rfl⟩ : ∃ rest, n = l.length - dll.pos + rest := ⟨n - (l.length - dll.pos), by omega⟩
  rw [vdllWind, if_neg (h.ptr_ne_zero hne), windLoop_append hsteps]
  cases rest with
  | zero => exact Or.inr ⟨_, rfl⟩
  | succ rest =>
    rw [vdllWindLoop]
    split_ifs
    · rw [hnull]
      exact Or.inl rfl
    · exact Or.inr ⟨_, rfl⟩

/-- From the first node, the bound on the steps of a wind holds it back on the last. -/
theorem Shape.wind_stops (h : Shape dll l) (hne : l ≠ []) (hpos : dll.pos = 0)
    (hlast : l.length ≤ n) : vdllWind dll n = some (moveTo dll l (l.length - 1), 2) := by
  have hlength : l.length ≠ 0 := fun he => hne (List.length_eq_zero_iff.mp he)
  have hsteps := h.windLoop_moves (k := l.length - 1) (j := l.length - 1) (by omega) (by omega)
    (Nat.sub_le _ _)
  obtain ⟨rest, rfl⟩ : ∃ rest, n = l.length - 1 + (rest + 1) := ⟨n - l.length, by omega⟩
  have hstop : ¬ 0 + (l.length - 1) + 1 < dll.cap := by
    rw [h.cap]
    omega
  rw [vdllWind, if_neg (h.ptr_ne_zero hne), windLoop_append hsteps, vdllWindLoop, if_neg hstop]
  simp only [Option.bind_eq_bind, Option.bind_some]
  rw [if_pos (by omega)]

theorem not_shape_off (h : Shape dll l) (hne : l ≠ []) (l' : List Nat) :
    ¬ Shape (moveTo dll l l.length) l' := fun hoff => by
  have hnodes : l' = l := hoff.chain.unique h.chain fun z => (hoff.nodes z).trans (h.nodes z).symm
  rw [hnodes] at hoff
  exact absurd (hoff.pos_lt hne) (Nat.lt_irrefl _)

theorem delete_of_wind {d : Vdll Elem} {code : Nat} (hn : n ≠ 0)
    (hseek : vdllSeek dll pos = some (dll', 0))
    (hwind : vdllWind dll' (n - 1) = some (d, code)) (hcode : code ≠ 0) :
    vdllDelete dll pos n = some (d, 2) := by
  rw [vdllDelete, if_neg hn, hseek]
  simp only [Option.bind_eq_bind, Option.bind_some, ne_eq, not_true_eq_false, if_false, hwind]
  rw [if_pos hcode]

theorem Shape.delete_overrun (h : Shape dll l) (hpos : 0 < pos) (hlt : pos < l.length)
    (hlong : l.length < pos + n) :
    vdllDelete dll pos n = none ∨ vdllDelete dll pos n = some (moveTo dll l l.length, 2) := by
  have hn : n ≠ 0 := by omega
  have hoff := (h.moved hlt).wind_overrun hpos (n := n - 1)
    (show l.length ≤ pos + (n - 1) by omega)
  have hseek := h.seek_eq (Or.inl hlt)
  rcases hoff with hnone | ⟨code, hwind⟩
  · rw [vdllDelete, if_neg hn, hseek]
    simp only [Option.bind_eq_bind, Option.bind_some, ne_eq, not_true_eq_false, if_false]
    rw [hnone]
    exact Or.inl rfl
  · refine Or.inr ?_
    by_cases hcode : code = 0
    · have hrewind : vdllRewind (moveTo dll l l.length) (n - 1) = some (moveTo dll l l.length, 1) :=
        if_pos (by simp [moveTo])
      rw [vdllDelete, if_neg hn, hseek]
      simp only [Option.bind_eq_bind, Option.bind_some, ne_eq, not_true_eq_false, if_false, hwind,
        hcode]
      rw [show moveTo (moveTo dll l pos) l l.length = moveTo dll l l.length from rfl, hrewind]
      rfl
    · exact delete_of_wind hn hseek hwind hcode

end Overrun

section Deletion

/-- What a call that is refused leaves: the nodes as they were, and every element within reach. -/
def Refused (dll : Vdll Elem) (es : List (Nat × Elem)) (r : Option (Vdll Elem × Nat)) : Prop :=
  ∃ dll' code, r = some (dll', code) ∧ code ≠ 0 ∧ dll'.nodes = dll.nodes ∧ Holds dll' es ∧
    ∀ i node, (es.map Prod.fst)[i]? = some node → Reaches dll' i node

theorem Holds.moved (h : Holds dll es) (hpos : pos < es.length) :
    Holds (moveTo dll (es.map Prod.fst) pos) es :=
  ⟨h.shape.moved (by rwa [List.length_map]), h.data⟩

theorem Holds.refused {code : Nat} (h : Holds dll' es) (hnodes : dll'.nodes = dll.nodes)
    (hcode : code ≠ 0) : Refused dll es (some (dll', code)) :=
  ⟨dll', code, rfl, hcode, hnodes, h, fun _ _ => h.shape.reaches⟩

theorem Holds.cap (h : Holds dll es) : dll.cap = es.length := by rw [h.shape.cap, List.length_map]

theorem first_of_empty (es : List (Nat × Elem)) (pos : Nat) :
    (es ≠ [] ∨ pos ≠ 0) ∨ es = [] ∧ pos = 0 := by
  tauto

theorem Holds.seek_refused (h : Holds dll es) (hlong : es.length ≤ pos)
    (hempty : es ≠ [] ∨ pos ≠ 0) : vdllSeek dll pos = some (dll, 2) := by
  have hfirst : ¬ (dll.pos = 0 ∧ dll.cap = 0 ∧ pos = 0) := by
    rw [h.cap, List.length_eq_zero_iff]
    rintro ⟨-, hnil, hzero⟩
    exact hempty.elim (fun hne => hne hnil) fun hne => hne hzero
  exact if_pos ⟨hfirst, by rwa [h.cap]⟩

theorem Holds.seek_empty (h : Holds dll []) : vdllSeek dll 0 = some (dll, 0) := by
  have hseek := h.shape.seek_eq (Or.inr ⟨rfl, rfl⟩)
  have hpos : dll.pos = 0 := (h.shape.cursor.resolve_right (by simp)).2.1
  have hself := h.shape.moveTo_self
  rw [hpos] at hself
  rwa [hself] at hseek

theorem Holds.ptr_empty (h : Holds dll []) : dll.ptr = 0 :=
  (h.shape.cursor.resolve_right (by simp)).2.2

theorem Holds.delete_past (h : Holds dll es) (hn : n ≠ 0) (hlong : es.length ≤ pos) :
    vdllDelete dll pos n = some (dll, 2) := by
  rcases first_of_empty es pos with hempty | ⟨rfl, rfl⟩
  · rw [vdllDelete, if_neg hn, h.seek_refused hlong hempty]
    rfl
  · have hwind : vdllWind dll (n - 1) = some (dll, 1) := if_pos h.ptr_empty
    exact delete_of_wind hn h.seek_empty hwind (by decide)

theorem Holds.delete_first (h : Holds dll es) (hne : es ≠ []) (hlong : es.length < n) :
    vdllDelete dll 0 n = some (moveTo dll (es.map Prod.fst) (es.length - 1), 2) := by
  have hlength : 0 < es.length := List.length_pos_iff.mpr hne
  have hn : n ≠ 0 := by omega
  have hlt : 0 < (es.map Prod.fst).length := by rwa [List.length_map]
  have hne' : es.map Prod.fst ≠ [] := List.length_pos_iff.mp hlt
  have hwind := (h.shape.moved hlt).wind_stops hne' rfl (n := n - 1)
    (by rw [List.length_map]; omega)
  rw [List.length_map] at hwind
  exact delete_of_wind hn (h.shape.seek_eq (Or.inl hlt)) hwind (by decide)

theorem Holds.not_refused_overrun (h : Holds dll es) (hpos : 0 < pos) (hlt : pos < es.length)
    (hlong : es.length < pos + n) : ¬ Refused dll es (vdllDelete dll pos n) := by
  have hne : es.map Prod.fst ≠ [] := by
    rw [← List.length_pos_iff, List.length_map]
    omega
  rintro ⟨dll', code, hr, -, -, h', -⟩
  rcases h.shape.delete_overrun hpos (by rwa [List.length_map]) (by rwa [List.length_map])
    with hnone | hoff
  · cases hnone.symm.trans hr
  · obtain ⟨rfl, -⟩ := Prod.mk.inj (Option.some.inj (hoff.symm.trans hr))
    exact not_shape_off h.shape hne _ h'.shape

/-- A deletion of more elements than there are from its position on is refused just at the
first position and past the last; at any other the cursor is lost, or NULL is followed. A
shrink by more elements than there are is always refused. -/
theorem delete_refused_iff (h : Holds dll es) (hn : n ≠ 0) :
    (es.length < pos + n →
      (Refused dll es (vdllDelete dll pos n) ↔ pos = 0 ∨ es.length ≤ pos)) ∧
    (es.length < n → n < sizeMax → Refused dll es (vdllShrink dll n)) := by
  refine ⟨fun hlong => ⟨fun hrefused => ?_, fun hpos => ?_⟩, fun hlong hsize => ?_⟩
  · by_contra hpos
    rw [not_or, Nat.not_le] at hpos
    exact h.not_refused_overrun (Nat.pos_of_ne_zero hpos.1) hpos.2 hlong hrefused
  · by_cases hpast : es.length ≤ pos
    · rw [h.delete_past hn hpast]
      exact h.refused rfl (by decide)
    · obtain rfl : pos = 0 := hpos.resolve_right hpast
      have hne : es ≠ [] := fun hnil => hpast (by rw [hnil]; exact Nat.le_refl 0)
      rw [h.delete_first hne (by rwa [Nat.zero_add] at hlong)]
      exact (h.moved (by omega)).refused rfl (by decide)
  · have hlt := h.length_lt
    have hpos : sizeT (es.length + (sizeMax - n)) = es.length + (sizeMax - n) :=
      sizeT_of_lt (by omega)
    rw [vdllShrink, if_neg hn, h.cap, hpos, h.delete_past hn (by omega)]
    exact h.refused rfl (by decide)

theorem delete_refused_trio :
    trio.Holds [(32, 0), (64, 1), (96, 2)] ∧
      (3 < 0 + 4 → (Refused trio [(32, 0), (64, 1), (96, 2)] (vdllDelete trio 0 4) ↔
        0 = 0 ∨ 3 ≤ 0)) ∧
      (3 < 4 → 4 < sizeMax →
        Refused trio [(32, 0), (64, 1), (96, 2)] (vdllShrink trio 4)) :=
  ⟨trio_holds, delete_refused_iff trio_holds (by decide)⟩

/-- Told to take out the last two and one more, it leaves the cursor off the list. -/
theorem delete_loses_cursor :
    trio.Holds [(32, 0), (64, 1), (96, 2)] ∧
      ¬ Refused trio [(32, 0), (64, 1), (96, 2)] (vdllDelete trio 1 3) :=
  ⟨trio_holds, trio_holds.not_refused_overrun (by decide) (by decide) (by decide)⟩

end Deletion

section Access

variable {src : Elem}

structure GetLaw (dll : Vdll Elem) (es : List (Nat × Elem)) (pos : Nat) : Prop where
  found : ∀ e, es[pos]? = some e → ∃ dll', vdllGet dll pos = some (dll', 0, e.2) ∧ Holds dll' es
  refused : es.length ≤ pos → ∃ code data, vdllGet dll pos = some (dll, code, data) ∧ code ≠ 0

structure GetDirectLaw (dll : Vdll Elem) (es : List (Nat × Elem)) (pos : Nat) : Prop where
  found : ∀ e, es[pos]? = some e → ∃ dll', vdllGetDirect dll pos = some (dll', e.1) ∧ Holds dll' es
  refused : es.length ≤ pos → vdllGetDirect dll pos = some (dll, 0)

structure SetLaw (dll : Vdll Elem) (es : List (Nat × Elem)) (pos : Nat) (src : Elem) : Prop where
  found : ∀ e, es[pos]? = some e →
    ∃ dll', vdllSet dll pos src = some (dll', 0) ∧ Holds dll' (es.set pos (e.1, src))
  refused : es.length ≤ pos → ∃ code, vdllSet dll pos src = some (dll, code) ∧ code ≠ 0

theorem Holds.getElem_node {e : Nat × Elem} (he : es[pos]? = some e) :
    ∃ hlt : pos < (es.map Prod.fst).length, (es.map Prod.fst)[pos] = e.1 := by
  obtain ⟨hlt, rfl⟩ := List.getElem?_eq_some_iff.mp he
  exact ⟨by rwa [List.length_map], List.getElem_map _⟩

theorem Holds.get_found (h : Holds dll es) {e : Nat × Elem} (he : es[pos]? = some e) :
    ∃ dll', vdllGet dll pos = some (dll', 0, e.2) ∧ Holds dll' es := by
  obtain ⟨hlt, hnode⟩ := Holds.getElem_node he
  obtain ⟨n, hn, hget⟩ := h.shape.get hlt
  have hdata : n.data = e.2 := by
    have hsome := h.data e (List.mem_of_getElem? he)
    rw [hnode] at hn
    rw [Vdll.dataOf, hn] at hsome
    exact Option.some.inj hsome
  exact ⟨_, hdata ▸ hget, h.moved (by rwa [List.length_map] at hlt)⟩

theorem getDirect_of_seek (hseek : vdllSeek dll pos = some (dll', 0)) :
    vdllGetDirect dll pos = (dll'.nodes dll'.ptr).map fun _ => (dll', dll'.ptr) := by
  rw [vdllGetDirect, hseek]
  simp only [Option.bind_eq_bind, Option.bind_some, ne_eq, not_true_eq_false, if_false]
  cases dll'.nodes dll'.ptr <;> rfl

theorem Holds.getDirect_found (h : Holds dll es) {e : Nat × Elem} (he : es[pos]? = some e) :
    ∃ dll', vdllGetDirect dll pos = some (dll', e.1) ∧ Holds dll' es := by
  obtain ⟨hlt, hnode⟩ := Holds.getElem_node he
  obtain ⟨n, hn⟩ := exists_node.mp ((h.shape.nodes e.1).mp (hnode ▸ List.getElem_mem hlt))
  have hptr : (moveTo dll (es.map Prod.fst) pos).ptr = e.1 := by
    rw [moveTo, List.getElem?_eq_getElem hlt, hnode]
    rfl
  refine ⟨_, ?_, h.moved (by rwa [List.length_map] at hlt)⟩
  rw [getDirect_of_seek (h.shape.seek_eq (Or.inl hlt)), hptr,
    show (moveTo dll (es.map Prod.fst) pos).nodes e.1 = some n from hn, Option.map_some]

theorem Holds.set_found (h : Holds dll es) (src : Elem) {e : Nat × Elem} (he : es[pos]? = some e) :
    ∃ dll', vdllSet dll pos src = some (dll', 0) ∧ Holds dll' (es.set pos (e.1, src)) := by
  obtain ⟨hlt, hnode⟩ := Holds.getElem_node he
  obtain ⟨dll', hset, hshape, hdata⟩ := h.shape.set hlt src
  rw [hnode] at hdata
  have hsame : (es.set pos (e.1, src)).map Prod.fst = es.map Prod.fst := by
    rw [List.map_set, ← hnode, List.set_getElem_self]
  refine ⟨dll', hset, hsame ▸ hshape, fun a ha => ?_⟩
  obtain ⟨i, hi, rfl⟩ := List.getElem_of_mem ha
  rw [List.length_set] at hi
  rw [hdata, List.getElem_set]
  split_ifs with hpos
  · rw [Function.update_self]
  · have hne : es[i].1 ≠ e.1 := fun heq => by
      have hi' : i < (es.map Prod.fst).length := by rwa [List.length_map]
      have hsame' : (es.map Prod.fst)[i] = (es.map Prod.fst)[pos] := by
        rw [List.getElem_map, hnode]
        exact heq
      exact hpos (h.shape.chain.nodup.getElem_inj_iff.mp hsame').symm
    rw [Function.update_of_ne hne, h.data _ (List.getElem_mem hi)]

theorem Holds.getDirect_past (h : Holds dll es) (hlong : es.length ≤ pos)
    (hempty : es ≠ [] ∨ pos ≠ 0) : vdllGetDirect dll pos = some (dll, 0) := by
  rw [vdllGetDirect, h.seek_refused hlong hempty]
  rfl

theorem Holds.getDirect_empty (h : Holds dll []) : vdllGetDirect dll 0 = none := by
  rw [getDirect_of_seek h.seek_empty, h.ptr_empty, h.shape.null, Option.map_none]

theorem Holds.get_past (h : Holds dll es) (hlong : es.length ≤ pos) : vdllGet dll pos = none := by
  rw [vdllGet]
  rcases first_of_empty es pos with hempty | ⟨rfl, rfl⟩
  · rw [h.getDirect_past hlong hempty]
    simp only [Option.bind_eq_bind, Option.bind_some, h.shape.null]
    rfl
  · rw [h.getDirect_empty]
    rfl

theorem Holds.set_past (h : Holds dll es) (hlong : es.length ≤ pos)
    (hempty : es ≠ [] ∨ pos ≠ 0) : vdllSet dll pos src = some (dll, 2) := by
  rw [vdllSet, h.seek_refused hlong hempty]
  rfl

theorem Holds.set_empty (h : Holds dll []) : vdllSet dll 0 src = none := by
  rw [vdllSet, h.seek_empty]
  simp only [Option.bind_eq_bind, Option.bind_some, ne_eq, not_true_eq_false, if_false]
  rw [h.ptr_empty, h.shape.null]
  rfl

theorem Holds.getLaw_iff (h : Holds dll es) : GetLaw dll es pos ↔ pos < es.length := by
  refine ⟨fun hlaw => ?_, fun hlt => ⟨fun e => h.get_found, fun hlong => ?_⟩⟩
  · by_contra hlong
    obtain ⟨code, data, hget, -⟩ := hlaw.refused (Nat.not_lt.mp hlong)
    cases (h.get_past (Nat.not_lt.mp hlong)).symm.trans hget
  · exact absurd hlt (Nat.not_lt.mpr hlong)

theorem Holds.getDirectLaw_iff (h : Holds dll es) :
    GetDirectLaw dll es pos ↔ es ≠ [] ∨ pos ≠ 0 := by
  refine ⟨fun hlaw => ?_, fun hempty => ⟨fun e => h.getDirect_found, fun hlong => ?_⟩⟩
  · refine (first_of_empty es pos).resolve_right ?_
    rintro ⟨rfl, rfl⟩
    cases h.getDirect_empty.symm.trans (hlaw.refused (Nat.le_refl 0))
  · exact h.getDirect_past hlong hempty

theorem Holds.setLaw_iff (h : Holds dll es) : SetLaw dll es pos src ↔ es ≠ [] ∨ pos ≠ 0 := by
  refine ⟨fun hlaw => ?_, fun hempty => ⟨fun e => h.set_found src, fun hlong => ?_⟩⟩
  · refine (first_of_empty es pos).resolve_right ?_
    rintro ⟨rfl, rfl⟩
    obtain ⟨code, hset, -⟩ := hlaw.refused (Nat.le_refl 0)
    cases h.set_empty.symm.trans hset
  · exact ⟨2, h.set_past hlong hempty, by decide⟩

/-- The three accessors keep their laws just in range, where `vdll_get` is what fails; the other
two fail on the first position of the empty list. -/
theorem access_iff (h : Holds dll es) (pos : Nat) (src : Elem) :
    (GetLaw dll es pos ∧ GetDirectLaw dll es pos ∧ SetLaw dll es pos src ↔ pos < es.length) ∧
      (GetDirectLaw dll es pos ↔ es ≠ [] ∨ pos ≠ 0) ∧
      (SetLaw dll es pos src ↔ es ≠ [] ∨ pos ≠ 0) := by
  have hrange : pos < es.length → es ≠ [] ∨ pos ≠ 0 := fun hlt =>
    Or.inl (List.length_pos_iff.mp (Nat.zero_lt_of_lt hlt))
  refine ⟨?_, h.getDirectLaw_iff, h.setLaw_iff⟩
  rw [h.getLaw_iff, h.getDirectLaw_iff, h.setLaw_iff]
  exact ⟨fun hlaw => hlaw.1, fun hlt => ⟨hlt, hrange hlt, hrange hlt⟩⟩

theorem access_trio :
    (GetLaw trio [(32, 0), (64, 1), (96, 2)] 1 ∧ GetDirectLaw trio [(32, 0), (64, 1), (96, 2)] 1 ∧
        SetLaw trio [(32, 0), (64, 1), (96, 2)] 1 7 ↔ 1 < 3) ∧
      (GetDirectLaw trio [(32, 0), (64, 1), (96, 2)] 1 ↔
        [(32, 0), (64, 1), (96, 2)] ≠ [] ∨ 1 ≠ 0) ∧
      (SetLaw trio [(32, 0), (64, 1), (96, 2)] 1 7 ↔
        [(32, 0), (64, 1), (96, 2)] ≠ [] ∨ 1 ≠ 0) :=
  access_iff trio_holds 1 7

/-- One past the last of three elements, `vdll_get` follows NULL; on the list that has just been
created, each of the three does. -/
theorem access_follows_null :
    trio.Holds [(32, 0), (64, 1), (96, 2)] ∧ vdllGet trio 3 = none ∧
      ¬ GetLaw trio [(32, 0), (64, 1), (96, 2)] 3 ∧
      Holds (⟨fun _ => none, 0, 0, 0⟩ : Vdll Nat) [] ∧
      ¬ GetLaw (⟨fun _ => none, 0, 0, 0⟩ : Vdll Nat) [] 0 ∧
      ¬ GetDirectLaw (⟨fun _ => none, 0, 0, 0⟩ : Vdll Nat) [] 0 ∧
      ¬ SetLaw (⟨fun _ => none, 0, 0, 0⟩ : Vdll Nat) [] 0 7 := by
  have hempty : Holds (⟨fun _ => none, 0, 0, 0⟩ : Vdll Nat) [] :=
    ⟨Shape.init (show vdllCreate true 1 = some _ from rfl), nofun⟩
  refine ⟨trio_holds, rfl, ?_, hempty, ?_, ?_, ?_⟩
  · exact fun hlaw => absurd (trio_holds.getLaw_iff.mp hlaw) (by decide)
  · exact fun hlaw => absurd (hempty.getLaw_iff.mp hlaw) (by decide)
  · exact fun hlaw => absurd (hempty.getDirectLaw_iff.mp hlaw) (by decide)
  · exact fun hlaw => absurd (hempty.setLaw_iff.mp hlaw) (by decide)

end Access

end Dert.Vdll
