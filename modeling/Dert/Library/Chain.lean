import Mathlib.Data.List.Chain

universe u

namespace Dert.Library

variable {α : Type u}

def Joined (null : α) (next prev : α → Option α) (x y : α) : Prop :=
  (x ≠ null → next x = some y) ∧ (y ≠ null → prev y = some x)

/-- The cells of a doubly linked list, from first to last. -/
structure Chain (null : α) (next prev : α → Option α) (l : List α) : Prop where
  nodup : l.Nodup
  real : null ∉ l
  links : (null :: (l ++ [null])).IsChain (Joined null next prev)

namespace Chain

def before (null : α) (l : List α) : α := l.getLast?.getD null

def after (null : α) (r : List α) : α := r.head?.getD null

variable {null x new : α} {next prev next' prev' : α → Option α} {l r : List α}

theorem before_append (l : List α) (x : α) : before null (l ++ [x]) = x := by simp [before]

theorem before_mem (h : before null l ≠ null) : before null l ∈ l := by
  cases hl : l.getLast? with
  | none => simp [before, hl] at h
  | some x =>
    have hbefore : before null l = x := by simp [before, hl]
    rw [hbefore]
    exact List.mem_of_getLast? hl

theorem after_mem (h : after null r ≠ null) : after null r ∈ r := by
  cases r with
  | nil => exact absurd rfl h
  | cons x r => exact List.mem_cons_self

theorem links_append :
    (null :: (l ++ r ++ [null])).IsChain (Joined null next prev) ↔
      (null :: l).IsChain (Joined null next prev) ∧
        (r ++ [null]).IsChain (Joined null next prev) ∧
        Joined null next prev (before null l) (after null r) := by
  have hlast : (null :: l).getLast? = some (before null l) := by
    rw [List.getLast?_cons, before]
  have hhead : (r ++ [null]).head? = some (after null r) := by
    cases r with
    | nil => rfl
    | cons x r => rfl
  rw [List.append_assoc, ← List.cons_append, List.isChain_append, hlast, hhead]
  simp

theorem joined_congr {y : α} (h : Joined null next prev x y) (hnext : x ≠ null → next' x = next x)
    (hprev : y ≠ null → prev' y = prev y) : Joined null next' prev' x y :=
  ⟨fun hx => (hnext hx).trans (h.1 hx), fun hy => (hprev hy).trans (h.2 hy)⟩

theorem left_frame (hnodup : l.Nodup) (h : (null :: l).IsChain (Joined null next prev))
    (hnext : ∀ z ∈ l, z ≠ before null l → next' z = next z)
    (hprev : ∀ z ∈ l, prev' z = prev z) :
    (null :: l).IsChain (Joined null next' prev') := by
  rcases List.eq_nil_or_concat l with rfl | ⟨l, x, rfl⟩
  · exact List.isChain_singleton null
  · rw [List.concat_eq_append] at *
    have hx : x ∉ l := fun hmem =>
      (List.nodup_append.mp hnodup).2.2 x hmem x (List.mem_singleton_self x) rfl
    have hkeep : ∀ z ∈ l, next' z = next z := fun z hz =>
      hnext z (List.mem_append_left _ hz) (by rw [before_append]; exact fun heq => hx (heq ▸ hz))
    rw [← List.cons_append, List.isChain_append, List.getLast?_cons] at h ⊢
    refine ⟨h.1.imp_of_mem_imp fun a b ha hb hab => joined_congr hab ?_ ?_,
      List.isChain_singleton x, fun a ha b hb => joined_congr (h.2.2 a ha b hb) ?_ ?_⟩
    · exact fun hne => hkeep a ((List.mem_cons.mp ha).resolve_left hne)
    · exact fun hne => hprev b (List.mem_append_left _ ((List.mem_cons.mp hb).resolve_left hne))
    · obtain rfl : before null l = a := Option.some.inj ha
      exact fun hne => hkeep _ (before_mem hne)
    · obtain rfl : x = b := Option.some.inj hb
      exact fun _ => hprev x (by simp)

theorem right_frame (hnodup : r.Nodup) (h : (r ++ [null]).IsChain (Joined null next prev))
    (hnext : ∀ z ∈ r, next' z = next z)
    (hprev : ∀ z ∈ r, z ≠ after null r → prev' z = prev z) :
    (r ++ [null]).IsChain (Joined null next' prev') := by
  cases r with
  | nil => exact List.isChain_singleton null
  | cons x r =>
    obtain ⟨hx, -⟩ := List.nodup_cons.mp hnodup
    refine h.imp_of_mem_tail_imp fun a b ha hb hab => joined_congr hab (fun hne => ?_) fun hne => ?_
    · exact hnext a ((List.mem_append.mp ha).resolve_right (by simpa using hne))
    · have hmem : b ∈ r := (List.mem_append.mp hb).resolve_right (by simpa using hne)
      refine hprev b (List.mem_cons_of_mem x hmem) fun heq => hx ?_
      obtain rfl : b = x := heq
      exact hmem

theorem insert (h : Chain null next prev (l ++ r)) (hfresh : new ∉ l ++ r) (hreal : new ≠ null)
    (hin : before null l ≠ null → next' (before null l) = some new)
    (hback : prev' new = some (before null l)) (hon : next' new = some (after null r))
    (hout : after null r ≠ null → prev' (after null r) = some new)
    (hnext : ∀ z ∈ l ++ r, z ≠ before null l → next' z = next z)
    (hprev : ∀ z ∈ l ++ r, z ≠ after null r → prev' z = prev z) :
    Chain null next' prev' (l ++ new :: r) := by
  obtain ⟨hleft, hright, -⟩ := links_append.mp h.links
  obtain ⟨hl, hr, hlr⟩ := List.nodup_append.mp h.nodup
  have hrealL : ∀ z ∈ l, z ≠ null := fun z hz heq => h.real (by simp [← heq, hz])
  have hrealR : ∀ z ∈ r, z ≠ null := fun z hz heq => h.real (by simp [← heq, hz])
  refine ⟨?_, ?_, ?_⟩
  · exact List.perm_middle.nodup_iff.mpr (List.nodup_cons.mpr ⟨hfresh, h.nodup⟩)
  · rw [List.perm_middle.mem_iff, List.mem_cons]
    exact fun hmem => hmem.elim (fun heq => hreal heq.symm) h.real
  · refine links_append.mpr ⟨left_frame hl hleft ?_ ?_, ?_, ?_⟩
    · exact fun z hz => hnext z (List.mem_append_left r hz)
    · refine fun z hz => hprev z (List.mem_append_left r hz) fun heq => ?_
      exact hlr z hz _ (after_mem (heq ▸ hrealL z hz)) heq
    · refine List.IsChain.cons (right_frame hr hright ?_ ?_) fun y hy => ?_
      · refine fun z hz => hnext z (List.mem_append_right l hz) fun heq => ?_
        exact hlr _ (before_mem (heq ▸ hrealR z hz)) z hz heq.symm
      · exact fun z hz => hprev z (List.mem_append_right l hz)
      · have hy : y = after null r := by
          cases r with
          | nil => exact (Option.some.inj hy).symm
          | cons x r => exact (Option.some.inj hy).symm
        rw [hy]
        exact ⟨fun _ => hon, hout⟩
    · exact ⟨hin, fun _ => hback⟩

theorem remove (h : Chain null next prev (l ++ x :: r))
    (hin : before null l ≠ null → next' (before null l) = some (after null r))
    (hout : after null r ≠ null → prev' (after null r) = some (before null l))
    (hnext : ∀ z ∈ l ++ r, z ≠ before null l → next' z = next z)
    (hprev : ∀ z ∈ l ++ r, z ≠ after null r → prev' z = prev z) :
    Chain null next' prev' (l ++ r) := by
  obtain ⟨hleft, hright, -⟩ := links_append.mp h.links
  obtain ⟨hx, hlr⟩ := List.nodup_cons.mp (List.perm_middle.nodup_iff.mp h.nodup)
  obtain ⟨hl, hr, hdisjoint⟩ := List.nodup_append.mp hlr
  have hrealL : ∀ z ∈ l, z ≠ null := fun z hz heq => h.real (by simp [← heq, hz])
  have hrealR : ∀ z ∈ r, z ≠ null := fun z hz heq => h.real (by simp [← heq, hz])
  refine ⟨hlr, fun hmem => h.real (List.perm_middle.mem_iff.mpr (List.mem_cons_of_mem x hmem)),
    links_append.mpr ⟨left_frame hl hleft ?_ ?_, right_frame hr hright.tail ?_ ?_, hin, hout⟩⟩
  · exact fun z hz => hnext z (List.mem_append_left r hz)
  · refine fun z hz => hprev z (List.mem_append_left r hz) fun heq => ?_
    exact hdisjoint z hz _ (after_mem (heq ▸ hrealL z hz)) heq
  · refine fun z hz => hnext z (List.mem_append_right l hz) fun heq => ?_
    exact hdisjoint _ (before_mem (heq ▸ hrealR z hz)) z hz heq.symm
  · exact fun z hz => hprev z (List.mem_append_right l hz)

theorem nil : Chain null next prev [] :=
  ⟨List.nodup_nil, nofun, List.isChain_pair.mpr ⟨fun h => absurd rfl h, fun h => absurd rfl h⟩⟩

theorem next_eq (h : Chain null next prev (l ++ x :: r)) : next x = some (after null r) := by
  have hx : x ≠ null := fun heq => h.real (by simp [heq])
  have hlinks : (null :: (l ++ [x] ++ r ++ [null])).IsChain (Joined null next prev) := by
    rw [List.append_assoc l]
    exact h.links
  have hjoin := (links_append.mp hlinks).2.2.1
  rw [before_append] at hjoin
  exact hjoin hx

theorem next_getElem? (h : Chain null next prev l) {i : Nat} (hx : l[i]? = some x) :
    next x = some (l[i + 1]?.getD null) := by
  obtain ⟨hi, rfl⟩ := List.getElem?_eq_some_iff.mp hx
  have hsplit : l = l.take i ++ l[i] :: l.drop (i + 1) := by simp
  rw [hsplit] at h
  rw [h.next_eq, after, List.head?_drop]

theorem prev_eq (h : Chain null next prev (l ++ x :: r)) : prev x = some (before null l) := by
  have hx : x ≠ null := fun heq => h.real (by simp [heq])
  exact (links_append.mp h.links).2.2.2 hx

theorem prev_getElem? (h : Chain null next prev l) {i : Nat} (hx : l[i + 1]? = some x) :
    prev x = some (l[i]?.getD null) := by
  obtain ⟨hi, rfl⟩ := List.getElem?_eq_some_iff.mp hx
  have hsplit : l = l.take (i + 1) ++ l[i + 1] :: l.drop (i + 2) := by simp
  have hlast : (l.take (i + 1)).getLast? = l[i]? := by
    rw [List.getLast?_take]
    simp [List.getElem?_eq_getElem (Nat.lt_of_succ_lt hi)]
  rw [hsplit] at h
  rw [h.prev_eq, before, hlast]

theorem ne_null (h : Chain null next prev l) {i : Nat} (hx : l[i]? = some x) : x ≠ null :=
  fun heq => h.real (heq ▸ List.mem_of_getElem? hx)

theorem head_eq {l' : List α} (h : Chain null next prev l) (h' : Chain null next prev l')
    (hmem : ∀ z ∈ l, z ∈ l') (hx : l[0]? = some x) : l'[0]? = some x := by
  obtain ⟨j, hj⟩ := List.mem_iff_getElem?.mp (hmem x (List.mem_of_getElem? hx))
  cases j with
  | zero => exact hj
  | succ j =>
    have hlt : j < l'.length := Nat.lt_of_succ_lt (List.getElem?_eq_some_iff.mp hj).1
    obtain ⟨y, r, rfl⟩ : ∃ y r, l = y :: r := by
      cases l with
      | nil => cases hx
      | cons y r => exact ⟨y, r, rfl⟩
    obtain rfl : y = x := Option.some.inj hx
    have hnull : prev y = some null := prev_eq (l := []) h
    have hback := h'.prev_getElem? hj
    rw [List.getElem?_eq_getElem hlt, Option.getD_some, hnull] at hback
    exact absurd (Option.some.inj hback).symm (h'.ne_null (List.getElem?_eq_getElem hlt))

theorem unique {l' : List α} (h : Chain null next prev l) (h' : Chain null next prev l')
    (hmem : ∀ z, z ∈ l ↔ z ∈ l') : l = l' := by
  refine List.ext_getElem? fun i => ?_
  induction i with
  | zero =>
    refine Option.ext fun x => ⟨h.head_eq h' fun z => (hmem z).mp, ?_⟩
    exact h'.head_eq h fun z => (hmem z).mpr
  | succ i ih =>
    cases hi : l[i]? with
    | none =>
      have hle := List.getElem?_eq_none_iff.mp hi
      have hle' := List.getElem?_eq_none_iff.mp (ih.symm.trans hi)
      rw [List.getElem?_eq_none (by omega), List.getElem?_eq_none (by omega)]
    | some x =>
      have hnext := (h.next_getElem? hi).symm.trans (h'.next_getElem? (ih.symm.trans hi))
      have hsame := Option.some.inj hnext
      cases hy : l[i + 1]? with
      | none =>
        cases hy' : l'[i + 1]? with
        | none => rfl
        | some y' =>
          rw [hy, hy'] at hsame
          exact absurd hsame.symm (h'.ne_null hy')
      | some y =>
        cases hy' : l'[i + 1]? with
        | none =>
          rw [hy, hy'] at hsame
          exact absurd hsame (h.ne_null hy)
        | some y' =>
          rw [hy, hy'] at hsame
          exact congrArg some hsame

end Chain

end Dert.Library
