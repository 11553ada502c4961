import Mathlib.Order.Interval.Set.Basic
import Dert.Library.Inorder

universe u v

namespace Dert.Library.SearchTree

open BinaryTree

variable {α : Type u} {β : Type v} [LinearOrder β] {key : α → β} {t l r : BinaryTree α} {a b : α}
  {lo hi : β}

section Ends

theorem Ordered.head_le (h : Ordered key t) (ha : (inorder t).head? = some a) (hb : b ∈ inorder t) :
    key a ≤ key b := by
  obtain ⟨xs, hxs⟩ := List.head?_eq_some_iff.mp ha
  have hpw := h.pairwise
  rw [hxs, List.map_cons, List.pairwise_cons] at hpw
  rw [hxs, List.mem_cons] at hb
  rcases hb with rfl | hb
  · exact le_refl _
  · exact hpw.1 _ (List.mem_map_of_mem hb)

theorem Ordered.le_getLast (h : Ordered key t) (ha : (inorder t).getLast? = some a)
    (hb : b ∈ inorder t) : key b ≤ key a := by
  obtain ⟨xs, hxs⟩ := List.getLast?_eq_some_iff.mp ha
  have hpw := h.pairwise
  rw [hxs, List.map_append, List.pairwise_append] at hpw
  rw [hxs, List.mem_append, List.mem_singleton] at hb
  rcases hb with hb | rfl
  · exact hpw.2.2 _ (List.mem_map_of_mem hb) _ (by simp)
  · exact le_refl _

end Ends

section Range

variable (key lo hi)

def inRange (t : BinaryTree α) : List α :=
  (inorder t).filter fun b => lo ≤ key b ∧ key b ≤ hi

/-- The subtree below the first node in range on the way down. -/
def crown : BinaryTree α → BinaryTree α
  | .nil => .nil
  | .node a l r => if key a < lo then crown r else if hi < key a then crown l else .node a l r

variable {key lo hi}

theorem mem_inRange : b ∈ inRange key lo hi t ↔ b ∈ inorder t ∧ lo ≤ key b ∧ key b ≤ hi := by
  simp [inRange]

theorem inRange_node_of_lt (h : Ordered key (.node a l r)) (hlt : key a < lo) :
    inRange key lo hi (.node a l r) = inRange key lo hi r := by
  obtain ⟨hleft, -⟩ := h
  have hl : (inorder l).filter (fun b => lo ≤ key b ∧ key b ≤ hi) = [] := by
    rw [List.filter_eq_nil_iff]
    intro b hb
    simp [lt_trans (hleft b hb) hlt]
  rw [inRange, inorder_node, List.filter_append, hl, List.nil_append,
    List.filter_cons_of_neg (by simp [hlt]), inRange]

theorem inRange_node_of_gt (h : Ordered key (.node a l r)) (hlt : hi < key a) :
    inRange key lo hi (.node a l r) = inRange key lo hi l := by
  obtain ⟨-, hright, -⟩ := h
  have hr : (inorder r).filter (fun b => lo ≤ key b ∧ key b ≤ hi) = [] := by
    rw [List.filter_eq_nil_iff]
    intro b hb
    simp [lt_of_lt_of_le hlt (hright b hb)]
  rw [inRange, inorder_node, List.filter_append, List.filter_cons_of_neg (by simp [hlt]), hr,
    List.append_nil, inRange]

theorem inRange_node_of_mem (hlo : lo ≤ key a) (hhi : key a ≤ hi) :
    inRange key lo hi (.node a l r) = inRange key lo hi l ++ a :: inRange key lo hi r := by
  simp [inRange, hlo, hhi]

theorem pairwise_inRange (h : Ordered key t) :
    (inRange key lo hi t).Pairwise fun a b => key a ≤ key b :=
  (List.pairwise_map.mp h.pairwise).filter _

theorem head_inRange_le (h : Ordered key t) (ha : (inRange key lo hi t).head? = some a)
    (hb : b ∈ inRange key lo hi t) : key a ≤ key b := by
  obtain ⟨xs, hxs⟩ := List.head?_eq_some_iff.mp ha
  have hpw : (inRange key lo hi t).Pairwise fun a b => key a ≤ key b := pairwise_inRange h
  rw [hxs] at hpw hb
  rcases List.mem_cons.mp hb with rfl | hb
  · exact le_refl _
  · exact (List.pairwise_cons.mp hpw).1 b hb

theorem le_getLast_inRange (h : Ordered key t) (ha : (inRange key lo hi t).getLast? = some a)
    (hb : b ∈ inRange key lo hi t) : key b ≤ key a := by
  obtain ⟨xs, hxs⟩ := List.getLast?_eq_some_iff.mp ha
  have hpw : (inRange key lo hi t).Pairwise fun a b => key a ≤ key b := pairwise_inRange h
  rw [hxs] at hpw hb
  rcases List.mem_append.mp hb with hb | hb
  · exact (List.pairwise_append.mp hpw).2.2 b hb a (by simp)
  · rw [List.mem_singleton.mp hb]

theorem inRange_crown (h : Ordered key t) :
    inRange key lo hi (crown key lo hi t) = inRange key lo hi t := by
  induction t with
  | nil => rfl
  | node a l r ihl ihr =>
    obtain ⟨-, -, hl, hr⟩ := id h
    rw [crown]
    split_ifs with hlt hgt
    · rw [ihr hr, inRange_node_of_lt h hlt]
    · rw [ihl hl, inRange_node_of_gt h hgt]
    · rfl

theorem exists_plug_crown (C : Context α) (t : BinaryTree α) :
    ∃ D, plug D (crown key lo hi t) = plug C t := by
  induction t generalizing C with
  | nil => exact ⟨C, rfl⟩
  | node a l r ihl ihr =>
    rw [crown]
    split_ifs
    · exact ihr (.right l a :: C)
    · exact ihl (.left a r :: C)
    · exact ⟨C, rfl⟩

theorem crown_node (h : crown key lo hi t = .node a l r) : lo ≤ key a ∧ key a ≤ hi := by
  induction t with
  | nil => cases h
  | node b bl br ihl ihr =>
    rw [crown] at h
    split_ifs at h with hlt hgt
    · exact ihr h
    · exact ihl h
    · cases h
      exact ⟨not_lt.mp hlt, not_lt.mp hgt⟩

theorem crown_eq_nil (h : Ordered key t) : crown key lo hi t = .nil ↔ inRange key lo hi t = [] := by
  rw [← inRange_crown h]
  cases hc : crown key lo hi t with
  | nil => simp [inRange]
  | node a l r =>
    have ha : a ∈ inRange key lo hi (.node a l r) := mem_inRange.mpr ⟨by simp, crown_node hc⟩
    simp [List.ne_nil_of_mem ha]

end Range

section Checks

variable (key)

def LastChecked : BinaryTree α → Prop
  | .nil => True
  | .node a l r => LastChecked l ∧ LastChecked r ∧
      (∀ b, (inorder l).getLast? = some b → key b < key a) ∧
      ∀ b, (inorder r).getLast? = some b → key a ≤ key b

def FirstChecked : BinaryTree α → Prop
  | .nil => True
  | .node a l r => FirstChecked l ∧ FirstChecked r ∧
      (∀ b, (inorder l).head? = some b → key b < key a) ∧
      ∀ b, (inorder r).head? = some b → key a ≤ key b

variable {key}

theorem ordered_iff_checked : Ordered key t ↔ FirstChecked key t ∧ LastChecked key t := by
  induction t with
  | nil => simp [Ordered, FirstChecked, LastChecked]
  | node a l r ihl ihr =>
    constructor
    · rintro ⟨hleft, hright, hl, hr⟩
      obtain ⟨hfl, hll⟩ := ihl.mp hl
      obtain ⟨hfr, hlr⟩ := ihr.mp hr
      exact ⟨⟨hfl, hfr, fun b hb => hleft b (List.mem_of_head? hb),
          fun b hb => hright b (List.mem_of_head? hb)⟩,
        ⟨hll, hlr, fun b hb => hleft b (List.mem_of_getLast? hb),
          fun b hb => hright b (List.mem_of_getLast? hb)⟩⟩
    · rintro ⟨⟨hfl, hfr, -, hfirst⟩, ⟨hll, hlr, hlast, -⟩⟩
      have hl := ihl.mpr ⟨hfl, hll⟩
      have hr := ihr.mpr ⟨hfr, hlr⟩
      refine ⟨fun b hb => ?_, fun b hb => ?_, hl, hr⟩
      · obtain ⟨c, -, hc⟩ := exists_getLast? (t := l) (by rintro rfl; cases hb)
        exact lt_of_le_of_lt (hl.le_getLast hc hb) (hlast c hc)
      · obtain ⟨c, -, hc⟩ := exists_head? r (by rintro rfl; cases hb)
        exact le_trans (hfirst c hc) (hr.head_le hc hb)

end Checks

end Dert.Library.SearchTree
