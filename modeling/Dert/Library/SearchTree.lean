import Mathlib.Data.Tree.Basic
import Mathlib.Data.List.Nodup
import Mathlib.Order.Lattice
import Dert.Library.StableSort

universe u v

namespace Dert.Library.SearchTree

open BinaryTree StableSort

variable {α : Type u} {β : Type v}

def inorder : BinaryTree α → List α
  | .nil => []
  | .node a l r => inorder l ++ a :: inorder r

@[simp] theorem inorder_nil : inorder (.nil : BinaryTree α) = [] := rfl

@[simp] theorem inorder_node (a : α) (l r : BinaryTree α) :
    inorder (.node a l r) = inorder l ++ a :: inorder r := rfl

theorem height_le_length (t : BinaryTree α) : t.height ≤ (inorder t).length := by
  induction t with
  | nil => exact Nat.le_refl 0
  | node a l r ihl ihr =>
    rw [height, inorder_node, List.length_append, List.length_cons]
    omega

theorem exists_fuel {a : α} {l r : BinaryTree α} {fuel : Nat}
    (h : (BinaryTree.node a l r).height ≤ fuel) :
    ∃ left, fuel = left + 1 ∧ l.height ≤ left ∧ r.height ≤ left := by
  rw [height] at h
  obtain ⟨left, rfl⟩ := Nat.exists_eq_add_of_le' (Nat.le_trans (Nat.le_add_left 1 _) h)
  have hle := Nat.max_le.mp (Nat.le_of_succ_le_succ h)
  exact ⟨left, rfl, hle.1, hle.2⟩

inductive Frame (α : Type u)
  | left (a : α) (r : BinaryTree α)
  | right (l : BinaryTree α) (a : α)

/-- A tree with a hole, from the hole upwards. -/
abbrev Context (α : Type u) := List (Frame α)

def Frame.fill : Frame α → BinaryTree α → BinaryTree α
  | .left a r, t => .node a t r
  | .right l a, t => .node a l t

def Frame.addr : Frame α → α
  | .left a _ => a
  | .right _ a => a

def Frame.sibling : Frame α → BinaryTree α
  | .left _ r => r
  | .right l _ => l

def plug : Context α → BinaryTree α → BinaryTree α
  | [], t => t
  | f :: C, t => plug C (f.fill t)

def before : Context α → List α
  | [] => []
  | .left _ _ :: C => before C
  | .right l a :: C => before C ++ (inorder l ++ [a])

def after : Context α → List α
  | [] => []
  | .left a r :: C => a :: inorder r ++ after C
  | .right _ _ :: C => after C

@[simp] theorem inorder_plug (C : Context α) (t : BinaryTree α) :
    inorder (plug C t) = before C ++ inorder t ++ after C := by
  induction C generalizing t with
  | nil => simp [plug, before, after]
  | cons f C ih =>
    rw [plug, ih]
    cases f <;> simp [Frame.fill, before, after]

def around (C : Context α) : List α := before C ++ after C

theorem inorder_plug_perm (C : Context α) (t : BinaryTree α) :
    (inorder (plug C t)).Perm (inorder t ++ around C) := by
  rw [inorder_plug, around, List.append_assoc]
  exact List.perm_append_comm_assoc _ _ _

theorem around_perm (f : Frame α) (C : Context α) :
    (around (f :: C)).Perm (f.addr :: (inorder f.sibling ++ around C)) := by
  cases f with
  | left a r =>
    exact List.perm_middle.trans ((List.perm_append_comm_assoc _ _ _).cons a)
  | right l a =>
    simp only [around, before, after, Frame.addr, Frame.sibling, List.append_assoc,
      List.singleton_append]
    exact ((List.perm_append_comm_assoc _ _ _).trans (List.perm_middle.append_left _)).trans
      List.perm_middle

theorem mem_around {f : Frame α} {C : Context α} {b : α} :
    b ∈ around (f :: C) ↔ b = f.addr ∨ b ∈ inorder f.sibling ∨ b ∈ around C := by
  rw [(around_perm f C).mem_iff, List.mem_cons, List.mem_append]

theorem mem_plug {C : Context α} {t : BinaryTree α} {b : α} :
    b ∈ inorder (plug C t) ↔ b ∈ inorder t ∨ b ∈ around C := by
  rw [(inorder_plug_perm C t).mem_iff, List.mem_append]

theorem nodup_around {f : Frame α} {C : Context α} (h : (around (f :: C)).Nodup) :
    f.addr ∉ inorder f.sibling ∧ f.addr ∉ around C := by
  have hnd := ((around_perm f C).nodup_iff.mp h).notMem
  rw [List.mem_append, not_or] at hnd
  exact hnd

theorem nodup_plug {C : Context α} {t : BinaryTree α} :
    (inorder (plug C t)).Nodup ↔
      (inorder t).Nodup ∧ (around C).Nodup ∧ ∀ b ∈ inorder t, b ∉ around C := by
  rw [(inorder_plug_perm C t).nodup_iff, List.nodup_append']
  rfl

section Spine

/-- `t` hung below the end of the right spine of `l`. -/
def hang : BinaryTree α → BinaryTree α → BinaryTree α
  | .nil, t => t
  | .node a l r, t => .node a l (hang r t)

def rightmost : α → BinaryTree α → α
  | a, .nil => a
  | _, .node b _ r => rightmost b r

def join : BinaryTree α → BinaryTree α → BinaryTree α
  | l, .nil => l
  | l, .node b rl rr => .node b (hang l rl) rr

@[simp] theorem inorder_hang (l t : BinaryTree α) : inorder (hang l t) = inorder l ++ inorder t := by
  induction l with
  | nil => rfl
  | node a l r _ ih => simp [hang, ih]

@[simp] theorem inorder_join (l r : BinaryTree α) : inorder (join l r) = inorder l ++ inorder r := by
  cases r with
  | nil => simp [join]
  | node b rl rr => simp [join]

theorem join_nil_left (r : BinaryTree α) : join .nil r = r := by
  cases r <;> rfl

theorem rightmost_mem (a : α) (r : BinaryTree α) : rightmost a r ∈ a :: inorder r := by
  induction r generalizing a with
  | nil => exact List.mem_cons_self
  | node b l r _ ih =>
    rw [rightmost, inorder_node]
    have hmem := ih b
    apply List.mem_cons_of_mem
    exact List.mem_append_right _ hmem

end Spine

section Order

variable [LinearOrder β] (key : α → β)

def Ordered : BinaryTree α → Prop
  | .nil => True
  | .node a l r => (∀ b ∈ inorder l, key b < key a) ∧ (∀ b ∈ inorder r, key a ≤ key b) ∧
      Ordered l ∧ Ordered r

/-- The key `v` may stand on this side of the frame. -/
def Frame.Admits (f : Frame α) (v : β) : Prop :=
  match f with
  | .left a _ => v < key a
  | .right _ a => key a ≤ v

def Admits (C : Context α) (v : β) : Prop := ∀ f ∈ C, f.Admits key v

def OrderedAround : Context α → Prop
  | [] => True
  | f :: C => Ordered key (f.fill .nil) ∧ Admits key C (key f.addr) ∧
      (∀ b ∈ inorder f.sibling, Admits key C (key b)) ∧ OrderedAround C

variable {key}

theorem admits_cons {f : Frame α} {C : Context α} {v : β} :
    Admits key (f :: C) v ↔ f.Admits key v ∧ Admits key C v := List.forall_mem_cons

theorem Admits.congr {key' : α → β} {C : Context α} {v : β} (h : Admits key C v)
    (hsame : ∀ b ∈ around C, key' b = key b) : Admits key' C v := by
  induction C with
  | nil => exact fun _ hf => absurd hf List.not_mem_nil
  | cons f C ih =>
    obtain ⟨hf, hC⟩ := admits_cons.mp h
    simp only [mem_around] at hsame
    have haddr := hsame f.addr (.inl rfl)
    refine admits_cons.mpr ⟨?_, ih hC fun b hb => hsame b (.inr (.inr hb))⟩
    cases f with
    | left a r => exact lt_of_lt_of_eq hf haddr.symm
    | right l a => exact le_of_eq_of_le haddr hf

theorem ordered_fill {f : Frame α} {t : BinaryTree α} :
    Ordered key (f.fill t) ↔
      Ordered key (f.fill .nil) ∧ Ordered key t ∧ ∀ b ∈ inorder t, f.Admits key (key b) := by
  cases f with
  | left => simp [Frame.fill, Frame.Admits, Ordered]; tauto
  | right => simp [Frame.fill, Frame.Admits, Ordered]; tauto

theorem mem_fill {f : Frame α} {t : BinaryTree α} {b : α} :
    b ∈ inorder (f.fill t) ↔ b ∈ inorder t ∨ b = f.addr ∨ b ∈ inorder f.sibling := by
  cases f with
  | left a r => simp [Frame.fill, Frame.addr, Frame.sibling]
  | right l a => simp [Frame.fill, Frame.addr, Frame.sibling, or_comm, or_assoc, or_left_comm]

theorem ordered_plug {C : Context α} {t : BinaryTree α} :
    Ordered key (plug C t) ↔
      OrderedAround key C ∧ Ordered key t ∧ ∀ b ∈ inorder t, Admits key C (key b) := by
  induction C generalizing t with
  | nil => simp [plug, OrderedAround, Admits]
  | cons f C ih =>
    rw [plug, ih, ordered_fill, OrderedAround]
    simp only [mem_fill, admits_cons]
    constructor
    · rintro ⟨hC, ⟨hf, ht, hadm⟩, hall⟩
      exact ⟨⟨hf, hall _ (.inr (.inl rfl)), fun b hb => hall b (.inr (.inr hb)), hC⟩, ht,
        fun b hb => ⟨hadm b hb, hall b (.inl hb)⟩⟩
    · rintro ⟨⟨hf, haddr, hsib, hC⟩, ht, hadm⟩
      refine ⟨hC, ⟨hf, ht, fun b hb => (hadm b hb).1⟩, ?_⟩
      rintro b (hb | rfl | hb)
      · exact (hadm b hb).2
      · exact haddr
      · exact hsib b hb

theorem Ordered.replace {C : Context α} {t t' : BinaryTree α} (h : Ordered key (plug C t))
    (ht' : Ordered key t') (hsub : ∀ b ∈ inorder t', b ∈ inorder t) : Ordered key (plug C t') := by
  obtain ⟨hC, -, hadm⟩ := ordered_plug.mp h
  exact ordered_plug.mpr ⟨hC, ht', fun b hb => hadm b (hsub b hb)⟩

theorem Ordered.congr {key' : α → β} {t : BinaryTree α} (h : Ordered key t)
    (hsame : ∀ b ∈ inorder t, key' b = key b) : Ordered key' t := by
  induction t with
  | nil => trivial
  | node a l r ihl ihr =>
    obtain ⟨hleft, hright, hl, hr⟩ := h
    simp only [inorder_node, List.mem_append, List.mem_cons] at hsame
    have ha := hsame a (.inr (.inl rfl))
    have hsl := fun b hb => hsame b (.inl hb)
    have hsr := fun b hb => hsame b (.inr (.inr hb))
    refine ⟨fun b hb => ?_, fun b hb => ?_, ihl hl hsl, ihr hr hsr⟩
    · rw [hsl b hb, ha]
      exact hleft b hb
    · rw [hsr b hb, ha]
      exact hright b hb

theorem ordered_hang {l t : BinaryTree α} (hl : Ordered key l) (ht : Ordered key t)
    (hlt : ∀ b ∈ inorder l, ∀ c ∈ inorder t, key b ≤ key c) : Ordered key (hang l t) := by
  induction l with
  | nil => exact ht
  | node a l r _ ih =>
    obtain ⟨hleft, hright, hl, hr⟩ := hl
    simp only [inorder_node, List.mem_append, List.mem_cons] at hlt
    refine ⟨hleft, fun c hc => ?_, hl, ih hr fun b hb => hlt b (.inr (.inr hb))⟩
    rw [inorder_hang, List.mem_append] at hc
    rcases hc with hc | hc
    · exact hright c hc
    · exact hlt a (.inr (.inl rfl)) c hc

theorem Ordered.join {l r : BinaryTree α} (hl : Ordered key l) (hr : Ordered key r)
    (hlt : ∀ b ∈ inorder l, ∀ c ∈ inorder r, key b < key c) : Ordered key (join l r) := by
  cases r with
  | nil => exact hl
  | node b rl rr =>
    simp only [inorder_node, List.mem_append, List.mem_cons] at hlt
    obtain ⟨hrleft, hrright, hrl, hrr⟩ := hr
    refine ⟨fun c hc => ?_, hrright, ordered_hang hl hrl fun c hc d hd => ?_, hrr⟩
    · rw [inorder_hang, List.mem_append] at hc
      rcases hc with hc | hc
      · exact hlt c hc b (.inr (.inl rfl))
      · exact hrleft c hc
    · exact le_of_lt (hlt c hc d (.inl hd))

theorem ordered_join {a : α} {l r : BinaryTree α} (h : Ordered key (.node a l r)) :
    Ordered key (join l r) := by
  obtain ⟨hleft, hright, hl, hr⟩ := h
  exact hl.join hr fun b hb c hc => lt_of_lt_of_le (hleft b hb) (hright c hc)

theorem Ordered.pairwise {t : BinaryTree α} (h : Ordered key t) :
    ((inorder t).map key).Pairwise (· ≤ ·) := by
  induction t with
  | nil => exact List.Pairwise.nil
  | node a l r ihl ihr =>
    obtain ⟨hleft, hright, hl, hr⟩ := h
    rw [inorder_node, List.map_append, List.map_cons, List.pairwise_append, List.pairwise_cons]
    refine ⟨ihl hl, ⟨List.forall_mem_map.mpr hright, ihr hr⟩, List.forall_mem_map.mpr ?_⟩
    intro b hb
    have hba := le_of_lt (hleft b hb)
    intro k hk
    rcases List.mem_cons.mp hk with rfl | hk
    · exact hba
    · obtain ⟨c, hc, rfl⟩ := List.mem_map.mp hk
      exact le_trans hba (hright c hc)

end Order

section Search

variable [LinearOrder β] (key : α → β) (v : β)

/-- The way down to the topmost node with key `v`, or to the hole where it is missing. -/
def locate : Context α → BinaryTree α → Context α × BinaryTree α
  | C, .nil => (C, .nil)
  | C, .node a l r =>
    if v = key a then (C, .node a l r)
    else if v < key a then locate (.left a r :: C) l
    else locate (.right l a :: C) r

/-- The way down to the hole where a node with key `v` is put. -/
def gap : Context α → BinaryTree α → Context α
  | C, .nil => C
  | C, .node a l r =>
    if v < key a then gap (.left a r :: C) l else gap (.right l a :: C) r

variable {key v}

theorem plug_locate (C : Context α) (t : BinaryTree α) :
    plug (locate key v C t).1 (locate key v C t).2 = plug C t := by
  induction t generalizing C with
  | nil => rfl
  | node a l r ihl ihr =>
    rw [locate]
    split_ifs
    · rfl
    · exact ihl _
    · exact ihr _

theorem plug_gap (C : Context α) (t : BinaryTree α) : plug (gap key v C t) .nil = plug C t := by
  induction t generalizing C with
  | nil => rfl
  | node a l r ihl ihr =>
    rw [gap]
    split_ifs
    · exact ihl _
    · exact ihr _

theorem locate_key {C : Context α} {t : BinaryTree α} {a : α} {l r : BinaryTree α}
    (h : (locate key v C t).2 = .node a l r) : key a = v := by
  induction t generalizing C with
  | nil => cases h
  | node b tl tr ihl ihr =>
    rw [locate] at h
    split_ifs at h with heq hlt
    · cases h
      exact heq.symm
    · exact ihl h
    · exact ihr h

theorem locate_nil {C : Context α} {t : BinaryTree α} (ho : Ordered key t)
    (h : (locate key v C t).2 = .nil) : ∀ b ∈ inorder t, key b ≠ v := by
  induction t generalizing C with
  | nil => simp
  | node a l r ihl ihr =>
    obtain ⟨hleft, hright, hl, hr⟩ := ho
    rw [locate] at h
    simp only [inorder_node, List.mem_append, List.mem_cons]
    split_ifs at h with heq hlt
    · rintro b (hb | rfl | hb)
      · exact ihl hl h b hb
      · exact Ne.symm heq
      · exact ne_of_gt (lt_of_lt_of_le hlt (hright b hb))
    · have hgt : key a < v := lt_of_le_of_ne (not_lt.mp hlt) (Ne.symm heq)
      rintro b (hb | rfl | hb)
      · exact ne_of_lt (lt_trans (hleft b hb) hgt)
      · exact ne_of_lt hgt
      · exact ihr hr h b hb

theorem gap_admits {C : Context α} (t : BinaryTree α) (hC : Admits key C v) :
    Admits key (gap key v C t) v := by
  induction t generalizing C with
  | nil => exact hC
  | node a l r ihl ihr =>
    rw [gap]
    split_ifs with hlt
    · apply ihl
      exact admits_cons.mpr ⟨hlt, hC⟩
    · apply ihr
      exact admits_cons.mpr ⟨not_lt.mp hlt, hC⟩

variable (key v)

def find : BinaryTree α → Option α
  | .nil => none
  | .node a l r => if v = key a then some a else if v < key a then find l else find r

/-- The tree with a new leaf `n` in the hole for its key `v`. -/
def grow (n : α) : BinaryTree α → BinaryTree α
  | .nil => .node n .nil .nil
  | .node a l r => if v < key a then .node a (grow n l) r else .node a l (grow n r)

variable {key v} {n : α}

theorem plug_gap_leaf (C : Context α) (t : BinaryTree α) :
    plug (gap key v C t) (.node n .nil .nil) = plug C (grow key v n t) := by
  induction t generalizing C with
  | nil => rfl
  | node a l r ihl ihr =>
    rw [gap, grow]
    split_ifs
    · exact ihl _
    · exact ihr _

theorem inorder_grow_perm (t : BinaryTree α) :
    (inorder (grow key v n t)).Perm (n :: inorder t) := by
  have hleaf := inorder_plug_perm (gap key v [] t) (.node n .nil .nil)
  have hhole := inorder_plug_perm (gap key v [] t) .nil
  rw [plug_gap_leaf] at hleaf
  rw [plug_gap] at hhole
  exact hleaf.trans (hhole.symm.cons n)

theorem mem_grow {t : BinaryTree α} {b : α} : b ∈ inorder (grow key v n t) ↔ b = n ∨ b ∈ inorder t := by
  rw [(inorder_grow_perm t).mem_iff, List.mem_cons]

theorem find_congr {key' : α → β} {t : BinaryTree α} (hsame : ∀ b ∈ inorder t, key' b = key b) :
    find key' v t = find key v t := by
  induction t with
  | nil => rfl
  | node a l r ihl ihr =>
    simp only [inorder_node, List.mem_append, List.mem_cons] at hsame
    rw [find, find, hsame a (.inr (.inl rfl)), ihl fun b hb => hsame b (.inl hb),
      ihr fun b hb => hsame b (.inr (.inr hb))]

theorem grow_congr {key' : α → β} {t : BinaryTree α} (hsame : ∀ b ∈ inorder t, key' b = key b) :
    grow key' v n t = grow key v n t := by
  induction t with
  | nil => rfl
  | node a l r ihl ihr =>
    simp only [inorder_node, List.mem_append, List.mem_cons] at hsame
    rw [grow, grow, hsame a (.inr (.inl rfl)), ihl fun b hb => hsame b (.inl hb),
      ihr fun b hb => hsame b (.inr (.inr hb))]

theorem find_grow (t : BinaryTree α) (w : β) : find key w (grow key (key n) n t) =
    (find key w t).or (if key n = w then some n else none) := by
  induction t with
  | nil => simp [grow, find, eq_comm]
  | node a l r ihl ihr =>
    rw [grow, find]
    by_cases hw : w = key a
    · split_ifs <;> simp [find, hw]
    · by_cases hn : key n < key a
      · rw [if_pos hn, find, if_neg hw, if_neg hw, ihl]
        by_cases hlt : w < key a
        · rw [if_pos hlt, if_pos hlt]
        · have hnw : key n ≠ w := fun h => hlt (h ▸ hn)
          rw [if_neg hlt, if_neg hlt, if_neg hnw, Option.or_none]
      · rw [if_neg hn, find, if_neg hw, if_neg hw, ihr]
        by_cases hlt : w < key a
        · have hnw : key n ≠ w := fun h => hn (h ▸ hlt)
          rw [if_pos hlt, if_pos hlt, if_neg hnw, Option.or_none]
        · rw [if_neg hlt, if_neg hlt]

theorem pairwise_grow [LinearOrder α] {t : BinaryTree α} (ho : Ordered key t)
    (hpw : (inorder t).Pairwise (Before key)) (hnew : ∀ b ∈ inorder t, b < n) :
    (inorder (grow key (key n) n t)).Pairwise (Before key) := by
  induction t with
  | nil => simp [grow]
  | node a l r ihl ihr =>
    obtain ⟨hleft, hright, hl, hr⟩ := ho
    obtain ⟨hpl, hpar, hplr⟩ := List.pairwise_append.mp hpw
    obtain ⟨hpa, hpr⟩ := List.pairwise_cons.mp hpar
    simp only [inorder_node, List.mem_append, List.mem_cons] at hnew
    rw [grow]
    split_ifs with hlt
    · have hgrown := ihl hl hpl fun b hb => hnew b (.inl hb)
      refine List.pairwise_append.mpr ⟨hgrown, hpar, fun b hb c hc => ?_⟩
      rcases mem_grow.mp hb with rfl | hb
      · rcases List.mem_cons.mp hc with rfl | hc
        · exact .inl hlt
        · exact .inl (lt_of_lt_of_le hlt (hright c hc))
      · exact hplr b hb c hc
    · have hgrown := ihr hr hpr fun b hb => hnew b (.inr (.inr hb))
      have han : key a ≤ key n := not_lt.mp hlt
      refine List.pairwise_append.mpr ⟨hpl, List.pairwise_cons.mpr ⟨fun c hc => ?_, hgrown⟩, ?_⟩
      · rcases mem_grow.mp hc with rfl | hc
        · exact .of_le han (hnew a (.inr (.inl rfl)))
        · exact hpa c hc
      · intro b hb c hc
        rcases List.mem_cons.mp hc with rfl | hc
        · exact hplr b hb c List.mem_cons_self
        · rcases mem_grow.mp hc with rfl | hc
          · exact .inl (lt_of_lt_of_le (hleft b hb) han)
          · exact hplr b hb c (List.mem_cons_of_mem a hc)

end Search

end Dert.Library.SearchTree
