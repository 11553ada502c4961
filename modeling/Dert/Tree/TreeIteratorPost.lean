import Dert.Library.Postorder
import Dert.Tree.TreeIteratorCalls

universe u v

namespace Dert

open Library.LinkedTree Library.SearchTree BinaryTree

variable {Addr : Type u} {Val : Type v} {nodes : Nodes Addr Val} {top ptr up : Option Addr}
  {C : Context Addr} {t l r s : BinaryTree Addr} {a b p : Addr} {fuel n : Nat}

section Descent

theorem postBelowLoop_eq (h : Linked nodes up (some a) t) (hfuel : t.height ≤ fuel) :
    treeIteratorPostBelowLoop nodes fuel a = (postorder t).head? := by
  induction t generalizing up a fuel with
  | nil => cases h
  | node b l r ihl ihr =>
    obtain ⟨hb, -, hl, hr⟩ := h
    obtain rfl := Option.some.inj hb
    obtain ⟨fuel, rfl, hlfuel, hrfuel⟩ := exists_fuel hfuel
    cases l with
    | node c ll lr =>
      have hc : (nodes a).lchild = some c := hl.1
      rw [hc] at hl
      simp only [treeIteratorPostBelowLoop, hc, ihl hl hlfuel]
      simp [postorder]
    | nil =>
      have hnone : (nodes a).lchild = none := hl
      cases r with
      | node c rl rr =>
        have hc : (nodes a).rchild = some c := hr.1
        rw [hc] at hr
        simp only [treeIteratorPostBelowLoop, hnone, hc, ihr hr hrfuel]
        simp [postorder]
      | nil =>
        have hleaf : (nodes a).rchild = none := hr
        simp [treeIteratorPostBelowLoop, hnone, hleaf, postorder]

theorem postFindSmallestBelow_eq (h : Linked nodes up (nodes p).rchild s) (hfuel : s.height ≤ fuel) :
    treeIteratorPostFindSmallestBelow nodes fuel p = (postorder s ++ [p]).head? := by
  cases s with
  | nil =>
    have hnone : (nodes p).rchild = none := h
    simp [treeIteratorPostFindSmallestBelow, hnone, postorder]
  | node c sl sr =>
    have hc : (nodes p).rchild = some c := h.1
    rw [hc] at h
    simp only [treeIteratorPostFindSmallestBelow, hc, postBelowLoop_eq h hfuel]
    simp [postorder]

theorem postFindSmallestBelow_left
    (hlinked : Linked nodes none top (plug (.left p s :: C) t))
    (hfuel : (inorder (plug (.left p s :: C) t)).length ≤ fuel) :
    treeIteratorPostFindSmallestBelow nodes fuel p = (postAfter (.left p s :: C)).head? := by
  obtain ⟨⟨-, -, hsib, -⟩, -⟩ := linked_plug.mp hlinked
  have hs : Linked nodes (some p) (nodes p).rchild s := hsib
  have hheight : s.height ≤ fuel := Nat.le_trans (height_sibling_le (.left p s) C t) hfuel
  rw [postFindSmallestBelow_eq hs hheight, postAfter]
  cases postorder s <;> rfl

theorem leftmost_of_some (h : Linked nodes up (some a) t)
    (hleft : treeIteratorLeftmost nodes fuel a = some b) : (inorder t).head? = some b := by
  induction t generalizing up a fuel with
  | nil => cases h
  | node d l r ihl _ =>
    obtain ⟨hd, -, hl, -⟩ := h
    obtain rfl := Option.some.inj hd
    cases fuel with
    | zero => cases hleft
    | succ fuel =>
      cases l with
      | nil =>
        have hnone : (nodes a).lchild = none := hl
        rw [treeIteratorLeftmost, hnone] at hleft
        exact hleft
      | node c ll lr =>
        have hc : (nodes a).lchild = some c := hl.1
        rw [hc] at hl
        rw [treeIteratorLeftmost, hc] at hleft
        rw [inorder_node, List.head?_append, ihl hl hleft]
        rfl

end Descent

variable [DecidableEq Addr]

section Next

variable {iterator : TreeIterator Addr}
  (hlinked : Linked nodes none top (plug C (.node a l r)))
  (hfuel : (inorder (plug C (.node a l r))).length < fuel)
include hlinked hfuel

theorem postNext_eq (hnd : (inorder (plug C (.node a l r))).Nodup)
    (hcurrent : iterator.current ≠ none) (hnext : iterator.next = some a) :
    treeIteratorPostNext nodes fuel iterator =
      some ({ iterator with
        prev := iterator.current
        current := some a
        next := (postAfter C).head? }, some a) := by
  obtain ⟨hC, hhole, hup, -⟩ := linked_plug.mp hlinked
  obtain ⟨-, -, hapart⟩ := nodup_plug.mp hnd
  have ha : a ∉ around C := hapart a (by simp)
  rcases C with _ | ⟨⟨q, s⟩ | ⟨s, q⟩, C⟩
  · have hnone : (nodes a).parent = none := hup
    simp [treeIteratorPostNext, hnext, hcurrent, hnone, postAfter]
  · have hparent : (nodes a).parent = some q := hup
    have hleft : (nodes q).lchild = some a := hhole
    obtain ⟨-, -, hsib, -⟩ := hC
    have hs : Linked nodes (some q) (nodes q).rchild s := hsib
    have hright : (nodes q).rchild ≠ some a := fun heq =>
      ha (mem_around.mpr (.inr (.inl (heq ▸ hs).mem)))
    have hbelow := postFindSmallestBelow_left hlinked (Nat.le_of_lt hfuel)
    simp [treeIteratorPostNext, hnext, hcurrent, hparent, hleft, hright, hbelow, postAfter]
  · have hparent : (nodes a).parent = some q := hup
    have hright : (nodes q).rchild = some a := hhole
    simp [treeIteratorPostNext, hnext, hcurrent, hparent, hright, postAfter]

theorem postNext_first (hC : before C = []) (hcurrent : iterator.current = none)
    (hnext : iterator.next = some a) :
    treeIteratorPostNext nodes fuel iterator =
      some ({ iterator with
        prev := iterator.current
        current := some a
        next := (postAfter C).head? }, some a) := by
  obtain ⟨-, hhole, hup, -⟩ := linked_plug.mp hlinked
  cases C with
  | nil =>
    have hnone : (nodes a).parent = none := hup
    simp [treeIteratorPostNext, treeIteratorPostFindSmallestAbove, hnext, hcurrent, hnone, postAfter]
  | cons f C =>
    obtain ⟨⟨q, s, rfl⟩, -⟩ := before_eq_nil.mp hC
    have hparent : (nodes a).parent = some q := hup
    have hleft : (nodes q).lchild = some a := hhole
    obtain ⟨fuel, rfl⟩ := Nat.exists_eq_succ_of_ne_zero (Nat.ne_zero_of_lt hfuel)
    have hbelow := postFindSmallestBelow_left hlinked (Nat.le_of_lt_succ hfuel)
    simp [treeIteratorPostNext, treeIteratorPostFindSmallestAbove, treeIteratorPostAboveLoop, hnext,
      hcurrent, hparent, hleft, hbelow, postAfter]

end Next

section Walk

variable {iterator : TreeIterator Addr} {maxNodes : Nat}

omit [DecidableEq Addr]

theorem init_post_next (hlinked : Linked nodes none top t)
    (hinit : (treeIteratorInit nodes fuel top .POST maxNodes).join = some iterator) :
    iterator.next = (inorder t).head? := by
  rw [Option.join_eq_some_iff, treeIteratorInit] at hinit
  split_ifs at hinit
  · cases hinit
  · cases t with
    | nil =>
      obtain rfl : top = none := hlinked
      obtain rfl := Option.some.inj (Option.some.inj hinit)
      rfl
    | node a l r =>
      obtain rfl : top = some a := hlinked.1
      obtain ⟨next, hnext, hinit⟩ := Option.map_eq_some_iff.mp hinit
      obtain rfl := Option.some.inj hinit
      exact (leftmost_of_some hlinked hnext).symm

theorem first_leaf (hlinked : Linked nodes none top t) (hnd : (inorder t).Nodup)
    (hfirst : ∀ a, (inorder t).head? = some a → (nodes a).rchild = none)
    (ha : (inorder t).head? = some a) :
    ∃ C, before C = [] ∧ t = plug C (.node a .nil .nil) ∧ (postorder t)[0]? = some a := by
  obtain ⟨C, r, hC, rfl⟩ := exists_plug_head ha hnd
  have hr : root r = none := (children_eq hlinked).2.symm.trans (hfirst a ha)
  obtain rfl : r = .nil := by
    cases r with
    | nil => rfl
    | node => cases hr
  refine ⟨C, hC, rfl, ?_⟩
  rw [← List.head?_eq_getElem?]
  exact (head_postorder hC hnd).mpr rfl

theorem head_inorder_eq (hlinked : Linked nodes none top t) (hnd : (inorder t).Nodup)
    (hfirst : ∀ a, (inorder t).head? = some a → (nodes a).rchild = none) :
    (inorder t).head? = (postorder t)[0]? := by
  cases ha : (inorder t).head? with
  | none =>
    obtain rfl := inorder_eq_nil.mp (List.head?_eq_none_iff.mp ha)
    rfl
  | some a =>
    obtain ⟨-, -, -, hhead⟩ := first_leaf hlinked hnd hfirst ha
    exact hhead.symm

theorem exists_plug_post (hlinked : Linked nodes none top t) (hnd : (inorder t).Nodup)
    (hfirst : ∀ a, (inorder t).head? = some a → (nodes a).rchild = none)
    (hn : (postorder t)[n]? = some a) :
    ∃ C l r, t = plug C (.node a l r) ∧ (n = 0 → before C = []) := by
  have ha := (postorder_perm t).mem_iff.mp (List.mem_of_getElem? hn)
  cases n with
  | zero =>
    obtain ⟨C, hC, rfl, -⟩ := first_leaf hlinked hnd hfirst
      ((head_inorder_eq hlinked hnd hfirst).trans hn)
    exact ⟨C, .nil, .nil, rfl, fun _ => hC⟩
  | succ n =>
    obtain ⟨C, l, r, hplug⟩ := exists_plug [] ha
    exact ⟨C, l, r, hplug.symm, nofun⟩

variable [DecidableEq Addr]

theorem postorder_step (hlinked : Linked nodes none top t) (hnd : (inorder t).Nodup)
    (hfirst : ∀ a, (inorder t).head? = some a → (nodes a).rchild = none)
    (hfuel : (inorder t).length < fuel) (hmarker : iterator.marker = .POST)
    (hnext : iterator.next = (postorder t)[n]?)
    (hcurrent : n ≤ (postorder t).length → (iterator.current = none ↔ n = 0)) :
    ∃ iterator', treeIteratorNext nodes fuel iterator = some (iterator', (postorder t)[n]?) ∧
      iterator'.marker = .POST ∧ iterator'.next = (postorder t)[n + 1]? ∧
      (n + 1 ≤ (postorder t).length → (iterator'.current = none ↔ n + 1 = 0)) := by
  have hpost : treeIteratorNext nodes fuel iterator = treeIteratorPostNext nodes fuel iterator := by
    rw [treeIteratorNext, hmarker]
  rw [hpost]
  cases hn : (postorder t)[n]? with
  | none =>
    have hle := List.getElem?_eq_none_iff.mp hn
    rw [hn] at hnext
    rw [List.getElem?_eq_none (by omega)]
    exact ⟨{ iterator with prev := iterator.current, current := none, next := none },
      by simp [treeIteratorPostNext, hnext], hmarker, rfl, fun hlt => absurd hlt (by omega)⟩
  | some a =>
    rw [hn] at hnext
    have hfresh := hcurrent (Nat.le_of_lt (List.getElem?_eq_some_iff.mp hn).1)
    obtain ⟨C, l, r, rfl, hC⟩ := exists_plug_post hlinked hnd hfirst hn
    have horder : postorder (plug C (.node a l r)) =
        (postBefore C ++ (postorder l ++ postorder r)) ++ a :: postAfter C := by
      simp [postorder_plug, postorder]
    have hafter : (postorder (plug C (.node a l r)))[n + 1]? = (postAfter C).head? := by
      have hnd' := (postorder_perm _).nodup_iff.mpr hnd
      rw [horder] at hn hnd' ⊢
      obtain rfl := length_of_getElem? hnd' hn
      exact getElem?_next _ _ a
    rw [hafter]
    have heq : treeIteratorPostNext nodes fuel iterator = some ({ iterator with
        prev := iterator.current
        current := some a
        next := (postAfter C).head? }, some a) := by
      by_cases h0 : n = 0
      · exact postNext_first hlinked hfuel (hC h0) (hfresh.mpr h0) hnext
      · exact postNext_eq hlinked hfuel hnd (mt hfresh.mp h0) hnext
    exact ⟨_, heq, hmarker, rfl, fun _ => by simp⟩

/-- The calls return the nodes in post-order, and then NULL, just where the first node in order
has no right child. -/
theorem postorder_walk {maxNodes : Nat} (hlinked : Linked nodes none top t)
    (hnd : (inorder t).Nodup) (hmax : maxNodes ≠ 0) :
    (∀ n, ∃ fuel, treeIteratorWalk nodes fuel top .POST maxNodes n =
        some ((List.range n).map fun k => (postorder t)[k]?)) ↔
      ∀ a, (inorder t).head? = some a → (nodes a).rchild = none := by
  constructor
  · intro hwalk a ha
    obtain ⟨fuel, hwalk⟩ := hwalk 1
    obtain ⟨iterator, it, hinit, hcalls⟩ := walk_eq_some.mp hwalk
    obtain ⟨it', hcalls, hstep⟩ := calls_last hcalls
    obtain ⟨rfl, -⟩ := Prod.mk.inj (Option.some.inj hcalls)
    have hmarker : iterator.marker ≠ .BFS := (init_fresh hinit).1 ▸ nofun
    have hhead := (next_returned hmarker hstep).node.trans (init_post_next hlinked hinit)
    rw [ha, ← List.head?_eq_getElem?] at hhead
    obtain ⟨C, r, hC, rfl⟩ := exists_plug_head ha hnd
    obtain rfl := (head_postorder hC hnd).mp hhead
    exact (children_eq hlinked).2
  · intro hfirst n
    obtain ⟨iterator, hinit, hmarker, hcurrent, hnext⟩ := init_leftmost hlinked
      (Nat.le_succ_of_le (height_le_length t)) hmax (.inr rfl)
    obtain ⟨it, hcalls, -⟩ := calls_of_step
      (S := fun n it => it.marker = .POST ∧ it.next = (postorder t)[n]? ∧
        (n ≤ (postorder t).length → (it.current = none ↔ n = 0)))
      ⟨hmarker, hnext.trans (head_inorder_eq hlinked hnd hfirst), fun _ => by simp [hcurrent]⟩
      (fun _ _ hit => postorder_step hlinked hnd hfirst (Nat.lt_succ_self _) hit.1 hit.2.1 hit.2.2) n
    exact ⟨_, walk_eq_some.mpr ⟨iterator, it, hinit, hcalls⟩⟩

end Walk

def forked : Nodes Nat Unit
  | 0 => ⟨(), none, some 1, some 2⟩
  | 1 => ⟨(), some 0, none, none⟩
  | 2 => ⟨(), some 0, none, some 3⟩
  | _ => ⟨(), some 2, none, none⟩

theorem postorder_walk_forked :
    (∀ n, ∃ fuel, treeIteratorWalk forked fuel (some 0) .POST 4 n =
        some ((List.range n).map fun k => [1, 3, 2, 0][k]?)) ↔
      ∀ a, [1, 0, 2, 3].head? = some a → (forked a).rchild = none :=
  postorder_walk (t := .node 0 (.node 1 .nil .nil) (.node 2 .nil (.node 3 .nil .nil)))
    ⟨rfl, rfl, ⟨rfl, rfl, rfl, rfl⟩, rfl, rfl, rfl, rfl, rfl, rfl, rfl⟩ (by decide) (by decide)

def rightOnly : Nodes Nat Unit
  | 0 => ⟨(), none, none, some 1⟩
  | _ => ⟨(), some 0, none, none⟩

/-- The first call returns the root. -/
theorem not_postorder_rightOnly :
    Linked rightOnly none (some 0) (.node 0 .nil (.node 1 .nil .nil)) ∧
      ¬ ∀ n, ∃ fuel, treeIteratorWalk rightOnly fuel (some 0) .POST 2 n =
        some ((List.range n).map fun k => [1, 0][k]?) := by
  refine ⟨⟨rfl, rfl, rfl, rfl, rfl, rfl, rfl⟩, fun hwalk => ?_⟩
  obtain ⟨fuel, hwalk⟩ := hwalk 1
  cases fuel with
  | zero => cases hwalk
  | succ fuel => cases hwalk

end Dert
