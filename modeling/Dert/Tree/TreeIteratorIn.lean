import Dert.Tree.TreeIteratorCalls

universe u v

namespace Dert

open Library.LinkedTree Library.SearchTree BinaryTree

variable {Addr : Type u} {Val : Type v} {nodes : Nodes Addr Val} {top ptr up : Option Addr}
  {C : Context Addr} {t l r : BinaryTree Addr} {a b c p : Addr} {fuel n : Nat}

/-- The first node has no right child, and a right child that has none either, but whose left
child has one, is the last node. -/
structure InWalkable (nodes : Nodes Addr Val) (t : BinaryTree Addr) : Prop where
  first : ∀ a, (inorder t).head? = some a → (nodes a).rchild = none
  last : ∀ p b c, b ∈ inorder t → (nodes b).parent = some p → (nodes p).rchild = some b →
    (nodes b).rchild = none → (nodes b).lchild = some c → (nodes c).rchild ≠ none →
      (inorder t).getLast? = some b

variable [DecidableEq Addr]

section Climb

theorem inAboveLoop_eq (hC : LinkedAround nodes top C) (hhole : hole nodes top C = some c)
    (hup : (nodes c).parent = above C) (hc : c ∉ around C) (hnd : (around C).Nodup)
    (hfuel : C.length < fuel) : treeIteratorInAboveLoop nodes fuel c = some (after C).head? := by
  induction C generalizing c fuel with
  | nil =>
    obtain ⟨fuel, rfl⟩ := Nat.exists_eq_succ_of_ne_zero (Nat.ne_zero_of_lt hfuel)
    simp [treeIteratorInAboveLoop, hup, above, after]
  | cons f C ih =>
    obtain ⟨fuel, rfl⟩ := Nat.exists_eq_succ_of_ne_zero (Nat.ne_zero_of_lt hfuel)
    obtain ⟨hholeC, hupC, hsib, hC⟩ := hC
    obtain ⟨-, hfC⟩ := nodup_around hnd
    cases f with
    | left a r =>
      have hleft : (nodes a).lchild = some c := hhole
      have hparent : (nodes c).parent = some a := hup
      simp [treeIteratorInAboveLoop, hparent, hleft, after]
    | right l a =>
      have hright : (nodes a).rchild = some c := hhole
      have hparent : (nodes c).parent = some a := hup
      have hleft : (nodes a).lchild ≠ some c :=
        right_link hsib fun hl => hc (mem_around.mpr (.inr (.inl hl)))
      have hndC : (around C).Nodup :=
        ((around_perm (.right l a) C).nodup_iff.mp hnd).tail.of_append_right
      simp only [treeIteratorInAboveLoop, hparent, hleft, hright, if_true, if_false]
      exact ih hC hholeC hupC hfC hndC (Nat.lt_of_succ_lt_succ hfuel)

end Climb

/-- What the code concludes from the nodes it has met, that the left subtree is behind it. -/
def InPassed (nodes : Nodes Addr Val) (prev : Option Addr) (a : Addr) : Prop :=
  isLchild nodes (nodes a).parent a ∨
    ((nodes a).parent ≠ none ∧ prev = (nodes a).parent ∧ isRchild nodes prev a) ∨
    prev = (nodes a).lchild

theorem inNext_of_current (nodes : Nodes Addr Val) (fuel : Nat) {iterator : TreeIterator Addr}
    (hcurrent : iterator.current ≠ none) (hnext : iterator.next = some a) :
    (InPassed nodes iterator.current a → (nodes a).rchild = none →
      treeIteratorInNext nodes fuel iterator =
        (treeIteratorInFindSmallestAbove nodes fuel a).map fun next =>
          ({ iterator with prev := iterator.current, current := some a, next }, some a)) ∧
    (¬ InPassed nodes iterator.current a ∨ (nodes a).rchild ≠ none →
      treeIteratorInNext nodes fuel iterator =
        (treeIteratorInFindSmallestBelow nodes fuel a).map fun next =>
          ({ iterator with prev := iterator.current, current := some a, next }, some a)) := by
  unfold InPassed
  constructor
  · intro hpassed hnone
    simp only [treeIteratorInNext, hnext, if_neg hcurrent, if_pos hpassed, hnone, ne_eq,
      not_true_eq_false, if_false]
  · intro hbelow
    simp only [treeIteratorInNext, hnext, if_neg hcurrent]
    rcases hbelow with hnot | hsome
    · rw [if_neg hnot]
    · rw [if_pos hsome, ite_self]

section Next

variable (hlinked : Linked nodes none top (plug C (.node a l r)))
  (hnd : (inorder (plug C (.node a l r))).Nodup)
include hlinked hnd

theorem inFindSmallestAbove_eq (hfuel : C.length < fuel) :
    treeIteratorInFindSmallestAbove nodes fuel a = some (after C).head? := by
  obtain ⟨hC, hhole, hup, -⟩ := linked_plug.mp hlinked
  obtain ⟨-, hndC, hapart⟩ := nodup_plug.mp hnd
  cases C with
  | nil =>
    have hnone : (nodes a).parent = none := hup
    rw [treeIteratorInFindSmallestAbove, if_pos hnone]
    rfl
  | cons f C =>
    have hne : (nodes a).parent ≠ none := hup ▸ nofun
    rw [treeIteratorInFindSmallestAbove, if_neg hne]
    exact inAboveLoop_eq hC hhole hup (hapart a (by simp)) hndC hfuel

omit [DecidableEq Addr] hnd in
theorem inFindSmallestBelow_eq (hfuel : r.height ≤ fuel) :
    treeIteratorInFindSmallestBelow nodes fuel a = some (inorder r).head? := by
  obtain ⟨-, -, -, -, hr⟩ := linked_plug.mp hlinked
  cases r with
  | nil =>
    have hnone : (nodes a).rchild = none := hr
    rw [treeIteratorInFindSmallestBelow, hnone]
    rfl
  | node b rl rr =>
    have hb : (nodes a).rchild = some b := hr.1
    rw [hb] at hr
    simp only [treeIteratorInFindSmallestBelow, hb, leftmost_eq hr hfuel]
    simp

omit [DecidableEq Addr] hnd in
theorem lchild_rchild {ll lr : BinaryTree Addr} (hl : l = .node c ll lr) :
    (nodes c).rchild = root lr := by
  obtain ⟨-, -, -, hl', -⟩ := linked_plug.mp hlinked
  rw [hl] at hl'
  exact hl'.2.2.2.ptr_eq

/-- A right child whose left child has a right child is taken for a new subtree. -/
theorem not_inPassed (hp : (nodes a).parent = some p) (hrp : (nodes p).rchild = some a)
    (hc : (nodes a).lchild = some c) (hrc : (nodes c).rchild ≠ none) :
    ¬ InPassed nodes (before C ++ inorder l).getLast? a := by
  obtain ⟨hC, hhole, hup, -⟩ := linked_plug.mp hlinked
  obtain ⟨hndt, -, hapart⟩ := nodup_plug.mp hnd
  have ha : a ∉ around C := hapart a (by simp)
  have hlchild := (children_eq hlinked).1
  cases l with
  | nil =>
    rw [hlchild] at hc
    cases hc
  | node d ll lr =>
    obtain rfl : d = c := Option.some.inj (hlchild.symm.trans hc)
    have hlr : lr ≠ .nil := by
      rintro rfl
      exact hrc (lchild_rchild hlinked rfl)
    obtain ⟨y, hmem, hy⟩ := exists_getLast? hlr
    rw [getLast?_before, getLast?_node, hy, Option.some_or]
    rcases C with _ | ⟨⟨q, s⟩ | ⟨s, q⟩, C⟩
    · rw [above] at hup
      rw [hup] at hp
      cases hp
    · obtain rfl : q = p := Option.some.inj (hup.symm.trans hp)
      obtain ⟨-, -, hsib, -⟩ := hC
      have hs : Linked nodes (some q) (nodes q).rchild s := hsib
      rw [hrp] at hs
      exact absurd (mem_around.mpr (.inr (.inl hs.mem))) ha
    · obtain rfl : q = p := Option.some.inj (hup.symm.trans hp)
      obtain ⟨-, -, hsib, -⟩ := hC
      have hq : (nodes q).lchild ≠ some a :=
        right_link hsib fun hs => ha (mem_around.mpr (.inr (.inl hs)))
      rintro (hleft | ⟨-, hparent, -⟩ | hleft)
      · rw [hp] at hleft
        exact hq (by simpa [isLchild] using hleft)
      · rw [hp] at hparent
        obtain rfl := Option.some.inj hparent
        exact hapart y (by simp [hmem]) (mem_around.mpr (.inl rfl))
      · rw [hc] at hleft
        obtain rfl := Option.some.inj hleft
        simp only [inorder_node, List.nodup_append, List.nodup_cons] at hndt
        exact hndt.1.2.1.1 hmem

omit hnd in
theorem inPassed (hC : C ≠ []) (hprev : before C ++ inorder l ≠ [])
    (hnot : ∀ p c, (nodes a).parent = some p → (nodes p).rchild = some a →
      (nodes a).lchild = some c → (nodes c).rchild = none) :
    InPassed nodes (before C ++ inorder l).getLast? a := by
  obtain ⟨-, hhole, hup, -⟩ := linked_plug.mp hlinked
  have hlchild := (children_eq hlinked).1
  rcases C with _ | ⟨⟨q, s⟩ | ⟨s, q⟩, C⟩
  · exact absurd rfl hC
  · have hq : (nodes q).lchild = some a := hhole
    have hparent : (nodes a).parent = some q := hup
    left
    simp [isLchild, hparent, hq]
  · have hq : (nodes q).rchild = some a := hhole
    have hparent : (nodes a).parent = some q := hup
    right
    cases l with
    | nil =>
      left
      simp [before, isRchild, hparent, hq]
    | node c ll lr =>
      right
      have hlr := hnot q c hparent hq hlchild
      rw [lchild_rchild hlinked rfl] at hlr
      cases lr with
      | nil =>
        rw [getLast?_before, getLast?_node, hlchild]
        rfl
      | node => cases hlr

theorem inNext_eq (hlast : ∀ p c, (nodes a).parent = some p → (nodes p).rchild = some a →
      (nodes a).rchild = none → (nodes a).lchild = some c → (nodes c).rchild ≠ none → after C = [])
    (hprev : before C ++ inorder l ≠ []) {iterator : TreeIterator Addr}
    (hcurrent : iterator.current = (before C ++ inorder l).getLast?)
    (hnext : iterator.next = some a) (hfuel : (inorder (plug C (.node a l r))).length < fuel) :
    treeIteratorInNext nodes fuel iterator =
      some ({ iterator with
        prev := iterator.current
        current := some a
        next := (inorder r ++ after C).head? }, some a) := by
  have hne : iterator.current ≠ none := by
    rw [hcurrent]
    exact mt List.getLast?_eq_none_iff.mp hprev
  have hdepth := depth_lt C a l r
  rw [height] at hdepth
  have habove : treeIteratorInFindSmallestAbove nodes fuel a = some (after C).head? :=
    inFindSmallestAbove_eq hlinked hnd (by omega)
  have hbelow : treeIteratorInFindSmallestBelow nodes fuel a = some (inorder r).head? :=
    inFindSmallestBelow_eq hlinked (by omega)
  obtain ⟨hup, hdown⟩ := inNext_of_current nodes fuel hne hnext
  have hrchild := (children_eq hlinked).2
  cases r with
  | node b rl rr =>
    rw [hdown (.inr (hrchild ▸ nofun)), hbelow]
    simp
  | nil =>
    by_cases hpassed : InPassed nodes iterator.current a
    · rw [hup hpassed hrchild, habove]
      rfl
    · have hend : after C = [] := by
        by_contra hC
        refine hpassed (hcurrent ▸ inPassed hlinked ?_ hprev fun p c hp hrp hc => ?_)
        · rintro rfl
          exact hC rfl
        · by_contra hrc
          exact hC (hlast p c hp hrp hrchild hc hrc)
      rw [hdown (.inl hpassed), hbelow, hend]
      rfl

theorem inNext_first (hfirst : (nodes a).rchild = none) (hprev : before C ++ inorder l = [])
    {iterator : TreeIterator Addr} (hcurrent : iterator.current = none)
    (hnext : iterator.next = some a) :
    treeIteratorInNext nodes fuel iterator =
      some ({ iterator with
        prev := iterator.current
        current := some a
        next := (inorder r ++ after C).head? }, some a) := by
  have hrchild := (children_eq hlinked).2
  have hup := parent_eq hlinked
  obtain rfl : r = .nil := by
    rw [hfirst] at hrchild
    cases r with
    | nil => rfl
    | node => cases hrchild
  have hC : above C = (after C).head? := by
    cases C with
    | nil => rfl
    | cons f C =>
      obtain ⟨⟨b, s, rfl⟩, -⟩ := before_eq_nil.mp (List.append_eq_nil_iff.mp hprev).1
      rfl
  simp [treeIteratorInNext, hnext, hcurrent, hup, hC]

end Next

section Walk

variable {iterator : TreeIterator Addr} {maxNodes : Nat}

theorem inorder_step (hlinked : Linked nodes none top t) (hnd : (inorder t).Nodup)
    (hwalk : InWalkable nodes t) (hfuel : (inorder t).length < fuel) (hmarker : iterator.marker = .IN)
    (hnext : iterator.next = (inorder t)[n]?)
    (hcurrent : n ≤ (inorder t).length → iterator.current = ((inorder t).take n).getLast?) :
    ∃ iterator', treeIteratorNext nodes fuel iterator = some (iterator', (inorder t)[n]?) ∧
      iterator'.marker = .IN ∧ iterator'.next = (inorder t)[n + 1]? ∧
      (n + 1 ≤ (inorder t).length → iterator'.current = ((inorder t).take (n + 1)).getLast?) := by
  have hin : treeIteratorNext nodes fuel iterator = treeIteratorInNext nodes fuel iterator := by
    rw [treeIteratorNext, hmarker]
  rw [hin]
  cases hn : (inorder t)[n]? with
  | none =>
    have hle := List.getElem?_eq_none_iff.mp hn
    rw [hn] at hnext
    rw [List.getElem?_eq_none (by omega)]
    exact ⟨{ iterator with prev := iterator.current, current := none, next := none },
      by simp [treeIteratorInNext, hnext], hmarker, rfl, fun hlt => absurd hlt (by omega)⟩
  | some a =>
    rw [hn] at hnext
    have ha := List.mem_of_getElem? hn
    obtain ⟨C, l, r, hplug⟩ := exists_plug [] ha
    obtain rfl : plug C (.node a l r) = t := hplug
    have horder : inorder (plug C (.node a l r)) =
        (before C ++ inorder l) ++ a :: (inorder r ++ after C) := by simp
    have hnd' := hnd
    rw [horder] at hn hnd' hcurrent ⊢
    obtain rfl := length_of_getElem? hnd' hn
    have hcurrent := hcurrent (by simp)
    rw [List.take_left] at hcurrent
    rw [getElem?_next, take_length_succ, List.getLast?_append]
    have heq : treeIteratorInNext nodes fuel iterator = some ({ iterator with
        prev := iterator.current
        current := some a
        next := (inorder r ++ after C).head? }, some a) := by
      by_cases hprev : before C ++ inorder l = []
      · have hhead : (inorder (plug C (.node a l r))).head? = some a := by
          rw [horder, hprev]
          rfl
        refine inNext_first hlinked hnd (hwalk.first a hhead) hprev ?_ hnext
        rw [hcurrent, hprev]
        rfl
      · refine inNext_eq hlinked hnd (fun p c hp hrp hr hc hrc => ?_) hprev hcurrent hnext hfuel
        have hlast := hwalk.last p a c ha hp hrp hr hc hrc
        exact after_eq_nil hnd hlast
    exact ⟨_, heq, hmarker, rfl, fun _ => rfl⟩

omit [DecidableEq Addr] in
theorem getElem?_place (hnd : (inorder (plug C (.node a l r))).Nodup)
    (hn : (inorder (plug C (.node a l r)))[n]? = some a) :
    (before C ++ inorder l).length = n ∧
      (inorder (plug C (.node a l r))).take n = before C ++ inorder l ∧
      (inorder (plug C (.node a l r)))[n + 1]? = (inorder r ++ after C).head? := by
  have horder : inorder (plug C (.node a l r)) =
      (before C ++ inorder l) ++ a :: (inorder r ++ after C) := by simp
  rw [horder] at hn hnd ⊢
  obtain rfl := length_of_getElem? hnd hn
  exact ⟨rfl, List.take_left, getElem?_next _ _ a⟩

variable (hlinked : Linked nodes none top t) (hnd : (inorder t).Nodup)
  (hwalk : ∀ n, ∃ fuel, treeIteratorWalk nodes fuel top .IN maxNodes n =
    some ((List.range n).map fun k => (inorder t)[k]?))
include hlinked hnd hwalk

theorem first_of_walk (hhead : (inorder t).head? = some a) : (nodes a).rchild = none := by
  obtain ⟨C, l, r, hplug⟩ := exists_plug [] (List.mem_of_head? hhead)
  obtain rfl : plug C (.node a l r) = t := hplug
  rw [List.head?_eq_getElem?] at hhead
  obtain ⟨fuel, hwalk⟩ := hwalk 2
  have hin : TreeIteratorMarker.IN ≠ .BFS := by decide
  obtain ⟨it, it', hmarker, hcurrent, hnext, hstep, hnext'⟩ :=
    walk_step hin (List.getElem?_eq_some_iff.mp hhead).1 hwalk
  obtain ⟨-, -, hsecond⟩ := getElem?_place hnd hhead
  rw [hhead] at hnext
  have hup : it'.next = above C := by
    rw [treeIteratorNext, hmarker] at hstep
    simp only [treeIteratorInNext, hnext, hcurrent, parent_eq hlinked, List.take_zero,
      List.getLast?_nil, if_true, Option.map_some, Option.some.injEq, Prod.mk.injEq] at hstep
    rw [← hstep.1]
  rw [hup, hsecond] at hnext'
  have hrchild := (children_eq hlinked).2
  cases r with
  | nil => exact hrchild
  | node b rl rr =>
    obtain ⟨y, hmem, hy⟩ := exists_head? (.node b rl rr) (by simp)
    rw [List.head?_append, hy, Option.some_or] at hnext'
    have hy' := List.mem_append_right (inorder l) (List.mem_cons_of_mem a hmem)
    exact absurd (mem_around_of_above hnext') ((nodup_plug.mp hnd).2.2 y hy')

theorem last_of_walk (hb : b ∈ inorder t) (hp : (nodes b).parent = some p)
    (hrp : (nodes p).rchild = some b) (hr : (nodes b).rchild = none)
    (hc : (nodes b).lchild = some c) (hrc : (nodes c).rchild ≠ none) :
    (inorder t).getLast? = some b := by
  obtain ⟨C, l, r, hplug⟩ := exists_plug [] hb
  obtain rfl : plug C (.node b l r) = t := hplug
  obtain ⟨n, hn⟩ := List.mem_iff_getElem?.mp hb
  obtain ⟨fuel, hwalk⟩ := hwalk (n + 2)
  have hin : TreeIteratorMarker.IN ≠ .BFS := by decide
  obtain ⟨it, it', hmarker, hcurrent, hnext, hstep, hnext'⟩ :=
    walk_step hin (List.getElem?_eq_some_iff.mp hn).1 hwalk
  obtain ⟨-, htake, hsecond⟩ := getElem?_place hnd hn
  rw [htake] at hcurrent
  rw [hn] at hnext
  have hne : it.current ≠ none := by
    obtain ⟨hlchild, -⟩ := children_eq hlinked
    rw [hc] at hlchild
    cases l with
    | nil => cases hlchild
    | node d ll lr =>
      rw [hcurrent, getLast?_before, getLast?_node]
      simp
  have hstuck : it'.next = none := by
    have hpassed := not_inPassed hlinked hnd hp hrp hc hrc
    rw [← hcurrent] at hpassed
    have hbelow := (inNext_of_current nodes fuel hne hnext).2 (.inl hpassed)
    rw [treeIteratorNext, hmarker] at hstep
    simp only [hbelow, treeIteratorInFindSmallestBelow, hr, Option.map_some, Option.some.injEq,
      Prod.mk.injEq] at hstep
    rw [← hstep.1]
  rw [hstuck, hsecond, eq_comm, List.head?_eq_none_iff, List.append_eq_nil_iff] at hnext'
  simp [hnext'.1, hnext'.2]

end Walk

/-- The calls return the nodes in order, and then NULL, just where the first node has no right
child and no node of the other kind comes before the last. -/
theorem inorder_walk [LinearOrder Val] {maxNodes : Nat} (hlinked : Linked nodes none top t)
    (hnd : (inorder t).Nodup) (hordered : Ordered (fun a => (nodes a).val) t)
    (hmax : maxNodes ≠ 0) :
    ((∀ n, ∃ fuel, treeIteratorWalk nodes fuel top .IN maxNodes n =
        some ((List.range n).map fun k => (inorder t)[k]?)) ∧
      ((inorder t).map fun a => (nodes a).val).Pairwise (· ≤ ·)) ↔ InWalkable nodes t := by
  constructor
  · rintro ⟨hwalk, -⟩
    exact ⟨fun a => first_of_walk hlinked hnd hwalk, fun p b c => last_of_walk hlinked hnd hwalk⟩
  · intro hwalkable
    refine ⟨fun n => ⟨(inorder t).length + 1, ?_⟩, hordered.pairwise⟩
    obtain ⟨iterator, hinit, hmarker, hcurrent, hnext⟩ := init_leftmost hlinked
      (Nat.le_succ_of_le (height_le_length t)) hmax (.inl rfl)
    obtain ⟨it, hcalls, -⟩ := calls_of_step
      (S := fun n it => it.marker = .IN ∧ it.next = (inorder t)[n]? ∧
        (n ≤ (inorder t).length → it.current = ((inorder t).take n).getLast?))
      ⟨hmarker, hnext.trans List.head?_eq_getElem?, fun _ => hcurrent⟩
      (fun _ _ hit => inorder_step hlinked hnd hwalkable (Nat.lt_succ_self _) hit.1 hit.2.1 hit.2.2) n
    exact walk_eq_some.mpr ⟨iterator, it, hinit, hcalls⟩

def vee : Nodes Nat Nat
  | 0 => ⟨2, none, some 1, some 2⟩
  | 1 => ⟨1, some 0, none, none⟩
  | _ => ⟨2, some 0, none, none⟩

theorem inorder_walk_vee :
    ((∀ n, ∃ fuel, treeIteratorWalk vee fuel (some 0) .IN 3 n =
        some ((List.range n).map fun k => [1, 0, 2][k]?)) ∧ [1, 2, 2].Pairwise (· ≤ ·)) ↔
      InWalkable vee (.node 0 (.node 1 .nil .nil) (.node 2 .nil .nil)) :=
  inorder_walk (t := .node 0 (.node 1 .nil .nil) (.node 2 .nil .nil))
    ⟨rfl, rfl, ⟨rfl, rfl, rfl, rfl⟩, rfl, rfl, rfl, rfl⟩ (by decide) (by simp [Ordered, vee])
    (by decide)

def slope : Nodes Nat Nat
  | 0 => ⟨1, none, none, some 1⟩
  | _ => ⟨2, some 0, none, none⟩

/-- The second call returns NULL. -/
theorem not_inorder_slope :
    Linked slope none (some 0) (.node 0 .nil (.node 1 .nil .nil)) ∧
      Ordered (fun a => (slope a).val) (.node 0 .nil (.node 1 .nil .nil)) ∧
      ¬ ∀ n, ∃ fuel, treeIteratorWalk slope fuel (some 0) .IN 2 n =
        some ((List.range n).map fun k => [0, 1][k]?) := by
  refine ⟨⟨rfl, rfl, rfl, rfl, rfl, rfl, rfl⟩, by simp [Ordered, slope], fun hwalk => ?_⟩
  obtain ⟨fuel, hwalk⟩ := hwalk 2
  cases fuel with
  | zero => cases hwalk
  | succ fuel => cases hwalk

end Dert
