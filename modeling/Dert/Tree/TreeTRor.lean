import Dert.Tree.TreeTLaws
import Dert.Library.MirrorTree

namespace Dert.TreeT

open BinaryTree Library.SearchTree Library.LinkedTree

variable {tree : TreeTree} {nodes nodes' : Nodes Nat UInt8} {a b p : Nat}
  {up upL upR ptr : Option Nat} {L R t : BinaryTree Nat} {fuel : Nat}

section Loop

theorem treeReorderRolLoop_mirrored (nodes : Nodes Nat UInt8) (fuel a : Nat) (ptr : Option Nat) :
    treeReorderRolLoop (mirrored nodes) fuel a ptr = treeReorderRorLoop nodes fuel a ptr := by
  induction fuel generalizing a ptr with
  | zero => cases ptr <;> rfl
  | succ fuel ih =>
    cases ptr with
    | none => rfl
    | some c => exact ih c (nodes c).lchild

theorem treeReorderRorLoop_congr (h : ∀ c, (nodes' c).lchild = (nodes c).lchild) (fuel a : Nat)
    (ptr : Option Nat) : treeReorderRorLoop nodes' fuel a ptr = treeReorderRorLoop nodes fuel a ptr := by
  induction fuel generalizing a ptr with
  | zero => cases ptr <;> rfl
  | succ fuel ih =>
    cases ptr with
    | none => rfl
    | some c => rw [treeReorderRorLoop, treeReorderRorLoop, h c, ih]

theorem treeReorderRorLoop_eq (h : Linked nodes up ptr t) (hfuel : t.height ≤ fuel) (a : Nat) :
    treeReorderRorLoop nodes fuel a ptr = some ((inorder t).headD a) := by
  induction t generalizing up ptr fuel a with
  | nil =>
    cases h
    cases fuel <;> rfl
  | node b l r ih _ =>
    obtain ⟨rfl, -, hl, -⟩ := h
    obtain ⟨fuel, rfl, hlfuel, -⟩ := exists_fuel hfuel
    rw [treeReorderRorLoop, ih hl hlfuel b, inorder_node]
    cases inorder l <;> rfl

theorem treeReorderRorLoop_unique {fuel' p q : Nat}
    (h : treeReorderRorLoop nodes fuel a ptr = some p)
    (h' : treeReorderRorLoop nodes fuel' a ptr = some q) : p = q := by
  induction fuel generalizing fuel' a ptr with
  | zero =>
    cases ptr with
    | none => cases fuel' <;> exact Option.some.inj (h.symm.trans h')
    | some c => cases h
  | succ fuel ih =>
    cases ptr with
    | none => cases fuel' <;> exact Option.some.inj (h.symm.trans h')
    | some c =>
      cases fuel' with
      | zero => cases h'
      | succ fuel' => exact ih h h'

theorem treeReorderRorLoop_below (h : Linked nodes up (some b) R) :
    ∃ p, (inorder R).head? = some p ∧ ∀ fuel, (inorder R).length ≤ fuel →
      treeReorderRorLoop nodes fuel b (nodes b).lchild = some p := by
  obtain ⟨-, l, r, rfl⟩ := h.exists_node
  refine ⟨(inorder l).headD b, ?_, fun fuel hfuel => ?_⟩
  · rw [inorder_node]
    cases inorder l <;> rfl
  · apply treeReorderRorLoop_eq h.2.2.1
    have hheight := height_le_length l
    rw [inorder_node, List.length_append] at hfuel
    omega

end Loop

def grafted (nodes : Nodes Nat UInt8) (a b p : Nat) : Nodes Nat UInt8 :=
  setLchild (setRchild nodes a (some b)) p (nodes a).rchild

def regrafted (nodes : Nodes Nat UInt8) (a b p : Nat) : Nodes Nat UInt8 :=
  adopt (setParent (grafted nodes a b p) b (some a)) (nodes a).rchild (some p)

def mirrorTree (tree : TreeTree) : TreeTree := { tree with nodes := mirrored tree.nodes }

/-- `tree_reorder_ror` of `a` and `b` does what `tree_reorder_rol` of `b` and `a` does to
the mirror image, seen in the mirror. -/
def MirrorsRol (tree : TreeTree) (a b : Nat) : Prop :=
  ∀ fuel, treeReorderRor fuel tree (some a) (some b) =
    (treeReorderRolIn fuel (mirrorTree tree) (some b) (some a)).map (Prod.map mirrorTree id)

theorem treeReorderRor_loop (fuel : Nat) (tree : TreeTree) (a b : Nat) :
    treeReorderRor fuel tree (some a) (some b) =
      (treeReorderRorLoop tree.nodes fuel b (tree.nodes b).lchild).map fun p =>
        ({ tree with nodes := grafted tree.nodes a b p }, .ok) := by
  rw [treeReorderRor, treeReorderRorLoop_congr fun _ => setRchild_lchild tree.nodes _]
  rfl

theorem treeReorderRol_mirrored (fuel : Nat) (tree : TreeTree) (a b : Nat) :
    (treeReorderRolIn fuel (mirrorTree tree) (some b) (some a)).map (Prod.map mirrorTree id) =
      (treeReorderRorLoop tree.nodes fuel b (tree.nodes b).lchild).map fun p =>
        ({ tree with nodes := regrafted tree.nodes a b p }, .ok) := by
  have hcall : setParent (setLchild (mirrored tree.nodes) a (some b)) b (some a) =
      mirrored (setParent (setRchild tree.nodes a (some b)) b (some a)) := by
    rw [mirrored_setParent, mirrored_setRchild]
  have hlchild : ∀ c, (setParent (setRchild tree.nodes a (some b)) b (some a) c).lchild =
      (tree.nodes c).lchild := by
    intro c
    rw [setParent_lchild, setRchild_lchild]
  have hgraft : ∀ p, mirrored (adopt (setRchild (mirrored (setParent
      (setRchild tree.nodes a (some b)) b (some a))) p (tree.nodes a).rchild)
        (tree.nodes a).rchild (some p)) = regrafted tree.nodes a b p := by
    intro p
    rw [mirrored_adopt, mirrored_setRchild, mirrored_mirrored, regrafted, grafted, setParent_setLchild]
  simp only [treeReorderRolIn, mirrorTree]
  rw [hcall, treeReorderRolLoop_mirrored, treeReorderRorLoop_congr hlchild, Option.map_map]
  congr 1
  funext p
  exact congrArg (fun nodes => ({ tree with nodes }, Ret.ok)) (hgraft p)

theorem mirrorsRol_iff
    (hp : ∃ fuel, treeReorderRorLoop tree.nodes fuel b (tree.nodes b).lchild = some p) :
    MirrorsRol tree a b ↔ regrafted tree.nodes a b p = grafted tree.nodes a b p := by
  obtain ⟨enough, hp⟩ := hp
  constructor
  · intro h
    have hsame := h enough
    rw [treeReorderRor_loop, treeReorderRol_mirrored, hp] at hsame
    have hnodes := congrArg (Option.map fun ret => ret.1.nodes) hsame
    exact (Option.some.inj hnodes).symm
  · intro h fuel
    rw [treeReorderRor_loop, treeReorderRol_mirrored]
    cases hloop : treeReorderRorLoop tree.nodes fuel b (tree.nodes b).lchild with
    | none => rfl
    | some q =>
      obtain rfl : q = p := treeReorderRorLoop_unique hloop hp
      rw [Option.map_some, Option.map_some, h]

theorem grafted_parent (nodes : Nodes Nat UInt8) (a b p c : Nat) :
    (grafted nodes a b p c).parent = (nodes c).parent :=
  (update_field _ Node.parent (by rfl) c).trans (update_field nodes Node.parent (by rfl) c)

theorem regrafted_eq_iff (hL : Linked nodes up (some a) L) :
    regrafted nodes a b p = grafted nodes a b p ↔
      (nodes b).parent = some a ∧ ((nodes a).rchild = none ∨ p = a) := by
  have hb : setParent (grafted nodes a b p) b (some a) = grafted nodes a b p ↔
      (nodes b).parent = some a := by
    rw [setParent_eq_self_iff, grafted_parent]
  rw [regrafted]
  cases hc : (nodes a).rchild with
  | none => simp [adopt, hb]
  | some d =>
    have hd : (nodes d).parent = some a := hL.parent_rchild hL.mem hc
    constructor
    · intro h
      have hpa : p = a := by
        have hdp := congrArg Node.parent (congrFun h d)
        rw [adopt, setParent_self, grafted_parent, hd] at hdp
        exact Option.some.inj hdp
      subst hpa
      refine ⟨?_, .inr rfl⟩
      by_cases hbd : b = d
      · rwa [hbd]
      · have hbp := congrArg Node.parent (congrFun h b)
        rw [adopt, setParent_of_ne _ _ hbd, setParent_self, grafted_parent] at hbp
        exact hbp.symm
    · rintro ⟨hba, hpa⟩
      obtain rfl : p = a := hpa.resolve_left (Option.some_ne_none d)
      rw [hb.mpr hba, adopt, setParent_eq_self_iff, grafted_parent, hd]

theorem sameChildren_regrafted (nodes : Nodes Nat UInt8) (a b p : Nat) :
    SameChildren (regrafted nodes a b p) (grafted nodes a b p) := by
  intro c
  rw [regrafted]
  cases (nodes a).rchild <;> simp only [adopt, setParent_lchild, setParent_rchild, and_self]

theorem linked_regrafted (hL : Linked tree.nodes upL (some a) L)
    (hR : Linked tree.nodes upR (some b) R) (hnd : (inorder L ++ inorder R).Nodup)
    (hp : ∀ fuel, (inorder R).length ≤ fuel →
      treeReorderRorLoop tree.nodes fuel b (tree.nodes b).lchild = some p) :
    ∃ t, Linked (regrafted tree.nodes a b p) upL (some a) t ∧
      inorder t = inorder L ++ inorder R := by
  have hndm : (inorder (mirror R) ++ inorder (mirror L)).Nodup := by
    rwa [inorder_mirror, inorder_mirror, ← List.reverse_append, List.nodup_reverse]
  obtain ⟨-, rl, rr, rfl⟩ := hR.exists_node
  obtain ⟨-, ll, lr, rfl⟩ := hL.exists_node
  have hmR : Linked (mirrorTree tree).nodes upR (some b) (mirror (.node b rl rr)) := hR.mirrored
  have hmL : Linked (mirrorTree tree).nodes upL (some a) (mirror (.node a ll lr)) := hL.mirrored
  obtain ⟨nodes', hrol, hjoin, -⟩ := treeReorderRolIn_eq hmR hmL hndm
  have hnodes : mirrored nodes' = regrafted tree.nodes a b p := by
    let enough := max (mirror rl).height (inorder (.node b rl rr)).length
    have hmirror := treeReorderRol_mirrored enough tree a b
    rw [hrol enough (Nat.le_max_left ..), hp enough (Nat.le_max_right ..)] at hmirror
    exact Option.some.inj
      (congrArg (Option.map fun ret : TreeTree × Ret => ret.1.nodes) hmirror)
  refine ⟨mirror (join (mirror (.node b rl rr)) (mirror (.node a ll lr))), ?_, ?_⟩
  · rw [← hnodes]
    exact hjoin.mirrored
  · rw [inorder_mirror, inorder_join, inorder_mirror, inorder_mirror, ← List.reverse_append,
      List.reverse_reverse]

theorem linked_grafted_iff (hL : Linked tree.nodes upL (some a) L)
    (hR : Linked tree.nodes upR (some b) R) (hnd : (inorder L ++ inorder R).Nodup)
    (hpR : p ∈ inorder R) (hp : ∀ fuel, (inorder R).length ≤ fuel →
      treeReorderRorLoop tree.nodes fuel b (tree.nodes b).lchild = some p) :
    (∃ t, Linked (grafted tree.nodes a b p) upL (some a) t) ↔
      (tree.nodes b).parent = some a ∧ (tree.nodes a).rchild = none := by
  obtain ⟨t, ht, hin⟩ := linked_regrafted hL hR hnd hp
  constructor
  · rintro ⟨t', ht'⟩
    have ha : (grafted tree.nodes a b p a).rchild = some b := by
      rw [grafted, setLchild_rchild, setRchild_self]
    have hba := ht'.parent_rchild ht'.mem ha
    rw [grafted_parent] at hba
    refine ⟨hba, Option.eq_none_iff_forall_ne_some.mpr fun d hd => ?_⟩
    obtain rfl : t = t' :=
      (ht.shaped.congr (sameChildren_regrafted tree.nodes a b p)).unique ht'.shaped
    have hpd : (grafted tree.nodes a b p p).lchild = some d := by
      rw [grafted, setLchild_self, hd]
    have hdp := ht'.parent_lchild (by simp [hin, hpR]) hpd
    rw [grafted_parent, hL.parent_rchild hL.mem hd] at hdp
    obtain rfl := Option.some.inj hdp
    exact List.disjoint_of_nodup_append hnd hL.mem hpR
  · rintro ⟨hba, hnone⟩
    rw [← (regrafted_eq_iff hL).mpr ⟨hba, .inl hnone⟩]
    exact ⟨t, ht⟩

/-- `tree_reorder_ror` lacks the two assignments of parents that `tree_reorder_rol` makes: it
is the mirror image just where both would change nothing, and of two trees apart it leaves
a tree with every parent right just there as well. -/
theorem reorderRor_mirrors_iff (hL : Linked tree.nodes upL (some a) L)
    (hR : Linked tree.nodes upR (some b) R) :
    ∃ nodes, (∀ fuel, (inorder R).length ≤ fuel →
        treeReorderRor fuel tree (some a) (some b) = some ({ tree with nodes }, .ok)) ∧
      (MirrorsRol tree a b ↔ (tree.nodes b).parent = some a ∧
        ((tree.nodes a).rchild = none ∨ (inorder R).head? = some a)) ∧
      ((inorder L ++ inorder R).Nodup →
        (MirrorsRol tree a b ↔
          (tree.nodes b).parent = some a ∧ (tree.nodes a).rchild = none) ∧
        ((∃ t, Linked nodes (tree.nodes a).parent (some a) t) ↔
          (tree.nodes b).parent = some a ∧ (tree.nodes a).rchild = none)) := by
  obtain ⟨p, hhead, hp⟩ := treeReorderRorLoop_below hR
  have hpR := List.mem_of_head? hhead
  have hmirrors := (mirrorsRol_iff ⟨_, hp _ (Nat.le_refl _)⟩).trans (regrafted_eq_iff hL)
  refine ⟨grafted tree.nodes a b p, fun fuel hfuel => ?_, ?_, fun hnd => ⟨?_, ?_⟩⟩
  · rw [treeReorderRor_loop, hp fuel hfuel]
    rfl
  · rw [hmirrors, hhead, Option.some_inj]
  · have hpa : p ≠ a := by
      rintro rfl
      exact List.disjoint_of_nodup_append hnd hL.mem hpR
    rw [hmirrors, or_iff_left hpa]
  · rw [hL.exists_node.1]
    exact linked_grafted_iff hL hR hnd hpR hp

def twoLeaves (up : Option Nat) : TreeTree where
  root := none
  nodes
    | 0 => ⟨1, none, none, none⟩
    | 1 => ⟨2, up, none, none⟩
    | _ => zeroNode
  numNodes := 2
  maxNodes := 2
  room := 2

theorem linked_twoLeaves (up : Option Nat) :
    Linked (twoLeaves up).nodes none (some 0) (.node 0 .nil .nil) ∧
      Linked (twoLeaves up).nodes up (some 1) (.node 1 .nil .nil) :=
  ⟨⟨rfl, rfl, rfl, rfl⟩, rfl, rfl, rfl, rfl⟩

/-- The second leaf comes below the first and has no parent. -/
theorem reorderRor_leaves_orphan :
    Linked (twoLeaves none).nodes none (some 0) (.node 0 .nil .nil) ∧
      Linked (twoLeaves none).nodes none (some 1) (.node 1 .nil .nil) ∧
      ¬ MirrorsRol (twoLeaves none) 0 1 ∧
      ∃ nodes, (∀ fuel, treeReorderRor fuel (twoLeaves none) (some 0) (some 1) =
          some ({ twoLeaves none with nodes }, .ok)) ∧
        (nodes 0).rchild = some 1 ∧ (nodes 1).parent = none ∧
        ¬ ∃ up t, Linked nodes up (some 0) t := by
  refine ⟨(linked_twoLeaves none).1, (linked_twoLeaves none).2, fun h => ?_,
    grafted (twoLeaves none).nodes 0 1 1, fun fuel => by cases fuel <;> rfl, rfl, rfl, ?_⟩
  · have hparent := congrArg (Option.map fun ret => (ret.1.nodes 1).parent) (h 0)
    exact absurd hparent (by decide)
  · rintro ⟨up, t, ht⟩
    exact absurd (ht.parent_rchild ht.mem rfl : _ = some 0) (by decide)

theorem reorderRor_mirrors_leaves :
    ∃ nodes, (∀ fuel, 1 ≤ fuel → treeReorderRor fuel (twoLeaves (some 0)) (some 0) (some 1) =
        some ({ twoLeaves (some 0) with nodes }, .ok)) ∧
      MirrorsRol (twoLeaves (some 0)) 0 1 ∧ ∃ t, Linked nodes none (some 0) t := by
  obtain ⟨hL, hR⟩ := linked_twoLeaves (some 0)
  obtain ⟨nodes, hror, -, hapart⟩ := reorderRor_mirrors_iff hL hR
  obtain ⟨hmirrors, hlinked⟩ := hapart (by decide)
  exact ⟨nodes, hror, hmirrors.mpr ⟨rfl, rfl⟩, hlinked.mpr ⟨rfl, rfl⟩⟩

end Dert.TreeT
