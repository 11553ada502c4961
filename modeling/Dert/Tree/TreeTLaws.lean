import Dert.Tree.TreeT
import Mathlib.Data.List.Perm.Subperm

namespace Dert.TreeT

open BinaryTree Library Library.SearchTree Library.LinkedTree

instance instLinearOrderUInt8 : LinearOrder UInt8 where
  le_refl := UInt8.le_refl
  le_trans _ _ _ := UInt8.le_trans
  le_antisymm _ _ := UInt8.le_antisymm
  le_total := UInt8.le_total
  lt_iff_le_not_ge _ _ := by
    rw [UInt8.lt_iff_toNat_lt, UInt8.le_iff_toNat_le, UInt8.le_iff_toNat_le]
    omega
  toDecidableLE := inferInstance
  toDecidableLT := inferInstance

def valAt (nodes : Nodes Nat UInt8) (node : Nat) : UInt8 := (nodes node).val

variable {nodes : Nodes Nat UInt8} {up ptr root : Option Nat} {t l r : BinaryTree Nat}
  {C : Context Nat} {v : UInt8}

theorem treeCompare_neg {v w : UInt8} : treeCompare v w < 0 ↔ v < w := by
  rw [treeCompare, UInt8.lt_iff_toNat_lt]
  omega

theorem treeCompare_pos {v w : UInt8} : treeCompare v w > 0 ↔ w < v := by
  rw [treeCompare, UInt8.lt_iff_toNat_lt]
  omega

theorem treeCompare_zero {v w : UInt8} : treeCompare v w = 0 ↔ v = w := by
  rw [treeCompare, ← UInt8.toNat_inj]
  omega

section Loops

theorem treeLookupLoop_eq (h : Linked nodes up ptr t) {fuel : Nat} (hfuel : t.height ≤ fuel)
    (C : Context Nat) : treeLookupLoop nodes v fuel ptr =
      some (SearchTree.root (locate (valAt nodes) v C t).2) := by
  induction t generalizing up ptr fuel C with
  | nil =>
    cases h
    cases fuel <;> rfl
  | node a l r ihl ihr =>
    obtain ⟨rfl, -, hl, hr⟩ := h
    obtain ⟨fuel, rfl, hlfuel, hrfuel⟩ := exists_fuel hfuel
    simp only [treeLookupLoop, treeCompare_zero, treeCompare_neg]
    by_cases heq : v = (nodes a).val
    · rw [locate, if_pos heq, if_pos (show v = valAt nodes a from heq)]
      rfl
    · rw [locate, if_neg heq, if_neg (show v ≠ valAt nodes a from heq)]
      by_cases hlt : v < (nodes a).val
      · rw [if_pos hlt, if_pos (show v < valAt nodes a from hlt)]
        exact ihl hl hlfuel _
      · rw [if_neg hlt, if_neg (show ¬ v < valAt nodes a from hlt)]
        exact ihr hr hrfuel _

theorem treeInsertLoop_eq (h : Linked nodes up ptr t) {fuel : Nat} (hfuel : t.height ≤ fuel)
    (C : Context Nat) : treeInsertLoop nodes v fuel (above C) ptr =
      some (above (gap (valAt nodes) v C t)) := by
  induction t generalizing up ptr fuel C with
  | nil =>
    cases h
    cases fuel <;> rfl
  | node a l r ihl ihr =>
    obtain ⟨rfl, -, hl, hr⟩ := h
    obtain ⟨fuel, rfl, hlfuel, hrfuel⟩ := exists_fuel hfuel
    simp only [treeInsertLoop, treeCompare_neg]
    by_cases hlt : v < (nodes a).val
    · rw [gap, if_pos hlt, if_pos (show v < valAt nodes a from hlt)]
      exact ihl hl hlfuel (.left a r :: C)
    · rw [gap, if_neg hlt, if_neg (show ¬ v < valAt nodes a from hlt)]
      exact ihr hr hrfuel (.right l a :: C)

theorem treeReorderRolLoop_eq (h : Linked nodes up ptr t) {fuel : Nat} (hfuel : t.height ≤ fuel)
    (a : Nat) : treeReorderRolLoop nodes fuel a ptr = some (rightmost a t) := by
  induction t generalizing up ptr fuel a with
  | nil =>
    cases h
    cases fuel <;> rfl
  | node b l r _ ih =>
    obtain ⟨rfl, -, -, hr⟩ := h
    obtain ⟨fuel, rfl, -, hrfuel⟩ := exists_fuel hfuel
    exact ih hr hrfuel b

end Loops

@[simp] theorem val_setParent (nodes : Nodes Nat UInt8) (a : Nat) (ptr : Option Nat) :
    valAt (setParent nodes a ptr) = valAt nodes :=
  funext (update_field nodes Node.val rfl)

@[simp] theorem val_setLchild (nodes : Nodes Nat UInt8) (a : Nat) (ptr : Option Nat) :
    valAt (setLchild nodes a ptr) = valAt nodes :=
  funext (update_field nodes Node.val rfl)

@[simp] theorem val_setRchild (nodes : Nodes Nat UInt8) (a : Nat) (ptr : Option Nat) :
    valAt (setRchild nodes a ptr) = valAt nodes :=
  funext (update_field nodes Node.val rfl)

@[simp] theorem val_adopt (nodes : Nodes Nat UInt8) (ptr up : Option Nat) :
    valAt (adopt nodes ptr up) = valAt nodes := by
  cases ptr with
  | none => rfl
  | some c => exact val_setParent nodes c up

@[simp] theorem val_repoint (nodes : Nodes Nat UInt8) (C : Context Nat) (ptr : Option Nat) :
    valAt (repoint nodes C ptr) = valAt nodes := by
  cases C with
  | nil => rfl
  | cons f C => cases f <;> simp [repoint]

theorem treeReorderRolIn_eq {tree : TreeTree} {a b : Nat} {ll lr rl rr : BinaryTree Nat}
    {upL upR : Option Nat} (hL : Linked tree.nodes upL (some a) (.node a ll lr))
    (hR : Linked tree.nodes upR (some b) (.node b rl rr))
    (hnd : (inorder (.node a ll lr) ++ inorder (.node b rl rr)).Nodup) :
    ∃ nodes, (∀ fuel, lr.height ≤ fuel →
        treeReorderRolIn fuel tree (some a) (some b) = some ({ tree with nodes }, .ok)) ∧
      Linked nodes upR (some b) (join (.node a ll lr) (.node b rl rr)) ∧
      (∀ c ∉ inorder (.node a ll lr) ++ inorder (.node b rl rr), nodes c = tree.nodes c) ∧
      valAt nodes = valAt tree.nodes := by
  obtain ⟨hndL, -, hdisj⟩ := List.nodup_append.mp hnd
  have hbL : b ∉ inorder (.node a ll lr) := fun h => hdisj b h b (by simp) rfl
  obtain ⟨hlinked, hframe⟩ := hL.joined hR hnd
  refine ⟨_, fun fuel hfuel => ?_, hlinked, hframe, by simp [mount]⟩
  have hloop := treeReorderRolLoop_eq (hL.mounted hndL hbL).2.2.2 hfuel a
  rw [mount_rchild] at hloop
  rw [treeReorderRolIn, ← mount, hloop]
  rfl

theorem linkLchild_eq (parent c : Nat) (up : Option Nat) : linkLchild nodes parent (some c) up =
    some (setLchild (setParent nodes c up) parent (some c)) := by
  simp [linkLchild, assignParent, setParent_setLchild]

theorem linkRchild_eq (parent c : Nat) (up : Option Nat) : linkRchild nodes parent (some c) up =
    some (setRchild (setParent nodes c up) parent (some c)) := by
  simp [linkRchild, assignParent, setParent_setRchild]

/-- A right child with one subtree is what `tree_reorder_move` gets wrong. -/
def Replaceable (C : Context Nat) (l r : BinaryTree Nat) : Prop :=
  match C with
  | .right _ _ :: _ => l = .nil ↔ r = .nil
  | _ => True

/-- Where the deletion of the node follows no null pointer. -/
def Detachable (C : Context Nat) (l r : BinaryTree Nat) : Prop :=
  match C with
  | .right _ _ :: _ => r = .nil → l = .nil
  | _ => True

section Delete

variable {tree : TreeTree} {a : Nat}

theorem lchild_iff {f : Frame Nat} (h : Linked tree.nodes none tree.root (plug (f :: C) (.node a l r)))
    (hnd : (inorder (plug (f :: C) (.node a l r))).Nodup) :
    (tree.nodes f.addr).lchild = some a ↔ ∃ b s, f = .left b s := by
  obtain ⟨⟨-, -, hsib, -⟩, hhole, -⟩ := linked_plug.mp h
  have hapart := (nodup_plug.mp hnd).2.2 a (by simp)
  cases f with
  | left b s => exact ⟨fun _ => ⟨b, s, rfl⟩, fun _ => hhole⟩
  | right s b =>
    refine ⟨fun hlchild => ?_, by rintro ⟨_, _, h⟩; cases h⟩
    rw [sibling, Frame.addr] at hsib
    rw [Frame.addr] at hlchild
    rw [hlchild] at hsib
    exact absurd (mem_around.mpr (.inr (.inl hsib.mem))) hapart

theorem treeReorderMove_single (h : Linked tree.nodes none tree.root (plug C (.node a l r)))
    (hnd : (inorder (plug C (.node a l r))).Nodup) (hone : l = .nil ∨ r = .nil)
    (hgood : Replaceable C l r) :
    let ptr := SearchTree.root (join l r)
    treeReorderMove tree a = some ({ tree with
      root := reroot tree.root C ptr
      nodes := repoint (adopt tree.nodes ptr (above C)) C ptr }, .ok) := by
  intro ptr
  obtain ⟨hC, hhole, hup, hl, hr⟩ := linked_plug.mp h
  have hlchild := hl.ptr_eq
  have hrchild := hr.ptr_eq
  cases C with
  | nil =>
    rw [hole] at hhole
    rw [above] at hup
    cases l with
    | nil =>
      cases r <;> simp [treeReorderMove, hup, hhole, hlchild, hrchild, SearchTree.root, ptr, join, hang,
        reroot, repoint, adopt, above]
    | node c ll lr =>
      obtain rfl : r = .nil := by simpa using hone
      simp [treeReorderMove, hup, hhole, hlchild, hrchild, SearchTree.root, ptr, join, reroot, repoint,
        adopt, above]
  | cons f C =>
    rw [above] at hup
    have hisLchild := lchild_iff h hnd
    cases f with
    | left b s =>
      have hb : (tree.nodes b).lchild = some a := hisLchild.mpr ⟨b, s, rfl⟩
      cases l with
      | nil =>
        cases r <;> simp [treeReorderMove, hup, hb, hlchild, hrchild, SearchTree.root, ptr, join, hang,
          reroot, repoint, adopt, above, Frame.addr, linkLchild_eq]
      | node c ll lr =>
        obtain rfl : r = .nil := by simpa using hone
        simp [treeReorderMove, hup, hb, hlchild, hrchild, SearchTree.root, ptr, join, reroot, repoint,
          adopt, above, Frame.addr, linkLchild_eq]
    | right s b =>
      have hb : (tree.nodes b).lchild ≠ some a := fun hb => by simpa using hisLchild.mp hb
      obtain ⟨rfl, rfl⟩ : l = .nil ∧ r = .nil := by
        rcases hone with rfl | rfl
        · exact ⟨rfl, hgood.mp rfl⟩
        · exact ⟨hgood.mpr rfl, rfl⟩
      simp [treeReorderMove, hup, hb, hlchild, hrchild, SearchTree.root, ptr, join, reroot, repoint,
        adopt, Frame.addr]

theorem treeReorderMove_double {b c : Nat} {ll lr rl rr : BinaryTree Nat}
    (h : Linked tree.nodes none tree.root (plug C (.node a (.node b ll lr) (.node c rl rr))))
    (hnd : (inorder (plug C (.node a (.node b ll lr) (.node c rl rr)))).Nodup)
    (ho : Ordered (valAt tree.nodes) (plug C (.node a (.node b ll lr) (.node c rl rr))))
    (hfuel : lr.height ≤ tree.numNodes) :
    ∃ nodes, treeReorderMove tree a = some ({ tree with
        root := reroot tree.root C (some c)
        nodes := repoint nodes C (some c) }, .ok) ∧
      Linked nodes (above C) (some c) (join (.node b ll lr) (.node c rl rr)) ∧
      (∀ d ∉ inorder (.node b ll lr) ++ inorder (.node c rl rr), nodes d = tree.nodes d) ∧
      valAt nodes = valAt tree.nodes := by
  obtain ⟨hC, hhole, hup, hl, hr⟩ := linked_plug.mp h
  have hlchild : (tree.nodes a).lchild = some b := hl.ptr_eq
  have hrchild : (tree.nodes a).rchild = some c := hr.ptr_eq
  rw [hlchild] at hl
  rw [hrchild] at hr
  obtain ⟨hndt, -, -⟩ := nodup_plug.mp hnd
  rw [inorder_node a, List.nodup_middle, List.nodup_cons] at hndt
  obtain ⟨ha, hndLR⟩ := hndt
  obtain ⟨nodes, hin, hjoin, hframe, hval⟩ := treeReorderRolIn_eq hl hr hndLR
  have hrol := hin tree.numNodes hfuel
  rw [← treeReorderRol] at hrol
  have hna := hframe a ha
  have hc : c ∈ inorder (.node b ll lr) ++ inorder (.node c rl rr) := by simp
  refine ⟨adopt nodes (some c) (above C), ?_, hjoin.adopted (by simpa using hndLR) _, ?_, ?_⟩
  · have hmove : treeReorderMove tree a = treeReorderMoveRotate tree a := by
      cases C with
      | nil =>
        rw [hole] at hhole
        rw [above] at hup
        simp [treeReorderMove, hup, hhole, hlchild, hrchild]
      | cons f C =>
        rw [above] at hup
        simp [treeReorderMove, hup, hlchild, hrchild]
    rw [hmove, treeReorderMoveRotate, hlchild, hrchild, hrol]
    simp only [hna, hrchild, hup]
    cases C with
    | nil => rfl
    | cons f C =>
      have hadm := (ordered_plug.mp ho).2.2 c (by simp)
      have hfadm := (admits_cons.mp hadm).1
      rw [← hval] at hfadm
      simp only [above, adopt]
      cases f with
      | left p s =>
        have hlt : (nodes c).val < (nodes p).val := hfadm
        simp [treeCompare_neg, Frame.addr, hlt, linkLchild_eq, repoint, reroot]
      | right s p =>
        have hle : ¬ (nodes c).val < (nodes p).val := not_lt.mpr hfadm
        simp [treeCompare_neg, Frame.addr, hle, linkRchild_eq, repoint, reroot]
  · intro d hd
    have hdc : d ≠ c := by
      rintro rfl
      exact hd hc
    rw [adopt, setParent_of_ne _ _ hdc, hframe d hd]
  · rw [val_adopt, hval]

end Delete

/-- A tree in memory of the shape `t`, with every link and the order right. -/
structure Sound (tree : TreeTree) (t : BinaryTree Nat) : Prop where
  linked : Linked tree.nodes none tree.root t
  ordered : Ordered (valAt tree.nodes) t
  nodup : (inorder t).Nodup
  harvested : ∀ a ∈ inorder t, a < tree.numNodes

variable {tree : TreeTree} {a : Nat}

theorem Sound.unique {t' : BinaryTree Nat} (h : Sound tree t) (h' : Sound tree t') : t = t' :=
  h.linked.shaped.unique h'.linked.shaped

theorem length_le_of_harvested {n : Nat} (hnd : (inorder t).Nodup)
    (hharvested : ∀ a ∈ inorder t, a < n) : (inorder t).length ≤ n := by
  have hsub : (inorder t).Subperm (List.range n) :=
    List.subperm_of_subset hnd fun a ha => List.mem_range.mpr (hharvested a ha)
  calc
    (inorder t).length ≤ (List.range n).length := hsub.length_le
    _ = n := List.length_range

theorem Sound.length_le (h : Sound tree t) : (inorder t).length ≤ tree.numNodes :=
  length_le_of_harvested h.nodup h.harvested

theorem Sound.height_le (h : Sound tree t) : t.height ≤ tree.numNodes :=
  Nat.le_trans (height_le_length t) h.length_le

theorem Sound.treeLookup_eq (h : Sound tree t) (v : UInt8) :
    treeLookup tree v = some (SearchTree.root (locate (valAt tree.nodes) v [] t).2) :=
  treeLookupLoop_eq h.linked h.height_le []

theorem root_locate (key : Nat → UInt8) (v : UInt8) (C : Context Nat) (t : BinaryTree Nat) :
    SearchTree.root (locate key v C t).2 = find key v t := by
  induction t generalizing C with
  | nil => rfl
  | node a l r ihl ihr =>
    rw [locate, find]
    split_ifs
    · rfl
    · exact ihl _
    · exact ihr _

theorem sound_empty (hroot : tree.root = none) : Sound tree .nil :=
  ⟨hroot, trivial, List.nodup_nil, by simp⟩

theorem treeCreate_eq {granted : Bool} {maxNodes : Nat}
    (h : treeCreate granted maxNodes = some (some tree)) :
    tree.root = none ∧ tree.numNodes = 0 ∧ tree.maxNodes = maxNodes ∧
      tree.room = maxNodes % 2 ^ 59 := by
  simp only [treeCreate, treeInit] at h
  split_ifs at h with _ _ hsize
  all_goals cases h
  refine ⟨rfl, rfl, rfl, ?_⟩
  have hwrap : maxNodes * 32 % 2 ^ 64 = maxNodes % 2 ^ 59 * 32 :=
    Nat.mul_mod_mul_right 32 maxNodes (2 ^ 59)
  simp only [treeAdvise, sizeT, sizeMax, sizeofTreeTree, sizeofTreeNode, hwrap] at hsize ⊢
  omega

theorem treeCreate_cases {granted : Bool} {maxNodes : Nat}
    (h : treeCreate granted maxNodes ≠ some none) :
    (maxNodes % 2 ^ 59 = 2 ^ 59 - 1 ∧ treeCreate granted maxNodes = none) ∨
      maxNodes % 2 ^ 59 ≠ 2 ^ 59 - 1 ∧ ∃ tree, treeCreate granted maxNodes = some (some tree) := by
  have hwrap : maxNodes * 32 % 2 ^ 64 = maxNodes % 2 ^ 59 * 32 :=
    Nat.mul_mod_mul_right 32 maxNodes (2 ^ 59)
  have hsize : treeAdvise maxNodes < sizeofTreeTree ↔ maxNodes % 2 ^ 59 = 2 ^ 59 - 1 := by
    simp only [treeAdvise, sizeT, sizeMax, sizeofTreeTree, sizeofTreeNode, hwrap]
    omega
  simp only [treeCreate, treeInit, hsize] at h ⊢
  split_ifs at h ⊢ with h0 hgranted hfull
  all_goals simp_all

def planted (tree : TreeTree) (v : UInt8) (up : Option Nat) : Nodes Nat UInt8 :=
  setParent (Function.update tree.nodes tree.numNodes { zeroNode with val := v }) tree.numNodes up

theorem planted_self (tree : TreeTree) (v : UInt8) (up : Option Nat) :
    planted tree v up tree.numNodes = ⟨v, up, none, none⟩ := by
  simp [planted, zeroNode]

theorem planted_of_ne {b : Nat} (h : b ≠ tree.numNodes) (v : UInt8) (up : Option Nat) :
    planted tree v up b = tree.nodes b := by
  rw [planted, setParent_of_ne _ _ h, Function.update_of_ne h]

theorem treeNodeInsert_eq (h : Linked tree.nodes none tree.root (plug C .nil))
    (hadm : Admits (valAt tree.nodes) C v) (hold : ∀ b ∈ around C, b ≠ tree.numNodes)
    (hfull : tree.numNodes ≠ tree.maxNodes) (hroom : tree.numNodes < tree.room) :
    treeNodeInsert tree v (above C) = some ({ tree with
      root := reroot tree.root C (some tree.numNodes)
      nodes := repoint (planted tree v (above C)) C (some tree.numNodes)
      numNodes := tree.numNodes + 1 }, .ok) := by
  rw [treeNodeInsert, treeHarvest, if_neg hfull]
  simp only [treeNodeInit, if_pos hroom, Option.map_some]
  cases C with
  | nil =>
    have hroot : tree.root = none := (linked_plug.mp h).2
    simp [above, hroot, reroot, repoint, planted]
  | cons f C =>
    have hf : Function.update tree.nodes tree.numNodes { zeroNode with val := v } f.addr =
        tree.nodes f.addr := Function.update_of_ne (hold f.addr (mem_around.mpr (.inl rfl))) ..
    have hfadm := (admits_cons.mp hadm).1
    cases f with
    | left p s =>
      have hlt : v < (tree.nodes p).val := hfadm
      rw [Frame.addr] at hf
      simp [above, Frame.addr, hf, treeCompare_neg, hlt, reroot, repoint, planted, setParent_setLchild]
    | right s p =>
      have hle : ¬ v < (tree.nodes p).val := not_lt.mpr hfadm
      rw [Frame.addr] at hf
      simp [above, Frame.addr, hf, treeCompare_neg, hle, reroot, repoint, planted, setParent_setRchild]

theorem Sound.planted (h : Sound tree (plug C .nil)) (hadm : Admits (valAt tree.nodes) C v)
    (hold : ∀ b ∈ around C, b ≠ tree.numNodes) :
    Sound { tree with
      root := reroot tree.root C (some tree.numNodes)
      nodes := repoint (planted tree v (above C)) C (some tree.numNodes)
      numNodes := tree.numNodes + 1 } (plug C (.node tree.numNodes .nil .nil)) := by
  have hsame : ∀ b ∈ around C, TreeT.planted tree v (above C) b = tree.nodes b :=
    fun b hb => planted_of_ne (hold b hb) v _
  have hvals : ∀ b ∈ around C,
      valAt (repoint (TreeT.planted tree v (above C)) C (some tree.numNodes)) b =
        valAt tree.nodes b := by
    intro b hb
    rw [val_repoint, valAt, hsame b hb, valAt]
  have hleaf : Linked (TreeT.planted tree v (above C)) (above C) (some tree.numNodes)
      (.node tree.numNodes .nil .nil) := by
    simp [Linked, planted_self]
  have hapart : ∀ b ∈ inorder (.node tree.numNodes .nil .nil), b ∉ around C := by
    intro b hb hbC
    exact hold b hbC (by simpa using hb)
  refine ⟨h.linked.replace h.nodup hsame hleaf hapart, ?_, ?_, ?_⟩
  · have ho := h.ordered.congr fun b hb => hvals b ((mem_plug.mp hb).resolve_left List.not_mem_nil)
    refine ordered_plug.mpr ⟨(ordered_plug.mp ho).1, by simp [Ordered], fun b hb => ?_⟩
    obtain rfl : b = tree.numNodes := by simpa using hb
    rw [val_repoint, valAt, planted_self]
    exact hadm.congr fun b hb => by rw [valAt, hsame b hb, valAt]
  · exact nodup_plug.mpr ⟨by simp, (nodup_plug.mp h.nodup).2.1, hapart⟩
  · intro b hb
    rcases mem_plug.mp hb with hb | hb
    · obtain rfl : b = tree.numNodes := by simpa using hb
      exact Nat.lt_succ_self _
    · exact Nat.lt_succ_of_lt (h.harvested b (mem_plug.mpr (.inr hb)))

@[simp] theorem val_planted (tree : TreeTree) (v : UInt8) (up : Option Nat) :
    valAt (planted tree v up) = Function.update (valAt tree.nodes) tree.numNodes v := by
  rw [planted, val_setParent]
  funext b
  by_cases hb : b = tree.numNodes
  · subst hb
    simp [valAt]
  · simp only [valAt, Function.update_of_ne hb]

theorem Sound.treeInsertLoop_eq (h : Sound tree t) (v : UInt8) :
    treeInsertLoop tree.nodes v tree.numNodes none tree.root =
      some (above (gap (valAt tree.nodes) v [] t)) :=
  TreeT.treeInsertLoop_eq h.linked h.height_le []

theorem Sound.inserted (h : Sound tree t) (v : UInt8) (hfull : tree.numNodes ≠ tree.maxNodes)
    (hroom : tree.numNodes < tree.room) :
    ∃ root nodes,
      treeInsert tree v =
        some ({ tree with root, nodes, numNodes := tree.numNodes + 1 }, .ok) ∧
      Sound { tree with root, nodes, numNodes := tree.numNodes + 1 }
        (grow (valAt tree.nodes) v tree.numNodes t) ∧
      valAt nodes = Function.update (valAt tree.nodes) tree.numNodes v := by
  have ht : plug (gap (valAt tree.nodes) v [] t) .nil = t := plug_gap [] t
  have hgrow : plug (gap (valAt tree.nodes) v [] t) (.node tree.numNodes .nil .nil) =
      grow (valAt tree.nodes) v tree.numNodes t := plug_gap_leaf [] t
  have hadm : Admits (valAt tree.nodes) (gap (valAt tree.nodes) v [] t) v :=
    gap_admits t fun _ hf => absurd hf List.not_mem_nil
  have hloop := h.treeInsertLoop_eq v
  rw [← hgrow]
  generalize gap (valAt tree.nodes) v [] t = C at ht hadm hloop ⊢
  subst ht
  have hold : ∀ b ∈ around C, b ≠ tree.numNodes := fun b hb =>
    Nat.ne_of_lt (h.harvested b (mem_plug.mpr (.inr hb)))
  refine ⟨_, _, ?_, h.planted hadm hold, ?_⟩
  · rw [treeInsert, if_neg hfull, hloop, Option.bind_some]
    exact treeNodeInsert_eq h.linked hadm hold hfull hroom
  · rw [val_repoint, val_planted]

theorem treeInsert_outside (hfull : tree.numNodes ≠ tree.maxNodes)
    (hroom : ¬ tree.numNodes < tree.room) (v : UInt8) : treeInsert tree v = none := by
  rw [treeInsert, if_neg hfull, Option.bind_eq_none_iff]
  intro parent _
  rw [treeNodeInsert, treeHarvest, if_neg hfull]
  simp only [treeNodeInit, if_neg hroom, Option.map_none]

theorem treeInsert_full (hfull : tree.numNodes = tree.maxNodes) (v : UInt8) :
    treeInsert tree v = some (tree, .EINVAL) := by
  rw [treeInsert, if_pos hfull]

theorem Sound.adopted (h : Sound tree (plug C (.node a l r))) (hone : l = .nil ∨ r = .nil) :
    Linked (adopt tree.nodes (SearchTree.root (join l r)) (above C)) (above C) (SearchTree.root (join l r))
        (join l r) ∧
      ∀ b ∉ inorder l ++ inorder r,
        adopt tree.nodes (SearchTree.root (join l r)) (above C) b = tree.nodes b := by
  have hndt := (nodup_plug.mp h.nodup).1
  rw [inorder_node, List.nodup_middle, List.nodup_cons, ← inorder_join] at hndt
  have hjoin : Linked tree.nodes (some a) (SearchTree.root (join l r)) (join l r) := by
    obtain ⟨-, -, -, hl, hr⟩ := linked_plug.mp h.linked
    rcases hone with rfl | rfl
    · rw [join_nil_left, ← hr.ptr_eq]
      exact hr
    · rw [join, ← hl.ptr_eq]
      exact hl
  refine ⟨hjoin.adopted hndt.2 _, fun b hb => ?_⟩
  apply adopt_of_ne
  rintro c hc rfl
  rw [hc] at hjoin
  exact hb (inorder_join l r ▸ hjoin.mem)

theorem Sound.treeReorderMove_eq (h : Sound tree (plug C (.node a l r)))
    (hgood : Replaceable C l r) :
    ∃ nodes ptr, treeReorderMove tree a = some ({ tree with
        root := reroot tree.root C ptr
        nodes := repoint nodes C ptr }, .ok) ∧
      Linked nodes (above C) ptr (join l r) ∧
      (∀ b ∉ inorder l ++ inorder r, nodes b = tree.nodes b) ∧
      valAt nodes = valAt tree.nodes := by
  by_cases hone : l = .nil ∨ r = .nil
  · obtain ⟨hlinked, hframe⟩ := h.adopted hone
    exact ⟨_, _, treeReorderMove_single h.linked h.nodup hone hgood, hlinked, hframe,
      val_adopt _ _ _⟩
  · obtain ⟨hl, hr⟩ := not_or.mp hone
    cases l with
    | nil => exact absurd rfl hl
    | node b ll lr =>
      cases r with
      | nil => exact absurd rfl hr
      | node c rl rr =>
        have hfuel : lr.height ≤ tree.numNodes := by
          have hlen := h.length_le
          have hheight := height_le_length lr
          simp only [inorder_plug, inorder_node, List.length_append, List.length_cons] at hlen
          omega
        obtain ⟨nodes, hmove⟩ := treeReorderMove_double h.linked h.nodup h.ordered hfuel
        exact ⟨nodes, some c, hmove⟩

theorem mem_of_mem_join {b : Nat} (h : b ∈ inorder (join l r)) : b ∈ inorder (.node a l r) := by
  simp only [inorder_join, inorder_node, List.mem_append, List.mem_cons] at h ⊢
  tauto

theorem mem_of_mem_joined {b : Nat} (h : b ∈ inorder (plug C (join l r))) :
    b ∈ inorder (plug C (.node a l r)) := by
  rw [mem_plug] at h ⊢
  exact h.imp_left mem_of_mem_join

theorem Sound.gone (h : Sound tree (plug C (.node a l r))) :
    a ∉ inorder (plug C (join l r)) := by
  obtain ⟨hndt, -, hdisj⟩ := nodup_plug.mp h.nodup
  rw [inorder_node, List.nodup_middle, List.nodup_cons] at hndt
  rw [mem_plug, inorder_join]
  exact not_or.mpr ⟨hndt.1, hdisj a (by simp)⟩

theorem Sound.nodup_joined (h : Sound tree (plug C (.node a l r))) :
    (inorder (plug C (join l r))).Nodup := by
  obtain ⟨hndt, hndC, hdisj⟩ := nodup_plug.mp h.nodup
  rw [inorder_node, List.nodup_middle, List.nodup_cons, ← inorder_join] at hndt
  exact nodup_plug.mpr ⟨hndt.2, hndC, fun b hb => hdisj b (mem_of_mem_join hb)⟩

theorem Sound.spliced (h : Sound tree (plug C (.node a l r)))
    (hjoin : Linked nodes (above C) ptr (join l r))
    (hframe : ∀ b ∉ inorder l ++ inorder r, nodes b = tree.nodes b) :
    Linked (Function.update (repoint nodes C ptr) a zeroNode) none (reroot tree.root C ptr)
      (plug C (join l r)) := by
  obtain ⟨-, -, hdisj⟩ := nodup_plug.mp h.nodup
  have hlinked := h.linked.replace h.nodup (fun b hb => hframe b ?_) hjoin
    fun b hb => hdisj b (mem_of_mem_join hb)
  · apply hlinked.congr
    intro b hb
    apply Function.update_of_ne
    rintro rfl
    exact h.gone hb
  · intro hblr
    rw [← inorder_join] at hblr
    exact hdisj b (mem_of_mem_join hblr) hb

theorem Sound.val_spliced (h : Sound tree (plug C (.node a l r)))
    (hval : valAt nodes = valAt tree.nodes) {b : Nat} (hb : b ∈ inorder (plug C (join l r))) :
    valAt (Function.update nodes a zeroNode) b = valAt tree.nodes b := by
  have hba : b ≠ a := by
    rintro rfl
    exact h.gone hb
  rw [← hval, valAt, Function.update_of_ne hba, valAt]

theorem Sound.deleted (h : Sound tree (plug C (.node a l r))) (hgood : Replaceable C l r) :
    ∃ root nodes, treeNodeDelete tree (some a) = some ({ tree with root, nodes }, .ok) ∧
      Sound { tree with root, nodes } (plug C (join l r)) ∧
      ∀ b ∈ inorder (plug C (join l r)), valAt nodes b = valAt tree.nodes b := by
  obtain ⟨nodes, ptr, hmove, hjoin, hframe, hval⟩ := h.treeReorderMove_eq hgood
  have hvals : ∀ b ∈ inorder (plug C (join l r)),
      valAt (Function.update (repoint nodes C ptr) a zeroNode) b = valAt tree.nodes b :=
    fun b hb => h.val_spliced (by rw [val_repoint, hval]) hb
  have hdelete : treeNodeDelete tree (some a) = some ({ tree with
      root := reroot tree.root C ptr
      nodes := Function.update (repoint nodes C ptr) a zeroNode }, .ok) := by
    rw [treeNodeDelete, hmove]
    rfl
  refine ⟨_, _, hdelete, ⟨h.spliced hjoin hframe, ?_, h.nodup_joined, ?_⟩, hvals⟩
  · have ho := ordered_join (ordered_plug.mp h.ordered).2.1
    exact (h.ordered.replace ho fun b hb => mem_of_mem_join hb).congr hvals
  · exact fun b hb => h.harvested b (mem_of_mem_joined hb)

theorem Sound.lchild_ne {s : BinaryTree Nat} {p : Nat}
    (h : Sound tree (plug (.right s p :: C) (.node a l r))) :
    (tree.nodes p).lchild ≠ some a := fun hp => by
  simpa using (lchild_iff h.linked h.nodup).mp hp

/-- A right child with a left child only cannot be deleted. -/
theorem Sound.stuck (h : Sound tree (plug C (.node a l r))) (hbad : ¬ Detachable C l r) :
    treeNodeDelete tree (some a) = none := by
  obtain ⟨-, -, hup, hl, hr⟩ := linked_plug.mp h.linked
  have hlchild := hl.ptr_eq
  have hrchild := hr.ptr_eq
  rcases C with _ | ⟨⟨_, _⟩ | ⟨s, p⟩, C⟩
  · exact absurd trivial hbad
  · exact absurd trivial hbad
  · obtain ⟨rfl, hl⟩ := Classical.not_imp.mp hbad
    cases l with
    | nil => exact absurd rfl hl
    | node c ll lr =>
      rw [above] at hup
      simp [treeNodeDelete, treeReorderMove, hup, h.lchild_ne, hlchild, hrchild, SearchTree.root,
        linkRchild, assignParent, Frame.addr]

/-- The only child of a right child becomes its own parent. -/
theorem Sound.misplaced (h : Sound tree (plug C (.node a l r))) (hbad : ¬ Replaceable C l r)
    (hdet : Detachable C l r) :
    ∃ root nodes, treeNodeDelete tree (some a) = some ({ tree with root, nodes }, .ok) ∧
      Shaped nodes root (plug C (join l r)) ∧ ¬ Linked nodes none root (plug C (join l r)) ∧
      ∀ b ∈ inorder (plug C (join l r)), valAt nodes b = valAt tree.nodes b := by
  obtain ⟨-, -, hup, hl, hr⟩ := linked_plug.mp h.linked
  have hlchild := hl.ptr_eq
  have hrchild := hr.ptr_eq
  rcases C with _ | ⟨⟨_, _⟩ | ⟨s, p⟩, C⟩
  · exact absurd trivial hbad
  · exact absurd trivial hbad
  · rw [above] at hup
    cases r with
    | nil =>
      obtain rfl : l = .nil := hdet rfl
      exact absurd Iff.rfl hbad
    | node c rl rr =>
      obtain rfl : l = .nil := by
        by_contra hl
        exact hbad (by simp [Replaceable, hl])
      have hmove : treeReorderMove tree a = some ({ tree with
          nodes := setRchild (setParent tree.nodes c (some c)) p (some c) }, .ok) := by
        simp [treeReorderMove, hup, h.lchild_ne, hlchild, hrchild, SearchTree.root, linkRchild_eq,
          Frame.addr]
      refine ⟨_, _, by rw [treeNodeDelete, hmove]; rfl, ?_, fun hlinked => ?_, fun b hb => ?_⟩
      · obtain ⟨hadopted, hframe⟩ := h.adopted (.inl rfl)
        have hspliced := h.spliced hadopted hframe
        exact hspliced.shaped.congr <|
          .update (.setRchild _ (sameChildren_setParent tree.nodes (some p) (some c))) rfl rfl
      · obtain ⟨-, -, hc, -⟩ := linked_plug.mp hlinked
        obtain ⟨hndt, -, hdisj⟩ := nodup_plug.mp h.nodup
        have hcp : c ≠ p := by
          rintro rfl
          exact hdisj c (by simp) (mem_around.mpr (.inl rfl))
        have hca : c ≠ a := by
          rintro rfl
          simp [List.nodup_append] at hndt
        simp [Function.update_of_ne hca, setRchild_of_ne _ _ hcp, above, Frame.addr, hcp] at hc
      · exact h.val_spliced (by rw [val_setRchild, val_setParent]) hb

/-- Whatever it does to the parents, a deletion takes one node out. -/
theorem Sound.detached (h : Sound tree (plug C (.node a l r))) (hdet : Detachable C l r) :
    ∃ root nodes, treeNodeDelete tree (some a) = some ({ tree with root, nodes }, .ok) ∧
      Shaped nodes root (plug C (join l r)) ∧
      ∀ b ∈ inorder (plug C (join l r)), valAt nodes b = valAt tree.nodes b := by
  by_cases hrep : Replaceable C l r
  · obtain ⟨root, nodes, heq, hsound, hvals⟩ := h.deleted hrep
    exact ⟨root, nodes, heq, hsound.linked.shaped, hvals⟩
  · obtain ⟨root, nodes, heq, hshaped, -, hvals⟩ := h.misplaced hrep hdet
    exact ⟨root, nodes, heq, hshaped, hvals⟩

end Dert.TreeT
