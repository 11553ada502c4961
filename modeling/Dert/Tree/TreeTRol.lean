import Dert.Tree.TreeTLaws

namespace Dert.TreeT

open BinaryTree Library.SearchTree Library.LinkedTree

variable {tree : TreeTree} {nodes : Nodes Nat UInt8} {a b : Nat} {up upL upR : Option Nat}
  {L R t : BinaryTree Nat}

/-- `t` below `b` is the tree of the nodes of `L` and then those of `R`, in order and with
every parent link right, and `nodes` differs from the memory of `tree` nowhere else. -/
structure Reordered (tree : TreeTree) (nodes : Nodes Nat UInt8) (a b : Nat)
    (L R t : BinaryTree Nat) : Prop where
  linked : Linked nodes (tree.nodes b).parent (some b) t
  ordered : Ordered (valAt nodes) t
  inorder_eq : inorder t = inorder L ++ inorder R
  root : nodes b = { tree.nodes b with lchild := some a }
  vals : valAt nodes = valAt tree.nodes
  others : ∀ c ∉ inorder L ++ inorder R, nodes c = tree.nodes c

theorem root_of_joined {ll lr rl rr : BinaryTree Nat}
    (hR : Linked tree.nodes upR (some b) (.node b rl rr))
    (ht : Linked nodes upR (some b) (join (.node a ll lr) (.node b rl rr)))
    (hval : valAt nodes = valAt tree.nodes) :
    nodes b = { tree.nodes b with lchild := some a } := by
  obtain ⟨-, hup, -, hrr⟩ := hR
  obtain ⟨-, hup', hl', hrr'⟩ := ht
  have hlchild : (nodes b).lchild = some a := hl'.ptr_eq
  have hrchild : (nodes b).rchild = (tree.nodes b).rchild := hrr'.ptr_eq.trans hrr.ptr_eq.symm
  have hparent : (nodes b).parent = (tree.nodes b).parent := hup'.trans hup.symm
  have hb : (nodes b).val = (tree.nodes b).val := congrFun hval b
  calc nodes b = ⟨(nodes b).val, (nodes b).parent, (nodes b).lchild, (nodes b).rchild⟩ := rfl
    _ = { tree.nodes b with lchild := some a } := by rw [hb, hparent, hlchild, hrchild]

/-- `tree_reorder_rol` on two search trees with the first below the second: the loop ends
and the second root is the root of them all. -/
theorem reorderRol_joins (hL : Linked tree.nodes upL (some a) L)
    (hR : Linked tree.nodes upR (some b) R) (hoL : Ordered (valAt tree.nodes) L)
    (hoR : Ordered (valAt tree.nodes) R)
    (hlt : ∀ c ∈ inorder L, ∀ d ∈ inorder R, valAt tree.nodes c < valAt tree.nodes d) :
    ∃ nodes t, (∀ fuel, (inorder L).length ≤ fuel →
        treeReorderRolIn fuel tree (some a) (some b) = some ({ tree with nodes }, .ok)) ∧
      Reordered tree nodes a b L R t := by
  have hnd : (inorder L ++ inorder R).Nodup := by
    refine List.nodup_append.mpr ⟨hL.shaped.nodup hoL, hR.shaped.nodup hoR, fun c hc d hd heq => ?_⟩
    subst heq
    exact lt_irrefl _ (hlt c hc c hd)
  obtain ⟨-, ll, lr, rfl⟩ := hL.exists_node
  obtain ⟨hup, rl, rr, rfl⟩ := hR.exists_node
  obtain ⟨nodes, hrol, hlinked, hframe, hval⟩ := treeReorderRolIn_eq hL hR hnd
  refine ⟨nodes, join (.node a ll lr) (.node b rl rr), fun fuel hfuel => hrol fuel ?_,
    by rwa [hup], ?_, inorder_join _ _, root_of_joined hR hlinked hval, hval, hframe⟩
  · have hheight := height_le_length lr
    rw [inorder_node, List.length_append, List.length_cons] at hfuel
    omega
  · rw [hval]
    exact hoL.join hoR hlt

def twoPairs : TreeTree where
  root := none
  nodes
    | 0 => ⟨1, none, none, some 1⟩
    | 1 => ⟨2, some 0, none, none⟩
    | 2 => ⟨5, none, some 3, none⟩
    | 3 => ⟨4, some 2, none, none⟩
    | _ => zeroNode
  numNodes := 4
  maxNodes := 4
  room := 4

theorem reorderRol_joins_pairs :
    ∃ nodes t, (∀ fuel, 2 ≤ fuel →
        treeReorderRolIn fuel twoPairs (some 0) (some 2) = some ({ twoPairs with nodes }, .ok)) ∧
      Reordered twoPairs nodes 0 2 (.node 0 .nil (.node 1 .nil .nil))
        (.node 2 (.node 3 .nil .nil) .nil) t := by
  have hL : Linked twoPairs.nodes none (some 0) (.node 0 .nil (.node 1 .nil .nil)) :=
    ⟨rfl, rfl, rfl, rfl, rfl, rfl, rfl⟩
  have hR : Linked twoPairs.nodes none (some 2) (.node 2 (.node 3 .nil .nil) .nil) :=
    ⟨rfl, rfl, ⟨rfl, rfl, rfl, rfl⟩, rfl⟩
  refine reorderRol_joins hL hR ?_ ?_ ?_
  · simp [Ordered, valAt, twoPairs]
  · simp [Ordered, valAt, twoPairs]
  · decide

end Dert.TreeT
