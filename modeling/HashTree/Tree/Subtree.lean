import HashTree.Tree.Walk

/-!
# Subtrees

A node of a tree and everything below it, seen in place or copied out. A copy keeps the order of the
arena and of the leaves, and renumbers its nodes without gaps.
-/

namespace HashTree

/-- A node of a tree and everything below it. -/
structure Subtree where
  tree : Tree
  /-- The index of the topmost node. -/
  root : Nat
  root_lt : root < tree.nodes.size

namespace Subtree

/-- The subtree under an index. -/
def ofIndex (t : Tree) (index : Nat) : Except Error Subtree :=
  if h : index < t.nodes.size then .ok ⟨t, index, h⟩
  else .error (.indexOutOfRange index t.size)

/-- The subtree under the first node with a property. -/
def find? (t : Tree) (p : Node → Bool) : Option Subtree :=
  (t.nodes.findFinIdx? p).map fun index => ⟨t, index.val, index.isLt⟩

variable (s : Subtree)

/-- The topmost node. -/
def top : Node :=
  have := s.root_lt
  s.tree.nodes[s.root]

/-- The indices of the members in level order. -/
def levelOrder : List Nat := s.tree.levelOrderFrom s.root

/-- Which indices belong to the subtree. -/
def flags : Array Bool :=
  s.levelOrder.foldl (fun flags i => flags.setIfInBounds i true)
    (Array.replicate s.tree.size false)

/-- The indices of the members in ascending order. -/
def members : List Nat :=
  (s.flags.toList.zipIdx.filter (·.1)).map (·.2)

/-- The number of members. -/
def size : Nat := s.members.length

/-- Is the subtree without members? -/
def isEmpty : Bool := s.members.isEmpty

/-- Does the node at an index belong to the subtree? -/
def contains (index : Nat) : Bool :=
  s.flags.getD index false

/-- The node at an index, when it belongs to the subtree. -/
def get? (index : Nat) : Option Node :=
  if s.contains index then s.tree.nodes[index]? else none

/-- The indices of the leaves, in the order of the tree's leaves. -/
def leaves : List Nat :=
  let flags := s.flags
  s.tree.leaves.toList.filter fun i => flags.getD i false

/-- The leaves. -/
def leafNodes : List Node := s.tree.nodesAt s.leaves

/-- The **ranks** of the members among themselves, by index. -/
def ranks : Array Nat :=
  s.members.zipIdx.foldl (fun table (index, rank) => table.setIfInBounds index rank)
    (Array.replicate s.tree.size 0)

/-- The subtree as a tree of its own. -/
def copy : Tree :=
  let ranks := s.ranks
  let rank := fun index => ranks.getD index 0
  let cells := (s.tree.nodesAt s.members).map fun n => ⟨n.digest, n.content.rename rank⟩
  Tree.assemble s.tree.algorithm cells (s.leaves.map rank) (rank s.root)

end Subtree

end HashTree
