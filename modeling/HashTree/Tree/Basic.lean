import HashTree.Digest.Notation
import HashTree.Error

/-!
# Hash trees

A hash tree keeps its nodes in one array, the **arena**, and speaks of them by their index in it. A
node without children is a leaf and may keep the bytes it was hashed from; every other node lists
its children and is hashed from their digests. The tree also names its root and lists its leaves,
whose places in that list are the **positions** by which an item is found again.

The parent of a node is not chosen by whoever builds a tree: `Tree.assemble` reads all parents off
the child lists.
-/

namespace HashTree

/-! ## §1 Nodes -/

/-- What hangs below a node. -/
inductive Content where
  /-- Nothing; the payload may have been kept. -/
  | leaf (payload : Option Bytes)
  /-- Children, from left to right. -/
  | internal (children : List Nat)
  deriving DecidableEq, Repr, Inhabited

namespace Content

/-- The indices of the children. -/
def children : Content → List Nat
  | leaf _ => []
  | internal children => children

/-- The payload, where one is kept. -/
def payload? : Content → Option Bytes
  | leaf payload => payload
  | internal _ => none

/-- Does nothing hang below? -/
def isLeaf : Content → Bool
  | leaf _ => true
  | internal _ => false

/-- The same content with the children renamed. -/
def rename (index : Nat → Nat) : Content → Content
  | leaf payload => leaf payload
  | internal children => internal (children.map index)

end Content

/-- A node of a hash tree. -/
structure Node where
  algorithm : Algorithm
  digest : Digest
  parent : Option Nat
  content : Content
  deriving DecidableEq, Repr, Inhabited

namespace Node

/-- The children of a node. -/
def children (n : Node) : List Nat := n.content.children

/-- The payload of a node, where one is kept. -/
def payload? (n : Node) : Option Bytes := n.content.payload?

/-- Is the node a leaf? -/
def isLeaf (n : Node) : Bool := n.content.isLeaf

/-- The short label of a node. -/
def label (n : Node) : String := Digest.label n.digest

/-- Two nodes count as the **same** when they have one algorithm and one digest, whatever they hold
and wherever they hang. -/
def same (m n : Node) : Bool :=
  m.algorithm == n.algorithm && m.digest == n.digest

/-- A leaf by itself that keeps its payload. -/
def ofPayload (a : Algorithm) (payload : Bytes) : Node :=
  ⟨a, a.digest payload, none, .leaf (some payload)⟩

/-- A leaf by itself of which only the digest is known. -/
def ofDigest (a : Algorithm) (d : Digest) : Except NodeError Node :=
  match a.checkDigest d with
  | .ok () => .ok ⟨a, d, none, .leaf none⟩
  | .error e => .error e

/-- How many different nodes there are among some. -/
def countDistinct (nodes : List Node) : Nat :=
  (nodes.foldl (fun seen n => if seen.any n.same then seen else n :: seen) []).length

end Node

/-! ## §2 Trees -/

/-- A hash tree. -/
structure Tree where
  algorithm : Algorithm
  /-- The arena. -/
  nodes : Array Node
  /-- The indices of the leaves by position. -/
  leaves : Array Nat
  /-- The index of the root, unless the tree is empty. -/
  root : Option Nat
  deriving DecidableEq, Repr

/-- A node before its parent is known. -/
structure Cell where
  digest : Digest
  content : Content
  deriving DecidableEq, Repr, Inhabited

/-- A leaf cell of a payload, which is kept or not. -/
def Cell.ofPayload (a : Algorithm) (retain : Bool) (payload : Bytes) : Cell :=
  ⟨a.digest payload, .leaf (if retain then some payload else none)⟩

namespace Tree

/-- A tree without nodes. -/
def empty (a : Algorithm) : Tree := ⟨a, #[], #[], none⟩

/-- The **parents** of `size` nodes with the given child lists. -/
def parents (size : Nat) (children : List (List Nat)) : Array (Option Nat) :=
  children.zipIdx.foldl
    (fun table (list, parent) =>
      list.foldl (fun table child => table.setIfInBounds child (some parent)) table)
    (Array.replicate size none)

/-- The tree of some cells: every node gets the tree's algorithm and the parent that lists it. -/
def assemble (a : Algorithm) (cells : List Cell) (leaves : List Nat) (root : Nat) : Tree :=
  let table := parents cells.length (cells.map (·.content.children))
  let nodes := (cells.zip table.toList).map fun (cell, parent) =>
    ⟨a, cell.digest, parent, cell.content⟩
  ⟨a, nodes.toArray, leaves.toArray, some root⟩

/-! ## §3 Queries -/

variable (t : Tree)

/-- The number of nodes. -/
def size : Nat := t.nodes.size

/-- The number of leaves. -/
def leafCount : Nat := t.leaves.size

/-- Is the tree without leaves? -/
def isEmpty : Bool := t.leaves.isEmpty

/-- The root. -/
def rootNode : Except Error Node :=
  match t.root.bind fun i => t.nodes[i]? with
  | some n => .ok n
  | none => .error .emptyTree

/-- The digest of the root. -/
def rootDigest : Except Error Digest :=
  t.rootNode.map (·.digest)

/-- The node at an index. -/
def node (index : Nat) : Except Error Node :=
  match t.nodes[index]? with
  | some n => .ok n
  | none => .error (.indexOutOfRange index t.size)

/-- The leaf at a position. -/
def leaf (position : Nat) : Except Error Node :=
  match t.leaves[position]?.bind fun i => t.nodes[i]? with
  | some n => .ok n
  | none => .error (.indexOutOfRange position t.leafCount)

/-- The nodes at some indices. -/
def nodesAt (indices : List Nat) : List Node :=
  indices.filterMap fun i => t.nodes[i]?

/-- All leaves by position. -/
def leafNodes : List Node :=
  t.nodesAt t.leaves.toList

/-- The children of the node at an index. -/
def children (index : Nat) : Except Error (List Node) :=
  (t.node index).map fun n => t.nodesAt n.children

/-- The first index whose node has a property. -/
def find? (p : Node → Bool) : Option Nat :=
  t.nodes.findIdx? p

/-- All indices whose nodes have a property. -/
def findAll (p : Node → Bool) : List Nat :=
  (t.nodes.toList.zipIdx.filter fun (n, _) => p n).map (·.2)

/-- Where a range of indices ends. -/
inductive RangeEnd where
  /-- At the end of the arena. -/
  | unbounded
  /-- In front of this index. -/
  | before (index : Nat)
  /-- With this index. -/
  | through (index : Nat)

/-- The first index after a range. -/
def RangeEnd.stop (size : Nat) : RangeEnd → Nat
  | unbounded => size
  | before index => index
  | through index => index + 1

/-- The nodes of a range of indices, when it lies in the arena. -/
def slice? (start : Nat) (rangeEnd : RangeEnd) : Option (List Node) :=
  let stop := rangeEnd.stop t.size
  if start ≤ stop ∧ stop ≤ t.size then some ((t.nodes.toList.drop start).take (stop - start))
  else none

end Tree

end HashTree
