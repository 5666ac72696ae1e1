import HashTree.Opening.Basic
import HashTree.Tree.Basic

/-!
# Documents

A document is what is written of a tree or an opening, the same for every encoding: a version, the
name of the algorithm, and the structure with all indices in 32 bits. Parents are not written, as
the child lists determine them.
-/

namespace HashTree

/-- The version of the documents that are written and read. -/
def formatVersion : UInt16 := 1

/-! ## §1 Trees -/

/-- What is written of a node. A node without children is a leaf. -/
structure NodeDocument where
  digest : Digest
  payload : Option Bytes
  children : List UInt32
  deriving DecidableEq, Repr, Inhabited

/-- What is written of a tree. -/
structure TreeDocument where
  version : UInt16
  algorithm : String
  root : Option UInt32
  leaves : List UInt32
  nodes : List NodeDocument
  deriving DecidableEq, Repr

/-- The document of a node. -/
def Node.toDocument (n : Node) : Except FormatError NodeDocument := do
  let children ← n.children.mapM (Label.checkIndex ⟨.tree, "children"⟩)
  return ⟨n.digest, n.payload?, children⟩

/-- The document of a tree. -/
def Tree.toDocument (t : Tree) : Except FormatError TreeDocument := do
  let nodes ← t.nodes.toList.mapM Node.toDocument
  let root ← t.root.mapM (Label.checkIndex ⟨.tree, "root"⟩)
  let leaves ← t.leaves.toList.mapM (Label.checkIndex ⟨.tree, "leaves"⟩)
  return ⟨formatVersion, t.algorithm.name, root, leaves, nodes⟩

/-! ## §2 Openings -/

/-- What is written of a slot. -/
inductive SlotDocument where
  | sibling (digest : Digest)
  | leaf (rank : UInt32)
  | child
  deriving DecidableEq, Repr

/-- What is written of an opening. -/
structure OpeningDocument where
  version : UInt16
  algorithm : String
  indices : List UInt32
  expected : Digest
  steps : List (List SlotDocument)
  captured : List Opened
  current : List Opened
  deriving DecidableEq, Repr

/-- The document of a slot. -/
def Slot.toDocument : Slot → Except FormatError SlotDocument
  | sibling digest => .ok (.sibling digest)
  | leaf rank => (Label.checkIndex ⟨.proofStep, "leaf"⟩ rank).map .leaf
  | child => .ok .child

/-- The document of an opening. -/
def Opening.toDocument (o : Opening) : Except FormatError OpeningDocument := do
  let steps ← o.steps.mapM fun step => step.mapM Slot.toDocument
  let indices ← o.indices.mapM (Label.checkIndex ⟨.proof, "indices"⟩)
  return ⟨formatVersion, o.algorithm.name, indices, o.expected, steps, o.captured, o.current⟩

end HashTree
