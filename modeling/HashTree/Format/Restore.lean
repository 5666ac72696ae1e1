import HashTree.Format.Document
import HashTree.Tree.Walk

/-!
# Restoring documents

A document is turned back into a tree or an opening only if it describes one: every digest has the
size of the algorithm and is the hash of what stands below it, and the child lists form one tree
over all nodes. The rules are judged in a fixed order, and the first broken one is reported.
-/

namespace HashTree

/-! ## §1 Rules for single parts -/

/-- A rule is broken in a section. -/
def broken {α : Type} (place : Section) (rule : Inconsistency) : Except FormatError α :=
  .error (.inconsistent place rule)

/-- Nothing, when a condition holds; else the rule is broken. -/
def require (condition : Bool) (place : Section) (rule : Inconsistency) :
    Except FormatError Unit :=
  if condition then .ok () else broken place rule

/-- A digest has the size of the algorithm. -/
def requireSize (a : Algorithm) (place : Section) (d : Digest) : Except FormatError Unit :=
  require (d.length == a.digestSize) place .digestLength

/-- A payload that is kept hashes to the digest. -/
def requirePayload (a : Algorithm) (place : Section) (payload : Option Bytes) (d : Digest) :
    Except FormatError Unit :=
  require (payload.all fun b => a.digest b == d) place .payloadDigest

namespace NodeDocument

/-- The indices of the children. -/
def childIndices (n : NodeDocument) : List Nat := n.children.map UInt32.toNat

/-- Is the node a leaf? -/
def isLeaf (n : NodeDocument) : Bool := n.children.isEmpty

/-- The node before its parent is known. -/
def toCell (n : NodeDocument) : Cell :=
  ⟨n.digest, if n.isLeaf then .leaf n.payload else .internal n.childIndices⟩

end NodeDocument

namespace TreeDocument

/-! ## §2 The shape of a tree -/

/-- Enters a parent for a child that has none yet. -/
def claim (parent : Nat) (table : Array (Option Nat)) (child : Nat) :
    Except FormatError (Array (Option Nat)) :=
  match table[child]? with
  | none => broken .node .childOutOfRange
  | some (some _) => broken .tree .severalParents
  | some none => .ok (table.setIfInBounds child (some parent))

/-- Judges a node by itself and enters it as the parent of its children. -/
def claimChildren (a : Algorithm) (table : Array (Option Nat)) (entry : NodeDocument × Nat) :
    Except FormatError (Array (Option Nat)) := do
  let (n, index) := entry
  requireSize a .node n.digest
  if n.isLeaf then
    requirePayload a .node n.payload n.digest
    return table
  else
    require n.payload.isNone .node .internalPayload
    require (2 ≤ n.children.length) .node .singleChild
    n.childIndices.foldlM (claim index) table

/-- The parents that the nodes claim to be. -/
def claimAll (a : Algorithm) (nodes : List NodeDocument) :
    Except FormatError (Array (Option Nat)) :=
  nodes.zipIdx.foldlM (claimChildren a) (Array.replicate nodes.length none)

/-- Exactly the root has no parent. -/
def requireParents (root : Nat) (table : Array (Option Nat)) : Except FormatError Unit :=
  require (table.toList.zipIdx.all fun (parent, index) => (index == root) == parent.isNone)
    .tree .missingParent

/-- Follows a walk and counts its nodes, each of which must be new. A walk of more steps than there
are nodes has met one of them twice. -/
def survey : (fuel : Nat) → Walk → (seen : Array Bool) → (count : Nat) → Except FormatError Nat
  | 0, w, _, count =>
    match w.next? with
    | none => .ok count
    | some _ => broken .tree .reachableTwice
  | fuel + 1, w, seen, count =>
    match w.next? with
    | none => .ok count
    | some (index, w) =>
      if seen.getD index false then broken .tree .reachableTwice
      else survey fuel w (seen.setIfInBounds index true) (count + 1)

/-- All nodes lie below the root. -/
def requireReachable (root : Nat) (nodes : List NodeDocument) : Except FormatError Unit := do
  let below := (nodes.map (·.childIndices)).toArray
  let reached ← survey below.size (.start below (some root)) (Array.replicate below.size false) 0
  require (reached == below.size) .tree .unreachable

/-! ## §3 The leaves of a tree -/

/-- Enters a leaf in the list of those that have been named. -/
def nameLeaf (nodes : Array NodeDocument) (named : Array Bool) (leaf : Nat) :
    Except FormatError (Array Bool) :=
  match nodes[leaf]? with
  | none => broken .tree .leafOutOfRange
  | some n => do
    require (!named.getD leaf false) .tree .leafListedTwice
    require n.isLeaf .tree .leafInternal
    return named.setIfInBounds leaf true

/-- The list of leaves names every node without children once. -/
def requireLeaves (leaves : List Nat) (nodes : List NodeDocument) : Except FormatError Unit := do
  let _ ← leaves.foldlM (nameLeaf nodes.toArray) (Array.replicate nodes.length false)
  require (nodes.countP (·.isLeaf) == leaves.length) .tree .leafMissing

/-! ## §4 The digests of a tree -/

/-- A branch is hashed from its children. -/
def requireDigest (a : Algorithm) (digests : Array Digest) (n : NodeDocument) :
    Except FormatError Unit :=
  require (n.isLeaf || a.digest (n.childIndices.flatMap fun i => digests.getD i []) == n.digest)
    .node .internalDigest

/-- All branches are hashed from their children. -/
def requireDigests (a : Algorithm) (nodes : List NodeDocument) : Except FormatError Unit := do
  let digests := (nodes.map (·.digest)).toArray
  nodes.forM (requireDigest a digests)

/-! ## §5 Trees -/

/-- The tree that a document describes under an algorithm. -/
def restore (a : Algorithm) (d : TreeDocument) : Except FormatError Tree := do
  match d.root with
  | none =>
    require (d.nodes.isEmpty && d.leaves.isEmpty) .tree .nodesWithoutRoot
    return Tree.empty a
  | some root =>
    let root := root.toNat
    let leaves := d.leaves.map UInt32.toNat
    require (root < d.nodes.length) .tree .rootOutOfRange
    let table ← claimAll a d.nodes
    requireParents root table
    requireReachable root d.nodes
    requireLeaves leaves d.nodes
    requireDigests a d.nodes
    return Tree.assemble a (d.nodes.map (·.toCell)) leaves root

end TreeDocument

/-! ## §6 Openings -/

namespace OpeningDocument

/-- Is every number smaller than the next? -/
def increasing : List Nat → Bool
  | [] => true
  | [_] => true
  | m :: n :: rest => m < n && increasing (n :: rest)

/-- The slot of a document, among `count` leaves. -/
def restoreSlot (a : Algorithm) (count : Nat) : SlotDocument → Except FormatError Slot
  | .sibling digest => do
    requireSize a .proofStep digest
    return .sibling digest
  | .leaf rank => do
    require (rank.toNat < count) .proofStep .slotOutOfRange
    return .leaf rank.toNat
  | .child => .ok .child

/-- The step of a document, among `count` leaves. -/
def restoreStep (a : Algorithm) (count : Nat) (step : List SlotDocument) :
    Except FormatError Step := do
  require (!step.isEmpty) .proofStep .emptyStep
  step.mapM (restoreSlot a count)

/-- A leaf has a digest of the right size, and a payload that hashes to it if it has one. -/
def requireOpened (a : Algorithm) (leaf : Opened) : Except FormatError Unit := do
  requireSize a .proofLeaf leaf.digest
  requirePayload a .proofLeaf leaf.payload leaf.digest

/-- The opening that a document describes under an algorithm. -/
def restore (a : Algorithm) (d : OpeningDocument) : Except FormatError Opening := do
  let indices := d.indices.map UInt32.toNat
  let count := indices.length
  require (!indices.isEmpty) .proof .noLeaves
  require (increasing indices) .proof .indicesNotIncreasing
  require (d.captured.length == count && d.current.length == count) .proof .bufferLength
  requireSize a .proof d.expected
  let steps ← d.steps.mapM (restoreStep a count)
  d.captured.forM (requireOpened a)
  d.current.forM (requireOpened a)
  return ⟨a, indices, steps, d.expected, d.captured, d.current⟩

end OpeningDocument

end HashTree
