import HashTree.Format.Document
import HashTree.Wire.Cursor
import HashTree.Wire.Output

/-!
# Documents as bytes

The fields of a document one after the other. A digest takes no length of its own, since the
algorithm fixes its width, so a document is read and written **for a given width**.
-/

namespace HashTree

namespace Binary

/-! ## §1 The head of a document -/

/-- The kinds of documents. -/
inductive Kind where
  | tree
  | opening
  deriving DecidableEq, Repr

/-- The number that stands for a kind. -/
def Kind.tag : Kind → UInt8
  | tree => 1
  | opening => 2

/-- Writes the version, the kind and the name of the algorithm. -/
def writeHead (kind : Kind) (algorithm : String) : Output :=
  Output.u16 formatVersion ++ Output.u8 kind.tag ++ Output.text ⟨.header, "algorithm"⟩ algorithm

/-- Reads the version and the kind, which must be as expected, and the name of the algorithm. -/
def readHead (kind : Kind) : Read String := do
  let version ← Read.u16 ⟨.header, "version"⟩
  if version ≠ formatVersion then Read.fail ⟨.header, .unsupportedVersion version⟩
  else
    let tag ← Read.u8 ⟨.header, "tag"⟩
    if tag ≠ kind.tag then Read.fail (Label.invalidValue ⟨.header, "tag"⟩)
    else Read.text ⟨.header, "algorithm"⟩

/-! ## §2 Shared fields -/

/-- Writes a payload that may be absent. -/
def writePayload (place : Section) (payload : Option Bytes) : Output :=
  Output.option (Output.sized ⟨place, "payload"⟩) payload

/-- Reads a payload that may be absent. -/
def readPayload (place : Section) : Read (Option Bytes) :=
  Read.option ⟨place, "payload"⟩ (Read.sized ⟨place, "payload"⟩)

/-- Writes a list of indices. -/
def writeIndices (l : Label) (indices : List UInt32) : Output :=
  Output.list l Output.u32 indices

/-- Reads a list of indices. -/
def readIndices (l : Label) : Read (List UInt32) :=
  Read.list l (Read.u32 l)

/-! ## §3 Trees -/

/-- Writes a node. -/
def writeNode (width : Nat) (n : NodeDocument) : Output :=
  Output.digest ⟨.node, "digest"⟩ width n.digest ++ writePayload .node n.payload
    ++ writeIndices ⟨.node, "children"⟩ n.children

/-- Reads a node. -/
def readNode (width : Nat) : Read NodeDocument := do
  let digest ← Read.take ⟨.node, "digest"⟩ width
  let payload ← readPayload .node
  let children ← readIndices ⟨.node, "children"⟩
  return ⟨digest, payload, children⟩

/-- Writes a tree. -/
def writeTree (width : Nat) (d : TreeDocument) : Output :=
  writeHead .tree d.algorithm ++ Output.option Output.u32 d.root
    ++ writeIndices ⟨.tree, "leaves"⟩ d.leaves
    ++ Output.list ⟨.tree, "nodes"⟩ (writeNode width) d.nodes

/-- Reads a tree to the end of the bytes. -/
def readTree (width : Nat) : Read TreeDocument := do
  let algorithm ← readHead .tree
  let root ← Read.option ⟨.tree, "root"⟩ (Read.u32 ⟨.tree, "root"⟩)
  let leaves ← readIndices ⟨.tree, "leaves"⟩
  let nodes ← Read.list ⟨.tree, "nodes"⟩ (readNode width)
  Read.finish .tree
  return ⟨formatVersion, algorithm, root, leaves, nodes⟩

/-! ## §4 Openings -/

/-- Writes a slot. -/
def writeSlot (width : Nat) : SlotDocument → Output
  | .sibling digest => Output.u8 0 ++ Output.digest ⟨.proofStep, "sibling"⟩ width digest
  | .leaf rank => Output.u8 1 ++ Output.u32 rank
  | .child => Output.u8 2

/-- Reads a slot. -/
def readSlot (width : Nat) : Read SlotDocument := do
  let tag ← Read.u8 ⟨.proofStep, "slot"⟩
  if tag = 0 then return .sibling (← Read.take ⟨.proofStep, "sibling"⟩ width)
  else if tag = 1 then return .leaf (← Read.u32 ⟨.proofStep, "leaf"⟩)
  else if tag = 2 then return .child
  else Read.fail (Label.invalidValue ⟨.proofStep, "slot"⟩)

/-- Writes the steps of an opening. -/
def writeSteps (width : Nat) (steps : List (List SlotDocument)) : Output :=
  Output.list ⟨.proof, "steps"⟩ (Output.list ⟨.proofStep, "slots"⟩ (writeSlot width)) steps

/-- Reads the steps of an opening. -/
def readSteps (width : Nat) : Read (List (List SlotDocument)) :=
  Read.list ⟨.proof, "steps"⟩ (Read.list ⟨.proofStep, "slots"⟩ (readSlot width))

/-- Writes a leaf of an opening. -/
def writeOpened (width : Nat) (leaf : Opened) : Output :=
  writePayload .proofLeaf leaf.payload ++ Output.digest ⟨.proofLeaf, "digest"⟩ width leaf.digest

/-- Reads a leaf of an opening. -/
def readOpened (width : Nat) : Read Opened := do
  let payload ← readPayload .proofLeaf
  let digest ← Read.take ⟨.proofLeaf, "digest"⟩ width
  return ⟨payload, digest⟩

/-- Writes an opening. -/
def writeOpening (width : Nat) (d : OpeningDocument) : Output :=
  writeHead .opening d.algorithm ++ writeIndices ⟨.proof, "indices"⟩ d.indices
    ++ Output.digest ⟨.proof, "expected"⟩ width d.expected ++ writeSteps width d.steps
    ++ Output.list ⟨.proof, "original"⟩ (writeOpened width) d.captured
    ++ Output.list ⟨.proof, "working"⟩ (writeOpened width) d.current

/-- Reads an opening to the end of the bytes. -/
def readOpening (width : Nat) : Read OpeningDocument := do
  let algorithm ← readHead .opening
  let indices ← readIndices ⟨.proof, "indices"⟩
  let expected ← Read.take ⟨.proof, "expected"⟩ width
  let steps ← readSteps width
  let captured ← Read.list ⟨.proof, "original"⟩ (readOpened width)
  let current ← Read.list ⟨.proof, "working"⟩ (readOpened width)
  Read.finish .proof
  return ⟨formatVersion, algorithm, indices, expected, steps, captured, current⟩

end Binary

end HashTree
