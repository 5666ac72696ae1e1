import HashTree.Opening.Basic
import HashTree.Tree.Walk

/-!
# Opening a tree

The opening of a tree at some positions has one step for each branch **above a selected leaf**, in
postorder. Which nodes these are is found in one pass in that same order, from the leaves upwards.
-/

namespace HashTree

/-- What a node is to the selected leaves. -/
inductive Standing where
  /-- No selected leaf lies at or below it. -/
  | outside
  /-- It is the selected leaf of this rank. -/
  | selected (rank : Nat)
  /-- A selected leaf lies below it. -/
  | above
  deriving DecidableEq, Repr, Inhabited

/-- The standing of the node at an index; a node that is not listed is outside. -/
def standingAt (standings : Array Standing) (index : Nat) : Standing :=
  standings.getD index .outside

namespace Tree

variable (t : Tree)

/-- The positions that are opened: each once, ascending. -/
def selection (indices : List Nat) : List Nat :=
  (indices.mergeSort (· ≤ ·)).eraseReps

/-- The standings of the selected leaves alone. -/
def selectedStandings (leaves : List Nat) : Array Standing :=
  leaves.zipIdx.foldl (fun table (leaf, rank) => table.setIfInBounds leaf (.selected rank))
    (Array.replicate t.size .outside)

/-- Marks a branch when one of its children is not outside. -/
def markAbove (standings : Array Standing) (index : Nat) : Array Standing :=
  if (t.childrenAt index).any fun child => standingAt standings child != .outside then
    standings.setIfInBounds index .above
  else standings

/-- The standings of all nodes. -/
def standings (leaves : List Nat) : Array Standing :=
  t.postorder.foldl t.markAbove (t.selectedStandings leaves)

/-- The slot of a child. -/
def slotOf (standings : Array Standing) (child : Nat) : Slot :=
  match standingAt standings child with
  | .selected rank => .leaf rank
  | .above => .child
  | .outside => .sibling ((t.nodes[child]?.map (·.digest)).getD [])

/-- The steps from some leaves to the root. -/
def stepsFrom (leaves : List Nat) : List Step :=
  let standings := t.standings leaves
  (t.postorder.filter fun index => standingAt standings index == .above).map fun index =>
    (t.childrenAt index).map (t.slotOf standings)

/-- The opening of a tree at some positions, in any order and with repetitions. Of positions out of
range the smallest is reported. -/
def openAt (indices : List Nat) : Except Error Opening := do
  let expected ← t.rootDigest
  let positions := selection indices
  if positions.isEmpty then throw (.opening .noLeaves)
  match positions.find? (t.leafCount ≤ ·) with
  | some index => throw (.indexOutOfRange index t.leafCount)
  | none =>
    let leaves := positions.filterMap fun position => t.leaves[position]?
    let opened := (t.nodesAt leaves).map fun n => ⟨n.payload?, n.digest⟩
    return ⟨t.algorithm, positions, t.stepsFrom leaves, expected, opened, opened⟩

end Tree

end HashTree
