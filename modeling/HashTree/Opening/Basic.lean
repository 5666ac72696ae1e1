import HashTree.Error

/-!
# Openings

An opening shows that some leaves lie at some positions below a root without showing the whole
tree. It is a list of **steps**, one for each branch above an opened leaf, children before parents;
each slot of a step says where the digest of one child comes from.

The leaves are held twice: as they were when the opening was made, and as they stand now.
-/

namespace HashTree

/-- Where the digest of a child comes from. -/
inductive Slot where
  /-- It is given, because no opened leaf lies below. -/
  | sibling (digest : Digest)
  /-- The child is an opened leaf, named by its rank among them. -/
  | leaf (rank : Nat)
  /-- The child is the branch of the last step that has not been used yet. -/
  | child
  deriving DecidableEq, Repr

/-- The children of a branch from left to right. -/
abbrev Step := List Slot

/-- Which side of the way to the root a digest stands on. -/
inductive Side where
  | left
  | right
  deriving DecidableEq, Repr

/-- The name of a side. -/
def Side.name : Side → String
  | left => "left"
  | right => "right"

namespace Slot

/-- The digest of a sibling. -/
def sibling? : Slot → Option Digest
  | sibling digest => some digest
  | _ => none

end Slot

namespace Step

/-- The siblings in a step with their sides: **left** in front of the first slot that is no sibling,
and right behind it. -/
def sides (step : Step) : List (Side × Digest) :=
  let front := step.takeWhile (·.sibling?.isSome)
  let back := step.dropWhile (·.sibling?.isSome)
  (front.filterMap Slot.sibling?).map (Side.left, ·)
    ++ (back.filterMap Slot.sibling?).map (Side.right, ·)

end Step

/-- A leaf of an opening. -/
structure Opened where
  payload : Option Bytes
  digest : Digest
  deriving DecidableEq, Repr

/-- The opening of some leaves. -/
structure Opening where
  algorithm : Algorithm
  /-- The positions of the leaves, ascending. -/
  indices : List Nat
  steps : List Step
  /-- The digest of the root. -/
  expected : Digest
  /-- The leaves when the opening was made. -/
  captured : List Opened
  /-- The leaves as they stand now. -/
  current : List Opened
  deriving DecidableEq, Repr

end HashTree
