import HashTree.Tree.Basic

/-!
# Outlines

The drawing of a tree as text: one line a node in preorder, the short label after lines that lead
from each node to its children. The loop that draws keeps **one row of segments** for all nodes, the
lines that pass by on the left; for each node the row is cut back to the depth of that node.
-/

namespace HashTree

namespace Tree

/-- A node whose line is still to be drawn. -/
structure Pending where
  index : Nat
  /-- How many segments stand in front of the branch. -/
  depth : Nat
  /-- Is it the last child of its parent? -/
  last : Bool

/-- The branch that leads to a child. -/
def Pending.branch (p : Pending) : String :=
  if p.last then "└── " else "├── "

/-- What passes by in front of the branches below. -/
def Pending.passing (p : Pending) : String :=
  if p.last then "    " else "│   "

/-- The children of a node, to be drawn after so many segments. -/
def pendingChildren (depth : Nat) (children : List Nat) : List Pending :=
  children.zipIdx.map fun (child, place) => ⟨child, depth, place + 1 == children.length⟩

/-- Draws at most `fuel` lines; `done` holds the lines before, the last one first. -/
def drawLines (t : Tree) :
    (fuel : Nat) → List Pending → (segments done : List String) → List String
  | 0, _, _, done => done.reverse
  | _, [], _, done => done.reverse
  | fuel + 1, p :: rest, segments, done =>
    match t.nodes[p.index]? with
    | none => t.drawLines fuel rest segments done
    | some n =>
      let segments := segments.take p.depth
      t.drawLines fuel (pendingChildren (p.depth + 1) n.children ++ rest) (segments ++ [p.passing])
        ((String.join segments ++ p.branch ++ n.label) :: done)

/-- The lines of a drawing. -/
def outlineLines (t : Tree) : List String :=
  match t.root.bind fun i => t.nodes[i]? with
  | none => ["<empty>"]
  | some n => n.label :: t.drawLines t.size (pendingChildren 0 n.children) [] []

/-- The drawing of a tree, each line ended. -/
def outline (t : Tree) : String :=
  String.join (t.outlineLines.map (· ++ "\n"))

end Tree

end HashTree
