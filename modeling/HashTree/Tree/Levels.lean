import HashTree.Tree.Basic

/-!
# Trees of items

The tree of a list of items is built level by level. The lowest level holds a leaf for each item;
each further level joins the nodes of the one below in pairs, and a node without a partner is
carried up as it is. The nodes stand in the arena in the order in which they are made.
-/

namespace HashTree

/-- A node that has no parent yet. -/
structure Top where
  index : Nat
  digest : Digest
  deriving DecidableEq, Repr

/-- Cells in the order in which they were made, the last one first, and their number. -/
structure Growth where
  cells : List Cell
  count : Nat

namespace Growth

/-- Adds the parent of some nodes, hashed from their digests in order. -/
def join (g : Growth) (a : Algorithm) (children : List Top) : Top × Growth :=
  let digest := a.digest (children.flatMap (·.digest))
  (⟨g.count, digest⟩, ⟨⟨digest, .internal (children.map (·.index))⟩ :: g.cells, g.count + 1⟩)

/-- Makes the next level; `done` holds its nodes so far, the last one first. -/
def pairUp (a : Algorithm) : Growth → List Top → (done : List Top) → List Top × Growth
  | g, [], done => (done.reverse, g)
  | g, [single], done => ((single :: done).reverse, g)
  | g, left :: right :: rest, done =>
    let (top, g) := g.join a [left, right]
    pairUp a g rest (top :: done)

/-- A level has half as many nodes as the one below, rounded up. -/
theorem length_pairUp (a : Algorithm) (g : Growth) (level done : List Top) :
    (pairUp a g level done).1.length = done.length + (level.length + 1) / 2 := by
  fun_induction pairUp a g level done with
  | case1 => simp
  | case2 => simp
  | case3 g left right rest done top g' _ ih =>
    rw [ih]
    simp only [List.length_cons]
    omega

/-- Makes level after level until one node is left. -/
def grow (a : Algorithm) (g : Growth) (level : List Top) : Option Top × Growth :=
  match level with
  | [] => (none, g)
  | [root] => (some root, g)
  | left :: right :: rest =>
    let next := pairUp a g (left :: right :: rest) []
    grow a next.2 next.1
termination_by level.length
decreasing_by
  rw [length_pairUp]
  simp only [List.length_cons, List.length_nil]
  omega

end Growth

namespace Tree

/-- The tree of a list of items, whose payloads are kept or not. -/
def ofItems (a : Algorithm) (retain : Bool) (items : List Bytes) : Tree :=
  let leaves := items.map (Cell.ofPayload a retain)
  let level := leaves.zipIdx.map fun (cell, index) => ⟨index, cell.digest⟩
  match Growth.grow a ⟨leaves.reverse, leaves.length⟩ level with
  | (none, _) => empty a
  | (some root, g) => assemble a g.cells.reverse (List.range items.length) root.index

end Tree

end HashTree
