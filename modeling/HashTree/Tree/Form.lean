import HashTree.Tree.Basic

/-!
# Forms

A form is an ordered tree as a value, without an arena: the digests and payloads of its leaves and
the digests of its branches. Laying a form out gives the tree in whose arena the leaves come first,
from left to right, and the branches follow in postorder, the root last.
-/

namespace HashTree

/-- An ordered tree of digests. -/
inductive Form where
  | leaf (digest : Digest) (payload : Option Bytes)
  | branch (digest : Digest) (children : List Form)
  deriving Repr

namespace Form

/-- The digest at the top of a form. -/
def digest : Form → Digest
  | leaf digest _ => digest
  | branch digest _ => digest

/-- The branch over some forms, hashed from their digests in order. -/
def join (a : Algorithm) (children : List Form) : Form :=
  .branch (a.digest (children.flatMap digest)) children

/-! ## §1 Postorder -/

mutual

/-- The number of leaves and branches. -/
def size : Form → Nat
  | leaf _ _ => 1
  | branch _ children => sizes children + 1

/-- The number of leaves and branches of some forms. -/
def sizes : List Form → Nat
  | [] => 0
  | form :: forms => form.size + sizes forms

end

/-- Joined lists have joined sizes. -/
theorem sizes_append (xs ys : List Form) : sizes (xs ++ ys) = sizes xs + sizes ys := by
  induction xs with
  | nil => simp [sizes]
  | cons x xs ih => simp only [List.cons_append, sizes, ih]; omega

/-- The order does not matter for the size. -/
theorem sizes_reverse (xs : List Form) : sizes xs.reverse = sizes xs := by
  induction xs with
  | nil => rfl
  | cons x xs ih => simp only [List.reverse_cons, sizes_append, ih, sizes]; omega

/-- A part of a form in the order in which it is laid out: a leaf, or a branch over the last
`arity` parts that no branch has taken yet. -/
inductive Part where
  | leaf (digest : Digest) (payload : Option Bytes)
  | branch (digest : Digest) (arity : Nat)
  deriving DecidableEq, Repr

/-- Goes through forms from right to left, each branch before what is below it. What is met last
stands first, so that the list is a postorder from left to right. -/
def collectParts (stack : List Form) (done : List Part) : List Part :=
  match stack with
  | [] => done
  | .leaf digest payload :: rest => collectParts rest (.leaf digest payload :: done)
  | .branch digest children :: rest =>
    collectParts (children.reverse ++ rest) (.branch digest children.length :: done)
termination_by sizes stack
decreasing_by
  · simp only [sizes, size]; omega
  · simp only [sizes, size, sizes_append, List.unattach_reverse, List.unattach_attach,
      sizes_reverse]
    omega

/-- The parts of a form in postorder. -/
def parts (form : Form) : List Part := collectParts [form] []

/-! ## §2 Laying out -/

/-- The state of a layout: the indices of parts that no branch has taken, the last one first, the
cells of the branches so far, the last one first, and the next free indices. -/
structure Placing where
  loose : List Nat
  branches : List Cell
  nextLeaf : Nat
  nextBranch : Nat

/-- Places one part. -/
def Placing.place (p : Placing) : Part → Placing
  | .leaf _ _ => { p with loose := p.nextLeaf :: p.loose, nextLeaf := p.nextLeaf + 1 }
  | .branch digest arity =>
    let children := (p.loose.take arity).reverse
    { p with
      loose := p.nextBranch :: p.loose.drop arity
      branches := ⟨digest, .internal children⟩ :: p.branches
      nextBranch := p.nextBranch + 1 }

/-- The cell of a leaf. -/
def Part.leafCell? : Part → Option Cell
  | .leaf digest payload => some ⟨digest, .leaf payload⟩
  | .branch _ _ => none

/-- The tree of a form. -/
def toTree (a : Algorithm) (form : Form) : Tree :=
  let parts := form.parts
  let leaves := parts.filterMap Part.leafCell?
  let count := leaves.length
  let placed := parts.foldl Placing.place ⟨[], [], 0, count⟩
  Tree.assemble a (leaves ++ placed.branches.reverse) (List.range count) (placed.loose.headD 0)

end Form

end HashTree
