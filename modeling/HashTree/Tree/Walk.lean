import HashTree.Tree.Basic

/-!
# Walks

Three orders in which a tree can be gone through. The **level order** goes from the root downwards
and from left to right in each level; it is a `Walk`, which can be taken one node at a time. The
**preorder** and the **postorder** go branch by branch and name a node before or after everything
below it.

A walk sees no node twice in a tree where every node is the child of at most one other, so the
number of nodes bounds every walk.
-/

namespace HashTree

/-! ## §1 Level order -/

/-- A walk in level order: the nodes that are still to be named, in a queue whose back half is
reversed. -/
structure Walk where
  /-- The children of every node, by index. -/
  below : Array (List Nat)
  front : List Nat
  back : List Nat

namespace Walk

/-- What is still to be named by what is known already, in order. -/
def queue (w : Walk) : List Nat := w.front ++ w.back.reverse

/-- A walk that starts at a node, or is over before it starts. -/
def start (below : Array (List Nat)) (root : Option Nat) : Walk := ⟨below, root.toList, []⟩

/-- Names a node and puts its children at the back. -/
def visit (w : Walk) (index : Nat) (front back : List Nat) : Option (Nat × Walk) :=
  w.below[index]?.map fun children => (index, ⟨w.below, front, children.reverse ++ back⟩)

/-- The next node, and the walk after it. -/
def next? (w : Walk) : Option (Nat × Walk) :=
  match w.front with
  | index :: front => w.visit index front w.back
  | [] =>
    match w.back.reverse with
    | index :: front => w.visit index front []
    | [] => none

/-- A step names the first node of the queue and puts its children at the end. -/
theorem queue_of_next? {w next : Walk} {index : Nat} (h : w.next? = some (index, next)) :
    ∃ rest children, w.queue = index :: rest ∧ w.below[index]? = some children
      ∧ next.below = w.below ∧ next.queue = rest ++ children := by
  obtain ⟨below, front, back⟩ := w
  rcases front with _ | ⟨first, front⟩
  · -- the back half is turned round
    rcases turned : back.reverse with _ | ⟨first, rest⟩
    · simp [next?, turned] at h
    · simp only [next?, turned, visit, Option.map_eq_some_iff, Prod.mk.injEq] at h
      obtain ⟨children, found, rfl, rfl⟩ := h
      exact ⟨rest, children, by simp [queue, turned], found, rfl, by simp [queue]⟩
  · -- the front half has a node
    simp only [next?, visit, Option.map_eq_some_iff, Prod.mk.injEq] at h
    obtain ⟨children, found, rfl, rfl⟩ := h
    exact ⟨front ++ back.reverse, children, by simp [queue], found, rfl, by simp [queue]⟩

/-- What a **call** for the next node answers, and the walk after it. A call takes the first of the
queue away even where the arena has no such node. -/
def call (w : Walk) : Option Nat × Walk :=
  match w.next? with
  | some (index, next) => (some index, next)
  | none => (none, ⟨w.below, w.queue.tail, []⟩)

/-- At most `fuel` further nodes; `done` holds those before, the last one first. -/
def collect : (fuel : Nat) → Walk → (done : List Nat) → List Nat
  | 0, _, done => done.reverse
  | fuel + 1, w, done =>
    match w.next? with
    | none => done.reverse
    | some (index, w) => collect fuel w (index :: done)

/-- The indices that a walk names. -/
def toList (w : Walk) : List Nat := collect w.below.size w []

end Walk

namespace Tree

variable (t : Tree)

/-- The children of every node, by index. -/
def below : Array (List Nat) := t.nodes.map (·.children)

/-- The walk from the root. -/
def walk : Walk := .start t.below t.root

/-- What a call answers when the next node itself is wanted, and the walk after it. -/
def callNode (w : Walk) : Option Node × Walk :=
  let (index, next) := w.call
  (index.bind fun i => t.nodes[i]?, next)

/-- The indices in level order. -/
def levelOrder : List Nat := t.walk.toList

/-- The indices at and below a node in level order. -/
def levelOrderFrom (index : Nat) : List Nat := (Walk.start t.below (some index)).toList

/-- Two trees count as the **same** when they have one algorithm and as many nodes, and their nodes
in level order are the same one by one. -/
def same (u : Tree) : Bool :=
  t.algorithm == u.algorithm && t.size == u.size
    && (t.nodesAt t.levelOrder).isEqv (u.nodesAt u.levelOrder) Node.same

/-! ## §2 Branch order -/

/-- The children of the node at an index; none where there is no node. -/
def childrenAt (index : Nat) : List Nat :=
  (t.nodes[index]?.map (·.children)).getD []

/-- Names at most `fuel` nodes in preorder from right to left, in front of `done`. What is named
last stands first, so that the list is a postorder from left to right. -/
def collectPost : (fuel : Nat) → (stack : List Nat) → (done : List Nat) → List Nat
  | 0, _, done => done
  | _, [], done => done
  | fuel + 1, index :: stack, done =>
    collectPost fuel ((t.childrenAt index).reverse ++ stack) (index :: done)

/-- The indices in postorder: children from left to right, then their parent. -/
def postorder : List Nat :=
  t.collectPost t.size t.root.toList []

end Tree

end HashTree
