import HashTree.Proofs.Digest.Size
import HashTree.Proofs.Table
import HashTree.Proofs.Tree.Unfolding
import HashTree.Tree.Walk

/-!
# Plans of trees

Whoever builds a tree chooses cells, the order of the leaves and the root, and lets them be
assembled. A choice is a **plan** when the child lists are planted at the root, the leaves are the
cells without children, and every digest is the hash of what it stands for. Whatever is assembled
from a plan is well formed.
-/

namespace HashTree

/-! ## §1 Plans -/

/-- The child lists of some cells. -/
def Cell.links (cells : List Cell) : Links := cells.map (·.content.children)

/-- A cell among cells with the given digests is what it should be: a leaf has a digest of the
right size, to which its payload hashes, and a branch is hashed from two or more children. -/
def Cell.Sound (a : Algorithm) (digests : List Digest) (cell : Cell) : Prop :=
  match cell.content with
  | .leaf payload => cell.digest.length = a.digestSize ∧ ∀ b ∈ payload, a.digest b = cell.digest
  | .internal children =>
    2 ≤ children.length ∧ cell.digest = a.digest (children.flatMap fun i => digests.getD i [])

/-- Cells, leaves and a root from which a well-formed tree is assembled. -/
structure Planned (a : Algorithm) (cells : List Cell) (leaves : List Nat) (root : Nat) : Prop where
  planted : (Cell.links cells).Planted root
  leaves_nodup : leaves.Nodup
  mem_leaves : ∀ i, i ∈ leaves ↔ ∃ cell, cells[i]? = some cell ∧ cell.content.isLeaf = true
  sound : ∀ cell ∈ cells, cell.Sound a (cells.map (·.digest))

theorem Planned.leaf_lt {a : Algorithm} {cells : List Cell} {leaves : List Nat} {root i : Nat}
    (h : Planned a cells leaves root) (hi : i ∈ leaves) : i < cells.length := by
  obtain ⟨cell, hcell, -⟩ := (h.mem_leaves i).mp hi
  exact (List.getElem?_eq_some_iff.mp hcell).1

@[simp]
theorem Cell.length_links (cells : List Cell) : (Cell.links cells).length = cells.length := by
  simp [Cell.links]

theorem Cell.below_links {cells : List Cell} {i : Nat} {cell : Cell}
    (h : cells[i]? = some cell) : (Cell.links cells).below i = cell.content.children :=
  Links.below_eq_of_getElem? (by simp [Cell.links, h])

/-- A cell lists the children of its index. -/
theorem Cell.child_links {cells : List Cell} {i c : Nat} {cell : Cell} (h : cells[i]? = some cell)
    (hc : c ∈ cell.content.children) : (Cell.links cells).Child i c := by
  rwa [Links.Child, Cell.below_links h]

/-- In the arena of a plan every child has a cell. -/
theorem Planned.closed {a : Algorithm} {cells : List Cell} {leaves : List Nat} {root : Nat}
    (h : Planned a cells leaves root) :
    ∀ cell ∈ cells, ∀ c ∈ cell.content.children, c < cells.length := by
  intro cell hcell c hc
  obtain ⟨i, hi⟩ := List.mem_iff_getElem?.mp hcell
  simpa using h.planted.child_lt (Cell.child_links hi hc)

namespace Cell.Sound

variable {a : Algorithm} {digests : List Digest} {cell : Cell}

/-- A sound cell that is no leaf is hashed from two or more children. -/
theorem of_branch (h : cell.Sound a digests) (hbranch : cell.content.isLeaf = false) :
    2 ≤ cell.content.children.length
      ∧ cell.digest = a.digest (cell.content.children.flatMap fun i => digests.getD i []) := by
  obtain ⟨digest, content⟩ := cell
  cases content with
  | leaf payload => cases hbranch
  | internal children => exact h

/-- A sound cell keeps a payload only if it is a leaf, and the payload hashes to the digest. -/
theorem of_payload (h : cell.Sound a digests) {b : Bytes} (hb : cell.content.payload? = some b) :
    cell.content.isLeaf = true ∧ a.digest b = cell.digest := by
  obtain ⟨digest, content⟩ := cell
  cases content with
  | leaf payload => exact ⟨rfl, h.2 b hb⟩
  | internal children => cases hb

/-- Every digest among sound cells has the size of the algorithm. -/
theorem length_digest (h : cell.Sound a digests) : cell.digest.length = a.digestSize := by
  cases hleaf : cell.content.isLeaf with
  | false => rw [(h.of_branch hleaf).2, Algorithm.length_digest]
  | true =>
    obtain ⟨digest, content⟩ := cell
    cases content with
    | leaf payload => exact h.1
    | internal children => cases hleaf

/-- A leaf is told from a branch by its child list. -/
theorem isLeaf_iff (h : cell.Sound a digests) :
    cell.content.isLeaf = true ↔ cell.content.children = [] := by
  cases hleaf : cell.content.isLeaf with
  | false =>
    have htwo := (h.of_branch hleaf).1
    refine iff_of_false Bool.false_ne_true fun hnil => ?_
    rw [hnil] at htwo
    exact absurd htwo (by decide)
  | true =>
    obtain ⟨digest, content⟩ := cell
    cases content with
    | leaf payload => exact iff_of_true rfl rfl
    | internal children => cases hleaf

end Cell.Sound

/-! ## §2 Parents -/

namespace Links

variable {links : Links} {size p c : Nat}

/-- A parent for each listed child. -/
def claims (links : Links) : List (Nat × Option Nat) :=
  links.zipIdx.flatMap fun entry => entry.1.map fun child => (child, some entry.2)

theorem claims_keys (links : Links) : links.claims.map Prod.fst = links.flatten := by
  rw [claims, List.map_flatMap]
  have hkeys : ∀ entry : List Nat × Nat,
      (entry.1.map fun child => (child, some entry.2)).map Prod.fst = entry.1 := by
    intro entry
    simp [Function.comp_def]
  rw [List.flatMap_congr fun entry _ => hkeys entry, List.flatMap_def, List.zipIdx_map_fst]

theorem mem_claims (h : links.Child p c) : (c, some p) ∈ links.claims := by
  refine List.mem_flatMap.mpr ⟨(links.below p, p), ?_, ?_⟩
  · exact List.mem_zipIdx_iff_getElem?.mpr (getElem?_eq_below h.parent_lt)
  · exact List.mem_map.mpr ⟨c, h, rfl⟩

/-- The parents of a tree are the claims of the child lists. -/
theorem parents_eq_fill (size : Nat) (links : Links) :
    Tree.parents size links = Table.fill (Array.replicate size none) links.claims := by
  rw [Tree.parents, Table.fill, claims, List.foldl_flatMap]
  congr 1
  funext table entry
  rw [List.foldl_map]

@[simp]
theorem size_parents (size : Nat) (links : Links) : (Tree.parents size links).size = size := by
  rw [parents_eq_fill, Table.size_fill, Array.size_replicate]

/-- A child that is listed once gets the index that lists it. -/
theorem parents_child (hnodup : links.flatten.Nodup) (hc : links.Child p c) (hlt : c < size) :
    (Tree.parents size links)[c]? = some (some p) := by
  rw [parents_eq_fill]
  exact Table.getElem?_fill_of_mem (by rwa [claims_keys]) (mem_claims hc) (by simpa)

/-- An index that is not listed gets no parent. -/
theorem parents_of_notMem (hc : c ∉ links.flatten) (hlt : c < size) :
    (Tree.parents size links)[c]? = some none := by
  rw [parents_eq_fill, Table.getElem?_fill_of_notMem (by rwa [claims_keys])]
  simp [hlt]

end Links

/-! ## §3 Well-formed trees -/

namespace Tree

/-- The child lists of the arena. -/
def links (t : Tree) : Links := t.nodes.toList.map (·.children)

/-- The digest of the node at an index; the empty string where there is no node. -/
def digestAt (t : Tree) (i : Nat) : Digest := (t.nodes[i]?.map (·.digest)).getD []

/-- A tree that has nodes is put together as it should be. -/
structure Formed (t : Tree) (root : Nat) : Prop where
  root_eq : t.root = some root
  root_lt : root < t.nodes.size
  child_lt : ∀ n ∈ t.nodes, ∀ c ∈ n.children, c < t.nodes.size
  /-- A branch has **two or more** children. -/
  branching : ∀ n ∈ t.nodes, n.isLeaf = false → 2 ≤ n.children.length
  /-- Every node but the root stands **once in one** child list, that of its parent. -/
  parent_eq : ∀ i n, t.nodes[i]? = some n → i ≠ root →
    ∃ p < t.nodes.size, n.parent = some p
      ∧ ∀ q < t.nodes.size, (t.childrenAt q).count i = if q = p then 1 else 0
  root_parent : ∀ n, t.nodes[root]? = some n → n.parent = none
  root_notMem : ∀ n ∈ t.nodes, root ∉ n.children
  /-- Every node lies at or below the root. -/
  descends : ∀ i < t.nodes.size, t.links.Descends root i
  leaves_nodup : t.leaves.toList.Nodup
  /-- The leaves are the nodes **without children**. -/
  mem_leaves : ∀ i, i ∈ t.leaves ↔ ∃ n, t.nodes[i]? = some n ∧ n.children = []
  algorithm_eq : ∀ n ∈ t.nodes, n.algorithm = t.algorithm
  digest_length : ∀ n ∈ t.nodes, n.digest.length = t.algorithm.digestSize
  /-- A branch is hashed from the digests of its children **in their order**. -/
  digest_eq : ∀ n ∈ t.nodes, n.isLeaf = false →
    n.digest = t.algorithm.digest (n.children.flatMap t.digestAt)
  /-- Only leaves keep payloads, and a payload hashes to the digest. -/
  payload_eq : ∀ n ∈ t.nodes, ∀ b, n.payload? = some b →
    n.isLeaf = true ∧ t.algorithm.digest b = n.digest

/-- A tree is **well formed** when it is empty or put together as it should be. -/
def WellFormed (t : Tree) : Prop :=
  (t.nodes = #[] ∧ t.leaves = #[] ∧ t.root = none) ∨ ∃ root, t.Formed root

theorem childrenAt_eq (t : Tree) (i : Nat) : t.childrenAt i = t.links.below i := by
  simp [childrenAt, links, Links.below, List.getD_eq_getElem?_getD]

theorem below_eq_children {t : Tree} {i : Nat} {n : Node} (hn : t.nodes[i]? = some n) :
    t.links.below i = n.children := by
  rw [← childrenAt_eq, childrenAt, hn]
  rfl

@[simp]
theorem length_links (t : Tree) : t.links.length = t.nodes.size := by
  simp [links]

end Tree

/-! ## §4 Assembled trees -/

section Assembled

variable (a : Algorithm) (cells : List Cell) (leaves : List Nat) (root : Nat)

/-- The nodes of an assembled tree are its cells, each with the parent that lists it. -/
theorem Tree.getElem?_assemble (i : Nat) :
    (assemble a cells leaves root).nodes[i]? = cells[i]?.map fun cell =>
      ⟨a, cell.digest, ((parents cells.length (Cell.links cells))[i]?).join, cell.content⟩ := by
  have htable : (parents cells.length (Cell.links cells)).toList.length = cells.length := by
    rw [Array.length_toList, Links.size_parents]
  simp only [assemble, List.getElem?_toArray, List.getElem?_map]
  by_cases hi : i < cells.length
  · have hi' : i < (parents cells.length (Cell.links cells)).size := by
      rwa [Links.size_parents]
    have hzip : (cells.zip (parents cells.length (Cell.links cells)).toList)[i]?
        = some (cells[i], (parents cells.length (Cell.links cells))[i]) :=
      List.getElem?_zip_eq_some.mpr (by simp [hi])
    rw [show cells.map (·.content.children) = Cell.links cells from rfl, hzip]
    simp [hi]
  · have hzip : (cells.zip (parents cells.length (Cell.links cells)).toList)[i]? = none := by
      simp [Nat.le_of_not_lt hi]
    rw [show cells.map (·.content.children) = Cell.links cells from rfl, hzip]
    simp [hi]

@[simp]
theorem Tree.size_nodes_assemble : (assemble a cells leaves root).nodes.size = cells.length := by
  simp [assemble]

@[simp]
theorem Tree.links_assemble : (assemble a cells leaves root).links = Cell.links cells := by
  refine List.ext_getElem? fun i => ?_
  simp [links, Cell.links, getElem?_assemble]
  cases cells[i]? <;> rfl

theorem Tree.digestAt_assemble (i : Nat) :
    (assemble a cells leaves root).digestAt i = (cells.map (·.digest)).getD i [] := by
  simp [digestAt, getElem?_assemble, List.getD_eq_getElem?_getD, Option.map_map, Function.comp_def]

variable {a cells leaves root}

/-- What can be read off the cell of a node is the same in the assembled tree. -/
theorem Tree.map_assemble {α : Type} (f : Node → α) (g : Cell → α)
    (hfg : ∀ cell parent, f ⟨a, cell.digest, parent, cell.content⟩ = g cell) :
    (assemble a cells leaves root).nodes.toList.map f = cells.map g := by
  apply List.ext_getElem?
  intro i
  rw [List.getElem?_map, List.getElem?_map, Array.getElem?_toList, getElem?_assemble,
    Option.map_map]
  exact congrArg (fun h => cells[i]?.map h) (funext fun cell => hfg cell _)

/-- A node of an assembled tree comes from the cell at its index. -/
theorem Tree.exists_cell {n : Node} (h : n ∈ (assemble a cells leaves root).nodes) :
    ∃ cell ∈ cells, n.algorithm = a ∧ n.digest = cell.digest ∧ n.content = cell.content := by
  obtain ⟨i, hi⟩ := Array.mem_iff_getElem?.mp h
  rw [getElem?_assemble, Option.map_eq_some_iff] at hi
  obtain ⟨cell, hcell, rfl⟩ := hi
  exact ⟨cell, List.mem_iff_getElem?.mpr ⟨i, hcell⟩, rfl, rfl, rfl⟩

namespace Planned

variable (h : Planned a cells leaves root)
include h

private theorem parent_eq {i : Nat} {n : Node}
    (hn : (Tree.assemble a cells leaves root).nodes[i]? = some n) (hne : i ≠ root) :
    ∃ p < cells.length, n.parent = some p ∧ ∀ q < cells.length,
      ((Cell.links cells).below q).count i = if q = p then 1 else 0 := by
  rw [Tree.getElem?_assemble, Option.map_eq_some_iff] at hn
  obtain ⟨cell, hcell, rfl⟩ := hn
  have hi : i < cells.length := (List.getElem?_eq_some_iff.mp hcell).1
  obtain ⟨p, hp⟩ := h.planted.exists_parent (by rwa [Cell.length_links]) hne
  refine ⟨p, by simpa using hp.parent_lt, ?_, fun q _ => ?_⟩
  · rw [Links.parents_child h.planted.nodup_flatten hp hi]
    rfl
  · by_cases hq : q = p
    · rw [if_pos hq, hq]
      exact List.count_eq_one_of_mem (Links.nodup_below h.planted.nodup_flatten p) hp
    · rw [if_neg hq]
      exact List.count_eq_zero.mpr fun hqi => hq (Links.Child.unique h.planted.nodup_flatten hqi hp)

/-- What is assembled from a plan is **put together as it should be**. -/
theorem formed : (Tree.assemble a cells leaves root).Formed root where
  root_eq := rfl
  root_lt := by simpa using h.planted.root_lt
  child_lt n hn c hc := by
    obtain ⟨cell, hcell, -, -, hcontent⟩ := Tree.exists_cell hn
    rw [Node.children, hcontent] at hc
    simpa using h.closed cell hcell c hc
  branching n hn hleaf := by
    obtain ⟨cell, hcell, -, -, hcontent⟩ := Tree.exists_cell hn
    rw [Node.isLeaf, hcontent] at hleaf
    rw [Node.children, hcontent]
    exact ((h.sound cell hcell).of_branch hleaf).1
  parent_eq i n hn hne := by
    obtain ⟨p, hp, hparent, hcount⟩ := h.parent_eq hn hne
    refine ⟨p, by simpa using hp, hparent, fun q hq => ?_⟩
    rw [Tree.childrenAt_eq, Tree.links_assemble]
    exact hcount q (by simpa using hq)
  root_parent n hn := by
    rw [Tree.getElem?_assemble, Option.map_eq_some_iff] at hn
    obtain ⟨cell, hcell, rfl⟩ := hn
    have hroot : root ∉ (Cell.links cells).flatten := fun hmem =>
      (Links.mem_flatten_iff.mp hmem).elim fun _ hp => h.planted.not_child_root hp
    rw [Links.parents_of_notMem hroot (List.getElem?_eq_some_iff.mp hcell).1]
    rfl
  root_notMem n hn hc := by
    obtain ⟨cell, hcell, -, -, hcontent⟩ := Tree.exists_cell hn
    obtain ⟨i, hi⟩ := List.mem_iff_getElem?.mp hcell
    rw [Node.children, hcontent] at hc
    exact h.planted.not_child_root (Cell.child_links hi hc)
  descends i hi := by
    rw [Tree.links_assemble]
    exact h.planted.descends i (by simpa using hi)
  leaves_nodup := h.leaves_nodup
  mem_leaves i := by
    show i ∈ leaves.toArray ↔ _
    rw [List.mem_toArray, h.mem_leaves]
    constructor
    · rintro ⟨cell, hcell, hleaf⟩
      refine ⟨_, by rw [Tree.getElem?_assemble, hcell]; rfl, ?_⟩
      exact (h.sound cell (List.mem_of_getElem? hcell)).isLeaf_iff.mp hleaf
    · rintro ⟨n, hn, hchildren⟩
      rw [Tree.getElem?_assemble, Option.map_eq_some_iff] at hn
      obtain ⟨cell, hcell, rfl⟩ := hn
      exact ⟨cell, hcell, (h.sound cell (List.mem_of_getElem? hcell)).isLeaf_iff.mpr hchildren⟩
  algorithm_eq n hn := by
    obtain ⟨_, -, halgorithm, -⟩ := Tree.exists_cell hn
    exact halgorithm
  digest_length n hn := by
    obtain ⟨cell, hcell, -, hdigest, -⟩ := Tree.exists_cell hn
    rw [hdigest]
    exact (h.sound cell hcell).length_digest
  digest_eq n hn hleaf := by
    obtain ⟨cell, hcell, -, hdigest, hcontent⟩ := Tree.exists_cell hn
    rw [Node.isLeaf, hcontent] at hleaf
    rw [hdigest, Node.children, hcontent]
    simp only [funext (Tree.digestAt_assemble a cells leaves root)]
    exact ((h.sound cell hcell).of_branch hleaf).2
  payload_eq n hn b hb := by
    obtain ⟨cell, hcell, -, hdigest, hcontent⟩ := Tree.exists_cell hn
    rw [Node.payload?, hcontent] at hb
    rw [hdigest, Node.isLeaf, hcontent]
    exact (h.sound cell hcell).of_payload hb

end Planned

end Assembled

/-- A tree that is empty or assembled from a plan. Every way to come by a tree keeps to these. -/
inductive Tree.Made : Tree → Prop where
  | empty (a : Algorithm) : Tree.Made (Tree.empty a)
  | assembled {a : Algorithm} {cells : List Cell} {leaves : List Nat} {root : Nat}
      (plan : Planned a cells leaves root) : Tree.Made (Tree.assemble a cells leaves root)

theorem Tree.Made.formed_or_empty {t : Tree} (h : t.Made) : t.WellFormed := by
  cases h with
  | empty a => exact Or.inl ⟨rfl, rfl, rfl⟩
  | assembled plan => exact Or.inr ⟨_, plan.formed⟩

/-- A tree that has a node is not the empty one. -/
theorem Tree.Made.exists_formed {t : Tree} (h : t.Made) {n : Node} (hn : n ∈ t.nodes) :
    ∃ root, t.Formed root := by
  rcases h.formed_or_empty with ⟨hnodes, -, -⟩ | hformed
  · rw [hnodes] at hn
    exact absurd hn (Array.not_mem_empty n)
  · exact hformed

/-- A cell stays sound when further digests follow, as its children stand among the first. -/
theorem Cell.Sound.append {a : Algorithm} {digests : List Digest} {cell : Cell}
    (h : cell.Sound a digests) (hlt : ∀ c ∈ cell.content.children, c < digests.length)
    (more : List Digest) : cell.Sound a (digests ++ more) := by
  obtain ⟨digest, content⟩ := cell
  cases content with
  | leaf payload => exact h
  | internal children =>
    refine ⟨h.1, h.2.trans ?_⟩
    congr 1
    refine List.flatMap_congr fun c hc => ?_
    rw [List.getD_eq_getElem?_getD, List.getD_eq_getElem?_getD,
      List.getElem?_append_left (hlt c hc)]

end HashTree
