import HashTree.Proofs.Format.Restore

/-!
# Which documents are accepted

Restoring judges a document in five passes, and each of them relies on what the passes before it
have established. What they come to together can be said of the document alone, with no pass in
sight: the child lists form one tree over all nodes, the leaves are the nodes without children in
some order, and every digest is the hash of what it stands for. A document is accepted exactly when
this holds, and nothing of it is lost in the tree.
-/

namespace HashTree

/-! ## §1 Consistent documents -/

/-- The rules for a node, given the digests of all nodes. -/
structure NodeDocument.Consistent (a : Algorithm) (digests : List Digest) (n : NodeDocument) :
    Prop where
  digest_length : n.digest.length = a.digestSize
  /-- A node has **none or several** children. -/
  branching : n.children.length ≠ 1
  /-- A branch keeps no payload. -/
  payload_none : n.children ≠ [] → n.payload = none
  /-- A payload hashes to the digest. -/
  payload_eq : ∀ b ∈ n.payload, a.digest b = n.digest
  /-- A branch is hashed from the digests of its children **in their order**. -/
  digest_eq : n.children ≠ [] →
    n.digest = a.digest (n.childIndices.flatMap fun i => digests.getD i [])

namespace TreeDocument

/-- The child list of every node. -/
def links (d : TreeDocument) : Links := d.nodes.map (·.childIndices)

/-- A document that has nothing in it. -/
structure Void (d : TreeDocument) : Prop where
  root_eq : d.root = none
  nodes_eq : d.nodes = []
  leaves_eq : d.leaves = []

/-- A document that describes one tree over all its nodes. -/
structure Consistent (d : TreeDocument) (a : Algorithm) (root : Nat) : Prop where
  root_eq : d.root.map UInt32.toNat = some root
  root_lt : root < d.nodes.length
  nodes : ∀ n ∈ d.nodes, n.Consistent a (d.nodes.map (·.digest))
  child_lt : ∀ n ∈ d.nodes, ∀ c ∈ n.childIndices, c < d.nodes.length
  /-- Over all child lists, every node but the root occurs **exactly once**. -/
  listed_once : ∀ i < d.nodes.length, i ≠ root → d.links.flatten.count i = 1
  root_notMem : root ∉ d.links.flatten
  /-- Every node lies at or below the root. -/
  descends : ∀ i < d.nodes.length, d.links.Descends root i
  /-- The leaves are the nodes **without children**, in any order. -/
  leaves_perm : (d.leaves.map UInt32.toNat).Perm (childless d.nodes)

end TreeDocument

/-! ## §2 Consistent documents describe plans -/

/-- The rules for a node are those for its cell, and that a branch keeps no payload. -/
theorem NodeDocument.consistent_iff {a : Algorithm} {digests : List Digest} {n : NodeDocument} :
    n.Consistent a digests
      ↔ n.toCell.Sound a digests ∧ (n.isLeaf = false → n.payload = none) := by
  rw [← TreeDocument.sound_toCell_iff, Proper]
  cases hleaf : n.isLeaf with
  | true =>
    -- what is asked of a node with children holds of a leaf for nothing
    have hnil := isLeaf_iff.mp hleaf
    simp only [if_true, Bool.true_eq_false, false_implies, and_true]
    constructor
    · intro h
      exact ⟨h.digest_length, h.payload_eq⟩
    · rintro ⟨hlength, hpayload⟩
      exact ⟨hlength, by simp [hnil], fun h => absurd hnil h, hpayload, fun h => absurd hnil h⟩
  | false =>
    have hne : n.children ≠ [] := fun hnil => by simp [isLeaf, hnil] at hleaf
    -- there are children, so there are two of them when there is not just one
    have hpos : 0 < n.children.length := List.length_pos_iff.mpr hne
    simp only [Bool.false_eq_true, if_false, true_implies]
    constructor
    · intro h
      have hone := h.branching
      exact ⟨⟨h.digest_length, h.payload_none hne, by omega⟩, h.digest_eq hne⟩
    · rintro ⟨⟨hlength, hnone, htwo⟩, hdigest⟩
      exact ⟨hlength, by omega, fun _ => hnone, by simp [hnone], fun _ => hdigest⟩

namespace TreeDocument

variable {a : Algorithm} {d : TreeDocument} {root : Nat}

@[simp]
theorem length_links (d : TreeDocument) : d.links.length = d.nodes.length := List.length_map _

/-- The child lists of a document are those of its cells. -/
theorem links_cells (d : TreeDocument) : Cell.links (d.nodes.map (·.toCell)) = d.links :=
  links_toCell d.nodes

/-- The child lists give every index but the root one parent when the counts are right. -/
theorem parented_iff : d.links.Parented root
    ↔ root < d.nodes.length
      ∧ (∀ n ∈ d.nodes, ∀ c ∈ n.childIndices, c < d.nodes.length)
      ∧ (∀ i < d.nodes.length, i ≠ root → d.links.flatten.count i = 1)
      ∧ root ∉ d.links.flatten := by
  have hmem : ∀ c, c ∈ d.links.flatten ↔ ∃ n ∈ d.nodes, c ∈ n.childIndices := by
    intro c
    simp [links]
  constructor
  · intro h
    have hlt := h.root_lt
    rw [length_links] at hlt
    refine ⟨hlt, fun n hn c hc => ?_, fun i hi hne => ?_, ?_⟩
    · obtain ⟨p, hp⟩ := Links.mem_flatten_iff.mp ((hmem c).mpr ⟨n, hn, hc⟩)
      have hchild := h.child_lt hp
      rwa [length_links] at hchild
    · -- an index that is not the root has a parent, so it is listed
      obtain ⟨p, hp⟩ := h.exists_parent (by rwa [length_links]) hne
      exact List.count_eq_one_of_mem h.nodup_flatten (Links.mem_flatten_iff.mpr ⟨p, hp⟩)
    · exact (List.nodup_cons.mp h.nodup_cons).1
  · rintro ⟨hlt, hchild, honce, hroot⟩
    refine ⟨List.perm_iff_count.mpr fun i => ?_⟩
    -- both sides count one for an index of a node, and none for any other
    rw [length_links, List.count_cons, List.count_range]
    by_cases hi : i < d.nodes.length
    · by_cases hne : i = root
      · rw [hne, List.count_eq_zero.mpr hroot]
        simp [hlt]
      · rw [honce i hi hne]
        simp [hi, Ne.symm hne]
    · have hnot : i ∉ d.links.flatten := by
        intro hlisted
        obtain ⟨n, hn, hc⟩ := (hmem i).mp hlisted
        exact hi (hchild n hn i hc)
      have hne : root ≠ i := fun heq => hi (heq ▸ hlt)
      rw [List.count_eq_zero.mpr hnot]
      simp [hi, hne]

/-- The child lists are planted at the root when the counts are right and everything lies below
the root. -/
theorem planted_iff : d.links.Planted root
    ↔ root < d.nodes.length
      ∧ (∀ n ∈ d.nodes, ∀ c ∈ n.childIndices, c < d.nodes.length)
      ∧ (∀ i < d.nodes.length, i ≠ root → d.links.flatten.count i = 1)
      ∧ root ∉ d.links.flatten
      ∧ ∀ i < d.nodes.length, d.links.Descends root i := by
  constructor
  · intro h
    obtain ⟨hlt, hchild, honce, hroot⟩ := parented_iff.1 h.parented
    exact ⟨hlt, hchild, honce, hroot, by simpa using h.descends⟩
  · rintro ⟨hlt, hchild, honce, hroot, hdescends⟩
    have hparented : d.links.Parented root := parented_iff.2 ⟨hlt, hchild, honce, hroot⟩
    exact ⟨hparented.once, by simpa using hdescends⟩

/-- The leaves are the nodes without children, each once. -/
theorem leaves_perm_iff {leaves : List Nat} {nodes : List NodeDocument} :
    leaves.Perm (childless nodes) ↔ leaves.Nodup ∧ ∀ i, i ∈ leaves
      ↔ ∃ cell, (nodes.map (·.toCell))[i]? = some cell ∧ cell.content.isLeaf = true := by
  simp only [← exists_leaf_toCell, ← mem_childless]
  constructor
  · intro hperm
    exact ⟨hperm.nodup_iff.mpr (nodup_childless nodes), fun i => hperm.mem_iff⟩
  · rintro ⟨hnodup, hmem⟩
    exact (List.perm_ext_iff_of_nodup hnodup (nodup_childless nodes)).mpr hmem

/-- A document is consistent exactly when its cells, leaves and root are a plan. -/
theorem consistent_iff_describes {root : UInt32} (hroot : d.root = some root) :
    d.Consistent a root.toNat ↔ d.Describes a root := by
  constructor
  · -- the plan speaks of cells, the document of nodes
    intro h
    have hnodes := fun n hn => NodeDocument.consistent_iff.1 (h.nodes n hn)
    obtain ⟨hnodup, hmem⟩ := leaves_perm_iff.1 h.leaves_perm
    refine ⟨hroot, ⟨?_, hnodup, hmem, fun cell hcell => ?_⟩, fun n hn => (hnodes n hn).2⟩
    · rw [links_cells]
      exact planted_iff.2 ⟨h.root_lt, h.child_lt, h.listed_once, h.root_notMem, h.descends⟩
    · obtain ⟨n, hn, rfl⟩ := List.mem_map.mp hcell
      rw [digests_toCell]
      exact (hnodes n hn).1
  · rintro ⟨-, plan, hpayload⟩
    have hplanted := plan.planted
    rw [links_cells] at hplanted
    obtain ⟨hlt, hchild, honce, hnotMem, hdescends⟩ := planted_iff.1 hplanted
    refine ⟨by rw [hroot, Option.map_some], hlt, fun n hn => ?_, hchild, honce, hnotMem,
      hdescends, leaves_perm_iff.2 ⟨plan.leaves_nodup, plan.mem_leaves⟩⟩
    have hcell := plan.sound _ (List.mem_map.mpr ⟨n, hn, rfl⟩)
    rw [digests_toCell] at hcell
    exact NodeDocument.consistent_iff.2 ⟨hcell, hpayload n hn⟩

/-- In a consistent document **no node lies below itself**. -/
theorem Consistent.irrefl (h : d.Consistent a root) (i : Nat) :
    ¬ Relation.TransGen d.links.Child i i := by
  have hplanted : d.links.Planted root := planted_iff.2
    ⟨h.root_lt, h.child_lt, h.listed_once, h.root_notMem, h.descends⟩
  exact hplanted.irrefl

/-! ## §3 Accepted documents -/

/-- A tree that keeps what a document says, node by node. -/
structure Kept (d : TreeDocument) (a : Algorithm) (t : Tree) : Prop where
  algorithm_eq : t.algorithm = a
  root_eq : t.root = d.root.map UInt32.toNat
  leaves_eq : t.leaves.toList = d.leaves.map UInt32.toNat
  digests_eq : t.nodes.toList.map (·.digest) = d.nodes.map (·.digest)
  payloads_eq : t.nodes.toList.map (·.payload?) = d.nodes.map (·.payload)
  children_eq : t.nodes.toList.map (·.children) = d.nodes.map (·.childIndices)

private theorem Describes.kept {root : UInt32} (h : d.Describes a root) :
    d.Kept a (Tree.assemble a (d.nodes.map (·.toCell)) (d.leaves.map UInt32.toNat)
      root.toNat) := by
  refine ⟨rfl, by rw [h.root_eq]; rfl, rfl, ?_, ?_, ?_⟩
  · rw [Tree.map_assemble (·.digest) (·.digest) fun _ _ => rfl, List.map_map]
    rfl
  · rw [Tree.map_assemble (·.payload?) (·.content.payload?) fun _ _ => rfl, List.map_map]
    exact List.map_congr_left fun n hn => NodeDocument.payload?_toCell (h.payload_eq n hn)
  · rw [Tree.map_assemble (·.children) (·.content.children) fun _ _ => rfl, List.map_map]
    exact List.map_congr_left fun n _ => n.children_toCell

private theorem Void.kept (h : d.Void) : d.Kept a (Tree.empty a) := by
  constructor <;> simp [Tree.empty, h.root_eq, h.nodes_eq, h.leaves_eq]

/-- A document is accepted **exactly when** it is void or consistent. Then the tree keeps all that
it says, and no node lies below itself. -/
theorem accepted_iff_consistent (a : Algorithm) (d : TreeDocument) :
    ((∃ t, d.restore a = .ok t) ↔ d.Void ∨ ∃ root, d.Consistent a root)
      ∧ ∀ t, d.restore a = .ok t → d.Kept a t ∧ ∀ i, ¬ Relation.TransGen d.links.Child i i := by
  cases hroot : d.root with
  | none =>
    -- without a root nothing is consistent
    have hnot : ¬ ∃ root, d.Consistent a root := by
      rintro ⟨root, h⟩
      have heq := h.root_eq
      simp [hroot] at heq
    simp only [restore_eq_ok_iff_of_no_root hroot, hnot, or_false]
    refine ⟨⟨?_, ?_⟩, ?_⟩
    · rintro ⟨t, hnodes, hleaves, -⟩
      exact ⟨hroot, hnodes, hleaves⟩
    · intro h
      exact ⟨_, h.nodes_eq, h.leaves_eq, rfl⟩
    · rintro t ⟨hnodes, hleaves, rfl⟩
      refine ⟨Void.kept ⟨hroot, hnodes, hleaves⟩, fun i hloop => ?_⟩
      -- and where there are no nodes, none has a child
      obtain ⟨c, hc, -⟩ := Relation.TransGen.head'_iff.mp hloop
      have hlt := hc.parent_lt
      simp [hnodes] at hlt
  | some root =>
    have hvoid : ¬ d.Void := by
      intro h
      have heq := h.root_eq
      simp [hroot] at heq
    -- the root of a consistent document is the one that it names
    have hconsistent : (∃ i, d.Consistent a i) ↔ d.Describes a root := by
      rw [← consistent_iff_describes hroot]
      constructor
      · rintro ⟨i, h⟩
        have heq := h.root_eq
        rw [hroot, Option.map_some, Option.some.injEq] at heq
        rwa [heq]
      · intro h
        exact ⟨_, h⟩
    simp only [restore_eq_ok_iff_of_root hroot, hvoid, false_or, hconsistent]
    refine ⟨⟨?_, ?_⟩, ?_⟩
    · rintro ⟨t, h, -⟩
      exact h
    · intro h
      exact ⟨_, h, rfl⟩
    · rintro t ⟨h, rfl⟩
      exact ⟨h.kept, ((consistent_iff_describes hroot).mpr h).irrefl⟩

/-- Two leaves under one branch, listed from the right, and the second without its payload. -/
def pair (a : Algorithm) (x y : Bytes) : TreeDocument where
  version := formatVersion
  algorithm := a.name
  root := some 2
  leaves := [1, 0]
  nodes := [⟨a.digest x, some x, []⟩, ⟨a.digest y, none, []⟩,
    ⟨a.digest (a.digest x ++ a.digest y), none, [0, 1]⟩]

/-- Any two items make a consistent document. -/
theorem pair_consistent (a : Algorithm) (x y : Bytes) : (pair a x y).Consistent a 2 := by
  have hlinks : (pair a x y).links = [[], [], [0, 1]] := rfl
  have hlength : (pair a x y).nodes.length = 3 := rfl
  have hchild : ∀ c, c ∈ [0, 1] → (pair a x y).links.Child 2 c := by
    intro c hc
    rwa [Links.Child, hlinks]
  refine ⟨rfl, by rw [hlength]; decide, ?_, ?_, ?_, by rw [hlinks]; decide, ?_, .swap 0 1 []⟩
  · intro n hn
    simp only [pair, List.mem_cons, List.not_mem_nil, or_false] at hn
    rcases hn with rfl | rfl | rfl
    · constructor <;> simp
    · constructor <;> simp
    · constructor <;> simp [pair, NodeDocument.childIndices]
  · intro n hn c hc
    have hlisted : c ∈ (pair a x y).links.flatten :=
      List.mem_flatten.mpr ⟨_, List.mem_map.mpr ⟨n, hn, rfl⟩, hc⟩
    rw [hlinks] at hlisted
    simp at hlisted
    omega
  · rw [hlinks, hlength]
    decide
  · -- the root lies below itself, and the leaves are its children
    rw [hlength]
    intro i hi
    obtain rfl | rfl | rfl : i = 0 ∨ i = 1 ∨ i = 2 := by omega
    · exact .single (hchild 0 (by simp))
    · exact .single (hchild 1 (by simp))
    · exact .refl

/-- It is accepted, and the tree lists the leaves as the document does. -/
theorem accepted_iff_consistent_pair : ∃ t, (pair .sha1 [] [2]).restore .sha1 = .ok t
    ∧ t.root = some 2 ∧ t.leaves.toList = [1, 0] := by
  obtain ⟨hiff, hkept⟩ := accepted_iff_consistent .sha1 (pair .sha1 [] [2])
  obtain ⟨t, ht⟩ := hiff.mpr (.inr ⟨2, pair_consistent .sha1 [] [2]⟩)
  exact ⟨t, ht, (hkept t ht).1.root_eq, (hkept t ht).1.leaves_eq⟩

end TreeDocument

end HashTree
