import HashTree.Proofs.Mapping.Greedy
import HashTree.Proofs.Tree.Copied
import HashTree.Proofs.Tree.Equality
import HashTree.Proofs.Tree.Slices

/-!
# The order of built arenas

Building fills an arena in one of three orders: level by level over the items, in postorder over the
entries of a mapping, and by rank when a subtree is copied. All of them put the leaves in front, in
their order, and every branch behind its children. This is what an arena that grows upwards has by
itself, and what a copy takes over, as ranks keep the order. So the root comes last, and as branches
have two children or more, there are fewer branches than leaves.
-/

namespace HashTree

/-! ## §1 Plans that grow upwards -/

/-- A plan whose leaves are the **first indices**, one after the other, and whose children stand in
front of their parents. -/
structure Upward (a : Algorithm) (cells : List Cell) (leaves : List Nat) (root : Nat) : Prop
    extends Planned a cells leaves root where
  leaves_eq : leaves = List.range leaves.length
  ascending : ∀ p c, (Cell.links cells).Child p c → c < p

variable {a : Algorithm} {cells : List Cell} {leaves : List Nat} {root : Nat}

/-- What has grown to one top is a plan that grows upwards. -/
theorem Growing.upward {items : Nat} (h : Growing a items cells [root]) :
    Upward a cells (List.range items) root :=
  { h.planned with
    leaves_eq := by rw [List.length_range]
    ascending := h.ascending }

/-- The leaves are as many as the cells without children. -/
theorem Planned.countP_isLeaf (plan : Planned a cells leaves root) :
    cells.countP (·.content.isLeaf) = leaves.length := by
  have hperm : leaves.Perm (cells.findIdxs (·.content.isLeaf)) := by
    refine (List.perm_ext_iff_of_nodup plan.leaves_nodup List.nodup_findIdxs).mpr fun i => ?_
    rw [plan.mem_leaves, List.mem_findIdxs_iff_exists_getElem_pos]
    simp only [List.getElem?_eq_some_iff]
    constructor
    · rintro ⟨cell, ⟨hi, rfl⟩, hleaf⟩
      exact ⟨hi, hleaf⟩
    · rintro ⟨hi, hleaf⟩
      exact ⟨_, ⟨hi, rfl⟩, hleaf⟩
  rw [hperm.length_eq, List.length_findIdxs]

/-- Every branch lists two children or more. -/
private theorem two_mul_branches_le {digests : List Digest}
    (hsound : ∀ cell ∈ cells, cell.Sound a digests) :
    2 * cells.countP (fun cell => !cell.content.isLeaf) ≤ (Cell.links cells).flatten.length := by
  induction cells with
  | nil => simp
  | cons cell cells ih =>
    obtain ⟨hcell, hcells⟩ := List.forall_mem_cons.mp hsound
    have hrest := ih hcells
    have hlinks : Cell.links (cell :: cells) = cell.content.children :: Cell.links cells := rfl
    rw [List.countP_cons, hlinks, List.flatten_cons, List.length_append]
    cases hleaf : cell.content.isLeaf with
    | true =>
      simp only [Bool.not_true, Bool.false_eq_true, if_false]
      omega
    | false =>
      have htwo := (hcell.of_branch hleaf).1
      simp only [Bool.not_false, if_true]
      omega

/-- There are **fewer branches than leaves**. -/
theorem Planned.length_cells_lt (plan : Planned a cells leaves root) :
    cells.length < 2 * leaves.length := by
  -- all cells but the root are listed once
  have honce := plan.planted.once.length_eq
  rw [List.length_cons, List.length_range, Cell.length_links] at honce
  have hbranches := two_mul_branches_le plan.sound
  have hcount := List.length_eq_countP_add_countP (l := cells) fun cell => cell.content.isLeaf
  rw [plan.countP_isLeaf] at hcount
  simp only [Bool.not_eq_true, Bool.decide_eq_false] at hcount
  omega

namespace Upward

variable (h : Upward a cells leaves root)
include h

theorem mem_leaves_iff {i : Nat} : i ∈ leaves ↔ i < leaves.length := by
  conv_lhs => rw [h.leaves_eq]
  exact List.mem_range

/-- The root stands **last**: whatever stands last has no parent behind it. -/
theorem root_eq : root = cells.length - 1 := by
  have hroot : root < cells.length := by simpa using h.planted.root_lt
  by_contra hne
  obtain ⟨p, hp⟩ := h.planted.exists_parent (i := cells.length - 1)
    (by rw [Cell.length_links]; omega) (Ne.symm hne)
  have hlt := h.ascending p _ hp
  have hpn := hp.parent_lt
  rw [Cell.length_links] at hpn
  omega

end Upward

/-! ## §2 Copies grow upwards -/

/-- An ascending list of numbers that **leaves none out**. -/
private theorem eq_range_of_ascending {list : List Nat} (hascending : list.Pairwise (· < ·))
    (hdown : ∀ k ∈ list, ∀ j < k, j ∈ list) : list = List.range list.length := by
  -- below a member stand as many members as it says
  have hsubset : list ⊆ List.range list.length := by
    intro k hk
    have hbelow : List.range (k + 1) ⊆ list := by
      intro j hj
      rcases Nat.lt_succ_iff_lt_or_eq.mp (List.mem_range.mp hj) with hlt | rfl
      · exact hdown k hk j hlt
      · exact hk
    have hlength := (List.nodup_range.subperm hbelow).length_le
    rw [List.length_range] at hlength
    exact List.mem_range.mpr hlength
  have hnodup : list.Nodup := hascending.imp Nat.ne_of_lt
  have hperm := (hnodup.subperm hsubset).perm_of_length_le (by rw [List.length_range])
  exact hascending.eq_of_mem_iff List.pairwise_lt_range fun i => hperm.mem_iff

/-- An arena that is embedded in one that grows upwards **grows upwards as well**, if its leaves are
listed in the order in which they stand outside. -/
theorem Embeds.upward {f : Nat → Nat} {part : List Cell} {inner : List Nat} {top : Nat}
    (h : Embeds f part cells) (outside : Upward a cells leaves root)
    (inside : Planned a part inner top) (hsublist : (inner.map f).Sublist leaves) :
    Upward a part inner top := by
  -- as the renaming keeps the order, it can be undone where an order is to be shown
  have hback : ∀ {j k}, j < part.length → f j < f k → j < k := by
    intro j k hj hlt
    by_contra hkj
    rcases Nat.eq_or_lt_of_le (Nat.le_of_not_lt hkj) with rfl | hkj
    · exact Nat.lt_irrefl _ hlt
    · exact Nat.lt_asymm hlt (h.ascending k j hkj hj)
  refine { inside with leaves_eq := ?_, ascending := fun p c hc => ?_ }
  · have hleaves : leaves.Pairwise (· < ·) := by
      rw [outside.leaves_eq]
      exact List.pairwise_lt_range
    have hinner := List.pairwise_map.mp (hleaves.sublist hsublist)
    refine eq_range_of_ascending (hinner.imp_of_mem fun hj _ hlt => hback (inside.leaf_lt hj) hlt)
      fun k hk j hjk => ?_
    -- what stands in front of a leaf outside is a leaf
    have hlt := inside.leaf_lt hk
    have hout := (h.mem_leaves_iff outside.toPlanned inside hlt).mpr hk
    rw [← h.mem_leaves_iff outside.toPlanned inside (Nat.lt_trans hjk hlt), outside.mem_leaves_iff]
    exact Nat.lt_trans (h.ascending j k hjk hlt) (outside.mem_leaves_iff.mp hout)
  · have hp : p < part.length := by simpa using hc.parent_lt
    refine hback (h.child_lt hc) (outside.ascending _ _ ?_)
    rw [Links.Child, h.below_eq hp]
    exact List.mem_map_of_mem hc

/-- The copy of a part of an arena that grows upwards is assembled from **one that grows upwards**. -/
theorem Upward.exists_copy (h : Upward a cells leaves root) {s : Subtree}
    (htree : s.tree = Tree.assemble a cells leaves root) :
    ∃ part inner top, Upward a part inner top ∧ s.copy = Tree.assemble a part inner top := by
  obtain ⟨part, inner, top, inside, hcopy, hembeds, -, hleaves⟩ :=
    Subtree.exists_embeds h.toPlanned htree
  refine ⟨part, inner, top, hembeds.upward h inside ?_, hcopy⟩
  rw [← hleaves, Subtree.leaves_eq_filter htree]
  exact List.filter_sublist

/-! ## §3 Built trees -/

/-- What a tree was built of. -/
inductive Origin where
  | items
  | mapping
  deriving DecidableEq, Repr

namespace Tree

/-- A tree that was **built** of one item or more or of a mapping that holds a byte string in its normal
form, or that was copied out of such a tree, and again out of the copy. -/
inductive Built : Origin → Tree → Prop where
  | ofItems (a : Algorithm) (retain : Bool) {items : List Bytes} (hne : items ≠ []) :
    Built .items (ofItems a retain items)
  /-- What competes for a place and loses is not held: without a byte string there is no node. -/
  | ofMapping (a : Algorithm) (retain : Bool) (reading : Mapping.Reading) {mapping : Mapping}
    (hne : (Value.map (Mapping.normalize reading mapping)).stored ≠ []) :
    Built .mapping (Mapping.toTree a retain reading mapping)
  | copied {origin : Origin} {s : Subtree} (h : Built origin s.tree) : Built origin s.copy

end Tree

/-- There is a form, and so a node, **exactly when** a byte string is held. -/
theorem Mapping.form?_eq_none_iff {retain : Bool} {value : Value} :
    form? a retain value = none ↔ value.stored = [] := by
  have hperm : ((form? a retain value).toList.flatMap Form.leafCells).Perm
      (value.stored.map (Cell.ofPayload a retain)) := leafCells_form? value
  constructor
  · intro hnone
    rw [hnone] at hperm
    exact List.map_eq_nil_iff.mp (List.nil_perm.mp hperm)
  · intro hnil
    cases hform : form? a retain value with
    | none => rfl
    | some form =>
      -- the arena of a form has fewer than twice as many cells as leaves, so it has a leaf
      obtain ⟨cells, root, hgrowing, -⟩ := Form.exists_growing_toTree (form?_sound hform)
      have hlt := hgrowing.planned.length_cells_lt
      have hlength := hperm.length_eq
      rw [hform, hnil, Option.toList_some, List.flatMap_singleton, List.map_nil,
        List.length_nil] at hlength
      rw [List.length_range, hlength] at hlt
      exact absurd hlt (Nat.not_lt_zero _)

namespace Tree

variable {t : Tree} {origin : Origin}

/-- Every built tree is assembled from a plan that grows upwards. -/
theorem Built.exists_upward (h : Built origin t) :
    ∃ a cells leaves root, Upward a cells leaves root ∧ t = assemble a cells leaves root := by
  induction h with
  | ofItems a retain hne =>
    obtain ⟨root, g, hgrown, hsound, -⟩ := exists_grown a retain _ hne
    refine ⟨_, _, _, _, hsound.growing.upward, ?_⟩
    rw [ofItems_eq, hgrown]
  | ofMapping a retain reading hne =>
    have hsome : Mapping.form? a retain _ ≠ none := fun hnone =>
      hne (Mapping.form?_eq_none_iff.mp hnone)
    obtain ⟨form, hform⟩ := Option.ne_none_iff_exists'.mp hsome
    obtain ⟨cells, root, hgrowing, htree⟩ :=
      Form.exists_growing_toTree (Mapping.form?_sound hform)
    refine ⟨_, _, _, _, hgrowing.upward, ?_⟩
    rw [Mapping.toTree, hform]
    exact htree
  | copied _ ih =>
    obtain ⟨a, cells, leaves, root, hupward, htree⟩ := ih
    obtain ⟨part, inner, top, hcopy, heq⟩ := hupward.exists_copy htree
    exact ⟨_, _, _, _, hcopy, heq⟩

/-- Whatever is copied out of trees of items is **a tree of items**. -/
theorem Built.exists_items (h : Built .items t) :
    ∃ a retain items, items ≠ [] ∧ t = Tree.ofItems a retain items := by
  generalize horigin : Origin.items = origin at h
  induction h with
  | ofItems a retain hne => exact ⟨a, retain, _, hne, rfl⟩
  | ofMapping => cases horigin
  | @copied origin s _ ih =>
    obtain ⟨a, retain, items, hne, htree⟩ := ih horigin
    have hroot : s.root < (Growth.arena (grown a retain items)).length := by
      have hlt := s.root_lt
      rwa [htree, (ofItems_eq_assemble a retain items hne).2, size_nodes_assemble] at hlt
    obtain ⟨lo, hi, f, hover⟩ := exists_over hroot
    exact ⟨a, retain, _, hover.slice_ne_nil, hover.copy_eq htree⟩

/-! ## §4 The order of a built arena -/

/-- An arena **in order**. -/
structure InOrder (t : Tree) : Prop where
  /-- The leaves are listed from the first index on, without gaps. -/
  leaves_eq : t.leaves.toList = List.range t.leafCount
  leafCount_le : t.leafCount ≤ t.size
  /-- No other node is a leaf. -/
  isLeaf_iff : ∀ i n, t.nodes[i]? = some n → (n.isLeaf = true ↔ i < t.leafCount)
  /-- A branch stands **behind all of its children**. -/
  child_lt : ∀ p (n : Node), t.nodes[p]? = some n → ∀ c ∈ n.children, c < p
  /-- The root stands last. -/
  root_eq : t.root = some (t.size - 1)

section Assembled

variable {a : Algorithm} {cells : List Cell} {leaves : List Nat} {root : Nat}

@[simp]
theorem size_assemble : (assemble a cells leaves root).size = cells.length :=
  size_nodes_assemble ..

@[simp]
theorem leafCount_assemble : (assemble a cells leaves root).leafCount = leaves.length :=
  List.size_toArray

/-- What is assembled from a plan that grows upwards is in order. -/
theorem inOrder_of_upward (h : Upward a cells leaves root) :
    (assemble a cells leaves root).InOrder where
  leaves_eq := h.leaves_eq
  leafCount_le := by
    rw [leafCount_assemble, size_assemble, ← h.countP_isLeaf]
    exact List.countP_le_length
  isLeaf_iff i n hn := by
    rw [leafCount_assemble, ← h.mem_leaves_iff, h.mem_leaves]
    rw [getElem?_assemble, Option.map_eq_some_iff] at hn
    obtain ⟨cell, hcell, rfl⟩ := hn
    simp [hcell, Node.isLeaf]
  child_lt p n hn c hc := by
    refine h.ascending p c ?_
    rw [← links_assemble a cells leaves root, Links.Child, below_eq_children hn]
    exact hc
  root_eq := by
    rw [size_assemble, ← h.root_eq]
    rfl

/-- What is assembled from a plan has a leaf, and at most **two nodes for each leaf**, less one. -/
theorem size_assemble_le (plan : Planned a cells leaves root) :
    0 < (assemble a cells leaves root).leafCount
      ∧ (assemble a cells leaves root).size
        ≤ 2 * (assemble a cells leaves root).leafCount - 1 := by
  have hlt := plan.length_cells_lt
  rw [size_assemble, leafCount_assemble]
  omega

end Assembled

/-- The leaves of a tree of items are **the items**, one by one. -/
structure ListsItems (t : Tree) (a : Algorithm) (retain : Bool) (items : List Bytes) : Prop where
  leafCount_eq : t.leafCount = items.length
  leaf_eq : ∀ i b, items[i]? = some b →
    ∃ n, t.leaf i = .ok n ∧ t.nodes[i]? = some n ∧ n.cell = Cell.ofPayload a retain b

theorem listsItems_ofItems (a : Algorithm) (retain : Bool) (items : List Bytes) :
    (ofItems a retain items).ListsItems a retain items where
  leafCount_eq := by
    rw [leafCount, leaves_ofItems, List.size_toArray, List.length_range]
  leaf_eq i b hi := by
    obtain ⟨parent, hnode⟩ := exists_node_ofItems a retain hi
    have hlt := (List.getElem?_eq_some_iff.mp hi).1
    refine ⟨_, ?_, hnode, rfl⟩
    rw [leaf, leaves_ofItems, List.getElem?_toArray, List.getElem?_range hlt, Option.bind_some,
      hnode]

end Tree

end HashTree
