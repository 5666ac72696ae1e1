import HashTree.Proofs.Tree.Embedded
import HashTree.Proofs.Tree.LevelOrder

/-!
# Copies of copies

The arena of a copy is embedded in the arena of the tree: rank by rank its cells are those of the
members, and its leaves are the members among the leaves in the order of the tree. Whatever can be
said of an embedded arena can be said of a copy. So a walk of the copy goes where the walk of the
subtree goes, and a part of the copy is the same part of the tree: copying it from either gives the
same tree, down to the order of the arena.
-/

namespace HashTree

/-- What a node shows of itself, apart from where it hangs. -/
def Node.shown (n : Node) : Digest × Option Bytes := (n.digest, n.payload?)

@[simp]
theorem Content.payload?_rename (content : Content) (f : Nat → Nat) :
    (content.rename f).payload? = content.payload? := by
  cases content <;> rfl

/-! ## §1 Walks of embedded arenas -/

/-- What a walk names is determined by it. -/
theorem Walk.Names.unique {w : Walk} {list list' : List Nat} (h : w.Names list)
    (h' : w.Names list') : list = list' :=
  List.ext_getElem? fun n => (h.answer_eq n).symm.trans (h'.answer_eq n)

section

variable {a : Algorithm} {cells : List Cell} {leaves : List Nat} {root : Nat}
  (plan : Planned a cells leaves root)
include plan

theorem Planned.root_lt : root < (Tree.assemble a cells leaves root).nodes.size := by
  simpa using plan.planted.root_lt

/-- The level order of an assembled tree is what the walk from its root names. -/
theorem Planned.names_levelOrder : Walk.Names (.start (Cell.links cells).toArray (some root))
    (Tree.assemble a cells leaves root).levelOrder := by
  have hplanted := plan.planted
  rw [← Tree.links_assemble a cells leaves root] at hplanted ⊢
  rw [← Tree.below_eq]
  exact Tree.names_levelOrderFrom hplanted plan.root_lt

theorem Planned.levelOrder_lt {k : Nat} (hk : k ∈ (Tree.assemble a cells leaves root).levelOrder) :
    k < cells.length := by
  have hplanted := plan.planted
  rw [← Tree.links_assemble a cells leaves root] at hplanted
  have hdescends := (Tree.mem_levelOrderFrom_iff hplanted plan.root_lt).mp hk
  simpa using hplanted.descends_lt hplanted.root_lt hdescends

end

namespace Embeds

variable {a : Algorithm} {f : Nat → Nat} {part whole : List Cell} {inner leaves : List Nat}
  {top root k : Nat}

/-- The renaming keeps different indices apart. -/
theorem inj (h : Embeds f part whole) {j : Nat} (hj : j < part.length) (hk : k < part.length)
    (heq : f j = f k) : j = k := by
  by_contra hne
  rcases Nat.lt_or_gt_of_ne hne with hlt | hlt
  · exact absurd heq (Nat.ne_of_lt (h.ascending j k hlt hk))
  · exact absurd heq (Nat.ne_of_gt (h.ascending k j hlt hj))

/-- A walk of an embedded arena **goes along** with a walk outside. -/
theorem names (h : Embeds f part whole) {w w' : Walk} {list : List Nat} (hnames : w.Names list)
    (hbelow : w.below = (Cell.links part).toArray) (hbelow' : w'.below = (Cell.links whole).toArray)
    (hqueue : w'.queue = w.queue.map f) : w'.Names (list.map f) := by
  induction hnames generalizing w' with
  | finished hnil =>
    rw [hnil] at hqueue
    exact .finished hqueue
  | @next w next i list hnext _ ih =>
    obtain ⟨rest, children, hstart, hchildren, hkeeps, hthen⟩ := Walk.queue_of_next? hnext
    rw [hstart, List.map_cons] at hqueue
    rw [hbelow, List.getElem?_toArray] at hchildren
    have hlt := (List.getElem?_eq_some_iff.mp hchildren).1
    rw [Cell.length_links] at hlt
    -- outside the same index is named, and its children are the renamed ones
    have houtside : w'.below[f i]? = some (children.map f) := by
      have hlt' := h.lt hlt
      rw [← Cell.length_links] at hlt'
      rw [hbelow', List.getElem?_toArray, Links.getElem?_eq_below hlt', h.below_eq hlt,
        Links.below_eq_of_getElem? hchildren]
    obtain ⟨next', hnext', hkeeps', hthen'⟩ := Walk.next?_of_queue_cons hqueue houtside
    refine .next hnext' (ih (hkeeps.trans hbelow) (hkeeps'.trans hbelow') ?_)
    rw [hthen', hthen, List.map_append]

/-- The nodes outside show what those of the embedded arena show. -/
theorem map_shown (h : Embeds f part whole) {list : List Nat} (hlt : ∀ k ∈ list, k < part.length) :
    ((Tree.assemble a part inner top).nodesAt list).map Node.shown
      = ((Tree.assemble a whole leaves root).nodesAt (list.map f)).map Node.shown := by
  simp only [Tree.nodesAt, List.map_filterMap, List.filterMap_map]
  refine List.filterMap_congr fun k hk => ?_
  have hcell := List.getElem?_eq_getElem (hlt k hk)
  rw [Function.comp_apply, Tree.getElem?_assemble, Tree.getElem?_assemble, hcell,
    h.cell_eq k _ hcell]
  simp [Node.shown, Node.payload?, Cell.rename]

end Embeds

/-! ## §2 The arena of a copy -/

namespace Subtree

variable {a : Algorithm} {cells part : List Cell} {leaves inner : List Nat} {root top k i : Nat}
  {f : Nat → Nat} {s : Subtree}

/-- The member of a rank. -/
def memberAt (s : Subtree) (rank : Nat) : Nat := s.members.getD rank 0

theorem memberAt_eq (h : s.members[k]? = some i) : s.memberAt k = i := by
  rw [memberAt, List.getD_eq_getElem?_getD, h, Option.getD_some]

section

variable (plan : Planned a cells leaves root) (htree : s.tree = Tree.assemble a cells leaves root)
include plan htree

/-- The rank of a member is **its place** among the members. -/
theorem getElem?_rank (hi : i ∈ s.members) : s.members[s.ranks.getD i 0]? = some i := by
  obtain ⟨k, hk⟩ := List.mem_iff_getElem?.mp hi
  have hget := congrArg (·[k]?) (map_ranks_of_plan plan htree)
  have hlt := (List.getElem?_eq_some_iff.mp hk).1
  simp only [List.getElem?_map, hk, Option.map_some, List.getElem?_range hlt,
    Option.some.injEq] at hget
  rwa [hget]

theorem member_lt_of_plan (hi : i ∈ s.members) : i < cells.length := by
  have htop : s.root < (Cell.links cells).length := by
    have hlt := s.root_lt
    rwa [htree, Tree.size_nodes_assemble, ← Cell.length_links] at hlt
  have hdescends := (mem_members_iff_descends plan htree).mp hi
  simpa using plan.planted.descends_lt htop hdescends

/-- The children of members are members. -/
theorem mem_members_of_child {c : Nat} (hi : i ∈ s.members)
    (hc : (Cell.links cells).Child i c) : c ∈ s.members := by
  rw [mem_members_iff_descends plan htree] at hi ⊢
  exact hi.tail hc

/-- The arena of a copy is **embedded** in that of the tree by the members. -/
theorem embeds_copy : Embeds s.memberAt
    (s.members.map (Planned.renamed cells fun i => s.ranks.getD i 0)) cells := by
  have hrank := fun i => getElem?_rank (s := s) (i := i) plan htree
  -- a member has a cell, whose children are members as well
  have hcell : ∀ i ∈ s.members, ∃ cell, cells[i]? = some cell
      ∧ ∀ c ∈ cell.content.children, c ∈ s.members := by
    intro i hi
    have hget := List.getElem?_eq_getElem (member_lt_of_plan plan htree hi)
    exact ⟨_, hget, fun c hc => mem_members_of_child plan htree hi (Cell.child_links hget hc)⟩
  refine ⟨fun k cell hk => ?_, fun j k hjk hk => ?_, fun cell hmem c hc => ?_⟩
  · rw [List.getElem?_map, Option.map_eq_some_iff] at hk
    obtain ⟨i, hi, rfl⟩ := hk
    obtain ⟨cell, hget, hchildren⟩ := hcell i (List.mem_of_getElem? hi)
    rw [memberAt_eq hi, hget, Planned.renamed, List.getD_eq_getElem?_getD, hget, Option.getD_some,
      Cell.rename, Content.rename_rename]
    -- going to the rank of a child and back changes nothing
    have hback : cell.content.rename (s.memberAt ∘ fun i => s.ranks.getD i 0)
        = cell.content.rename id :=
      Content.rename_congr fun c hc => memberAt_eq (hrank c (hchildren c hc))
    rw [hback, Content.rename_id]
  · rw [List.length_map] at hk
    rw [memberAt_eq (List.getElem?_eq_getElem (Nat.lt_trans hjk hk)),
      memberAt_eq (List.getElem?_eq_getElem hk)]
    exact List.pairwise_iff_getElem.mp s.pairwise_members j k (Nat.lt_trans hjk hk) hk hjk
  · obtain ⟨i, hi, rfl⟩ := List.mem_map.mp hmem
    obtain ⟨cell, hget, hchildren⟩ := hcell i hi
    rw [Planned.renamed, List.getD_eq_getElem?_getD, hget, Option.getD_some,
      Content.children_rename] at hc
    obtain ⟨child, hchild, rfl⟩ := List.mem_map.mp hc
    rw [List.length_map]
    exact (List.getElem?_eq_some_iff.mp (hrank child (hchildren child hchild))).1

/-- A copy is assembled from a plan whose arena is embedded, **with its leaves and its root**. -/
theorem exists_embeds : ∃ part inner top, Planned a part inner top
    ∧ s.copy = Tree.assemble a part inner top ∧ Embeds s.memberAt part cells
    ∧ s.root = s.memberAt top ∧ s.leaves = inner.map s.memberAt := by
  refine ⟨_, _, _, planned_copy plan htree, copy_eq plan htree, embeds_copy plan htree, ?_, ?_⟩
  · have hroot : s.root ∈ s.members := (mem_members_iff_descends plan htree).mpr .refl
    exact (memberAt_eq (getElem?_rank plan htree hroot)).symm
  · have hleaves : ∀ i ∈ s.leaves, s.memberAt (s.ranks.getD i 0) = i := by
      intro i hi
      rw [leaves_eq_filter htree, List.mem_filter, decide_eq_true_iff] at hi
      exact memberAt_eq (getElem?_rank plan htree hi.2)
    rw [List.map_map]
    exact ((List.map_congr_left hleaves).trans (List.map_id _)).symm

end

/-! ## §3 Parts of embedded arenas -/

section

variable {u v : Subtree} (plan : Planned a cells leaves root)
  (inside : Planned a part inner top) (h : Embeds f part cells)
  (hu : u.tree = Tree.assemble a part inner top) (hv : v.tree = Tree.assemble a cells leaves root)
  (hroot : v.root = f u.root)
include plan inside h hu hv hroot

/-- **A part of an embedded arena is copied like the part outside**, if the leaves that stand in both
have one order. -/
theorem copy_eq_of_embeds (hleaves : v.leaves = u.leaves.map f) : u.copy = v.copy := by
  obtain ⟨part', inner', top', plan', hcopy, h', hroot', hleaves'⟩ := exists_embeds inside hu
  rw [hcopy]
  symm
  apply copy_of_embeds plan hv plan' (h'.trans h)
  · rw [hroot, hroot', Function.comp_apply]
  · rw [hleaves, hleaves', List.map_map]

/-- The members outside are those inside, renamed. -/
theorem members_eq_of_embeds : v.members = u.members.map f := by
  obtain ⟨part', inner', top', plan', -, h', hroot', -⟩ := exists_embeds inside hu
  have hinside := members_of_embeds inside hu plan' h' hroot'
  rw [hinside, List.map_map]
  apply members_of_embeds plan hv plan' (h'.trans h)
  rw [hroot, hroot', Function.comp_apply]

end

section

variable (plan : Planned a cells leaves root) (htree : s.tree = Tree.assemble a cells leaves root)
include plan htree

/-- **A part of a copy is copied like the same part of the tree.** -/
theorem copy_eq_of_copy {u v : Subtree} (hu : u.tree = s.copy) (hv : v.tree = s.tree)
    (hroot : v.root = s.memberAt u.root) (hmem : v.root ∈ s.members) : u.copy = v.copy := by
  obtain ⟨part, inner, top, inside, hcopy, h, -, hleaves⟩ := exists_embeds plan htree
  rw [hcopy] at hu
  rw [htree] at hv
  apply copy_eq_of_embeds plan inside h hu hv hroot
  have hmembers := members_eq_of_embeds plan inside h hu hv hroot
  -- what lies below a member are members, so nothing is lost by keeping only these
  have hbelow : ∀ i, i ∈ v.members → i ∈ s.members := by
    intro i hi
    rw [mem_members_iff_descends plan hv] at hi
    rw [mem_members_iff_descends plan htree] at hmem ⊢
    exact hmem.trans hi
  have htwice : v.leaves = s.leaves.filter (· ∈ v.members) := by
    rw [leaves_eq_filter hv, leaves_eq_filter htree, List.filter_filter]
    refine List.filter_congr fun i _ => ?_
    simpa using hbelow i
  rw [htwice, hleaves, leaves_eq_filter hu, List.filter_map]
  congr 1
  refine List.filter_congr fun k hk => ?_
  -- the renaming keeps different indices apart
  have hlt := inside.leaf_lt hk
  rw [Function.comp_apply, hmembers, decide_eq_decide]
  constructor
  · intro hmap
    obtain ⟨j, hj, heq⟩ := List.mem_map.mp hmap
    rwa [← h.inj (member_lt_of_plan inside hu hj) hlt heq]
  · intro hk
    exact List.mem_map_of_mem hk

/-- The copy from the root is **the tree**. -/
theorem copy_eq_self (hroot : s.root = root) : s.copy = s.tree := by
  rw [htree]
  apply copy_of_embeds plan htree plan (Embeds.refl plan.closed) hroot
  -- all leaves are members
  rw [leaves_eq_filter htree, List.map_id, List.filter_eq_self]
  intro i hi
  have hlt := plan.leaf_lt hi
  rw [← Cell.length_links] at hlt
  rw [decide_eq_true_iff, mem_members_iff_descends plan htree, hroot]
  exact plan.planted.descends i hlt

/-- The walk of the copy **goes along** with the walk of the subtree. -/
theorem levelOrder_eq_map : s.levelOrder = s.copy.levelOrder.map s.memberAt := by
  obtain ⟨part, inner, top, inside, hcopy, h, hroot, -⟩ := exists_embeds plan htree
  have hplanted : s.tree.links.Planted root := by
    rw [htree, Tree.links_assemble]
    exact plan.planted
  rw [hcopy]
  apply (Tree.names_levelOrderFrom hplanted s.root_lt).unique
  apply h.names inside.names_levelOrder rfl
  · rw [Walk.start, Tree.below_eq, htree, Tree.links_assemble]
  · simp [Walk.start, Walk.queue, hroot]

/-- The root of the copy carries the digest of the topmost node. -/
theorem rootDigest_copy : s.copy.rootDigest = .ok s.top.digest := by
  obtain ⟨part, inner, top, inside, hcopy, h, hroot, -⟩ := exists_embeds plan htree
  have hlt : top < part.length := by simpa using inside.planted.root_lt
  have hcell := List.getElem?_eq_getElem hlt
  have htop : s.tree.nodes[s.root]? = some s.top := Array.getElem?_eq_getElem s.root_lt
  rw [htree, Tree.getElem?_assemble, hroot, h.cell_eq top _ hcell, Option.map_some] at htop
  have hnode : (Tree.assemble a part inner top).root.bind
      (fun k => (Tree.assemble a part inner top).nodes[k]?)
      = (Tree.assemble a part inner top).nodes[top]? := rfl
  rw [hcopy, Tree.rootDigest, Tree.rootNode, hnode, Tree.getElem?_assemble, hcell,
    ← Option.some.inj htop]
  rfl

/-- The copy shows in level order what the subtree shows. -/
theorem map_shown_levelOrder : (s.copy.nodesAt s.copy.levelOrder).map Node.shown
    = (s.tree.nodesAt s.levelOrder).map Node.shown := by
  obtain ⟨part, inner, top, inside, hcopy, h, -, -⟩ := exists_embeds plan htree
  rw [levelOrder_eq_map plan htree, hcopy, htree]
  exact h.map_shown fun k hk => inside.levelOrder_lt hk

/-- The leaves of the copy show what those of the subtree show, one by one. -/
theorem map_shown_leafNodes :
    s.copy.leafNodes.map Node.shown = s.leafNodes.map Node.shown := by
  obtain ⟨part, inner, top, inside, hcopy, h, -, hleaves⟩ := exists_embeds plan htree
  rw [Tree.leafNodes, Subtree.leafNodes, hcopy, htree, hleaves]
  exact h.map_shown fun k hk => inside.leaf_lt hk

end

/-! ## §4 What a copy has of its tree -/

/-- A copy is **faithful**: it has the same nodes, in level order and in the order of the leaves, and
copying from it is copying from the tree. -/
structure FaithfulCopy (s : Subtree) : Prop where
  members_nodup : s.members.Nodup
  mem_members_iff : ∀ j, j ∈ s.members ↔ s.tree.links.Descends s.root j
  contains_iff : ∀ j, s.contains j = true ↔ j ∈ s.members
  size_eq : s.copy.size = s.size
  rootDigest_eq : s.copy.rootDigest = .ok s.top.digest
  levelOrder_shown : (s.copy.nodesAt s.copy.levelOrder).map Node.shown
    = (s.tree.nodesAt s.levelOrder).map Node.shown
  /-- The leaves are members in the order of the tree. -/
  leaves_eq : s.leaves = s.tree.leaves.toList.filter (· ∈ s.members)
  leaves_shown : s.copy.leafNodes.map Node.shown = s.leafNodes.map Node.shown
  copy_root : s.tree.root = some s.root → s.copy = s.tree
  /-- A member is found again **at its rank**, and what lies below is copied alike from there. -/
  copy_member : ∀ j ∈ s.members, s.members[s.ranks.getD j 0]? = some j
    ∧ ∃ u v, ofIndex s.copy (s.ranks.getD j 0) = .ok u ∧ ofIndex s.tree j = .ok v
      ∧ u.copy = v.copy

theorem faithfulCopy (plan : Planned a cells leaves root)
    (htree : s.tree = Tree.assemble a cells leaves root) : s.FaithfulCopy where
  members_nodup := s.nodup_members
  mem_members_iff j := by
    rw [mem_members_iff_descends plan htree, htree, Tree.links_assemble]
  contains_iff j := s.mem_members_iff.symm
  size_eq := by
    rw [Tree.size, copy_eq plan htree, Tree.size_nodes_assemble, List.length_map, size]
  rootDigest_eq := rootDigest_copy plan htree
  levelOrder_shown := map_shown_levelOrder plan htree
  leaves_eq := by
    rw [leaves_eq_filter htree, htree]
    rfl
  leaves_shown := map_shown_leafNodes plan htree
  copy_root hroot := by
    rw [htree] at hroot
    exact copy_eq_self plan htree (Option.some.inj hroot).symm
  copy_member j hj := by
    have hrank := getElem?_rank plan htree hj
    have hlt : s.ranks.getD j 0 < s.copy.nodes.size := by
      rw [copy_eq plan htree, Tree.size_nodes_assemble, List.length_map]
      exact (List.getElem?_eq_some_iff.mp hrank).1
    have hlt' : j < s.tree.nodes.size := by
      rw [htree, Tree.size_nodes_assemble]
      exact member_lt_of_plan plan htree hj
    refine ⟨hrank, ⟨_, _, hlt⟩, ⟨_, _, hlt'⟩, dif_pos hlt, dif_pos hlt', ?_⟩
    exact copy_eq_of_copy plan htree rfl rfl (memberAt_eq hrank).symm hj

end Subtree

namespace Tree

variable {t : Tree} {i : Nat}

/-- **Copying a part of a tree is faithful and can be repeated.** Every node of every tree that can be
come by is the top of a subtree whose members are what lies at or below it. The copy has as many nodes
and the digest of the top; in level order and by position of the leaves it shows what the subtree
shows. From the root the copy is the whole tree, and a part of the copy is copied to the same tree as
that part of the original. -/
theorem Reachable.copy_faithful (h : t.Reachable) (hi : i < t.nodes.size) :
    ∃ s, Subtree.ofIndex t i = .ok s ∧ s.tree = t ∧ s.root = i ∧ s.FaithfulCopy := by
  refine ⟨⟨t, i, hi⟩, dif_pos hi, rfl, rfl, ?_⟩
  cases h.made with
  | empty a => exact absurd hi (Nat.not_lt_zero i)
  | assembled plan => exact Subtree.faithfulCopy plan rfl

/-- In the tree of three items the first two and what joins them have the ranks from zero to two. -/
theorem Reachable.copy_faithful_three :
    ∃ s, Subtree.ofIndex (Tree.ofItems .sha1 true [[1], [2], [3]]) 3 = .ok s
      ∧ s.members = [0, 1, 3] ∧ s.copy.size = 3 ∧ s.FaithfulCopy := by
  obtain ⟨s, hs, htree, hroot, hcopy⟩ :=
    (Reachable.ofItems .sha1 true [[1], [2], [3]]).copy_faithful three_lt_size_ofItems
  obtain ⟨cells, hcells, hlinks⟩ := exists_cells_three
  have hlength : cells.length = 5 := by
    rw [← Cell.length_links, hlinks]
    rfl
  have hmembers : s.members = [0, 1, 3] := by
    simp only [Subtree.members, Subtree.flags, Subtree.levelOrder, levelOrderFrom, below_eq,
      htree, hroot, hcells, links_assemble, hlinks, size, size_nodes_assemble, hlength]
    decide
  refine ⟨s, hs, hmembers, ?_, hcopy⟩
  rw [hcopy.size_eq, Subtree.size, hmembers]
  rfl

end Tree

end HashTree
