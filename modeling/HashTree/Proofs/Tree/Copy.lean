import HashTree.Proofs.Tree.Planned
import HashTree.Proofs.Tree.Walk
import HashTree.Tree.Subtree

/-!
# Copies of subtrees are planned

A subtree holds the children of its members, so its cells make sense by themselves once their
children are renamed to ranks. Renaming by any numbering of the members turns the plan of a tree
into a plan of the subtree.
-/

namespace HashTree

/-! ## §1 Renaming part of a plan -/

/-- Below a tree of indices, every index but the top is listed once. -/
theorem Rose.Follows.postorder_perm_cons {links : Links} {r : Rose} (h : r.Follows links) :
    r.postorder.Perm (r.index :: r.postorder.flatMap links.below) := by
  induction r using Rose.induction with
  | node i cs ih =>
    have hchildren : (cs.flatMap postorder).Perm
        (cs.map index ++ (cs.flatMap postorder).flatMap links.below) := by
      rw [List.flatMap_assoc]
      exact (List.Perm.flatMap_left _ fun c hc => ih c hc (h.of_mem hc)).trans
        (List.map_append_flatMap_perm _ _ _).symm
    rw [postorder_node, List.flatMap_append, List.flatMap_singleton, h.below_eq, index_node]
    exact (List.perm_append_singleton i _).trans
      ((hchildren.trans List.perm_append_comm).cons i)

@[simp]
theorem Content.children_rename (content : Content) (rank : Nat → Nat) :
    (content.rename rank).children = content.children.map rank := by
  cases content with
  | leaf payload => rfl
  | internal children => rfl

@[simp]
theorem Content.isLeaf_rename (content : Content) (rank : Nat → Nat) :
    (content.rename rank).isLeaf = content.isLeaf := by
  cases content with
  | leaf payload => rfl
  | internal children => rfl

namespace Planned

variable {a : Algorithm} {cells : List Cell} {leaves members : List Nat} {root : Nat} {r : Rose}
  {rank : Nat → Nat}

/-- The cell at an index with its children renamed. -/
def renamed (cells : List Cell) (rank : Nat → Nat) (i : Nat) : Cell :=
  ⟨(cells.getD i default).digest, (cells.getD i default).content.rename rank⟩

/-- In a numbering the rank of a member is its place. -/
private theorem rank_eq (hrank : members.map rank = List.range members.length) {k j : Nat}
    (hk : members[k]? = some j) : rank j = k := by
  have hlt := (List.getElem?_eq_some_iff.mp hk).1
  have hget := congrArg (·[k]?) hrank
  simpa [hk, List.getElem?_range hlt] using hget

variable (plan : Planned a cells leaves root) (hr : r.Follows (Cell.links cells))
  (hmembers : members.Perm r.postorder) (hrank : members.map rank = List.range members.length)

section Members

include plan hr hmembers

private theorem getElem?_member {j : Nat} (hj : j ∈ members) :
    cells[j]? = some (cells.getD j default) := by
  have hd := hr.mem_postorder.mp (hmembers.mem_iff.mp hj)
  have hlt := plan.planted.descends_lt hr.index_lt hd
  rw [Cell.length_links] at hlt
  rw [List.getD_eq_getElem?_getD, List.getElem?_eq_getElem hlt, Option.getD_some]

private theorem mem_of_child {j c : Nat} (hj : j ∈ members)
    (hc : c ∈ (cells.getD j default).content.children) : c ∈ members := by
  have hcell := plan.getElem?_member hr hmembers hj
  have hd := hr.mem_postorder.mp (hmembers.mem_iff.mp hj)
  exact hmembers.mem_iff.mpr (hr.mem_postorder.mpr (hd.tail (Cell.child_links hcell hc)))

private theorem links_renamed (rank : Nat → Nat) : Cell.links (members.map (renamed cells rank))
    = members.map fun j => ((Cell.links cells).below j).map rank := by
  rw [Cell.links, List.map_map]
  refine List.map_congr_left fun j hj => ?_
  rw [Cell.below_links (plan.getElem?_member hr hmembers hj)]
  exact Content.children_rename _ rank

end Members

section Numbered

include hrank

private theorem getElem?_map_rank {α : Type} (f : Nat → α) {j : Nat} (hj : j ∈ members) :
    (members.map f)[rank j]? = some (f j) := by
  obtain ⟨k, hk⟩ := List.mem_iff_getElem?.mp hj
  rw [rank_eq hrank hk, List.getElem?_map, hk]
  rfl

private theorem rank_injOn {j k : Nat} (hj : j ∈ members) (hk : k ∈ members)
    (h : rank j = rank k) : j = k := by
  have hjk := getElem?_map_rank hrank id hj
  rw [h, getElem?_map_rank hrank id hk] at hjk
  exact (Option.some.inj hjk).symm

end Numbered

include plan hr hmembers hrank

private theorem planted_renamed :
    (Cell.links (members.map (renamed cells rank))).Planted (rank r.index) := by
  have hlinks := plan.links_renamed hr hmembers rank
  have hflatten : (Cell.links (members.map (renamed cells rank))).flatten
      = (members.flatMap (Cell.links cells).below).map rank := by
    rw [hlinks, List.map_flatMap, List.flatMap_def]
  refine ⟨?_, fun k hk => ?_⟩
  · -- the members are the top and the children of members
    have hperm : members.Perm (r.index :: members.flatMap (Cell.links cells).below) :=
      (hmembers.trans hr.postorder_perm_cons).trans
        ((hmembers.symm.flatMap_right _).cons _)
    rw [hflatten, ← List.map_cons, Cell.length_links, List.length_map, ← hrank]
    exact (hperm.map rank).symm
  · -- a way down to a member goes through members
    have hdown : ∀ j, (Cell.links cells).Descends r.index j →
        (Cell.links (members.map (renamed cells rank))).Descends (rank r.index) (rank j) := by
      intro j hd
      induction hd with
      | refl => exact .refl
      | tail hdp hpc ih =>
        have hp := hmembers.mem_iff.mpr (hr.mem_postorder.mpr hdp)
        refine ih.tail ?_
        rw [Links.Child, hlinks, Links.below_eq_of_getElem? (getElem?_map_rank hrank _ hp)]
        exact List.mem_map.mpr ⟨_, hpc, rfl⟩
    rw [Cell.length_links, List.length_map] at hk
    rw [← rank_eq hrank (List.getElem?_eq_getElem hk)]
    exact hdown _ (hr.mem_postorder.mp (hmembers.mem_iff.mp (List.getElem_mem hk)))

private theorem sound_renamed {j : Nat} (hj : j ∈ members) :
    (renamed cells rank j).Sound a ((members.map (renamed cells rank)).map (·.digest)) := by
  have hcell := plan.getElem?_member hr hmembers hj
  have hsound := plan.sound _ (List.mem_of_getElem? hcell)
  have hbelow : ∀ c ∈ (cells.getD j default).content.children, c ∈ members :=
    fun c => plan.mem_of_child hr hmembers hj
  -- at the rank of a child stands the digest of the child
  have hdigest : ∀ c ∈ members, ((members.map (renamed cells rank)).map (·.digest)).getD (rank c) []
      = (cells.map (·.digest)).getD c [] := by
    intro c hc
    rw [List.map_map, List.getD_eq_getElem?_getD, List.getD_eq_getElem?_getD,
      getElem?_map_rank hrank _ hc, List.getElem?_map, plan.getElem?_member hr hmembers hc]
    rfl
  rw [renamed]
  generalize cells.getD j default = cell at hsound hbelow
  obtain ⟨digest, content⟩ := cell
  cases content with
  | leaf payload => exact hsound
  | internal children =>
    obtain ⟨htwo, hdigests⟩ := hsound
    refine ⟨by rwa [List.length_map], ?_⟩
    rw [List.flatMap_map]
    refine hdigests.trans (congrArg a.digest ?_)
    exact List.flatMap_congr fun c hc => (hdigest c (hbelow c hc)).symm

/-- **Renaming** the members of a subtree by any numbering keeps the plan. -/
theorem restrict : Planned a (members.map (renamed cells rank))
    ((leaves.filter (· ∈ members)).map rank) (rank r.index) where
  planted := plan.planted_renamed hr hmembers hrank
  leaves_nodup := by
    refine List.Nodup.map_on (fun j hj k hk => ?_) (plan.leaves_nodup.filter _)
    have hj := of_decide_eq_true (List.mem_filter.mp hj).2
    have hk := of_decide_eq_true (List.mem_filter.mp hk).2
    exact rank_injOn hrank hj hk
  mem_leaves k := by
    have hleaf : ∀ j, (renamed cells rank j).content.isLeaf
        = (cells.getD j default).content.isLeaf := fun j => Content.isLeaf_rename _ rank
    constructor
    · intro hk
      obtain ⟨j, hj, rfl⟩ := List.mem_map.mp hk
      obtain ⟨hjleaf, hjmem⟩ := List.mem_filter.mp hj
      have hjmem := of_decide_eq_true hjmem
      obtain ⟨cell, hcell, hisLeaf⟩ := (plan.mem_leaves j).mp hjleaf
      refine ⟨_, getElem?_map_rank hrank _ hjmem, ?_⟩
      rw [hleaf, ← Option.some.inj (hcell.symm.trans (plan.getElem?_member hr hmembers hjmem))]
      exact hisLeaf
    · rintro ⟨cell, hcell, hisLeaf⟩
      rw [List.getElem?_map, Option.map_eq_some_iff] at hcell
      obtain ⟨j, hjk, rfl⟩ := hcell
      have hj := List.mem_of_getElem? hjk
      rw [hleaf] at hisLeaf
      refine List.mem_map.mpr ⟨j, List.mem_filter.mpr ⟨?_, decide_eq_true hj⟩, rank_eq hrank hjk⟩
      exact (plan.mem_leaves j).mpr ⟨_, plan.getElem?_member hr hmembers hj, hisLeaf⟩
  sound cell hcell := by
    obtain ⟨j, hj, rfl⟩ := List.mem_map.mp hcell
    exact plan.sound_renamed hr hmembers hrank hj

end Planned

/-! ## §2 Members and ranks -/

theorem Tree.below_eq (t : Tree) : t.below = t.links.toArray := by
  rw [below, links, ← Array.toList_map, Array.toArray_toList]

namespace Subtree

variable (s : Subtree)

private theorem flags_eq_fill : s.flags
    = Table.fill (Array.replicate s.tree.size false) (s.levelOrder.map fun i => (i, true)) := by
  rw [flags, Table.fill, List.foldl_map]

private theorem ranks_eq_fill :
    s.ranks = Table.fill (Array.replicate s.tree.size 0) s.members.zipIdx := rfl

/-- The members are in ascending order. -/
theorem pairwise_members : s.members.Pairwise (· < ·) := by
  have hsublist : s.members.Sublist (s.flags.toList.zipIdx.map (·.2)) :=
    List.filter_sublist.map _
  rw [List.zipIdx_map_snd] at hsublist
  exact List.Pairwise.sublist hsublist List.pairwise_lt_range'

theorem nodup_members : s.members.Nodup := s.pairwise_members.imp Nat.ne_of_lt

/-- The members are the flagged indices. -/
theorem mem_members_iff {i : Nat} : i ∈ s.members ↔ s.flags.getD i false = true := by
  have hmem : i ∈ s.members ↔ s.flags[i]? = some true := by
    rw [members, List.mem_map]
    constructor
    · rintro ⟨⟨flag, j⟩, hj, rfl⟩
      obtain ⟨hj, hflag⟩ := List.mem_filter.mp hj
      rw [List.mem_zipIdx_iff_getElem?, Array.getElem?_toList] at hj
      rw [hj]
      exact congrArg some hflag
    · intro hi
      refine ⟨(true, i), List.mem_filter.mpr ⟨?_, rfl⟩, rfl⟩
      rw [List.mem_zipIdx_iff_getElem?, Array.getElem?_toList]
      exact hi
  rw [hmem, Array.getD_eq_getD_getElem?]
  cases s.flags[i]? with
  | none => simp
  | some flag => simp

variable {s} {root : Nat} {r : Rose} (hplanted : s.tree.links.Planted root)
  (hr : r.Follows s.tree.links) (htop : r.index = s.root)
include hplanted hr htop

theorem levelOrder_perm : s.levelOrder.Perm r.postorder := by
  rw [levelOrder, ← htop]
  exact Tree.levelOrderFrom_perm hplanted (Tree.below_eq _) hr

/-- The members are the topmost index and **all that lies below** it. -/
theorem members_perm : s.members.Perm r.postorder := by
  have hperm := s.levelOrder_perm hplanted hr htop
  have hlt : ∀ i ∈ s.levelOrder, i < s.tree.size := by
    intro i hi
    have hd := hr.mem_postorder.mp (hperm.mem_iff.mp hi)
    have hlt := hplanted.descends_lt hr.index_lt hd
    rwa [Tree.length_links] at hlt
  have hnodup : (s.levelOrder.map fun i => (i, true)).map Prod.fst |>.Nodup := by
    rw [List.map_map, show Prod.fst ∘ (fun i : Nat => (i, true)) = id from rfl, List.map_id]
    exact hperm.nodup_iff.mpr (hplanted.nodup_postorder hr)
  refine (List.perm_ext_iff_of_nodup s.nodup_members (hplanted.nodup_postorder hr)).mpr fun i => ?_
  rw [← hperm.mem_iff, mem_members_iff, flags_eq_fill, Array.getD_eq_getD_getElem?]
  constructor
  · -- an index that is not named keeps its false
    intro hflag
    by_contra hi
    have hkeys : i ∉ (s.levelOrder.map fun i => (i, true)).map Prod.fst := by simpa using hi
    rw [Table.getElem?_fill_of_notMem hkeys, Array.getElem?_replicate] at hflag
    split at hflag <;> simp at hflag
  · intro hi
    rw [Table.getElem?_fill_of_mem hnodup (List.mem_map.mpr ⟨i, hi, rfl⟩)
      (by simpa using hlt i hi), Option.getD_some]

/-- A member is an index of the tree. -/
theorem member_lt {i : Nat} (hi : i ∈ s.members) : i < s.tree.size := by
  have hd := hr.mem_postorder.mp ((members_perm hplanted hr htop).mem_iff.mp hi)
  have hlt := hplanted.descends_lt hr.index_lt hd
  rwa [Tree.length_links] at hlt

/-- The ranks number the members. -/
theorem map_ranks : s.members.map (fun i => s.ranks.getD i 0) = List.range s.members.length := by
  refine List.ext_getElem (by simp) fun k hk hk' => ?_
  rw [List.length_map] at hk
  have hnodup : (s.members.zipIdx.map Prod.fst).Nodup := by
    rw [List.zipIdx_map_fst]
    exact s.nodup_members
  have hmem : (s.members[k], k) ∈ s.members.zipIdx :=
    List.mem_zipIdx_iff_getElem?.mpr (List.getElem?_eq_getElem hk)
  have hlt : s.members[k] < (Array.replicate s.tree.size 0).size := by
    rw [Array.size_replicate]
    exact member_lt hplanted hr htop (List.getElem_mem hk)
  have hrank : s.ranks.getD s.members[k] 0 = k := by
    rw [ranks_eq_fill, Array.getD_eq_getD_getElem?, Table.getElem?_fill_of_mem hnodup hmem hlt,
      Option.getD_some]
  rw [List.getElem_map, hrank]
  exact (List.getElem_range hk').symm

end Subtree

/-! ## §3 Copies -/

section Copies

variable {a : Algorithm} {cells : List Cell} {leaves : List Nat} {root : Nat}

private theorem Planned.nodesAt_renamed {rank : Nat → Nat} {indices : List Nat}
    (hlt : ∀ i ∈ indices, i < cells.length) :
    ((Tree.assemble a cells leaves root).nodesAt indices).map
        (fun n => (⟨n.digest, n.content.rename rank⟩ : Cell))
      = indices.map (renamed cells rank) := by
  induction indices with
  | nil => rfl
  | cons i indices ih =>
    have hi := hlt i List.mem_cons_self
    have ih := ih fun j hj => hlt j (List.mem_cons_of_mem _ hj)
    rw [Tree.nodesAt] at ih ⊢
    rw [List.filterMap_cons, Tree.getElem?_assemble, List.getElem?_eq_getElem hi, List.map_cons,
      ← ih, renamed, List.getD_eq_getElem?_getD, List.getElem?_eq_getElem hi]
    rfl

namespace Subtree

variable {s : Subtree} (plan : Planned a cells leaves root)
  (htree : s.tree = Tree.assemble a cells leaves root)

section

include htree

/-- The leaves are those of the tree that are members, in the order of the tree. -/
theorem leaves_eq_filter : s.leaves = leaves.filter (· ∈ s.members) := by
  rw [Subtree.leaves, htree]
  refine List.filter_congr fun i _ => ?_
  rw [Bool.eq_iff_iff, decide_eq_true_iff, s.mem_members_iff]

end

include plan htree

private theorem planted_of_plan : s.tree.links.Planted root := by
  rw [htree, Tree.links_assemble]
  exact plan.planted

private theorem exists_follows_of_plan : ∃ r : Rose, r.index = s.root ∧ r.Follows s.tree.links := by
  apply (planted_of_plan plan htree).exists_follows
  rw [Tree.length_links]
  exact s.root_lt

/-- A member lies at or below the topmost index. -/
theorem mem_members_iff_descends {i : Nat} :
    i ∈ s.members ↔ (Cell.links cells).Descends s.root i := by
  obtain ⟨r, htop, hr⟩ := exists_follows_of_plan plan htree
  have hmembers := s.members_perm (planted_of_plan plan htree) hr htop
  rw [hmembers.mem_iff, hr.mem_postorder, htop, htree, Tree.links_assemble]

/-- A copy is assembled from the cells of the members, which are **renamed to their ranks**. -/
theorem copy_eq : s.copy = Tree.assemble a
    (s.members.map (Planned.renamed cells fun i => s.ranks.getD i 0))
    (s.leaves.map fun i => s.ranks.getD i 0) (s.ranks.getD s.root 0) := by
  obtain ⟨r, htop, hr⟩ := exists_follows_of_plan plan htree
  have hindices : ∀ i ∈ s.members, i < cells.length := by
    intro i hi
    have hi := s.member_lt (planted_of_plan plan htree) hr htop hi
    rwa [htree, Tree.size, Tree.size_nodes_assemble] at hi
  rw [Subtree.copy, htree, Planned.nodesAt_renamed hindices]
  rfl

/-- The ranks of the members are their places among the members. -/
theorem map_ranks_of_plan :
    s.members.map (fun i => s.ranks.getD i 0) = List.range s.members.length := by
  obtain ⟨r, htop, hr⟩ := exists_follows_of_plan plan htree
  exact s.map_ranks (planted_of_plan plan htree) hr htop

/-- The cells of a copy are **planned**. -/
theorem planned_copy : Planned a (s.members.map (Planned.renamed cells fun i => s.ranks.getD i 0))
    (s.leaves.map fun i => s.ranks.getD i 0) (s.ranks.getD s.root 0) := by
  -- the members are taken from the tree, whereas the plan speaks of its cells
  obtain ⟨r, htop, hr⟩ := exists_follows_of_plan plan htree
  have hmembers := s.members_perm (planted_of_plan plan htree) hr htop
  rw [htree, Tree.links_assemble] at hr
  rw [leaves_eq_filter htree, ← htop]
  exact plan.restrict hr hmembers (map_ranks_of_plan plan htree)

end Subtree

end Copies

/-- **A copy** of a part of a tree is empty or assembled from a plan when the tree is. -/
theorem Subtree.copy_made {s : Subtree} (h : s.tree.Made) : s.copy.Made := by
  generalize ht : s.tree = t at h
  cases h with
  | empty a =>
    have hlt := s.root_lt
    rw [ht] at hlt
    exact absurd hlt (Nat.not_lt_zero _)
  | @assembled a cells leaves root plan =>
    rw [copy_eq plan ht]
    exact .assembled (planned_copy plan ht)

end HashTree
