import HashTree.Proofs.Tree.Planned
import HashTree.Proofs.Tree.Walk

/-!
# Shapes of trees

What walks, openings and documents rely on: the arena unfolds from the root to a tree of indices,
the leaves are the indices without children, and every digest of a branch is the hash of the
digests below.
-/

namespace HashTree

namespace Tree

/-- The arena **unfolds** to a tree of indices. -/
structure Unfolds (t : Tree) (r : Rose) : Prop where
  root_eq : t.root = some r.index
  planted : t.links.Planted r.index
  follows : r.Follows t.links
  leaves_nodup : t.leaves.toList.Nodup
  mem_leaves : ∀ i, i ∈ t.leaves ↔ i < t.links.length ∧ t.links.below i = []
  digestAt_eq : ∀ i, t.links.below i ≠ [] →
    t.digestAt i = t.algorithm.digest ((t.links.below i).flatMap t.digestAt)
  length_digestAt : ∀ i < t.links.length, (t.digestAt i).length = t.algorithm.digestSize

/-- What is assembled from a plan unfolds. -/
theorem exists_unfolds {a : Algorithm} {cells : List Cell} {leaves : List Nat} {root : Nat}
    (plan : Planned a cells leaves root) :
    ∃ r : Rose, r.index = root ∧ (assemble a cells leaves root).Unfolds r := by
  have hplanted := plan.planted
  obtain ⟨r, rfl, hr⟩ := hplanted.exists_follows hplanted.root_lt
  -- what the tree says of an index, its cell says
  have hcell : ∀ i < cells.length, ∃ cell, cells[i]? = some cell
      ∧ cell.Sound a (cells.map (·.digest)) ∧ (Cell.links cells).below i = cell.content.children
      ∧ (cells.map (·.digest)).getD i [] = cell.digest := by
    intro i hi
    have hget := List.getElem?_eq_getElem hi
    refine ⟨_, hget, plan.sound _ (List.getElem_mem hi), Cell.below_links hget, ?_⟩
    rw [List.getD_eq_getElem?_getD, List.getElem?_map, hget]
    rfl
  refine ⟨r, rfl, rfl, ?_, ?_, plan.leaves_nodup, fun i => ?_, fun i hi => ?_, fun i hi => ?_⟩
  · rwa [links_assemble]
  · rwa [links_assemble]
  · rw [links_assemble, Cell.length_links]
    show i ∈ leaves.toArray ↔ _
    rw [List.mem_toArray, plan.mem_leaves]
    constructor
    · rintro ⟨cell, hget, hleaf⟩
      refine ⟨(List.getElem?_eq_some_iff.mp hget).1, ?_⟩
      rw [Cell.below_links hget]
      exact (plan.sound _ (List.mem_of_getElem? hget)).isLeaf_iff.mp hleaf
    · rintro ⟨hi, hbelow⟩
      obtain ⟨cell, hget, hsound, hchildren, -⟩ := hcell i hi
      exact ⟨cell, hget, hsound.isLeaf_iff.mpr (hchildren.symm.trans hbelow)⟩
  · rw [links_assemble] at hi ⊢
    obtain ⟨c, hc⟩ := List.exists_mem_of_ne_nil _ hi
    have hlt : i < cells.length := by
      rw [← Cell.length_links]
      exact Links.Child.parent_lt hc
    obtain ⟨cell, -, hsound, hchildren, hdigest⟩ := hcell i hlt
    simp only [funext (digestAt_assemble a cells leaves r.index)]
    rw [hdigest, hchildren]
    rw [hchildren] at hi
    exact (hsound.of_branch (Bool.eq_false_iff.mpr (mt hsound.isLeaf_iff.mp hi))).2
  · rw [links_assemble, Cell.length_links] at hi
    obtain ⟨cell, -, hsound, -, hdigest⟩ := hcell i hi
    rw [digestAt_assemble, hdigest]
    exact hsound.length_digest

/-- A tree that has a root unfolds from it. -/
theorem Made.unfolds {t : Tree} (h : t.Made) {root : Nat} (hroot : t.root = some root) :
    ∃ r : Rose, r.index = root ∧ t.Unfolds r := by
  cases h with
  | empty a => cases hroot
  | assembled plan =>
    obtain rfl := Option.some.inj hroot
    exact exists_unfolds plan

/-- A tree without a root has no leaves. -/
theorem Made.leaves_of_no_root {t : Tree} (h : t.Made) (hroot : t.root = none) :
    t.leaves = #[] := by
  cases h with
  | empty a => rfl
  | assembled plan => cases hroot

namespace Unfolds

variable {t : Tree} {r : Rose} (u : t.Unfolds r)
include u

/-- The postorder of the arena is that of its unfolding. -/
theorem postorder_eq : t.postorder = r.postorder := by
  have hsize : t.size = t.links.length := t.length_links.symm
  exact Tree.postorder_eq u.planted hsize t.childrenAt_eq u.root_eq u.follows

/-- A position gives an index of the arena. -/
theorem leaf_lt {p i : Nat} (h : t.leaves[p]? = some i) : i < t.links.length :=
  ((u.mem_leaves i).mp (Array.mem_of_getElem? h)).1

/-- The index at a position has no children. -/
theorem below_leaf {p i : Nat} (h : t.leaves[p]? = some i) : t.links.below i = [] :=
  ((u.mem_leaves i).mp (Array.mem_of_getElem? h)).2

/-- The root carries its digest. -/
theorem rootDigest_eq : t.rootDigest = .ok (t.digestAt r.index) := by
  have hlt := u.planted.root_lt
  rw [length_links] at hlt
  rw [rootDigest, rootNode, u.root_eq, Option.bind_some, digestAt,
    Array.getElem?_eq_getElem hlt]
  rfl

end Unfolds

end Tree

end HashTree
