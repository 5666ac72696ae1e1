import HashTree.Proofs.Format.Load
import HashTree.Proofs.Format.Restore
import HashTree.Proofs.Mapping.Canonical
import HashTree.Proofs.Tree.Copy
import HashTree.Proofs.Tree.Items

/-!
# Reachable trees

There are five ways to come by a tree: to have none of its nodes, to build it of items or of a
mapping, to load it from bytes, whoever wrote them, and to copy a part of another. However these
are combined, the tree is well formed.
-/

namespace HashTree

namespace Tree

/-- A tree that can be come by. -/
inductive Reachable : Tree → Prop where
  | empty (a : Algorithm) : Reachable (Tree.empty a)
  | ofItems (a : Algorithm) (retain : Bool) (items : List Bytes) :
    Reachable (Tree.ofItems a retain items)
  | ofMapping (a : Algorithm) (retain : Bool) (reading : Mapping.Reading) (mapping : Mapping) :
    Reachable (mapping.toTree a retain reading)
  /-- The bytes are **any bytes** that are accepted. -/
  | loaded {bytes : Bytes} {encoding : Encoding} {requested : Option Algorithm} {t : Tree}
    (h : Tree.load bytes encoding requested = .ok t) : Reachable t
  | copied {s : Subtree} (h : Reachable s.tree) : Reachable s.copy

/-- Every way to come by a tree leads to an empty tree or to one assembled from a plan. -/
theorem Reachable.made {t : Tree} (h : t.Reachable) : t.Made := by
  induction h with
  | empty a => exact .empty a
  | ofItems a retain items => exact ofItems_made a retain items
  | ofMapping a retain reading mapping => exact Mapping.toTree_made a retain reading mapping
  | loaded h =>
    obtain ⟨a, d, hd⟩ := exists_restore_of_load h
    exact TreeDocument.made_of_restore hd
  | copied _ ih => exact Subtree.copy_made ih

/-- **Every reachable tree is well formed.** -/
theorem Reachable.wellFormed {t : Tree} (h : t.Reachable) : t.WellFormed :=
  h.made.formed_or_empty

/-- The tree of three items has a branch above the first two. -/
theorem three_lt_size_ofItems :
    3 < (Tree.ofItems .sha1 true [[1], [2], [3]]).nodes.size := by
  simp [Tree.ofItems, Growth.grow, Growth.pairUp, Growth.join]

/-- The copy of that branch is well formed. -/
theorem Reachable.wellFormed_copied :
    (Subtree.mk (Tree.ofItems .sha1 true [[1], [2], [3]]) 3 three_lt_size_ofItems).copy.WellFormed :=
  Reachable.wellFormed (.copied (.ofItems .sha1 true [[1], [2], [3]]))

end Tree

end HashTree
