import HashTree.Proofs.Format.Restore
import HashTree.Proofs.Wire.Output

/-!
# Documents of trees

The document of a tree is drawn up when all indices fit 32 bits. It leaves out the parents and which
nodes are leaves; but both follow from the child lists, so a tree that is empty or assembled from a
plan is restored from its document, **every field of it**.
-/

namespace HashTree

open Outcome

/-! ## §1 Drawing up documents -/

/-- The document of a node whose indices fit. -/
def Node.document (n : Node) : NodeDocument :=
  ⟨n.digest, n.payload?, n.children.map UInt32.ofNat⟩

theorem Node.toDocument_eq_ok_iff {n : Node} {d : NodeDocument} :
    n.toDocument = .ok d ↔ d = n.document ∧ ∀ c ∈ n.children, c < UInt32.size := by
  unfold toDocument
  simp only [bind_eq_ok_iff, pure_eq_ok_iff,
    mapM_eq_ok_iff_map fun _ _ => Label.checkIndex_eq_ok_iff]
  constructor
  · rintro ⟨_, ⟨rfl, hlt⟩, rfl⟩
    exact ⟨rfl, hlt⟩
  · rintro ⟨rfl, hlt⟩
    exact ⟨_, ⟨rfl, hlt⟩, rfl⟩

/-- Indices that fit are the same before and after they are written. -/
theorem map_toNat_ofNat {indices : List Nat} (h : ∀ i ∈ indices, i < UInt32.size) :
    (indices.map UInt32.ofNat).map UInt32.toNat = indices := by
  rw [List.map_map]
  exact (List.map_congr_left fun i hi => UInt32.toNat_ofNat_of_lt (h i hi)).trans indices.map_id

namespace Tree

/-- All indices of a tree fit 32 bits. -/
structure Indexed (t : Tree) : Prop where
  child_lt : ∀ n ∈ t.nodes, ∀ c ∈ n.children, c < UInt32.size
  root_lt : ∀ root ∈ t.root, root < UInt32.size
  leaf_lt : ∀ leaf ∈ t.leaves, leaf < UInt32.size

/-- The document of a tree whose indices fit. -/
def document (t : Tree) : TreeDocument :=
  ⟨formatVersion, t.algorithm.name, t.root.map UInt32.ofNat, t.leaves.toList.map UInt32.ofNat,
    t.nodes.toList.map Node.document⟩

variable {t : Tree}

private theorem mapM_root_eq_ok_iff {root : Option Nat} {i : Option UInt32} {l : Label} :
    root.mapM (Label.checkIndex l) = .ok i
      ↔ i = root.map UInt32.ofNat ∧ ∀ r ∈ root, r < UInt32.size := by
  cases root with
  | none =>
    change (pure none : Except FormatError (Option UInt32)) = _ ↔ _
    rw [pure_eq_ok_iff]
    simp [eq_comm]
  | some r =>
    change (Label.checkIndex l r).map some = _ ↔ _
    rw [map_eq_ok_iff]
    simp only [Label.checkIndex_eq_ok_iff, Option.map_some, Option.mem_some_iff, forall_eq']
    constructor
    · rintro ⟨_, ⟨rfl, hr⟩, rfl⟩
      exact ⟨rfl, hr⟩
    · rintro ⟨rfl, hr⟩
      exact ⟨_, ⟨rfl, hr⟩, rfl⟩

/-- A document is drawn up **exactly when all indices fit**. -/
theorem toDocument_eq_ok_iff {d : TreeDocument} :
    t.toDocument = .ok d ↔ d = t.document ∧ t.Indexed := by
  unfold toDocument
  simp only [bind_eq_ok_iff, pure_eq_ok_iff, mapM_root_eq_ok_iff,
    mapM_eq_ok_iff_map fun _ _ => Label.checkIndex_eq_ok_iff,
    mapM_eq_ok_iff_map fun _ _ => Node.toDocument_eq_ok_iff, Array.mem_toList_iff]
  constructor
  · rintro ⟨_, ⟨rfl, hchild⟩, _, ⟨rfl, hroot⟩, _, ⟨rfl, hleaf⟩, rfl⟩
    exact ⟨rfl, ⟨hchild, hroot, hleaf⟩⟩
  · rintro ⟨rfl, ⟨hchild, hroot, hleaf⟩⟩
    exact ⟨_, ⟨rfl, hchild⟩, _, ⟨rfl, hroot⟩, _, ⟨rfl, hleaf⟩, rfl⟩

/-! ## §2 Restoring them -/

/-- The digest and the content of a node are read off its document: a leaf is told by having no
children. -/
private theorem toCell_document {n : Node} (hbranch : n.isLeaf = false → n.children ≠ [])
    (hlt : ∀ c ∈ n.children, c < UInt32.size) : n.document.toCell = ⟨n.digest, n.content⟩ := by
  obtain ⟨a, digest, parent, content⟩ := n
  cases content with
  | leaf payload => rfl
  | internal children =>
    have hne : children ≠ [] := hbranch rfl
    have hlt : ∀ c ∈ children, c < UInt32.size := hlt
    have hleaf : (Node.document ⟨a, digest, parent, .internal children⟩).isLeaf = false := by
      simpa [Node.document, NodeDocument.isLeaf, Node.children, Content.children] using hne
    rw [NodeDocument.toCell, hleaf]
    change (⟨digest, .internal ((children.map UInt32.ofNat).map UInt32.toNat)⟩ : Cell) = _
    rw [map_toNat_ofNat hlt]

private theorem payload_document {n : Node} (h : n.document.isLeaf = false) :
    n.document.payload = none := by
  obtain ⟨a, digest, parent, content⟩ := n
  cases content with
  | leaf payload => cases h
  | internal children => rfl

/-- **A tree is restored from its document**, if its indices fit. -/
theorem Made.restore_document (h : t.Made) (hindexed : t.Indexed) :
    t.document.restore t.algorithm = .ok t := by
  cases h with
  | empty a => exact (TreeDocument.restore_eq_ok_iff_of_no_root rfl).mpr ⟨rfl, rfl, rfl⟩
  | @assembled a cells leaves root plan =>
    have hroot : (UInt32.ofNat root).toNat = root :=
      UInt32.toNat_ofNat_of_lt (hindexed.root_lt root rfl)
    have hleaves : (assemble a cells leaves root).document.leaves.map UInt32.toNat = leaves :=
      map_toNat_ofNat fun i hi => hindexed.leaf_lt i (List.mem_toArray.mpr hi)
    -- the parents do not enter the document, and the rest of a node is its cell
    have hnodes : (assemble a cells leaves root).nodes.toList.map
        (fun n => (⟨n.digest, n.content⟩ : Cell)) = cells :=
      (map_assemble _ id fun _ _ => rfl).trans cells.map_id
    have hcells : (assemble a cells leaves root).document.nodes.map (·.toCell) = cells := by
      refine Eq.trans ?_ hnodes
      rw [document, List.map_map]
      apply List.map_congr_left
      intro n hn
      have hn := Array.mem_toList_iff.mp hn
      refine toCell_document (fun hleaf hnil => ?_) (hindexed.child_lt n hn)
      have htwo := plan.formed.branching n hn hleaf
      rw [hnil] at htwo
      exact absurd htwo (by decide)
    refine (TreeDocument.restore_eq_ok_iff_of_root rfl).mpr ⟨⟨rfl, ?_, ?_⟩, ?_⟩
    · rwa [hcells, hleaves, hroot]
    · intro d hd hleaf
      obtain ⟨n, -, rfl⟩ := List.mem_map.mp hd
      exact payload_document hleaf
    · rw [hcells, hleaves, hroot]
      rfl

end Tree

/-! ## §3 Documents of restored trees -/

/-- An index of a document is the same after it was restored. -/
theorem map_ofNat_toNat (indices : List UInt32) :
    (indices.map UInt32.toNat).map UInt32.ofNat = indices := by
  rw [List.map_map]
  exact (List.map_congr_left fun i _ => UInt32.ofNat_toNat).trans indices.map_id

namespace TreeDocument

variable {a : Algorithm} {d : TreeDocument} {t : Tree}

/-- The documents of the nodes of a tree are **those it was restored from**. -/
private theorem Describes.map_document {root : UInt32} (h : d.Describes a root) :
    (Tree.assemble a (d.nodes.map (·.toCell)) (d.leaves.map UInt32.toNat)
      root.toNat).nodes.toList.map Node.document = d.nodes := by
  rw [Tree.map_assemble Node.document (fun cell => ⟨cell.digest, cell.content.payload?,
    cell.content.children.map UInt32.ofNat⟩) fun _ _ => rfl, List.map_map]
  refine Eq.trans (List.map_congr_left fun n hn => ?_) d.nodes.map_id
  have hchildren : n.toCell.content.children.map UInt32.ofNat = n.children := by
    rw [NodeDocument.children_toCell]
    exact map_ofNat_toNat n.children
  have hpayload := NodeDocument.payload?_toCell (h.payload_eq n hn)
  simp only [Function.comp_apply, hchildren, hpayload]
  rfl

/-- All indices of a restored tree were read from 32 bits. -/
theorem indexed_of_restore (h : d.restore a = .ok t) : t.Indexed := by
  have hlist : ∀ (indices : List UInt32), ∀ i ∈ indices.map UInt32.toNat, i < UInt32.size := by
    intro indices i hi
    obtain ⟨n, -, rfl⟩ := List.mem_map.mp hi
    exact n.toNat_lt_size
  cases hroot : d.root with
  | none =>
    obtain ⟨-, -, rfl⟩ := (restore_eq_ok_iff_of_no_root hroot).mp h
    constructor <;> simp [Tree.empty]
  | some root =>
    obtain ⟨-, rfl⟩ := (restore_eq_ok_iff_of_root hroot).mp h
    constructor
    · intro n hn c hc
      obtain ⟨cell, hcell, -, -, hcontent⟩ := Tree.exists_cell hn
      obtain ⟨m, -, rfl⟩ := List.mem_map.mp hcell
      rw [Node.children, hcontent, NodeDocument.children_toCell] at hc
      exact hlist m.children c hc
    · intro r hr
      obtain rfl := Option.some.inj hr
      exact root.toNat_lt_size
    · intro leaf hleaf
      exact hlist d.leaves leaf (List.mem_toArray.mp hleaf)

/-- **A restored tree has its document again**, under the name of the algorithm that made sense of
it. -/
theorem toDocument_of_restore (hversion : d.version = formatVersion) (h : d.restore a = .ok t) :
    t.algorithm = a ∧ t.toDocument = .ok { d with algorithm := a.name } := by
  have hindexed := indexed_of_restore h
  have hdocument : t.algorithm = a ∧ t.document = { d with algorithm := a.name } := by
    obtain ⟨version, name, root, leaves, nodes⟩ := d
    obtain rfl : version = formatVersion := hversion
    cases root with
    | none =>
      obtain ⟨hnodes, hleaves, rfl⟩ := (restore_eq_ok_iff_of_no_root rfl).mp h
      obtain rfl : nodes = [] := hnodes
      obtain rfl : leaves = [] := hleaves
      exact ⟨rfl, rfl⟩
    | some root =>
      obtain ⟨hdescribes, rfl⟩ := (restore_eq_ok_iff_of_root rfl).mp h
      refine ⟨rfl, ?_⟩
      rw [Tree.document, hdescribes.map_document]
      change (⟨_, _, some (UInt32.ofNat root.toNat), (leaves.map UInt32.toNat).map UInt32.ofNat, _⟩
        : TreeDocument) = _
      rw [UInt32.ofNat_toNat, map_ofNat_toNat]
      rfl
  exact ⟨hdocument.1, Tree.toDocument_eq_ok_iff.mpr ⟨hdocument.2.symm, hindexed⟩⟩

end TreeDocument

end HashTree
