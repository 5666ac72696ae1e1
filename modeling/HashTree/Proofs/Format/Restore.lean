import HashTree.Format.Restore
import HashTree.Proofs.Outcome
import HashTree.Proofs.Tree.Parented
import HashTree.Proofs.Tree.Planned

/-!
# Documents that describe trees

Restoring a document judges its rules one after the other, each by a loop of its own. Together the
rules say that the cells, the leaves and the root of the document are a plan, and that no branch
keeps a payload: a document is restored exactly when they are.
-/

namespace HashTree

open Outcome

/-! ## §1 Rules for single nodes -/

theorem require_eq_ok_iff {condition : Bool} {place : Section} {rule : Inconsistency} :
    require condition place rule = .ok () ↔ condition = true := by
  cases condition with
  | true => simp [require]
  | false => simp [require, broken]

theorem require_eq_error_iff {condition : Bool} {place : Section} {rule : Inconsistency}
    {fault : FormatError} : require condition place rule = .error fault
      ↔ condition = false ∧ fault = .inconsistent place rule := by
  cases condition with
  | true => simp [require]
  | false => simp [require, broken, eq_comm]

theorem requireSize_eq_ok_iff {a : Algorithm} {place : Section} {d : Digest} :
    requireSize a place d = .ok () ↔ d.length = a.digestSize := by
  rw [requireSize, require_eq_ok_iff, beq_iff_eq]

theorem requirePayload_eq_ok_iff {a : Algorithm} {place : Section} {payload : Option Bytes}
    {d : Digest} :
    requirePayload a place payload d = .ok () ↔ ∀ b ∈ payload, a.digest b = d := by
  rw [requirePayload, require_eq_ok_iff]
  cases payload with
  | none => simp
  | some b => simp

namespace NodeDocument

/-- The rules that a node keeps to by itself. -/
def Proper (a : Algorithm) (n : NodeDocument) : Prop :=
  n.digest.length = a.digestSize
    ∧ if n.isLeaf then ∀ b ∈ n.payload, a.digest b = n.digest
      else n.payload = none ∧ 2 ≤ n.children.length

theorem isLeaf_iff {n : NodeDocument} : n.isLeaf = true ↔ n.children = [] :=
  List.isEmpty_iff

@[simp]
theorem isLeaf_toCell (n : NodeDocument) : n.toCell.content.isLeaf = n.isLeaf := by
  rw [toCell]
  cases n.isLeaf <;> rfl

/-- The cell of a node has the node's children. -/
@[simp]
theorem children_toCell (n : NodeDocument) : n.toCell.content.children = n.childIndices := by
  rw [toCell]
  cases hleaf : n.isLeaf with
  | true =>
    rw [isLeaf_iff] at hleaf
    simp [childIndices, hleaf, Content.children]
  | false => rfl

/-- The cell of a node has the node's payload, unless a branch keeps one. -/
theorem payload?_toCell {n : NodeDocument} (h : n.isLeaf = false → n.payload = none) :
    n.toCell.content.payload? = n.payload := by
  rw [toCell]
  cases hleaf : n.isLeaf with
  | true => rfl
  | false => exact (h hleaf).symm

end NodeDocument

namespace TreeDocument

/-! ## §2 Parents -/

/-- Indices that can be entered: none twice, and each without a parent so far. -/
private def Fresh (table : Array (Option Nat)) (indices : List Nat) : Prop :=
  indices.Nodup ∧ ∀ i ∈ indices, table[i]? = some none

/-- The entries of a child list. -/
private def entries (parent : Nat) (children : List Nat) : List (Nat × Option Nat) :=
  children.map fun child => (child, some parent)

private theorem entries_keys (parent : Nat) (children : List Nat) :
    (entries parent children).map Prod.fst = children := by
  simp [entries, Function.comp_def]

/-- After some indices were entered, those remain fresh that are not among them. -/
private theorem fresh_append (table : Array (Option Nat)) (parent : Nat)
    (children more : List Nat) : Fresh table (children ++ more)
      ↔ Fresh table children ∧ Fresh (Table.fill table (entries parent children)) more := by
  -- an entered index has a parent
  have hentered : Fresh table children → ∀ i ∈ children,
      (Table.fill table (entries parent children))[i]? = some (some parent) := by
    intro hfresh i hi
    have hkeys : ((entries parent children).map Prod.fst).Nodup := by
      rw [entries_keys]
      exact hfresh.1
    exact Table.getElem?_fill_of_mem hkeys (List.mem_map.mpr ⟨i, hi, rfl⟩)
      (Array.getElem?_eq_some_iff.mp (hfresh.2 i hi)).1
  have hkept : ∀ i, i ∉ children →
      (Table.fill table (entries parent children))[i]? = table[i]? := by
    intro i hi
    exact Table.getElem?_fill_of_notMem (by rwa [entries_keys]) table
  constructor
  · rintro ⟨hnodup, hnone⟩
    obtain ⟨hchildren, hmore, hdisjoint⟩ := List.nodup_append'.mp hnodup
    refine ⟨⟨hchildren, fun i hi => hnone i (List.mem_append_left _ hi)⟩, hmore, fun i hi => ?_⟩
    rw [hkept i fun hc => hdisjoint hc hi]
    exact hnone i (List.mem_append_right _ hi)
  · rintro ⟨hchildren, hmore, hnone⟩
    have hnot : ∀ i ∈ more, i ∉ children := by
      intro i hi hc
      have hsome := (hentered hchildren i hc).symm.trans (hnone i hi)
      simp at hsome
    refine ⟨List.nodup_append'.mpr ⟨hchildren.1, hmore, fun i hc hi => hnot i hi hc⟩,
      fun i hi => ?_⟩
    rcases List.mem_append.mp hi with hc | hm
    · exact hchildren.2 i hc
    · rw [← hkept i (hnot i hm)]
      exact hnone i hm

private theorem claim_eq_ok_iff {parent child : Nat} {table next : Array (Option Nat)} :
    claim parent table child = .ok next
      ↔ Fresh table [child] ∧ next = Table.fill table (entries parent [child]) := by
  have hfresh : Fresh table [child] ↔ table[child]? = some none := by simp [Fresh]
  rw [hfresh, claim]
  split
  · next h => simp [broken, h]
  · next h => simp [broken, h]
  · next h => simp [h, entries, eq_comm]

private theorem foldlM_claim_eq_ok_iff {parent : Nat} {children : List Nat}
    {table next : Array (Option Nat)} :
    children.foldlM (claim parent) table = .ok next
      ↔ Fresh table children ∧ next = Table.fill table (entries parent children) := by
  induction children generalizing table with
  | nil =>
    rw [List.foldlM_nil, pure_eq_ok_iff]
    simp [Fresh, entries, eq_comm]
  | cons child children ih =>
    have hsplit : entries parent (child :: children)
        = entries parent [child] ++ entries parent children := rfl
    rw [List.foldlM_cons, bind_eq_ok_iff, hsplit, Table.fill_append, ← List.singleton_append,
      fresh_append _ parent]
    constructor
    · rintro ⟨middle, hclaim, hrest⟩
      obtain ⟨hchild, rfl⟩ := claim_eq_ok_iff.mp hclaim
      obtain ⟨hchildren, rfl⟩ := ih.mp hrest
      exact ⟨⟨hchild, hchildren⟩, rfl⟩
    · rintro ⟨⟨hchild, hchildren⟩, rfl⟩
      exact ⟨_, claim_eq_ok_iff.mpr ⟨hchild, rfl⟩, ih.mpr ⟨hchildren, rfl⟩⟩

/-- A node is judged well when it is proper and its children are fresh. -/
private theorem claimChildren_eq_ok_iff {a : Algorithm} {n : NodeDocument} {index : Nat}
    {table next : Array (Option Nat)} :
    claimChildren a table (n, index) = .ok next
      ↔ n.Proper a ∧ Fresh table n.childIndices
        ∧ next = Table.fill table (entries index n.childIndices) := by
  rw [claimChildren, check_bind_eq_ok_iff, requireSize_eq_ok_iff, NodeDocument.Proper]
  cases hleaf : n.isLeaf with
  | true =>
    have hchildren : n.childIndices = [] := by
      rw [NodeDocument.childIndices, NodeDocument.isLeaf_iff.mp hleaf, List.map_nil]
    simp only [hchildren, if_true, check_bind_eq_ok_iff, requirePayload_eq_ok_iff, pure_eq_ok_iff]
    simp [Fresh, entries, eq_comm, and_assoc]
  | false =>
    simp only [check_bind_eq_ok_iff, require_eq_ok_iff, foldlM_claim_eq_ok_iff,
      Bool.false_eq_true, if_false, Option.isNone_iff_eq_none, decide_eq_true_eq]
    simp [and_assoc]

theorem links_toCell (nodes : List NodeDocument) :
    Cell.links (nodes.map (·.toCell)) = nodes.map (·.childIndices) := by
  rw [Cell.links, List.map_map]
  exact List.map_congr_left fun n _ => n.children_toCell

/-- The entries of all nodes from an index on. -/
private def allEntries (nodes : List NodeDocument) (index : Nat) : List (Nat × Option Nat) :=
  (nodes.zipIdx index).flatMap fun entry => entries entry.2 entry.1.childIndices

private theorem foldlM_claimChildren_eq_ok_iff {a : Algorithm} {nodes : List NodeDocument}
    {index : Nat} {table next : Array (Option Nat)} :
    (nodes.zipIdx index).foldlM (claimChildren a) table = .ok next
      ↔ (∀ n ∈ nodes, n.Proper a) ∧ Fresh table (nodes.map (·.childIndices)).flatten
        ∧ next = Table.fill table (allEntries nodes index) := by
  induction nodes generalizing index table with
  | nil =>
    rw [List.zipIdx_nil, List.foldlM_nil, pure_eq_ok_iff]
    simp [Fresh, allEntries, eq_comm]
  | cons n nodes ih =>
    have hsplit : allEntries (n :: nodes) index
        = entries index n.childIndices ++ allEntries nodes (index + 1) := rfl
    rw [List.zipIdx_cons, List.foldlM_cons, bind_eq_ok_iff, hsplit, Table.fill_append,
      List.map_cons, List.flatten_cons, fresh_append _ index, List.forall_mem_cons]
    constructor
    · rintro ⟨middle, hnode, hrest⟩
      obtain ⟨hproper, hfresh, rfl⟩ := claimChildren_eq_ok_iff.mp hnode
      obtain ⟨hpropers, hfreshs, rfl⟩ := ih.mp hrest
      exact ⟨⟨hproper, hpropers⟩, ⟨hfresh, hfreshs⟩, rfl⟩
    · rintro ⟨⟨hproper, hpropers⟩, ⟨hfresh, hfreshs⟩, rfl⟩
      exact ⟨_, claimChildren_eq_ok_iff.mpr ⟨hproper, hfresh, rfl⟩,
        ih.mpr ⟨hpropers, hfreshs, rfl⟩⟩

/-- All nodes are judged well when they are proper and list no index twice and none out of range;
the table then holds the parents that the tree will have. -/
private theorem claimAll_eq_ok_iff {a : Algorithm} {nodes : List NodeDocument}
    {table : Array (Option Nat)} : claimAll a nodes = .ok table ↔ (∀ n ∈ nodes, n.Proper a)
      ∧ (Cell.links (nodes.map (·.toCell))).flatten.Nodup
      ∧ (∀ c ∈ (Cell.links (nodes.map (·.toCell))).flatten, c < nodes.length)
      ∧ table = Tree.parents nodes.length (Cell.links (nodes.map (·.toCell))) := by
  have hentries : allEntries nodes 0 = Links.claims (Cell.links (nodes.map (·.toCell))) := by
    rw [links_toCell, Links.claims, allEntries, List.zipIdx_map, List.flatMap_map]
    rfl
  have hrange : ∀ c, (Array.replicate nodes.length (none : Option Nat))[c]? = some none
      ↔ c < nodes.length := by
    intro c
    rw [Array.getElem?_replicate]
    split <;> simp [*]
  rw [claimAll, foldlM_claimChildren_eq_ok_iff, hentries, ← Links.parents_eq_fill, ← links_toCell,
    Fresh]
  simp only [hrange, and_assoc]

/-- The root and the listed children are all indices when exactly the root is not listed. -/
private theorem perm_range_iff {listed : List Nat} {root size : Nat} (hnodup : listed.Nodup)
    (hlt : ∀ c ∈ listed, c < size) (hroot : root < size) :
    (root :: listed).Perm (List.range size) ↔ ∀ i < size, (i = root ↔ i ∉ listed) := by
  constructor
  · intro hperm i hi
    have hcons : (root :: listed).Nodup := hperm.nodup_iff.mpr List.nodup_range
    have hmem := List.mem_cons.mp (hperm.mem_iff.mpr (List.mem_range.mpr hi))
    constructor
    · rintro rfl
      exact (List.nodup_cons.mp hcons).1
    · exact hmem.resolve_right
  · intro h
    have hcons : (root :: listed).Nodup := List.nodup_cons.mpr ⟨(h root hroot).mp rfl, hnodup⟩
    refine (List.perm_ext_iff_of_nodup hcons List.nodup_range).mpr fun i => ?_
    rw [List.mem_cons, List.mem_range]
    constructor
    · rintro (rfl | hmem)
      · exact hroot
      · exact hlt i hmem
    · intro hi
      by_cases hmem : i ∈ listed
      · exact Or.inr hmem
      · exact Or.inl ((h i hi).mpr hmem)

/-- Exactly the root has no parent when the root and the listed children are **all indices**. -/
private theorem requireParents_eq_ok_iff {links : Links} {root size : Nat}
    (hnodup : links.flatten.Nodup) (hlt : ∀ c ∈ links.flatten, c < size) (hroot : root < size) :
    requireParents root (Tree.parents size links) = .ok ()
      ↔ (root :: links.flatten).Perm (List.range size) := by
  -- the table has an entry for every index, and no parent in it exactly where no list names it
  have hparent : ∀ i < size, ∃ parent, (Tree.parents size links)[i]? = some parent
      ∧ (parent.isNone = true ↔ i ∉ links.flatten) := by
    intro i hi
    by_cases hmem : i ∈ links.flatten
    · obtain ⟨p, hp⟩ := Links.mem_flatten_iff.mp hmem
      exact ⟨some p, Links.parents_child hnodup hp hi, by simp [hmem]⟩
    · exact ⟨none, Links.parents_of_notMem hmem hi, by simp [hmem]⟩
  rw [perm_range_iff hnodup hlt hroot, requireParents, require_eq_ok_iff, List.all_eq_true]
  constructor
  · intro h i hi
    obtain ⟨parent, hget, hnone⟩ := hparent i hi
    have hentry := h (parent, i) (List.mem_zipIdx_iff_getElem?.mpr (by simpa using hget))
    rw [beq_iff_eq, Bool.eq_iff_iff, beq_iff_eq] at hentry
    exact hentry.trans hnone
  · rintro h ⟨parent, i⟩ hentry
    rw [List.mem_zipIdx_iff_getElem?, Array.getElem?_toList] at hentry
    have hi : i < size := by
      have hi := (Array.getElem?_eq_some_iff.mp hentry).1
      rwa [Links.size_parents] at hi
    obtain ⟨parent', hget, hnone⟩ := hparent i hi
    obtain rfl := Option.some.inj (hentry.symm.trans hget)
    rw [beq_iff_eq, Bool.eq_iff_iff, beq_iff_eq]
    exact (h i hi).trans hnone.symm

/-- The nodes are judged well one by one and as parents exactly when each is proper and **every index
but the root has one parent**. -/
theorem exists_claimed_iff {a : Algorithm} {nodes : List NodeDocument} {root : Nat}
    (hroot : root < nodes.length) :
    (∃ table, claimAll a nodes = .ok table ∧ requireParents root table = .ok ())
      ↔ (∀ n ∈ nodes, n.Proper a) ∧ (Cell.links (nodes.map (·.toCell))).Parented root := by
  have hlength : (Cell.links (nodes.map (·.toCell))).length = nodes.length := by simp
  constructor
  · rintro ⟨table, hclaims, hparents⟩
    obtain ⟨hproper, hnodup, hrange, rfl⟩ := claimAll_eq_ok_iff.mp hclaims
    have honce := (requireParents_eq_ok_iff hnodup hrange hroot).mp hparents
    rw [← hlength] at honce
    exact ⟨hproper, ⟨honce⟩⟩
  · rintro ⟨hproper, hparented⟩
    have hnodup := hparented.nodup_flatten
    have hrange : ∀ c ∈ (Cell.links (nodes.map (·.toCell))).flatten, c < nodes.length := by
      intro c hc
      obtain ⟨p, hp⟩ := Links.mem_flatten_iff.mp hc
      simpa using hparented.child_lt hp
    have honce := hparented.once
    rw [hlength] at honce
    exact ⟨_, claimAll_eq_ok_iff.mpr ⟨hproper, hnodup, hrange, rfl⟩,
      (requireParents_eq_ok_iff hnodup hrange hroot).mpr honce⟩

/-! ## §3 Reachable nodes -/

theorem getD_replicate (size i : Nat) : (Array.replicate size false).getD i false = false := by
  rw [Array.getD_eq_getD_getElem?, Array.getElem?_replicate]
  split <;> rfl

theorem getD_setIfInBounds {seen : Array Bool} {index i : Nat} (hi : index < seen.size) :
    (seen.setIfInBounds index true).getD i false = true
      ↔ i = index ∨ seen.getD i false = true := by
  rw [Array.getD_eq_getD_getElem?, Array.getD_eq_getD_getElem?, Array.getElem?_setIfInBounds]
  by_cases heq : index = i
  · subst heq
    simp [hi]
  · simp [heq, Ne.symm heq]

theorem getD_setIfInBounds_of_ne {seen : Array Bool} {index i : Nat} (hne : i ≠ index) :
    (seen.setIfInBounds index true).getD i false = seen.getD i false := by
  simp [Array.getD_eq_getD_getElem?, Ne.symm hne]

/-- Where a walk names nothing twice and nothing that was seen before, a survey **counts what it
names**. -/
theorem survey_of_names {w : Walk} {order : List Nat} (hnames : w.Names order) {seen : Array Bool}
    (hnodup : order.Nodup) (hnew : ∀ i ∈ order, seen.getD i false = false) {fuel : Nat}
    (hfuel : order.length ≤ fuel) (count : Nat) :
    survey fuel w seen count = .ok (count + order.length) := by
  induction hnames generalizing seen fuel count with
  | finished hnil => cases fuel <;> simp [survey, Walk.next?_of_queue_nil hnil]
  | @next w next index order hnext _ ih =>
    obtain ⟨hindex, hnodup⟩ := List.nodup_cons.mp hnodup
    rw [List.length_cons] at hfuel
    obtain ⟨fuel, rfl⟩ : ∃ n, fuel = n + 1 := ⟨fuel - 1, by omega⟩
    -- what is still to be named differs from what is seen now
    have hstill : ∀ i ∈ order, (seen.setIfInBounds index true).getD i false = false := by
      intro i hi
      have hne : i ≠ index := by
        rintro rfl
        exact hindex hi
      rw [getD_setIfInBounds_of_ne hne]
      exact hnew i (List.mem_cons_of_mem _ hi)
    have hrest := ih hnodup hstill (Nat.le_of_succ_le_succ hfuel) (count + 1)
    rw [List.length_cons, ← Nat.add_assoc, Nat.add_right_comm]
    simpa [survey, hnext, hnew index List.mem_cons_self] using hrest

/-- Then all that is judged of reachability is **how many** indices were named. -/
theorem requireReachable_eq {nodes : List NodeDocument} {root : Nat} {order : List Nat}
    (hnames : (Walk.start (nodes.map (·.childIndices)).toArray (some root)).Names order)
    (hnodup : order.Nodup) (hle : order.length ≤ nodes.length) :
    requireReachable root nodes = require (order.length == nodes.length) .tree .unreachable := by
  have hsize : (nodes.map (·.childIndices)).toArray.size = nodes.length := by simp
  have hsurvey := survey_of_names hnames hnodup (fun i _ => getD_replicate nodes.length i) hle 0
  rw [Nat.zero_add] at hsurvey
  simp only [requireReachable, hsize, hsurvey]
  rfl

/-- Where every index but the root has one parent, a survey that counts all of them says that **every
index lies below the root**. -/
private theorem requireReachable_eq_ok_iff {nodes : List NodeDocument} {root : Nat}
    (h : (Cell.links (nodes.map (·.toCell))).Parented root) :
    requireReachable root nodes = .ok () ↔ (Cell.links (nodes.map (·.toCell))).Planted root := by
  have hlength : (Cell.links (nodes.map (·.toCell))).length = nodes.length := by simp
  obtain ⟨order, hnames, hnodup, hmem⟩ := h.exists_names
  have hle := h.length_order_le hnodup hmem
  have hlt := h.length_order_lt_iff hnodup hmem
  rw [hlength] at hle
  rw [links_toCell] at hnames
  rw [requireReachable_eq hnames hnodup hle, require_eq_ok_iff, beq_iff_eq, ← hlength]
  constructor
  · intro hall
    refine ⟨h.once, fun i hi => ?_⟩
    by_contra hnot
    exact absurd hall (Nat.ne_of_lt (hlt.mpr ⟨i, hi, hnot⟩))
  · intro hplanted
    by_contra hless
    obtain ⟨i, hi, hnot⟩ := hlt.mp (by omega)
    exact hnot (hplanted.descends i hi)

/-! ## §4 Leaves and digests -/

private theorem nameLeaf_eq_ok_iff {nodes : Array NodeDocument} {named next : Array Bool}
    {leaf : Nat} : nameLeaf nodes named leaf = .ok next
      ↔ (∃ n, nodes[leaf]? = some n ∧ n.isLeaf = true) ∧ named.getD leaf false = false
        ∧ next = named.setIfInBounds leaf true := by
  rw [nameLeaf]
  split
  · next hnone => simp [broken, hnone]
  · next n hsome =>
    rw [check_bind_eq_ok_iff, check_bind_eq_ok_iff, require_eq_ok_iff, require_eq_ok_iff,
      pure_eq_ok_iff, Bool.not_eq_true', hsome]
    constructor
    · rintro ⟨hnew, hleaf, rfl⟩
      exact ⟨⟨n, rfl, hleaf⟩, hnew, rfl⟩
    · rintro ⟨⟨n', hn', hleaf⟩, hnew, rfl⟩
      obtain rfl := Option.some.inj hn'
      exact ⟨hnew, hleaf, rfl⟩

private theorem exists_foldlM_nameLeaf_iff {nodes : Array NodeDocument} {leaves : List Nat}
    {named : Array Bool} (hsize : named.size = nodes.size) :
    (∃ next, leaves.foldlM (nameLeaf nodes) named = .ok next) ↔ leaves.Nodup
      ∧ ∀ i ∈ leaves, (∃ n, nodes[i]? = some n ∧ n.isLeaf = true)
        ∧ named.getD i false = false := by
  induction leaves generalizing named with
  | nil => simp [pure, Except.pure]
  | cons leaf leaves ih =>
    -- what is free after the first leaf was free before it, and is another leaf
    have hsize' : (named.setIfInBounds leaf true).size = nodes.size := by
      rw [Array.size_setIfInBounds, hsize]
    have hset : ∀ {i n}, nodes[leaf]? = some n →
        ((named.setIfInBounds leaf true).getD i false = false
          ↔ i ≠ leaf ∧ named.getD i false = false) := by
      intro i n hn
      rw [← Bool.not_eq_true, getD_setIfInBounds
        (by rw [hsize]; exact (Array.getElem?_eq_some_iff.mp hn).1), not_or, Bool.not_eq_true]
    rw [List.foldlM_cons, List.nodup_cons, List.forall_mem_cons]
    constructor
    · rintro ⟨next, h⟩
      obtain ⟨middle, hleaf, hrest⟩ := bind_eq_ok_iff.mp h
      obtain ⟨⟨n, hn, hisLeaf⟩, hnew, rfl⟩ := nameLeaf_eq_ok_iff.mp hleaf
      obtain ⟨hnodup, hall⟩ := (ih hsize').mp ⟨next, hrest⟩
      refine ⟨⟨fun hmem => ?_, hnodup⟩, ⟨⟨n, hn, hisLeaf⟩, hnew⟩, fun i hi => ?_⟩
      · exact ((hset hn).mp (hall leaf hmem).2).1 rfl
      · exact ⟨(hall i hi).1, ((hset hn).mp (hall i hi).2).2⟩
    · rintro ⟨⟨hnotMem, hnodup⟩, ⟨⟨n, hn, hisLeaf⟩, hnew⟩, hall⟩
      obtain ⟨next, hrest⟩ := (ih hsize').mpr ⟨hnodup, fun i hi => ⟨(hall i hi).1,
        (hset hn).mpr ⟨fun heq => hnotMem (heq ▸ hi), (hall i hi).2⟩⟩⟩
      refine ⟨next, bind_eq_ok_iff.mpr ⟨_, nameLeaf_eq_ok_iff.mpr ⟨⟨n, hn, hisLeaf⟩, hnew, rfl⟩,
        hrest⟩⟩

/-- The indices of the nodes without children. -/
def childless (nodes : List NodeDocument) : List Nat :=
  (nodes.zipIdx.filter (·.1.isLeaf)).map (·.2)

theorem mem_childless {nodes : List NodeDocument} {i : Nat} :
    i ∈ childless nodes ↔ ∃ n, nodes[i]? = some n ∧ n.isLeaf = true := by
  rw [childless, List.mem_map]
  constructor
  · rintro ⟨⟨n, j⟩, hmem, rfl⟩
    obtain ⟨hmem, hleaf⟩ := List.mem_filter.mp hmem
    exact ⟨n, List.mem_zipIdx_iff_getElem?.mp hmem, hleaf⟩
  · rintro ⟨n, hn, hleaf⟩
    exact ⟨(n, i), List.mem_filter.mpr ⟨List.mem_zipIdx_iff_getElem?.mpr hn, hleaf⟩, rfl⟩

theorem nodup_childless (nodes : List NodeDocument) : (childless nodes).Nodup := by
  have hsublist : (childless nodes).Sublist (nodes.zipIdx.map (·.2)) :=
    List.filter_sublist.map _
  rw [List.zipIdx_map_snd] at hsublist
  exact hsublist.nodup List.nodup_range'

private theorem length_childless (nodes : List NodeDocument) :
    (childless nodes).length = nodes.countP (·.isLeaf) := by
  conv_rhs => rw [← List.zipIdx_map_fst 0 nodes]
  rw [childless, List.length_map, List.countP_map, List.countP_eq_length_filter]
  rfl

/-- The list of leaves passes when it names **every** node without children once. -/
private theorem requireLeaves_eq_ok_iff {leaves : List Nat} {nodes : List NodeDocument} :
    requireLeaves leaves nodes = .ok () ↔ leaves.Nodup
      ∧ ∀ i, i ∈ leaves ↔ ∃ n, nodes[i]? = some n ∧ n.isLeaf = true := by
  have hnamed : (∃ next, leaves.foldlM (nameLeaf nodes.toArray)
      (Array.replicate nodes.length false) = .ok next)
        ↔ leaves.Nodup ∧ leaves ⊆ childless nodes := by
    rw [exists_foldlM_nameLeaf_iff (by simp), List.subset_def]
    refine and_congr_right fun _ => forall₂_congr fun i _ => ?_
    rw [mem_childless, List.getElem?_toArray]
    exact and_iff_left (getD_replicate _ i)
  have hpass : requireLeaves leaves nodes = .ok ()
      ↔ (leaves.Nodup ∧ leaves ⊆ childless nodes)
        ∧ (childless nodes).length = leaves.length := by
    rw [requireLeaves, bind_eq_ok_iff, ← hnamed, length_childless]
    simp only [require_eq_ok_iff, beq_iff_eq]
    exact ⟨fun ⟨next, hnext, hcount⟩ => ⟨⟨next, hnext⟩, hcount⟩,
      fun ⟨⟨next, hnext⟩, hcount⟩ => ⟨next, hnext, hcount⟩⟩
  rw [hpass]
  constructor
  · rintro ⟨⟨hnodup, hsubset⟩, hcount⟩
    -- no leaf of as many as there are can be left out
    have hperm := (hnodup.subperm hsubset).perm_of_length_le (by rw [hcount])
    exact ⟨hnodup, fun i => by rw [hperm.mem_iff, mem_childless]⟩
  · rintro ⟨hnodup, hmem⟩
    have hperm : leaves.Perm (childless nodes) :=
      (List.perm_ext_iff_of_nodup hnodup (nodup_childless nodes)).mpr fun i => by
        rw [hmem, mem_childless]
    exact ⟨⟨hnodup, hperm.subset⟩, hperm.length_eq.symm⟩

private theorem requireDigests_eq_ok_iff {a : Algorithm} {nodes : List NodeDocument} :
    requireDigests a nodes = .ok () ↔ ∀ n ∈ nodes, n.isLeaf = false →
      n.digest = a.digest (n.childIndices.flatMap fun i => (nodes.map (·.digest)).getD i []) := by
  rw [requireDigests, forM_eq_ok_iff]
  refine forall₂_congr fun n _ => ?_
  rw [requireDigest, require_eq_ok_iff, Bool.or_eq_true, beq_iff_eq, eq_comm (b := n.digest)]
  have hget : ∀ i, (nodes.map (·.digest)).toArray.getD i [] = (nodes.map (·.digest)).getD i [] := by
    intro i
    rw [Array.getD_eq_getD_getElem?, List.getD_eq_getElem?_getD, List.getElem?_toArray]
  simp only [hget]
  cases n.isLeaf <;> simp

/-! ## §5 Documents -/

/-- The cells, leaves and root of a document are a plan of its tree. -/
structure Describes (d : TreeDocument) (a : Algorithm) (root : UInt32) : Prop where
  root_eq : d.root = some root
  plan : Planned a (d.nodes.map (·.toCell)) (d.leaves.map UInt32.toNat) root.toNat
  /-- A **branch** keeps no payload; the cell of a node would hide it. -/
  payload_eq : ∀ n ∈ d.nodes, n.isLeaf = false → n.payload = none

/-- The cells of the nodes have their digests. -/
theorem digests_toCell (nodes : List NodeDocument) :
    (nodes.map (·.toCell)).map (·.digest) = nodes.map (·.digest) := by
  rw [List.map_map]
  rfl

/-- The leaves among the nodes are those among their cells. -/
theorem exists_leaf_toCell (nodes : List NodeDocument) (i : Nat) :
    (∃ n, nodes[i]? = some n ∧ n.isLeaf = true)
      ↔ ∃ cell, (nodes.map (·.toCell))[i]? = some cell ∧ cell.content.isLeaf = true := by
  rw [List.getElem?_map]
  cases nodes[i]? with
  | none => simp
  | some n => simp

theorem sound_toCell_iff {a : Algorithm} {digests : List Digest} {n : NodeDocument} :
    (n.Proper a ∧ (n.isLeaf = false →
      n.digest = a.digest (n.childIndices.flatMap fun i => digests.getD i [])))
      ↔ n.toCell.Sound a digests ∧ (n.isLeaf = false → n.payload = none) := by
  have hlength : n.childIndices.length = n.children.length := List.length_map _
  rw [NodeDocument.Proper, Cell.Sound, NodeDocument.toCell]
  cases hleaf : n.isLeaf with
  | true => simp
  | false =>
    simp only [Bool.false_eq_true, if_false, forall_const, hlength]
    constructor
    · rintro ⟨⟨-, hpayload, htwo⟩, hdigest⟩
      exact ⟨⟨htwo, hdigest⟩, hpayload⟩
    · rintro ⟨⟨htwo, hdigest⟩, hpayload⟩
      refine ⟨⟨?_, hpayload, htwo⟩, hdigest⟩
      rw [hdigest, Algorithm.length_digest]

/-- The checks of a document with a root, in their order. -/
private theorem restore_eq_ok_iff_checks {a : Algorithm} {d : TreeDocument} {t : Tree}
    {root : UInt32} (hroot : d.root = some root) :
    d.restore a = .ok t ↔ root.toNat < d.nodes.length
      ∧ (∃ table, claimAll a d.nodes = .ok table ∧ requireParents root.toNat table = .ok ())
      ∧ requireReachable root.toNat d.nodes = .ok ()
      ∧ requireLeaves (d.leaves.map UInt32.toNat) d.nodes = .ok ()
      ∧ requireDigests a d.nodes = .ok ()
      ∧ Tree.assemble a (d.nodes.map (·.toCell)) (d.leaves.map UInt32.toNat) root.toNat = t := by
  rw [restore, hroot]
  dsimp only
  rw [check_bind_eq_ok_iff, require_eq_ok_iff, decide_eq_true_eq, bind_eq_ok_iff]
  simp only [check_bind_eq_ok_iff, pure_eq_ok_iff, ← and_assoc, exists_and_right]

/-- A document with a root is **restored exactly when it describes a tree**. -/
theorem restore_eq_ok_iff_of_root {a : Algorithm} {d : TreeDocument} {t : Tree} {root : UInt32}
    (hroot : d.root = some root) : d.restore a = .ok t ↔ d.Describes a root
      ∧ t = Tree.assemble a (d.nodes.map (·.toCell)) (d.leaves.map UInt32.toNat) root.toNat := by
  have hmem := exists_leaf_toCell d.nodes
  rw [restore_eq_ok_iff_checks hroot]
  -- a check is what the plan says only where the checks before it have passed
  constructor
  · rintro ⟨hlt, hclaimed, hreachable, hleaves, hhashes, rfl⟩
    obtain ⟨hproper, hparented⟩ := (exists_claimed_iff hlt).mp hclaimed
    obtain ⟨hleavesNodup, hleavesMem⟩ := requireLeaves_eq_ok_iff.mp hleaves
    have hsound := fun n hn =>
      sound_toCell_iff.mp ⟨hproper n hn, requireDigests_eq_ok_iff.mp hhashes n hn⟩
    refine ⟨⟨hroot, ⟨(requireReachable_eq_ok_iff hparented).mp hreachable, hleavesNodup,
      fun i => (hleavesMem i).trans (hmem i), fun cell hcell => ?_⟩,
      fun n hn => (hsound n hn).2⟩, rfl⟩
    obtain ⟨n, hn, rfl⟩ := List.mem_map.mp hcell
    rw [digests_toCell]
    exact (hsound n hn).1
  · rintro ⟨⟨-, plan, hpayload⟩, rfl⟩
    have hparented := plan.planted.parented
    have hlt : root.toNat < d.nodes.length := by simpa using hparented.root_lt
    have hsound : ∀ n ∈ d.nodes, n.Proper a ∧ (n.isLeaf = false → n.digest
        = a.digest (n.childIndices.flatMap fun i => (d.nodes.map (·.digest)).getD i [])) := by
      intro n hn
      have hcell := plan.sound _ (List.mem_map.mpr ⟨n, hn, rfl⟩)
      rw [digests_toCell] at hcell
      exact sound_toCell_iff.mpr ⟨hcell, hpayload n hn⟩
    refine ⟨hlt, (exists_claimed_iff hlt).mpr ⟨fun n hn => (hsound n hn).1, hparented⟩,
      (requireReachable_eq_ok_iff hparented).mpr plan.planted,
      requireLeaves_eq_ok_iff.mpr ⟨plan.leaves_nodup, fun i => ?_⟩,
      requireDigests_eq_ok_iff.mpr fun n hn => (hsound n hn).2, rfl⟩
    exact (plan.mem_leaves i).trans (hmem i).symm

/-- A document without a root is restored when it is empty. -/
theorem restore_eq_ok_iff_of_no_root {a : Algorithm} {d : TreeDocument} {t : Tree}
    (hroot : d.root = none) :
    d.restore a = .ok t ↔ d.nodes = [] ∧ d.leaves = [] ∧ t = Tree.empty a := by
  rw [restore, hroot]
  simp only [check_bind_eq_ok_iff, require_eq_ok_iff, pure_eq_ok_iff, Bool.and_eq_true,
    List.isEmpty_iff, and_assoc]
  exact and_congr_right fun _ => and_congr_right fun _ => eq_comm

/-- What is restored is empty or assembled from a plan. -/
theorem made_of_restore {a : Algorithm} {d : TreeDocument} {t : Tree}
    (h : d.restore a = .ok t) : t.Made := by
  cases hroot : d.root with
  | none =>
    obtain ⟨-, -, rfl⟩ := (restore_eq_ok_iff_of_no_root hroot).mp h
    exact .empty a
  | some root =>
    obtain ⟨hdescribes, rfl⟩ := (restore_eq_ok_iff_of_root hroot).mp h
    exact .assembled hdescribes.plan

end TreeDocument

end HashTree
