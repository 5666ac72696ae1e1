import HashTree.Proofs.Format.Binary
import HashTree.Proofs.Format.Document
import HashTree.Proofs.Format.Textual
import HashTree.Proofs.Tree.Reachable

/-!
# Dumping and loading trees

A tree is dumped unless a number does not fit the four bytes that it is written in. Whatever is
dumped of a reachable tree is loaded again as **the same tree, field by field**, with or without a
request for its algorithm.
-/

namespace HashTree

open Outcome

/-! ## §1 Heads and lists of indices -/

/-- The canonical name of an algorithm is one of its names. -/
theorem Algorithm.ofName?_name (a : Algorithm) : ofName? a.name = some a := by
  cases a <;> rfl

theorem Algorithm.length_name_lt (a : Algorithm) : (Bytes.ofText a.name).length < UInt32.size := by
  cases a <;> decide

namespace Binary

variable {fault : FormatError}

/-- A head is always written, as the names of the algorithms are short. -/
theorem writeHead_ne_error (kind : Kind) (a : Algorithm) :
    ¬ (writeHead kind a.name).toExcept = .error fault := by
  intro h
  rcases Output.toExcept_append_eq_error_iff.mp h with hfront | ⟨_, -, hname⟩
  · cases hfront
  · exact Nat.not_le.mpr a.length_name_lt (Output.toExcept_sized_eq_error_iff.mp hname).1

/-- Of a list of indices only the count can be too large. -/
theorem writeIndices_eq_error {l : Label} {indices : List UInt32}
    (h : (writeIndices l indices).toExcept = .error fault) :
    UInt32.size ≤ indices.length ∧ fault = l.invalidLength := by
  rcases Output.exists_of_toExcept_list_eq_error h with hcount | ⟨i, -, hi⟩
  · exact hcount
  · cases hi

end Binary

/-- There are no more different indices than there are below a bound. -/
theorem length_le_of_nodup {indices : List Nat} {bound : Nat} (hnodup : indices.Nodup)
    (hlt : ∀ i ∈ indices, i < bound) : indices.length ≤ bound := by
  have hsubset : indices ⊆ List.range bound := fun i hi => List.mem_range.mpr (hlt i hi)
  have hle := (hnodup.subperm hsubset).length_le
  rwa [List.length_range] at hle

namespace Tree

variable {t : Tree} {e : Encoding} {fault : FormatError} {bytes : Bytes}

/-! ## §2 Trees that are not dumped -/

/-- The numbers that an encoding writes in four bytes, each with the field that it goes to. A JSON
text counts nothing. -/
inductive Counted (t : Tree) : Encoding → Label → Nat → Prop where
  | child {e : Encoding} {n : Node} {c : Nat} (hn : n ∈ t.nodes) (hc : c ∈ n.children) :
    Counted t e ⟨.tree, "children"⟩ c
  | root {e : Encoding} {root : Nat} (h : t.root = some root) : Counted t e ⟨.tree, "root"⟩ root
  | leaf {e : Encoding} {leaf : Nat} (h : leaf ∈ t.leaves) : Counted t e ⟨.tree, "leaves"⟩ leaf
  | leafCount : Counted t .binary ⟨.tree, "leaves"⟩ t.leaves.size
  | nodeCount : Counted t .binary ⟨.tree, "nodes"⟩ t.nodes.size
  | childCount {n : Node} (hn : n ∈ t.nodes) :
    Counted t .binary ⟨.node, "children"⟩ n.children.length
  | payload {n : Node} {b : Bytes} (hn : n ∈ t.nodes) (hb : n.payload? = some b) :
    Counted t .binary ⟨.node, "payload"⟩ b.length

/-- No digest is preceded by its length. -/
theorem Counted.ne_digest {l : Label} {n : Nat} (h : t.Counted e l n) : l ≠ ⟨.node, "digest"⟩ := by
  cases h <;> decide

/-- A number is too large for its four bytes, and the fault names its field. -/
def Exceeds (t : Tree) (e : Encoding) (fault : FormatError) : Prop :=
  ∃ l n, t.Counted e l n ∧ UInt32.size ≤ n ∧ fault = l.invalidLength

private theorem Counted.exceeds {l : Label} {n : Nat} (h : t.Counted e l n)
    (hindex : l.checkIndex n = .error fault) : t.Exceeds e fault :=
  ⟨l, n, h, Label.checkIndex_eq_error_iff.mp hindex⟩

/-- A document is not drawn up only if an index is too large. -/
theorem exceeds_of_toDocument (h : t.toDocument = .error fault) : t.Exceeds e fault := by
  unfold toDocument at h
  rcases bind_eq_error_iff.mp h with hnodes | ⟨nodes, -, h⟩
  · obtain ⟨n, hn, hnode⟩ := exists_of_mapM_eq_error hnodes
    rcases bind_eq_error_iff.mp hnode with hchildren | ⟨_, -, hpure⟩
    · obtain ⟨c, hc, hindex⟩ := exists_of_mapM_eq_error hchildren
      exact Counted.exceeds (.child (Array.mem_toList_iff.mp hn) hc) hindex
    · cases hpure
  · rcases bind_eq_error_iff.mp h with hroot | ⟨root, -, h⟩
    · cases ht : t.root with
      | none =>
        rw [ht] at hroot
        cases hroot
      | some root =>
        -- the root is checked by the same function, under an option
        rw [ht] at hroot
        rcases bind_eq_error_iff.mp hroot with hindex | ⟨_, -, hpure⟩
        · exact Counted.exceeds (.root ht) hindex
        · cases hpure
    · rcases bind_eq_error_iff.mp h with hleaves | ⟨leaves, -, hpure⟩
      · obtain ⟨leaf, hleaf, hindex⟩ := exists_of_mapM_eq_error hleaves
        exact Counted.exceeds (.leaf (Array.mem_toList_iff.mp hleaf)) hindex
      · cases hpure

/-- A node with a digest **of the right width** is not written only if a count is too large. -/
private theorem exceeds_of_writeNode {n : Node} (hn : n ∈ t.nodes) {width : Nat}
    (hwidth : n.digest.length = width)
    (h : (Binary.writeNode width n.document).toExcept = .error fault) : t.Exceeds .binary fault := by
  rcases Output.toExcept_append_eq_error_iff.mp h with hfront | ⟨_, -, hchildren⟩
  · rcases Output.toExcept_append_eq_error_iff.mp hfront with hdigest | ⟨_, -, hpayload⟩
    · have hok := (Output.toExcept_digest_eq_ok_iff (l := ⟨.node, "digest"⟩)).mpr ⟨hwidth, rfl⟩
      cases hok.symm.trans hdigest
    · obtain ⟨b, hb, hsized⟩ := Output.exists_of_toExcept_option_eq_error hpayload
      obtain ⟨hlarge, hfault⟩ := Output.toExcept_sized_eq_error_iff.mp hsized
      exact ⟨_, _, .payload hn hb, hlarge, hfault⟩
  · obtain ⟨hlarge, hfault⟩ := Binary.writeIndices_eq_error hchildren
    rw [Node.document, List.length_map] at hlarge
    exact ⟨_, _, .childCount hn, hlarge, hfault⟩

private theorem exceeds_of_writeTree (hmade : t.Made)
    (h : (Binary.writeTree t.algorithm.digestSize t.document).toExcept = .error fault) :
    t.Exceeds .binary fault := by
  -- the head, the root, the leaves and the nodes are joined from the left
  rcases Output.toExcept_append_eq_error_iff.mp h with hfront | ⟨_, -, hnodes⟩
  · rcases Output.toExcept_append_eq_error_iff.mp hfront with hfront | ⟨_, -, hleaves⟩
    · rcases Output.toExcept_append_eq_error_iff.mp hfront with hhead | ⟨_, -, hroot⟩
      · exact absurd hhead (Binary.writeHead_ne_error .tree t.algorithm)
      · obtain ⟨_, -, hu32⟩ := Output.exists_of_toExcept_option_eq_error hroot
        cases hu32
    · obtain ⟨hlarge, hfault⟩ := Binary.writeIndices_eq_error hleaves
      rw [document, List.length_map, Array.length_toList] at hlarge
      exact ⟨_, _, .leafCount, hlarge, hfault⟩
  · rcases Output.exists_of_toExcept_list_eq_error hnodes with ⟨hlarge, hfault⟩ | ⟨d, hd, hnode⟩
    · rw [document, List.length_map, Array.length_toList] at hlarge
      exact ⟨_, _, .nodeCount, hlarge, hfault⟩
    · obtain ⟨n, hn, rfl⟩ := List.mem_map.mp hd
      have hn := Array.mem_toList_iff.mp hn
      obtain ⟨root, hformed⟩ := hmade.exists_formed hn
      exact exceeds_of_writeNode hn (hformed.digest_length n hn) hnode

/-- A tree is not dumped only if **a number is too large** for its four bytes. -/
theorem Made.exceeds_of_dump (hmade : t.Made) (h : t.dump e = .error fault) :
    t.Exceeds e fault := by
  rcases bind_eq_error_iff.mp h with hdocument | ⟨d, hdocument, h⟩
  · exact exceeds_of_toDocument hdocument
  · obtain ⟨rfl, -⟩ := toDocument_eq_ok_iff.mp hdocument
    cases e with
    | json => cases h
    | binary => exact exceeds_of_writeTree hmade h

/-! ## §3 Trees that are dumped -/

/-- What was dumped as a JSON text is read as the document of the tree. -/
theorem load_json (d : TreeDocument) (requested : Option Algorithm)
    (hversion : d.version = formatVersion) :
    load (Bytes.ofText (Textual.ofTree d).compact) .json requested
      = resolve .tree d.algorithm requested fun a => d.restore a := by
  have htext : readText .tree Textual.readTree (Bytes.ofText (Textual.ofTree d).compact) = .ok d := by
    rw [readText, Bytes.toText?_eq_some_iff.mpr rfl, Option.bind_some,
      Textual.readTree_parse?_compact]
  have hcurrent : requireVersion .tree d.version = .ok () := if_pos hversion
  unfold load
  rw [htext, ok_bind, hcurrent, ok_bind]

/-- Bytes are loaded when the document makes sense **under the algorithm that it names**. -/
theorem load_of_read {d : TreeDocument} {a : Algorithm} {requested : Option Algorithm}
    (hread : (Binary.readTree a.digestSize).run bytes = .ok d)
    (hname : Algorithm.ofName? d.algorithm = some a) (hrestore : d.restore a = .ok t)
    (hrequested : requested = none ∨ requested = some a) :
    load bytes .binary requested = .ok t := by
  -- the head is read alone for the algorithm, whose width the whole is then read with
  have hhead := Binary.readHead_run_of_writeTree (Binary.readTree_run_eq_ok_iff.mp hread).2
  unfold load
  dsimp only
  rw [hhead, ok_bind]
  apply resolve_named hname _ hrequested
  rw [hread, ok_bind]
  exact hrestore

/-- **What was dumped is loaded again**, with or without a request for the algorithm. -/
theorem Made.load_of_dump (hmade : t.Made) (h : t.dump e = .ok bytes)
    {requested : Option Algorithm} (hrequested : requested = none ∨ requested = some t.algorithm) :
    load bytes e requested = .ok t := by
  obtain ⟨d, hdocument, h⟩ := bind_eq_ok_iff.mp h
  obtain ⟨rfl, hindexed⟩ := toDocument_eq_ok_iff.mp hdocument
  have hname : Algorithm.ofName? t.document.algorithm = some t.algorithm :=
    t.algorithm.ofName?_name
  have hrestore := hmade.restore_document hindexed
  cases e with
  | json =>
    obtain rfl := pure_eq_ok_iff.mp h
    rw [load_json t.document requested rfl]
    exact resolve_named hname hrestore hrequested
  | binary =>
    have hread := Binary.readTree_run_eq_ok_iff.mpr ⟨rfl, h⟩
    exact load_of_read hread hname hrestore hrequested

private theorem lt_of_writeNode {n : Node} {width : Nat}
    (h : (Binary.writeNode width n.document).toExcept = .ok bytes) :
    n.children.length < UInt32.size ∧ ∀ b, n.payload? = some b → b.length < UInt32.size := by
  obtain ⟨_, _, hfront, hchildren, -⟩ := Output.toExcept_append_eq_ok_iff.mp h
  obtain ⟨_, _, -, hpayload, -⟩ := Output.toExcept_append_eq_ok_iff.mp hfront
  have hcount := (Output.of_toExcept_list_eq_ok hchildren).1
  rw [Node.document, List.length_map] at hcount
  refine ⟨hcount, fun b hb => ?_⟩
  have hb : n.document.payload = some b := hb
  rw [Binary.writePayload, hb] at hpayload
  obtain ⟨_, _, -, hsized, -⟩ := Output.toExcept_append_eq_ok_iff.mp hpayload
  obtain ⟨_, _, hindex, -, -⟩ := Output.toExcept_append_eq_ok_iff.mp hsized
  exact (Output.toExcept_index_eq_ok_iff.mp hindex).1

/-- Where a tree was dumped **every number fits** its four bytes. -/
theorem Counted.lt_of_dump {l : Label} {n : Nat} (h : t.Counted e l n)
    (hdump : t.dump e = .ok bytes) : n < UInt32.size := by
  obtain ⟨d, hdocument, hdump⟩ := bind_eq_ok_iff.mp hdump
  obtain ⟨rfl, hindexed⟩ := toDocument_eq_ok_iff.mp hdocument
  -- indices are checked for the document, but counts only where they are written
  have hwritten : e = .binary → t.leaves.size < UInt32.size ∧ t.nodes.size < UInt32.size
      ∧ ∀ n ∈ t.nodes, n.children.length < UInt32.size
        ∧ ∀ b, n.payload? = some b → b.length < UInt32.size := by
    rintro rfl
    obtain ⟨_, _, hfront, hnodes, -⟩ := Output.toExcept_append_eq_ok_iff.mp hdump
    obtain ⟨_, _, -, hleaves, -⟩ := Output.toExcept_append_eq_ok_iff.mp hfront
    have hleafCount := (Output.of_toExcept_list_eq_ok hleaves).1
    obtain ⟨hnodeCount, hitems⟩ := Output.of_toExcept_list_eq_ok hnodes
    rw [document, List.length_map, Array.length_toList] at hleafCount hnodeCount
    refine ⟨hleafCount, hnodeCount, fun n hn => ?_⟩
    have hmem : n.document ∈ t.document.nodes :=
      List.mem_map_of_mem (Array.mem_toList_iff.mpr hn)
    obtain ⟨_, hnode⟩ := hitems _ hmem
    exact lt_of_writeNode hnode
  cases h with
  | child hn hc => exact hindexed.child_lt _ hn _ hc
  | root hroot => exact hindexed.root_lt _ hroot
  | leaf hleaf => exact hindexed.leaf_lt _ hleaf
  | leafCount => exact (hwritten rfl).1
  | nodeCount => exact (hwritten rfl).2.1
  | childCount hn => exact ((hwritten rfl).2.2 _ hn).1
  | payload hn hb => exact ((hwritten rfl).2.2 _ hn).2 _ hb

/-- A tree is dumped **exactly when every number fits** its four bytes. -/
theorem Made.exists_dump_iff (hmade : t.Made) :
    (∃ bytes, t.dump e = .ok bytes) ↔ ∀ l n, t.Counted e l n → n < UInt32.size := by
  constructor
  · rintro ⟨bytes, hdump⟩ l n hcounted
    exact hcounted.lt_of_dump hdump
  · intro hfits
    cases hdump : t.dump e with
    | ok bytes => exact ⟨bytes, rfl⟩
    | error fault =>
      obtain ⟨l, n, hcounted, hlarge, -⟩ := hmade.exceeds_of_dump hdump
      exact absurd (hfits l n hcounted) (Nat.not_lt.mpr hlarge)

/-- No child list has a repetition, since every child stands once in one of them. -/
theorem Formed.nodup_children {root : Nat} (h : t.Formed root) {n : Node} (hn : n ∈ t.nodes) :
    n.children.Nodup := by
  obtain ⟨q, hq⟩ := Array.mem_iff_getElem?.mp hn
  have hchildren : t.childrenAt q = n.children := by simp [childrenAt, hq]
  apply List.nodup_iff_count_le_one.mpr
  intro c
  by_cases hc : c ∈ n.children
  · have hlt := h.child_lt n hn c hc
    have hne : c ≠ root := fun heq => h.root_notMem n hn (heq ▸ hc)
    obtain ⟨p, -, -, hcount⟩ := h.parent_eq c _ (Array.getElem?_eq_getElem hlt) hne
    rw [← hchildren, hcount q (Array.getElem?_eq_some_iff.mp hq).1]
    split <;> decide
  · rw [List.count_eq_zero.mpr hc]
    exact Nat.zero_le 1

/-- The indices and counts of a tree are no larger than the number of its nodes. -/
theorem Formed.le_of_counted {root : Nat} (h : t.Formed root) {l : Label} {n : Nat}
    (hcounted : t.Counted e l n) :
    n ≤ t.nodes.size ∨ ∃ m ∈ t.nodes, ∃ b, m.payload? = some b ∧ b.length = n := by
  have hleaf : ∀ i ∈ t.leaves, i < t.nodes.size := by
    intro i hi
    obtain ⟨_, hnode, -⟩ := (h.mem_leaves i).mp hi
    exact (Array.getElem?_eq_some_iff.mp hnode).1
  cases hcounted with
  | child hn hc => exact .inl (Nat.le_of_lt (h.child_lt _ hn _ hc))
  | root hroot =>
    obtain rfl := Option.some.inj (hroot.symm.trans h.root_eq)
    exact .inl (Nat.le_of_lt h.root_lt)
  | leaf hi => exact .inl (Nat.le_of_lt (hleaf _ hi))
  | leafCount =>
    refine .inl (length_le_of_nodup h.leaves_nodup fun i hi => ?_)
    exact hleaf i (Array.mem_toList_iff.mp hi)
  | nodeCount => exact .inl (Nat.le_refl _)
  | childCount hn => exact .inl (length_le_of_nodup (h.nodup_children hn) (h.child_lt _ hn))
  | payload hn hb => exact .inr ⟨_, hn, _, hb, rfl⟩

/-- A tree is dumped in **every encoding** unless it has `2 ^ 32` nodes or a payload of so many
bytes. -/
theorem Made.exists_dump (hmade : t.Made) (hsize : t.nodes.size < UInt32.size)
    (hpayload : ∀ n ∈ t.nodes, ∀ b, n.payload? = some b → b.length < UInt32.size) (e : Encoding) :
    ∃ bytes, t.dump e = .ok bytes := by
  apply hmade.exists_dump_iff.mpr
  intro l n hcounted
  rcases hmade.formed_or_empty with ⟨hnodes, hleaves, hroot⟩ | ⟨root, hformed⟩
  · -- an empty tree has nothing but counts that are zero
    cases hcounted <;> simp_all
  · rcases hformed.le_of_counted hcounted with hle | ⟨m, hm, b, hb, rfl⟩
    · exact Nat.lt_of_le_of_lt hle hsize
    · exact hpayload m hm b hb

/-- **Dumping and loading** a reachable tree. It is dumped exactly when every index, count and
length fits its four bytes; else the fault names the field of one that does not, and it is never
the width of a digest. From the bytes that are dumped the same tree is loaded. -/
theorem Reachable.load_dump (h : t.Reachable) (e : Encoding) :
    ((∃ bytes, t.dump e = .ok bytes) ↔ ∀ l n, t.Counted e l n → n < UInt32.size)
      ∧ (∀ fault, t.dump e = .error fault → fault ≠ Label.invalidLength ⟨.node, "digest"⟩
        ∧ ∃ l n, t.Counted e l n ∧ UInt32.size ≤ n ∧ fault = l.invalidLength)
      ∧ ∀ bytes, t.dump e = .ok bytes →
        load bytes e none = .ok t ∧ load bytes e (some t.algorithm) = .ok t := by
  refine ⟨h.made.exists_dump_iff, fun fault hdump => ?_, fun bytes hdump => ?_⟩
  · obtain ⟨l, n, hcounted, hlarge, rfl⟩ := h.made.exceeds_of_dump hdump
    refine ⟨fun hdigest => ?_, l, n, hcounted, hlarge, rfl⟩
    -- a fault names its field
    obtain ⟨place, field⟩ := l
    simp only [Label.invalidLength, FormatError.mk.injEq, Defect.invalidLength.injEq] at hdigest
    exact hcounted.ne_digest (by rw [hdigest.1, hdigest.2])
  · exact ⟨h.made.load_of_dump hdump (.inl rfl), h.made.load_of_dump hdump (.inr rfl)⟩

/-- The tree of three items, the first of which is empty. -/
private theorem ofItems_three : ∃ d d', Tree.ofItems .sha1 true [[], [2], [3]]
    = assemble .sha1 [.ofPayload .sha1 true [], .ofPayload .sha1 true [2], .ofPayload .sha1 true [3],
      ⟨d, .internal [0, 1]⟩, ⟨d', .internal [3, 2]⟩] [0, 1, 2] 4 :=
  ⟨_, _, by simp [Tree.ofItems, Growth.grow, Growth.pairUp, Growth.join]; rfl⟩

/-- It has five nodes, and payloads of one byte at most. -/
theorem ofItems_three_fits : (Tree.ofItems .sha1 true [[], [2], [3]]).nodes.size < UInt32.size
    ∧ ∀ n ∈ (Tree.ofItems .sha1 true [[], [2], [3]]).nodes, ∀ b, n.payload? = some b →
      b.length < UInt32.size := by
  obtain ⟨d, d', htree⟩ := ofItems_three
  rw [htree]
  constructor
  · have hfive : 5 < UInt32.size := by decide
    rwa [size_nodes_assemble]
  · intro n hn b hb
    obtain ⟨cell, hcell, -, -, hcontent⟩ := exists_cell hn
    rw [Node.payload?, hcontent] at hb
    simp only [List.mem_cons, List.not_mem_nil, or_false] at hcell
    rcases hcell with rfl | rfl | rfl | rfl | rfl <;> cases hb <;> decide

private theorem exists_dump_three (e : Encoding) :
    ∃ bytes, (Tree.ofItems .sha1 true [[], [2], [3]]).dump e = .ok bytes := by
  obtain ⟨hsize, hpayload⟩ := ofItems_three_fits
  exact (ofItems_made .sha1 true [[], [2], [3]]).exists_dump hsize hpayload e

/-- It is dumped in both encodings, and loaded again with the empty payload. -/
theorem Reachable.load_dump_three :
    (∃ bytes, (Tree.ofItems .sha1 true [[], [2], [3]]).dump .json = .ok bytes
        ∧ load bytes .json none = .ok (Tree.ofItems .sha1 true [[], [2], [3]]))
      ∧ ∃ bytes, (Tree.ofItems .sha1 true [[], [2], [3]]).dump .binary = .ok bytes
        ∧ load bytes .binary (some .sha1) = .ok (Tree.ofItems .sha1 true [[], [2], [3]]) := by
  have htree := Reachable.ofItems .sha1 true [[], [2], [3]]
  obtain ⟨text, htext⟩ := exists_dump_three .json
  obtain ⟨bytes, hbytes⟩ := exists_dump_three .binary
  have hbinary := ((Reachable.load_dump htree .binary).2.2 bytes hbytes).2
  rw [algorithm_ofItems] at hbinary
  exact ⟨⟨text, htext, ((Reachable.load_dump htree .json).2.2 text htext).1⟩, bytes, hbytes, hbinary⟩

end Tree

end HashTree
