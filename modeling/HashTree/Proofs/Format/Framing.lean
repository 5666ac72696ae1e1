import HashTree.Proofs.Format.Delimited
import HashTree.Proofs.Format.Faithful
import HashTree.Proofs.Format.Requests

/-!
# Bytes that are cut short or run on

What is dumped tells where it ends, but only to a reader who knows the width of its digests. So
bytes that lack some at the end of a dump, or have some more there, are refused under every
algorithm of that width, and the name in front, which is still that of the algorithm, is refused
with it. Loading without a request goes on to the algorithms of **other widths**, and these read the
same bytes in another way. Some bytes make sense to one of them, so what can be shown of the bytes
in general is what such a reader is left with: the front that was written without a width.
-/

namespace HashTree

open Outcome

/-! ## §1 Bytes that end elsewhere -/

/-- The bytes are not the same, and one of them starts with the other. -/
def EndsElsewhere (bytes bytes' : Bytes) : Prop :=
  bytes' ≠ bytes ∧ (bytes' <+: bytes ∨ bytes <+: bytes')

/-- They can both be continued to the same bytes. -/
theorem EndsElsewhere.exists_append {bytes bytes' : Bytes} (h : EndsElsewhere bytes bytes') :
    ∃ u v, bytes ++ u = bytes' ++ v := by
  obtain ⟨-, hshort | hlong⟩ := h
  · obtain ⟨v, hv⟩ := hshort
    exact ⟨[], v, by rw [List.append_nil, hv]⟩
  · obtain ⟨u, hu⟩ := hlong
    exact ⟨u, [], by rw [List.append_nil, hu]⟩

/-! ## §2 Algorithms of other widths -/

/-- The algorithms with digests of another size, in the order of the registry. -/
def Algorithm.ofOtherSize (a : Algorithm) : List Algorithm :=
  all.filter fun b => b.digestSize ≠ a.digestSize

/-- The registry has every algorithm. -/
theorem Algorithm.mem_all (a : Algorithm) : a ∈ all := by
  cases a <;> decide

/-- What remains to be tried where the bytes do not end as the algorithm has them: **no request**
gives a result, and without one the first algorithm of another width that succeeds does. -/
structure Framed {α : Type} (a : Algorithm) (attempt : Algorithm → Except FormatError α)
    (load : Option Algorithm → Except FormatError α) : Prop where
  refused : ∀ b, ∃ e, load (some b) = .error e
  load_iff : ∀ v, load none = .ok v ↔ firstSuccess attempt a.ofOtherSize = some v

section Framed

variable {α : Type} {a : Algorithm} {place : Section} {name : Except FormatError String}
  {attempt : Algorithm → Except FormatError α} {load : Option Algorithm → Except FormatError α}

/-- A document that names an algorithm, if it can be read at all, is framed where all algorithms of
that width refuse it. -/
theorem framed_of_refuses
    (hload : ∀ requested, load requested = name >>= fun named =>
      resolve place named requested attempt)
    (hname : ∀ named, name = .ok named → Algorithm.ofName? named = some a)
    (hread : ∀ b v, attempt b = .ok v → ∃ named, name = .ok named)
    (hrefuses : ∀ b : Algorithm, b.digestSize = a.digestSize → Refuses attempt b) :
    Framed a attempt load := by
  cases hnamed : name with
  | error e =>
    -- without a name nothing is tried, and nothing could succeed
    have hfails : ∀ requested, load requested = .error e := by
      intro requested
      rw [hload, hnamed]
      rfl
    refine ⟨fun b => ⟨e, hfails (some b)⟩, fun v => ?_⟩
    rw [hfails none]
    simp only [reduceCtorEq, false_iff]
    intro hfirst
    obtain ⟨b, hb⟩ := exists_of_firstSuccess hfirst
    obtain ⟨named, hok⟩ := hread b v hb
    rw [hnamed] at hok
    cases hok
  | ok named =>
    have ha := hname named hnamed
    have hresolve : ∀ requested, load requested = resolve place named requested attempt := by
      intro requested
      rw [hload, hnamed, ok_bind]
    constructor
    · intro b
      cases hb : load (some b) with
      | error e => exact ⟨e, rfl⟩
      | ok v =>
        -- only the named algorithm can be requested, and it refuses
        rw [hresolve] at hb
        obtain ⟨hnamed, hattempt⟩ := resolve_some_eq_ok_iff.mp hb
        obtain rfl := Option.some.inj (ha.symm.trans hnamed)
        obtain ⟨e, he⟩ := hrefuses a rfl
        rw [he] at hattempt
        cases hattempt
    · intro v
      have hfilter : firstSuccess attempt a.ofOtherSize = firstSuccess attempt Algorithm.all := by
        apply firstSuccess_filter
        intro b hb
        apply hrefuses
        simpa using hb
      rw [hfilter, hresolve]
      apply resolve_none_eq_ok_iff
      intro b hb
      obtain rfl := Option.some.inj (ha.symm.trans hb)
      exact hrefuses a rfl

/-- What is loaded is made by an algorithm of another width. -/
theorem Framed.exists_attempt (h : Framed a attempt load) {v : α} (hv : load none = .ok v) :
    ∃ b : Algorithm, b.digestSize ≠ a.digestSize ∧ attempt b = .ok v := by
  obtain ⟨front, b, back, hothers, hb, -⟩ := firstSuccess_eq_some_iff.mp ((h.load_iff v).mp hv)
  have hmem : b ∈ a.ofOtherSize := by
    rw [hothers]
    exact List.mem_append_right front List.mem_cons_self
  simp only [Algorithm.ofOtherSize, List.mem_filter, decide_eq_true_eq] at hmem
  exact ⟨b, hmem.2, hb⟩

/-- Loading succeeds as soon as one algorithm of another width does. -/
theorem Framed.exists_load (h : Framed a attempt load) {b : Algorithm} {v : α}
    (hb : b.digestSize ≠ a.digestSize) (hv : attempt b = .ok v) : ∃ u, load none = .ok u := by
  have hmem : b ∈ a.ofOtherSize := List.mem_filter.mpr ⟨b.mem_all, by simpa using hb⟩
  cases hfirst : firstSuccess attempt a.ofOtherSize with
  | some u => exact ⟨u, (h.load_iff u).mpr hfirst⟩
  | none =>
    have hnone := List.findSome?_eq_none_iff.mp hfirst b hmem
    rw [hv] at hnone
    cases hnone

end Framed

/-! ## §3 Heads -/

namespace Grammar

variable {width : Nat} {bytes : Bytes}

/-- A head is read off the front of any bytes that start with one. -/
theorem readHead_run_iff {kind : Binary.Kind} {name : String} :
    (Binary.readHead kind).run bytes = .ok name
      ↔ ∃ head rest, Head kind.tag name head ∧ head ++ rest = bytes := by
  rw [Read.run_eq_ok_iff]
  constructor
  · intro h
    obtain ⟨c, hread⟩ := h
    obtain ⟨head, hhead, hpast⟩ := Binary.mirrors_head.mp hread
    exact ⟨head, c.rest, follows_head.mp hhead, hpast.rest_eq.symm⟩
  · intro h
    obtain ⟨head, rest, hhead, rfl⟩ := h
    refine ⟨⟨head.length, rest⟩, Binary.mirrors_head.mpr ⟨head, follows_head.mpr hhead, rfl, ?_⟩⟩
    exact (Nat.zero_add _).symm

theorem Tree.exists_head {d : TreeDocument} (h : Tree width d bytes) :
    ∃ head rest, Head 1 d.algorithm head ∧ head ++ rest = bytes := by
  cases h with
  | intro hname _ _ _ =>
    simp only [List.append_assoc]
    exact ⟨_, _, hname, rfl⟩

theorem Opening.exists_head {d : OpeningDocument} (h : Opening width d bytes) :
    ∃ head rest, Head 2 d.algorithm head ∧ head ++ rest = bytes := by
  cases h with
  | intro hname _ _ _ _ _ =>
    simp only [List.append_assoc]
    exact ⟨_, _, hname, rfl⟩

/-- Bytes that can be continued to the same have the same name in front, **if they have one**. -/
theorem Head.eq_of_append {tag : UInt8} {named name : String}
    {bytes' head rest head' rest' u v : Bytes}
    (hhead : Head tag name head) (hbytes : head ++ rest = bytes) (hhead' : Head tag named head')
    (hbytes' : head' ++ rest' = bytes') (h : bytes ++ u = bytes' ++ v) : named = name := by
  rw [← hbytes, ← hbytes', List.append_assoc, List.append_assoc] at h
  exact (delimited_head hhead hhead' h).1.symm

end Grammar

/-! ## §4 Trees -/

namespace Tree

variable {t u : Tree} {b b' : Bytes}

/-- No algorithm of the same width makes anything of bytes that end elsewhere. -/
theorem refuses_of_endsElsewhere (hdump : t.dump .binary = .ok b) (h : EndsElsewhere b b')
    {a : Algorithm} (ha : a.digestSize = t.algorithm.digestSize) :
    Refuses (loadUnder b' .binary) a := by
  obtain ⟨-, hb⟩ := indexed_of_dump hdump
  cases hload : loadUnder b' .binary a with
  | error e => exact ⟨e, hload⟩
  | ok v =>
    obtain ⟨d, hread, -⟩ := bind_eq_ok_iff.mp hload
    rw [ha] at hread
    have hb' := Grammar.readTree_run_iff.mp hread
    obtain ⟨x, y, hxy⟩ := h.exists_append
    obtain ⟨-, heq, -⟩ := Grammar.delimited_tree hb hb' hxy
    exact absurd heq.symm h.1

theorem framed_of_endsElsewhere (hdump : t.dump .binary = .ok b) (h : EndsElsewhere b b') :
    Framed t.algorithm (loadUnder b' .binary) (load b' .binary) := by
  obtain ⟨-, hb⟩ := indexed_of_dump hdump
  obtain ⟨x, y, hxy⟩ := h.exists_append
  apply framed_of_refuses fun requested => load_eq
  · intro named hnamed
    obtain ⟨head, rest, hhead, hbytes⟩ := hb.exists_head
    obtain ⟨head', rest', hhead', hbytes'⟩ := Grammar.readHead_run_iff.mp hnamed
    rw [hhead.eq_of_append hbytes hhead' hbytes' hxy]
    exact t.algorithm.ofName?_name
  · intro a v hv
    obtain ⟨d, hread, -⟩ := bind_eq_ok_iff.mp hv
    exact ⟨_, Binary.readHead_run_of_writeTree (Binary.readTree_run_eq_ok_iff.mp hread).2⟩
  · intro a ha
    exact refuses_of_endsElsewhere hdump h ha

/-- A document has the root and the leaves of its tree. -/
private theorem Indexed.map_toNat (h : t.Indexed) : t.document.root.map UInt32.toNat = t.root
    ∧ t.document.leaves.map UInt32.toNat = t.leaves.toList := by
  constructor
  · cases hroot : t.root with
    | none => simp [document, hroot]
    | some root =>
      have hlt : (UInt32.ofNat root).toNat = root := UInt32.toNat_ofNat_of_lt (h.root_lt root hroot)
      rw [document, hroot]
      exact congrArg some hlt
  · apply map_toNat_ofNat
    intro leaf hleaf
    exact h.leaf_lt leaf (Array.mem_toList_iff.mp hleaf)

/-- What is loaded has **the root, the leaves and the number of nodes** of the tree that was dumped,
and this tree is not empty. -/
theorem shape_of_endsElsewhere (hdump : t.dump .binary = .ok b) (h : EndsElsewhere b b')
    (hload : load b' .binary none = .ok u) :
    u.root = t.root ∧ u.leaves = t.leaves ∧ u.nodes.size = t.nodes.size ∧ t.root ≠ none := by
  obtain ⟨hindexed, hb⟩ := indexed_of_dump hdump
  obtain ⟨d, hread, hdocument⟩ := exists_document_of_load hload
  obtain ⟨hd, hindexed'⟩ := toDocument_eq_ok_iff.mp hdocument
  have hb' := Grammar.readTree_run_iff.mp hread
  obtain ⟨x, y, hxy⟩ := h.exists_append
  obtain ⟨hfront, front, z, z', rfl, rfl, hz, hz', -⟩ := Grammar.treeFront_of_append hb hb' hxy
  -- the document that was read is that of the loaded tree, but for its name
  have hroot : u.root = t.root := by
    rw [← hindexed'.map_toNat.1, ← hindexed.map_toNat.1, ← hd, hfront.root_eq]
  have hleaves : u.leaves = t.leaves := by
    apply Array.toList_inj.mp
    rw [← hindexed'.map_toNat.2, ← hindexed.map_toNat.2, ← hd, hfront.leaves_eq]
  have hsize : ∀ s : Tree, s.document.nodes.length = s.nodes.size := by
    intro s
    simp [document]
  have hcount : u.nodes.size = t.nodes.size := by
    rw [← hsize u, ← hsize t, ← hd, hfront.nodeCount_eq]
  refine ⟨hroot, hleaves, hcount, ?_⟩
  -- without a root there are no nodes, and then the bytes do not depend on the width
  intro hnone
  have hmade : u.Made := (Reachable.loaded hload).made
  have hempty : u.nodes.size = 0 := by
    rcases hmade.formed_or_empty with ⟨hnodes, -, -⟩ | ⟨root, hformed⟩
    · simp [hnodes]
    · have hsome := hformed.root_eq
      rw [hroot, hnone] at hsome
      cases hsome
  have hnil : t.document.nodes = [] := by
    apply List.length_eq_zero_iff.mp
    rw [hsize t, ← hcount, hempty]
  have hnil' : d.nodes = [] := by
    apply List.length_eq_zero_iff.mp
    rw [← hfront.nodeCount_eq, hnil, List.length_nil]
  rw [hnil] at hz
  rw [hnil'] at hz'
  cases hz
  cases hz'
  exact h.1 rfl

end Tree

/-! ## §5 Openings -/

namespace Opening

variable {o p : Opening} {b b' : Bytes}

/-- No algorithm of the same width makes anything of bytes that end elsewhere. -/
theorem refuses_of_endsElsewhere (hdump : o.dump .binary = .ok b) (h : EndsElsewhere b b')
    {a : Algorithm} (ha : a.digestSize = o.algorithm.digestSize) :
    Refuses (loadUnder b' .binary) a := by
  obtain ⟨-, hb⟩ := indexed_of_dump hdump
  cases hload : loadUnder b' .binary a with
  | error e => exact ⟨e, hload⟩
  | ok v =>
    obtain ⟨d, hread, -⟩ := bind_eq_ok_iff.mp hload
    rw [ha] at hread
    have hb' := Grammar.readOpening_run_iff.mp hread
    obtain ⟨x, y, hxy⟩ := h.exists_append
    obtain ⟨-, heq, -⟩ := Grammar.delimited_opening hb hb' hxy
    exact absurd heq.symm h.1

theorem framed_of_endsElsewhere (hdump : o.dump .binary = .ok b) (h : EndsElsewhere b b') :
    Framed o.algorithm (loadUnder b' .binary) (load b' .binary) := by
  obtain ⟨-, hb⟩ := indexed_of_dump hdump
  obtain ⟨x, y, hxy⟩ := h.exists_append
  apply framed_of_refuses fun requested => load_eq
  · intro named hnamed
    obtain ⟨head, rest, hhead, hbytes⟩ := hb.exists_head
    obtain ⟨head', rest', hhead', hbytes'⟩ := Grammar.readHead_run_iff.mp hnamed
    rw [hhead.eq_of_append hbytes hhead' hbytes' hxy]
    exact o.algorithm.ofName?_name
  · intro a v hv
    obtain ⟨d, hread, -⟩ := bind_eq_ok_iff.mp hv
    exact ⟨_, Binary.readHead_run_of_writeOpening (Binary.readOpening_run_eq_ok_iff.mp hread).2⟩
  · intro a ha
    exact refuses_of_endsElsewhere hdump h ha

/-- What is loaded has **the positions** of the opening that was dumped. -/
theorem indices_of_endsElsewhere (hdump : o.dump .binary = .ok b) (h : EndsElsewhere b b')
    (hload : load b' .binary none = .ok p) : p.indices = o.indices := by
  obtain ⟨hindexed, hb⟩ := indexed_of_dump hdump
  obtain ⟨d, hread, hdocument⟩ := exists_document_of_load hload
  obtain ⟨hd, hindexed'⟩ := toDocument_eq_ok_iff.mp hdocument
  have hb' := Grammar.readOpening_run_iff.mp hread
  obtain ⟨x, y, hxy⟩ := h.exists_append
  have hindices : p.document.indices = o.document.indices := by
    rw [← hd]
    exact (Grammar.openingFront_of_append hb hb' hxy).indices_eq.symm
  rw [← map_toNat_ofNat hindexed'.index_lt, ← map_toNat_ofNat hindexed.index_lt]
  exact congrArg (List.map UInt32.toNat) hindices

end Opening

/-! ## §6 One leaf at three widths -/

section Lone

open Grammar

/-- What stands in front of the only node of a tree under the name `sha1`. -/
private def loneFront : Bytes :=
  [1, 0, 1, 4, 0, 0, 0, 115, 104, 97, 49, 1, 0, 0, 0, 0, 1, 0, 0, 0, 0, 0, 0, 0, 1, 0, 0, 0]

private theorem tree_lone {width : Nat} {n : NodeDocument} {x : Bytes}
    (hn : Grammar.Node width n x) :
    Grammar.Tree width ⟨1, "sha1", some 0, [0], [n]⟩ (loneFront ++ x) := by
  have hone : Number 1 [1, 0, 0, 0] := Number.intro 1 0 0 0
  have hzero : Index 0 [0, 0, 0, 0] := Number.intro 0 0 0 0
  have hname : Head 1 "sha1" _ :=
    Head.intro (Sized.intro (number_iff.mpr ⟨by decide, rfl⟩))
  have hleaves : Counted Index [0] _ := Counted.intro hone (Each.cons hzero Each.nil)
  have hnodes : Counted (Grammar.Node width) [n] _ := Counted.intro hone (Each.cons hn Each.nil)
  have h := Grammar.Tree.intro hname (Optional.present hzero) hleaves hnodes
  simp only [List.append_nil] at h
  exact h

/-- A leaf without a payload ends in five zeros. -/
private theorem node_bare (d : Digest) :
    Grammar.Node d.length ⟨d, none, []⟩ (d ++ [0] ++ [0, 0, 0, 0]) := by
  have hchildren : Counted Index [] ([0, 0, 0, 0] ++ []) :=
    Counted.intro (Number.intro 0 0 0 0) Each.nil
  exact Grammar.Node.intro (Fixed.intro rfl) Optional.absent hchildren

/-- A leaf with a payload of zeros ends in **more** of them. -/
private theorem node_zeros (d : Digest) : Grammar.Node d.length
    ⟨d, some (List.replicate 8 0), []⟩
    (d ++ [1, 8, 0, 0, 0, 0, 0, 0, 0, 0, 0, 0, 0] ++ [0, 0, 0, 0]) := by
  have hchildren : Counted Index [] ([0, 0, 0, 0] ++ []) :=
    Counted.intro (Number.intro 0 0 0 0) Each.nil
  have hcount : Number (List.replicate 8 (0 : UInt8)).length [8, 0, 0, 0] := Number.intro 8 0 0 0
  exact Grammar.Node.intro (Fixed.intro rfl) (Optional.present (Sized.intro hcount)) hchildren

/-- A single leaf without a payload makes sense under every algorithm that has the size of its
digest. -/
private theorem exists_loadUnder_lone {a : Algorithm} {d : Digest} (h : d.length = a.digestSize) :
    ∃ u, Tree.loadUnder (loneFront ++ (d ++ [0] ++ [0, 0, 0, 0])) .binary a = .ok u := by
  have hnode := node_bare d
  rw [h] at hnode
  have hread := readTree_run_iff.mpr (tree_lone hnode)
  have hclaims : TreeDocument.claimAll a [⟨d, none, []⟩] = .ok #[none] := by
    simp [TreeDocument.claimAll, TreeDocument.claimChildren, requireSize, require, h,
      NodeDocument.isLeaf, requirePayload]
    rfl
  refine ⟨Tree.assemble a [⟨d, .leaf none⟩] [0] 0, ?_⟩
  unfold Tree.loadUnder
  dsimp only
  rw [hread, ok_bind]
  simp only [TreeDocument.restore, hclaims]
  rfl

private theorem ofItems_lone (a : Algorithm) (retain : Bool) (item : Bytes) :
    Tree.ofItems a retain [item] = Tree.assemble a [.ofPayload a retain item] [0] 0 := by
  simp [Tree.ofItems, Growth.grow]

/-- The dump of a single item of eight zeros makes sense at another width when four bytes are taken
away, and at a third one when sixteen are added. -/
private theorem exists_dump_lone : ∃ cut,
    (Tree.ofItems .sha1 true [List.replicate 8 0]).dump .binary = .ok (cut ++ [0, 0, 0, 0])
      ∧ (∃ u, Tree.loadUnder cut .binary .sha224 = .ok u)
      ∧ ∃ u,
        Tree.loadUnder (cut ++ [0, 0, 0, 0] ++ List.replicate 16 0) .binary .sha384 = .ok u := by
  have hlength : (Algorithm.sha1.digest (List.replicate 8 0)).length = 20 :=
    Algorithm.length_digest ..
  have hdocument : (Tree.ofItems .sha1 true [List.replicate 8 0]).toDocument
      = .ok ⟨1, "sha1", some 0, [0],
        [⟨Algorithm.sha1.digest (List.replicate 8 0), some (List.replicate 8 0), []⟩]⟩ := by
    rw [ofItems_lone]
    rfl
  have halgorithm : (Tree.ofItems .sha1 true [List.replicate 8 0]).algorithm = .sha1 :=
    Tree.algorithm_ofItems _ _
  generalize Algorithm.sha1.digest (List.replicate 8 0) = d at hlength hdocument
  have hnode := node_zeros d
  rw [hlength] at hnode
  refine ⟨loneFront ++ (d ++ [1, 8, 0, 0, 0, 0, 0, 0, 0, 0, 0, 0, 0]), ?_, ?_, ?_⟩
  · rw [Tree.dump_binary_iff hdocument, halgorithm, List.append_assoc]
    exact tree_lone hnode
  · -- the flag, the length and three zeros of the payload go to the digest
    have hload := exists_loadUnder_lone (a := .sha224) (d := d ++ [1, 8, 0, 0, 0, 0, 0, 0])
      (by simp [hlength, Algorithm.digestSize])
    simpa using hload
  · have hload := exists_loadUnder_lone (a := .sha384)
      (d := d ++ [1, 8, 0, 0, 0, 0, 0, 0, 0, 0, 0, 0, 0, 0, 0, 0, 0] ++ List.replicate 11 0)
      (by simp [hlength, Algorithm.digestSize])
    simpa using hload

end Lone

/-! ## §7 Dumps that are cut short or run on -/

/-- **Bytes that end elsewhere are refused under every algorithm of that width.** Take away the end
of a dump, or add bytes to it. Then every request is refused. Without a request loading succeeds
exactly when an algorithm with digests of another size makes sense of the bytes, and its result is
that of the first such algorithm. It has the root, the leaves and the number of nodes of the tree
that was dumped, or the positions of the opening, and an empty tree is never loaded so. -/
theorem load_of_endsElsewhere {b b' : Bytes} (h : EndsElsewhere b b') :
    (∀ t : Tree, t.dump .binary = .ok b →
        Framed t.algorithm (Tree.loadUnder b' .binary) (Tree.load b' .binary)
        ∧ ∀ u, Tree.load b' .binary none = .ok u →
          u.algorithm.digestSize ≠ t.algorithm.digestSize
          ∧ u.root = t.root ∧ u.leaves = t.leaves ∧ u.nodes.size = t.nodes.size ∧ t.root ≠ none)
      ∧ ∀ o : Opening, o.dump .binary = .ok b →
        Framed o.algorithm (Opening.loadUnder b' .binary) (Opening.load b' .binary)
        ∧ ∀ p, Opening.load b' .binary none = .ok p →
          p.algorithm.digestSize ≠ o.algorithm.digestSize ∧ p.indices = o.indices := by
  constructor
  · intro t hdump
    have hframed := Tree.framed_of_endsElsewhere hdump h
    refine ⟨hframed, ?_⟩
    intro u hload
    obtain ⟨a, hsize, hattempt⟩ := hframed.exists_attempt hload
    rw [Tree.algorithm_of_loadUnder hattempt]
    exact ⟨hsize, Tree.shape_of_endsElsewhere hdump h hload⟩
  · intro o hdump
    have hframed := Opening.framed_of_endsElsewhere hdump h
    refine ⟨hframed, ?_⟩
    intro p hload
    obtain ⟨a, hsize, hattempt⟩ := hframed.exists_attempt hload
    rw [Opening.algorithm_of_loadUnder hattempt]
    exact ⟨hsize, Opening.indices_of_endsElsewhere hdump h hload⟩

/-- Four bytes are taken from the end of the dump of a single item. What is left is refused under
every request and loaded without one, and the result has a leaf as its root. -/
theorem load_of_endsElsewhere_lone : ∃ cut u,
    (Tree.ofItems .sha1 true [List.replicate 8 0]).dump .binary = .ok (cut ++ [0, 0, 0, 0])
      ∧ EndsElsewhere (cut ++ [0, 0, 0, 0]) cut
      ∧ (∀ a, ∃ e, Tree.load cut .binary (some a) = .error e)
      ∧ Tree.load cut .binary none = .ok u ∧ u.algorithm ≠ .sha1
      ∧ u.root = some 0 ∧ u.leaves = #[0] ∧ u.nodes.size = 1 := by
  obtain ⟨cut, hdump, ⟨v, hv⟩, -⟩ := exists_dump_lone
  have hends : EndsElsewhere (cut ++ [0, 0, 0, 0]) cut :=
    ⟨by simp, Or.inl (List.prefix_append ..)⟩
  have htree := ofItems_lone .sha1 true (List.replicate 8 0)
  have halgorithm : (Tree.ofItems .sha1 true [List.replicate 8 0]).algorithm = .sha1 :=
    Tree.algorithm_ofItems _ _
  obtain ⟨hframed, hshape⟩ := (load_of_endsElsewhere hends).1 _ hdump
  rw [halgorithm] at hframed hshape
  obtain ⟨u, hu⟩ := hframed.exists_load (by decide) hv
  obtain ⟨hsize, hroot, hleaves, hcount, -⟩ := hshape u hu
  refine ⟨cut, u, hdump, hends, hframed.refused, hu, fun heq => hsize (congrArg _ heq), ?_⟩
  rw [hroot, hleaves, hcount, htree]
  exact ⟨rfl, rfl, rfl⟩

/-- The bytes of an opening whose digests are chosen: at another width the counts are read out of
the middle of them. -/
def Opening.disguised : Bytes :=
  [1, 0, 2, 4, 0, 0, 0, 115, 104, 97, 49, 1, 0, 0, 0, 0, 0, 0, 0] ++ List.replicate 20 7
    ++ [0, 0, 0, 0, 1, 0, 0, 0, 0, 0, 0, 0, 1, 0, 0, 0, 0] ++ List.replicate 12 7 ++ [1, 0, 0, 0, 0]
    ++ List.replicate 11 7 ++ [1, 0, 0, 0, 0] ++ List.replicate 4 7

/-- **Bytes that end elsewhere can be loaded.** The dump of a single item makes sense at another
width when its last four bytes are missing, and again when sixteen more are added. So does the dump
of an opening that was loaded, when it is continued. -/
theorem load_cut_or_continued :
    ((Tree.ofItems .sha1 true [List.replicate 8 0]).Reachable ∧ ∃ cut,
        (Tree.ofItems .sha1 true [List.replicate 8 0]).dump .binary = .ok (cut ++ [0, 0, 0, 0])
          ∧ (∃ u, Tree.load cut .binary none = .ok u)
          ∧ ∃ u, Tree.load (cut ++ [0, 0, 0, 0] ++ List.replicate 16 0) .binary none = .ok u)
      ∧ ∃ o, Opening.Reachable o ∧ o.dump .binary = .ok Opening.disguised
        ∧ ∃ p, Opening.load (Opening.disguised ++ List.replicate 24 0) .binary none = .ok p := by
  constructor
  · refine ⟨Tree.Reachable.ofItems _ _ _, ?_⟩
    obtain ⟨cut, hdump, ⟨v, hv⟩, ⟨w, hw⟩⟩ := exists_dump_lone
    have halgorithm : (Tree.ofItems .sha1 true [List.replicate 8 0]).algorithm = .sha1 :=
      Tree.algorithm_ofItems _ _
    have hcut : EndsElsewhere (cut ++ [0, 0, 0, 0]) cut :=
      ⟨by simp, Or.inl (List.prefix_append ..)⟩
    have hmore : EndsElsewhere (cut ++ [0, 0, 0, 0]) (cut ++ [0, 0, 0, 0] ++ List.replicate 16 0) :=
      ⟨by simp, Or.inr (List.prefix_append ..)⟩
    have hframed := Tree.framed_of_endsElsewhere hdump hcut
    have hframed' := Tree.framed_of_endsElsewhere hdump hmore
    rw [halgorithm] at hframed hframed'
    exact ⟨cut, hdump, hframed.exists_load (by decide) hv, hframed'.exists_load (by decide) hw⟩
  · have hload : Opening.load Opening.disguised .binary none = .ok ⟨.sha1, [0], [],
        List.replicate 20 7, [⟨none, [0, 0, 0, 1, 0, 0, 0, 0] ++ List.replicate 12 7⟩],
        [⟨none, List.replicate 11 7 ++ [1, 0, 0, 0, 0] ++ List.replicate 4 7⟩]⟩ := by
      decide
    have hagain : Opening.load (Opening.disguised ++ List.replicate 24 0) .binary none
        = .ok ⟨.sha224, [0], [], List.replicate 20 7 ++ [0, 0, 0, 0, 1, 0, 0, 0],
          [⟨none, List.replicate 12 7 ++ [1, 0, 0, 0, 0] ++ List.replicate 11 7⟩],
          [⟨none, List.replicate 4 7 ++ List.replicate 24 0⟩]⟩ := by
      decide
    exact ⟨_, Opening.Reachable.loaded hload, by decide, _, hagain⟩

end HashTree
