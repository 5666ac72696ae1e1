import HashTree.Proofs.Bytes
import HashTree.Proofs.Tree.Halves

/-!
# Roots commit to items

Lists of one length are built into trees of one shape. So when two such trees have one root digest,
the agreement can be pushed **down from the root**: where two builds agree at a branch they hashed
the same digests, and so agree at its children, unless they hashed different bytes to one digest
there. At the bottom stand the items. Nothing tells leaves from branches, so lists of different
lengths can well have one root.
-/

namespace HashTree

namespace Tree

variable (a : Algorithm) (retain : Bool)

/-! ## §1 What a build hashes -/

/-- The bytes that the build of a tree of items hashes **at an index** of its arena. -/
inductive Hashes (items : List Bytes) : Nat → Bytes → Prop where
  /-- A leaf is hashed from its item. -/
  | leaf {i : Nat} {item : Bytes} (h : items[i]? = some item) : Hashes items i item
  /-- A branch is hashed from the digests of its children, in their order. -/
  | branch {i : Nat} {n : Node} (h : (ofItems a retain items).nodes[i]? = some n)
    (hbranch : n.isLeaf = false) :
    Hashes items i (n.children.flatMap (ofItems a retain items).digestAt)

/-- Two builds **collide** at an index: they hash different bytes to one digest there. -/
def Collides (retain' : Bool) (items others : List Bytes) (i : Nat) : Prop :=
  ∃ m n, Hashes a retain items i m ∧ Hashes a retain' others i n ∧ m ≠ n ∧ a.digest m = a.digest n

variable {a retain} {items others : List Bytes} {i p c : Nat} {m : Bytes}

/-- A branch has children. -/
private theorem children_ne_nil {n : Node} (h : (ofItems a retain items).nodes[i]? = some n)
    (hbranch : n.isLeaf = false) : n.children ≠ [] := by
  intro hnil
  rcases (ofItems_made a retain items).formed_or_empty with ⟨hnodes, -, -⟩ | ⟨root, hformed⟩
  · simp [hnodes] at h
  · have htwo := hformed.branching n (Array.mem_of_getElem? h) hbranch
    simp [hnil] at htwo

/-- What is hashed at an index gives **the digest of its node**. -/
theorem Hashes.digestAt_eq (h : Hashes a retain items i m) :
    (ofItems a retain items).digestAt i = a.digest m := by
  cases h with
  | leaf h => exact digestAt_ofItems a retain h
  | branch h hbranch =>
    have hchildren := children_ne_nil h hbranch
    obtain ⟨root, hformed⟩ := (ofItems_made a retain items).exists_formed (Array.mem_of_getElem? h)
    obtain ⟨r, -, u⟩ := (ofItems_made a retain items).unfolds hformed.root_eq
    rw [← below_eq_children h] at hchildren ⊢
    rw [u.digestAt_eq i hchildren, algorithm_ofItems]

/-- A node with a child is hashed from the digests of its children. -/
private theorem hashes_of_child (h : (ofItems a retain items).links.Child p c) :
    Hashes a retain items p
      (((ofItems a retain items).links.below p).flatMap (ofItems a retain items).digestAt) := by
  have hlt := h.parent_lt
  rw [length_links] at hlt
  have hget := Array.getElem?_eq_getElem hlt
  rw [below_eq_children hget]
  apply Hashes.branch hget
  -- a leaf lists no children
  cases hleaf : (ofItems a retain items).nodes[p].isLeaf with
  | false => rfl
  | true =>
    rw [Links.Child, below_eq_children hget, Node.children] at h
    rw [Node.isLeaf] at hleaf
    cases hcontent : (ofItems a retain items).nodes[p].content with
    | leaf payload => simp [hcontent, Content.children] at h
    | internal children => simp [hcontent, Content.isLeaf] at hleaf

/-! ## §2 Down from the root -/

variable {retain' : Bool}

/-- Two builds that agree at a node agree **at its children**, or collide. -/
theorem digestAt_eq_of_child
    (hlinks : (ofItems a retain items).links = (ofItems a retain' others).links)
    (hfree : ¬ Collides a retain retain' items others p)
    (heq : (ofItems a retain items).digestAt p = (ofItems a retain' others).digestAt p)
    (hwide : ∀ {k}, (ofItems a retain items).links.Child p k →
      ((ofItems a retain items).digestAt k).length = a.digestSize
        ∧ ((ofItems a retain' others).digestAt k).length = a.digestSize)
    (hc : (ofItems a retain items).links.Child p c) :
    (ofItems a retain items).digestAt c = (ofItems a retain' others).digestAt c := by
  have hm := hashes_of_child hc
  have hn := hashes_of_child (hlinks ▸ hc)
  rw [hm.digestAt_eq, hn.digestAt_eq] at heq
  have hsame : ((ofItems a retain items).links.below p).flatMap (ofItems a retain items).digestAt
      = ((ofItems a retain' others).links.below p).flatMap (ofItems a retain' others).digestAt := by
    by_contra hne
    exact hfree ⟨_, _, hm, hn, hne, heq⟩
  -- all digests have one width, so equal bytes are equal digests
  rw [← hlinks, List.flatMap_def, List.flatMap_def] at hsame
  have hpieces : ∀ d ∈ ((ofItems a retain items).links.below p).map
      (ofItems a retain items).digestAt, d.length = a.digestSize := by
    intro d hd
    obtain ⟨k, hk, rfl⟩ := List.mem_map.mp hd
    exact (hwide hk).1
  have hpieces' : ∀ d ∈ ((ofItems a retain items).links.below p).map
      (ofItems a retain' others).digestAt, d.length = a.digestSize := by
    intro d hd
    obtain ⟨k, hk, rfl⟩ := List.mem_map.mp hd
    exact (hwide hk).2
  have hmap := Bytes.flatten_inj hpieces hpieces' (by simp) hsame
  exact List.map_inj_left.mp hmap c hc

/-- Two builds with one root agree **everywhere**, or collide somewhere. -/
theorem digestAt_eq_or_collides (hlength : items.length = others.length)
    (hroot : (ofItems a retain items).rootDigest = (ofItems a retain' others).rootDigest)
    (hfree : ∀ i, ¬ Collides a retain retain' items others i) (hi : i < items.length) :
    (ofItems a retain items).digestAt i = (ofItems a retain' others).digestAt i := by
  have hne : items ≠ [] := List.ne_nil_of_length_pos (Nat.zero_lt_of_lt hi)
  obtain ⟨hlinks, hroots⟩ := ofItems_alike a retain retain' hlength
  obtain ⟨cells, root, plan, htree⟩ := exists_plan_ofItems a retain items hne
  obtain ⟨r, -, u⟩ := exists_unfolds plan
  rw [← htree] at u
  obtain ⟨r', hindex, u'⟩ := (ofItems_made a retain' others).unfolds (hroots.symm.trans u.root_eq)
  rw [u.rootDigest_eq, u'.rootDigest_eq, hindex] at hroot
  -- step by step on the way from the root
  have hdown : ∀ k, (ofItems a retain items).links.Descends r.index k →
      (ofItems a retain items).digestAt k = (ofItems a retain' others).digestAt k := by
    intro k hd
    induction hd with
    | refl => exact Except.ok.inj hroot
    | @tail p c _ hc ih =>
      apply digestAt_eq_of_child hlinks (hfree p) ih _ hc
      intro k hk
      have hlt := u.planted.child_lt hk
      have hwide := u.length_digestAt k hlt
      have hwide' := u'.length_digestAt k (hlinks ▸ hlt)
      rw [algorithm_ofItems] at hwide hwide'
      exact ⟨hwide, hwide'⟩
  apply hdown i
  apply u.planted.descends i
  -- the items are the first leaves
  apply ((u.mem_leaves i).mp _).1
  rw [leaves_ofItems]
  simpa using hi

/-! ## §3 Commitment -/

/-- **A root commits to the items**, whose number is known: two lists of one length whose trees have
one root digest are equal, or at some index of the arena the two builds hashed different bytes to
one digest. -/
theorem rootDigest_commits (a : Algorithm) (retain retain' : Bool) {items others : List Bytes}
    (hlength : items.length = others.length)
    (hroot : (ofItems a retain items).rootDigest = (ofItems a retain' others).rootDigest) :
    items = others ∨ ∃ i, Collides a retain retain' items others i := by
  by_cases hfree : ∀ i, ¬ Collides a retain retain' items others i
  · left
    apply List.ext_getElem hlength
    intro i hi hi'
    have hm : Hashes a retain items i items[i] := .leaf (List.getElem?_eq_getElem hi)
    have hn : Hashes a retain' others i others[i] := .leaf (List.getElem?_eq_getElem hi')
    have hdigest := digestAt_eq_or_collides hlength hroot hfree hi
    rw [hm.digestAt_eq, hn.digestAt_eq] at hdigest
    by_contra hne
    exact hfree i ⟨_, _, hm, hn, hne, hdigest⟩
  · right
    simpa using hfree

/-- Five items with their payloads kept, and the same five without them, have one root. -/
theorem rootDigest_commits_five :
    (ofItems .sha1 true [[1], [2], [3], [4], [5]]).rootDigest
        = (ofItems .sha1 false [[1], [2], [3], [4], [5]]).rootDigest
      ∧ (([[1], [2], [3], [4], [5]] : List Bytes) = [[1], [2], [3], [4], [5]]
        ∨ ∃ i, Collides .sha1 true false [[1], [2], [3], [4], [5]] [[1], [2], [3], [4], [5]] i) := by
  have hroot : (ofItems .sha1 true [[1], [2], [3], [4], [5]]).rootDigest
      = (ofItems .sha1 false [[1], [2], [3], [4], [5]]).rootDigest := by
    rw [rootDigest_eq_splitDigest .sha1 true (by simp),
      rootDigest_eq_splitDigest .sha1 false (by simp)]
  exact ⟨hroot, rootDigest_commits .sha1 true false rfl hroot⟩

/-- The **number of items** has to be known: two items have the root of one, their joined
digests. -/
theorem rootDigest_pair (a : Algorithm) (retain : Bool) (item other : Bytes) :
    (ofItems a retain [item, other]).rootDigest
      = (ofItems a retain [a.digest item ++ a.digest other]).rootDigest := by
  have hcut : Paired.cut 2 = 1 := by decide
  rw [rootDigest_eq_splitDigest a retain (by simp), rootDigest_eq_splitDigest a retain (by simp)]
  simp [splitDigest, hcut]

end Tree

end HashTree
