import HashTree.Proofs.Tree.Items
import HashTree.Proofs.Tree.Paired
import HashTree.Proofs.Tree.Shape

/-!
# Trees of items by halves

A tree of items is made level by level, with the last node of a level carried up where it has no
partner. In the arena the root of every level's nodes is spelled out by the child lists, and pairing
nodes is pairing what they spell. So the root of the tree joins the trees of two segments of the
items, cut at the largest power of two, and its digest is that of a recursion from the top.
-/

namespace HashTree

/-! ## §1 Trees that child lists spell -/

/-- At an index the child lists spell out a binary tree of leaves. -/
inductive Spells (links : Links) : Nat → Paired Nat → Prop where
  | single {i : Nat} (here : links[i]? = some []) : Spells links i (.single i)
  | join {i l r : Nat} {left right : Paired Nat} (here : links[i]? = some [l, r])
    (onLeft : Spells links l left) (onRight : Spells links r right) :
    Spells links i (.join left right)

/-- The digest of a binary tree of digests. -/
def Paired.value (a : Algorithm) : Paired Digest → Digest
  | single digest => digest
  | join left right => a.digest (left.value a ++ right.value a)

namespace Spells

variable {links : Links} {i c : Nat} {tree : Paired Nat}

/-- Further child lists change nothing. -/
theorem append (h : Spells links i tree) (more : Links) : Spells (links ++ more) i tree := by
  have hkept : ∀ {i : Nat} {list : List Nat}, links[i]? = some list →
      (links ++ more)[i]? = some list := by
    intro i list hget
    rw [List.getElem?_append_left (List.getElem?_eq_some_iff.mp hget).1, hget]
  induction h with
  | single here => exact .single (hkept here)
  | join here _ _ ihleft ihright => exact .join (hkept here) ihleft ihright

/-- The leaves at or below an index are **the items of the tree** that it spells. -/
theorem descends_iff (h : Spells links i tree) (hleaf : links.below c = []) :
    links.Descends i c ↔ c ∈ tree.items := by
  induction h with
  | @single i here =>
    have hbelow := Links.below_eq_of_getElem? here
    rw [Paired.items, List.mem_singleton]
    constructor
    · intro hd
      exact (hd.eq_of_below_nil hbelow).symm
    · rintro rfl
      exact .refl
  | @join i l r left right here _ _ ihleft ihright =>
    have hbelow := Links.below_eq_of_getElem? here
    rw [Paired.items, List.mem_append, ← ihleft, ← ihright]
    constructor
    · intro hd
      -- the way down starts at one of the two children, as the index itself is no leaf
      rcases hd.cases_head with rfl | ⟨k, hk, hd⟩
      · rw [hbelow] at hleaf
        simp at hleaf
      · rw [Links.Child, hbelow, List.mem_cons, List.mem_singleton] at hk
        rcases hk with rfl | rfl
        · exact .inl hd
        · exact .inr hd
    · have hchild : ∀ k ∈ [l, r], links.Child i k := by
        intro k hk
        rwa [Links.Child, hbelow]
      rintro (hd | hd)
      · exact .head (hchild l (by simp)) hd
      · exact .head (hchild r (by simp)) hd

/-- The digest at an index is that of the tree that it spells. -/
theorem digestAt_eq {t : Tree} {top : Rose} (u : t.Unfolds top) (h : Spells t.links i tree) :
    t.digestAt i = (tree.map t.digestAt).value t.algorithm := by
  induction h with
  | single here => rfl
  | @join i l r left right here _ _ ihleft ihright =>
    have hbelow := Links.below_eq_of_getElem? here
    rw [u.digestAt_eq i (by simp [hbelow]), hbelow]
    simp [Paired.map, Paired.value, ihleft, ihright]

end Spells

/-! ## §2 Levels that spell trees -/

namespace Growth

variable {a : Algorithm} {g : Growth} {tops done : List Top} {trees dones : List (Paired Nat)}

/-- The nodes of a level spell some trees, one by one. -/
def Spelling (g : Growth) (tops : List Top) (trees : List (Paired Nat)) : Prop :=
  List.Forall₂ (fun top tree => Spells (Cell.links g.cells.reverse) top.index tree) tops trees

/-- A join lists its children behind all others. -/
private theorem links_join (g : Growth) (children : List Top) :
    Cell.links (g.join a children).2.cells.reverse
      = Cell.links g.cells.reverse ++ [children.map (·.index)] := by
  simp [Growth.join, Cell.links, Content.children]

/-- A join keeps what is spelled. -/
private theorem Spelling.join (h : Spelling g tops trees) (children : List Top) :
    Spelling (g.join a children).2 tops trees := by
  apply List.Forall₂.imp _ h
  intro top tree hspells
  rw [links_join]
  exact hspells.append _

/-- The join of two nodes spells the join of their trees. -/
private theorem spells_join {left right : Top} {onLeft onRight : Paired Nat}
    (hcount : g.cells.length = g.count)
    (hleft : Spells (Cell.links g.cells.reverse) left.index onLeft)
    (hright : Spells (Cell.links g.cells.reverse) right.index onRight) :
    Spells (Cell.links (g.join a [left, right]).2.cells.reverse)
      (g.join a [left, right]).1.index (.join onLeft onRight) := by
  rw [links_join]
  apply Spells.join _ (hleft.append _) (hright.append _)
  -- the new cell stands at the end
  show (Cell.links g.cells.reverse ++ [[left.index, right.index]])[g.count]? = _
  rw [List.getElem?_append_right (by simp [hcount])]
  simp [hcount]

/-- The nodes of the next level spell **the next level** of trees. -/
private theorem spelling_pairUp (hcount : g.cells.length = g.count) (hdone : Spelling g done dones)
    (htops : Spelling g tops trees) :
    (pairUp a g tops done).2.cells.length = (pairUp a g tops done).2.count
      ∧ Spelling (pairUp a g tops done).2 (pairUp a g tops done).1
        (dones.reverse ++ Paired.pairs trees) := by
  fun_induction Growth.pairUp a g tops done generalizing trees dones with
  | case1 g done =>
    cases htops
    refine ⟨hcount, ?_⟩
    rw [Paired.pairs, List.append_nil]
    exact List.forall₂_reverse_iff.mpr hdone
  | case2 g single done =>
    obtain ⟨tree, rest, htree, hrest, rfl⟩ := List.forall₂_cons_left_iff.mp htops
    cases hrest
    refine ⟨hcount, ?_⟩
    rw [Paired.pairs, ← List.reverse_cons]
    exact List.forall₂_reverse_iff.mpr (.cons htree hdone)
  | case3 g left right rest done top g' hjoin ih =>
    obtain ⟨onLeft, _, hleft, hpair, rfl⟩ := List.forall₂_cons_left_iff.mp htops
    obtain ⟨onRight, trees, hright, hrest, rfl⟩ := List.forall₂_cons_left_iff.mp hpair
    -- the pair spells one tree, and the other nodes spell what they did
    have htop := spells_join (a := a) hcount hleft hright
    have hdone' := Spelling.join (a := a) hdone [left, right]
    have hrest' := Spelling.join (a := a) hrest [left, right]
    rw [hjoin] at htop hdone' hrest'
    have hcount' : g'.cells.length = g'.count := by
      rw [show g' = (g.join a [left, right]).2 from (congrArg Prod.snd hjoin).symm]
      exact congrArg (· + 1) hcount
    have hnext := ih hcount' (.cons htop hdone') hrest'
    simpa [Paired.pairs] using hnext

/-- What is left after the last level spells **the tree of the lowest one**. -/
private theorem spelling_grow (hcount : g.cells.length = g.count) (htops : Spelling g tops trees)
    (hne : tops ≠ []) :
    ∃ root tree, (grow a g tops).1 = some root ∧ Paired.ofLevel trees = some tree
      ∧ Spells (Cell.links (grow a g tops).2.cells.reverse) root.index tree := by
  fun_induction Growth.grow a g tops generalizing trees with
  | case1 => exact absurd rfl hne
  | case2 g root =>
    obtain ⟨tree, rest, htree, hrest, rfl⟩ := List.forall₂_cons_left_iff.mp htops
    cases hrest
    exact ⟨root, tree, rfl, Paired.ofLevel_singleton tree, htree⟩
  | case3 g left right rest next =>
    rename_i ih
    obtain ⟨hcount', hnext⟩ := spelling_pairUp (a := a) hcount .nil htops
    have hne' : next.1 ≠ [] := by
      intro hnil
      have hlength := length_pairUp a g (left :: right :: rest) []
      rw [show (pairUp a g (left :: right :: rest) []).1 = [] from hnil] at hlength
      simp at hlength
      omega
    obtain ⟨root, tree, hroot, htree, hspells⟩ := ih hcount' hnext hne'
    rw [List.reverse_nil, List.nil_append, Paired.ofLevel_pairs] at htree
    exact ⟨root, tree, hroot, htree, hspells⟩

end Growth

/-! ## §3 The tree that an arena of items spells -/

namespace Tree

open Paired

variable (a : Algorithm) (retain : Bool) {items : List Bytes}

/-- On the lowest level every node spells itself. -/
private theorem spelling_lowest (items : List Bytes) :
    Growth.Spelling ⟨(leafCells a retain items).reverse, (leafCells a retain items).length⟩
      (lowest a retain items) ((List.range items.length).map .single) := by
  rw [← lowest_indices a retain items, List.map_map, Growth.Spelling, List.forall₂_map_right_iff,
    List.forall₂_same]
  intro top htop
  apply Spells.single
  have hindex : top.index ∈ List.range items.length := by
    rw [← lowest_indices a retain items]
    exact List.mem_map_of_mem htop
  -- the cell of an item has no children
  have hlt : top.index < (leafCells a retain items).length := by
    rw [leafCells, List.length_map]
    exact List.mem_range.mp hindex
  simp [Cell.links, leafCells, Cell.ofPayload, Content.children, List.mem_range.mp hindex]

/-- The arena of some items spells the tree of their positions. -/
theorem exists_spelled (hne : items ≠ []) :
    ∃ root tree, (ofItems a retain items).root = some root
      ∧ Paired.ofList (List.range items.length) = some tree
      ∧ Spells (ofItems a retain items).links root tree := by
  have hlevel : lowest a retain items ≠ [] := by
    intro hnil
    have hindices := lowest_indices a retain items
    rw [hnil] at hindices
    exact hne (List.length_eq_zero_iff.mp (List.range_eq_nil.mp hindices.symm))
  obtain ⟨root, tree, hroot, htree, hspells⟩ := Growth.spelling_grow (a := a) (by simp)
    (spelling_lowest a retain items) hlevel
  refine ⟨root.index, tree, ?_, htree, ?_⟩
  · rw [ofItems_eq, show grown a retain items = (some root, _) from Prod.ext hroot rfl]
    rfl
  · rw [ofItems_eq, show grown a retain items = (some root, _) from Prod.ext hroot rfl,
      links_assemble]
    exact hspells

/-- The leaves carry the digests of the items, in their order. -/
theorem map_digestAt_range (items : List Bytes) :
    (List.range items.length).map (ofItems a retain items).digestAt = items.map a.digest := by
  apply List.ext_getElem
  · simp
  · intro k hk hk'
    have hlt : k < items.length := by simpa using hk'
    simpa using digestAt_ofItems a retain (List.getElem?_eq_getElem hlt)

/-- The root of a tree of items carries the digest of the tree of their digests. -/
theorem exists_value (hne : items ≠ []) :
    ∃ tree, Paired.ofList (items.map a.digest) = some tree
      ∧ (ofItems a retain items).rootDigest = .ok (tree.value a) := by
  obtain ⟨root, tree, hroot, htree, hspells⟩ := exists_spelled a retain hne
  obtain ⟨top, rfl, u⟩ := (ofItems_made a retain items).unfolds hroot
  refine ⟨tree.map (ofItems a retain items).digestAt, ?_, ?_⟩
  · rw [← map_digestAt_range a retain, Paired.ofList_map, htree]
    rfl
  · rw [u.rootDigest_eq, hspells.digestAt_eq u, algorithm_ofItems]

/-! ## §4 Halves -/

/-- The digest of some items **from the top**: that of a single item is its hash, and more items are
cut in two and hashed from the digests of both parts. Without items there is nothing to hash. -/
def splitDigest (items : List Bytes) : Digest :=
  match items with
  | [] => []
  | [item] => a.digest item
  | first :: second :: rest =>
    let count := cut (first :: second :: rest).length
    a.digest (splitDigest ((first :: second :: rest).take count)
      ++ splitDigest ((first :: second :: rest).drop count))
termination_by items.length
decreasing_by
  · exact (length_take_cut _ (by simp)).2
  · exact (length_drop_cut _ (by simp)).2

/-- The root has two children, and the leaves below the left one are those **in front of a
position**, while the others lie below the right one. -/
structure Halved (t : Tree) (position root left right : Nat) : Prop where
  root_eq : t.root = some root
  children_eq : t.childrenAt root = [left, right]
  left_covers : ∀ p i : Nat, t.leaves[p]? = some i → (t.links.Descends left i ↔ p < position)
  right_covers : ∀ p i : Nat, t.leaves[p]? = some i → (t.links.Descends right i ↔ position ≤ p)

/-- The digest of a part is that of the tree of the part. -/
private theorem rootDigest_part {part : List Bytes} {positions : List Nat} {tree : Paired Nat}
    {digest : Nat → Digest} (hne : part ≠ []) (hpart : positions.map digest = part.map a.digest)
    (htree : Paired.ofList positions = some tree) :
    (ofItems a retain part).rootDigest = .ok ((tree.map digest).value a) := by
  obtain ⟨whole, hwhole, hroot⟩ := exists_value a retain hne
  rw [← hpart, Paired.ofList_map, htree] at hwhole
  obtain rfl := Option.some.inj hwhole
  exact hroot

/-- Two items or more are cut in two, and their tree **joins the trees of both parts**. -/
theorem exists_halved (htwo : 2 ≤ items.length) :
    ∃ root left right dl dr, Halved (ofItems a retain items) (cut items.length) root left right
      ∧ (ofItems a retain items).digestAt left = dl
      ∧ (ofItems a retain items).digestAt right = dr
      ∧ (ofItems a retain (items.take (cut items.length))).rootDigest = .ok dl
      ∧ (ofItems a retain (items.drop (cut items.length))).rootDigest = .ok dr
      ∧ (ofItems a retain items).rootDigest = .ok (a.digest (dl ++ dr)) := by
  have hne : items ≠ [] := by
    rintro rfl
    simp at htwo
  have hlt := (isGreatest_cut htwo).1.2
  obtain ⟨root, tree, hroot, htree, hspells⟩ := exists_spelled a retain hne
  obtain ⟨top, rfl, u⟩ := (ofItems_made a retain items).unfolds hroot
  -- the positions are cut where the items are
  obtain ⟨onLeft, onRight, hleft, hright, hjoin⟩ :=
    Paired.ofList_eq_join (List.range items.length) (by rwa [List.length_range])
  rw [List.length_range] at hleft hright
  obtain rfl : tree = .join onLeft onRight := Option.some.inj (htree.symm.trans hjoin)
  cases hspells with
  | @join _ l r _ _ here hl hr =>
    have hdigests := map_digestAt_range a retain items
    have hleafAt : ∀ p i : Nat, (ofItems a retain items).leaves[p]? = some i →
        i = p ∧ p < items.length := by
      intro p i hp
      rw [leaves_ofItems, List.getElem?_toArray, List.getElem?_eq_some_iff] at hp
      obtain ⟨hlt, rfl⟩ := hp
      simpa using hlt
    have hroot := (Spells.join here hl hr).digestAt_eq u
    refine ⟨_, l, r, _, _, ⟨u.root_eq, ?_, fun p i hp => ?_, fun p i hp => ?_⟩,
      hl.digestAt_eq u, hr.digestAt_eq u, ?_, ?_, ?_⟩
    · rw [childrenAt_eq, Links.below_eq_of_getElem? here]
    · obtain ⟨rfl, hi⟩ := hleafAt p i hp
      rw [hl.descends_iff (u.below_leaf hp), items_of_ofList hleft, List.take_range]
      simp only [List.mem_range]
      omega
    · obtain ⟨rfl, hi⟩ := hleafAt p i hp
      rw [hr.descends_iff (u.below_leaf hp), items_of_ofList hright, List.range_eq_range',
        List.drop_range', List.mem_range'_1]
      omega
    · rw [algorithm_ofItems]
      apply rootDigest_part a retain _ _ hleft
      · exact List.ne_nil_of_length_pos (length_take_cut items htwo).1
      · rw [List.map_take, hdigests, List.map_take]
    · rw [algorithm_ofItems]
      apply rootDigest_part a retain _ _ hright
      · exact List.ne_nil_of_length_pos (length_drop_cut items htwo).1
      · rw [List.map_drop, hdigests, List.map_drop]
    · rw [u.rootDigest_eq, hroot, Paired.map, Paired.value, algorithm_ofItems]

/-- The tree built level by level has the digest of the recursion from the top. -/
theorem rootDigest_eq_splitDigest (hne : items ≠ []) :
    (ofItems a retain items).rootDigest = .ok (splitDigest a items) := by
  induction hn : items.length using Nat.strong_induction_on generalizing items with
  | _ n ih =>
    rcases items with - | ⟨first, - | ⟨second, rest⟩⟩
    · exact absurd rfl hne
    · obtain ⟨tree, htree, hroot⟩ := exists_value a retain hne
      rw [List.map_singleton, Paired.ofList, List.map_singleton, Paired.ofLevel_singleton] at htree
      obtain rfl := Option.some.inj htree
      rw [hroot, splitDigest]
      rfl
    · -- both parts are shorter
      have htwo : 2 ≤ (first :: second :: rest).length := by simp
      obtain ⟨root, left, right, dl, dr, -, -, -, hleft, hright, hroot⟩ :=
        exists_halved a retain htwo
      have hpos := length_take_cut _ htwo
      have hpos' := length_drop_cut _ htwo
      rw [ih _ (hn ▸ hpos.2) (List.ne_nil_of_length_pos hpos.1) rfl] at hleft
      rw [ih _ (hn ▸ hpos'.2) (List.ne_nil_of_length_pos hpos'.1) rfl] at hright
      rw [hroot, splitDigest, Except.ok.inj hleft, Except.ok.inj hright]

/-- **Level by level is by halves.** The digest of a single item is its hash. Two items or more are
cut at the largest power of two that is smaller than their number: the two children of the root
stand above the leaves of the two parts and carry the digests of the trees of the parts, from which
the root is hashed. So for any number of items the root has the digest of the recursion from the
top. -/
theorem rootDigest_halves (a : Algorithm) (retain : Bool) :
    (∀ item, (ofItems a retain [item]).rootDigest = .ok (a.digest item))
      ∧ (∀ items : List Bytes, 2 ≤ items.length →
        IsGreatest {m | (∃ height, m = 2 ^ height) ∧ m < items.length} (cut items.length)
          ∧ ∃ root left right dl dr,
            Halved (ofItems a retain items) (cut items.length) root left right
            ∧ (ofItems a retain items).digestAt left = dl
            ∧ (ofItems a retain items).digestAt right = dr
            ∧ (ofItems a retain (items.take (cut items.length))).rootDigest = .ok dl
            ∧ (ofItems a retain (items.drop (cut items.length))).rootDigest = .ok dr
            ∧ (ofItems a retain items).rootDigest = .ok (a.digest (dl ++ dr)))
      ∧ ∀ items : List Bytes, items ≠ [] →
        (ofItems a retain items).rootDigest = .ok (splitDigest a items) := by
  refine ⟨fun item => ?_, fun items htwo => ⟨isGreatest_cut htwo, exists_halved a retain htwo⟩,
    fun items hne => rootDigest_eq_splitDigest a retain hne⟩
  rw [rootDigest_eq_splitDigest a retain (List.cons_ne_nil item []), splitDigest]

/-- Of five items the last one is carried up twice and is hashed with the first four at the end. -/
theorem rootDigest_halves_five :
    ∃ dl, (ofItems .sha1 true [[1], [2], [3], [4]]).rootDigest = .ok dl
      ∧ (ofItems .sha1 true [[1], [2], [3], [4], [5]]).rootDigest
        = .ok (Algorithm.sha1.digest (dl ++ Algorithm.sha1.digest [5])) := by
  obtain ⟨hsingle, hhalves, -⟩ := rootDigest_halves .sha1 true
  obtain ⟨-, root, left, right, dl, dr, -, -, -, hleft, hright, hroot⟩ :=
    hhalves [[1], [2], [3], [4], [5]] (by decide)
  have hcut : cut ([[1], [2], [3], [4], [5]] : List Bytes).length = 4 := by decide
  rw [hcut] at hleft hright
  obtain rfl := Except.ok.inj (hright.symm.trans (hsingle [5]))
  exact ⟨dl, hleft, hroot⟩

end Tree

end HashTree
