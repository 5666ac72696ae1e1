import HashTree.Proofs.Tree.LevelOrder

/-!
# Equality of trees of items

Two trees count as the same when they have as many nodes and carry the same digests in level order.
Nothing is compared of how the nodes hang together, of the order of the leaves or of what kind a
node is. For trees of items nothing is lost by that: the number of nodes tells the number of items,
this tells the shape, and the shape tells where in level order each item stands.

So trees of items are the same just when their items have the same digests in order, whether the
payloads were kept or not, and then nothing but the payloads tells them apart.
-/

namespace HashTree

/-! ## §1 What is compared -/

/-- What is compared of a node. -/
def Node.identity (n : Node) : Algorithm × Digest := (n.algorithm, n.digest)

theorem Node.same_iff {m n : Node} : m.same n = true ↔ m.identity = n.identity := by
  simp [Node.same, Node.identity]

theorem Node.isEqv_same_iff {nodes others : List Node} :
    nodes.isEqv others Node.same = true ↔ nodes.map identity = others.map identity := by
  induction nodes generalizing others with
  | nil => cases others <;> simp
  | cons n nodes ih =>
    cases others with
    | nil => simp
    | cons m others => simp [List.isEqv_cons_cons, Node.same_iff, ih]

namespace Tree

variable {t u : Tree}

theorem same_iff : t.same u = true ↔ t.algorithm = u.algorithm ∧ t.size = u.size
    ∧ (t.nodesAt t.levelOrder).map Node.identity = (u.nodesAt u.levelOrder).map Node.identity := by
  simp only [same, Bool.and_eq_true, beq_iff_eq, Node.isEqv_same_iff, and_assoc]

/-- Trees that carry the same in **one order of indices** carry the same at every index of it. -/
theorem digestAt_eq_of_map_identity {order : List Nat} (ht : ∀ i ∈ order, i < t.nodes.size)
    (hu : ∀ i ∈ order, i < u.nodes.size)
    (h : (t.nodesAt order).map Node.identity = (u.nodesAt order).map Node.identity) :
    ∀ i ∈ order, t.digestAt i = u.digestAt i := by
  have hidentity : order.map (fun i => t.nodes[i]?.map Node.identity)
      = order.map fun i => u.nodes[i]?.map Node.identity := by
    have hsome := congrArg (List.map some) h
    have hmap : ∀ nodes : List Node, (nodes.map Node.identity).map some
        = (nodes.map some).map (Option.map Node.identity) := fun nodes => by simp
    rw [hmap, hmap, map_some_nodesAt ht, map_some_nodesAt hu, List.map_map, List.map_map] at hsome
    exact hsome
  intro i hi
  have hat := congrArg (Option.map Prod.snd) (List.map_inj_left.mp hidentity i hi)
  rw [Option.map_map, Option.map_map] at hat
  exact congrArg (Option.getD · []) hat

/-- The level order has **every index** of the arena, and no other. -/
theorem Made.mem_levelOrder_iff {i : Nat} (h : t.Made) : i ∈ t.levelOrder ↔ i < t.nodes.size := by
  cases h with
  | empty a =>
    have hnil : (Tree.empty a).levelOrder = [] := by
      rw [levelOrder, Walk.toList]
      cases (Tree.empty a).walk.below.size <;> rfl
    rw [hnil]
    exact iff_of_false List.not_mem_nil (Nat.not_lt_zero i)
  | @assembled a cells leaves root plan =>
    -- all indices of a plan lie at or below its root
    have hplanted := plan.planted
    rw [← links_assemble a cells leaves root] at hplanted
    have hroot : root < (assemble a cells leaves root).nodes.size := by
      simpa using plan.planted.root_lt
    rw [show (assemble a cells leaves root).levelOrder
      = (assemble a cells leaves root).levelOrderFrom root from rfl,
      mem_levelOrderFrom_iff hplanted hroot, ← length_links]
    exact ⟨hplanted.descends_lt (by rwa [length_links]), hplanted.descends i⟩

end Tree

/-! ## §2 Trees without payloads -/

/-- The same content, and no payload. -/
def Content.bare : Content → Content
  | leaf _ => leaf none
  | internal children => internal children

/-- The same cell, and no payload. -/
def Cell.bare (cell : Cell) : Cell := { cell with content := cell.content.bare }

/-- The same node, and no payload. -/
def Node.bare (n : Node) : Node := { n with content := n.content.bare }

/-- The same tree, and **no payloads**. -/
def Tree.bare (t : Tree) : Tree := { t with nodes := t.nodes.map Node.bare }

@[simp]
theorem Content.children_bare (content : Content) : content.bare.children = content.children := by
  cases content <;> rfl

@[simp]
theorem Cell.links_bare (cells : List Cell) :
    Cell.links (cells.map Cell.bare) = Cell.links cells := by
  simp [Cell.links, Cell.bare, Function.comp_def]

namespace Tree

@[simp]
theorem below_bare (t : Tree) : t.bare.below = t.below := by
  simp [below, bare, Node.bare, Node.children, Function.comp_def]

theorem levelOrder_bare (t : Tree) : t.bare.levelOrder = t.levelOrder := by
  rw [levelOrder, walk, below_bare]
  rfl

theorem map_identity_nodesAt_bare (t : Tree) (order : List Nat) :
    (t.bare.nodesAt order).map Node.identity = (t.nodesAt order).map Node.identity := by
  simp only [nodesAt, bare, List.map_filterMap, Array.getElem?_map, Option.map_map]
  rfl

/-- Trees that differ in nothing but payloads count as the same. -/
theorem same_of_bare_eq {t u : Tree} (h : t.bare = u.bare) : t.same u = true := by
  have halgorithm : t.bare.algorithm = u.bare.algorithm := congrArg Tree.algorithm h
  have hsize : t.bare.size = u.bare.size := congrArg size h
  have hidentity : (t.bare.nodesAt t.bare.levelOrder).map Node.identity
      = (u.bare.nodesAt u.bare.levelOrder).map Node.identity := by rw [h]
  rw [map_identity_nodesAt_bare, map_identity_nodesAt_bare, levelOrder_bare,
    levelOrder_bare] at hidentity
  exact same_iff.mpr ⟨halgorithm, by simpa [size, bare] using hsize, hidentity⟩

/-- A tree is the same as itself. -/
theorem same_self (t : Tree) : t.same t = true := same_of_bare_eq rfl

theorem bare_empty (a : Algorithm) : (empty a).bare = empty a := by
  simp [bare, empty]

theorem bare_assemble (a : Algorithm) (cells : List Cell) (leaves : List Nat) (root : Nat) :
    (assemble a cells leaves root).bare = assemble a (cells.map Cell.bare) leaves root := by
  have hnodes : (assemble a cells leaves root).nodes.map Node.bare
      = (assemble a (cells.map Cell.bare) leaves root).nodes := by
    refine Array.ext_getElem? fun i => ?_
    rw [Array.getElem?_map, getElem?_assemble, getElem?_assemble, Cell.links_bare, List.length_map,
      List.getElem?_map, Option.map_map, Option.map_map]
    rfl
  rw [bare, hnodes]
  rfl

end Tree

/-! ## §3 What grows from some digests -/

namespace Growth

variable {a : Algorithm}

/-- The same growth, and no payloads. -/
def bare (g : Growth) : Growth := { g with cells := g.cells.map Cell.bare }

theorem join_bare (g : Growth) (children : List Top) :
    g.bare.join a children = ((g.join a children).1, (g.join a children).2.bare) := rfl

theorem pairUp_bare (g : Growth) (level done : List Top) :
    pairUp a g.bare level done = ((pairUp a g level done).1, (pairUp a g level done).2.bare) := by
  fun_induction pairUp a g level done with
  | case1 => rfl
  | case2 => rfl
  | case3 g left right rest done top g' hjoin ih =>
    rw [pairUp, join_bare, hjoin]
    exact ih

/-- Payloads have **no part in growing**. -/
theorem grow_bare (g : Growth) (level : List Top) :
    grow a g.bare level = ((grow a g level).1, (grow a g level).2.bare) := by
  fun_induction grow a g level with
  | case1 => rw [grow]
  | case2 => rw [grow]
  | case3 g left right rest next ih =>
    rw [grow, pairUp_bare]
    exact ih

/-- A join makes one cell and takes one top away. -/
theorem count_pairUp (g : Growth) (level done : List Top) :
    (pairUp a g level done).2.count + (pairUp a g level done).1.length
      = g.count + level.length + done.length := by
  fun_induction pairUp a g level done with
  | case1 => simp
  | case2 => simp; omega
  | case3 g left right rest done top g' hjoin ih =>
    have hcount : g'.count = g.count + 1 := congrArg (·.2.count) hjoin.symm
    rw [ih, hcount]
    simp only [List.length_cons]
    omega

/-- One top is left, so all others but one were **taken away by a join each**. -/
theorem count_grow (g : Growth) {level : List Top} (hne : level ≠ []) :
    (grow a g level).2.count + 1 = g.count + level.length := by
  fun_induction grow a g level with
  | case1 => exact absurd rfl hne
  | case2 => rfl
  | case3 g left right rest next ih =>
    have hcount := count_pairUp (a := a) g (left :: right :: rest) []
    have hlength := length_pairUp a g (left :: right :: rest) []
    have hnext : next.1 ≠ [] := by
      rw [← List.length_pos_iff, hlength]
      simp only [List.length_cons, List.length_nil]
      omega
    rw [ih hnext]
    simpa using hcount

end Growth

namespace Tree

variable (a : Algorithm) (retain retain' : Bool) {items others : List Bytes}

/-- A tree of items has **two nodes for each item**, less one. -/
theorem size_ofItems (items : List Bytes) :
    (ofItems a retain items).size = 2 * items.length - 1 := by
  by_cases hne : items = []
  · rw [hne, ofItems_nil]
    rfl
  · obtain ⟨root, g, hgrown, hsound, -⟩ := exists_grown a retain items hne
    have hlevel : (lowest a retain items).length = items.length := by
      rw [← List.length_map (f := (·.index)), lowest_indices, List.length_range]
    have hlowest : lowest a retain items ≠ [] := by
      rw [← List.length_pos_iff, hlevel]
      exact List.length_pos_iff.mpr hne
    -- the lowest level has a cell and a top for each item, and at the end one top is left
    have hcount := Growth.count_grow (a := a)
      ⟨(leafCells a retain items).reverse, (leafCells a retain items).length⟩ hlowest
    rw [← grown, hgrown, hlevel, leafCells, List.length_map] at hcount
    rw [ofItems_eq, hgrown]
    show (assemble a g.cells.reverse (List.range items.length) root.index).nodes.size = _
    rw [size_nodes_assemble, List.length_reverse, hsound.length_cells]
    simp only at hcount
    omega

/-- The tree over leaves with some digests, of which no payload is known. -/
def ofDigests (digests : List Digest) : Tree :=
  match Growth.grow a ⟨(digests.map fun d => ⟨d, .leaf none⟩).reverse, digests.length⟩
    (digests.zipIdx.map fun entry => ⟨entry.2, entry.1⟩) with
  | (none, _) => empty a
  | (some root, g) => assemble a g.cells.reverse (List.range digests.length) root.index

/-- Apart from payloads a tree of items depends on **nothing but the digests** of the items. -/
theorem bare_ofItems (items : List Bytes) :
    (ofItems a retain items).bare = ofDigests a (items.map a.digest) := by
  have hcells : ((items.map a.digest).map fun d => (⟨d, .leaf none⟩ : Cell)).reverse
      = (leafCells a retain items).reverse.map Cell.bare := by
    rw [leafCells, ← List.map_reverse, ← List.map_reverse, ← List.map_reverse, List.map_map,
      List.map_map]
    rfl
  have hlowest : ((items.map a.digest).zipIdx.map fun entry => (⟨entry.2, entry.1⟩ : Top))
      = lowest a retain items := by
    rw [lowest, leafCells, List.zipIdx_map, List.zipIdx_map, List.map_map, List.map_map]
    rfl
  have hlength : (items.map a.digest).length = (leafCells a retain items).length := by
    rw [leafCells, List.length_map, List.length_map]
  -- growing takes nothing from the leaves but their digests
  have hgrown : Growth.grow a
      ⟨((items.map a.digest).map fun d => ⟨d, .leaf none⟩).reverse, (items.map a.digest).length⟩
      ((items.map a.digest).zipIdx.map fun entry => ⟨entry.2, entry.1⟩)
      = ((grown a retain items).1, (grown a retain items).2.bare) := by
    rw [hcells, hlowest, hlength]
    exact Growth.grow_bare ⟨(leafCells a retain items).reverse, _⟩ _
  rw [ofDigests, hgrown, ofItems_eq, List.length_map]
  obtain ⟨top, g⟩ := grown a retain items
  cases top with
  | none => exact bare_empty a
  | some root =>
    dsimp only
    rw [bare_assemble, List.map_reverse]
    rfl

/-- Trees of items that count as the same are trees of **items with the same digests**. -/
theorem map_digest_eq_of_same
    (h : (ofItems a retain items).same (ofItems a retain' others) = true) :
    items.map a.digest = others.map a.digest := by
  obtain ⟨-, hsize, hidentity⟩ := same_iff.mp h
  have hnodes : (ofItems a retain items).nodes.size = (ofItems a retain' others).nodes.size := hsize
  rw [size_ofItems, size_ofItems] at hsize
  have hlength : items.length = others.length := by omega
  -- the number of nodes gave that of the items; trees of one shape have one level order, and it
  -- has every leaf
  obtain ⟨hlinks, hroot⟩ := ofItems_alike a retain retain' hlength
  have horder : (ofItems a retain items).levelOrder = (ofItems a retain' others).levelOrder := by
    rw [levelOrder, levelOrder, walk, walk, below_eq, below_eq, hlinks, hroot]
  have hmade := ofItems_made a retain items
  rw [← horder] at hidentity
  have hdigest := digestAt_eq_of_map_identity (fun i hi => hmade.mem_levelOrder_iff.mp hi)
    (fun i hi => hnodes ▸ hmade.mem_levelOrder_iff.mp hi) hidentity
  refine List.ext_getElem (by simpa using hlength) fun k hk hk' => ?_
  rw [List.length_map] at hk hk'
  have hat := hdigest k (hmade.mem_levelOrder_iff.mpr (by
    rw [← size, size_ofItems]
    omega))
  rw [digestAt_ofItems a retain (List.getElem?_eq_getElem hk),
    digestAt_ofItems a retain' (List.getElem?_eq_getElem hk')] at hat
  simpa using hat

/-! ## §4 Equality -/

/-- **Equality of trees of items is equality of the digests of their items, in order.** Whether the
payloads were kept makes no difference, and trees that count as the same agree in everything else:
the digests, children and parents of all nodes, the order of the leaves and the root. -/
theorem same_ofItems_iff (items others : List Bytes) :
    ((ofItems a retain items).same (ofItems a retain' others) = true
        ↔ items.map a.digest = others.map a.digest)
      ∧ ((ofItems a retain items).bare = (ofItems a retain' others).bare
        ↔ items.map a.digest = others.map a.digest) := by
  have hbare (h : items.map a.digest = others.map a.digest) :
      (ofItems a retain items).bare = (ofItems a retain' others).bare := by
    rw [bare_ofItems, bare_ofItems, h]
  refine ⟨⟨map_digest_eq_of_same a retain retain', fun h => same_of_bare_eq (hbare h)⟩,
    fun h => ?_, hbare⟩
  exact map_digest_eq_of_same a retain retain' (same_of_bare_eq h)

end Tree

end HashTree
