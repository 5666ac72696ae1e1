import HashTree.Proofs.Tree.Growing
import HashTree.Tree.Levels

/-!
# Trees of items

Every level of a tree of items is made by joining pairs of tops. The arena keeps growing properly
from level to level, so what is left with the last top is a plan.
-/

namespace HashTree

namespace Growth

/-! ## §1 The state between two joins -/

/-- The state between two joins: the arena so far, last cell first, and its tops with their
digests. -/
structure Sound (a : Algorithm) (items : Nat) (g : Growth) (tops : List Top) : Prop where
  length_cells : g.cells.length = g.count
  growing : Growing a items g.cells.reverse (tops.map (·.index))
  digest_eq : ∀ top ∈ tops, (g.cells.reverse.map (·.digest)).getD top.index [] = top.digest

variable {a : Algorithm} {items : Nat} {g : Growth} {rest children : List Top}

namespace Sound

/-- A join puts the parent of some tops in their place. -/
theorem join (h : Sound a items g (children ++ rest)) (htwo : 2 ≤ children.length) :
    Sound a items (g.join a children).2 ((g.join a children).1 :: rest) := by
  have hchildren : children.flatMap (·.digest)
      = (children.map (·.index)).flatMap fun i => (g.cells.reverse.map (·.digest)).getD i [] := by
    rw [List.flatMap_map]
    exact List.flatMap_congr fun top htop =>
      (h.digest_eq top (List.mem_append_left _ htop)).symm
  have hlength : g.cells.reverse.length = g.count := by rw [List.length_reverse, h.length_cells]
  have hgrowing := h.growing
  rw [List.map_append] at hgrowing
  have hnext := hgrowing.join (by rwa [List.length_map]) (congrArg a.digest hchildren)
  refine ⟨by simp [Growth.join, h.length_cells], ?_, ?_⟩
  · rw [hlength] at hnext
    simpa [Growth.join] using hnext
  · have hdigests : (g.join a children).2.cells.reverse.map (·.digest)
        = g.cells.reverse.map (·.digest) ++ [(g.join a children).1.digest] := by
      simp [Growth.join]
    have hsize : (g.cells.reverse.map (·.digest)).length = g.count := by
      rw [List.length_map, hlength]
    intro top htop
    rw [hdigests, List.getD_eq_getElem?_getD]
    rcases List.mem_cons.mp htop with rfl | htop
    · rw [show (g.join a children).1.index = g.count from rfl, ← hsize]
      simp
    · have hmem := List.mem_append_right children htop
      have hlt : top.index < (g.cells.reverse.map (·.digest)).length := by
        rw [List.length_map]
        exact h.growing.top_lt (List.mem_map_of_mem hmem)
      rw [List.getElem?_append_left hlt, ← List.getD_eq_getElem?_getD]
      exact h.digest_eq top hmem

theorem perm {tops tops' : List Top} (h : Sound a items g tops) (hperm : tops.Perm tops') :
    Sound a items g tops' :=
  ⟨h.length_cells, h.growing.perm (hperm.map _),
    fun top htop => h.digest_eq top (hperm.mem_iff.mpr htop)⟩

/-- Joining **pairs** makes a level of the next. -/
theorem pairUp {level done : List Top} (h : Sound a items g (done ++ level)) :
    Sound a items (pairUp a g level done).2 (pairUp a g level done).1 := by
  fun_induction Growth.pairUp a g level done with
  | case1 g done => exact h.perm (by simp)
  | case2 g single done =>
    refine h.perm ?_
    rw [List.reverse_cons]
    exact (List.reverse_perm done).symm.append_right _
  | case3 g left right rest done top g' hjoin ih =>
    -- the pair comes to the front, is joined, and its parent goes to the nodes that are done
    have hpair : Sound a items g ([left, right] ++ (rest ++ done)) :=
      h.perm (List.perm_append_comm.trans (by simp))
    have hnext := hpair.join (by simp)
    rw [hjoin] at hnext
    exact ih (hnext.perm ((List.perm_append_comm.cons top)))

/-- Making level after level ends with **one top**. -/
theorem grow {level : List Top} (h : Sound a items g level) (hne : level ≠ []) :
    ∃ root, (Growth.grow a g level).1 = some root
      ∧ Sound a items (Growth.grow a g level).2 [root] := by
  fun_induction Growth.grow a g level with
  | case1 => exact absurd rfl hne
  | case2 g root => exact ⟨root, rfl, h⟩
  | case3 g left right rest next ih =>
    refine ih (Sound.pairUp (by simpa using h)) fun hnil => ?_
    have hlength := length_pairUp a g (left :: right :: rest) []
    rw [show (Growth.pairUp a g (left :: right :: rest) []).1 = [] from hnil] at hlength
    simp only [List.length_nil, List.length_cons] at hlength
    omega

end Sound

/-! ## §2 The shape of what grows -/

/-- Two states between joins **of one shape**: as many cells with the same child lists, and tops at
the same indices. Digests and payloads may differ. -/
private structure Alike (g h : Growth) (tops others : List Top) : Prop where
  count_eq : g.count = h.count
  links_eq : Cell.links g.cells = Cell.links h.cells
  tops_eq : tops.map (·.index) = others.map (·.index)

private theorem Alike.join {g h : Growth} {tops others children children' : List Top}
    (halike : Alike g h tops others)
    (hchildren : children.map (·.index) = children'.map (·.index)) :
    Alike (g.join a children).2 (h.join a children').2 tops others
      ∧ (g.join a children).1.index = (h.join a children').1.index := by
  refine ⟨⟨congrArg (· + 1) halike.count_eq, ?_, halike.tops_eq⟩, halike.count_eq⟩
  show children.map (·.index) :: Cell.links g.cells = children'.map (·.index) :: Cell.links h.cells
  rw [hchildren, halike.links_eq]

private theorem Alike.pairUp {g h : Growth} {level others done done' : List Top}
    (halike : Alike g h level others) (hdone : done.map (·.index) = done'.map (·.index)) :
    Alike (Growth.pairUp a g level done).2 (Growth.pairUp a h others done').2
      (Growth.pairUp a g level done).1 (Growth.pairUp a h others done').1 := by
  fun_induction Growth.pairUp a g level done generalizing h others done' with
  | case1 g done =>
    obtain rfl := List.map_eq_nil_iff.mp halike.tops_eq.symm
    exact ⟨halike.count_eq, halike.links_eq, by
      simp only [Growth.pairUp, List.map_reverse, hdone]⟩
  | case2 g single done =>
    obtain ⟨other, rfl, htop⟩ := List.map_eq_singleton_iff.mp halike.tops_eq.symm
    refine ⟨halike.count_eq, halike.links_eq, ?_⟩
    simp only [Growth.pairUp, List.map_reverse, List.map_cons, hdone, htop]
  | case3 g left right rest done top g' hjoin ih =>
    obtain ⟨left', _, rfl, hleft, htops⟩ := List.map_eq_cons_iff.mp halike.tops_eq.symm
    obtain ⟨right', rest', rfl, hright, hrest⟩ := List.map_eq_cons_iff.mp htops
    have hpair : [left, right].map (·.index) = [left', right'].map (·.index) := by
      simp [hleft, hright]
    obtain ⟨hnext, htop⟩ := (Alike.mk halike.count_eq halike.links_eq hrest.symm).join hpair
    rw [hjoin] at hnext htop
    exact @ih _ rest' ((h.join a [left', right']).1 :: done') hnext
      (List.cons_eq_cons.mpr ⟨htop, hdone⟩)

/-- The shape depends on nothing but the **number** of tops. -/
private theorem Alike.grow (g : Growth) (level : List Top) :
    ∀ {h : Growth} {others : List Top}, Alike g h level others →
      Alike (Growth.grow a g level).2 (Growth.grow a h others).2
        (Growth.grow a g level).1.toList (Growth.grow a h others).1.toList := by
  fun_induction Growth.grow a g level with
  | case1 g =>
    intro h others halike
    obtain rfl := List.map_eq_nil_iff.mp halike.tops_eq.symm
    rw [Growth.grow]
    exact halike
  | case2 g root =>
    intro h others halike
    obtain ⟨other, rfl, -⟩ := List.map_eq_singleton_iff.mp halike.tops_eq.symm
    rw [Growth.grow]
    exact halike
  | case3 g left right rest next =>
    rename_i ih
    intro h others halike
    obtain ⟨left', _, rfl, -, htops⟩ := List.map_eq_cons_iff.mp halike.tops_eq.symm
    obtain ⟨right', rest', rfl, -, -⟩ := List.map_eq_cons_iff.mp htops
    rw [Growth.grow]
    exact ih (halike.pairUp rfl)

private theorem suffix_pairUp (g : Growth) (level done : List Top) :
    g.cells <:+ (Growth.pairUp a g level done).2.cells := by
  fun_induction Growth.pairUp a g level done with
  | case1 => exact List.suffix_rfl
  | case2 => exact List.suffix_rfl
  | case3 g left right rest done top g' hjoin ih =>
    refine List.IsSuffix.trans ?_ ih
    rw [show g' = (g.join a [left, right]).2 from (congrArg Prod.snd hjoin).symm]
    exact List.suffix_cons _ _

private theorem suffix_grow (g : Growth) (level : List Top) :
    g.cells <:+ (Growth.grow a g level).2.cells := by
  fun_induction Growth.grow a g level with
  | case1 => exact List.suffix_rfl
  | case2 => exact List.suffix_rfl
  | case3 g left right rest next ih => exact (suffix_pairUp _ _ _).trans ih

end Growth

namespace Tree

variable (a : Algorithm) (retain : Bool) (items : List Bytes)

/-! ## §3 Trees of items -/

/-- The cells of the leaves. -/
def leafCells : List Cell := items.map (Cell.ofPayload a retain)

/-- The lowest level. -/
def lowest : List Top :=
  (leafCells a retain items).zipIdx.map fun (cell, index) => ⟨index, cell.digest⟩

theorem lowest_indices :
    (lowest a retain items).map (·.index) = List.range items.length := by
  rw [lowest, List.map_map, ← List.length_map (f := Cell.ofPayload a retain),
    List.range_eq_range', ← List.zipIdx_map_snd]
  rfl

private theorem ofPayload_sound (digests : List Digest) (payload : Bytes) :
    (Cell.ofPayload a retain payload).Sound a digests := by
  refine ⟨a.length_digest payload, fun b hb => ?_⟩
  cases retain with
  | true => rw [← Option.some.inj hb]; rfl
  | false => simp at hb

/-- On the lowest level every item is a top. -/
private theorem lowest_sound :
    Growth.Sound a items.length
      ⟨(leafCells a retain items).reverse, (leafCells a retain items).length⟩
      (lowest a retain items) := by
  refine ⟨List.length_reverse, ?_, fun top htop => ?_⟩
  · rw [List.reverse_reverse, lowest_indices]
    rw [show items.length = (leafCells a retain items).length from (List.length_map _).symm]
    refine Growing.of_leaves (fun cell hcell => ?_) fun cell hcell => ?_
    · obtain ⟨payload, -, rfl⟩ := List.mem_map.mp hcell
      rfl
    · obtain ⟨payload, -, rfl⟩ := List.mem_map.mp hcell
      exact ofPayload_sound a retain _ payload
  · obtain ⟨⟨cell, index⟩, hmem, rfl⟩ := List.mem_map.mp htop
    rw [List.reverse_reverse, List.getD_eq_getElem?_getD, List.getElem?_map,
      List.mem_zipIdx_iff_getElem?.mp hmem]
    rfl

/-- Without items there is no node. -/
@[simp]
theorem ofItems_nil : ofItems a retain [] = empty a := by
  simp [ofItems, Growth.grow]

/-- What grows from the leaves of some items. -/
def grown : Option Top × Growth :=
  Growth.grow a ⟨(leafCells a retain items).reverse, (leafCells a retain items).length⟩
    (lowest a retain items)

theorem ofItems_eq : ofItems a retain items
    = match grown a retain items with
      | (none, _) => empty a
      | (some root, g) => assemble a g.cells.reverse (List.range items.length) root.index := rfl

/-- Something grows from some items: one top, over the leaf cells. -/
theorem exists_grown (hne : items ≠ []) : ∃ root g, grown a retain items = (some root, g)
    ∧ Growth.Sound a items.length g [root] ∧ leafCells a retain items <+: g.cells.reverse := by
  have hlevel : lowest a retain items ≠ [] := fun hnil => by
    have hindices := lowest_indices a retain items
    rw [hnil] at hindices
    exact hne (List.length_eq_zero_iff.mp (List.range_eq_nil.mp hindices.symm))
  obtain ⟨root, hroot, hsound⟩ := (lowest_sound a retain items).grow hlevel
  refine ⟨root, (grown a retain items).2, Prod.ext hroot rfl, hsound, ?_⟩
  rw [← List.reverse_suffix, List.reverse_reverse]
  exact Growth.suffix_grow ⟨(leafCells a retain items).reverse, _⟩ (lowest a retain items)

/-- A tree of some items is assembled from a plan whose leaves are the first cells. -/
theorem exists_plan_ofItems (hne : items ≠ []) :
    ∃ cells root, Planned a cells (List.range items.length) root
      ∧ ofItems a retain items = assemble a cells (List.range items.length) root := by
  obtain ⟨root, g, hgrown, hsound, -⟩ := exists_grown a retain items hne
  refine ⟨_, root.index, hsound.growing.planned, ?_⟩
  rw [ofItems_eq, hgrown]

/-- A tree of items is empty or assembled from a plan. -/
theorem ofItems_made : (ofItems a retain items).Made := by
  by_cases hne : items = []
  · rw [hne, ofItems_nil]
    exact .empty a
  · obtain ⟨cells, root, hplan, htree⟩ := exists_plan_ofItems a retain items hne
    rw [htree]
    exact .assembled hplan

/-! ## §4 The shape of a tree of items -/

variable {items} {others : List Bytes} (retain' : Bool)

private theorem grown_alike (hlength : items.length = others.length) :
    Growth.Alike (grown a retain items).2 (grown a retain' others).2
      (grown a retain items).1.toList (grown a retain' others).1.toList := by
  have hcells : ∀ (retain : Bool) (items : List Bytes),
      Cell.links (leafCells a retain items).reverse = List.replicate items.length [] := by
    intro retain items
    rw [leafCells, Cell.links, ← List.map_reverse, List.map_map, ← List.length_reverse]
    exact List.map_const'
  refine Growth.Alike.grow _ _ ⟨?_, ?_, ?_⟩
  · show (leafCells a retain items).length = (leafCells a retain' others).length
    rw [leafCells, leafCells, List.length_map, List.length_map, hlength]
  · rw [hcells, hcells, hlength]
  · rw [lowest_indices, lowest_indices, hlength]

/-- Trees of **as many items** have one shape: the same child lists and root. -/
theorem ofItems_alike (hlength : items.length = others.length) :
    (ofItems a retain items).links = (ofItems a retain' others).links
      ∧ (ofItems a retain items).root = (ofItems a retain' others).root := by
  have halike := grown_alike a retain retain' hlength
  rw [ofItems_eq, ofItems_eq]
  generalize grown a retain items = result at halike ⊢
  generalize grown a retain' others = result' at halike ⊢
  obtain ⟨top, g⟩ := result
  obtain ⟨top', g'⟩ := result'
  have htops := halike.tops_eq
  have hlinks := halike.links_eq
  cases top with
  | none =>
    cases top' with
    | none => exact ⟨rfl, rfl⟩
    | some root' => simp at htops
  | some root =>
    cases top' with
    | none => simp at htops
    | some root' =>
      have hreverse : Cell.links g.cells.reverse = Cell.links g'.cells.reverse := by
        rw [Cell.links, Cell.links, List.map_reverse, List.map_reverse]
        exact congrArg List.reverse hlinks
      exact ⟨by simpa using hreverse, congrArg some (List.cons.inj htops).1⟩

/-- The leaves stand in front, in the order of the items. -/
theorem leaves_ofItems (retain : Bool) :
    (ofItems a retain items).leaves = (List.range items.length).toArray := by
  by_cases hne : items = []
  · rw [hne, ofItems_nil]
    rfl
  · obtain ⟨cells, root, -, htree⟩ := exists_plan_ofItems a retain items hne
    rw [htree]
    rfl

@[simp]
theorem algorithm_ofItems (retain : Bool) : (ofItems a retain items).algorithm = a := by
  by_cases hne : items = []
  · rw [hne, ofItems_nil]
    rfl
  · obtain ⟨cells, root, -, htree⟩ := exists_plan_ofItems a retain items hne
    rw [htree]
    rfl

/-- The node at the position of an item is the leaf **of that item**. -/
theorem exists_node_ofItems (retain : Bool) {k : Nat} {b : Bytes} (hk : items[k]? = some b) :
    ∃ parent, (ofItems a retain items).nodes[k]?
      = some ⟨a, (Cell.ofPayload a retain b).digest, parent, (Cell.ofPayload a retain b).content⟩ := by
  have hne : items ≠ [] := List.ne_nil_of_mem (List.mem_of_getElem? hk)
  obtain ⟨root, g, hgrown, -, more, hmore⟩ := exists_grown a retain items hne
  have hget : (leafCells a retain items)[k]? = some (Cell.ofPayload a retain b) := by
    rw [leafCells, List.getElem?_map, hk]
    rfl
  have hcell : g.cells.reverse[k]? = some (Cell.ofPayload a retain b) := by
    rw [← hmore, List.getElem?_append_left (List.getElem?_eq_some_iff.mp hget).1, hget]
  have hnode := getElem?_assemble a g.cells.reverse (List.range items.length) root.index k
  rw [hcell] at hnode
  rw [ofItems_eq, hgrown]
  exact ⟨_, hnode⟩

/-- The leaf of an item carries **its digest**. -/
theorem digestAt_ofItems (retain : Bool) {k : Nat} {b : Bytes} (hk : items[k]? = some b) :
    (ofItems a retain items).digestAt k = a.digest b := by
  obtain ⟨parent, hnode⟩ := exists_node_ofItems a retain hk
  rw [digestAt, hnode]
  rfl

end Tree

end HashTree
