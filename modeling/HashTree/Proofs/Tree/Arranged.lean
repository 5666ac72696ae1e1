import HashTree.Proofs.Tree.Layout
import HashTree.Proofs.Tree.Shape

/-!
# The arrangement of a layout

Laying out a form puts its leaves in front, from left to right, and its branches behind them in
postorder, the root last. Whatever parts have been placed, the tops that they left unfold to trees
of indices that spell out the forms, and in the postorder of these trees the leaves and the branches
are numbered **without gaps**.
-/

namespace HashTree

/-- What a node carries, apart from its parent. -/
def Node.cell (n : Node) : Cell := ⟨n.digest, n.content⟩

/-- The cells of an arena. -/
def Tree.cells (t : Tree) : List Cell := t.nodes.toList.map Node.cell

@[simp]
theorem Tree.cells_assemble (a : Algorithm) (cells : List Cell) (leaves : List Nat) (root : Nat) :
    (assemble a cells leaves root).cells = cells := by
  apply List.ext_getElem?
  intro i
  simp [Tree.cells, getElem?_assemble]
  cases cells[i]? <;> rfl

namespace Form

/-! ## §1 Forms that cells spell -/

/-- At an index some cells **spell out** a form. -/
inductive At (cells : List Cell) : Nat → Form → Prop where
  /-- A leaf stands there with its digest and payload. -/
  | leaf {i : Nat} {digest : Digest} {payload : Option Bytes}
    (here : cells[i]? = some ⟨digest, .leaf payload⟩) : At cells i (.leaf digest payload)
  /-- A branch stands there with its digest, and its children spell the forms below one by one. -/
  | branch {i : Nat} {digest : Digest} {below : List (Nat × Form)}
    (here : cells[i]? = some ⟨digest, .internal (below.map Prod.fst)⟩)
    (spelled : ∀ child ∈ below, At cells child.1 child.2) :
    At cells i (.branch digest (below.map Prod.snd))

/-- What stands among the first cells stands among all. -/
private theorem getElem?_grow {α : Type} {xs ys : List α} {i : Nat} {x : α}
    (hgrows : xs <+: ys) (h : xs[i]? = some x) : ys[i]? = some x := by
  obtain ⟨more, rfl⟩ := hgrows
  rw [List.getElem?_append_left (List.getElem?_eq_some_iff.mp h).1, h]

/-- Further cells change nothing. -/
theorem At.grow {cells more : List Cell} {i : Nat} {form : Form} (h : At cells i form)
    (hgrows : cells <+: more) : At more i form := by
  induction h with
  | leaf here => exact .leaf (getElem?_grow hgrows here)
  | branch here _ ih => exact .branch (getElem?_grow hgrows here) ih

private theorem follows_grow {cells more : List Cell} {r : Rose}
    (h : r.Follows (Cell.links cells)) (hgrows : cells <+: more) :
    r.Follows (Cell.links more) := by
  induction h with
  | node here _ ih => exact .node (getElem?_grow (hgrows.map _) here) ih

/-! ## §2 What placing leaves -/

namespace Placing

variable {leaves : List Cell} {p q r : Placing} {tops more : List (Rose × Form)}

/-- From the first state to the second some forms were placed: each left a top, whose tree of
indices spells it out. The trees hold the next leaves and the next branches, **in this order**. -/
structure Lays (leaves : List Cell) (p q : Placing) (tops : List (Rose × Form)) : Prop where
  loose_eq : q.loose = (tops.map (·.1.index)).reverse ++ p.loose
  grows : p.Extends leaves q
  spelled : ∀ top ∈ tops, At (q.cells leaves) top.1.index top.2
    ∧ top.1.Follows (Cell.links (q.cells leaves))
  nextLeaf_le : p.nextLeaf ≤ q.nextLeaf
  nextBranch_le : p.nextBranch ≤ q.nextBranch
  leaves_eq : (tops.flatMap (·.1.postorder)).filter (· < leaves.length)
    = List.range' p.nextLeaf (q.nextLeaf - p.nextLeaf)
  branches_eq : (tops.flatMap (·.1.postorder)).filter (leaves.length ≤ ·)
    = List.range' p.nextBranch (q.nextBranch - p.nextBranch)

/-- The next branch is numbered behind all cells. -/
def Numbered (leaves : List Cell) (p : Placing) : Prop :=
  p.nextBranch = leaves.length + p.branches.length

namespace Lays

theorem refl (leaves : List Cell) (p : Placing) : Lays leaves p p [] := by
  refine ⟨rfl, List.prefix_rfl, by simp, le_rfl, le_rfl, ?_, ?_⟩
  · simp
  · simp

private theorem range'_join {i j k : Nat} (hij : i ≤ j) (hjk : j ≤ k) :
    List.range' i (j - i) ++ List.range' j (k - j) = List.range' i (k - i) := by
  have hstart : i + (j - i) = j := by omega
  have hcount : (j - i) + (k - j) = k - i := by omega
  have hjoin := List.range'_append_1 (s := i) (m := j - i) (n := k - j)
  rwa [hstart, hcount] at hjoin

/-- Forms are placed one after the other. -/
theorem trans (hpq : Lays leaves p q tops) (hqr : Lays leaves q r more) :
    Lays leaves p r (tops ++ more) where
  loose_eq := by
    rw [hqr.loose_eq, hpq.loose_eq, List.map_append, List.reverse_append, List.append_assoc]
  grows := hpq.grows.trans hqr.grows
  spelled top htop := by
    rcases List.mem_append.mp htop with htop | htop
    · obtain ⟨hat, hfollows⟩ := hpq.spelled top htop
      exact ⟨hat.grow hqr.grows, follows_grow hfollows hqr.grows⟩
    · exact hqr.spelled top htop
  nextLeaf_le := hpq.nextLeaf_le.trans hqr.nextLeaf_le
  nextBranch_le := hpq.nextBranch_le.trans hqr.nextBranch_le
  leaves_eq := by
    rw [List.flatMap_append, List.filter_append, hpq.leaves_eq, hqr.leaves_eq,
      range'_join hpq.nextLeaf_le hqr.nextLeaf_le]
  branches_eq := by
    rw [List.flatMap_append, List.filter_append, hpq.branches_eq, hqr.branches_eq,
      range'_join hpq.nextBranch_le hqr.nextBranch_le]

end Lays

/-- A leaf takes the next place among the leaves. -/
theorem lays_leaf {digest : Digest} {payload : Option Bytes}
    (hnext : leaves[p.nextLeaf]? = some ⟨digest, .leaf payload⟩) :
    Lays leaves p (p.place (.leaf digest payload))
      [(.node p.nextLeaf [], .leaf digest payload)] := by
  have hlt := (List.getElem?_eq_some_iff.mp hnext).1
  have hcell : (p.cells leaves)[p.nextLeaf]? = some ⟨digest, .leaf payload⟩ := by
    rw [cells, List.getElem?_append_left hlt, hnext]
  refine ⟨rfl, List.prefix_rfl, ?_, Nat.le_succ _, le_rfl, ?_, ?_⟩
  · intro top htop
    obtain rfl := List.mem_singleton.mp htop
    refine ⟨.leaf hcell, .node ?_ (by simp)⟩
    show (Cell.links (p.cells leaves))[p.nextLeaf]? = some []
    simp [Cell.links, hcell, Content.children]
  · simp [place, hlt]
  · simp [place, hlt]

/-- A branch takes the next place among the branches, over the tops of its children. -/
theorem Lays.place_branch {digest : Digest} (h : Lays leaves p q tops) (hq : q.Numbered leaves) :
    Lays leaves p (q.place (.branch digest tops.length))
        [(.node q.nextBranch (tops.map Prod.fst), .branch digest (tops.map Prod.snd))]
      ∧ (q.place (.branch digest tops.length)).Numbered leaves := by
  have hlength : (tops.map (·.1.index)).length = tops.length := List.length_map _
  have htake : (q.loose.take tops.length).reverse = tops.map (·.1.index) := by
    rw [h.loose_eq, List.take_left' (by rw [List.length_reverse, hlength]), List.reverse_reverse]
  have hdrop : q.loose.drop tops.length = p.loose := by
    rw [h.loose_eq, List.drop_left' (by rw [List.length_reverse, hlength])]
  have hcells : (q.place (.branch digest tops.length)).cells leaves
      = q.cells leaves ++ [⟨digest, .internal (tops.map (·.1.index))⟩] := by
    simp [place, cells, htake]
  have hgrows : q.Extends leaves (q.place (.branch digest tops.length)) := ⟨_, hcells.symm⟩
  -- the new cell stands at the end
  have hhere : ((q.place (.branch digest tops.length)).cells leaves)[q.nextBranch]?
      = some ⟨digest, .internal (tops.map (·.1.index))⟩ := by
    have hend : q.nextBranch = (q.cells leaves).length := by
      rw [hq, cells, List.length_append, List.length_reverse]
    rw [hcells, hend]
    simp
  have hbranch : ¬ q.nextBranch < leaves.length := by
    rw [hq]
    omega
  have hpostorder : ∀ (keep : Nat → Bool),
      ([(Rose.node q.nextBranch (tops.map Prod.fst), Form.branch digest (tops.map Prod.snd))].flatMap
        (·.1.postorder)).filter keep
      = (tops.flatMap (·.1.postorder)).filter keep ++ [q.nextBranch].filter keep := by
    intro keep
    simp [List.flatMap_map]
  refine ⟨⟨?_, h.grows.trans hgrows, ?_, h.nextLeaf_le, ?_, ?_, ?_⟩, ?_⟩
  · simp [place, hdrop]
  · intro top htop
    obtain rfl := List.mem_singleton.mp htop
    constructor
    · have hat : At ((q.place (.branch digest tops.length)).cells leaves) q.nextBranch
          (.branch digest ((tops.map fun t => (t.1.index, t.2)).map Prod.snd)) := by
        apply At.branch
        · simpa [Function.comp_def] using hhere
        · intro child hchild
          obtain ⟨t, ht, rfl⟩ := List.mem_map.mp hchild
          exact (h.spelled t ht).1.grow hgrows
      simpa [Function.comp_def] using hat
    · refine .node ?_ fun c hc => ?_
      · simp [Cell.links, hhere, Content.children, Function.comp_def]
      · obtain ⟨t, ht, rfl⟩ := List.mem_map.mp hc
        exact follows_grow (h.spelled t ht).2 hgrows
  · exact h.nextBranch_le.trans (Nat.le_succ _)
  · rw [hpostorder, h.leaves_eq]
    simp [place, hbranch]
  · rw [hpostorder, h.branches_eq]
    have hle := h.nextBranch_le
    have hcount : q.nextBranch + 1 - p.nextBranch = (q.nextBranch - p.nextBranch) + 1 := by omega
    have hlast : p.nextBranch + (q.nextBranch - p.nextBranch) = q.nextBranch := by omega
    show _ = List.range' p.nextBranch (q.nextBranch + 1 - p.nextBranch)
    rw [hcount, List.range'_1_concat, hlast]
    simp [Nat.le_of_not_lt hbranch]
  · show q.nextBranch + 1 = leaves.length + (q.branches.length + 1)
    rw [hq, Nat.add_assoc]

/-- Placing some forms, given that each can be placed by itself. -/
private theorem lays_forms {forms : List Form}
    (hforms : ∀ form ∈ forms, ∀ (p : Placing) (rest : List Cell), p.Numbered leaves →
      leaves.drop p.nextLeaf = form.leafCells ++ rest →
      ∃ r, Lays leaves p (form.postParts.foldl place p) [(r, form)]
        ∧ (form.postParts.foldl place p).Numbered leaves
        ∧ leaves.drop (form.postParts.foldl place p).nextLeaf = rest)
    (hp : p.Numbered leaves) {rest : List Cell}
    (hnext : leaves.drop p.nextLeaf = forms.flatMap leafCells ++ rest) :
    ∃ tops, tops.map Prod.snd = forms
      ∧ Lays leaves p ((forms.flatMap postParts).foldl place p) tops
      ∧ ((forms.flatMap postParts).foldl place p).Numbered leaves
      ∧ leaves.drop ((forms.flatMap postParts).foldl place p).nextLeaf = rest := by
  induction forms generalizing p with
  | nil => exact ⟨[], rfl, .refl leaves p, hp, hnext⟩
  | cons form forms ih =>
    rw [List.flatMap_cons, List.append_assoc] at hnext
    obtain ⟨r, hfirst, hnumbered, hnext⟩ := hforms form List.mem_cons_self p _ hp hnext
    obtain ⟨tops, rfl, hrest, hnumbered, hnext⟩ :=
      ih (fun f hf => hforms f (List.mem_cons_of_mem _ hf)) hnumbered hnext
    rw [List.flatMap_cons, List.foldl_append]
    exact ⟨(r, form) :: tops, rfl, hfirst.trans hrest, hnumbered, hnext⟩

/-- Placing a form leaves **one top**, which spells it out. -/
theorem lays_form {form : Form} (hp : p.Numbered leaves) {rest : List Cell}
    (hnext : leaves.drop p.nextLeaf = form.leafCells ++ rest) :
    ∃ r, Lays leaves p (form.postParts.foldl place p) [(r, form)]
      ∧ (form.postParts.foldl place p).Numbered leaves
      ∧ leaves.drop (form.postParts.foldl place p).nextLeaf = rest := by
  induction form using Form.induction generalizing p rest with
  | leaf digest payload =>
    have hcell : leaves.drop p.nextLeaf = ⟨digest, .leaf payload⟩ :: rest := hnext
    have hget : leaves[p.nextLeaf]? = some ⟨digest, .leaf payload⟩ := by
      rw [← Nat.add_zero p.nextLeaf, ← List.getElem?_drop, hcell]
      rfl
    refine ⟨_, lays_leaf hget, hp, ?_⟩
    show leaves.drop (p.nextLeaf + 1) = rest
    rw [← List.drop_drop, hcell]
    rfl
  | branch digest children ih =>
    rw [leafCells_branch] at hnext
    obtain ⟨tops, rfl, hchildren, hnumbered, hnext⟩ :=
      lays_forms (fun c hc p rest hp => ih c hc hp) hp hnext
    obtain ⟨hlays, hnumbered⟩ := hchildren.place_branch hnumbered
    rw [postParts_branch, List.foldl_append, List.length_map]
    exact ⟨_, hlays, hnumbered, hnext⟩

end Placing

end Form

/-! ## §3 Arranged trees -/

/-- A tree is put together as it should be, spells out a form, and is **arranged**: its leaves stand
in front, from left to right, and its branches follow in postorder, the root last. -/
structure Tree.Arranged (t : Tree) (form : Form) : Prop where
  formed : t.Formed (t.size - 1)
  spelled : form.At t.cells (t.size - 1)
  leaves_eq : t.leaves.toList = List.range t.leafCount
  isLeaf_iff : ∀ i n, t.nodes[i]? = some n → (n.isLeaf = true ↔ i < t.leafCount)
  leaves_postorder : t.postorder.filter (· < t.leafCount) = List.range t.leafCount
  branches_postorder : t.postorder.filter (t.leafCount ≤ ·)
    = List.range' t.leafCount (t.size - t.leafCount)

namespace Form

variable {a : Algorithm} {form : Form}

/-- The state after all parts of a form were placed. -/
def placed (form : Form) : Placing :=
  form.postParts.foldl Placing.place ⟨[], [], 0, form.leafCells.length⟩

/-- The cells of a laid-out form: its leaves, and the branches that placing its parts adds. -/
def cells (form : Form) : List Cell := form.placed.cells form.leafCells

/-- The index at the top of a laid-out form. -/
def top (form : Form) : Nat := form.placed.loose.headD 0

theorem toTree_eq (a : Algorithm) (form : Form) :
    form.toTree a = Tree.assemble a form.cells (List.range form.leafCells.length) form.top := by
  simp only [toTree, parts_eq_postParts]
  rfl

/-- The branches are numbered up to the end. -/
private theorem nextBranch_placed (form : Form) : form.placed.nextBranch = form.cells.length := by
  have hstart : Placing.Numbered form.leafCells ⟨[], [], 0, form.leafCells.length⟩ := rfl
  obtain ⟨r, -, hnumbered, -⟩ := Placing.lays_form hstart (List.append_nil form.leafCells).symm
  rw [cells, Placing.cells, List.length_append, List.length_reverse]
  exact hnumbered

/-- The root stands **last**. -/
theorem top_eq (form : Form) : form.top = form.cells.length - 1 := by
  cases form with
  | leaf digest payload => rfl
  | branch digest children =>
    rw [← nextBranch_placed]
    simp [top, placed, Placing.place]

/-- The cells of a form spell it out at its top, **in order**. -/
theorem exists_spelled (form : Form) :
    ∃ r : Rose, r.index = form.top ∧ At form.cells form.top form
      ∧ r.Follows (Cell.links form.cells)
      ∧ r.postorder.filter (· < form.leafCells.length) = List.range form.leafCells.length
      ∧ r.postorder.filter (form.leafCells.length ≤ ·)
        = List.range' form.leafCells.length (form.cells.length - form.leafCells.length) := by
  have hstart : Placing.Numbered form.leafCells ⟨[], [], 0, form.leafCells.length⟩ := rfl
  obtain ⟨r, hlays, -, hnext⟩ :=
    Placing.lays_form hstart (List.append_nil form.leafCells).symm
  rw [← placed] at hlays hnext
  have hindex : r.index = form.top := by
    rw [top, hlays.loose_eq]
    rfl
  obtain ⟨hat, hfollows⟩ := hlays.spelled _ List.mem_cons_self
  have hleaves := hlays.leaves_eq
  have hbranches := hlays.branches_eq
  rw [List.flatMap_singleton] at hleaves hbranches
  refine ⟨r, hindex, hindex ▸ hat, hfollows, ?_, ?_⟩
  · -- all leaves were placed, and no more
    have hle := List.drop_eq_nil_iff.mp hnext
    have hge : form.placed.nextLeaf ≤ form.leafCells.length := by
      by_contra hlt
      have hmem : form.leafCells.length ∈ List.range' 0 (form.placed.nextLeaf - 0) :=
        List.mem_range'_1.mpr (by omega)
      rw [← hleaves, List.mem_filter] at hmem
      simp at hmem
    rw [Nat.le_antisymm hge hle] at hleaves
    rw [List.range_eq_range']
    exact hleaves
  · rw [← nextBranch_placed]
    exact hbranches

/-- The tree of a sound form spells it out and **is arranged**. -/
theorem toTree_arranged (h : form.Sound a) : (form.toTree a).Arranged form := by
  obtain ⟨r, hindex, hat, hfollows, hleaves, hbranches⟩ := form.exists_spelled
  obtain ⟨cells, root, plan, htree⟩ := exists_plan_toTree h
  -- the plan is the one that was spelled out
  have hsame := htree.symm.trans (toTree_eq a form)
  obtain rfl : cells = form.cells := by simpa using congrArg Tree.cells hsame
  obtain rfl : root = form.top := Option.some.inj (congrArg Tree.root hsame)
  obtain ⟨r', hindex', u⟩ := Tree.exists_unfolds plan
  have hr : r' = r := by
    apply Rose.Follows.unique _ hfollows (hindex'.trans hindex.symm)
    simpa using u.follows
  have hpostorder := u.postorder_eq
  have hsize : (Tree.assemble a form.cells (List.range form.leafCells.length) form.top).size
      = form.cells.length := Tree.size_nodes_assemble ..
  have hcount : (Tree.assemble a form.cells (List.range form.leafCells.length) form.top).leafCount
      = form.leafCells.length := by simp [Tree.leafCount, Tree.assemble]
  rw [hr] at hpostorder
  rw [htree]
  refine ⟨?_, ?_, ?_, fun i n hn => ?_, ?_, ?_⟩
  · rw [hsize, ← top_eq]
    exact plan.formed
  · rw [hsize, ← top_eq, Tree.cells_assemble]
    exact hat
  · rw [hcount]
    rfl
  · rw [hcount, ← List.mem_range, plan.mem_leaves]
    rw [Tree.getElem?_assemble, Option.map_eq_some_iff] at hn
    obtain ⟨cell, hcell, rfl⟩ := hn
    rw [hcell]
    simp [Node.isLeaf]
  · rw [hpostorder, hcount]
    exact hleaves
  · rw [hpostorder, hcount, hsize]
    exact hbranches

/-- The leaves of the tree by position are the leaves of the form **from left to right**. -/
theorem leafNodes_toTree (a : Algorithm) (form : Form) :
    (form.toTree a).leafNodes.map Node.cell = form.leafCells := by
  rw [toTree_eq, Tree.leafNodes, Tree.nodesAt, List.map_filterMap]
  show (List.range form.leafCells.length).filterMap _ = _
  -- the first cells are those of the leaves
  have hfirst : ∀ i ∈ List.range form.leafCells.length,
      ((Tree.assemble a form.cells (List.range form.leafCells.length) form.top).nodes[i]?).map
        Node.cell = form.leafCells[i]? := by
    intro i hi
    rw [Tree.getElem?_assemble, Option.map_map, cells, Placing.cells,
      List.getElem?_append_left (List.mem_range.mp hi)]
    exact Option.map_id'
  rw [List.filterMap_congr hfirst]
  induction form.leafCells using List.reverseRecOn with
  | nil => rfl
  | append_singleton cells last ih =>
    rw [List.length_append, List.length_singleton, List.range_succ, List.filterMap_append]
    have hkept : ∀ i ∈ List.range cells.length, (cells ++ [last])[i]? = cells[i]? := by
      intro i hi
      exact List.getElem?_append_left (List.mem_range.mp hi)
    rw [List.filterMap_congr hkept, ih]
    simp

end Form

end HashTree
