import HashTree.Proofs.Opening.Emission

/-!
# What an opening carries

The steps of an opening are those of the branches above the selected leaves, and of no others. In
their slots each selected leaf is named once, and a digest is given for each node **beside** these
branches: for a node that has no selected leaf at or below itself while its parent has one. So an
opening gives no digest that the selected leaves lead to already.
-/

namespace HashTree

namespace Tree

/-! ## §1 What slots say -/

section Slots

variable (t : Tree) (positions : List Nat)

/-- A node **leads to** some positions when a leaf at one of them lies at or below it. -/
def LeadsTo (i : Nat) : Prop :=
  ∃ p ∈ positions, ∃ leaf, t.leaves[p]? = some leaf ∧ t.links.Descends i leaf

/-- What the slot of a child says, when the leaves at some positions are opened. -/
inductive Shows (child : Nat) : Slot → Prop where
  /-- The child is an opened leaf: its rank among the positions. -/
  | leaf {rank p : Nat} (hrank : positions[rank]? = some p) (hleaf : t.leaves[p]? = some child) :
    Shows child (.leaf rank)
  /-- The child is a branch above an opened leaf, and has a step of its own. -/
  | child (hbranch : t.childrenAt child ≠ []) (hleads : t.LeadsTo positions child) :
    Shows child .child
  /-- The child does not lead to an opened leaf: its digest. -/
  | sibling (hnot : ¬ t.LeadsTo positions child) : Shows child (.sibling (t.digestAt child))

/-- A node stands **beside** the branches of an opening: it does not lead to an opened leaf, but its
parent does. -/
def Beside (i : Nat) : Prop :=
  ¬ t.LeadsTo positions i ∧ ∃ parent, t.parentAt i = some parent ∧ t.LeadsTo positions parent

end Slots

variable {t : Tree} {r : Rose} {positions others : List Nat} {i c rank leaf : Nat}

theorem leadsTo_iff : t.LeadsTo positions i
    ↔ ∃ leaf ∈ t.leavesAt positions, t.links.Descends i leaf := by
  constructor
  · rintro ⟨p, hp, leaf, hleaf, hd⟩
    exact ⟨leaf, List.mem_filterMap.mpr ⟨p, hp, hleaf⟩, hd⟩
  · rintro ⟨leaf, hmem, hd⟩
    obtain ⟨p, hp, hleaf⟩ := List.mem_filterMap.mp hmem
    exact ⟨p, hp, leaf, hleaf, hd⟩

/-- Only **which** positions there are matters. -/
theorem leadsTo_congr (h : ∀ p, p ∈ positions ↔ p ∈ others) :
    t.LeadsTo positions i ↔ t.LeadsTo others i :=
  exists_congr fun p => and_congr_left fun _ => h p

/-! ## §2 Slots and standings -/

section Standings

variable (u : t.Unfolds r) (hnodup : positions.Nodup)
include u hnodup

/-- Branches are marked when they lead to selected leaves. -/
theorem Unfolds.isAbove_iff (hi : i < t.links.length) : t.isAbove (t.leavesAt positions) i = true
    ↔ t.childrenAt i ≠ [] ∧ t.LeadsTo positions i := by
  have hfits := u.fits_standings (u.nodup_leavesAt hnodup) hi
  rw [isAbove, beq_iff_eq, childrenAt_eq, leadsTo_iff]
  generalize standingAt (t.standings (t.leavesAt positions)) i = standing at hfits
  cases hfits with
  | selected hrank =>
    have hnil := (u.below_leavesAt (List.mem_of_getElem? hrank)).2
    simp [hnil]
  | above hbranch hleaf hd =>
    simp only [true_iff]
    exact ⟨hbranch, _, hleaf, hd⟩
  | outside hout =>
    simp only [reduceCtorEq, false_iff, not_and, not_exists]
    exact fun _ => hout

/-- The slot of a node says what it has to say. -/
theorem Unfolds.shows_slotOf (hlt : ∀ p ∈ positions, p < t.leafCount) (hi : i < t.links.length) :
    t.Shows positions i (t.slotOf (t.standings (t.leavesAt positions)) i) := by
  have hfits := u.fits_standings (u.nodup_leavesAt hnodup) hi
  rw [slotOf]
  generalize standingAt (t.standings (t.leavesAt positions)) i = standing at hfits
  cases hfits with
  | selected hrank =>
    obtain ⟨p, hp, hleaf⟩ := (getElem?_leavesAt hlt).mp hrank
    exact .leaf hp hleaf
  | above hbranch hleaf hd =>
    rw [← childrenAt_eq] at hbranch
    exact .child hbranch (leadsTo_iff.mpr ⟨_, hleaf, hd⟩)
  | outside hout =>
    apply Shows.sibling
    rw [leadsTo_iff]
    rintro ⟨leaf, hleaf, hd⟩
    exact hout leaf hleaf hd

end Standings

/-- The rank in a slot is that of a position whose leaf the child is. -/
theorem Shows.leaf_iff {slot : Slot} (h : t.Shows positions c slot) (u : t.Unfolds r)
    (hnodup : positions.Nodup) :
    slot = .leaf rank ↔ ∃ p, positions[rank]? = some p ∧ t.leaves[p]? = some c := by
  cases h with
  | @leaf rank' p hrank hleaf =>
    rw [Slot.leaf.injEq]
    constructor
    · rintro rfl
      exact ⟨p, hrank, hleaf⟩
    · rintro ⟨q, hq, hleaf'⟩
      -- a leaf has one position, and a position one rank
      obtain rfl := u.position_unique hleaf hleaf'
      exact (List.getElem?_inj (List.getElem?_eq_some_iff.mp hrank).1 hnodup).mp (hrank.trans hq.symm)
  | child hbranch _ =>
    simp only [reduceCtorEq, false_iff]
    rintro ⟨p, -, hleaf⟩
    rw [childrenAt_eq] at hbranch
    exact hbranch (u.below_leaf hleaf)
  | sibling hnot =>
    simp only [reduceCtorEq, false_iff]
    rintro ⟨p, hp, hleaf⟩
    exact hnot ⟨p, List.mem_of_getElem? hp, c, hleaf, .refl⟩

/-- A child that does not lead to the positions has a **sibling's slot**. -/
theorem Shows.eq_sibling {slot : Slot} (h : t.Shows positions c slot)
    (hnot : ¬ t.LeadsTo positions c) : slot = .sibling (t.digestAt c) := by
  cases h with
  | leaf hrank hleaf => exact absurd ⟨_, List.mem_of_getElem? hrank, c, hleaf, .refl⟩ hnot
  | child _ hleads => exact absurd hleads hnot
  | sibling => rfl

/-- The slot of a branch that leads to the positions is a **child's slot**. -/
theorem Shows.eq_child {slot : Slot} (h : t.Shows positions c slot) (u : t.Unfolds r)
    (hbranch : t.childrenAt c ≠ []) (hleads : t.LeadsTo positions c) : slot = .child := by
  cases h with
  | leaf _ hleaf =>
    rw [childrenAt_eq, u.below_leaf hleaf] at hbranch
    exact absurd rfl hbranch
  | child => rfl
  | sibling hnot => exact absurd hleads hnot

/-- No other node has one. -/
theorem Shows.ne_child {slot : Slot} (h : t.Shows positions c slot)
    (hno : t.childrenAt c = [] ∨ ¬ t.LeadsTo positions c) : slot ≠ .child := by
  rintro rfl
  cases h with
  | child hbranch hleads => exact hno.elim hbranch (absurd hleads)

open scoped Classical in
/-- A slot gives a digest when its child does not lead to the positions. -/
theorem Shows.sibling?_eq {slot : Slot} (h : t.Shows positions c slot) :
    slot.sibling? = if ¬ t.LeadsTo positions c then some (t.digestAt c) else none := by
  cases h with
  | @leaf _ p hrank hleaf =>
    have hleads : t.LeadsTo positions c := ⟨p, List.mem_of_getElem? hrank, c, hleaf, .refl⟩
    rw [if_neg (not_not.mpr hleads)]
    rfl
  | child _ hleads =>
    rw [if_neg (not_not.mpr hleads)]
    rfl
  | sibling hnot =>
    rw [if_pos hnot]
    rfl

/-! ## §3 The children of the branches -/

section Children

variable {c' p : Nat} (u : t.Unfolds r)
include u

/-- A branch leads to some positions **through one of its children**. -/
theorem Unfolds.exists_child_leadsTo (hbranch : t.childrenAt i ≠ [])
    (h : t.LeadsTo positions i) : ∃ c, t.links.Child i c ∧ t.LeadsTo positions c := by
  obtain ⟨q, hq, leaf, hleaf, hd⟩ := h
  rcases hd.cases_head with rfl | ⟨c, hc, hd⟩
  · -- the branch itself is no leaf
    rw [childrenAt_eq, u.below_leaf hleaf] at hbranch
    exact absurd rfl hbranch
  · exact ⟨c, hc, q, hq, leaf, hleaf, hd⟩

/-- To a single position only **one child** leads. -/
theorem Unfolds.child_unique (hc : t.links.Child i c) (hc' : t.links.Child i c')
    (h : t.LeadsTo [p] c) (h' : t.LeadsTo [p] c') : c' = c := by
  obtain ⟨q, hq, leaf, hleaf, hd⟩ := h
  obtain ⟨q', hq', leaf', hleaf', hd'⟩ := h'
  rw [List.mem_singleton] at hq hq'
  rw [hq', ← hq, hleaf] at hleaf'
  obtain rfl := Option.some.inj hleaf'
  exact u.planted.child_eq_of_descends hc' hc hd' hd

end Children

/-- The branches of an opening. -/
def branchesAbove (t : Tree) (positions : List Nat) : List Nat :=
  t.postorder.filter (t.isAbove (t.leavesAt positions))

/-- Their children, in the order of their slots. -/
def shown (t : Tree) (positions : List Nat) : List Nat :=
  (t.branchesAbove positions).flatMap t.childrenAt

theorem flatten_stepsFrom (t : Tree) (positions : List Nat) :
    (t.stepsFrom (t.leavesAt positions)).flatten
      = (t.shown positions).map (t.slotOf (t.standings (t.leavesAt positions))) := by
  rw [stepsFrom_eq, ← List.flatMap_def, shown, List.map_flatMap]
  rfl

section Shown

variable (u : t.Unfolds r)
include u

theorem Unfolds.mem_postorder : i ∈ t.postorder ↔ i < t.links.length := by
  rw [u.postorder_eq, (u.planted.postorder_perm u.follows rfl).mem_iff, List.mem_range]

/-- No node is shown twice. -/
theorem Unfolds.nodup_shown (positions : List Nat) : (t.shown positions).Nodup := by
  have hpostorder := u.planted.nodup_postorder u.follows
  rw [← u.postorder_eq] at hpostorder
  apply List.nodup_flatMap.mpr
  refine ⟨fun i _ => ?_, ?_⟩
  · rw [childrenAt_eq]
    exact Links.nodup_below u.planted.nodup_flatten i
  · -- different branches have different children
    apply (hpostorder.filter _).imp
    intro p q hne c hp hq
    rw [childrenAt_eq] at hp hq
    exact hne (Links.Child.unique u.planted.nodup_flatten hp hq)

variable (hnodup : positions.Nodup)
include hnodup

theorem Unfolds.mem_branchesAbove : i ∈ t.branchesAbove positions
    ↔ t.childrenAt i ≠ [] ∧ t.LeadsTo positions i := by
  rw [branchesAbove, List.mem_filter, u.mem_postorder]
  constructor
  · rintro ⟨hi, habove⟩
    exact (u.isAbove_iff hnodup hi).mp habove
  · intro h
    obtain ⟨c, hc⟩ := List.exists_mem_of_ne_nil _ h.1
    rw [childrenAt_eq] at hc
    have hi := Links.Child.parent_lt hc
    exact ⟨hi, (u.isAbove_iff hnodup hi).mpr h⟩

/-- The nodes that are shown are the children of those that lead to the positions. -/
theorem Unfolds.mem_shown :
    c ∈ t.shown positions ↔ ∃ p, t.links.Child p c ∧ t.LeadsTo positions p := by
  rw [shown, List.mem_flatMap]
  refine exists_congr fun p => ?_
  rw [u.mem_branchesAbove hnodup, childrenAt_eq, and_comm, Links.Child]
  constructor
  · rintro ⟨hc, -, hleads⟩
    exact ⟨hc, hleads⟩
  · rintro ⟨hc, hleads⟩
    exact ⟨hc, List.ne_nil_of_mem hc, hleads⟩

theorem Unfolds.lt_of_mem_shown (hc : c ∈ t.shown positions) : c < t.links.length := by
  obtain ⟨p, hp, -⟩ := (u.mem_shown hnodup).mp hc
  exact u.planted.child_lt hp

omit hnodup in
/-- In a tree with more than one node a leaf has a parent. -/
theorem Unfolds.exists_parent_of_leaf (hsize : 1 < t.size) (hi : i < t.links.length)
    (hleaf : t.links.below i = []) : ∃ p, t.links.Child p i := by
  apply u.planted.exists_parent hi
  rintro rfl
  -- below a root without children there is nothing else
  have hall : ∀ j < t.links.length, r.index = j :=
    fun j hj => (u.planted.descends j hj).eq_of_below_nil hleaf
  rw [length_links] at hall
  have hzero := hall 0 (Nat.lt_trans Nat.zero_lt_one hsize)
  have hone := hall 1 hsize
  omega

/-- A selected leaf is shown, unless it is the whole tree. -/
theorem Unfolds.mem_shown_of_leaf (hsize : 1 < t.size) {p : Nat} (hp : p ∈ positions)
    (hleaf : t.leaves[p]? = some leaf) : leaf ∈ t.shown positions := by
  obtain ⟨parent, hparent⟩ :=
    u.exists_parent_of_leaf hsize (u.leaf_lt hleaf) (u.below_leaf hleaf)
  exact (u.mem_shown hnodup).mpr ⟨parent, hparent, p, hp, leaf, hleaf, .single hparent⟩

/-- A tree that is a single node has no branches, and so no steps. -/
theorem Unfolds.stepsFrom_eq_nil (hsize : t.size = 1) :
    t.stepsFrom (t.leavesAt positions) = [] := by
  rw [stepsFrom_eq, ← branchesAbove, List.map_eq_nil_iff, List.eq_nil_iff_forall_not_mem]
  intro i hi
  obtain ⟨hbranch, -⟩ := (u.mem_branchesAbove hnodup).mp hi
  obtain ⟨c, hc⟩ := List.exists_mem_of_ne_nil _ hbranch
  rw [childrenAt_eq] at hc
  have hparent := Links.Child.parent_lt hc
  have hchild := u.planted.child_lt hc
  -- the only node would be its own child
  rw [length_links, show t.nodes.size = 1 from hsize, Nat.lt_one_iff] at hparent hchild
  rw [hparent, hchild] at hc
  exact u.planted.irrefl (.single hc)

end Shown

/-! ## §4 Slots of an opening -/

section Opening

variable (u : t.Unfolds r) (hnodup : positions.Nodup) (hlt : ∀ p ∈ positions, p < t.leafCount)
include u hnodup hlt

/-- Each branch has a step with a slot for each child. -/
theorem Unfolds.forall₂_stepsFrom : List.Forall₂
    (fun i step => List.Forall₂ (t.Shows positions) (t.childrenAt i) step)
    (t.branchesAbove positions) (t.stepsFrom (t.leavesAt positions)) := by
  rw [stepsFrom_eq, ← branchesAbove, List.forall₂_map_right_iff, List.forall₂_same]
  intro i _
  rw [stepAt, List.forall₂_map_right_iff, List.forall₂_same]
  intro c hc
  rw [childrenAt_eq] at hc
  exact u.shows_slotOf hnodup hlt (u.planted.child_lt hc)

/-- Each selected leaf has **one slot**, unless it is the whole tree. -/
theorem Unfolds.count_leaf (hsize : 1 < t.size) (rank : Nat) :
    (t.stepsFrom (t.leavesAt positions)).flatten.count (.leaf rank)
      = if rank < positions.length then 1 else 0 := by
  rw [flatten_stepsFrom, List.count, List.countP_map]
  have hslot : ∀ c ∈ t.shown positions,
      t.slotOf (t.standings (t.leavesAt positions)) c = .leaf rank
        ↔ ∃ p, positions[rank]? = some p ∧ t.leaves[p]? = some c :=
    fun c hc => (u.shows_slotOf hnodup hlt (u.lt_of_mem_shown hnodup hc)).leaf_iff u hnodup
  split
  · next hrank =>
    -- the slot is that of the leaf at the position of this rank
    have hp := List.getElem?_eq_getElem hrank
    have hmem := List.mem_of_getElem? hp
    have hleaf := Array.getElem?_eq_getElem (hlt _ hmem)
    have hone := List.count_eq_one_of_mem (u.nodup_shown positions)
      (u.mem_shown_of_leaf hnodup hsize hmem hleaf)
    rw [← hone, List.count]
    apply List.countP_congr
    intro c hc
    rw [Function.comp_apply, beq_iff_eq, beq_iff_eq, hslot c hc, hp]
    simp only [Option.some.injEq, exists_eq_left', hleaf]
    exact eq_comm
  · next hrank =>
    rw [List.countP_eq_zero]
    intro c hc
    rw [Function.comp_apply, beq_iff_eq, hslot c hc, List.getElem?_eq_none (Nat.le_of_not_lt hrank)]
    simp

/-- The digests that are given are those of the nodes **beside** the branches, each once. -/
theorem Unfolds.exists_beside {root : Nat} (hformed : t.Formed root) :
    ∃ besides : List Nat, besides.Nodup ∧ (∀ i, i ∈ besides ↔ t.Beside positions i)
      ∧ (t.stepsFrom (t.leavesAt positions)).flatten.filterMap Slot.sibling?
        = besides.map t.digestAt := by
  classical
  -- of the children that are shown, those that do not lead to the positions
  refine ⟨(t.shown positions).filter fun i => ¬ t.LeadsTo positions i,
    (u.nodup_shown positions).filter _, fun i => ?_, ?_⟩
  · rw [List.mem_filter, decide_eq_true_eq, u.mem_shown hnodup, and_comm, Beside]
    refine and_congr_right fun _ => exists_congr fun p => and_congr_left fun _ => ?_
    exact (hformed.parentAt_iff i p).symm
  · rw [flatten_stepsFrom, List.filterMap_map, ← List.filterMap_eq_map, List.filterMap_filter]
    apply List.filterMap_congr
    intro c hc
    rw [Function.comp_apply,
      (u.shows_slotOf hnodup hlt (u.lt_of_mem_shown hnodup hc)).sibling?_eq]
    simp

end Opening

/-! ## §5 Openings of reachable trees -/

/-- **An opening carries what is needed, and no more.** A reachable tree is opened at any positions
in range. There is one step for each branch that leads to them, in the postorder of the tree, and in
it one slot for each child, from left to right. The positions are held ascending, and each selected
leaf has one slot with its rank among them; where the tree is a single node there is no step. The
digests that are given are those of the nodes beside these branches, one for each node. -/
theorem Reachable.openAt_spanned {indices : List Nat} (h : t.Reachable) (hne : indices ≠ [])
    (hlt : ∀ p ∈ indices, p < t.leafCount) :
    ∃ (r : Rose) (o : Opening), t.root = some r.index ∧ r.Follows t.links
      ∧ t.openAt indices = .ok o
      ∧ o.indices.Pairwise (· < ·) ∧ (∀ p, p ∈ o.indices ↔ p ∈ indices)
      ∧ (∃ branches : List Nat, branches.Sublist r.postorder
        ∧ (∀ i, i ∈ branches ↔ t.childrenAt i ≠ [] ∧ t.LeadsTo indices i)
        ∧ List.Forall₂ (fun i step => List.Forall₂ (t.Shows o.indices) (t.childrenAt i) step)
          branches o.steps)
      ∧ (1 < t.size → ∀ rank,
        o.steps.flatten.count (.leaf rank) = if rank < o.indices.length then 1 else 0)
      ∧ (t.size = 1 → o.steps = [])
      ∧ ∃ besides : List Nat, besides.Nodup ∧ (∀ i, i ∈ besides ↔ t.Beside indices i)
        ∧ o.steps.flatten.filterMap Slot.sibling? = besides.map t.digestAt := by
  obtain ⟨r, u, hopen⟩ := h.made.exists_openAt hne hlt
  have hnodup := selection_nodup indices
  have hrange : ∀ p ∈ selection indices, p < t.leafCount :=
    fun p hp => hlt p (mem_selection.mp hp)
  have hleads : ∀ i, t.LeadsTo (selection indices) i ↔ t.LeadsTo indices i :=
    fun i => leadsTo_congr fun p => mem_selection
  have hroot := u.planted.root_lt
  rw [length_links] at hroot
  obtain ⟨root, hformed⟩ := h.made.exists_formed (Array.getElem_mem hroot)
  refine ⟨r, _, u.root_eq, u.follows, hopen, selection_ascending indices, fun p => mem_selection,
    ?branches, ?leaves, ?single, ?siblings⟩
  case branches =>
    refine ⟨t.branchesAbove (selection indices), ?_, fun i => ?_,
      u.forall₂_stepsFrom hnodup hrange⟩
    · rw [branchesAbove, u.postorder_eq]
      exact List.filter_sublist
    · rw [u.mem_branchesAbove hnodup, hleads]
  case leaves => exact fun hsize => u.count_leaf hnodup hrange hsize
  case single =>
    intro hsize
    exact u.stepsFrom_eq_nil hnodup hsize
  case siblings =>
    obtain ⟨besides, hdistinct, hbesides, hdigests⟩ := u.exists_beside hnodup hrange hformed
    refine ⟨besides, hdistinct, fun i => ?_, hdigests⟩
    rw [hbesides, Beside, Beside, hleads]
    simp only [hleads]

/-- The first and the last of three items are opened, and each has one slot. -/
theorem Reachable.openAt_spanned_three :
    ∃ o, (Tree.ofItems .sha1 true [[1], [2], [3]]).openAt [2, 0] = .ok o
      ∧ o.steps.flatten.count (.leaf 0) = 1 ∧ o.steps.flatten.count (.leaf 1) = 1
      ∧ o.steps.flatten.count (.leaf 2) = 0
      ∧ ∃ besides : List Nat, besides.Nodup
        ∧ (∀ i, i ∈ besides ↔ (Tree.ofItems .sha1 true [[1], [2], [3]]).Beside [2, 0] i)
        ∧ o.steps.flatten.filterMap Slot.sibling?
          = besides.map (Tree.ofItems .sha1 true [[1], [2], [3]]).digestAt := by
  have hlt : ∀ p ∈ [2, 0], p < (Tree.ofItems .sha1 true [[1], [2], [3]]).leafCount := by
    simp [leafCount, leaves_ofItems]
  have hsize : 1 < (Tree.ofItems .sha1 true [[1], [2], [3]]).size :=
    Nat.lt_trans (by decide) three_lt_size_ofItems
  obtain ⟨r, o, -, -, hopen, -, -, -, hleaves, -, hsiblings⟩ :=
    Reachable.openAt_spanned (.ofItems .sha1 true [[1], [2], [3]]) (by simp) hlt
  have hcount : o.indices.length = 2 := by
    obtain ⟨expected, -, -, -, rfl⟩ := openAt_eq_ok_iff.mp hopen
    show (selection [2, 0]).length = 2
    simp [selection, List.mergeSort, List.eraseReps, List.eraseRepsBy, List.eraseRepsBy.loop]
  have hleaves := hleaves hsize
  rw [hcount] at hleaves
  exact ⟨o, hopen, hleaves 0, hleaves 1, hleaves 2, hsiblings⟩

/-- The leaf of a tree of **one item** has no slot when it is opened: the tree has no branch. -/
theorem openAt_single_no_slot : (Tree.ofItems .sha1 true [[1]]).Reachable
    ∧ ∃ o, (Tree.ofItems .sha1 true [[1]]).openAt [0] = .ok o ∧ o.indices = [0]
      ∧ o.steps = [] ∧ ¬ ∃ step ∈ o.steps, Slot.leaf 0 ∈ step := by
  have htree := Reachable.ofItems .sha1 true [[1]]
  have hlt : ∀ p ∈ [0], p < (Tree.ofItems .sha1 true [[1]]).leafCount := by
    simp [leafCount, leaves_ofItems]
  have hsize : (Tree.ofItems .sha1 true [[1]]).size = 1 := by
    simp [Tree.ofItems, Growth.grow, size]
  obtain ⟨r, u, hopen⟩ := htree.made.exists_openAt (by simp) hlt
  have hsteps := u.stepsFrom_eq_nil (selection_nodup [0]) hsize
  refine ⟨htree, _, hopen, selection_singleton 0, hsteps, ?_⟩
  rintro ⟨step, hstep, -⟩
  have hstep : step ∈ (Tree.ofItems .sha1 true [[1]]).stepsFrom
    ((Tree.ofItems .sha1 true [[1]]).leavesAt (selection [0])) := hstep
  rw [hsteps] at hstep
  exact List.not_mem_nil hstep

end Tree

end HashTree
