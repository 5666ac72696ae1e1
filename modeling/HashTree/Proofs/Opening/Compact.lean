import HashTree.Proofs.Opening.Sided
import HashTree.Proofs.Tree.Depth
import HashTree.Proofs.Tree.Halves

/-!
# How long an opening of items is

In the tree of a list of items every branch has two children. So each step to a single item has one
sibling, there are as many steps as joins above the item, and each opened item adds **one sibling a
level** at most.
-/

namespace HashTree

/-! ## §1 Branches of a spelled tree -/

namespace Spells

variable {links : Links} {i j : Nat} {tree : Paired Nat}

/-- Below an index that spells a tree a node has **two children or none**. -/
theorem length_below (h : Spells links i tree) (hd : links.Descends i j) :
    links.below j = [] ∨ (links.below j).length = 2 := by
  induction h with
  | single here =>
    have hbelow := Links.below_eq_of_getElem? here
    rw [← hd.eq_of_below_nil hbelow]
    exact .inl hbelow
  | join here _ _ ihleft ihright =>
    have hbelow := Links.below_eq_of_getElem? here
    rcases hd.cases_head with rfl | ⟨k, hk, hd⟩
    · rw [hbelow]
      exact .inr rfl
    · rw [Links.Child, hbelow, List.mem_pair] at hk
      rcases hk with rfl | rfl
      · exact ihleft hd
      · exact ihright hd

end Spells

namespace Tree

variable {t : Tree} {top r : Rose} {slot : Nat → Slot} {positions : List Nat} {p i : Nat}
  {tree : Paired Nat}

/-! ## §2 Steps below a spelled tree -/

section Spelled

variable (u : t.Unfolds top) (hshows : ∀ i < t.links.length, t.Shows positions i (slot i))
include u

/-- What is spelled at a node leads to the positions whose leaves are **its items**. -/
theorem Unfolds.leadsTo_iff_items (hspells : Spells t.links i tree) :
    t.LeadsTo positions i ↔ ∃ leaf ∈ t.leavesAt positions, leaf ∈ tree.items := by
  rw [leadsTo_iff]
  refine exists_congr fun leaf => and_congr_right fun hleaf => ?_
  exact hspells.descends_iff (u.below_leavesAt hleaf).2

include hshows

omit u in
/-- A node that is not entered has no steps. -/
theorem entered_eq_nil_of_shows (hr : r.Follows t.links)
    (hno : t.childrenAt r.index = [] ∨ ¬ t.LeadsTo positions r.index) : r.entered slot = [] :=
  Rose.entered_eq_nil ((hshows r.index hr.index_lt).ne_child hno)

/-- The steps of a branch with two children: those of both, and its own with their slots. -/
theorem Unfolds.exists_entered_pair {a b : Nat} (hr : r.Follows t.links)
    (here : t.links[r.index]? = some [a, b]) (hleads : t.LeadsTo positions r.index) :
    ∃ left right : Rose, left.Follows t.links ∧ right.Follows t.links
      ∧ left.index = a ∧ right.index = b
      ∧ r.entered slot = left.entered slot ++ right.entered slot ++ [[slot a, slot b]] := by
  obtain ⟨i, cs⟩ := r
  rw [Rose.index_node] at here hleads
  have hbelow := Links.below_eq_of_getElem? here
  have hbranch : t.childrenAt i ≠ [] := by simp [childrenAt_eq, hbelow]
  have henters : slot i = .child := (hshows i hr.index_lt).eq_child u hbranch hleads
  rw [hr.below_eq] at hbelow
  obtain ⟨left, others, rfl, rfl, hothers⟩ := List.map_eq_cons_iff.mp hbelow
  obtain ⟨right, none, rfl, rfl, hnone⟩ := List.map_eq_cons_iff.mp hothers
  obtain rfl := List.map_eq_nil_iff.mp hnone
  refine ⟨left, right, hr.of_mem (by simp), hr.of_mem (by simp), rfl, rfl, ?_⟩
  rw [Rose.entered_node _ henters]
  simp

end Spelled

/-- Two children do not both lead to a single position. -/
theorem Unfolds.not_leadsTo_both (u : t.Unfolds top) {a b : Nat} (here : t.links[i]? = some [a, b])
    (ha : t.LeadsTo [p] a) (hb : t.LeadsTo [p] b) : False := by
  have hbelow := Links.below_eq_of_getElem? here
  have hdistinct := Links.nodup_below u.planted.nodup_flatten i
  have hchild : t.links.Child i a ∧ t.links.Child i b := by simp [Links.Child, hbelow]
  have hsame := u.child_unique hchild.1 hchild.2 ha hb
  simp [hbelow, hsame] at hdistinct

/-- To a single leaf there are **as many steps as joins** above it. -/
theorem Unfolds.length_entered (u : t.Unfolds top)
    (hshows : ∀ i < t.links.length, t.Shows [p] i (slot i)) {leaf depth : Nat}
    (hleaf : t.leaves[p]? = some leaf) (hdepth : tree.AtDepth leaf depth)
    (hspells : Spells t.links i tree) (hr : r.Follows t.links) (hindex : r.index = i) :
    (r.entered slot).length = depth := by
  have hleads : ∀ {k : Nat} {part : Paired Nat} {d : Nat}, Spells t.links k part →
      part.AtDepth leaf d → t.LeadsTo [p] k := by
    intro k part d hpart hd
    exact ⟨p, List.mem_singleton_self p, leaf, hleaf,
      (hpart.descends_iff (u.below_leaf hleaf)).mpr (Paired.mem_items_iff.mpr ⟨d, hd⟩)⟩
  -- by induction on the way to the item: of two children only the one above it is entered
  induction hdepth generalizing i r with
  | here =>
    cases hspells with
    | single here =>
      rw [entered_eq_nil_of_shows hshows hr, List.length_nil]
      rw [hindex, childrenAt_eq, u.below_leaf hleaf]
      exact .inl rfl
  | left h ih =>
    cases hspells with
    | @join _ a b _ _ here onLeft onRight =>
      subst hindex
      obtain ⟨left, right, hleft, hright, rfl, rfl, hsteps⟩ :=
        u.exists_entered_pair hshows hr here (hleads (.join here onLeft onRight) (.left h))
      have hnot := u.not_leadsTo_both here (hleads onLeft h)
      rw [hsteps, entered_eq_nil_of_shows hshows hright (.inr hnot)]
      simp [ih onLeft hleft rfl]
  | right h ih =>
    cases hspells with
    | @join _ a b _ _ here onLeft onRight =>
      subst hindex
      obtain ⟨left, right, hleft, hright, rfl, rfl, hsteps⟩ :=
        u.exists_entered_pair hshows hr here (hleads (.join here onLeft onRight) (.right h))
      have hnot := fun hother => u.not_leadsTo_both here hother (hleads onRight h)
      rw [hsteps, entered_eq_nil_of_shows hshows hleft (.inr hnot)]
      simp [ih onRight hright rfl]

/-! ## §3 The digests that are given -/

/-- How many siblings there are in some steps. -/
def givenIn (steps : List Step) : Nat := (steps.flatten.filterMap Slot.sibling?).length

theorem givenIn_append (front back : List Step) :
    givenIn (front ++ back) = givenIn front + givenIn back := by
  simp [givenIn]

theorem givenIn_pair (first second : Slot) :
    givenIn [[first, second]] = givenIn [[first]] + givenIn [[second]] := by
  cases first <;> cases second <;> rfl

/-- A slot gives one digest at most. -/
theorem givenIn_single_le (only : Slot) : givenIn [[only]] ≤ 1 := by
  rw [givenIn, List.flatten_singleton]
  exact List.length_filterMap_le _ [only]

/-- The slot of a node that leads to the positions gives none. -/
theorem Shows.givenIn_eq_zero {here : Slot} (h : t.Shows positions i here)
    (hleads : t.LeadsTo positions i) : givenIn [[here]] = 0 := by
  cases h with
  | leaf => rfl
  | child => rfl
  | sibling hnot => exact absurd hleads hnot

/-- One more sibling above some opened items is one more for each of them at most, and where no item
is opened there is none. -/
private theorem add_le_mul {given extra count height bound : Nat} (hgiven : given ≤ count * height)
    (hheight : height ≤ bound) (hextra : extra ≤ 1) (hnone : count = 0 → extra = 0) :
    given + extra ≤ count * (bound + 1) := by
  rcases Nat.eq_zero_or_pos count with hzero | hpos
  · rw [hnone hzero]
    simpa [hzero] using hgiven
  · calc given + extra
      _ ≤ count * height + count := Nat.add_le_add hgiven (hextra.trans hpos)
      _ ≤ count * bound + count := Nat.add_le_add_right (Nat.mul_le_mul_left count hheight) count

/-- The siblings in the steps below a spelled tree are as many as its opened items, **each taken as
often as the tree is high**, at most. -/
theorem Unfolds.givenIn_entered_le (u : t.Unfolds top)
    (hshows : ∀ i < t.links.length, t.Shows positions i (slot i)) (hspells : Spells t.links i tree)
    (hr : r.Follows t.links) (hindex : r.index = i) : givenIn (r.entered slot)
      ≤ tree.items.countP (· ∈ t.leavesAt positions) * tree.height := by
  have hcount : ∀ {k : Nat} {part : Paired Nat}, Spells t.links k part →
      (part.items.countP (· ∈ t.leavesAt positions) = 0 ↔ ¬ t.LeadsTo positions k) := by
    intro k part hpart
    rw [u.leadsTo_iff_items hpart, List.countP_eq_zero]
    simp only [decide_eq_true_eq, not_exists, not_and]
    exact ⟨fun h leaf hleaf hitem => h leaf hitem hleaf, fun h leaf hitem hleaf => h leaf hleaf hitem⟩
  induction hspells generalizing r with
  | single here =>
    have hbelow := Links.below_eq_of_getElem? here
    rw [← hindex, ← childrenAt_eq] at hbelow
    rw [entered_eq_nil_of_shows hshows hr (.inl hbelow)]
    exact Nat.zero_le _
  | @join i a b onLeft onRight here hleft hright ihleft ihright =>
    subst hindex
    by_cases hleads : t.LeadsTo positions r.index
    · obtain ⟨left, right, hl, hr', rfl, rfl, hsteps⟩ :=
        u.exists_entered_pair hshows hr here hleads
      have hor : t.LeadsTo positions left.index ∨ t.LeadsTo positions right.index := by
        have hbelow := Links.below_eq_of_getElem? here
        obtain ⟨c, hc, hcleads⟩ := u.exists_child_leadsTo (by simp [childrenAt_eq, hbelow]) hleads
        rw [Links.Child, hbelow, List.mem_pair] at hc
        rcases hc with rfl | rfl
        · exact .inl hcleads
        · exact .inr hcleads
      -- a child is given only where the items below the other one are opened
      have honleft := add_le_mul (ihleft hl rfl) (Nat.le_max_left _ onRight.height)
        (givenIn_single_le (slot right.index)) fun hzero =>
          (hshows _ hr'.index_lt).givenIn_eq_zero (hor.resolve_left ((hcount hleft).mp hzero))
      have honright := add_le_mul (ihright hr' rfl) (Nat.le_max_right onLeft.height _)
        (givenIn_single_le (slot left.index)) fun hzero =>
          (hshows _ hl.index_lt).givenIn_eq_zero (hor.resolve_right ((hcount hright).mp hzero))
      rw [hsteps, givenIn_append, givenIn_append, givenIn_pair, Paired.items, List.countP_append,
        Paired.height, Nat.add_mul]
      omega
    · rw [entered_eq_nil_of_shows hshows hr (.inr hleads)]
      exact Nat.zero_le _

/-! ## §4 Openings of items -/

variable (a : Algorithm) (retain : Bool) {items : List Bytes}

/-- The node at a position of the items is the one at **the same index**. -/
private theorem getElem?_leaves_ofItems {p : Nat} (hp : p < items.length) :
    (ofItems a retain items).leaves[p]? = some p := by
  rw [leaves_ofItems, List.getElem?_toArray, List.getElem?_range hp]

/-- A tree of items is opened with the steps **below the root of the tree that it spells**. -/
private theorem exists_opened {indices : List Nat} (hindices : indices ≠ [])
    (hlt : ∀ p ∈ indices, p < items.length) :
    ∃ o top tree, (ofItems a retain items).openAt indices = .ok o
      ∧ (ofItems a retain items).Unfolds top
      ∧ Paired.ofList (List.range items.length) = some tree
      ∧ Spells (ofItems a retain items).links top.index tree
      ∧ o.steps = (ofItems a retain items).stepsFrom
        ((ofItems a retain items).leavesAt (selection indices))
      ∧ ∃ slot, o.steps = top.entered slot ∧ ∀ i < (ofItems a retain items).links.length,
        (ofItems a retain items).Shows (selection indices) i (slot i) := by
  have hcount : (ofItems a retain items).leafCount = items.length := by
    rw [leafCount, leaves_ofItems, List.size_toArray, List.length_range]
  have hne : items ≠ [] := by
    obtain ⟨p, hp⟩ := List.exists_mem_of_ne_nil indices hindices
    exact List.ne_nil_of_length_pos (Nat.zero_lt_of_lt (hlt p hp))
  rw [← hcount] at hlt
  have hmade := ofItems_made a retain items
  have hnodup := selection_nodup indices
  obtain ⟨root, tree, hroot, htree, hspells⟩ := exists_spelled a retain hne
  obtain ⟨top, rfl, u⟩ := hmade.unfolds hroot
  obtain ⟨_, -, hopen⟩ := hmade.exists_openAt hindices hlt
  have hentered := u.stepsFrom_eq_entered (u.nodup_leavesAt hnodup)
    fun leaf hleaf => (u.below_leavesAt hleaf).2
  exact ⟨_, top, tree, hopen, u, htree, hspells, rfl, _, hentered,
    fun i hi => u.shows_slotOf hnodup (fun p hp => hlt p (mem_selection.mp hp)) hi⟩

/-- In a tree of items every step has **two slots**. -/
theorem Unfolds.length_step (u : t.Unfolds top) (hspells : Spells t.links top.index tree)
    (hnodup : positions.Nodup) : ∀ step ∈ t.stepsFrom (t.leavesAt positions), step.length = 2 := by
  intro step hstep
  rw [stepsFrom_eq, ← branchesAbove] at hstep
  obtain ⟨i, hi, rfl⟩ := List.mem_map.mp hstep
  obtain ⟨hbranch, -⟩ := (u.mem_branchesAbove hnodup).mp hi
  rw [childrenAt_eq] at hbranch
  obtain ⟨c, hc⟩ := List.exists_mem_of_ne_nil _ hbranch
  have hbelow := hspells.length_below (u.planted.descends i (Links.Child.parent_lt hc))
  rw [stepAt, List.length_map, childrenAt_eq]
  exact hbelow.resolve_left hbranch

/-- The steps to an item: **as many as joins** above it, each with one sibling. -/
theorem exists_openAt_item {p : Nat} (hp : p < items.length) :
    ∃ o tree, (ofItems a retain items).openAt [p] = .ok o
      ∧ Paired.ofList (List.range items.length) = some tree
      ∧ (∀ depth, tree.AtDepth p depth → o.steps.length = depth)
      ∧ ∀ step ∈ o.steps, step.length = 2 ∧ (step.filterMap Slot.sibling?).length = 1 := by
  have hlt : ∀ q ∈ [p], q < items.length := by simpa using hp
  have hleaf := getElem?_leaves_ofItems a retain hp
  obtain ⟨o, top, tree, hopen, u, htree, hspells, hsteps, slot, hentered, hshows⟩ :=
    exists_opened a retain (List.cons_ne_nil p []) hlt
  rw [selection_singleton] at hsteps hshows
  refine ⟨o, tree, hopen, htree, fun depth hdepth => ?_, fun step hstep => ?_⟩
  · rw [hentered]
    exact u.length_entered hshows hleaf hdepth hspells u.follows rfl
  · obtain ⟨e, he, hlone⟩ := u.exists_lone_stepsFrom (Array.getElem?_eq_some_iff.mp hleaf).1
    rw [hsteps] at hstep
    have hlength := u.length_step hspells (List.nodup_singleton p) step hstep
    rw [← hlone] at hstep
    have hsiblings := he.length_siblings step hstep
    exact ⟨hlength, by omega⟩

/-- Each opened item adds **one sibling a level** at most. -/
theorem exists_openAt_items {indices : List Nat} (hindices : indices ≠ [])
    (hlt : ∀ p ∈ indices, p < items.length) :
    ∃ o, (ofItems a retain items).openAt indices = .ok o
      ∧ givenIn o.steps ≤ indices.toFinset.card * Nat.clog 2 items.length := by
  obtain ⟨o, top, tree, hopen, u, htree, hspells, -, slot, hentered, hshows⟩ :=
    exists_opened a retain hindices hlt
  have hgiven := u.givenIn_entered_le hshows hspells u.follows rfl
  rw [← hentered] at hgiven
  refine ⟨o, hopen, hgiven.trans (Nat.mul_le_mul ?_ ?_)⟩
  · -- the opened items are different positions among those that are given
    have hselected : (ofItems a retain items).leavesAt (selection indices) = selection indices :=
      (List.filterMap_congr fun p hp => getElem?_leaves_ofItems a retain
        (hlt p (mem_selection.mp hp))).trans List.filterMap_some
    rw [Paired.items_of_ofList htree, hselected, List.countP_eq_length_filter,
      ← List.toFinset_card_of_nodup (List.nodup_range.filter _)]
    apply Finset.card_le_card
    intro p hp
    simpa [mem_selection] using (List.mem_filter.mp (List.mem_toFinset.mp hp)).2
  · have hheight := Paired.height_of_ofList htree
    rwa [List.length_range] at hheight

/-- **Openings of items are compact.** In the tree of a list of items, the opening of one item has
no more steps than the logarithm of the length of the list, rounded up, and each step has two slots,
one of them a sibling; for the first item there are as many steps. An opening of several items
carries no more siblings than so many for each of them. -/
theorem ofItems_openAt_compact (hne : items ≠ []) :
    (∀ p < items.length, ∃ o, (ofItems a retain items).openAt [p] = .ok o
        ∧ o.steps.length ≤ Nat.clog 2 items.length
        ∧ ∀ step ∈ o.steps, step.length = 2 ∧ (step.filterMap Slot.sibling?).length = 1)
      ∧ (∃ o, (ofItems a retain items).openAt [0] = .ok o
        ∧ o.steps.length = Nat.clog 2 items.length)
      ∧ ∀ indices : List Nat, indices ≠ [] → (∀ p ∈ indices, p < items.length) →
        ∃ o, (ofItems a retain items).openAt indices = .ok o
          ∧ (o.steps.flatten.filterMap Slot.sibling?).length
            ≤ indices.toFinset.card * Nat.clog 2 items.length := by
  refine ⟨fun p hp => ?_, ?_, fun indices hindices hlt =>
    exists_openAt_items a retain hindices hlt⟩
  · obtain ⟨o, tree, hopen, htree, hlength, hsteps⟩ := exists_openAt_item a retain hp
    have hmem : p ∈ tree.items := by
      rw [Paired.items_of_ofList htree]
      exact List.mem_range.mpr hp
    obtain ⟨depth, hdepth⟩ := Paired.mem_items_iff.mp hmem
    have hheight := hdepth.le_height.trans (Paired.height_of_ofList htree)
    rw [List.length_range, ← hlength depth hdepth] at hheight
    exact ⟨o, hopen, hheight, hsteps⟩
  · obtain ⟨o, tree, hopen, htree, hlength, -⟩ :=
      exists_openAt_item a retain (List.length_pos_of_ne_nil hne)
    have hfirst : (List.range items.length).head? = some 0 := by
      rw [List.head?_range, if_neg (List.length_eq_zero_iff.not.mpr hne)]
    have hdepth := Paired.atDepth_of_ofList htree hfirst
    rw [List.length_range] at hdepth
    exact ⟨o, hopen, hlength _ hdepth⟩

/-- Of five items the first lies below three joins, and no item lies deeper. Two items are opened
with six siblings at most. -/
theorem ofItems_openAt_compact_five :
    (∃ o, (ofItems .sha1 true [[1], [2], [3], [4], [5]]).openAt [0] = .ok o
        ∧ o.steps.length = 3)
      ∧ (∃ o, (ofItems .sha1 true [[1], [2], [3], [4], [5]]).openAt [4] = .ok o
        ∧ o.steps.length ≤ 3 ∧ ∀ step ∈ o.steps, step.length = 2)
      ∧ ∃ o, (ofItems .sha1 true [[1], [2], [3], [4], [5]]).openAt [3, 0, 3] = .ok o
        ∧ (o.steps.flatten.filterMap Slot.sibling?).length ≤ 6 := by
  have hlog : Nat.clog 2 ([[1], [2], [3], [4], [5]] : List Bytes).length = 3 := by decide
  obtain ⟨hsingle, hfirst, hmany⟩ :=
    ofItems_openAt_compact .sha1 true (List.cons_ne_nil [1] [[2], [3], [4], [5]])
  rw [hlog] at hsingle hfirst hmany
  obtain ⟨o, hopen, hlength, hsteps⟩ := hsingle 4 (by decide)
  exact ⟨hfirst, ⟨o, hopen, hlength, fun step hstep => (hsteps step hstep).1⟩,
    hmany [3, 0, 3] (by decide) (by decide)⟩

end Tree

end HashTree
