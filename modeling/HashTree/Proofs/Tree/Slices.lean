import HashTree.Proofs.Tree.Beside
import HashTree.Proofs.Tree.Items
import HashTree.Proofs.Tree.Paired

/-!
# Subtrees of trees of items

Every node of a tree of items stands over a slice of them: the arena of the slice's own tree is
embedded in the arena of the whole, with its root at the node. For the root the slice is the whole
list. For the nodes below it the list is cut in two, where both parts grow side by side. So copying a
subtree is building a tree afresh.
-/

namespace HashTree

namespace Tree

open Growth Paired

variable (a : Algorithm) (retain : Bool)

/-! ## §1 Two halves -/

variable (items : List Bytes)

/-- A tree of items is assembled from **what grows** from their leaves. -/
theorem ofItems_eq_assemble (hne : items ≠ []) :
    Planned a (arena (grown a retain items)) (List.range items.length) (apex (grown a retain items))
      ∧ ofItems a retain items = assemble a (arena (grown a retain items)) (List.range items.length)
        (apex (grown a retain items)) := by
  obtain ⟨root, g, hgrown, hsound, -⟩ := exists_grown a retain items hne
  rw [ofItems_eq, hgrown]
  exact ⟨hsound.growing.planned, rfl⟩

/-- The lowest level of a list is that of its front, and that of its back behind it. -/
theorem lowest_append (front back : List Bytes) : lowest a retain (front ++ back)
    = lowest a retain front ++ (lowest a retain back).map (Top.rename (front.length + ·)) := by
  simp only [lowest, leafCells, List.map_append, List.zipIdx_append, List.length_map, List.map_map]
  congr 1
  rw [List.zipIdx_eq_map_add, List.map_map]
  refine List.map_congr_left fun entry _ => ?_
  simp [Top.rename, Nat.add_comm]

theorem length_lowest : (lowest a retain items).length = items.length := by
  simp [lowest, leafCells]

/-- The leaves of a slice stand **inside** those of the whole list. -/
theorem inside_lowest (before slice after : List Bytes) :
    Inside (before.length + ·)
      ⟨(leafCells a retain slice).reverse, (leafCells a retain slice).length⟩
      ⟨(leafCells a retain (before ++ (slice ++ after))).reverse,
        (leafCells a retain (before ++ (slice ++ after))).length⟩
      (lowest a retain slice) ((lowest a retain slice).map (Top.rename (before.length + ·))) where
  embeds := by
    rw [List.reverse_reverse, List.reverse_reverse]
    have hleaf : ∀ cell ∈ leafCells a retain slice, ∃ b ∈ slice, Cell.ofPayload a retain b = cell :=
      fun cell hcell => List.mem_map.mp hcell
    refine ⟨fun k cell hcell => ?_, fun j k hjk _ => Nat.add_lt_add_left hjk _,
      fun cell hcell => ?_⟩
    · have hk := (List.getElem?_eq_some_iff.mp hcell).1
      obtain ⟨b, -, rfl⟩ := hleaf cell (List.mem_of_getElem? hcell)
      rw [leafCells, List.length_map] at hk
      rw [leafCells, List.getElem?_map] at hcell ⊢
      rw [List.getElem?_append_right (Nat.le_add_right _ _), Nat.add_sub_cancel_left,
        List.getElem?_append_left hk, hcell]
      rfl
    · obtain ⟨b, -, rfl⟩ := hleaf cell hcell
      exact fun c hc => absurd hc List.not_mem_nil
  length_part := List.length_reverse
  length_whole := List.length_reverse
  top_lt top htop := by
    have hindex := List.mem_map_of_mem (f := (·.index)) htop
    rw [lowest_indices, List.mem_range] at hindex
    rwa [leafCells, List.length_map]
  others_eq := rfl

/-- Two items or more are cut in two, and **both parts grow side by side**. -/
theorem exists_grown_halves (htwo : 2 ≤ items.length) :
    ∃ fl fr, (∀ k < cut items.length, fl k = k)
      ∧ (∀ k < items.length - cut items.length, fr k = cut items.length + k)
      ∧ Halves fl fr (grown a retain (items.take (cut items.length)))
        (grown a retain (items.drop (cut items.length))) (grown a retain items) := by
  have hlt := (isGreatest_cut htwo).1.2
  have hle : items.length ≤ 2 * cut items.length := by
    have hcut : items.length ≤ 2 ^ ((items.length - 1).log2 + 1) := le_two_mul_cut
    rwa [Nat.pow_succ'] at hcut
  have hfront : (items.take (cut items.length)).length = cut items.length := by
    rw [List.length_take, Nat.min_eq_left hlt.le]
  have hleft := inside_lowest a retain [] (items.take (cut items.length))
    (items.drop (cut items.length))
  have hright := inside_lowest a retain (items.take (cut items.length))
    (items.drop (cut items.length)) []
  rw [List.nil_append, List.take_append_drop] at hleft
  rw [List.append_nil, List.take_append_drop] at hright
  -- the leaves of both parts stand inside those of all items, and the first part is a power of two
  have hpower : (lowest a retain (items.take (cut items.length))).length = cut items.length := by
    rw [length_lowest, hfront]
  have hback : 0 < (lowest a retain (items.drop (cut items.length))).length
      ∧ (lowest a retain (items.drop (cut items.length))).length ≤ cut items.length := by
    rw [length_lowest, List.length_drop]
    omega
  obtain ⟨fl, fr, hfl, hfr, hhalves⟩ :=
    grow_beside (a := a) (items.length - 1).log2 hleft hright hpower hback.1 hback.2
  have hfront_level : (lowest a retain (items.take (cut items.length))).map
      (Top.rename (([] : List Bytes).length + ·))
      = lowest a retain (items.take (cut items.length)) :=
    (List.map_congr_left fun top _ => by simp [Top.rename]).trans (List.map_id _)
  rw [hfront_level, ← lowest_append, List.take_append_drop] at hhalves
  refine ⟨fl, fr, fun k hk => ?_, fun k hk => ?_, hhalves⟩
  · rw [hfl k (by simpa [leafCells, hlt.le] using hk)]
    simp
  · rw [hfr k (by simpa [leafCells] using hk), hfront]

/-! ## §2 Slices -/

/-- A node stands **over a slice** of the items: the arena of the tree of the slice is embedded with
its leaves at the places of the slice and its root at the node. -/
structure Over (i lo hi : Nat) (f : Nat → Nat) : Prop where
  lt : lo < hi
  le : hi ≤ items.length
  embeds : Embeds f (arena (grown a retain (items.extract lo hi))) (arena (grown a retain items))
  leaf_eq : ∀ k < hi - lo, f k = lo + k
  apex_eq : f (apex (grown a retain (items.extract lo hi))) = i

/-- A slice of a slice. -/
private theorem extract_extract {items : List Bytes} {lo hi lo' hi' : Nat} (h : hi' ≤ hi - lo) :
    (items.extract lo hi).extract lo' hi' = items.extract (lo + lo') (lo + hi') := by
  simp only [List.extract_eq_take_drop, List.drop_take, List.take_take, List.drop_drop]
  congr 1
  omega

variable {a retain items}

theorem Over.length_extract {i lo hi : Nat} {f : Nat → Nat} (h : Over a retain items i lo hi f) :
    (items.extract lo hi).length = hi - lo := by
  have hle := h.le
  rw [List.extract_eq_take_drop, List.length_take, List.length_drop]
  omega

theorem Over.slice_ne_nil {i lo hi : Nat} {f : Nat → Nat} (h : Over a retain items i lo hi f) :
    items.extract lo hi ≠ [] := by
  apply List.ne_nil_of_length_pos
  rw [h.length_extract]
  exact Nat.sub_pos_of_lt h.lt

/-- What stands over a slice of a slice stands over a slice. -/
theorem Over.trans {i j lo hi lo' hi' : Nat} {f g : Nat → Nat} (h : Over a retain items i lo hi g)
    (h' : Over a retain (items.extract lo hi) j lo' hi' f) :
    Over a retain items (g j) (lo + lo') (lo + hi') (g ∘ f) := by
  have hlt := h'.lt
  have hle := h.le
  have hle' := h'.le
  rw [h.length_extract] at hle'
  have hslice : (items.extract lo hi).extract lo' hi' = items.extract (lo + lo') (lo + hi') :=
    extract_extract hle'
  refine ⟨by omega, by omega, hslice ▸ h'.embeds.trans h.embeds, fun k hk => ?_, ?_⟩
  · rw [Function.comp_apply, h'.leaf_eq k (by omega), h.leaf_eq _ (by omega), Nat.add_assoc]
  · rw [← hslice, Function.comp_apply, h'.apex_eq]

/-- The root stands over all items. -/
theorem over_apex (hne : items ≠ []) :
    Over a retain items (apex (grown a retain items)) 0 items.length id := by
  have hall : items.extract 0 items.length = items := by simp
  have plan := (ofItems_eq_assemble a retain items hne).1
  refine ⟨List.length_pos_iff.mpr hne, le_rfl, ?_, fun k _ => (Nat.zero_add k).symm,
    by rw [hall, id]⟩
  rw [hall]
  exact Embeds.refl plan.closed

/-- The children of the root stand over **the two halves**. -/
theorem exists_over_halves (htwo : 2 ≤ items.length) :
    ∃ l r fl fr, Over a retain items l 0 (cut items.length) fl
      ∧ Over a retain items r (cut items.length) items.length fr
      ∧ (Cell.links (arena (grown a retain items))).below (apex (grown a retain items))
        = [l, r] := by
  have hlt := (isGreatest_cut htwo).1.2
  have hpos : 0 < cut items.length := Nat.two_pow_pos _
  obtain ⟨fl, fr, hfl, hfr, hhalves⟩ := exists_grown_halves a retain items htwo
  have hfront : items.extract 0 (cut items.length) = items.take (cut items.length) := by simp
  have hback : items.extract (cut items.length) items.length = items.drop (cut items.length) := by
    rw [List.extract_eq_take_drop, ← List.length_drop, List.take_length]
  refine ⟨_, _, fl, fr, ⟨hpos, hlt.le, ?_, fun k hk => ?_, rfl⟩, ⟨hlt, le_rfl, ?_, hfr, rfl⟩, ?_⟩
  · rw [hfront]
    exact hhalves.left_embeds
  · rw [Nat.zero_add]
    exact hfl k hk
  · rw [hback]
    exact hhalves.right_embeds
  · rw [hfront, hback]
    exact hhalves.children_eq

/-- Only the root of two items or more has children. -/
private theorem two_le_of_child {c : Nat}
    (hc : (Cell.links (arena (grown a retain items))).Child (apex (grown a retain items)) c) :
    2 ≤ items.length := by
  rcases items with - | ⟨item, - | ⟨second, rest⟩⟩
  · simp [grown, lowest, leafCells, grow, arena, Cell.links, Links.Child, Links.below] at hc
  · simp [grown, lowest, leafCells, grow, arena, apex, Cell.links, Cell.ofPayload, Content.children,
      Links.Child, Links.below] at hc
  · simp

theorem Over.apex_lt {i lo hi : Nat} {f : Nat → Nat} (h : Over a retain items i lo hi f) :
    apex (grown a retain (items.extract lo hi))
      < (arena (grown a retain (items.extract lo hi))).length := by
  simpa using (ofItems_eq_assemble a retain _ h.slice_ne_nil).1.planted.root_lt

/-- **Every node** stands over a slice. -/
theorem exists_over {i : Nat} (hi : i < (arena (grown a retain items)).length) :
    ∃ lo hi f, Over a retain items i lo hi f := by
  induction hn : items.length using Nat.strong_induction_on generalizing items i with
  | _ n ih =>
    -- by induction on the number of items: every half has fewer
    by_cases hne : items = []
    · rw [hne] at hi
      simp [grown, lowest, leafCells, grow, arena] at hi
    have plan := (ofItems_eq_assemble a retain items hne).1
    have hdescends := plan.planted.descends i (by simpa using hi)
    rcases hdescends.cases_head with rfl | ⟨c, hc, hd⟩
    · exact ⟨0, items.length, id, over_apex hne⟩
    -- the way to another node leads through a child of the root, and goes on in its half
    have hthrough : ∀ {lo hi f}, Over a retain items c lo hi f → hi - lo < n →
        ∃ lo hi f, Over a retain items i lo hi f := by
      intro lo hi f hover hless
      have hbelow : (Cell.links (arena (grown a retain items))).Descends
          (f (apex (grown a retain (items.extract lo hi)))) i := by
        rw [hover.apex_eq]
        exact hd
      obtain ⟨j, hj, -, rfl⟩ := (hover.embeds.descends_iff hover.apex_lt).mp hbelow
      obtain ⟨lo', hi', g, hover'⟩ := ih _ hless hj hover.length_extract
      exact ⟨_, _, _, hover.trans hover'⟩
    have htwo := two_le_of_child hc
    have hlt := (isGreatest_cut htwo).1.2
    have hpos : 0 < cut items.length := Nat.two_pow_pos _
    obtain ⟨l, r, fl, fr, hleft, hright, hchildren⟩ := exists_over_halves (a := a) htwo
    rw [Links.Child, hchildren, List.mem_pair] at hc
    rcases hc with rfl | rfl
    · exact hthrough hleft (by omega)
    · exact hthrough hright (by omega)

/-! ## §3 Copies -/

section Copies

variable {s : Subtree} {lo hi : Nat} {f : Nat → Nat} (h : Over a retain items s.root lo hi f)
  (htree : s.tree = ofItems a retain items)
include h htree

/-- The leaves below a node are **those of its slice**. -/
theorem Over.leaves_eq : s.leaves = List.range' lo (hi - lo) := by
  have hle := h.le
  have hlt := h.lt
  obtain ⟨plan, hitems⟩ := ofItems_eq_assemble a retain items
    (List.ne_nil_of_length_pos (by omega))
  obtain ⟨inside, -⟩ := ofItems_eq_assemble a retain _ h.slice_ne_nil
  have hascending : s.leaves.Pairwise (· < ·) := by
    rw [Subtree.leaves_eq_filter (htree.trans hitems)]
    exact List.pairwise_lt_range.filter _
  -- both lists ascend, so it is enough that they have the same members
  refine hascending.eq_of_mem_iff List.pairwise_lt_range' fun i => ?_
  rw [Subtree.mem_leaves_of_embeds plan (htree.trans hitems) inside h.embeds h.apex_eq.symm,
    h.length_extract, List.mem_range'_1]
  constructor
  · rintro ⟨k, hk, rfl⟩
    have hk := List.mem_range.mp hk
    rw [h.leaf_eq k hk]
    omega
  · rintro ⟨hfrom, hto⟩
    refine ⟨i - lo, List.mem_range.mpr (by omega), ?_⟩
    rw [h.leaf_eq _ (by omega)]
    omega

/-- The copy of what lies below a node is **the tree of its slice**. -/
theorem Over.copy_eq : s.copy = ofItems a retain (items.extract lo hi) := by
  have hle := h.le
  have hlt := h.lt
  obtain ⟨plan, hitems⟩ := ofItems_eq_assemble a retain items
    (List.ne_nil_of_length_pos (by omega))
  obtain ⟨inside, hslice⟩ := ofItems_eq_assemble a retain _ h.slice_ne_nil
  rw [hslice]
  apply Subtree.copy_of_embeds plan (htree.trans hitems) inside h.embeds h.apex_eq.symm
  rw [h.leaves_eq htree, h.length_extract, List.range'_eq_map_range]
  exact List.map_congr_left fun k hk => (h.leaf_eq k (List.mem_range.mp hk)).symm

end Copies

variable (a retain items)

/-- **Copying a subtree is building afresh.** Below every node of a tree of items lie the leaves of a
slice of the items, and no others, and the copy of what lies below it is the tree of the slice: with
the same nodes in the same order, with their digests, payloads, children and parents, and with the
same leaves and root. -/
theorem copy_ofItems {i : Nat} (hi : i < (ofItems a retain items).nodes.size) :
    ∃ s lo hi, Subtree.ofIndex (ofItems a retain items) i = .ok s ∧ lo < hi ∧ hi ≤ items.length
      ∧ s.leaves = (ofItems a retain items).leaves.toList.extract lo hi
      ∧ s.copy = ofItems a retain (items.extract lo hi) := by
  have hne : items ≠ [] := by
    rintro rfl
    simp [empty] at hi
  have hcells : i < (arena (grown a retain items)).length := by
    rwa [(ofItems_eq_assemble a retain items hne).2, size_nodes_assemble] at hi
  obtain ⟨lo, hi', f, hover⟩ := exists_over hcells
  have hle := hover.le
  refine ⟨⟨ofItems a retain items, i, hi⟩, lo, hi', dif_pos hi, hover.lt, hle, ?_, ?_⟩
  · rw [hover.leaves_eq rfl, leaves_ofItems]
    apply List.ext_getElem
    · simp
      omega
    · simp
  · exact hover.copy_eq rfl

/-- Of five items the node over the third and the fourth is copied. -/
theorem copy_ofItems_five :
    ∃ s, Subtree.ofIndex (ofItems .sha1 true [[1], [2], [3], [4], [5]]) 6 = .ok s
      ∧ s.leaves = [2, 3] ∧ s.copy = ofItems .sha1 true [[3], [4]] := by
  obtain ⟨cells, htree, hlinks⟩ : ∃ cells,
      ofItems .sha1 true [[1], [2], [3], [4], [5]] = assemble .sha1 cells (List.range 5) 8
        ∧ Cell.links cells = [[], [], [], [], [], [0, 1], [2, 3], [5, 6], [7, 4]] :=
    ⟨_, by simp [ofItems, grow, pairUp, Growth.join]; rfl, rfl⟩
  have hlength : cells.length = 9 := by
    rw [← Cell.length_links, hlinks]
    rfl
  have hlt : 6 < (ofItems .sha1 true [[1], [2], [3], [4], [5]]).nodes.size := by
    rw [htree, size_nodes_assemble, hlength]
    decide
  obtain ⟨s, lo, hi, hs, hless, hle, hleaves, hcopy⟩ :=
    copy_ofItems .sha1 true [[1], [2], [3], [4], [5]] hlt
  obtain rfl : s = ⟨_, 6, hlt⟩ := (Except.ok.inj ((dif_pos hlt).symm.trans hs)).symm
  have hrow : (assemble .sha1 cells (List.range 5) 8).leaves = #[0, 1, 2, 3, 4] := rfl
  -- what lies below is read off the child lists
  have hbelow : (⟨_, 6, hlt⟩ : Subtree).leaves = [2, 3] := by
    simp only [Subtree.leaves, Subtree.flags, Subtree.levelOrder, levelOrderFrom, below_eq,
      htree, links_assemble, hlinks, size, size_nodes_assemble, hlength, hrow]
    decide
  have hslice : ∀ lo < 5, ∀ hi ≤ 5, [2, 3] = (List.range 5).extract lo hi → lo = 2 ∧ hi = 4 := by
    decide
  obtain ⟨rfl, rfl⟩ : lo = 2 ∧ hi = 4 := by
    rw [leaves_ofItems, hbelow] at hleaves
    exact hslice lo (Nat.lt_of_lt_of_le hless hle) hi hle hleaves
  exact ⟨_, hs, hbelow, hcopy⟩

end Tree

end HashTree
