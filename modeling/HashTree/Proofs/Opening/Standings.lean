import HashTree.Proofs.Opening.Selection

/-!
# Standings

Generating an opening marks the branches above the selected leaves, children first. What the marks
come to is said without the loop: a node is outside when no selected leaf lies at or below it.
-/

namespace HashTree

/-- **What a node is** to the selected leaves. -/
inductive Standing.Fits (links : Links) (leaves : List Nat) (i : Nat) : Standing → Prop where
  | selected {rank : Nat} (h : leaves[rank]? = some i) : Fits links leaves i (.selected rank)
  | above {leaf : Nat} (hi : links.below i ≠ []) (hleaf : leaf ∈ leaves)
    (hd : links.Descends i leaf) : Fits links leaves i .above
  | outside (h : ∀ leaf ∈ leaves, ¬ links.Descends i leaf) : Fits links leaves i .outside

/-- A node at or above a selected leaf is not outside. -/
theorem Standing.Fits.ne_outside {links : Links} {leaves : List Nat} {i leaf : Nat}
    {standing : Standing} (h : standing.Fits links leaves i) (hleaf : leaf ∈ leaves)
    (hd : links.Descends i leaf) : standing ≠ .outside := by
  rintro rfl
  cases h with
  | outside h => exact h leaf hleaf hd

/-- A node that is not outside lies at or above a selected leaf. -/
theorem Standing.Fits.exists_leaf {links : Links} {leaves : List Nat} {i : Nat}
    {standing : Standing} (h : standing.Fits links leaves i) (hne : standing ≠ .outside) :
    ∃ leaf ∈ leaves, links.Descends i leaf := by
  cases h with
  | selected h => exact ⟨i, List.mem_of_getElem? h, .refl⟩
  | above _ hleaf hd => exact ⟨_, hleaf, hd⟩
  | outside => exact absurd rfl hne

namespace Tree

variable {t : Tree} {leaves : List Nat}

/-! ## §1 The table of standings -/

theorem standingAt_eq (table : Array Standing) (i : Nat) :
    standingAt table i = table[i]?.getD .outside :=
  Array.getD_eq_getD_getElem? ..

@[simp]
theorem size_markAbove (table : Array Standing) (i : Nat) :
    (t.markAbove table i).size = table.size := by
  unfold markAbove
  split
  · exact Array.size_setIfInBounds
  · rfl

/-- Marking a node changes no other. -/
theorem standingAt_markAbove_of_ne (table : Array Standing) {i j : Nat} (hne : j ≠ i) :
    standingAt (t.markAbove table i) j = standingAt table j := by
  unfold markAbove
  split
  · rw [standingAt_eq, standingAt_eq, Array.getElem?_setIfInBounds_ne (Ne.symm hne)]
  · rfl

@[simp]
theorem size_foldl_markAbove (indices : List Nat) (table : Array Standing) :
    (indices.foldl t.markAbove table).size = table.size := by
  induction indices generalizing table with
  | nil => rfl
  | cons i indices ih => rw [List.foldl_cons, ih, size_markAbove]

/-- Marking some nodes changes no other. -/
theorem standingAt_foldl_of_notMem {indices : List Nat} {j : Nat} (hj : j ∉ indices)
    (table : Array Standing) :
    standingAt (indices.foldl t.markAbove table) j = standingAt table j := by
  induction indices generalizing table with
  | nil => rfl
  | cons i indices ih =>
    rw [List.mem_cons, not_or] at hj
    rw [List.foldl_cons, ih hj.2, standingAt_markAbove_of_ne table hj.1]

private theorem selectedStandings_eq_fill (leaves : List Nat) : t.selectedStandings leaves
    = Table.fill (Array.replicate t.size .outside)
        (leaves.zipIdx.map fun entry => (entry.1, .selected entry.2)) := by
  rw [selectedStandings, Table.fill, List.foldl_map]

@[simp]
theorem size_selectedStandings (leaves : List Nat) :
    (t.selectedStandings leaves).size = t.size := by
  rw [selectedStandings_eq_fill, Table.size_fill, Array.size_replicate]

/-- At first the selected leaves have their ranks and all other nodes are outside. -/
theorem standingAt_selectedStandings (hnodup : leaves.Nodup) {i : Nat} (hi : i < t.size) :
    (∃ rank, leaves[rank]? = some i
        ∧ standingAt (t.selectedStandings leaves) i = .selected rank)
      ∨ (i ∉ leaves ∧ standingAt (t.selectedStandings leaves) i = .outside) := by
  have hkeys : (leaves.zipIdx.map fun entry => (entry.1, Standing.selected entry.2)).map Prod.fst
      = leaves := by
    rw [List.map_map]
    exact List.zipIdx_map_fst 0 leaves
  rw [standingAt_eq, selectedStandings_eq_fill]
  by_cases hmem : i ∈ leaves
  · obtain ⟨rank, hrank⟩ := List.mem_iff_getElem?.mp hmem
    refine Or.inl ⟨rank, hrank, ?_⟩
    have hentry : (i, Standing.selected rank)
        ∈ leaves.zipIdx.map fun entry => (entry.1, Standing.selected entry.2) :=
      List.mem_map.mpr ⟨(i, rank), List.mem_zipIdx_iff_getElem?.mpr hrank, rfl⟩
    rw [Table.getElem?_fill_of_mem (by rwa [hkeys]) hentry (by simpa using hi)]
    rfl
  · refine Or.inr ⟨hmem, ?_⟩
    rw [Table.getElem?_fill_of_notMem (by rwa [hkeys]), Array.getElem?_replicate, if_pos hi]
    rfl

/-! ## §2 What the marks come to -/

section Fits

variable {links : Links} {root : Nat} (hplanted : links.Planted root)
  (hchildren : ∀ i, t.childrenAt i = links.below i) (hsize : t.size = links.length)
  (hnodup : leaves.Nodup)
include hchildren hnodup

/-- A node is marked as it should be once its children are. -/
private theorem fits_markAbove {table : Array Standing} {i : Nat} (hi : i < t.size)
    (htable : table.size = t.size)
    (hfirst : standingAt table i = standingAt (t.selectedStandings leaves) i)
    (hbelow : ∀ c ∈ links.below i, (standingAt table c).Fits links leaves c) :
    (standingAt (t.markAbove table i) i).Fits links leaves i := by
  unfold markAbove
  rw [hchildren]
  -- a child that is not outside leads down to an opened leaf, and only such a child does
  split
  · next hany =>
    obtain ⟨c, hc, hne⟩ := List.any_eq_true.mp hany
    obtain ⟨leaf, hleaf, hd⟩ := (hbelow c hc).exists_leaf (by simpa using hne)
    rw [standingAt_eq, Array.getElem?_setIfInBounds_self_of_lt (by rwa [htable])]
    exact .above (List.ne_nil_of_mem hc) hleaf (.head hc hd)
  · next hany =>
    rw [hfirst]
    rcases standingAt_selectedStandings hnodup hi with ⟨rank, hrank, heq⟩ | ⟨hnotMem, heq⟩
    · rw [heq]
      exact .selected hrank
    · rw [heq]
      refine .outside fun leaf hleaf hd => ?_
      rcases hd.cases_head with rfl | ⟨c, hc, hd⟩
      · exact hnotMem hleaf
      · refine hany (List.any_eq_true.mpr ⟨c, hc, ?_⟩)
        simpa using (hbelow c hc).ne_outside hleaf hd

include hplanted hsize

/-- Marking a tree of indices in postorder leaves each as it should be. -/
private theorem fits_foldl {r : Rose} (hr : r.Follows links) {table : Array Standing}
    (htable : table.size = t.size)
    (hfirst : ∀ j ∈ r.postorder,
      standingAt table j = standingAt (t.selectedStandings leaves) j) :
    ∀ j ∈ r.postorder,
      (standingAt (r.postorder.foldl t.markAbove table) j).Fits links leaves j := by
  induction r using Rose.induction generalizing table with
  | node i cs ih =>
    have hnodupPost := hplanted.nodup_postorder hr
    rw [Rose.postorder_node] at hnodupPost hfirst ⊢
    obtain ⟨hnodupBelow, -, hdisjoint⟩ := List.nodup_append'.mp hnodupPost
    have hnotMem : i ∉ cs.flatMap Rose.postorder := fun hi =>
      hdisjoint hi (List.mem_singleton_self i)
    rw [List.foldl_append, List.foldl_cons, List.foldl_nil]
    -- marking the trees of the children leaves each of them as it should be
    have hbelow : ∀ c ∈ cs, ∀ j ∈ c.postorder,
        (standingAt ((cs.flatMap Rose.postorder).foldl t.markAbove table) j).Fits
          links leaves j := by
      intro c hc j hj
      obtain ⟨front, back, rfl⟩ := List.append_of_mem hc
      rw [List.flatMap_append, List.flatMap_cons] at hnodupBelow hfirst ⊢
      obtain ⟨-, hnodupRest, hapart⟩ := List.nodup_append'.mp hnodupBelow
      obtain ⟨-, -, hapart'⟩ := List.nodup_append'.mp hnodupRest
      -- the trees in front of the child and behind it do not touch its indices
      rw [List.foldl_append, List.foldl_append,
        standingAt_foldl_of_notMem fun hback => hapart' hj hback]
      refine ih c hc (hr.of_mem hc) (by rw [size_foldl_markAbove, htable]) (fun k hk => ?_) j hj
      rw [standingAt_foldl_of_notMem fun hfront => hapart hfront (List.mem_append_left _ hk)]
      exact hfirst k (List.mem_append_left _
        (List.mem_append_right _ (List.mem_append_left _ hk)))
    intro j hj
    rcases List.mem_append.mp hj with hjbelow | hjtop
    · obtain ⟨c, hc, hjc⟩ := List.mem_flatMap.mp hjbelow
      have hne : j ≠ i := fun heq => hnotMem (heq ▸ hjbelow)
      rw [standingAt_markAbove_of_ne _ hne]
      exact hbelow c hc j hjc
    · rw [List.mem_singleton.mp hjtop]
      refine fits_markAbove hchildren hnodup (by rw [hsize]; exact hr.index_lt)
        (by rw [size_foldl_markAbove, htable]) ?_ fun c hc => ?_
      · rw [standingAt_foldl_of_notMem hnotMem]
        exact hfirst i (List.mem_append_right _ (List.mem_singleton_self i))
      · obtain ⟨d, hd, rfl⟩ := hr.child_iff.mp hc
        exact hbelow d hd _ d.index_mem_postorder

end Fits

/-- The standings of a tree are **as they should be**. -/
theorem Unfolds.fits_standings {r : Rose} (u : t.Unfolds r) (hnodup : leaves.Nodup) {i : Nat}
    (hi : i < t.links.length) : (standingAt (t.standings leaves) i).Fits t.links leaves i := by
  have hmem : i ∈ r.postorder :=
    (u.planted.postorder_perm u.follows rfl).mem_iff.mpr (List.mem_range.mpr hi)
  rw [standings, u.postorder_eq]
  exact fits_foldl u.planted t.childrenAt_eq t.length_links.symm hnodup u.follows
    (size_selectedStandings leaves) (fun _ _ => rfl) i hmem

end Tree

end HashTree
