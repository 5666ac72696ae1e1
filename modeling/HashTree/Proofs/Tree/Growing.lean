import HashTree.Proofs.Tree.Planned

/-!
# Arenas that grow upwards

A tree that is built from its leaves has all its leaves in front and gets its branches one by one,
each over nodes that have no parent yet, its **tops**. Between two branches the tops and the
children listed so far are all the nodes, each once. A new branch keeps this, and with one top left
the arena is a plan.
-/

namespace HashTree

/-- An arena with `items` leaves in front, on which the nodes `tops` still lack a parent. -/
structure Growing (a : Algorithm) (items : Nat) (cells : List Cell) (tops : List Nat) :
    Prop where
  items_le : items ≤ cells.length
  /-- A node lacks a parent or is listed as a child, and not both. -/
  once : (tops ++ (Cell.links cells).flatten).Perm (List.range cells.length)
  /-- Children stand in front of their parent. -/
  ascending : ∀ p c, (Cell.links cells).Child p c → c < p
  isLeaf_iff : ∀ i cell, cells[i]? = some cell → (cell.content.isLeaf = true ↔ i < items)
  sound : ∀ cell ∈ cells, cell.Sound a (cells.map (·.digest))

namespace Growing

variable {a : Algorithm} {items : Nat} {cells : List Cell} {tops rest children : List Nat}
  {root i p c : Nat}

/-- Before the first branch every leaf is a top. -/
theorem of_leaves (hleaf : ∀ cell ∈ cells, cell.content.isLeaf = true)
    (hsound : ∀ cell ∈ cells, cell.Sound a (cells.map (·.digest))) :
    Growing a cells.length cells (List.range cells.length) := by
  have hchildren : ∀ cell ∈ cells, cell.content.children = [] := fun cell hcell =>
    (hsound cell hcell).isLeaf_iff.mp (hleaf cell hcell)
  have hflatten : (Cell.links cells).flatten = [] := by
    rw [List.flatten_eq_nil_iff]
    intro list hlist
    obtain ⟨cell, hcell, rfl⟩ := List.mem_map.mp hlist
    exact hchildren cell hcell
  refine ⟨le_rfl, by rw [hflatten, List.append_nil], fun p c hc => ?_, fun i cell hcell => ?_, hsound⟩
  · have hmem := Links.mem_flatten_iff.mpr ⟨p, hc⟩
    rw [hflatten] at hmem
    simp at hmem
  · have hi := (List.getElem?_eq_some_iff.mp hcell).1
    simp [hleaf cell (List.mem_of_getElem? hcell), hi]

/-- The order of the tops does not matter. -/
theorem perm (h : Growing a items cells tops) (hperm : tops.Perm rest) :
    Growing a items cells rest :=
  { h with once := (hperm.symm.append_right _).trans h.once }

/-- A top is a node. -/
theorem top_lt (h : Growing a items cells tops) (hi : i ∈ tops) : i < cells.length :=
  List.mem_range.mp (h.once.mem_iff.mp (List.mem_append_left _ hi))

private theorem below_lt (h : Growing a items cells tops) {cell : Cell} (hcell : cell ∈ cells)
    (hc : c ∈ cell.content.children) : c < cells.length := by
  obtain ⟨p, hp⟩ := List.mem_iff_getElem?.mp hcell
  exact (h.ascending p c (Cell.child_links hp hc)).trans (List.getElem?_eq_some_iff.mp hp).1

private theorem links_append (cells : List Cell) (cell : Cell) :
    Cell.links (cells ++ [cell]) = Cell.links cells ++ [cell.content.children] := by
  simp [Cell.links]

private theorem child_append {cell : Cell} (hc : (Cell.links (cells ++ [cell])).Child p c) :
    (Cell.links cells).Child p c ∨ p = cells.length ∧ c ∈ cell.content.children := by
  have hlt := hc.parent_lt
  rw [links_append, Links.Child, Links.below, List.getD_eq_getElem?_getD] at hc
  by_cases hp : p < cells.length
  · left
    rwa [List.getElem?_append_left (by simpa), ← List.getD_eq_getElem?_getD] at hc
  · right
    have heq : p = cells.length := by
      rw [Cell.length_links, List.length_append, List.length_singleton] at hlt
      omega
    refine ⟨heq, ?_⟩
    rw [heq, List.getElem?_append_right (by simp)] at hc
    simpa using hc

/-- A **new branch** over two or more tops takes their place among the tops. -/
theorem join (h : Growing a items cells (children ++ rest)) (htwo : 2 ≤ children.length)
    {digest : Digest}
    (hdigest : digest = a.digest (children.flatMap fun i => (cells.map (·.digest)).getD i [])) :
    Growing a items (cells ++ [⟨digest, .internal children⟩]) (cells.length :: rest) := by
  have hlength : (cells.map (·.digest)).length = cells.length := List.length_map _
  have hlt : ∀ c ∈ children, c < cells.length := fun c hc =>
    h.top_lt (List.mem_append_left _ hc)
  refine ⟨?_, ?_, fun p c hc => ?_, fun i cell hcell => ?_, fun cell hcell => ?_⟩
  · rw [List.length_append]
    exact Nat.le_add_right_of_le h.items_le
  · -- the children move from the tops to the listed indices
    rw [links_append, List.flatten_append, List.length_append, List.length_singleton,
      List.range_succ]
    have hmove : (cells.length :: rest ++ ((Cell.links cells).flatten ++ [children].flatten)).Perm
        ([cells.length] ++ (children ++ rest ++ (Cell.links cells).flatten)) := by
      rw [List.flatten_singleton, List.cons_append, List.singleton_append]
      refine List.Perm.cons _ ?_
      rw [← List.append_assoc, List.append_assoc children]
      exact List.perm_append_comm
    exact (hmove.trans (h.once.append_left _)).trans List.perm_append_comm
  · rcases child_append hc with hold | ⟨hp, hnew⟩
    · exact h.ascending p c hold
    · rw [hp]
      exact hlt c hnew
  · -- the new node stands behind all items, and is no leaf
    by_cases hi : i < cells.length
    · rw [List.getElem?_append_left hi] at hcell
      exact h.isLeaf_iff i cell hcell
    · rw [List.getElem?_append_right (Nat.le_of_not_lt hi)] at hcell
      obtain rfl := List.mem_singleton.mp (List.mem_of_getElem? hcell)
      have hitems := h.items_le
      simp only [Content.isLeaf]
      constructor
      · intro hfalse
        simp at hfalse
      · intro hlt
        omega
  · -- all children stand among the old digests, so the new one changes no hash
    rw [List.map_append, List.map_singleton]
    rcases List.mem_append.mp hcell with hcell | hcell
    · exact (h.sound cell hcell).append (fun c hc => hlength ▸ h.below_lt hcell hc) _
    · obtain rfl := List.mem_singleton.mp hcell
      have hnew : Cell.Sound a (cells.map (·.digest)) ⟨digest, .internal children⟩ :=
        ⟨htwo, hdigest⟩
      exact hnew.append (fun c hc => hlength ▸ hlt c hc) _

/-- With **one top** left the arena is a plan. -/
theorem planned (h : Growing a items cells [root]) :
    Planned a cells (List.range items) root where
  planted := .of_ascending (by simpa using h.once) h.ascending
  leaves_nodup := List.nodup_range
  mem_leaves i := by
    rw [List.mem_range]
    constructor
    · intro hi
      have hlt := Nat.lt_of_lt_of_le hi h.items_le
      exact ⟨cells[i], List.getElem?_eq_getElem hlt,
        (h.isLeaf_iff i _ (List.getElem?_eq_getElem hlt)).mpr hi⟩
    · rintro ⟨cell, hcell, hleaf⟩
      exact (h.isLeaf_iff i cell hcell).mp hleaf
  sound := h.sound

end Growing

end HashTree
