import HashTree.Proofs.Tree.Copy
import Mathlib.Data.List.Sort
import Mathlib.Logic.Function.Basic

/-!
# Arenas inside arenas

An arena is embedded in another one when its cells stand there in the same order, with their
children renamed to where these stand. Then what lies below an index is embedded as well, and nothing
else lies below the index that it is sent to. So the copy of a subtree whose topmost node comes from
the root of an embedded arena is the tree of that arena.
-/

namespace HashTree

/-! ## §1 Renaming -/

@[simp]
theorem Content.rename_id (content : Content) : content.rename id = content := by
  cases content <;> simp [rename]

@[simp]
theorem Content.rename_rename (content : Content) (f g : Nat → Nat) :
    (content.rename f).rename g = content.rename (g ∘ f) := by
  cases content <;> simp [rename]

theorem Content.rename_congr {content : Content} {f g : Nat → Nat}
    (h : ∀ c ∈ content.children, f c = g c) : content.rename f = content.rename g := by
  cases content with
  | leaf payload => rfl
  | internal children => exact congrArg Content.internal (List.map_congr_left h)

/-- A cell with its children renamed. -/
def Cell.rename (f : Nat → Nat) (cell : Cell) : Cell := ⟨cell.digest, cell.content.rename f⟩

/-! ## §2 Embeddings -/

/-- The first arena is **embedded** in the second one by a renaming of its indices. -/
structure Embeds (f : Nat → Nat) (part whole : List Cell) : Prop where
  cell_eq : ∀ k cell, part[k]? = some cell → whole[f k]? = some (cell.rename f)
  /-- The cells keep their order. -/
  ascending : ∀ j k, j < k → k < part.length → f j < f k
  closed : ∀ cell ∈ part, ∀ c ∈ cell.content.children, c < part.length

namespace Embeds

variable {f g : Nat → Nat} {part middle whole : List Cell} {i j k : Nat}

theorem lt (h : Embeds f part whole) (hk : k < part.length) : f k < whole.length :=
  (List.getElem?_eq_some_iff.mp (h.cell_eq k _ (List.getElem?_eq_getElem hk))).1

theorem refl (closed : ∀ cell ∈ part, ∀ c ∈ cell.content.children, c < part.length) :
    Embeds id part part where
  cell_eq k cell hcell := by simpa [Cell.rename] using hcell
  ascending j k hjk _ := hjk
  closed := closed

theorem trans (h : Embeds f part middle) (h' : Embeds g middle whole) :
    Embeds (g ∘ f) part whole where
  cell_eq k cell hcell := by
    have hwhole := h'.cell_eq (f k) _ (h.cell_eq k cell hcell)
    rwa [Cell.rename, Cell.rename, Content.rename_rename] at hwhole
  ascending j k hjk hk := h'.ascending _ _ (h.ascending j k hjk hk) (h.lt hk)
  closed := h.closed

/-- Further cells **outside** change nothing. -/
theorem append (h : Embeds f part whole) (more : List Cell) : Embeds f part (whole ++ more) where
  cell_eq k cell hcell := by
    have hlt := h.lt (List.getElem?_eq_some_iff.mp hcell).1
    rw [List.getElem?_append_left hlt, h.cell_eq k cell hcell]
  ascending := h.ascending
  closed := h.closed

/-- A further cell **inside** stands outside at the end as well. -/
theorem concat (h : Embeds f part whole) (cell : Cell)
    (hclosed : ∀ c ∈ cell.content.children, c < part.length) :
    Embeds (Function.update f part.length whole.length) (part ++ [cell])
      (whole ++ [cell.rename f]) := by
  have hold : ∀ k < part.length, Function.update f part.length whole.length k = f k :=
    fun k hk => Function.update_of_ne (Nat.ne_of_lt hk) _ _
  -- the children are older than the new cell, so the new place is not one of theirs
  have hrename : ∀ cell : Cell, (∀ c ∈ cell.content.children, c < part.length) →
      cell.rename (Function.update f part.length whole.length) = cell.rename f :=
    fun cell hcell => congrArg (Cell.mk cell.digest)
      (Content.rename_congr fun c hc => hold c (hcell c hc))
  refine ⟨fun k cell' hcell => ?_, fun j k hjk hk => ?_, fun cell' hcell c hc => ?_⟩
  · by_cases hk : k < part.length
    · rw [List.getElem?_append_left hk] at hcell
      rw [hold k hk, List.getElem?_append_left (h.lt hk), h.cell_eq k cell' hcell,
        hrename cell' (h.closed cell' (List.mem_of_getElem? hcell))]
    · obtain ⟨hlt, rfl⟩ := List.getElem?_eq_some_iff.mp hcell
      obtain rfl : k = part.length := by
        rw [List.length_append, List.length_singleton] at hlt
        omega
      simp [hrename cell hclosed]
  · rw [List.length_append, List.length_singleton] at hk
    by_cases hlast : k = part.length
    · rw [hold j (hlast ▸ hjk), hlast, Function.update_self]
      exact h.lt (hlast ▸ hjk)
    · rw [hold j (by omega), hold k (by omega)]
      exact h.ascending j k hjk (by omega)
  · rw [List.length_append, List.length_singleton]
    rcases List.mem_append.mp hcell with hcell | hcell
    · exact Nat.lt_succ_of_lt (h.closed cell' hcell c hc)
    · obtain rfl := List.mem_singleton.mp hcell
      exact Nat.lt_succ_of_lt (hclosed c hc)

/-- The children of an index are sent to the children of where it is sent. -/
theorem below_eq (h : Embeds f part whole) (hk : k < part.length) :
    (Cell.links whole).below (f k) = ((Cell.links part).below k).map f := by
  have hcell := List.getElem?_eq_getElem hk
  rw [Cell.below_links hcell, Cell.below_links (h.cell_eq k _ hcell)]
  exact Content.children_rename _ f

theorem child_lt (h : Embeds f part whole) (hc : (Cell.links part).Child j k) :
    k < part.length := by
  have hj : j < part.length := by simpa using hc.parent_lt
  have hcell := List.getElem?_eq_getElem hj
  rw [Links.Child, Cell.below_links hcell] at hc
  exact h.closed _ (List.mem_of_getElem? hcell) k hc

/-- Below where an index is sent lies what is below it, and **nothing else**. -/
theorem descends_iff (h : Embeds f part whole) (hk : k < part.length) :
    (Cell.links whole).Descends (f k) i
      ↔ ∃ j < part.length, (Cell.links part).Descends k j ∧ f j = i := by
  constructor
  · intro hd
    induction hd with
    | refl => exact ⟨k, hk, .refl, rfl⟩
    | tail _ hc ih =>
      obtain ⟨j, hj, hdj, rfl⟩ := ih
      rw [Links.Child, h.below_eq hj] at hc
      obtain ⟨c, hchild, rfl⟩ := List.mem_map.mp hc
      exact ⟨c, h.child_lt hchild, hdj.tail hchild, rfl⟩
  · rintro ⟨j, -, hd, rfl⟩
    induction hd with
    | refl => exact .refl
    | @tail p c _ hc ih =>
      have hp : p < part.length := by simpa using hc.parent_lt
      refine ih.tail ?_
      rw [Links.Child, h.below_eq hp]
      exact List.mem_map_of_mem hc

/-- In arenas of plans an index is sent to a leaf exactly when it is one. -/
theorem mem_leaves_iff {a : Algorithm} {inner leaves : List Nat} {top root : Nat}
    (h : Embeds f part whole) (plan : Planned a whole leaves root)
    (inside : Planned a part inner top) (hk : k < part.length) : f k ∈ leaves ↔ k ∈ inner := by
  have hcell := List.getElem?_eq_getElem hk
  rw [plan.mem_leaves, inside.mem_leaves, h.cell_eq k _ hcell, hcell]
  simp [Cell.rename]

end Embeds

/-! ## §3 Copies -/

namespace Subtree

variable {a : Algorithm} {part whole : List Cell} {inner leaves : List Nat} {top root : Nat}
  {f : Nat → Nat} {s : Subtree}

section

variable (plan : Planned a whole leaves root) (htree : s.tree = Tree.assemble a whole leaves root)
  (inside : Planned a part inner top) (h : Embeds f part whole) (htop : s.root = f top)
include plan htree inside h htop

/-- The members of the subtree are the cells of the embedded arena, **in their order**. -/
theorem members_of_embeds : s.members = (List.range part.length).map f := by
  have hlt : top < part.length := by simpa using inside.planted.root_lt
  have hascending : ((List.range part.length).map f).Pairwise (· < ·) := by
    rw [List.pairwise_map]
    apply List.pairwise_lt_range.imp_of_mem
    intro j k _ hk hjk
    exact h.ascending j k hjk (List.mem_range.mp hk)
  -- both lists ascend, so it is enough that they have the same members
  refine s.pairwise_members.eq_of_mem_iff hascending fun i => ?_
  rw [mem_members_iff_descends plan htree, htop, h.descends_iff hlt, List.mem_map]
  constructor
  · rintro ⟨j, hj, -, hi⟩
    exact ⟨j, List.mem_range.mpr hj, hi⟩
  · rintro ⟨j, hj, hi⟩
    have hj := List.mem_range.mp hj
    exact ⟨j, hj, inside.planted.descends j (by simpa using hj), hi⟩

/-- Its leaves are **the leaves of the embedded arena**. -/
theorem mem_leaves_of_embeds {i : Nat} : i ∈ s.leaves ↔ ∃ k ∈ inner, f k = i := by
  have hleaf : ∀ k < part.length, f k ∈ leaves ↔ k ∈ inner := fun _ hk =>
    h.mem_leaves_iff plan inside hk
  rw [leaves_eq_filter htree, List.mem_filter, decide_eq_true_iff,
    members_of_embeds plan htree inside h htop, List.mem_map]
  constructor
  · rintro ⟨hi, k, hk, rfl⟩
    exact ⟨k, (hleaf k (List.mem_range.mp hk)).mp hi, rfl⟩
  · rintro ⟨k, hk, rfl⟩
    have hlt := inside.leaf_lt hk
    exact ⟨(hleaf k hlt).mpr hk, k, List.mem_range.mpr hlt, rfl⟩

/-- The copy of the subtree is **the tree of the embedded arena**. -/
theorem copy_of_embeds (hleaves : s.leaves = inner.map f) :
    s.copy = Tree.assemble a part inner top := by
  have hmembers := members_of_embeds plan htree inside h htop
  -- ranks undo the renaming
  have hrank : ∀ k < part.length, s.ranks.getD (f k) 0 = k := by
    intro k hk
    have hget := congrArg (·[k]?) (map_ranks_of_plan plan htree)
    rw [hmembers] at hget
    simpa [hk] using hget
  have hcells : s.members.map (Planned.renamed whole fun i => s.ranks.getD i 0) = part := by
    rw [hmembers, List.map_map]
    refine List.ext_getElem (by simp) fun k _ hk => ?_
    have hcell := h.cell_eq k _ (List.getElem?_eq_getElem hk)
    rw [List.getElem_map, List.getElem_range, Function.comp_apply, Planned.renamed,
      List.getD_eq_getElem?_getD, hcell, Option.getD_some, Cell.rename, Content.rename_rename]
    have hsame : part[k].content.rename ((fun i => s.ranks.getD i 0) ∘ f)
        = part[k].content.rename id :=
      Content.rename_congr fun c hc => hrank c (h.closed _ (List.getElem_mem hk) c hc)
    rw [hsame, Content.rename_id]
  have hinner : s.leaves.map (fun i => s.ranks.getD i 0) = inner := by
    rw [hleaves, List.map_map]
    exact (List.map_congr_left fun k hk => hrank k (inside.leaf_lt hk)).trans (List.map_id inner)
  have hlt : top < part.length := by simpa using inside.planted.root_lt
  rw [copy_eq plan htree, hcells, hinner, htop, hrank top hlt]

end

end Subtree

end HashTree
