import Mathlib.Data.Nat.Log
import HashTree.Proofs.Tree.Paired

/-!
# How deep the items of a paired list lie

Joining neighbours halves the length of a level, and so a list is a single tree after as many levels
as the **logarithm of its length, rounded up**. An item that is carried up passes a level without a
join above it; the first item always has a partner, and lies as deep as there are levels.
-/

namespace HashTree

namespace Paired

variable {α : Type} {x : α} {bound depth : Nat} {tree : Paired α} {level : List (Paired α)}

/-- The length of the longest way down. -/
def height : Paired α → Nat
  | single _ => 0
  | join left right => max left.height right.height + 1

/-- An item lies in a tree **below so many joins**. -/
inductive AtDepth (x : α) : Nat → Paired α → Prop where
  | here : AtDepth x 0 (.single x)
  | left {depth : Nat} {onLeft onRight : Paired α} (h : AtDepth x depth onLeft) :
    AtDepth x (depth + 1) (.join onLeft onRight)
  | right {depth : Nat} {onLeft onRight : Paired α} (h : AtDepth x depth onRight) :
    AtDepth x (depth + 1) (.join onLeft onRight)

theorem AtDepth.le_height (h : AtDepth x depth tree) : depth ≤ tree.height := by
  induction h with
  | here => exact Nat.le_refl 0
  | left _ ih => exact Nat.succ_le_succ (ih.trans (Nat.le_max_left _ _))
  | right _ ih => exact Nat.succ_le_succ (ih.trans (Nat.le_max_right _ _))

/-- The items of a tree are what lies in it at some depth. -/
theorem mem_items_iff : x ∈ tree.items ↔ ∃ depth, AtDepth x depth tree := by
  constructor
  · intro h
    induction tree with
    | single item =>
      obtain rfl := List.mem_singleton.mp h
      exact ⟨0, .here⟩
    | join onLeft onRight ihleft ihright =>
      rcases List.mem_append.mp h with h | h
      · obtain ⟨depth, h⟩ := ihleft h
        exact ⟨depth + 1, .left h⟩
      · obtain ⟨depth, h⟩ := ihright h
        exact ⟨depth + 1, .right h⟩
  · intro h
    obtain ⟨depth, h⟩ := h
    induction h with
    | here => exact List.mem_singleton_self x
    | left _ ih => exact List.mem_append_left _ ih
    | right _ ih => exact List.mem_append_right _ ih

/-! ## §1 One level -/

/-- The next level is half as long, so its logarithm is smaller by one. -/
theorem clog_length_pairs (h : 2 ≤ level.length) :
    Nat.clog 2 level.length = Nat.clog 2 (pairs level).length + 1 := by
  rw [length_pairs, Nat.clog_of_two_le Nat.one_lt_two h]
  rfl

/-- On the next level the trees are **higher by one join** at most. -/
theorem height_pairs (h : ∀ tree ∈ level, tree.height ≤ bound) :
    ∀ tree ∈ pairs level, tree.height ≤ bound + 1 := by
  fun_induction pairs level with
  | case1 => simp
  | case2 last =>
    rw [List.forall_mem_singleton] at h ⊢
    exact Nat.le_succ_of_le h
  | case3 left right rest ih =>
    obtain ⟨hleft, hpair⟩ := List.forall_mem_cons.mp h
    obtain ⟨hright, hrest⟩ := List.forall_mem_cons.mp hpair
    exact List.forall_mem_cons.mpr ⟨Nat.succ_le_succ (Nat.max_le.mpr ⟨hleft, hright⟩), ih hrest⟩

/-! ## §2 All levels -/

/-- Each level adds one to the height at most. -/
theorem height_of_ofLevel (htree : ofLevel level = some tree)
    (h : ∀ tree ∈ level, tree.height ≤ bound) : tree.height ≤ bound + Nat.clog 2 level.length := by
  fun_induction ofLevel level generalizing bound with
  | case1 => cases htree
  | case2 root =>
    obtain rfl := Option.some.inj htree
    exact Nat.le_add_right_of_le (h root (List.mem_singleton_self root))
  | case3 left right rest ih =>
    have hrest := ih htree (height_pairs h)
    rw [clog_length_pairs (by simp)]
    omega

/-- Each level but the last adds a join **above the first tree**. -/
theorem AtDepth.of_ofLevel {first : Paired α} {others : List (Paired α)}
    (htree : ofLevel (first :: others) = some tree) (h : AtDepth x depth first) :
    AtDepth x (depth + Nat.clog 2 (first :: others).length) tree := by
  induction hlength : (first :: others).length using Nat.strong_induction_on
    generalizing first others depth with
  | _ length ih =>
    cases others with
    | nil =>
      rw [ofLevel_singleton] at htree
      obtain rfl := Option.some.inj htree
      rw [← hlength]
      simpa using h
    | cons second rest =>
      -- the first tree of the next level joins the first two
      rw [← ofLevel_pairs, pairs] at htree
      have hpairs : Nat.clog 2 (first :: second :: rest).length
          = Nat.clog 2 (pairs (first :: second :: rest)).length + 1 := clog_length_pairs (by simp)
      have hshorter : (join first second :: pairs rest).length < length := by
        rw [← hlength, List.length_cons, length_pairs]
        simp only [List.length_cons]
        omega
      have hnext := ih _ hshorter htree h.left rfl
      rw [← hlength, hpairs]
      rwa [Nat.add_right_comm] at hnext

/-- The tree of a list is **as high as the logarithm of its length**, rounded up, at most. -/
theorem height_of_ofList {xs : List α} (htree : ofList xs = some tree) :
    tree.height ≤ Nat.clog 2 xs.length := by
  have hlevel : ∀ tree ∈ xs.map single, tree.height ≤ 0 := by simp [height]
  have hheight := height_of_ofLevel htree hlevel
  rwa [List.length_map, Nat.zero_add] at hheight

/-- The first item of a list lies **at this depth**. -/
theorem atDepth_of_ofList {xs : List α} (htree : ofList xs = some tree)
    (hfirst : xs.head? = some x) : AtDepth x (Nat.clog 2 xs.length) tree := by
  obtain ⟨others, rfl⟩ := List.head?_eq_some_iff.mp hfirst
  have hdepth : AtDepth x (0 + Nat.clog 2 (single x :: others.map single).length) tree :=
    AtDepth.of_ofLevel htree .here
  rwa [Nat.zero_add, ← List.map_cons, List.length_map] at hdepth

end Paired

end HashTree
