import Mathlib.Algebra.Group.Nat.Defs
import Mathlib.Order.Bounds.Defs

/-!
# Pairing and halving

A list is made into a binary tree level by level: neighbours are joined in pairs, and what is left
over at the end of a level is carried up as it is. The same tree comes of cutting the list in two,
again and again, where the first part is as long as the **largest power of two** that leaves
something for the second: joining pairs never crosses such a cut before both parts are single trees.
-/

namespace HashTree

/-- A binary tree with items at its ends. -/
inductive Paired (α : Type) where
  | single (item : α)
  | join (left right : Paired α)

namespace Paired

variable {α β : Type}

/-! ## §1 Trees from levels -/

/-- The items from left to right. -/
def items : Paired α → List α
  | single item => [item]
  | join left right => left.items ++ right.items

/-- The same tree over other items. -/
def map (f : α → β) : Paired α → Paired β
  | single item => single (f item)
  | join left right => join (left.map f) (right.map f)

/-- The next level: pairs are joined, and a tree without a partner stays as it is. -/
def pairs : List (Paired α) → List (Paired α)
  | [] => []
  | [last] => [last]
  | left :: right :: rest => join left right :: pairs rest

theorem length_pairs (level : List (Paired α)) : (pairs level).length = (level.length + 1) / 2 := by
  fun_induction pairs level with
  | case1 => simp
  | case2 => simp
  | case3 left right rest ih =>
    rw [List.length_cons, ih]
    simp only [List.length_cons]
    omega

/-- The tree that is left when level after level was made. -/
def ofLevel (level : List (Paired α)) : Option (Paired α) :=
  match level with
  | [] => none
  | [root] => some root
  | left :: right :: rest => ofLevel (pairs (left :: right :: rest))
termination_by level.length
decreasing_by
  rw [length_pairs]
  simp only [List.length_cons]
  omega

/-- The tree of a list of items. -/
def ofList (xs : List α) : Option (Paired α) := ofLevel (xs.map single)

theorem ofLevel_singleton (root : Paired α) : ofLevel [root] = some root := by
  rw [ofLevel]

/-- Making the next level first changes nothing. -/
theorem ofLevel_pairs (level : List (Paired α)) : ofLevel (pairs level) = ofLevel level := by
  rcases level with - | ⟨left, - | ⟨right, rest⟩⟩
  · rfl
  · rfl
  · rw [ofLevel.eq_def (left :: right :: rest)]

theorem pairs_map (f : α → β) (level : List (Paired α)) :
    pairs (level.map (map f)) = (pairs level).map (map f) := by
  fun_induction pairs level with
  | case1 => rfl
  | case2 => rfl
  | case3 left right rest ih =>
    rw [List.map_cons, List.map_cons, pairs, ih]
    rfl

theorem ofLevel_map (f : α → β) (level : List (Paired α)) :
    ofLevel (level.map (map f)) = (ofLevel level).map (map f) := by
  fun_induction ofLevel level with
  | case1 => rw [List.map_nil, ofLevel, Option.map_none]
  | case2 root => exact ofLevel_singleton _
  | case3 left right rest ih => rw [← ofLevel_pairs, pairs_map, ih]

/-- The tree depends on the places of the items only. -/
theorem ofList_map (f : α → β) (xs : List α) : ofList (xs.map f) = (ofList xs).map (map f) := by
  rw [ofList, ofList, ← ofLevel_map, List.map_map, List.map_map]
  rfl

theorem flatMap_items_pairs (level : List (Paired α)) :
    (pairs level).flatMap items = level.flatMap items := by
  fun_induction pairs level with
  | case1 => rfl
  | case2 => rfl
  | case3 left right rest ih => simp [items, ih]

theorem items_of_ofLevel {level : List (Paired α)} {tree : Paired α}
    (h : ofLevel level = some tree) : tree.items = level.flatMap items := by
  fun_induction ofLevel level with
  | case1 => cases h
  | case2 root => simp [Option.some.inj h]
  | case3 left right rest ih => rw [ih h, flatMap_items_pairs]

/-- The tree of a list has the items of the list **in their order**. -/
theorem items_of_ofList {xs : List α} {tree : Paired α} (h : ofList xs = some tree) :
    tree.items = xs := by
  rw [items_of_ofLevel h, List.flatMap_map]
  exact List.flatMap_singleton' xs

/-! ## §2 Cuts -/

/-- Pairs do not cross a cut at an even place. -/
theorem pairs_take (count : Nat) (level : List (Paired α)) :
    pairs (level.take (2 * count)) = (pairs level).take count := by
  fun_induction pairs level generalizing count with
  | case1 => simp [pairs]
  | case2 last =>
    cases count with
    | zero => rfl
    | succ count => simp [pairs, Nat.mul_add]
  | case3 left right rest ih =>
    cases count with
    | zero => rfl
    | succ count => simp [pairs, Nat.mul_add, ih]

theorem pairs_drop (count : Nat) (level : List (Paired α)) :
    pairs (level.drop (2 * count)) = (pairs level).drop count := by
  fun_induction pairs level generalizing count with
  | case1 => simp [pairs]
  | case2 last =>
    cases count with
    | zero => rfl
    | succ count => simp [pairs, Nat.mul_add]
  | case3 left right rest ih =>
    cases count with
    | zero => rfl
    | succ count => simp [Nat.mul_add, ih]

/-- A level is cut at a power of two: each part is made into a tree by itself, and **the last join
is that of the two**. -/
theorem exists_halves (height : Nat) (level : List (Paired α))
    (hlt : 2 ^ height < level.length) (hle : level.length ≤ 2 ^ (height + 1)) :
    ∃ left right, ofLevel (level.take (2 ^ height)) = some left
      ∧ ofLevel (level.drop (2 ^ height)) = some right
      ∧ ofLevel level = some (join left right) := by
  induction height generalizing level with
  | zero =>
    -- a level of two
    rcases level with - | ⟨left, - | ⟨right, - | ⟨third, rest⟩⟩⟩
    · simp at hlt
    · simp at hlt
    · have hjoin := ofLevel_singleton (join left right)
      exact ⟨left, right, ofLevel_singleton left, ofLevel_singleton right,
        (ofLevel_pairs [left, right]).symm.trans hjoin⟩
    · simp at hle
  | succ height ih =>
    -- the next level is cut at half the place, and its parts are the next levels of the parts
    have hdouble : 2 ^ (height + 1) = 2 * 2 ^ height := Nat.pow_succ'
    have hquadruple : 2 ^ (height + 1 + 1) = 2 * 2 ^ (height + 1) := Nat.pow_succ'
    obtain ⟨left, right, hleft, hright, hjoin⟩ := ih (pairs level)
      (by rw [length_pairs]; omega) (by rw [length_pairs]; omega)
    rw [← pairs_take, ofLevel_pairs, ← hdouble] at hleft
    rw [← pairs_drop, ofLevel_pairs, ← hdouble] at hright
    rw [ofLevel_pairs] at hjoin
    exact ⟨left, right, hleft, hright, hjoin⟩

/-- Where a list is cut in two. -/
def cut (length : Nat) : Nat := 2 ^ (length - 1).log2

/-- A list is cut at the **largest power of two** that is smaller than its length. -/
theorem isGreatest_cut {length : Nat} (h : 2 ≤ length) :
    IsGreatest {m | (∃ height, m = 2 ^ height) ∧ m < length} (cut length) := by
  have hne : length - 1 ≠ 0 := by omega
  constructor
  · have hle := Nat.log2_self_le hne
    exact ⟨⟨_, rfl⟩, by rw [cut]; omega⟩
  · rintro _ ⟨⟨height, rfl⟩, hlt⟩
    apply Nat.pow_le_pow_right (by decide)
    exact (Nat.le_log2 hne).mpr (by omega)

theorem le_two_mul_cut {length : Nat} : length ≤ 2 ^ ((length - 1).log2 + 1) := by
  have hlt := Nat.lt_log2_self (n := length - 1)
  omega

/-- Both parts have items, and fewer than the list. -/
theorem length_take_cut (xs : List α) (h : 2 ≤ xs.length) :
    0 < (xs.take (cut xs.length)).length ∧ (xs.take (cut xs.length)).length < xs.length := by
  have hlt := (isGreatest_cut h).1.2
  have hpos : 0 < cut xs.length := Nat.two_pow_pos _
  rw [List.length_take]
  omega

theorem length_drop_cut (xs : List α) (h : 2 ≤ xs.length) :
    0 < (xs.drop (cut xs.length)).length ∧ (xs.drop (cut xs.length)).length < xs.length := by
  have hlt := (isGreatest_cut h).1.2
  have hpos : 0 < cut xs.length := Nat.two_pow_pos _
  rw [List.length_drop]
  omega

/-- The tree of a list **joins the trees of its two parts**. -/
theorem ofList_eq_join (xs : List α) (h : 2 ≤ xs.length) :
    ∃ left right, ofList (xs.take (cut xs.length)) = some left
      ∧ ofList (xs.drop (cut xs.length)) = some right ∧ ofList xs = some (join left right) := by
  have hlt := (isGreatest_cut h).1.2
  obtain ⟨left, right, hleft, hright, hjoin⟩ :=
    exists_halves (xs.length - 1).log2 (xs.map single)
      (by rw [List.length_map]; exact hlt) (by rw [List.length_map]; exact le_two_mul_cut)
  rw [← List.map_take] at hleft
  rw [← List.map_drop] at hright
  exact ⟨left, right, hleft, hright, hjoin⟩

end Paired

end HashTree
