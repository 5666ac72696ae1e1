import Mathlib.Data.List.Nodup
import Mathlib.Data.List.Perm.Basic

/-!
# Tables filled entry by entry

Several parts of a tree are computed by entering values at indices of an array of fixed size: the
parents of nodes, the members of a subtree, the ranks of nodes, the standings of leaves. What such
a table holds at the end is read off the list of its entries, as long as no index is entered twice.
-/

namespace HashTree

namespace Table

variable {α : Type}

/-- Enters values at indices, one after the other; an index out of bounds changes nothing. -/
def fill (table : Array α) (entries : List (Nat × α)) : Array α :=
  entries.foldl (fun table entry => table.setIfInBounds entry.1 entry.2) table

@[simp]
theorem fill_nil (table : Array α) : fill table [] = table := rfl

@[simp]
theorem fill_cons (table : Array α) (entry : Nat × α) (entries : List (Nat × α)) :
    fill table (entry :: entries) = fill (table.setIfInBounds entry.1 entry.2) entries := rfl

theorem fill_append (table : Array α) (entries more : List (Nat × α)) :
    fill table (entries ++ more) = fill (fill table entries) more :=
  List.foldl_append

/-- Filling keeps the size. -/
@[simp]
theorem size_fill (table : Array α) (entries : List (Nat × α)) :
    (fill table entries).size = table.size := by
  induction entries generalizing table with
  | nil => rfl
  | cons entry entries ih => rw [fill_cons, ih, Array.size_setIfInBounds]

/-- An index that is not entered keeps its value. -/
theorem getElem?_fill_of_notMem {entries : List (Nat × α)} {i : Nat}
    (hi : i ∉ entries.map Prod.fst) (table : Array α) :
    (fill table entries)[i]? = table[i]? := by
  induction entries generalizing table with
  | nil => rfl
  | cons entry entries ih =>
    rw [List.map_cons, List.mem_cons, not_or] at hi
    rw [fill_cons, ih hi.2, Array.getElem?_setIfInBounds_ne (Ne.symm hi.1)]

/-- An index that is entered **once** gets the value entered there. -/
theorem getElem?_fill_of_mem {entries : List (Nat × α)} (hnodup : (entries.map Prod.fst).Nodup)
    {i : Nat} {a : α} (hmem : (i, a) ∈ entries) {table : Array α} (hi : i < table.size) :
    (fill table entries)[i]? = some a := by
  induction entries generalizing table with
  | nil => simp at hmem
  | cons entry entries ih =>
    rw [List.map_cons, List.nodup_cons] at hnodup
    rw [fill_cons]
    rcases List.mem_cons.mp hmem with rfl | hmem
    · rw [getElem?_fill_of_notMem hnodup.1, Array.getElem?_setIfInBounds_self_of_lt hi]
    · exact ih hnodup.2 hmem (by rwa [Array.size_setIfInBounds])

end Table

end HashTree
