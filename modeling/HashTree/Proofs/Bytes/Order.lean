import HashTree.Bytes
import Mathlib.Data.List.Sort

/-!
# Sorting by byte strings

Byte strings are compared as lists of bytes. What is sorted by such a key comes out ascending, and
items of one key keep their order, which together leave **one result**. The sorted keys depend on
nothing but which keys there are, and on how many of each.
-/

namespace HashTree

namespace Bytes

/-! ## §1 The order -/

/-- The comparison is the lexicographic order of lists. -/
theorem le_iff {x y : Bytes} : le x y = true ↔ x ≤ y := by
  induction x generalizing y with
  | nil => simp [le]
  | cons b x ih =>
    cases y with
    | nil => simp [le]
    | cons c y =>
      rw [List.cons_le_cons_iff, le]
      rcases Std.lt_trichotomy b c with hlt | rfl | hgt
      · simp [hlt]
      · simp [ih]
      · -- the second is greater in neither way
        have hnlt : ¬ b < c := Std.Asymm.asymm _ _ hgt
        have hne : b ≠ c := fun h => Std.lt_irrefl (h ▸ hgt)
        simp [hgt, hnlt, hne]

variable {α : Type} (key : α → Bytes)

theorem le_trans' (x y z : α) (hxy : le (key x) (key y) = true) (hyz : le (key y) (key z) = true) :
    le (key x) (key z) = true :=
  le_iff.2 (List.le_trans (le_iff.1 hxy) (le_iff.1 hyz))

theorem le_total' (x y : α) : (le (key x) (key y) || le (key y) (key x)) = true := by
  rw [Bool.or_eq_true, le_iff, le_iff]
  exact List.le_total (key x) (key y)

/-! ## §2 Sorting -/

/-- What is sorted by a key ascends. -/
theorem pairwise_mergeSort (xs : List α) :
    (xs.mergeSort fun x y => le (key x) (key y)).Pairwise fun x y => key x ≤ key y := by
  have h := List.pairwise_mergeSort (le_trans' key) (le_total' key) xs
  exact h.imp le_iff.1

/-- Items of one key **keep their order**. -/
theorem filter_mergeSort (xs : List α) (k : Bytes) :
    (xs.mergeSort fun x y => le (key x) (key y)).filter (key · = k) = xs.filter (key · = k) := by
  -- the items of one key are sorted as they are, so they are found again in their order
  have htied : (xs.filter (key · = k)).Pairwise fun x y => le (key x) (key y) = true := by
    rw [List.pairwise_iff_forall_sublist]
    intro x y hxy
    have hx : key x = k := by simpa using List.of_mem_filter (hxy.subset List.mem_cons_self)
    have hy : key y = k := by simpa using List.of_mem_filter (hxy.subset (by simp : y ∈ [x, y]))
    rw [hx, hy, le_iff]
    exact List.le_refl k
  have hsub := (List.sublist_mergeSort (le_trans' key) (le_total' key) htied
    List.filter_sublist).filter (key · = k)
  simp only [List.filter_filter, Bool.and_self] at hsub
  have hlength := ((List.mergeSort_perm xs fun x y => le (key x) (key y)).filter
    (key · = k)).length_eq
  exact (hsub.eq_of_length hlength.symm).symm

/-- An ascending list is determined by its items of each key, in their order. -/
theorem eq_of_filter {xs ys : List α} (hx : xs.Pairwise fun x y => key x ≤ key y)
    (hy : ys.Pairwise fun x y => key x ≤ key y)
    (h : ∀ k, xs.filter (key · = k) = ys.filter (key · = k)) : xs = ys := by
  have hmem : ∀ {xs ys : List α}, (∀ k, xs.filter (key · = k) = ys.filter (key · = k)) →
      ∀ x ∈ xs, x ∈ ys := by
    intro xs ys h x hx
    have hfound : x ∈ ys.filter (key · = key x) := by
      rw [← h]
      exact List.mem_filter.mpr ⟨hx, by simp⟩
    exact List.mem_of_mem_filter hfound
  induction xs generalizing ys with
  | nil =>
    cases ys with
    | nil => rfl
    | cons y ys => simpa using hmem (fun k => (h k).symm) y List.mem_cons_self
  | cons x xs ih =>
    cases ys with
    | nil => simpa using hmem h x List.mem_cons_self
    | cons y ys =>
      rw [List.pairwise_cons] at hx hy
      -- either first item stands in the other list, so they have one key
      have hxy : key y ≤ key x := by
        rcases List.mem_cons.mp (hmem h x List.mem_cons_self) with rfl | hmem
        · exact List.le_refl _
        · exact hy.1 x hmem
      have hyx : key x ≤ key y := by
        rcases List.mem_cons.mp (hmem (fun k => (h k).symm) y List.mem_cons_self) with rfl | hmem
        · exact List.le_refl _
        · exact hx.1 y hmem
      have hkey : key x = key y := List.le_antisymm hyx hxy
      have hfirst := h (key x)
      rw [List.filter_cons_of_pos (by simp), List.filter_cons_of_pos (by simp [hkey])] at hfirst
      obtain ⟨rfl, -⟩ := List.cons.inj hfirst
      refine congrArg (x :: ·) (ih hx.2 hy.2 fun k => ?_)
      have hk := h k
      by_cases hxk : key x = k
      · rw [List.filter_cons_of_pos (by simpa), List.filter_cons_of_pos (by simpa)] at hk
        exact (List.cons.inj hk).2
      · rwa [List.filter_cons_of_neg (by simpa), List.filter_cons_of_neg (by simpa)] at hk

/-- The keys come out sorted. -/
theorem map_mergeSort (xs : List α) :
    (xs.mergeSort fun x y => le (key x) (key y)).map key = (xs.map key).mergeSort le :=
  List.map_mergeSort fun _ _ _ _ => rfl

/-- Two lists of the same items are sorted alike when **tied items are equal**. -/
theorem mergeSort_eq_of_perm {xs ys : List α} (hperm : xs.Perm ys)
    (hties : ∀ x ∈ xs, ∀ y ∈ xs, key x = key y → x = y) :
    (xs.mergeSort fun x y => le (key x) (key y)) = ys.mergeSort fun x y => le (key x) (key y) := by
  have hsorted := List.mergeSort_perm xs fun x y => le (key x) (key y)
  have hsorted' := List.mergeSort_perm ys fun x y => le (key x) (key y)
  refine List.Perm.eq_of_pairwise (fun x y hx hy hxy hyx => ?_) (pairwise_mergeSort key xs)
    (pairwise_mergeSort key ys) ((hsorted.trans hperm).trans hsorted'.symm)
  apply hties x (hsorted.mem_iff.mp hx) y _ (List.le_antisymm hxy hyx)
  exact hperm.mem_iff.mpr (hsorted'.mem_iff.mp hy)

end Bytes

end HashTree
