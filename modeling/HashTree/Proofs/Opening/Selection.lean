import HashTree.Opening.Generate
import HashTree.Proofs.Outcome
import HashTree.Proofs.Tree.Shape
import Mathlib.Data.List.Sort

/-!
# Selected positions

Positions may be given in any order and with repetitions; an opening holds each once, ascending.
Opening a tree fails only where a position is out of range, none is given, or there is no root.
-/

namespace HashTree

open Outcome

/-! ## §1 Repetitions in sorted lists -/

/-- The loop that drops repetitions keeps every number once. -/
private theorem eraseRepsBy_loop {number : Nat} {numbers done : List Nat}
    (hdone : (number :: done).Pairwise (· > ·)) (hnumbers : (number :: numbers).Pairwise (· ≤ ·)) :
    (List.eraseRepsBy.loop (· == ·) number numbers done).Pairwise (· < ·)
      ∧ ∀ m, m ∈ List.eraseRepsBy.loop (· == ·) number numbers done
        ↔ m ∈ done ∨ m ∈ number :: numbers := by
  -- the numbers that are done stand in reverse, below the one that is held
  induction numbers generalizing number done with
  | nil =>
    rw [List.eraseRepsBy.loop]
    refine ⟨List.pairwise_reverse.mpr hdone, fun m => ?_⟩
    rw [List.mem_reverse, List.mem_cons, List.mem_singleton]
    exact or_comm
  | cons next numbers ih =>
    obtain ⟨hle, hrest⟩ := List.pairwise_cons.mp hnumbers
    rw [List.eraseRepsBy.loop]
    cases hsame : number == next with
    | true =>
      obtain rfl := beq_iff_eq.mp hsame
      obtain ⟨hsorted, hmem⟩ := ih hdone hrest
      refine ⟨hsorted, fun m => (hmem m).trans (or_congr_right ?_)⟩
      rw [List.mem_cons (b := number), List.mem_cons (b := number), List.mem_cons (b := number)]
      tauto
    | false =>
      have hlt : number < next :=
        Nat.lt_of_le_of_ne (hle next List.mem_cons_self) (by simpa using hsame)
      have hdone' : (next :: number :: done).Pairwise (· > ·) := by
        refine List.pairwise_cons.mpr ⟨fun m hm => ?_, hdone⟩
        rcases List.mem_cons.mp hm with rfl | hm
        · exact hlt
        · exact Nat.lt_trans ((List.pairwise_cons.mp hdone).1 m hm) hlt
      obtain ⟨hsorted, hmem⟩ := ih hdone' hrest
      refine ⟨hsorted, fun m => (hmem m).trans ?_⟩
      rw [List.mem_cons (b := number), List.mem_cons (b := number)]
      tauto

/-- Dropping repetitions from a sorted list leaves its numbers **ascending**, each once. -/
private theorem eraseReps_of_sorted {numbers : List Nat} (h : numbers.Pairwise (· ≤ ·)) :
    numbers.eraseReps.Pairwise (· < ·) ∧ ∀ m, m ∈ numbers.eraseReps ↔ m ∈ numbers := by
  cases numbers with
  | nil => exact ⟨List.Pairwise.nil, fun m => Iff.rfl⟩
  | cons number numbers =>
    obtain ⟨hsorted, hmem⟩ := eraseRepsBy_loop (List.pairwise_singleton _ number) h
    exact ⟨hsorted, fun m => (hmem m).trans (by simp)⟩

namespace Tree

/-! ## §2 Selections -/

private theorem pairwise_mergeSort_le (indices : List Nat) :
    (indices.mergeSort (· ≤ ·)).Pairwise (· ≤ ·) :=
  List.pairwise_mergeSort' (· ≤ ·) indices

theorem selection_ascending (indices : List Nat) : (selection indices).Pairwise (· < ·) :=
  (eraseReps_of_sorted (pairwise_mergeSort_le indices)).1

@[simp]
theorem mem_selection {indices : List Nat} {p : Nat} : p ∈ selection indices ↔ p ∈ indices := by
  rw [selection, (eraseReps_of_sorted (pairwise_mergeSort_le indices)).2, List.mem_mergeSort]

theorem selection_nodup (indices : List Nat) : (selection indices).Nodup :=
  (selection_ascending indices).imp Nat.ne_of_lt

@[simp]
theorem selection_eq_nil_iff {indices : List Nat} : selection indices = [] ↔ indices = [] := by
  rw [List.eq_nil_iff_forall_not_mem, List.eq_nil_iff_forall_not_mem]
  exact forall_congr' fun p => not_congr mem_selection

@[simp]
theorem selection_singleton (p : Nat) : selection [p] = [p] := by
  rw [selection, List.mergeSort_singleton]
  rfl

/-! ## §3 Selected leaves -/

/-- The indices of the leaves at some positions. -/
def leavesAt (t : Tree) (positions : List Nat) : List Nat :=
  positions.filterMap fun position => t.leaves[position]?

/-- The leaves at some indices, as an opening holds them. -/
def openedAt (t : Tree) (leaves : List Nat) : List Opened :=
  (t.nodesAt leaves).map fun n => ⟨n.payload?, n.digest⟩

section Positions

variable {t : Tree} {positions : List Nat}

private theorem leavesAt_cons {p : Nat} (positions : List Nat) (hp : p < t.leafCount) :
    ∃ i, t.leaves[p]? = some i ∧ t.leavesAt (p :: positions) = i :: t.leavesAt positions := by
  refine ⟨_, Array.getElem?_eq_getElem hp, ?_⟩
  rw [leavesAt, List.filterMap_cons, Array.getElem?_eq_getElem hp]
  rfl

/-- Positions in range have a leaf each, in their order. -/
theorem getElem?_leavesAt (hlt : ∀ p ∈ positions, p < t.leafCount) {k i : Nat} :
    (t.leavesAt positions)[k]? = some i
      ↔ ∃ p, positions[k]? = some p ∧ t.leaves[p]? = some i := by
  induction positions generalizing k with
  | nil => simp [leavesAt]
  | cons p positions ih =>
    obtain ⟨leaf, hleaf, hcons⟩ := leavesAt_cons positions (hlt p List.mem_cons_self)
    have ih := @ih fun q hq => hlt q (List.mem_cons_of_mem _ hq)
    rw [hcons]
    cases k with
    | zero => simp [hleaf]
    | succ k => simpa using @ih k

theorem length_leavesAt (hlt : ∀ p ∈ positions, p < t.leafCount) :
    (t.leavesAt positions).length = positions.length := by
  induction positions with
  | nil => rfl
  | cons p positions ih =>
    obtain ⟨leaf, -, hcons⟩ := leavesAt_cons positions (hlt p List.mem_cons_self)
    rw [hcons, List.length_cons, List.length_cons, ih fun q hq => hlt q (List.mem_cons_of_mem _ hq)]

/-- An opening holds the digests of the selected leaves. -/
theorem map_digest_openedAt {leaves : List Nat} (hlt : ∀ i ∈ leaves, i < t.links.length) :
    (t.openedAt leaves).map (·.digest) = leaves.map t.digestAt := by
  induction leaves with
  | nil => rfl
  | cons i leaves ih =>
    have hi := hlt i List.mem_cons_self
    rw [length_links] at hi
    have ih := ih fun j hj => hlt j (List.mem_cons_of_mem _ hj)
    rw [openedAt, nodesAt] at ih ⊢
    have hdigest : t.digestAt i = t.nodes[i].digest := by
      rw [digestAt, Array.getElem?_eq_getElem hi]
      rfl
    rw [List.filterMap_cons, Array.getElem?_eq_getElem hi, List.map_cons, List.map_cons,
      List.map_cons, ih, hdigest]

variable {r : Rose} (u : t.Unfolds r)
include u

/-- Different positions have different leaves. -/
theorem Unfolds.position_unique {p q i : Nat} (hp : t.leaves[p]? = some i)
    (hq : t.leaves[q]? = some i) : p = q := by
  have hnodup := u.leaves_nodup
  rw [← Array.getElem?_toList] at hp hq
  exact (List.getElem?_inj (List.getElem?_eq_some_iff.mp hp).1 hnodup).mp (hp.trans hq.symm)

theorem Unfolds.nodup_leavesAt (hnodup : positions.Nodup) : (t.leavesAt positions).Nodup := by
  refine List.Nodup.filterMap (fun p q i hp hq => ?_) hnodup
  exact u.position_unique hp hq

/-- A selected leaf is an index without children. -/
theorem Unfolds.below_leavesAt {i : Nat} (hi : i ∈ t.leavesAt positions) :
    i < t.links.length ∧ t.links.below i = [] := by
  obtain ⟨p, -, hp⟩ := List.mem_filterMap.mp hi
  exact ⟨u.leaf_lt hp, u.below_leaf hp⟩

/-- An opening holds one leaf for each position. -/
theorem Unfolds.length_openedAt (hlt : ∀ p ∈ positions, p < t.leafCount) :
    (t.openedAt (t.leavesAt positions)).length = positions.length := by
  have hdigests : (t.openedAt (t.leavesAt positions)).map (·.digest)
      = (t.leavesAt positions).map t.digestAt :=
    map_digest_openedAt fun i hi => (u.below_leavesAt hi).1
  have hlength := congrArg List.length hdigests
  rwa [List.length_map, List.length_map, length_leavesAt hlt] at hlength

end Positions

/-! ## §4 Opening a tree -/

/-- The opening at positions in range. -/
def opening (t : Tree) (expected : Digest) (positions : List Nat) : Opening :=
  ⟨t.algorithm, positions, t.stepsFrom (t.leavesAt positions), expected,
    t.openedAt (t.leavesAt positions), t.openedAt (t.leavesAt positions)⟩

/-- A tree that has a root is **opened** at positions in range, if there are any. -/
theorem openAt_eq_ok_iff {t : Tree} {indices : List Nat} {o : Opening} :
    t.openAt indices = .ok o ↔ ∃ expected, t.rootDigest = .ok expected ∧ indices ≠ []
      ∧ (∀ p ∈ indices, p < t.leafCount) ∧ o = t.opening expected (selection indices) := by
  rw [openAt, bind_eq_ok_iff]
  refine exists_congr fun expected => and_congr_right fun _ => ?_
  dsimp only
  have hempty : (selection indices).isEmpty = true ↔ indices = [] := by
    rw [List.isEmpty_iff, selection_eq_nil_iff]
  have hrange : (selection indices).find? (t.leafCount ≤ ·) = none
      ↔ ∀ p ∈ indices, p < t.leafCount := by
    rw [List.find?_eq_none]
    simp [mem_selection]
  rw [ne_eq, ← hempty, ← hrange]
  cases (selection indices).isEmpty with
  | true => simp [throw, throwThe, MonadExceptOf.throw, bind, Except.bind]
  | false =>
    cases (selection indices).find? (t.leafCount ≤ ·) with
    | some p => simp [throw, throwThe, MonadExceptOf.throw]
    | none =>
      simp only [pure, Except.pure, bind, Except.bind, Bool.false_eq_true, not_false_eq_true,
        if_false, true_and, Except.ok.injEq]
      exact eq_comm

end Tree

end HashTree
