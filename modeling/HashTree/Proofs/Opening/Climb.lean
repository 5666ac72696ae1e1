import HashTree.Proofs.Opening.Standings
import Mathlib.Data.Finset.Card
import Mathlib.Data.Finset.Range

/-!
# Climbing from the leaves

The nodes above some leaves can be found from below: climb from each leaf to its parent, from there
on to the next, and **stop where some other climb has been**. Whichever leaf comes first, nothing is
left out by stopping, since everything above the node where a climb stops has been covered already.
So the leaves may be taken in any order.
-/

namespace HashTree

namespace Tree

variable (t : Tree)

/-! ## §1 Climbs -/

/-- The parent of the node at an index. -/
def parentAt (index : Nat) : Option Nat := t.nodes[index]?.bind (·.parent)

variable {t}

/-- Only a node has a parent. -/
theorem lt_of_parentAt {index parent : Nat} (h : t.parentAt index = some parent) :
    index < t.size := by
  obtain ⟨n, hn, -⟩ := Option.bind_eq_some_iff.mp h
  exact (Array.getElem?_eq_some_iff.mp hn).1

variable (t)

/-- Covers a node and those above it, up to one that is covered. -/
def climb (covered : Finset Nat) (index : Nat) : Finset Nat :=
  if index ∈ covered then covered
  else
    match _h : t.parentAt index with
    | none => insert index covered
    | some parent => climb (insert index covered) parent
termination_by (Finset.range t.size \ covered).card
decreasing_by
  -- one node more is covered
  apply Finset.card_lt_card
  have hlt := lt_of_parentAt _h
  apply (Finset.ssubset_iff_of_subset ?_).mpr
  · exact ⟨index, by simp [*], by simp⟩
  · exact Finset.sdiff_subset_sdiff (Finset.Subset.refl _) (Finset.subset_insert ..)

/-- What is covered by climbing from some nodes, one after the other. -/
def coveredFrom (order : List Nat) : Finset Nat := order.foldl t.climb ∅

variable {t} {covered : Finset Nat} {i j : Nat}

theorem climb_of_mem (hi : i ∈ covered) : t.climb covered i = covered := by
  rw [climb, if_pos hi]

theorem climb_of_none (hi : i ∉ covered) (hnone : t.parentAt i = none) :
    t.climb covered i = insert i covered := by
  rw [climb, if_neg hi]
  split
  · rfl
  · next p hp =>
    rw [hnone] at hp
    cases hp

theorem climb_of_some {p : Nat} (hi : i ∉ covered) (hp : t.parentAt i = some p) :
    t.climb covered i = t.climb (insert i covered) p := by
  rw [climb, if_neg hi]
  split
  · next hnone =>
    rw [hp] at hnone
    cases hnone
  · next q hq => rw [Option.some.inj (hq.symm.trans hp)]

/-! ## §2 What is covered -/

section Covered

variable (hparent : ∀ c p, t.parentAt c = some p ↔ t.links.Child p c)
include hparent

/-- A node above another is above its parent, or the other itself. -/
private theorem descends_iff : t.links.Descends j i
    ↔ j = i ∨ ∃ p, t.parentAt i = some p ∧ t.links.Descends j p := by
  constructor
  · intro h
    rcases h.cases_tail with heq | ⟨p, hp, hi⟩
    · exact Or.inl heq.symm
    · exact Or.inr ⟨p, (hparent i p).mpr hi, hp⟩
  · intro h
    rcases h with rfl | ⟨p, hi, hp⟩
    · exact .refl
    · exact hp.tail ((hparent i p).mp hi)

/-- With a node all nodes above it are covered, if **parents are covered** with their children. -/
private theorem mem_of_descends (hclosed : ∀ k ∈ covered, ∀ p, t.parentAt k = some p → p ∈ covered)
    (hi : i ∈ covered) (hd : t.links.Descends j i) : j ∈ covered := by
  induction hd using Relation.ReflTransGen.head_induction_on with
  | refl => exact hi
  | head hc _ ih => exact hclosed _ ih _ ((hparent _ _).mpr hc)

/-- A climb covers what lies above its start. While it goes on, only the parent of the last node may
be uncovered, and this is where it goes next. -/
private theorem mem_climb
    (hclosed : ∀ k ∈ covered, ∀ p, t.parentAt k = some p → p ∈ covered ∨ p = i) :
    j ∈ t.climb covered i ↔ j ∈ covered ∨ t.links.Descends j i := by
  induction covered, i using climb.induct t with
  | case1 covered i hi =>
    rw [climb_of_mem hi]
    have hall : ∀ k ∈ covered, ∀ p, t.parentAt k = some p → p ∈ covered := by
      intro k hk p hp
      rcases hclosed k hk p hp with hmem | rfl
      · exact hmem
      · exact hi
    constructor
    · exact Or.inl
    · intro h
      exact h.elim id (mem_of_descends hparent hall hi)
  | case2 covered i hi hnone =>
    rw [climb_of_none hi hnone, Finset.mem_insert, descends_iff hparent, hnone]
    simp [or_comm]
  | case3 covered i hi p hp ih =>
    have hnext : ∀ k ∈ insert i covered, ∀ q, t.parentAt k = some q →
        q ∈ insert i covered ∨ q = p := by
      intro k hk q hq
      rcases Finset.mem_insert.mp hk with rfl | hk
      · exact Or.inr (Option.some.inj (hq.symm.trans hp))
      · rcases hclosed k hk q hq with hmem | rfl
        · exact Or.inl (Finset.mem_insert_of_mem hmem)
        · exact Or.inl (Finset.mem_insert_self _ _)
    have hup : t.links.Descends j i ↔ j = i ∨ t.links.Descends j p := by
      rw [descends_iff hparent, hp]
      simp
    rw [climb_of_some hi hp, ih hnext, Finset.mem_insert, hup]
    tauto

/-- Climbing from some nodes covers **what lies at or above one of them**, in whatever order they
are taken. -/
theorem mem_coveredFrom {order : List Nat} :
    j ∈ t.coveredFrom order ↔ ∃ i ∈ order, t.links.Descends j i := by
  have hfold : ∀ covered : Finset Nat,
      (∀ k ∈ covered, ∀ p, t.parentAt k = some p → p ∈ covered) →
      (j ∈ order.foldl t.climb covered
        ↔ j ∈ covered ∨ ∃ i ∈ order, t.links.Descends j i) := by
    induction order with
    | nil => simp
    | cons i order ih =>
      intro covered hclosed
      have hmem : ∀ k, k ∈ t.climb covered i ↔ k ∈ covered ∨ t.links.Descends k i := fun k =>
        mem_climb hparent fun k hk p hp => Or.inl (hclosed k hk p hp)
      -- a climb that has ended leaves no parent uncovered
      have hnext : ∀ k ∈ t.climb covered i, ∀ p, t.parentAt k = some p → p ∈ t.climb covered i := by
        intro k hk p hp
        rw [hmem] at hk ⊢
        rcases hk with hk | hd
        · exact Or.inl (hclosed k hk p hp)
        · exact Or.inr (.head ((hparent k p).mp hp) hd)
      rw [List.foldl_cons, ih _ hnext, hmem, List.exists_mem_cons_iff]
      tauto
  simpa [coveredFrom] using hfold ∅ (by simp)

end Covered

/-- In a well-formed tree the parent of a node is the one that **lists** it. -/
theorem Formed.parentAt_iff {root : Nat} (h : t.Formed root) (c p : Nat) :
    t.parentAt c = some p ↔ t.links.Child p c := by
  rw [Links.Child, ← childrenAt_eq]
  constructor
  · intro hp
    obtain ⟨n, hn, hparent⟩ := Option.bind_eq_some_iff.mp hp
    have hne : c ≠ root := by
      rintro rfl
      rw [h.root_parent n hn] at hparent
      cases hparent
    obtain ⟨q, hq, hparent', hcount⟩ := h.parent_eq c n hn hne
    obtain rfl := Option.some.inj (hparent.symm.trans hparent')
    have hone := hcount p hq
    rw [if_pos rfl] at hone
    exact List.count_pos_iff.mp (by rw [hone]; exact Nat.one_pos)
  · intro hc
    obtain ⟨m, hm, hchildren⟩ : ∃ m, t.nodes[p]? = some m ∧ c ∈ m.children := by
      cases hm : t.nodes[p]? with
      | none => simp [childrenAt, hm] at hc
      | some m => exact ⟨m, rfl, by simpa [childrenAt, hm] using hc⟩
    have hmem := Array.mem_of_getElem? hm
    have hlt := h.child_lt m hmem c hchildren
    have hne : c ≠ root := by
      rintro rfl
      exact h.root_notMem m hmem hchildren
    obtain ⟨q, -, hparent, hcount⟩ := h.parent_eq c _ (Array.getElem?_eq_getElem hlt) hne
    -- no other node than the parent lists the child
    have hpq : p = q := by
      by_contra hpq
      have hzero := hcount p (Array.getElem?_eq_some_iff.mp hm).1
      rw [if_neg hpq] at hzero
      exact List.count_eq_zero.mp hzero hc
    rw [hpq, parentAt, Array.getElem?_eq_getElem hlt]
    exact hparent

end Tree

end HashTree
