import Mathlib.Data.Fintype.Basic
import Mathlib.Data.List.Nodup
import Mathlib.Data.List.Perm.Basic
import Mathlib.Logic.Relation
import Mathlib.Order.WellFounded
import Mathlib.Order.RelClasses
import Mathlib.Data.Fintype.EquivFin

/-!
# Child lists that form a tree

What the arena of a tree says about its shape is one list of child indices for each index. When the
root and the listed children are all the indices, each once, every other index has **one parent**.
The lists are **planted** at the root when every index can be reached from there as well. Then no way
down ever comes back, so there is an induction from the children of an index to the index itself.
Where the lists are not planted, what cannot be reached goes round in circles.
-/

namespace HashTree

/-- The children of every index. -/
abbrev Links := List (List Nat)

namespace Links

/-! ## §1 Children and descendants -/

/-- The children of an index; none where there is no index. -/
def below (links : Links) (i : Nat) : List Nat := links.getD i []

/-- The second index is a child of the first. -/
def Child (links : Links) (parent child : Nat) : Prop := child ∈ links.below parent

/-- The second index is the first or lies somewhere below it. -/
def Descends (links : Links) : Nat → Nat → Prop := Relation.ReflTransGen links.Child

variable {links : Links} {root i p q c : Nat}

theorem below_eq_of_getElem? {list : List Nat} (h : links[i]? = some list) :
    links.below i = list := by
  simp [below, List.getD_eq_getElem?_getD, h]

theorem getElem?_eq_below (hi : i < links.length) : links[i]? = some (links.below i) := by
  simp [below, List.getD_eq_getElem?_getD, List.getElem?_eq_getElem hi]

/-- Only an index has children. -/
theorem Child.parent_lt (h : links.Child p c) : p < links.length := by
  by_contra hp
  simp [Child, below, List.getD_eq_getElem?_getD, List.getElem?_eq_none (Nat.le_of_not_lt hp)] at h

/-- Below an index without children there is only itself. -/
theorem Descends.eq_of_below_nil (h : links.Descends i c) (hnil : links.below i = []) : i = c := by
  rcases h.cases_head with heq | ⟨k, hk, -⟩
  · exact heq
  · rw [Child, hnil] at hk
    exact absurd hk List.not_mem_nil

/-- The listed indices are the children of some index. -/
theorem mem_flatten_iff : c ∈ links.flatten ↔ ∃ p, links.Child p c := by
  constructor
  · intro h
    obtain ⟨list, hlist, hc⟩ := List.mem_flatten.mp h
    obtain ⟨p, hp⟩ := List.mem_iff_getElem?.mp hlist
    exact ⟨p, by rwa [Child, below_eq_of_getElem? hp]⟩
  · rintro ⟨p, hp⟩
    exact List.mem_flatten.mpr
      ⟨_, List.mem_iff_getElem?.mpr ⟨p, getElem?_eq_below hp.parent_lt⟩, hp⟩

/-- Where no index is listed twice, a child list has no repetition. -/
theorem nodup_below (hnodup : links.flatten.Nodup) (i : Nat) : (links.below i).Nodup := by
  by_cases hi : i < links.length
  · exact (List.nodup_flatten.mp hnodup).1 _
      (List.mem_iff_getElem?.mpr ⟨i, getElem?_eq_below hi⟩)
  · simp [below, List.getD_eq_getElem?_getD, List.getElem?_eq_none (Nat.le_of_not_lt hi)]

/-- Where no index is listed twice, a child has **one parent**. -/
theorem Child.unique (hnodup : links.flatten.Nodup) (hp : links.Child p c)
    (hq : links.Child q c) : p = q := by
  have hdisjoint := List.pairwise_iff_getElem.mp (List.nodup_flatten.mp hnodup).2
  -- of two different parents one comes first, and its list shares the child with the other's
  have hfirst : ∀ {i j}, links.Child i c → links.Child j c → ¬ i < j := by
    intro i j hi hj hij
    have hilt := hi.parent_lt
    have hjlt := hj.parent_lt
    have hci : c ∈ links[i] := by
      simpa [Child, below, List.getD_eq_getElem?_getD, hilt] using hi
    have hcj : c ∈ links[j] := by
      simpa [Child, below, List.getD_eq_getElem?_getD, hjlt] using hj
    exact hdisjoint i j hilt hjlt hij hci hcj
  exact Nat.le_antisymm (Nat.le_of_not_lt (hfirst hq hp)) (Nat.le_of_not_lt (hfirst hp hq))

/-- Without loops every way **down ends, and every way up**, as there are finitely many indices. -/
theorem wellFounded_of_irrefl (hirrefl : ∀ i, ¬ Relation.TransGen links.Child i i) :
    WellFounded (fun c p : Fin links.length => Relation.TransGen links.Child p c)
      ∧ WellFounded fun p c : Fin links.length => Relation.TransGen links.Child p c := by
  let deeper : Fin links.length → Fin links.length → Prop :=
    fun c p => Relation.TransGen links.Child p c
  let higher : Fin links.length → Fin links.length → Prop :=
    fun p c => Relation.TransGen links.Child p c
  have hdown : IsTrans _ deeper := ⟨fun _ _ _ hab hbc => hbc.trans hab⟩
  have hup : IsTrans _ higher := ⟨fun _ _ _ hab hbc => hab.trans hbc⟩
  have hdeeper : Std.Irrefl deeper := ⟨fun i => hirrefl i⟩
  have hhigher : Std.Irrefl higher := ⟨fun i => hirrefl i⟩
  exact ⟨Finite.wellFounded_of_trans_of_irrefl deeper,
    Finite.wellFounded_of_trans_of_irrefl higher⟩

/-! ## §2 One parent each -/

/-- The child lists give **every index but the root one parent**. Far from the root they may still
go round in circles. -/
structure Parented (links : Links) (root : Nat) : Prop where
  /-- The root and the listed children are all the indices, each once. -/
  once : (root :: links.flatten).Perm (List.range links.length)

namespace Parented

theorem nodup_cons (h : Parented links root) : (root :: links.flatten).Nodup :=
  h.once.nodup_iff.mpr List.nodup_range

theorem nodup_flatten (h : Parented links root) : links.flatten.Nodup :=
  (List.nodup_cons.mp h.nodup_cons).2

theorem root_lt (h : Parented links root) : root < links.length :=
  List.mem_range.mp (h.once.mem_iff.mp List.mem_cons_self)

theorem child_lt (h : Parented links root) (hc : links.Child p c) : c < links.length :=
  List.mem_range.mp
    (h.once.mem_iff.mp (List.mem_cons_of_mem _ (mem_flatten_iff.mpr ⟨p, hc⟩)))

/-- The root is the child of no index. -/
theorem not_child_root (h : Parented links root) : ¬ links.Child p root := fun hp =>
  (List.nodup_cons.mp h.nodup_cons).1 (mem_flatten_iff.mpr ⟨p, hp⟩)

/-- Every other index is the child of some index. -/
theorem exists_parent (h : Parented links root) (hi : i < links.length) (hne : i ≠ root) :
    ∃ p, links.Child p i := by
  have hmem := h.once.mem_iff.mpr (List.mem_range.mpr hi)
  exact mem_flatten_iff.mp ((List.mem_cons.mp hmem).resolve_left hne)

/-- Below an index there are only indices. -/
theorem descends_lt (h : Parented links root) (hi : i < links.length)
    (hd : links.Descends i c) : c < links.length := by
  cases hd with
  | refl => exact hi
  | tail _ hc => exact h.child_lt hc

/-- From below the root every way upwards ends there. -/
private theorem acc_parent (h : Parented links root) (hd : links.Descends root i) :
    Acc links.Child i := by
  induction hd with
  | refl => exact ⟨_, fun p hp => absurd hp h.not_child_root⟩
  | tail _ hc ih =>
    refine ⟨_, fun p hp => ?_⟩
    rw [hp.unique h.nodup_flatten hc]
    exact ih

/-- **Below the root** no way down leads back to where it started. -/
theorem irrefl_of_descends (h : Parented links root) (hd : links.Descends root i) :
    ¬ Relation.TransGen links.Child i i := by
  intro hloop
  have hacc := (h.acc_parent hd).transGen
  exact hacc.recOn (motive := fun j _ => ¬ Relation.TransGen links.Child j j)
    (fun j _ ih hj => ih j hj hj) hloop

/-- Only an index can lie below itself. -/
theorem lt_of_loop (h : Parented links root) (hloop : Relation.TransGen links.Child i i) :
    i < links.length := by
  cases hloop with
  | single hc => exact h.child_lt hc
  | tail _ hc => exact h.child_lt hc

end Parented

/-! ## §3 Planted links -/

/-- The child lists form one tree over all indices. -/
structure Planted (links : Links) (root : Nat) : Prop where
  /-- The root and the listed children are all the indices, each once. -/
  once : (root :: links.flatten).Perm (List.range links.length)
  /-- Every index lies below the root. -/
  descends : ∀ i < links.length, links.Descends root i

namespace Planted

theorem parented (h : Planted links root) : Parented links root := ⟨h.once⟩

theorem nodup_cons (h : Planted links root) : (root :: links.flatten).Nodup :=
  h.parented.nodup_cons

theorem nodup_flatten (h : Planted links root) : links.flatten.Nodup := h.parented.nodup_flatten

theorem root_lt (h : Planted links root) : root < links.length := h.parented.root_lt

theorem child_lt (h : Planted links root) (hc : links.Child p c) : c < links.length :=
  h.parented.child_lt hc

theorem not_child_root (h : Planted links root) : ¬ links.Child p root :=
  h.parented.not_child_root

theorem exists_parent (h : Planted links root) (hi : i < links.length) (hne : i ≠ root) :
    ∃ p, links.Child p i :=
  h.parented.exists_parent hi hne

theorem descends_lt (h : Planted links root) (hi : i < links.length)
    (hd : links.Descends i c) : c < links.length :=
  h.parented.descends_lt hi hd

/-- No way down leads back to where it started. -/
theorem irrefl (h : Planted links root) : ¬ Relation.TransGen links.Child i i := fun hloop =>
  h.parented.irrefl_of_descends (h.descends i (h.parented.lt_of_loop hloop)) hloop

/-- A parent does not lie below its child. -/
theorem not_descends (h : Planted links root) (hc : links.Child p c) : ¬ links.Descends c p :=
  fun hd => h.irrefl (Relation.TransGen.head' hc hd)

/-- An **induction from the children upwards**: a property of an index that follows from the same
property of its children holds of all indices. -/
theorem induction (h : Planted links root) {motive : Nat → Prop}
    (step : ∀ i < links.length, (∀ c, links.Child i c → motive c) → motive i) :
    ∀ i < links.length, motive i := by
  -- every way down ends
  have hwf := (wellFounded_of_irrefl fun _ => h.irrefl).1
  intro i hi
  refine hwf.induction (C := fun i => motive i) ⟨i, hi⟩ fun j ih => step j j.isLt ?_
  intro c hc
  exact ih ⟨c, h.child_lt hc⟩ (Relation.TransGen.single hc)

/-- Links are planted when no index is listed twice and every index stands **behind its
children**. -/
theorem of_ascending (once : (root :: links.flatten).Perm (List.range links.length))
    (hlt : ∀ p c, links.Child p c → c < p) : Planted links root := by
  refine ⟨once, fun i hi => ?_⟩
  -- from an index that is not the root there is a parent nearer to the end
  induction hn : links.length - i using Nat.strong_induction_on generalizing i with
  | _ n ih =>
    by_cases hroot : i = root
    · rw [hroot]
      exact .refl
    · obtain ⟨p, hp⟩ := Parented.exists_parent ⟨once⟩ hi hroot
      have hip := hlt p i hp
      have hpn := hp.parent_lt
      exact (ih (links.length - p) (by omega) p hpn rfl).tail hp

end Planted

/-! ## §4 Loops -/

namespace Parented

/-- Where no index lies below itself, **everything lies below the root**. -/
theorem descends_of_irrefl (h : Parented links root)
    (hirrefl : ∀ i, ¬ Relation.TransGen links.Child i i) :
    ∀ i < links.length, links.Descends root i := by
  -- every way up ends, and it can only end at the root
  have hwf := (wellFounded_of_irrefl hirrefl).2
  intro i hi
  refine hwf.induction (C := fun i => links.Descends root i) ⟨i, hi⟩ fun j ih => ?_
  by_cases hroot : j.val = root
  · rw [hroot]
    exact .refl
  · obtain ⟨p, hp⟩ := h.exists_parent j.isLt hroot
    exact (ih ⟨p, hp.parent_lt⟩ (Relation.TransGen.single hp)).tail hp

/-- **Detached from the root there is a loop**, and a loop is detached from the root. -/
theorem exists_loop_iff (h : Parented links root) :
    (∃ i, Relation.TransGen links.Child i i)
      ↔ ∃ i < links.length, ¬ links.Descends root i := by
  constructor
  · rintro ⟨i, hloop⟩
    exact ⟨i, h.lt_of_loop hloop, fun hd => h.irrefl_of_descends hd hloop⟩
  · rintro ⟨i, hi, hnot⟩
    by_contra hnone
    exact hnot (h.descends_of_irrefl (fun j hj => hnone ⟨j, hj⟩) i hi)

end Parented

end Links

end HashTree
