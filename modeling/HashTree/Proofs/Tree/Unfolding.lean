import HashTree.Proofs.Tree.Links

/-!
# Unfolding child lists

Planted child lists spell out an **ordered tree**: the index, and under it the trees of its
children from left to right. Walks and digests of an arena are computed by loops over indices; on
the unfolded tree they are recursions, and a statement about them is an induction on that tree.
-/

namespace HashTree

/-! ## §1 Ordered trees of indices -/

/-- An ordered tree of indices. -/
inductive Rose where
  | node (index : Nat) (children : List Rose)

namespace Rose

/-- The index at the top. -/
def index : Rose → Nat
  | node i _ => i

/-- The trees below the top. -/
def children : Rose → List Rose
  | node _ cs => cs

@[simp] theorem index_node (i : Nat) (cs : List Rose) : (node i cs).index = i := rfl

/-- The induction over a tree, with one hypothesis for all children. -/
@[elab_as_elim]
theorem induction {motive : Rose → Prop}
    (node : ∀ i cs, (∀ c ∈ cs, motive c) → motive (.node i cs)) : ∀ r, motive r
  | .node i cs => node i cs fun c _ => induction node c

mutual

/-- The indices of a tree in postorder: children from left to right, then their parent. -/
def postorder : Rose → List Nat
  | node i cs => postorders cs ++ [i]

/-- The indices of some trees, one tree after the other. -/
def postorders : List Rose → List Nat
  | [] => []
  | r :: rs => r.postorder ++ postorders rs

end

theorem postorders_eq_flatMap (rs : List Rose) : postorders rs = rs.flatMap postorder := by
  induction rs with
  | nil => rfl
  | cons r rs ih => rw [postorders, List.flatMap_cons, ih]

@[simp] theorem postorder_node (i : Nat) (cs : List Rose) :
    (node i cs).postorder = cs.flatMap postorder ++ [i] := by
  rw [postorder, postorders_eq_flatMap]

theorem index_mem_postorder (r : Rose) : r.index ∈ r.postorder := by
  cases r with
  | node i cs => simp

/-- Every tree holds an index. -/
theorem eq_nil_of_flatMap_postorder {forest : List Rose} (h : forest.flatMap postorder = []) :
    forest = [] := by
  cases forest with
  | nil => rfl
  | cons r forest =>
    have hmem := List.mem_append_left (forest.flatMap postorder) r.index_mem_postorder
    rw [← List.flatMap_cons, h] at hmem
    simp at hmem

/-- A forest holds the top of its first tree and what the other trees and the children hold. -/
theorem flatMap_postorder_perm (i : Nat) (cs forest : List Rose) :
    ((node i cs :: forest).flatMap postorder).Perm (i :: (forest ++ cs).flatMap postorder) := by
  rw [List.flatMap_cons, postorder_node, List.flatMap_append]
  exact List.perm_append_comm.trans
    (((List.perm_append_singleton i _).append_left _).trans List.perm_middle)

section Values

variable {α : Type} (leaf : Nat → α) (branch : List α → α)

mutual

/-- The value at the top of a tree, computed from those of its leaves. -/
private def value : Rose → α
  | node i cs => if cs.isEmpty then leaf i else branch (values cs)

/-- The values at the tops of some trees. -/
private def values : List Rose → List α
  | [] => []
  | r :: rs => value r :: values rs

end

private theorem values_eq_map (rs : List Rose) :
    values leaf branch rs = rs.map (value leaf branch) := by
  induction rs with
  | nil => rfl
  | cons r rs ih => rw [values, List.map_cons, ih]

end Values

/-! ## §2 Trees that follow child lists -/

/-- The tree has the children that the lists give, at every index in it. -/
inductive Follows (links : Links) : Rose → Prop where
  | node {i : Nat} {cs : List Rose} (here : links[i]? = some (cs.map index))
      (below : ∀ c ∈ cs, Follows links c) : Follows links (.node i cs)

variable {links : Links} {r : Rose} {i j : Nat} {cs : List Rose}

namespace Follows

theorem below_eq (h : Follows links (.node i cs)) : links.below i = cs.map index := by
  cases h with
  | node here _ => exact Links.below_eq_of_getElem? here

theorem of_mem (h : Follows links (.node i cs)) {c : Rose} (hc : c ∈ cs) : Follows links c := by
  cases h with
  | node _ below => exact below c hc

theorem index_lt (h : Follows links r) : r.index < links.length := by
  cases h with
  | node here _ => exact (List.getElem?_eq_some_iff.mp here).1

/-- The children at the top are the children of its index. -/
theorem child_iff (h : Follows links (.node i cs)) :
    links.Child i j ↔ ∃ c ∈ cs, c.index = j := by
  rw [Links.Child, h.below_eq, List.mem_map]

/-- A tree holds the index at its top and **all that lies below** it. -/
theorem mem_postorder (h : Follows links r) :
    j ∈ r.postorder ↔ links.Descends r.index j := by
  induction r using Rose.induction with
  | node i cs ih =>
    rw [postorder_node, List.mem_append, List.mem_flatMap, List.mem_singleton, index_node]
    constructor
    · rintro (⟨c, hc, hj⟩ | rfl)
      · exact .head (h.child_iff.mpr ⟨c, hc, rfl⟩) ((ih c hc (h.of_mem hc)).mp hj)
      · exact .refl
    · intro hd
      rcases hd.cases_head with rfl | ⟨k, hk, hd⟩
      · exact Or.inr rfl
      · obtain ⟨c, hc, rfl⟩ := h.child_iff.mp hk
        exact Or.inl ⟨c, hc, (ih c hc (h.of_mem hc)).mpr hd⟩

/-- The index at the top determines the tree. -/
theorem unique (h : Follows links r) {r' : Rose} (h' : Follows links r')
    (hindex : r.index = r'.index) : r = r' := by
  induction r using Rose.induction generalizing r' with
  | node i cs ih =>
    obtain ⟨j, cs'⟩ := r'
    obtain rfl : i = j := hindex
    have hmap : cs.map index = cs'.map index := h.below_eq.symm.trans h'.below_eq
    -- equal indices in two lists of children are equal trees, one by one
    have hsame : ∀ ds ds' : List Rose, (∀ c ∈ ds, c ∈ cs) → (∀ c ∈ ds', c ∈ cs') →
        ds.map index = ds'.map index → ds = ds' := by
      intro ds
      induction ds with
      | nil =>
        intro ds' _ _ hds
        exact (List.map_eq_nil_iff.mp hds.symm).symm
      | cons c ds ihds =>
        intro ds' hcs hcs' hds
        cases ds' with
        | nil => simp at hds
        | cons c' ds' =>
          obtain ⟨hc, hds⟩ := List.cons.inj hds
          have hmem := hcs c List.mem_cons_self
          have hmem' := hcs' c' List.mem_cons_self
          rw [ih c hmem (h.of_mem hmem) (h'.of_mem hmem') hc,
            ihds ds' (fun d hd => hcs d (List.mem_cons_of_mem _ hd))
              (fun d hd => hcs' d (List.mem_cons_of_mem _ hd)) hds]
    rw [hsame cs cs' (fun _ => id) (fun _ => id) hmap]

end Follows

end Rose

/-! ## §3 Unfolding planted child lists -/

namespace Links

namespace Planted

open Rose

variable {links : Links} {root i a b x : Nat}

/-- Each of some indices has a tree, so together they have a list of trees. -/
private theorem exists_forest {indices : List Nat}
    (h : ∀ i ∈ indices, ∃ r : Rose, r.index = i ∧ Follows links r) :
    ∃ cs : List Rose, cs.map Rose.index = indices ∧ ∀ c ∈ cs, Follows links c := by
  induction indices with
  | nil => exact ⟨[], rfl, by simp⟩
  | cons i indices ih =>
    obtain ⟨r, rfl, hr⟩ := h i List.mem_cons_self
    obtain ⟨cs, rfl, hcs⟩ := ih fun j hj => h j (List.mem_cons_of_mem _ hj)
    exact ⟨r :: cs, rfl, List.forall_mem_cons.mpr ⟨hr, hcs⟩⟩

/-- Every index **unfolds** to a tree. -/
theorem exists_follows (h : Planted links root) (hi : i < links.length) :
    ∃ r : Rose, r.index = i ∧ Follows links r := by
  refine h.induction (motive := fun i => ∃ r : Rose, r.index = i ∧ Follows links r) ?_ i hi
  intro i hi ih
  obtain ⟨cs, hcs, hfollows⟩ := exists_forest ih
  exact ⟨.node i cs, rfl, .node (by rw [hcs, getElem?_eq_below hi]) hfollows⟩

/-- Of two indices with a common descendant one lies below the other. -/
theorem comparable (h : Planted links root) (ha : links.Descends a x) (hb : links.Descends b x) :
    links.Descends a b ∨ links.Descends b a := by
  induction ha with
  | refl => exact Or.inr hb
  | tail hay hyx ih =>
    rcases hb.cases_tail with rfl | ⟨z, hbz, hzx⟩
    · exact Or.inl (hay.tail hyx)
    · rw [← hyx.unique h.nodup_flatten hzx] at hbz
      exact ih hbz

/-- Of two children of one index neither lies below the other. -/
private theorem siblings_apart (h : Planted links root) (ha : links.Child i a)
    (hb : links.Child i b) (hne : a ≠ b) : ¬ links.Descends a b := by
  intro hd
  rcases hd.cases_tail with rfl | ⟨p, hap, hpb⟩
  · exact hne rfl
  · rw [hpb.unique h.nodup_flatten hb] at hap
    exact h.not_descends ha hap

/-- Different children of an index share **no descendant**. -/
theorem child_eq_of_descends (h : Planted links root) (ha : links.Child i a)
    (hb : links.Child i b) (hax : links.Descends a x) (hbx : links.Descends b x) : a = b := by
  by_contra hne
  rcases h.comparable hax hbx with hab | hba
  · exact h.siblings_apart ha hb hne hab
  · exact h.siblings_apart hb ha (Ne.symm hne) hba

/-- A tree holds no index twice. -/
theorem nodup_postorder (h : Planted links root) {r : Rose} (hr : Follows links r) :
    r.postorder.Nodup := by
  induction r using Rose.induction with
  | node i cs ih =>
    rw [postorder_node, List.nodup_append']
    refine ⟨List.nodup_flatMap.mpr ⟨fun c hc => ih c hc (hr.of_mem hc), ?_⟩,
      List.nodup_singleton i, ?_⟩
    · -- two children share no descendant
      have hnodup := nodup_below h.nodup_flatten i
      rw [hr.below_eq, List.Nodup, List.pairwise_map] at hnodup
      refine hnodup.imp_of_mem fun {c d} hc hd hne x hxc hxd => ?_
      have hxc := ((hr.of_mem hc).mem_postorder).mp hxc
      have hxd := ((hr.of_mem hd).mem_postorder).mp hxd
      have hic := hr.child_iff.mpr ⟨c, hc, rfl⟩
      have hid := hr.child_iff.mpr ⟨d, hd, rfl⟩
      exact hne (h.child_eq_of_descends hic hid hxc hxd)
    · -- the top does not lie below its children
      rw [List.disjoint_singleton]
      intro hi
      obtain ⟨c, hc, hi⟩ := List.mem_flatMap.mp hi
      exact h.not_descends (hr.child_iff.mpr ⟨c, hc, rfl⟩)
        (((hr.of_mem hc).mem_postorder).mp hi)

/-- The tree at the root holds **all indices**, each once. -/
theorem postorder_perm (h : Planted links root) {r : Rose} (hr : Follows links r)
    (hroot : r.index = root) : r.postorder.Perm (List.range links.length) := by
  refine (List.perm_ext_iff_of_nodup (h.nodup_postorder hr) List.nodup_range).mpr fun j => ?_
  rw [hr.mem_postorder, hroot, List.mem_range]
  exact ⟨fun hd => h.descends_lt h.root_lt hd, h.descends j⟩

/-! ## §4 Values computed upwards -/

variable {α : Type} (leaf : Nat → α) (branch : List α → α)

/-- Values can be given to all indices such that those of leaves are as wanted and the others are
**computed from the children**. -/
theorem exists_values (h : links.Planted root) : ∃ value : Nat → α,
    (∀ i < links.length, links.below i = [] → value i = leaf i)
      ∧ ∀ i, links.below i ≠ [] → value i = branch ((links.below i).map value) := by
  have htree : ∀ i, ∃ r : Rose, i < links.length → r.index = i ∧ Follows links r := by
    intro i
    by_cases hi : i < links.length
    · obtain ⟨r, hr⟩ := h.exists_follows hi
      exact ⟨r, fun _ => hr⟩
    · exact ⟨.node 0 [], fun hlt => absurd hlt hi⟩
  choose tree htree using htree
  refine ⟨fun i => Rose.value leaf branch (tree i), fun i hi hbelow => ?_, fun i hbelow => ?_⟩
  · obtain ⟨hindex, hfollows⟩ := htree i hi
    show Rose.value leaf branch (tree i) = leaf i
    cases hnode : tree i with
    | node j cs =>
      rw [hnode] at hindex hfollows
      obtain rfl : j = i := hindex
      rw [hfollows.below_eq, List.map_eq_nil_iff] at hbelow
      rw [hbelow, Rose.value]
      rfl
  · obtain ⟨c, hc⟩ := List.exists_mem_of_ne_nil _ hbelow
    obtain ⟨hindex, hfollows⟩ := htree i (Child.parent_lt hc)
    show Rose.value leaf branch (tree i) = _
    cases hnode : tree i with
    | node j cs =>
      rw [hnode] at hindex hfollows
      obtain rfl : j = i := hindex
      rw [hfollows.below_eq] at hbelow ⊢
      have hcs : cs ≠ [] := fun hnil => hbelow (by rw [hnil, List.map_nil])
      -- the tree of a child is the one below
      have hchild : ∀ c ∈ cs, tree c.index = c := by
        intro c hc
        have hfc := hfollows.of_mem hc
        obtain ⟨hindex, hfollows⟩ := htree c.index hfc.index_lt
        exact hfollows.unique hfc hindex
      rw [Rose.value, if_neg (by simpa using hcs), Rose.values_eq_map, List.map_map]
      congr 1
      exact List.map_congr_left fun c hc => by rw [Function.comp_apply, hchild c hc]

end Planted

end Links

end HashTree
