import HashTree.Proofs.Opening.Generated
import HashTree.Proofs.Opening.Parse
import HashTree.Proofs.Opening.Spanned

/-!
# The sided reading of a path

The opening of a single leaf can be read without its slots: in each step only the siblings are
looked at, each with its side. Starting from the digest of the leaf, what has been computed so far
is hashed between the siblings on the left and those on the right. This leads to **the same root**
as replaying the slots.
-/

namespace HashTree

/-! ## §1 Reading siblings only -/

/-- The siblings on one side, from left to right. -/
def Step.siblingsOn (step : Step) (side : Side) : List Digest :=
  (step.sides.filter (·.1 = side)).map (·.2)

/-- Hashes a digest between the siblings of a step. -/
def Step.enclose (a : Algorithm) (digest : Digest) (step : Step) : Digest :=
  a.digest ((step.siblingsOn .left).flatten ++ digest ++ (step.siblingsOn .right).flatten)

/-- What a digest leads to when **only the siblings** are read. -/
def Opening.sidedRoot (o : Opening) (digest : Digest) : Digest :=
  o.steps.foldl (Step.enclose o.algorithm) digest

namespace Step

variable {front back : List Digest} {slot : Slot}

theorem filterMap_siblings (ds : List Digest) :
    (ds.map Slot.sibling).filterMap Slot.sibling? = ds := by
  rw [List.filterMap_map]
  exact List.filterMap_some

/-- Around a slot that is no sibling, the sides are what stands in front of it and behind it. -/
theorem sides_around (hslot : slot.sibling? = none) :
    sides (front.map .sibling ++ slot :: back.map .sibling)
      = front.map (Side.left, ·) ++ back.map (Side.right, ·) := by
  have hfront : ∀ s ∈ front.map Slot.sibling, s.sibling?.isSome = true := by
    simp [Slot.sibling?]
  -- the siblings in front are passed, and the slot is the first that is none
  rw [sides, List.takeWhile_append_of_pos hfront, List.dropWhile_append_of_pos hfront]
  simp only [List.takeWhile_cons, List.dropWhile_cons, hslot, Option.isSome_none,
    Bool.false_eq_true, if_false, List.append_nil, List.filterMap_cons_none hslot,
    filterMap_siblings]

theorem siblingsOn_left (hslot : slot.sibling? = none) :
    siblingsOn (front.map .sibling ++ slot :: back.map .sibling) .left = front := by
  simp [siblingsOn, sides_around hslot, List.filter_map, Function.comp_def]

theorem siblingsOn_right (hslot : slot.sibling? = none) :
    siblingsOn (front.map .sibling ++ slot :: back.map .sibling) .right = back := by
  simp [siblingsOn, sides_around hslot, List.filter_map, Function.comp_def]

theorem enclose_around (a : Algorithm) (d : Digest) (hslot : slot.sibling? = none) :
    enclose a d (front.map .sibling ++ slot :: back.map .sibling)
      = a.digest (front.flatten ++ d ++ back.flatten) := by
  rw [enclose, siblingsOn_left hslot, siblingsOn_right hslot]

end Step

/-! ## §2 Trees of slots with a single leaf -/

namespace Limb

/-- A way from the root down to a **lone leaf**: in every branch on it one slot leads on, and all
others are siblings. -/
inductive Lone : Limb → Prop where
  | leaf : Lone (.leaf 0)
  | branch {e : Limb} (front back : List Digest) (h : Lone e) :
    Lone (.branch (front.map .sibling ++ e :: back.map .sibling))

namespace Lone

variable {e : Limb}

theorem slot_ne_sibling (h : e.Lone) : e.slot.sibling? = none := by
  cases h with
  | leaf => rfl
  | branch => rfl

private theorem map_slot_siblings (ds : List Digest) :
    (ds.map sibling).map slot = ds.map Slot.sibling := by
  rw [List.map_map]
  rfl

private theorem flatMap_steps_siblings (ds : List Digest) :
    (ds.map sibling).flatMap steps = [] := by
  rw [List.flatMap_map, List.flatMap_eq_nil_iff]
  intro d _
  rfl

/-- A branch with one way on has the steps of that way and then its own. -/
theorem steps_around (front back : List Digest) (e : Limb) :
    (Limb.branch (front.map .sibling ++ e :: back.map .sibling)).steps
      = e.steps ++ [front.map Slot.sibling ++ e.slot :: back.map Slot.sibling] := by
  rw [steps_branch, List.flatMap_append, List.flatMap_cons, flatMap_steps_siblings,
    flatMap_steps_siblings, List.map_append, List.map_cons, map_slot_siblings, map_slot_siblings,
    List.nil_append, List.append_nil]

private theorem ranksIn_siblings (ds : List Digest) :
    Opening.ranksIn (ds.map Slot.sibling) = [] := by
  rw [Opening.ranksIn, List.filterMap_map, List.filterMap_eq_nil_iff]
  intro d _
  rfl

/-- The only leaf that is named is the first. -/
theorem ranksOf_steps (h : e.Lone) :
    Opening.ranksOf e.steps ++ Opening.ranksIn [e.slot] = [0] := by
  induction h with
  | leaf => rfl
  | @branch e front back h ih =>
    have hstep : Opening.ranksIn (front.map .sibling ++ e.slot :: back.map .sibling)
        = Opening.ranksIn [e.slot] := by
      rw [Opening.ranksIn, List.filterMap_append, ← List.singleton_append, List.filterMap_append]
      show Opening.ranksIn _ ++ (Opening.ranksIn _ ++ Opening.ranksIn _) = _
      rw [ranksIn_siblings, ranksIn_siblings, List.nil_append, List.append_nil]
    -- the branch itself stands in a child slot, which names no leaf
    rw [steps_around, Opening.ranksOf_concat, hstep, ih]
    rfl

/-- Its value is what the digest of the leaf leads to when only the siblings are read. -/
theorem value_eq (h : e.Lone) (a : Algorithm) (leaf : Opened) :
    e.value a [leaf] = e.steps.foldl (Step.enclose a) leaf.digest := by
  induction h with
  | leaf => rfl
  | @branch e front back h ih =>
    have hsiblings : ∀ ds : List Digest, (ds.map sibling).flatMap (value a [leaf]) = ds.flatten := by
      intro ds
      simp [List.flatMap_def, Function.comp_def, value]
    rw [steps_around, List.foldl_append, ← ih, value_branch, List.flatMap_append,
      List.flatMap_cons, hsiblings, hsiblings, ← List.append_assoc]
    exact (Step.enclose_around a _ h.slot_ne_sibling).symm

/-- In every step all slots but one are siblings. -/
theorem length_siblings (h : e.Lone) :
    ∀ step ∈ e.steps, (step.filterMap Slot.sibling?).length + 1 = step.length := by
  induction h with
  | leaf => simp [steps]
  | @branch e front back h ih =>
    rw [steps_around]
    intro step hstep
    rcases List.mem_append.mp hstep with hstep | hstep
    · exact ih step hstep
    · obtain rfl := List.mem_singleton.mp hstep
      rw [List.filterMap_append, List.filterMap_cons_none h.slot_ne_sibling,
        Step.filterMap_siblings, Step.filterMap_siblings]
      simp [Nat.add_assoc]

end Lone

end Limb

/-- **Replaying the steps of a lone leaf** gives what the sided reading gives. -/
theorem Opening.computeRoot_of_lone {o : Opening} {e : Limb} {leaf : Opened} (he : e.Lone)
    (hsteps : o.steps = e.steps) (hindices : o.indices.length = 1) (hcurrent : o.current = [leaf]) :
    o.computeRoot = .ok (o.sidedRoot leaf.digest) := by
  have hlength : o.current.length = o.indices.length := by rw [hcurrent, hindices]; rfl
  refine Opening.computeRoot_eq_ok_iff.mpr ⟨hlength, ?_⟩
  have hranks := he.ranksOf_steps
  have hvalue := he.value_eq o.algorithm leaf
  rw [← hsteps] at hranks hvalue
  -- without steps the leaf is the root; else the tree of slots is the one that the steps spell
  cases he with
  | leaf => exact .inl ⟨hsteps, leaf, hcurrent, hvalue⟩
  | branch front back he =>
    refine .inr ⟨?_, _, ⟨hsteps.symm, ?_⟩, fun slots hslots => Limb.branch_inj (hslots.1.trans hsteps)⟩
    · rw [hcurrent]
      exact List.Perm.of_eq ((List.append_nil _).symm.trans hranks)
    · rw [hcurrent]
      exact hvalue

/-! ## §3 The opening of a single leaf -/

/-- Where all children but one are siblings, the steps are those of that child and one more. -/
theorem Rose.entered_around {slot : Nat → Slot} {digest : Nat → Digest} {i : Nat}
    {front back : List Rose} (next : Rose) (henters : slot i = .child)
    (hother : ∀ other ∈ front ++ back, slot other.index = .sibling (digest other.index)) :
    (Rose.node i (front ++ next :: back)).entered slot = next.entered slot
      ++ [(front.map fun c => digest c.index).map Slot.sibling
        ++ slot next.index :: (back.map fun c => digest c.index).map Slot.sibling] := by
  have hslots : ∀ ds : List Rose, (∀ c ∈ ds, c ∈ front ++ back) →
      ds.map (fun c => slot c.index) = (ds.map fun c => digest c.index).map Slot.sibling := by
    intro ds hds
    rw [List.map_map]
    exact List.map_congr_left fun c hc => hother c (hds c hc)
  have hnone : ∀ ds : List Rose, (∀ c ∈ ds, c ∈ front ++ back) →
      ds.flatMap (Rose.entered slot) = [] := by
    intro ds hds
    apply List.flatMap_eq_nil_iff.mpr
    intro c hc
    apply Rose.entered_eq_nil
    rw [hother c (hds c hc)]
    exact Slot.noConfusion
  have hfront : ∀ c ∈ front, c ∈ front ++ back := fun _ => List.mem_append_left _
  have hback : ∀ c ∈ back, c ∈ front ++ back := fun _ => List.mem_append_right _
  rw [Rose.entered_node _ henters, List.flatMap_append, List.flatMap_cons, hnone front hfront,
    hnone back hback, List.map_append, List.map_cons, hslots front hfront, hslots back hback,
    List.nil_append, List.append_nil]

namespace Tree

variable {t : Tree} {top : Rose} {slot : Nat → Slot} {p i : Nat}

section Unfolds

variable (u : t.Unfolds top) {cs front back : List Rose} {r next : Rose}
include u

/-- Beside the child that leads to a single position there are only **siblings**. -/
theorem Unfolds.slot_eq_sibling (hr : (Rose.node i (front ++ next :: back)).Follows t.links)
    (hshows : ∀ i < t.links.length, t.Shows [p] i (slot i)) (hleads : t.LeadsTo [p] next.index) :
    ∀ other ∈ front ++ back, slot other.index = .sibling (t.digestAt other.index) := by
  have hdistinct := Links.nodup_below u.planted.nodup_flatten i
  rw [hr.below_eq, List.map_append, List.map_cons, List.nodup_middle, List.nodup_cons,
    ← List.map_append] at hdistinct
  -- another child that leads there would be the same one, and children are distinct
  have hchild : ∀ c ∈ front ++ next :: back, t.links.Child i c.index :=
    fun c hc => hr.child_iff.mpr ⟨c, hc, rfl⟩
  have hnext : next ∈ front ++ next :: back := List.mem_append_right _ List.mem_cons_self
  intro other hother
  have hmem := List.perm_middle.mem_iff.mpr (List.mem_cons_of_mem next hother)
  apply (hshows other.index (hr.of_mem hmem).index_lt).eq_sibling
  intro hother'
  apply hdistinct.1
  rw [← u.child_unique (hchild next hnext) (hchild other hmem) hleads hother']
  exact List.mem_map_of_mem hother

/-- Below a node that leads to a single position, the steps are those of a lone leaf. -/
theorem Unfolds.exists_lone (hr : r.Follows t.links)
    (hshows : ∀ i < t.links.length, t.Shows [p] i (slot i)) (hleads : t.LeadsTo [p] r.index) :
    ∃ e : Limb, e.Lone ∧ e.slot = slot r.index ∧ e.steps = r.entered slot := by
  induction r using Rose.induction with
  | node i cs ih =>
    rw [Rose.index_node] at hleads ⊢
    have hshow := hshows i hr.index_lt
    generalize hslot : slot i = here at hshow
    cases hshow with
    | @leaf rank q hrank hleaf =>
      obtain rfl : rank = 0 := by simpa using (List.getElem?_eq_some_iff.mp hrank).1
      have hstays : slot (Rose.node i cs).index ≠ .child := by simp [hslot]
      exact ⟨.leaf 0, .leaf, rfl, (Rose.entered_eq_nil hstays).symm⟩
    | sibling hnot => exact absurd hleads hnot
    | child hbranch hleads =>
      -- one child leads on, and what stands beside it are siblings
      obtain ⟨k, hk, hkleads⟩ := u.exists_child_leadsTo hbranch hleads
      obtain ⟨next, hnext, rfl⟩ := hr.child_iff.mp hk
      obtain ⟨e, he, heslot, hesteps⟩ := ih next hnext (hr.of_mem hnext) hkleads
      obtain ⟨front, back, rfl⟩ := List.append_of_mem hnext
      have hentered := Rose.entered_around next hslot (u.slot_eq_sibling hr hshows hkleads)
      rw [← hesteps, ← heslot] at hentered
      exact ⟨_, .branch _ _ he, rfl, (Limb.Lone.steps_around _ _ e).trans hentered.symm⟩

end Unfolds

/-- **The steps to a single leaf** are those of a lone leaf. -/
theorem Unfolds.exists_lone_stepsFrom (u : t.Unfolds top) (hp : p < t.leafCount) :
    ∃ e : Limb, e.Lone ∧ e.steps = t.stepsFrom (t.leavesAt [p]) := by
  have hnodup : [p].Nodup := List.nodup_singleton p
  have hlt : ∀ q ∈ [p], q < t.leafCount := by simpa using hp
  have hleaf := Array.getElem?_eq_getElem hp
  have hleads : t.LeadsTo [p] top.index :=
    ⟨p, List.mem_singleton_self p, _, hleaf, u.planted.descends _ (u.leaf_lt hleaf)⟩
  obtain ⟨e, he, -, hsteps⟩ :=
    u.exists_lone u.follows (fun i hi => u.shows_slotOf hnodup hlt hi) hleads
  refine ⟨e, he, hsteps.trans ?_⟩
  exact (u.stepsFrom_eq_entered (u.nodup_leavesAt hnodup)
    fun leaf hleaf => (u.below_leavesAt hleaf).2).symm

/-! ## §4 Openings of reachable trees -/

/-- **The sided reading agrees with the replay.** A reachable tree is opened at any single position.
Whatever digest the leaf is given, and after any changes, the root that is computed is what the
digest of the leaf leads to when only the siblings are read. -/
theorem Reachable.computeRoot_sided (h : t.Reachable) (hp : p < t.leafCount) :
    ∃ o, t.openAt [p] = .ok o
      ∧ (∀ d : Digest, d.length = t.algorithm.digestSize →
        ∃ q, o.updateDigests [d] = .ok q ∧ q.computeRoot = .ok (o.sidedRoot d))
      ∧ (∀ q, Relation.ReflTransGen Opening.Changed o q → ∃ leaf, q.current = [leaf]
        ∧ q.computeRoot = .ok (q.sidedRoot leaf.digest))
      ∧ ∀ leaf : Opened,
        Opening.computeRoot { o with current := [leaf] } = .ok (o.sidedRoot leaf.digest) := by
  obtain ⟨r, u, hopen⟩ := h.made.exists_openAt (List.cons_ne_nil p []) (by simpa using hp)
  rw [selection_singleton] at hopen
  obtain ⟨e, he, hsteps⟩ := u.exists_lone_stepsFrom hp
  have hroot : ∀ leaf : Opened, Opening.computeRoot
      { t.opening (t.digestAt r.index) [p] with current := [leaf] }
        = .ok ((t.opening (t.digestAt r.index) [p]).sidedRoot leaf.digest) :=
    fun leaf => Opening.computeRoot_of_lone he hsteps.symm rfl rfl
  refine ⟨_, hopen, fun d hd => ?_, fun q hq => ?_, hroot⟩
  · have hdigests : ∀ d' ∈ [d], d'.length = t.algorithm.digestSize := by simpa using hd
    refine ⟨_, Opening.updateDigests_eq_ok_iff.mpr ⟨hdigests, ?_⟩, hroot ⟨none, d⟩⟩
    exact Opening.replace_eq_ok_iff.mpr ⟨rfl, rfl⟩
  · -- changes keep the steps, and leave a single leaf
    have hsound := h.made.sound_of_openAt hopen
    obtain ⟨hq, leaves, rfl⟩ := Opening.exists_leaves_of_changes hq hsound
    obtain ⟨leaf, rfl⟩ := List.length_eq_one_iff.mp hq.length_current
    exact ⟨leaf, rfl, hroot leaf⟩

/-- The second of three items is opened and changed. -/
theorem Reachable.computeRoot_sided_three :
    ∃ o q, (Tree.ofItems .sha1 true [[1], [2], [3]]).openAt [1] = .ok o
      ∧ o.update [[9]] = .ok q ∧ q.computeRoot = .ok (q.sidedRoot (Algorithm.sha1.digest [9])) := by
  have hp : 1 < (Tree.ofItems .sha1 true [[1], [2], [3]]).leafCount := by
    simp [leafCount, leaves_ofItems]
  obtain ⟨o, hopen, -, -, hroot⟩ :=
    Reachable.computeRoot_sided (.ofItems .sha1 true [[1], [2], [3]]) hp
  have ho : o.algorithm = .sha1 ∧ o.indices.length = 1 := by
    obtain ⟨expected, -, -, -, rfl⟩ := openAt_eq_ok_iff.mp hopen
    rw [selection_singleton]
    exact ⟨algorithm_ofItems .., rfl⟩
  refine ⟨o, _, hopen, Opening.update_eq_ok ho.2.symm, ?_⟩
  rw [← ho.1]
  exact hroot ⟨some [9], o.algorithm.digest [9]⟩

end Tree

end HashTree
