import HashTree.Opening.Replay
import HashTree.Proofs.Opening.Standings
import HashTree.Proofs.Outcome

/-!
# Replaying generated steps

The steps of a generated opening are those of a tree of indices, children first. Replaying the
steps of one such tree leaves one digest, that of its top after the opened leaves were changed, and
uses the opened leaves below it. On whole trees this is the digest of the root.
-/

namespace HashTree

open Opening

/-! ## §1 Which leaves have been used -/

/-- The opened leaves that have been **used** are those in a set of indices. -/
private structure Marked (leaves : List Nat) (used : Array Bool) (done : Nat → Prop) : Prop where
  size_eq : used.size = leaves.length
  used_iff : ∀ rank i, leaves[rank]? = some i → (used.getD rank true = true ↔ done i)

namespace Marked

variable {leaves : List Nat} {used : Array Bool} {done done' : Nat → Prop}

private theorem congr (h : Marked leaves used done) (hiff : ∀ i ∈ leaves, done i ↔ done' i) :
    Marked leaves used done' :=
  ⟨h.size_eq, fun rank i hi => (h.used_iff rank i hi).trans (hiff i (List.mem_of_getElem? hi))⟩

private theorem start (leaves : List Nat) :
    Marked leaves (Replay.start leaves.length).used fun _ => False := by
  refine ⟨Array.size_replicate, fun rank i hi => ?_⟩
  have hlt := (List.getElem?_eq_some_iff.mp hi).1
  rw [Replay.start, Array.getD_eq_getD_getElem?, Array.getElem?_replicate, if_pos hlt]
  simp

private theorem use (h : Marked leaves used done) (hnodup : leaves.Nodup) {rank i : Nat}
    (hi : leaves[rank]? = some i) :
    Marked leaves (used.setIfInBounds rank true) fun j => done j ∨ j = i := by
  have hlt := (List.getElem?_eq_some_iff.mp hi).1
  refine ⟨by rw [Array.size_setIfInBounds, h.size_eq], fun rank' j hj => ?_⟩
  rw [Array.getD_eq_getD_getElem?, Array.getElem?_setIfInBounds]
  by_cases hrank : rank = rank'
  · subst hrank
    simp [h.size_eq, hlt, Option.some.inj (hj.symm.trans hi)]
  · have hne : j ≠ i := by
      rintro rfl
      exact hrank ((List.getElem?_inj hlt hnodup).mp (hi.trans hj.symm))
    rw [if_neg hrank, ← Array.getD_eq_getD_getElem?, h.used_iff rank' j hj]
    exact (or_iff_left hne).symm

end Marked

/-! ## §2 Digests after a change -/

/-- Digests of all indices when the leaves of an opening replace those they were taken from. -/
private structure Revalued (t : Tree) (leaves : List Nat) (current : Array Opened)
    (d : Nat → Digest) : Prop where
  size_current : current.size = leaves.length
  opened : ∀ (rank i : Nat) (leaf : Opened), leaves[rank]? = some i →
    current[rank]? = some leaf → d i = leaf.digest
  kept : ∀ i < t.links.length, t.links.below i = [] → i ∉ leaves → d i = t.digestAt i
  branch : ∀ i, t.links.below i ≠ [] →
    d i = t.algorithm.digest ((t.links.below i).flatMap d)

section Replaying

variable {t : Tree} {top : Rose} (u : t.Unfolds top) {leaves : List Nat}
  (hnodup : leaves.Nodup) (hleaves : ∀ i ∈ leaves, t.links.below i = [])
  {current : Array Opened} {d : Nat → Digest} (hd : Revalued t leaves current d)

include u hd in
private theorem Revalued.eq_of_outside {r : Rose} (hr : r.Follows t.links)
    (hout : ∀ leaf ∈ leaves, ¬ t.links.Descends r.index leaf) :
    d r.index = t.digestAt r.index := by
  induction r using Rose.induction with
  | node i cs ih =>
    rw [Rose.index_node] at hout ⊢
    by_cases hbelow : t.links.below i = []
    · exact hd.kept i hr.index_lt hbelow fun hi => hout i hi .refl
    · rw [hd.branch i hbelow, u.digestAt_eq i hbelow]
      congr 1
      refine List.flatMap_congr fun c hc => ?_
      obtain ⟨c, hcs, rfl⟩ := hr.child_iff.mp hc
      exact ih c hcs (hr.of_mem hcs) fun leaf hleaf hdown => hout leaf hleaf (.head hc hdown)

/-! ## §3 One step -/

/-- Is an opened leaf below the top? -/
private def isAbove (standings : Array Standing) (r : Rose) : Bool :=
  standingAt standings r.index == .above

include u hnodup hleaves hd in
/-- The slots of some children are fed their digests, and the opened leaves among the children
are used. -/
private theorem feed_slots (cs : List Rose) (hcs : ∀ c ∈ cs, c.Follows t.links)
    (hdistinct : (cs.map Rose.index).Nodup) {used : Array Bool} {done : Nat → Prop}
    (hmarked : Marked leaves used done) (hfresh : ∀ c ∈ cs, c.index ∈ leaves → ¬ done c.index)
    (found : List Digest) :
    ∃ used', feed current (cs.map fun c => t.slotOf (t.standings leaves) c.index) used
        ((cs.filter (isAbove (t.standings leaves))).map fun c => d c.index) found
          = .ok (found.reverse ++ cs.map (fun c => d c.index), used')
      ∧ Marked leaves used' fun j => done j ∨ ∃ c ∈ cs, c.index = j := by
  induction cs generalizing used done found with
  | nil =>
    refine ⟨used, by simp [feed], hmarked.congr fun i _ => ?_⟩
    simp
  | cons c cs ih =>
    have hfollows := hcs c List.mem_cons_self
    have ih := @ih (fun e he => hcs e (List.mem_cons_of_mem _ he)) (List.nodup_cons.mp hdistinct).2
    have hne : ∀ e ∈ cs, e.index ≠ c.index := fun e he heq =>
      (List.nodup_cons.mp hdistinct).1 (heq ▸ List.mem_map_of_mem he)
    have hfits := u.fits_standings hnodup hfollows.index_lt
    rw [List.map_cons, List.map_cons, List.filter_cons]
    generalize hstanding : standingAt (t.standings leaves) c.index = standing at hfits
    -- each standing has a slot of its own, and only a leaf slot marks a leaf as used
    cases hfits with
    | selected hrank =>
      rename_i rank
      -- the leaf is there and was not used before, since no index stands twice in a tree
      obtain ⟨leaf, hleaf⟩ : ∃ leaf, current[rank]? = some leaf := by
        refine ⟨_, Array.getElem?_eq_getElem ?_⟩
        rw [hd.size_current]
        exact (List.getElem?_eq_some_iff.mp hrank).1
      have hunused : used.getD rank true = false := by
        rw [← Bool.not_eq_true, hmarked.used_iff rank _ hrank]
        exact hfresh c List.mem_cons_self (List.mem_of_getElem? hrank)
      obtain ⟨used', hfeed, hmarked'⟩ := ih (hmarked.use hnodup hrank)
        (fun e he hel hor => hor.elim (hfresh e (List.mem_cons_of_mem _ he) hel) (hne e he))
        (d c.index :: found)
      refine ⟨used', ?_, hmarked'.congr fun i _ => ?_⟩
      · have habove : isAbove (t.standings leaves) c = false := by simp [isAbove, hstanding]
        have hslot : t.slotOf (t.standings leaves) c.index = .leaf rank := by
          simp [Tree.slotOf, hstanding]
        simp only [habove, hslot, feed, hleaf, hunused, Bool.false_eq_true, if_false]
        rw [← hd.opened rank _ leaf hrank hleaf, hfeed]
        simp
      · simp only [List.mem_cons, exists_eq_or_imp, or_assoc, @eq_comm _ i]
    | above hbelow hleaf hdown =>
      -- the digest is the next of those that the child slots take
      have hnotMem : ∀ i ∈ leaves, c.index ≠ i := by
        rintro i hi rfl
        exact hbelow (hleaves _ hi)
      obtain ⟨used', hfeed, hmarked'⟩ := ih hmarked
        (fun e he => hfresh e (List.mem_cons_of_mem _ he)) (d c.index :: found)
      refine ⟨used', ?_, hmarked'.congr fun i hi => ?_⟩
      · have habove : isAbove (t.standings leaves) c = true := by simp [isAbove, hstanding]
        have hslot : t.slotOf (t.standings leaves) c.index = .child := by
          simp [Tree.slotOf, hstanding]
        simp only [habove, hslot, if_true, List.map_cons, feed, hfeed]
        simp
      · simp only [List.mem_cons, exists_eq_or_imp, hnotMem i hi, false_or]
    | outside hout =>
      -- the sibling's digest is the tree's, and the change left it as it was
      have hnotMem : ∀ i ∈ leaves, c.index ≠ i := by
        rintro i hi rfl
        exact hout _ hi .refl
      obtain ⟨used', hfeed, hmarked'⟩ := ih hmarked
        (fun e he => hfresh e (List.mem_cons_of_mem _ he)) (d c.index :: found)
      refine ⟨used', ?_, hmarked'.congr fun i hi => ?_⟩
      · have habove : isAbove (t.standings leaves) c = false := by simp [isAbove, hstanding]
        have hslot : t.slotOf (t.standings leaves) c.index = .sibling (t.digestAt c.index) := by
          simp [Tree.slotOf, hstanding, Tree.digestAt]
        simp only [habove, hslot, feed, Bool.false_eq_true, if_false]
        rw [← hd.eq_of_outside u hfollows hout, hfeed]
        simp
      · simp only [List.mem_cons, exists_eq_or_imp, hnotMem i hi, false_or]

/-! ## §4 The steps of a tree of indices -/

/-- The step of an index. -/
private def stepAt (t : Tree) (leaves : List Nat) (i : Nat) : Step :=
  (t.childrenAt i).map (t.slotOf (t.standings leaves))

/-- The steps of the indices in a tree that stand above opened leaves. -/
private def stepsOf (t : Tree) (leaves : List Nat) (r : Rose) : List Step :=
  (r.postorder.filter fun i => standingAt (t.standings leaves) i == .above).map (stepAt t leaves)

include u hnodup hleaves in
/-- A tree whose top does not stand above opened leaves has no steps. -/
private theorem stepsOf_eq_nil {r : Rose} (hr : r.Follows t.links)
    (habove : isAbove (t.standings leaves) r = false) : stepsOf t leaves r = [] := by
  rw [stepsOf, List.map_eq_nil_iff, List.filter_eq_nil_iff]
  intro j hj hjabove
  have hdown := hr.mem_postorder.mp hj
  have hfits := u.fits_standings hnodup (u.planted.descends_lt hr.index_lt hdown)
  rw [beq_iff_eq.mp hjabove] at hfits
  cases hfits with
  | above hbelow hleaf hd =>
    -- the top is not outside either, and it has children
    have htop := u.fits_standings hnodup hr.index_lt
    have hne := htop.ne_outside hleaf (hdown.trans hd)
    rw [isAbove, beq_eq_false_iff_ne] at habove
    generalize standingAt (t.standings leaves) r.index = standing at htop hne habove
    cases htop with
    | selected hrank =>
      have hnil := hleaves _ (List.mem_of_getElem? hrank)
      exact hbelow (hdown.eq_of_below_nil hnil ▸ hnil)
    | above => exact habove rfl
    | outside => exact hne rfl

/-- Replaying the steps of a tree leaves the digest of its top and uses the opened leaves in it. -/
private def Replays (t : Tree) (leaves : List Nat) (current : Array Opened) (d : Nat → Digest)
    (r : Rose) : Prop :=
  isAbove (t.standings leaves) r = true → ∀ (used : Array Bool) (done : Nat → Prop)
    (loose : List Digest), Marked leaves used done → (∀ j ∈ r.postorder, j ∈ leaves → ¬ done j) →
      ∃ used', (stepsOf t leaves r).foldlM (Replay.step t.algorithm current) ⟨used, loose⟩
          = .ok ⟨used', d r.index :: loose⟩
        ∧ Marked leaves used' fun j => done j ∨ j ∈ r.postorder

include u hnodup hleaves in
/-- Replaying the steps of some trees leaves a digest for each that has steps. -/
private theorem replay_forest (cs : List Rose) (hcs : ∀ c ∈ cs, c.Follows t.links)
    (hreplays : ∀ c ∈ cs, Replays t leaves current d c)
    (hdistinct : (cs.flatMap Rose.postorder).Nodup) {used : Array Bool} {done : Nat → Prop}
    (hmarked : Marked leaves used done)
    (hfresh : ∀ j ∈ cs.flatMap Rose.postorder, j ∈ leaves → ¬ done j) (loose : List Digest) :
    ∃ used', (cs.flatMap (stepsOf t leaves)).foldlM (Replay.step t.algorithm current) ⟨used, loose⟩
        = .ok ⟨used', ((cs.filter (isAbove (t.standings leaves))).map fun c => d c.index).reverse
            ++ loose⟩
      ∧ Marked leaves used' fun j => done j
          ∨ ∃ c ∈ cs, isAbove (t.standings leaves) c = true ∧ j ∈ c.postorder := by
  induction cs generalizing used done loose with
  | nil =>
    refine ⟨used, rfl, hmarked.congr fun i _ => ?_⟩
    simp
  | cons c cs ih =>
    rw [List.flatMap_cons] at hdistinct hfresh
    obtain ⟨-, hdistinct, hapart⟩ := List.nodup_append'.mp hdistinct
    have ih := @ih (fun e he => hcs e (List.mem_cons_of_mem _ he))
      (fun e he => hreplays e (List.mem_cons_of_mem _ he)) hdistinct
    have hrest : ∀ j ∈ cs.flatMap Rose.postorder, j ∈ leaves → ¬ done j :=
      fun j hj => hfresh j (List.mem_append_right _ hj)
    rw [List.flatMap_cons, List.foldlM_append, List.filter_cons]
    cases habove : isAbove (t.standings leaves) c with
    | false =>
      -- a child without steps is left to its slot
      obtain ⟨used', hfold, hmarked'⟩ := ih hmarked hrest loose
      refine ⟨used', ?_, hmarked'.congr fun i _ => ?_⟩
      · rw [stepsOf_eq_nil u hnodup hleaves (hcs c List.mem_cons_self) habove]
        exact hfold
      · simp [habove]
    | true =>
      -- the trees of different children have no index in common, so the leaves of the others are
      -- still unused
      obtain ⟨used₁, hfold₁, hmarked₁⟩ := hreplays c List.mem_cons_self habove used done loose
        hmarked fun j hj => hfresh j (List.mem_append_left _ hj)
      have hstill : ∀ j ∈ cs.flatMap Rose.postorder, j ∈ leaves →
          ¬ (done j ∨ j ∈ c.postorder) := by
        intro j hj hjl hor
        rcases hor with hdone | hjc
        · exact hrest j hj hjl hdone
        · exact hapart hjc hj
      obtain ⟨used', hfold, hmarked'⟩ := ih hmarked₁ hstill (d c.index :: loose)
      refine ⟨used', ?_, hmarked'.congr fun i _ => ?_⟩
      · rw [hfold₁, Outcome.ok_bind, hfold]
        simp
      · simp [habove, or_assoc]

private theorem count_child (cs : List Rose) :
    (cs.map fun c => t.slotOf (t.standings leaves) c.index).count .child
      = (cs.filter (isAbove (t.standings leaves))).length := by
  rw [List.count, List.countP_map, List.countP_eq_length_filter]
  congr 1
  refine List.filter_congr fun c _ => ?_
  rw [Function.comp_apply, Tree.slotOf, isAbove]
  cases standingAt (t.standings leaves) c.index with
  | outside => rfl
  | selected rank => rfl
  | above => rfl

/-- The steps of a branch come after those of its children. -/
private theorem stepsOf_node {i : Nat} {cs : List Rose} (hr : (Rose.node i cs).Follows t.links)
    (habove : isAbove (t.standings leaves) (.node i cs) = true) :
    stepsOf t leaves (.node i cs) = cs.flatMap (stepsOf t leaves)
      ++ [cs.map fun c => t.slotOf (t.standings leaves) c.index] := by
  have hstep : stepAt t leaves i = cs.map fun c => t.slotOf (t.standings leaves) c.index := by
    rw [stepAt, Tree.childrenAt_eq, hr.below_eq, List.map_map]
    rfl
  rw [stepsOf, Rose.postorder_node, List.filter_append, List.map_append, List.filter_flatMap,
    List.map_flatMap, ← hstep]
  rw [isAbove, Rose.index_node] at habove
  rw [List.filter_cons, if_pos habove]
  rfl

/-- A step takes from the loose digests those of its child slots. -/
private theorem step_eq (cs : List Rose) {used used' : Array Bool} (loose : List Digest)
    (hfeed : feed current (cs.map fun c => t.slotOf (t.standings leaves) c.index) used
      ((cs.filter (isAbove (t.standings leaves))).map fun c => d c.index) []
        = .ok (cs.map (fun c => d c.index), used')) :
    Replay.step t.algorithm current ⟨used,
        ((cs.filter (isAbove (t.standings leaves))).map fun c => d c.index).reverse ++ loose⟩
        (cs.map fun c => t.slotOf (t.standings leaves) c.index)
      = .ok ⟨used', t.algorithm.digest (cs.map fun c => d c.index).flatten :: loose⟩ := by
  have hlength : ((cs.filter (isAbove (t.standings leaves))).map fun c => d c.index).reverse.length
      = (cs.filter (isAbove (t.standings leaves))).length := by
    rw [List.length_reverse, List.length_map]
  rw [Replay.step]
  simp only [count_child, ← hlength, List.take_left, List.drop_left, List.reverse_reverse,
    Nat.lt_irrefl, if_false, hfeed]

include u hnodup hleaves in
/-- An opened leaf among children lies in no tree of a child that has steps. -/
private theorem not_mem_above {i : Nat} {cs : List Rose} (hr : (Rose.node i cs).Follows t.links)
    {c e : Rose} (hc : c ∈ cs) (he : e ∈ cs) (hleaf : c.index ∈ leaves)
    (habove : isAbove (t.standings leaves) e = true) : c.index ∉ e.postorder := by
  intro hmem
  have hie := hr.child_iff.mpr ⟨e, he, rfl⟩
  rcases ((hr.of_mem he).mem_postorder.mp hmem).cases_tail with heq | ⟨p, hdown, hpc⟩
  · -- the leaf itself has no steps
    have hfits := u.fits_standings hnodup (hr.of_mem he).index_lt
    rw [beq_iff_eq.mp habove] at hfits
    cases hfits with
    | above hbelow _ _ => exact hbelow (heq ▸ hleaves _ hleaf)
  · rw [hpc.unique u.planted.nodup_flatten (hr.child_iff.mpr ⟨c, hc, rfl⟩)] at hdown
    exact u.planted.not_descends hie hdown

include u hnodup hleaves in
/-- An opened leaf below a branch is a child or lies in the tree of a child that has steps. -/
private theorem mem_postorder_iff {i j : Nat} {cs : List Rose}
    (hr : (Rose.node i cs).Follows t.links) (hbelow : t.links.below i ≠ []) (hj : j ∈ leaves) :
    j ∈ (Rose.node i cs).postorder
      ↔ (∃ c ∈ cs, isAbove (t.standings leaves) c = true ∧ j ∈ c.postorder)
        ∨ ∃ c ∈ cs, c.index = j := by
  rw [Rose.postorder_node, List.mem_append, List.mem_flatMap, List.mem_singleton]
  constructor
  · rintro (⟨c, hc, hjc⟩ | rfl)
    · have hdown := (hr.of_mem hc).mem_postorder.mp hjc
      have hfits := u.fits_standings hnodup (hr.of_mem hc).index_lt
      have hne := hfits.ne_outside hj hdown
      generalize hstanding : standingAt (t.standings leaves) c.index = standing at hfits hne
      cases hfits with
      | selected hrank =>
        -- the child is an opened leaf itself, so nothing else lies below it
        have hnil := hleaves _ (List.mem_of_getElem? hrank)
        exact Or.inr ⟨c, hc, hdown.eq_of_below_nil hnil⟩
      | above => exact Or.inl ⟨c, hc, beq_iff_eq.mpr hstanding, hjc⟩
      | outside => exact absurd rfl hne
    · exact absurd (hleaves j hj) hbelow
  · rintro (⟨c, hc, -, hjc⟩ | ⟨c, hc, rfl⟩)
    · exact Or.inl ⟨c, hc, hjc⟩
    · exact Or.inl ⟨c, hc, c.index_mem_postorder⟩

include u hnodup hleaves hd in
/-- The steps of every tree of indices are **replayed to the digest of its top**. -/
private theorem replays {r : Rose} (hr : r.Follows t.links) : Replays t leaves current d r := by
  induction r using Rose.induction with
  | node i cs ih =>
    -- the digests that were loose before stay below, so the claim holds over any of them
    intro habove used done loose hmarked hfresh
    have hfits := u.fits_standings hnodup hr.index_lt
    rw [beq_iff_eq.mp habove] at hfits
    cases hfits with
    | above hbelow hleaf hdown =>
      have hcs : ∀ c ∈ cs, c.Follows t.links := fun c hc => hr.of_mem hc
      have hpostorder := u.planted.nodup_postorder hr
      have hdistinct := Links.nodup_below u.planted.nodup_flatten i
      rw [Rose.index_node] at hbelow
      rw [hr.below_eq] at hdistinct
      rw [Rose.postorder_node] at hpostorder hfresh
      have hapart := (List.nodup_append'.mp hpostorder).1
      -- the steps of the children leave the digests that the child slots will take
      obtain ⟨used₁, hfold, hmarked₁⟩ := replay_forest u hnodup hleaves cs hcs
        (fun c hc => ih c hc (hr.of_mem hc)) hapart hmarked
        (fun j hj => hfresh j (List.mem_append_left _ hj)) loose
      have hunused : ∀ c ∈ cs, c.index ∈ leaves → ¬ (done c.index
          ∨ ∃ e ∈ cs, isAbove (t.standings leaves) e = true ∧ c.index ∈ e.postorder) := by
        rintro c hc hcl (hdone | ⟨e, he, heabove, hce⟩)
        · have hmem := List.mem_flatMap.mpr ⟨c, hc, c.index_mem_postorder⟩
          exact hfresh _ (List.mem_append_left _ hmem) hcl hdone
        · exact not_mem_above u hnodup hleaves hr hc he hcl heabove hce
      -- and the step of the branch takes them from the top
      obtain ⟨used₂, hfeed, hmarked₂⟩ :=
        feed_slots u hnodup hleaves hd cs hcs hdistinct hmarked₁ hunused []
      refine ⟨used₂, ?_, hmarked₂.congr fun j hj => ?_⟩
      · have hflatten : (cs.map fun c => d c.index).flatten = (t.links.below i).flatMap d := by
          rw [hr.below_eq, List.flatMap_map, List.flatMap_def]
        rw [stepsOf_node hr habove, List.foldlM_append, hfold, Outcome.ok_bind, List.foldlM_cons,
          step_eq cs loose hfeed, hflatten, ← hd.branch i hbelow]
        rfl
      · rw [or_assoc]
        exact or_congr_right (mem_postorder_iff u hnodup hleaves hr hbelow hj).symm

/-! ## §5 Whole trees -/

include u in
private theorem stepsFrom_eq : t.stepsFrom leaves = stepsOf t leaves top := by
  rw [Tree.stepsFrom, stepsOf, u.postorder_eq]
  rfl

include u in
private theorem descends_top {i : Nat} (hi : i < t.links.length) :
    t.links.Descends top.index i :=
  u.planted.descends i hi

private theorem Marked.any_eq_false {used : Array Bool} {done : Nat → Prop}
    (h : Marked leaves used done) (hdone : ∀ i ∈ leaves, done i) : used.any (!·) = false := by
  rw [Array.any_eq_false]
  intro rank hrank
  have hlt : rank < leaves.length := by rwa [← h.size_eq]
  have hused := (h.used_iff rank _ (List.getElem?_eq_getElem hlt)).mpr
    (hdone _ (List.getElem_mem hlt))
  rw [Array.getD_eq_getD_getElem?, Array.getElem?_eq_getElem hrank, Option.getD_some] at hused
  simp [hused]

include u hnodup hleaves hd in
/-- Replaying all steps of a tree whose root stands above opened leaves leaves the root's digest. -/
private theorem replay_top (hlt : ∀ i ∈ leaves, i < t.links.length)
    (habove : isAbove (t.standings leaves) top = true) :
    t.stepsFrom leaves ≠ [] ∧ ∃ last, (t.stepsFrom leaves).foldlM
        (Replay.step t.algorithm current) (Replay.start current.size) = .ok last
      ∧ last.result = .ok (d top.index) := by
  obtain ⟨used, hfold, hmarked⟩ := replays u hnodup hleaves hd u.follows habove
    (Replay.start leaves.length).used (fun _ => False) [] (Marked.start leaves)
    fun _ _ _ => not_false
  have hall := hmarked.any_eq_false fun i hi =>
    Or.inr (u.follows.mem_postorder.mpr (descends_top u (hlt i hi)))
  rw [stepsFrom_eq u, hd.size_current]
  refine ⟨?_, _, hfold, ?_⟩
  · have hfollows := u.follows
    cases top with
    | node i cs =>
      rw [stepsOf_node hfollows habove]
      simp
  · simp only [Replay.result, hall, Bool.false_eq_true, if_false]

include u hleaves in
/-- A root that is opened itself is the only leaf. -/
private theorem leaves_eq_singleton (hlt : ∀ i ∈ leaves, i < t.links.length)
    (hnodup : leaves.Nodup) (hmem : top.index ∈ leaves) : leaves = [top.index] := by
  have hall : ∀ i ∈ leaves, i = top.index := by
    intro i hi
    exact ((descends_top u (hlt i hi)).eq_of_below_nil (hleaves _ hmem)).symm
  have hperm : leaves.Perm [top.index] :=
    (List.perm_ext_iff_of_nodup hnodup (List.nodup_singleton _)).mpr fun i =>
      ⟨fun hi => List.mem_singleton.mpr (hall i hi), fun hi => List.mem_singleton.mp hi ▸ hmem⟩
  exact List.perm_singleton.mp hperm

end Replaying

namespace Tree

/-- **Digests after a change**: the opened leaves have their current digests, all other leaves keep
theirs, and every branch is hashed from its children again. -/
structure Rehashing (t : Tree) (o : Opening) (d : Nat → Digest) : Prop where
  opened : ∀ (rank position i : Nat) (leaf : Opened), o.indices[rank]? = some position →
    t.leaves[position]? = some i → o.current[rank]? = some leaf → d i = leaf.digest
  kept : ∀ position i, position ∉ o.indices → t.leaves[position]? = some i → d i = t.digestAt i
  branch : ∀ i n, t.nodes[i]? = some n → n.children ≠ [] →
    d i = t.algorithm.digest (n.children.flatMap d)

/-- The opening has the steps of a tree at positions in range, each once. -/
structure Opens (t : Tree) (o : Opening) : Prop where
  algorithm_eq : o.algorithm = t.algorithm
  steps_eq : o.steps = t.stepsFrom (t.leavesAt o.indices)
  nodup : o.indices.Nodup
  indices_lt : ∀ p ∈ o.indices, p < t.leafCount
  indices_ne_nil : o.indices ≠ []
  length_current : o.current.length = o.indices.length

variable {t : Tree} {top : Rose} {o : Opening} {d : Nat → Digest}

private theorem Rehashing.revalued (hd : t.Rehashing o d) (u : t.Unfolds top) (ho : t.Opens o) :
    Revalued t (t.leavesAt o.indices) o.current.toArray d where
  size_current := by
    rw [List.size_toArray, ho.length_current, length_leavesAt ho.indices_lt]
  opened rank i leaf hi hleaf := by
    obtain ⟨p, hp, hpi⟩ := (getElem?_leavesAt ho.indices_lt).mp hi
    exact hd.opened rank p i leaf hp hpi (by rwa [List.getElem?_toArray] at hleaf)
  kept i hi hbelow hnotMem := by
    obtain ⟨p, hp⟩ := Array.mem_iff_getElem?.mp ((u.mem_leaves i).mpr ⟨hi, hbelow⟩)
    refine hd.kept p i (fun hmem => hnotMem ?_) hp
    exact List.mem_filterMap.mpr ⟨p, hmem, hp⟩
  branch i hbelow := by
    obtain ⟨c, hc⟩ := List.exists_mem_of_ne_nil _ hbelow
    have hlt := Links.Child.parent_lt hc
    rw [length_links] at hlt
    have hn := Array.getElem?_eq_getElem hlt
    rw [below_eq_children hn] at hbelow ⊢
    exact hd.branch i _ hn hbelow

/-- There are digests after any change. -/
theorem Opens.exists_rehashing (ho : t.Opens o) (u : t.Unfolds top) :
    ∃ d, t.Rehashing o d := by
  have hnodup := u.nodup_leavesAt ho.nodup
  -- first the digests of the leaves
  have hleaf : ∀ i, ∃ digest : Digest,
      (∀ (rank : Nat) (leaf : Opened), (t.leavesAt o.indices)[rank]? = some i →
        o.current[rank]? = some leaf → digest = leaf.digest)
      ∧ (i ∉ t.leavesAt o.indices → digest = t.digestAt i) := by
    intro i
    by_cases hi : i ∈ t.leavesAt o.indices
    · obtain ⟨rank, hrank⟩ := List.mem_iff_getElem?.mp hi
      have hlt := (List.getElem?_eq_some_iff.mp hrank).1
      refine ⟨(o.current[rank]?.map (·.digest)).getD [], fun rank' leaf hrank' hleaf => ?_,
        fun hnotMem => absurd hi hnotMem⟩
      obtain rfl := (List.getElem?_inj hlt hnodup).mp (hrank.trans hrank'.symm)
      rw [hleaf]
      rfl
    · exact ⟨t.digestAt i, fun rank leaf hrank => absurd (List.mem_of_getElem? hrank) hi,
        fun _ => rfl⟩
  -- then those of the branches, from the children up
  choose leafDigest hopened hkept using hleaf
  obtain ⟨d, hdleaf, hdbranch⟩ := u.planted.exists_values leafDigest
    fun digests => t.algorithm.digest digests.flatten
  refine ⟨d, fun rank p i leaf hp hpi hleaf => ?_, fun p i hp hpi => ?_, fun i n hn hne => ?_⟩
  · rw [hdleaf i (u.leaf_lt hpi) (u.below_leaf hpi)]
    exact hopened i rank leaf ((getElem?_leavesAt ho.indices_lt).mpr ⟨p, hp, hpi⟩) hleaf
  · rw [hdleaf i (u.leaf_lt hpi) (u.below_leaf hpi)]
    refine hkept i fun hmem => hp ?_
    obtain ⟨q, hq, hqi⟩ := List.mem_filterMap.mp hmem
    rwa [u.position_unique hpi hqi]
  · have hbelow := below_eq_children hn
    rw [hdbranch i (by rwa [hbelow]), hbelow, List.flatMap_def]

/-- An opening of a tree **computes the root** of the tree after the change. -/
theorem Opens.computeRoot_eq (ho : t.Opens o) (u : t.Unfolds top) (hd : t.Rehashing o d) :
    o.computeRoot = .ok (d top.index) := by
  have hnodup := u.nodup_leavesAt ho.nodup
  have hleaves : ∀ i ∈ t.leavesAt o.indices, t.links.below i = [] :=
    fun i hi => (u.below_leavesAt hi).2
  have hlt : ∀ i ∈ t.leavesAt o.indices, i < t.links.length := fun i hi => (u.below_leavesAt hi).1
  have hlength := length_leavesAt ho.indices_lt
  have hrevalued := hd.revalued u ho
  have hfits := u.fits_standings hnodup u.follows.index_lt
  rw [computeRoot, if_neg (not_not.mpr ho.length_current), ho.steps_eq, ho.algorithm_eq]
  generalize hstanding : standingAt (t.standings (t.leavesAt o.indices)) top.index = standing
    at hfits
  cases hfits with
  | selected hrank =>
    -- the root is the opened leaf, and there are no steps
    have hmem := List.mem_of_getElem? hrank
    have hsingle := leaves_eq_singleton u hleaves hlt hnodup hmem
    have hnil := stepsOf_eq_nil u hnodup hleaves u.follows (by simp [isAbove, hstanding])
    have hcurrent := ho.length_current
    rw [← hlength, hsingle, List.length_singleton, List.length_eq_one_iff] at hcurrent
    obtain ⟨leaf, hleaf⟩ := hcurrent
    have hdigest := hrevalued.opened 0 top.index leaf (by rw [hsingle]; rfl) (by rw [hleaf]; rfl)
    rw [stepsFrom_eq u, hnil, hleaf, hdigest]
    rfl
  | above hbelow hleaf hdown =>
    obtain ⟨hne, last, hfold, hresult⟩ := replay_top u hnodup hleaves hrevalued hlt
      (by simp [isAbove, hstanding])
    rw [if_neg (by rwa [List.isEmpty_iff])]
    dsimp only
    rw [hfold]
    exact hresult
  | outside hout =>
    -- there is an opened leaf, and it lies below the root
    obtain ⟨i, hi⟩ := List.exists_mem_of_ne_nil (t.leavesAt o.indices) fun hnil =>
      ho.indices_ne_nil (List.length_eq_zero_iff.mp (by rw [← hlength, hnil]; rfl))
    exact absurd (descends_top u (hlt i hi)) (hout i hi)

end Tree

end HashTree
