import Mathlib.Data.List.Nodup
import Mathlib.Data.List.Perm.Basic
import HashTree.Opening.Replay
import HashTree.Proofs.Opening.Postorder
import HashTree.Proofs.Outcome

/-!
# Replaying any steps

Replaying is a stack machine, and whoever writes the steps decides what it takes and leaves. After
any number of steps it has read a sequence of trees, and holds one digest for each of them and one
flag for each leaf. So the steps that it accepts are those of **one tree** that names every leaf
once, and what it computes is the value of that tree.
-/

namespace HashTree

open Outcome

namespace Opening

/-! ## §1 The flags of the leaves -/

/-- The leaves that a step names. -/
def ranksIn (step : Step) : List Nat := step.filterMap Slot.rank?

/-- The leaves that some steps name, slot by slot. -/
def ranksOf (steps : List Step) : List Nat := steps.flatMap ranksIn

/-- The ranks of `count` leaves, none of them twice. -/
def Once (count : Nat) (ranks : List Nat) : Prop := ranks.Nodup ∧ ∀ rank ∈ ranks, rank < count

/-- The flags of `count` leaves, of which some have been used. -/
def flags (count : Nat) (ranks : List Nat) : Array Bool :=
  Array.ofFn fun i : Fin count => decide (i.val ∈ ranks)

variable {count rank : Nat} {ranks more : List Nat}

theorem Once.of_append (h : Once count (ranks ++ more)) : Once count ranks :=
  ⟨(List.sublist_append_left ranks more).nodup h.1,
    fun rank hr => h.2 rank (List.mem_append_left _ hr)⟩

theorem once_concat_iff :
    Once count (ranks ++ [rank]) ↔ Once count ranks ∧ rank < count ∧ rank ∉ ranks := by
  simp only [Once, List.forall_mem_append, List.forall_mem_singleton]
  rw [← List.concat_eq_append, List.nodup_concat]
  tauto

/-- All leaves are named once when the ranks are those of the leaves in some order. -/
theorem Once.perm_iff (h : Once count ranks) :
    ranks.Perm (List.range count) ↔ ∀ rank < count, rank ∈ ranks := by
  constructor
  · intro hperm rank hr
    exact hperm.mem_iff.mpr (List.mem_range.mpr hr)
  · intro hall
    apply (List.perm_ext_iff_of_nodup h.1 List.nodup_range).mpr
    intro rank
    rw [List.mem_range]
    exact ⟨h.2 rank, hall rank⟩

@[simp]
theorem size_flags : (flags count ranks).size = count := Array.size_ofFn

theorem flags_nil : flags count [] = (Replay.start count).used := by
  apply Array.ext
  · simp [Replay.start]
  · intro i hi hi'
    simp [flags, Replay.start]

theorem getD_flags (h : rank < count) :
    (flags count ranks).getD rank true = decide (rank ∈ ranks) := by
  simp [flags, Array.getD, h]

theorem setIfInBounds_flags :
    (flags count ranks).setIfInBounds rank true = flags count (ranks ++ [rank]) := by
  apply Array.ext
  · simp
  · intro i hi hi'
    rw [Array.getElem_setIfInBounds (by simpa using hi)]
    by_cases h : rank = i
    · simp [flags, h]
    · simp [flags, h, Ne.symm h]

theorem any_flags : (flags count ranks).any (!·) = false ↔ ∀ rank < count, rank ∈ ranks := by
  rw [Array.any_eq_false]
  simp [flags]

/-! ## §2 Replaying the steps of trees -/

variable (a : Algorithm) (current : List Opened)

/-- The state after some steps that are those of a forest. -/
def stateOf (steps : List Step) (forest : List Limb) : Replay :=
  ⟨flags current.length (ranksOf steps), (forest.map (Limb.value a current)).reverse⟩

/-- Feeding never runs out of digests, and keeps one flag for each of `count` leaves. -/
def Fed (count : Nat) : Except PathFault (List Digest × Array Bool) → Prop
  | .ok (_, used) => used.size = count
  | .error fault => fault ≠ .missingDigest

variable {current}

/-- A leaf in front of other slots is named before them. -/
private theorem ranksIn_leaf (ranks : List Nat) (rank : Nat) (es : List Limb) :
    ranks ++ ranksIn ((Limb.leaf rank :: es).map Limb.slot)
      = (ranks ++ [rank]) ++ ranksIn (es.map Limb.slot) :=
  (List.append_assoc ranks [rank] _).symm

/-- Fresh leaves are fed: the slots of some trees find the values of the trees. -/
theorem feed_of_once (es : List Limb) {ranks : List Nat} (more done : List Digest)
    (honce : Once current.length (ranks ++ ranksIn (es.map Limb.slot))) :
    feed current.toArray (es.map Limb.slot) (flags current.length ranks)
        ((es.filter Limb.isBranch).map (Limb.value a current) ++ more) done
      = .ok (done.reverse ++ es.map (Limb.value a current),
          flags current.length (ranks ++ ranksIn (es.map Limb.slot))) := by
  induction es generalizing ranks done with
  | nil => simp [feed, ranksIn]
  | cons e es ih =>
    cases e with
    | sibling digest =>
      -- no leaf is named, and no digest that was left is taken
      have hrest := ih (digest :: done) honce
      rw [List.reverse_cons, List.append_assoc] at hrest
      exact hrest
    | branch slots =>
      -- the first of the digests that are left is that of the first branch
      have hrest := ih ((Limb.branch slots).value a current :: done) honce
      rw [List.reverse_cons, List.append_assoc] at hrest
      exact hrest
    | leaf rank =>
      rw [ranksIn_leaf] at honce ⊢
      obtain ⟨-, hlt, hfresh⟩ := once_concat_iff.mp honce.of_append
      have hrest := ih (current[rank].digest :: done) honce
      rw [List.reverse_cons, List.append_assoc] at hrest
      -- the leaf is there, and its flag says that it was not used
      have hvalue : (Limb.leaf rank).value a current = current[rank].digest := by
        rw [Limb.value, List.getElem?_eq_getElem hlt]
        rfl
      have hflag : (flags current.length ranks).getD rank true = false := by
        rw [getD_flags hlt, decide_eq_false hfresh]
      simp only [List.map_cons, Limb.slot, feed, List.getElem?_toArray,
        List.getElem?_eq_getElem hlt, hflag, Bool.false_eq_true, if_false, setIfInBounds_flags]
      rw [hvalue]
      exact hrest

/-- A leaf that does not exist or is named again is at fault, never a digest that is missing. -/
theorem feed_of_not_once (es : List Limb) {ranks : List Nat} (more done : List Digest)
    (honce : Once current.length ranks)
    (hnot : ¬ Once current.length (ranks ++ ranksIn (es.map Limb.slot))) :
    ∃ fault ≠ .missingDigest,
      feed current.toArray (es.map Limb.slot) (flags current.length ranks)
          ((es.filter Limb.isBranch).map (Limb.value a current) ++ more) done
        = .error fault := by
  induction es generalizing ranks done with
  | nil => exact absurd (by simpa [ranksIn] using honce) hnot
  | cons e es ih =>
    cases e with
    | sibling digest => exact ih _ honce hnot
    | branch slots => exact ih _ honce hnot
    | leaf rank =>
      -- the leaf is judged in the order of the checks: whether it exists, then whether it is fresh
      simp only [List.map_cons, Limb.slot, feed, List.getElem?_toArray]
      by_cases hlt : rank < current.length
      · rw [List.getElem?_eq_getElem hlt, getD_flags hlt, setIfInBounds_flags]
        by_cases hmem : rank ∈ ranks
        · exact ⟨.leafUsedTwice, by decide, by simp [hmem]⟩
        · -- the leaf is fresh, so a later slot is at fault
          rw [ranksIn_leaf] at hnot
          simp only [hmem, decide_false, Bool.false_eq_true, if_false]
          exact ih _ (once_concat_iff.mpr ⟨honce, hlt, hmem⟩) hnot
      · exact ⟨.leafOutOfRange, by decide, by simp [hlt]⟩

@[simp]
theorem ranksOf_concat (steps : List Step) (step : Step) :
    ranksOf (steps ++ [step]) = ranksOf steps ++ ranksIn step := by
  rw [ranksOf, List.flatMap_append, List.flatMap_singleton]
  rfl

/-- The child slots of a step take the values of as many trees from the end of a forest. -/
theorem loose_stateOf (kept slots : List Limb) (steps : List Step) :
    (stateOf a current steps (kept ++ slots.filter Limb.isBranch)).loose
      = ((slots.filter Limb.isBranch).map (Limb.value a current)).reverse
        ++ (kept.map (Limb.value a current)).reverse := by
  rw [stateOf, List.map_append, List.reverse_append]

theorem length_taken (slots : List Limb) :
    ((slots.filter Limb.isBranch).map (Limb.value a current)).reverse.length
      = (slots.map Limb.slot).count .child := by
  rw [List.length_reverse, List.length_map, Limb.count_child]

theorem taken_stateOf (kept slots : List Limb) (steps : List Step) :
    ((stateOf a current steps (kept ++ slots.filter Limb.isBranch)).loose.take
      ((slots.map Limb.slot).count .child)).reverse
        = (slots.filter Limb.isBranch).map (Limb.value a current) := by
  rw [loose_stateOf, List.take_left' (length_taken a slots), List.reverse_reverse]

/-- A step feeds the values of the trees that it takes, and keeps those of the others. -/
theorem step_stateOf (kept slots : List Limb) (steps : List Step) :
    Replay.step a current.toArray (stateOf a current steps (kept ++ slots.filter Limb.isBranch))
        (slots.map Limb.slot)
      = match feed current.toArray (slots.map Limb.slot) (flags current.length (ranksOf steps))
            ((slots.filter Limb.isBranch).map (Limb.value a current)) [] with
        | .error fault => .error fault
        | .ok (digests, used) =>
          .ok ⟨used, a.digest digests.flatten :: (kept.map (Limb.value a current)).reverse⟩ := by
  -- there are exactly as many digests to take as child slots
  have henough : ¬ ((stateOf a current steps (kept ++ slots.filter Limb.isBranch)).loose.take
      ((slots.map Limb.slot).count .child)).length < (slots.map Limb.slot).count .child := by
    rw [loose_stateOf, List.take_left' (length_taken a slots), length_taken]
    exact Nat.lt_irrefl _
  rw [Replay.step, if_neg henough, taken_stateOf, loose_stateOf,
    List.drop_left' (length_taken a slots)]
  rfl

/-- A step that names fresh leaves makes one tree of the trees that it takes. -/
theorem step_of_once {kept slots : List Limb} {steps : List Step}
    (honce : Once current.length (ranksOf (steps ++ [slots.map Limb.slot]))) :
    Replay.step a current.toArray (stateOf a current steps (kept ++ slots.filter Limb.isBranch))
        (slots.map Limb.slot)
      = .ok (stateOf a current (steps ++ [slots.map Limb.slot]) (kept ++ [.branch slots])) := by
  rw [ranksOf_concat] at honce
  have hfeed := feed_of_once a slots [] [] honce
  rw [List.append_nil] at hfeed
  rw [step_stateOf, hfeed, stateOf, ranksOf_concat]
  simp [List.flatMap_def]

/-- A step that names any other leaf is at fault. -/
theorem step_of_not_once (kept : List Limb) {slots : List Limb} {steps : List Step}
    (honce : Once current.length (ranksOf steps))
    (hnot : ¬ Once current.length (ranksOf (steps ++ [slots.map Limb.slot]))) :
    ∃ fault, Replay.step a current.toArray
        (stateOf a current steps (kept ++ slots.filter Limb.isBranch)) (slots.map Limb.slot)
      = .error fault := by
  rw [ranksOf_concat] at hnot
  obtain ⟨fault, -, hfeed⟩ := feed_of_not_once a slots [] [] honce hnot
  rw [List.append_nil] at hfeed
  exact ⟨fault, by rw [step_stateOf, hfeed]⟩

/-- A step with more child slots than there are trees is at fault. -/
theorem step_of_lt {r : Replay} {step : Step} (h : r.loose.length < step.count .child) :
    Replay.step a current.toArray r step = .error .missingDigest := by
  rw [Replay.step]
  exact if_pos (by rw [List.length_take]; omega)

/-- Where there are trees enough, a forest ends in those that a step takes. -/
theorem exists_slots {forest : List Limb} {steps : List Step} {step : Step}
    (hparses : Parses forest steps) (hcount : step.count .child ≤ forest.length) :
    ∃ kept slots : List Limb,
      forest = kept ++ slots.filter Limb.isBranch ∧ slots.map Limb.slot = step := by
  have hbranch : ∀ e ∈ forest.drop (forest.length - step.count .child), e.isBranch = true :=
    fun e he => hparses.branches e (List.mem_of_mem_drop he)
  have hlength : (forest.drop (forest.length - step.count .child)).length = step.count .child := by
    rw [List.length_drop]
    omega
  obtain ⟨slots, hslots, htaken⟩ := Limb.exists_of_step hbranch hlength
  exact ⟨_, slots, by rw [htaken, List.take_append_drop], hslots⟩

/-- Replaying gets through exactly the steps of a forest whose leaves are named once, and the state
that it reaches holds the values of the trees. -/
theorem replay_eq_ok_iff {steps : List Step} {r : Replay} :
    steps.foldlM (Replay.step a current.toArray) (.start current.length) = .ok r
      ↔ ∃ forest, Parses forest steps ∧ Once current.length (ranksOf steps)
        ∧ r = stateOf a current steps forest := by
  -- the last step is the one that the machine and the parsing agree on
  induction steps using List.reverseRecOn generalizing r with
  | nil =>
    have hstart : Replay.start current.length = stateOf a current [] [] := by
      rw [stateOf, ranksOf, List.flatMap_nil, flags_nil]
      rfl
    rw [List.foldlM_nil, pure_eq_ok_iff, hstart]
    simp [Parses.nil_iff, Once, ranksOf, eq_comm]
  | append_singleton steps step ih =>
    rw [List.foldlM_append, bind_eq_ok_iff]
    simp only [ih, List.foldlM_cons, List.foldlM_nil, bind_pure]
    constructor
    · rintro ⟨_, ⟨forest, hparses, honce, rfl⟩, hstep⟩
      -- the step succeeded, so there were trees enough and its leaves were fresh
      by_cases hcount : step.count .child ≤ forest.length
      · obtain ⟨kept, slots, rfl, rfl⟩ := exists_slots hparses hcount
        by_cases hnext : Once current.length (ranksOf (steps ++ [slots.map Limb.slot]))
        · rw [step_of_once a hnext] at hstep
          exact ⟨_, Parses.concat_iff.mpr ⟨kept, slots, rfl, rfl, hparses⟩, hnext,
            (Except.ok.inj hstep).symm⟩
        · obtain ⟨fault, hfault⟩ := step_of_not_once a kept honce hnext
          rw [hfault] at hstep
          cases hstep
      · rw [step_of_lt a (by simpa [stateOf] using hcount)] at hstep
        cases hstep
    · rintro ⟨_, hparses, hnext, rfl⟩
      -- what was named before the last step was named once too, so the step is reached
      obtain ⟨kept, slots, rfl, rfl, hrest⟩ := Parses.concat_iff.mp hparses
      have honce := hnext
      rw [ranksOf_concat] at honce
      exact ⟨_, ⟨_, hrest, honce.of_append, rfl⟩, step_of_once a hnext⟩

/-! ## §3 What a step asks for -/

/-- A step that is reached in a certain state never asks for what is not there. -/
structure Guarded (a : Algorithm) (current : List Opened) (r : Replay) (step : Step) : Prop where
  /-- More digests than are left are not taken. -/
  missing : r.loose.length < step.count .child →
    Replay.step a current.toArray r step = .error .missingDigest
  /-- Else each child slot finds one, and at every slot there is **one flag for each leaf**. -/
  fed : step.count .child ≤ r.loose.length → ∀ front, front <+: step →
    Fed current.length
      (feed current.toArray front r.used (r.loose.take (step.count .child)).reverse [])

/-- Every step that is reached is guarded. -/
theorem guarded_of_replay {steps : List Step} {r : Replay} (step : Step)
    (h : steps.foldlM (Replay.step a current.toArray) (.start current.length) = .ok r) :
    Guarded a current r step := by
  refine ⟨step_of_lt a, fun hcount front hfront => ?_⟩
  obtain ⟨forest, hparses, honce, rfl⟩ := (replay_eq_ok_iff a).mp h
  obtain ⟨kept, slots, rfl, rfl⟩ := exists_slots hparses (by simpa [stateOf] using hcount)
  rw [taken_stateOf]
  -- the slots in front belong to the first trees, and the digests of the other trees are left
  obtain ⟨back, hback⟩ := hfront
  obtain ⟨es, es', rfl, rfl, -⟩ := List.map_eq_append_iff.mp hback.symm
  rw [List.filter_append, List.map_append]
  by_cases hnext : Once current.length (ranksOf steps ++ ranksIn (es.map Limb.slot))
  · rw [stateOf, feed_of_once a es _ [] hnext]
    exact size_flags
  · obtain ⟨fault, hne, hfeed⟩ := feed_of_not_once a es
      ((es'.filter Limb.isBranch).map (Limb.value a current)) [] honce hnext
    rw [stateOf, hfeed]
    exact hne

/-! ## §4 The root -/

theorem Replay.result_eq_ok_iff {r : Replay} {d : Digest} :
    r.result = .ok d ↔ r.used.any (!·) = false ∧ r.loose = [d] := by
  rw [Replay.result]
  split
  · next hunused => simp [hunused]
  · next hused =>
    rw [Bool.not_eq_true] at hused
    split
    · next root hroot => simp [hused, hroot]
    · next hmany => simpa [hused] using hmany d

/-- At the end every leaf must have been named, and one tree must be left. -/
theorem result_stateOf {steps : List Step} {forest : List Limb} {d : Digest}
    (honce : Once current.length (ranksOf steps)) :
    (stateOf a current steps forest).result = .ok d
      ↔ (ranksOf steps).Perm (List.range current.length)
        ∧ ∃ e, forest = [e] ∧ e.value a current = d := by
  rw [Replay.result_eq_ok_iff, honce.perm_iff, ← any_flags]
  apply and_congr_right
  intro _
  rw [stateOf, List.reverse_eq_iff, List.reverse_singleton, List.map_eq_singleton_iff]

/-- Steps lead to a digest when they are those of **one tree** that names every leaf once; the
digest is the value of the tree. -/
theorem replay_result_eq_ok_iff {steps : List Step} {d : Digest} :
    steps.foldlM (Replay.step a current.toArray) (.start current.length) >>= Replay.result = .ok d
      ↔ (ranksOf steps).Perm (List.range current.length) ∧ ∃! slots,
        (Limb.branch slots).steps = steps ∧ (Limb.branch slots).value a current = d := by
  rw [bind_eq_ok_iff]
  constructor
  · rintro ⟨r, hreplay, hresult⟩
    obtain ⟨forest, hparses, honce, rfl⟩ := (replay_eq_ok_iff a).mp hreplay
    obtain ⟨hperm, e, rfl, rfl⟩ := (result_stateOf a honce).mp hresult
    obtain ⟨slots, rfl⟩ := Limb.exists_of_isBranch (hparses.branches e List.mem_cons_self)
    -- the one tree that is left has all the steps, and no other tree has them
    have hslots := Parses.singleton_iff.mp hparses
    exact ⟨hperm, slots, ⟨hslots, rfl⟩, fun _ h => Limb.branch_inj (h.1.trans hslots.symm)⟩
  · rintro ⟨hperm, slots, ⟨rfl, rfl⟩, -⟩
    have honce : Once current.length (ranksOf (Limb.branch slots).steps) :=
      ⟨hperm.nodup_iff.mpr List.nodup_range, fun rank hr => List.mem_range.mp (hperm.subset hr)⟩
    exact ⟨_, (replay_eq_ok_iff a).mpr ⟨_, Parses.singleton_iff.mpr rfl, honce, rfl⟩,
      (result_stateOf a honce).mpr ⟨hperm, _, rfl, rfl⟩⟩

/-- What is computed from an opening, whoever made it. -/
theorem computeRoot_eq_ok_iff {o : Opening} {d : Digest} :
    o.computeRoot = .ok d ↔ o.current.length = o.indices.length
      ∧ ((o.steps = [] ∧ ∃ leaf, o.current = [leaf] ∧ leaf.digest = d)
        ∨ ((ranksOf o.steps).Perm (List.range o.current.length) ∧ ∃! slots,
          (Limb.branch slots).steps = o.steps
            ∧ (Limb.branch slots).value o.algorithm o.current = d)) := by
  rw [computeRoot]
  by_cases hlength : o.current.length = o.indices.length
  · rw [if_neg (not_not_intro hlength)]
    simp only [hlength, true_and]
    by_cases hsteps : o.steps = []
    · -- without steps there is no branch
      have hbranch : ∀ slots, (Limb.branch slots).steps ≠ [] := by simp
      simp only [hsteps, List.isEmpty_nil, if_true, true_and, hbranch, false_and]
      rcases o.current with - | ⟨leaf, - | ⟨leaf', leaves⟩⟩
      · simp [ExistsUnique]
      · simp [ExistsUnique]
      · simp [ExistsUnique]
    · rw [if_neg (by simpa using hsteps)]
      simp only [hsteps, false_and, false_or, List.size_toArray]
      rw [← hlength]
      exact replay_result_eq_ok_iff o.algorithm
  · rw [if_pos hlength]
    simp [hlength]

/-- **What an opening computes**, whatever its steps. There is a root exactly when there is one
leaf for each index, and either no step and a single leaf, or the steps are the branches of one
ordered tree in postorder, which names every leaf once; then the root is the value of the tree. Else
the path is reported as malformed, and no step asks for a flag or a digest that is not there. -/
theorem computeRoot_exact (o : Opening) :
    (∀ d, o.computeRoot = .ok d ↔ o.current.length = o.indices.length
      ∧ ((o.steps = [] ∧ ∃ leaf, o.current = [leaf] ∧ leaf.digest = d)
        ∨ ((ranksOf o.steps).Perm (List.range o.current.length) ∧ ∃! slots,
          (Limb.branch slots).steps = o.steps
            ∧ (Limb.branch slots).value o.algorithm o.current = d)))
      ∧ ((∀ d, o.computeRoot ≠ .ok d) → ∃ fault,
        o.computeRoot = .error fault ∧ o.check = .error (.malformedPath fault))
      ∧ ∀ number step r, o.steps[number]? = some step →
        (o.steps.take number).foldlM (Replay.step o.algorithm o.current.toArray)
          (.start o.current.length) = .ok r →
        Guarded o.algorithm o.current r step := by
  refine ⟨fun d => computeRoot_eq_ok_iff, fun hnone => ?_, fun number step r _ hreplay =>
    guarded_of_replay o.algorithm step hreplay⟩
  cases h : o.computeRoot with
  | ok d => exact absurd h (hnone d)
  | error fault => exact ⟨fault, rfl, by rw [check, h]⟩

/-- An opening of three leaves, whose last step has two child slots. -/
def twoBranches : Opening where
  algorithm := .sha1
  indices := [4, 7, 9]
  steps := [[.leaf 1, .leaf 0], [.sibling [5], .leaf 2], [.child, .child]]
  expected := []
  captured := []
  current := [⟨none, [1]⟩, ⟨none, [2]⟩, ⟨none, [3]⟩]

/-- The child slots take the digests of the branches from left to right, and both are there when
the last step is reached; without steps the path is malformed. -/
theorem computeRoot_exact_two :
    twoBranches.computeRoot = .ok (Algorithm.sha1.digest
        (Algorithm.sha1.digest [2, 1] ++ Algorithm.sha1.digest [5, 3]))
      ∧ (∃ r, Guarded .sha1 twoBranches.current r [.child, .child]
        ∧ r.loose.length = 2)
      ∧ ∃ fault, { twoBranches with steps := [] }.check = .error (.malformedPath fault) := by
  obtain ⟨hroot, -, hguarded⟩ := computeRoot_exact twoBranches
  obtain ⟨-, hfault, -⟩ := computeRoot_exact { twoBranches with steps := [] }
  refine ⟨?_, ⟨_, hguarded 2 [.child, .child] _ rfl rfl, rfl⟩, ?_⟩
  · refine (hroot _).mpr ⟨rfl, .inr ⟨by decide,
      [.branch [.leaf 1, .leaf 0], .branch [.sibling [5], .leaf 2]], ⟨rfl, ?_⟩,
      fun _ h => Limb.branch_inj h.1⟩⟩
    simp [Limb.value, Limb.values, twoBranches]
  · obtain ⟨fault, -, hcheck⟩ := hfault fun d h => by cases h
    exact ⟨fault, hcheck⟩

end Opening

end HashTree
