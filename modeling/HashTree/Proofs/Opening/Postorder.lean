import Mathlib.Data.List.Basic
import Mathlib.Data.List.Induction
import HashTree.Opening.Basic

/-!
# Steps as trees in postorder

A step says how many of its children are branches, but not which steps those are. In postorder this
is enough: steps are those of one sequence of ordered trees at most. The trees are read off the
steps **from the last to the first**: the last step is the top of the last tree, and without it the
subtrees of that top stand among the other trees.
-/

namespace HashTree

/-! ## §1 Trees of slots -/

/-- A slot together with all that hangs below it. -/
inductive Limb where
  | sibling (digest : Digest)
  | leaf (rank : Nat)
  /-- A branch, with what stands in its slots from left to right. -/
  | branch (slots : List Limb)

/-- The rank of the leaf that a slot names. -/
def Slot.rank? : Slot → Option Nat
  | leaf rank => some rank
  | _ => none

namespace Limb

/-- The slot by itself. -/
def slot : Limb → Slot
  | sibling digest => .sibling digest
  | leaf rank => .leaf rank
  | branch _ => .child

/-- Is it a branch? -/
def isBranch : Limb → Bool
  | branch _ => true
  | _ => false

mutual

/-- The steps of the branches in **postorder**: the branches below from left to right, then the
slots of the branch itself. -/
def steps : Limb → List Step
  | sibling _ => []
  | leaf _ => []
  | branch slots => stepsAll slots ++ [slots.map slot]

/-- The steps of some trees, one tree after the other. -/
def stepsAll : List Limb → List Step
  | [] => []
  | e :: es => e.steps ++ stepsAll es

end

section Value

variable (a : Algorithm) (current : List Opened)

mutual

/-- The digest of a tree: siblings are given, leaves are looked up, and a branch is hashed from
what stands in its slots. -/
def value : Limb → Digest
  | sibling digest => digest
  | leaf rank => (current[rank]?.map (·.digest)).getD []
  | branch slots => a.digest (values slots).flatten

/-- The digests of some trees. -/
def values : List Limb → List Digest
  | [] => []
  | e :: es => value e :: values es

end

theorem values_eq_map (es : List Limb) : values a current es = es.map (value a current) := by
  induction es with
  | nil => rfl
  | cons e es ih => rw [values, List.map_cons, ih]

@[simp]
theorem value_branch (slots : List Limb) : (branch slots).value a current
    = a.digest (slots.flatMap (value a current)) := by
  rw [value, values_eq_map, List.flatMap_def]

end Value

theorem stepsAll_eq_flatMap (es : List Limb) : stepsAll es = es.flatMap steps := by
  induction es with
  | nil => rfl
  | cons e es ih => rw [stepsAll, List.flatMap_cons, ih]

@[simp]
theorem steps_branch (slots : List Limb) :
    (branch slots).steps = slots.flatMap steps ++ [slots.map slot] := by
  rw [steps, stepsAll_eq_flatMap]

/-- A tree with a step is a branch. -/
theorem steps_eq_nil {e : Limb} (h : e.isBranch = false) : e.steps = [] := by
  cases e with
  | sibling digest => rfl
  | leaf rank => rfl
  | branch slots => cases h

theorem exists_of_isBranch {e : Limb} (h : e.isBranch = true) : ∃ slots, e = branch slots := by
  cases e with
  | sibling digest => cases h
  | leaf rank => cases h
  | branch slots => exact ⟨slots, rfl⟩

/-- Only the branches among some trees have steps. -/
theorem flatMap_steps_filter (es : List Limb) :
    (es.filter isBranch).flatMap steps = es.flatMap steps := by
  induction es with
  | nil => rfl
  | cons e es ih =>
    rw [List.filter_cons, List.flatMap_cons]
    cases he : e.isBranch with
    | true => rw [if_pos rfl, List.flatMap_cons, ih]
    | false => rw [if_neg Bool.false_ne_true, ih, steps_eq_nil he, List.nil_append]

/-- There are as many branches as child slots. -/
theorem count_child (es : List Limb) :
    (es.map slot).count .child = (es.filter isBranch).length := by
  induction es with
  | nil => rfl
  | cons e es ih =>
    cases e with
    | sibling digest => simpa [slot, isBranch] using ih
    | leaf rank => simpa [slot, isBranch] using ih
    | branch slots =>
      rw [List.map_cons, slot, List.count_cons_self, ih]
      rfl

/-- Trees are determined by their slots and the branches among them. -/
theorem eq_of_slot_eq {es es' : List Limb} (hslot : es.map slot = es'.map slot)
    (hbranch : es.filter isBranch = es'.filter isBranch) : es = es' := by
  induction es generalizing es' with
  | nil => exact (List.map_eq_nil_iff.mp hslot.symm).symm
  | cons e es ih =>
    cases es' with
    | nil => cases hslot
    | cons e' es' =>
      obtain ⟨hhead, htail⟩ := List.cons.inj hslot
      -- slots of two kinds differ, which leaves one case for each kind
      cases e <;> cases e' <;> cases hhead
      · exact congrArg _ (ih htail hbranch)
      · exact congrArg _ (ih htail hbranch)
      · -- a slot does not tell one branch from another, but the list of branches does
        obtain ⟨hsame, hrest⟩ := List.cons.inj hbranch
        rw [hsame, ih htail hrest]

/-- Any branches can be put into the child slots of a step, if there are as many. -/
theorem exists_of_step {step : Step} {taken : List Limb} (hbranch : ∀ e ∈ taken, e.isBranch = true)
    (hlength : taken.length = step.count .child) :
    ∃ slots : List Limb, slots.map slot = step ∧ slots.filter isBranch = taken := by
  induction step generalizing taken with
  | nil => exact ⟨[], rfl, (List.length_eq_zero_iff.mp hlength).symm⟩
  | cons first step ih =>
    cases first with
    | sibling digest =>
      obtain ⟨slots, rfl, rfl⟩ := ih hbranch (by simpa using hlength)
      exact ⟨.sibling digest :: slots, rfl, rfl⟩
    | leaf rank =>
      obtain ⟨slots, rfl, rfl⟩ := ih hbranch (by simpa using hlength)
      exact ⟨.leaf rank :: slots, rfl, rfl⟩
    | child =>
      cases taken with
      | nil => simp at hlength
      | cons e taken =>
        -- the first branch goes into the first child slot
        obtain ⟨he, hbranch⟩ := List.forall_mem_cons.mp hbranch
        obtain ⟨slots, rfl, rfl⟩ := ih hbranch (by simpa using hlength)
        obtain ⟨below, rfl⟩ := exists_of_isBranch he
        exact ⟨.branch below :: slots, rfl, rfl⟩

end Limb

/-! ## §2 Reading trees off the steps -/

/-- The steps are those of some trees, one tree after the other. -/
structure Parses (forest : List Limb) (steps : List Step) : Prop where
  branches : ∀ e ∈ forest, e.isBranch = true
  steps_eq : forest.flatMap Limb.steps = steps

namespace Parses

variable {forest forest' kept slots : List Limb} {steps : List Step} {step : Step}

/-- No step, no tree. -/
theorem nil_iff : Parses forest [] ↔ forest = [] := by
  constructor
  · intro h
    cases forest with
    | nil => rfl
    | cons e forest =>
      obtain ⟨slots, rfl⟩ := Limb.exists_of_isBranch (h.branches e List.mem_cons_self)
      have hnil := h.steps_eq
      simp at hnil
  · rintro rfl
    exact ⟨by simp, rfl⟩

/-- The last step is the top of the last tree; without it, the branches in its slots stand behind
the other trees. -/
theorem concat_iff : Parses forest (steps ++ [step]) ↔ ∃ kept slots,
    forest = kept ++ [.branch slots] ∧ slots.map Limb.slot = step
      ∧ Parses (kept ++ slots.filter Limb.isBranch) steps := by
  constructor
  · intro h
    rcases List.eq_nil_or_concat' forest with rfl | ⟨kept, last, rfl⟩
    · have hnil := h.steps_eq
      simp at hnil
    · -- the slots of the last tree are the last step, and what is below them comes right before
      obtain ⟨slots, rfl⟩ := Limb.exists_of_isBranch (h.branches last (by simp))
      have hsteps := h.steps_eq
      rw [List.flatMap_append, List.flatMap_singleton, Limb.steps_branch, ← List.append_assoc]
        at hsteps
      obtain ⟨hbefore, hlast⟩ := List.append_inj' hsteps rfl
      refine ⟨kept, slots, rfl, List.head_eq_of_cons_eq hlast, ?_, ?_⟩
      · intro e he
        rcases List.mem_append.mp he with he | he
        · exact h.branches e (List.mem_append_left _ he)
        · exact (List.mem_filter.mp he).2
      · rw [List.flatMap_append, Limb.flatMap_steps_filter, hbefore]
  · rintro ⟨kept, slots, rfl, rfl, h⟩
    refine ⟨?_, ?_⟩
    · intro e he
      rcases List.mem_append.mp he with he | he
      · exact h.branches e (List.mem_append_left _ he)
      · rw [List.mem_singleton.mp he]
        rfl
    · have hsteps := h.steps_eq
      rw [List.flatMap_append, Limb.flatMap_steps_filter] at hsteps
      rw [List.flatMap_append, List.flatMap_singleton, Limb.steps_branch, ← List.append_assoc,
        hsteps]

/-- Steps are those of **one forest only**. -/
theorem unique (h : Parses forest steps) (h' : Parses forest' steps) : forest = forest' := by
  induction steps using List.reverseRecOn generalizing forest forest' with
  | nil => rw [nil_iff.mp h, nil_iff.mp h']
  | append_singleton steps step ih =>
    obtain ⟨kept, slots, rfl, rfl, hrest⟩ := concat_iff.mp h
    obtain ⟨kept', slots', rfl, hslot, hrest'⟩ := concat_iff.mp h'
    -- equal slots have equally many branches, so the forests are cut at the same place
    have hlength : (slots.filter Limb.isBranch).length = (slots'.filter Limb.isBranch).length := by
      rw [← Limb.count_child, ← Limb.count_child, hslot]
    obtain ⟨rfl, hbranch⟩ := List.append_inj' (ih hrest hrest') hlength
    rw [Limb.eq_of_slot_eq hslot.symm hbranch]

/-- The steps of a branch are parsed by it. -/
theorem singleton_iff : Parses [.branch slots] steps ↔ (Limb.branch slots).steps = steps := by
  constructor
  · intro h
    simpa using h.steps_eq
  · rintro rfl
    exact ⟨by simp [Limb.isBranch], by simp⟩

end Parses

/-- A branch is determined by its steps. -/
theorem Limb.branch_inj {slots slots' : List Limb}
    (h : (Limb.branch slots).steps = (Limb.branch slots').steps) : slots = slots' := by
  have hforest := (Parses.singleton_iff.mpr h).unique (Parses.singleton_iff.mpr rfl)
  exact Limb.branch.inj (List.head_eq_of_cons_eq hforest)

end HashTree
