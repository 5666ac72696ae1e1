import HashTree.Proofs.Opening.Climb
import HashTree.Proofs.Opening.Generated
import Mathlib.Computability.StateTransition

/-!
# Opening a tree from below

An opening can also be made without a pass over all nodes. The nodes above the selected leaves are
found by climbing from these, in any order, and then the steps are emitted by going down from the
root along them: a stack holds the branches that have been entered, each with the slots of the
children that it has seen. This comes to **the same opening**, whatever the order of the climbs.
-/

namespace HashTree

open Outcome StateTransition

/-- A branch that has been entered: the number of the children that were seen, and their slots. -/
structure Frame where
  node : Nat
  next : Nat
  slots : List Slot

/-- The state of an emission: the branches that have been entered, the innermost first, and the
steps of those that are done. -/
structure Emission where
  pending : List Frame
  steps : List Step

namespace Tree

variable (t : Tree)

/-! ## §1 Emitting steps -/

/-- Sees one more child of the innermost branch. The child is entered when its slot says that it is
a branch of the opening, and a branch whose children have all been seen is done. -/
def advance (slot : Nat → Slot) (emission : Emission) : Option Emission :=
  match emission.pending with
  | [] => none
  | frame :: pending =>
    match (t.childrenAt frame.node)[frame.next]? with
    | none => some ⟨pending, emission.steps ++ [frame.slots]⟩
    | some child =>
      let frame : Frame := ⟨frame.node, frame.next + 1, frame.slots ++ [slot child]⟩
      if slot child = .child then some ⟨⟨child, 0, []⟩ :: frame :: pending, emission.steps⟩
      else some ⟨frame :: pending, emission.steps⟩

/-- The steps that are emitted below a root, if this comes to an end. -/
def emit (slot : Nat → Slot) (root : Nat) : Part (List Step) :=
  (eval (t.advance slot) ⟨[⟨root, 0, []⟩], []⟩).map Emission.steps

/-- The slot of a child: its rank if it is selected, and else a branch of the opening or not. -/
def slotAlong (leaves : List Nat) (covered : Finset Nat) (child : Nat) : Slot :=
  match standingAt (t.selectedStandings leaves) child with
  | .selected rank => .leaf rank
  | _ => if child ∈ covered then .child else .sibling ((t.nodes[child]?.map (·.digest)).getD [])

/-- The steps from some leaves to the root, with climbs in the given order. -/
def stepsAlong (order leaves : List Nat) : Part (List Step) :=
  match t.root with
  | none => .some []
  | some root =>
    if (t.childrenAt root).isEmpty then .some []
    else t.emit (t.slotAlong leaves (t.coveredFrom order)) root

/-- The opening of a tree at some positions, with climbs in the given order. There is no result when
the emission does not come to an end. -/
def openAlong (order indices : List Nat) : Part (Except Error Opening) :=
  match t.rootDigest with
  | .error e => .some (.error e)
  | .ok expected =>
    let positions := selection indices
    if positions.isEmpty then .some (.error (.opening .noLeaves))
    else
      match positions.find? (t.leafCount ≤ ·) with
      | some index => .some (.error (.indexOutOfRange index t.leafCount))
      | none =>
        let leaves := t.leavesAt positions
        (t.stepsAlong order leaves).map fun steps =>
          .ok ⟨t.algorithm, positions, steps, expected, t.openedAt leaves, t.openedAt leaves⟩

end Tree

/-! ## §2 What is emitted -/

namespace Rose

variable (slot : Nat → Slot)

mutual

/-- The steps of a tree that is entered: those of the children that are entered from it, from left
to right, and then its own. -/
def steps : Rose → List Step
  | node _ cs => stepsBelow cs ++ [cs.map fun c => slot c.index]

/-- The steps of some children. -/
def stepsBelow : List Rose → List Step
  | [] => []
  | c :: cs => (if slot c.index = .child then c.steps else []) ++ stepsBelow cs

end

/-- The steps of a tree that is entered if its slot says so. -/
def entered (r : Rose) : List Step := if slot r.index = .child then r.steps slot else []

theorem stepsBelow_eq_flatMap (cs : List Rose) :
    stepsBelow slot cs = cs.flatMap (entered slot) := by
  induction cs with
  | nil => rfl
  | cons c cs ih =>
    rw [stepsBelow, List.flatMap_cons, ih]
    rfl

variable {slot} in
theorem entered_eq_nil {r : Rose} (h : slot r.index ≠ .child) : r.entered slot = [] := if_neg h

variable {slot} in
theorem entered_node {i : Nat} (cs : List Rose) (h : slot i = .child) :
    (node i cs).entered slot = cs.flatMap (entered slot) ++ [cs.map fun c => slot c.index] := by
  rw [entered, index_node, if_pos h, steps, stepsBelow_eq_flatMap]

/-- The steps of some children are taken from their indices in postorder if those of each child are.
-/
private theorem map_filter_flatMap {p : Nat → Bool} {f : Nat → Step} {cs : List Rose}
    (h : ∀ c ∈ cs, (c.postorder.filter p).map f = c.entered slot) :
    ((cs.flatMap postorder).filter p).map f = cs.flatMap (entered slot) := by
  rw [List.filter_flatMap, List.map_flatMap]
  exact List.flatMap_congr h

end Rose

namespace Tree

variable {t : Tree} {links : Links} {slot : Nat → Slot}

section Advance

variable {i next c : Nat} {slots : List Slot} {pending : List Frame} {steps : List Step}

/-- A branch whose children have all been seen is done. -/
theorem advance_done (hnone : (t.childrenAt i)[next]? = none) :
    t.advance slot ⟨⟨i, next, slots⟩ :: pending, steps⟩ = some ⟨pending, steps ++ [slots]⟩ := by
  simp [advance, hnone]

/-- A child that is a branch of the opening is entered. -/
theorem advance_enter (hsome : (t.childrenAt i)[next]? = some c) (henters : slot c = .child) :
    t.advance slot ⟨⟨i, next, slots⟩ :: pending, steps⟩
      = some ⟨⟨c, 0, []⟩ :: ⟨i, next + 1, slots ++ [slot c]⟩ :: pending, steps⟩ := by
  simp [advance, hsome, henters]

/-- Any other child is passed by. -/
theorem advance_pass (hsome : (t.childrenAt i)[next]? = some c) (hstays : slot c ≠ .child) :
    t.advance slot ⟨⟨i, next, slots⟩ :: pending, steps⟩
      = some ⟨⟨i, next + 1, slots ++ [slot c]⟩ :: pending, steps⟩ := by
  simp [advance, hsome, hstays]

end Advance

/-- A branch that has some children left emits what these emit, and then its own step. -/
private theorem reaches_frame (hchildren : ∀ i, t.childrenAt i = links.below i) {i : Nat}
    {cs : List Rose}
    (henter : ∀ c ∈ cs, ∀ pending steps, Reaches (t.advance slot)
      ⟨⟨c.index, 0, []⟩ :: pending, steps⟩ ⟨pending, steps ++ c.steps slot⟩)
    {next : Nat} (hdrop : (links.below i).drop next = cs.map Rose.index)
    (slots : List Slot) (pending : List Frame) (steps : List Step) :
    Reaches (t.advance slot) ⟨⟨i, next, slots⟩ :: pending, steps⟩
      ⟨pending, steps ++ Rose.stepsBelow slot cs ++ [slots ++ cs.map fun c => slot c.index]⟩ := by
  induction cs generalizing next slots steps with
  | nil =>
    have hnone : (t.childrenAt i)[next]? = none := by
      rw [hchildren, List.getElem?_eq_none_iff]
      exact List.drop_eq_nil_iff.mp hdrop
    have hlast : Reaches (t.advance slot) ⟨⟨i, next, slots⟩ :: pending, steps⟩ _ :=
      .single (advance_done hnone)
    simpa [Rose.stepsBelow] using hlast
  | cons c cs ih =>
    obtain ⟨hc, hcs⟩ := List.forall_mem_cons.mp henter
    have hsome : (t.childrenAt i)[next]? = some c.index := by
      have hhead := congrArg List.head? hdrop
      rwa [List.head?_drop, List.map_cons, List.head?_cons, ← hchildren] at hhead
    have hdrop' : (links.below i).drop (next + 1) = cs.map Rose.index := by
      have htail := congrArg List.tail hdrop
      rwa [List.tail_drop] at htail
    have hrest := ih hcs hdrop' (slots ++ [slot c.index])
    -- a child that is entered is emitted first, and then the branch goes on behind it
    by_cases henters : slot c.index = .child
    · have hall : Reaches (t.advance slot) ⟨⟨i, next, slots⟩ :: pending, steps⟩ _ :=
        .head (advance_enter hsome henters) ((hc _ _).trans (hrest _))
      simpa [Rose.stepsBelow, henters] using hall
    · have hall : Reaches (t.advance slot) ⟨⟨i, next, slots⟩ :: pending, steps⟩ _ :=
        .head (advance_pass hsome henters) (hrest steps)
      simpa [Rose.stepsBelow, henters] using hall

/-- **A tree that is entered is emitted and left again.** -/
theorem reaches_rose (hchildren : ∀ i, t.childrenAt i = links.below i) {r : Rose}
    (hr : r.Follows links) (pending : List Frame) (steps : List Step) :
    Reaches (t.advance slot) ⟨⟨r.index, 0, []⟩ :: pending, steps⟩
      ⟨pending, steps ++ r.steps slot⟩ := by
  induction r using Rose.induction generalizing pending steps with
  | node i cs ih =>
    have hdrop : (links.below i).drop 0 = cs.map Rose.index := by
      rw [List.drop_zero, hr.below_eq]
    have hframe := reaches_frame hchildren (fun c hc => ih c hc (hr.of_mem hc)) hdrop
      [] pending steps
    simpa [Rose.steps] using hframe

/-- From the root down, the emission comes to an end. -/
theorem emit_rose (hchildren : ∀ i, t.childrenAt i = links.below i) {r : Rose}
    (hr : r.Follows links) : t.emit slot r.index = .some (r.steps slot) := by
  have hdone : (⟨[], r.steps slot⟩ : Emission)
      ∈ eval (t.advance slot) ⟨[⟨r.index, 0, []⟩], []⟩ :=
    mem_eval.mpr ⟨reaches_rose hchildren hr [] [], rfl⟩
  rw [emit, Part.eq_some_iff.mpr hdone, Part.map_some]

/-! ## §3 Emitting and selecting -/

/-- Is the node a branch above a selected leaf? -/
def isAbove (t : Tree) (leaves : List Nat) (i : Nat) : Bool :=
  standingAt (t.standings leaves) i == .above

/-- The slots of the children of a node. -/
def stepAt (t : Tree) (leaves : List Nat) (i : Nat) : Step :=
  (t.childrenAt i).map (t.slotOf (t.standings leaves))

theorem slotOf_eq_child_iff {standings : Array Standing} {i : Nat} :
    t.slotOf standings i = .child ↔ standingAt standings i = .above := by
  rw [slotOf]
  cases standingAt standings i <;> simp

theorem stepsFrom_eq (leaves : List Nat) :
    t.stepsFrom leaves = (t.postorder.filter (t.isAbove leaves)).map (t.stepAt leaves) := rfl

section Standings

variable {r : Rose} (u : t.Unfolds r) {leaves : List Nat} (hnodup : leaves.Nodup)
  (hleaves : ∀ leaf ∈ leaves, t.links.below leaf = [])
include u hnodup hleaves

/-- What has been covered by climbing tells the slots that the standings tell. -/
theorem Unfolds.slotAlong_eq {covered : Finset Nat}
    (hcovered : ∀ j, j ∈ covered ↔ ∃ leaf ∈ leaves, t.links.Descends j leaf) {c : Nat}
    (hc : c < t.links.length) :
    t.slotAlong leaves covered c = t.slotOf (t.standings leaves) c := by
  have hfits := u.fits_standings hnodup hc
  have hfirst := standingAt_selectedStandings hnodup (t := t) (hc.trans_eq t.length_links)
  unfold slotAlong slotOf
  generalize standingAt (t.standings leaves) c = standing at hfits
  cases hfits with
  | selected hrank =>
    rcases hfirst with ⟨rank, hrank', heq⟩ | ⟨hnotMem, -⟩
    · have hsame := (List.getElem?_inj (List.getElem?_eq_some_iff.mp hrank).1 hnodup).mp
        (hrank.trans hrank'.symm)
      rw [heq, hsame]
    · exact absurd (List.mem_of_getElem? hrank) hnotMem
  | above hbelow hleaf hd =>
    -- a branch is not selected, since selected nodes have no children
    have hnotMem : c ∉ leaves := fun hmem => hbelow (hleaves c hmem)
    rcases hfirst with ⟨rank, hrank, -⟩ | ⟨-, heq⟩
    · exact absurd (List.mem_of_getElem? hrank) hnotMem
    · rw [heq]
      simp [(hcovered c).mpr ⟨_, hleaf, hd⟩]
  | outside hnone =>
    rcases hfirst with ⟨rank, hrank, -⟩ | ⟨-, heq⟩
    · exact absurd .refl (hnone c (List.mem_of_getElem? hrank))
    · have hnotMem : c ∉ covered := by
        intro hmem
        obtain ⟨leaf, hleaf, hd⟩ := (hcovered c).mp hmem
        exact hnone leaf hleaf hd
      rw [heq]
      simp [hnotMem]

/-- Below a node that is not above a selected leaf there is no such node. -/
private theorem not_above_of_descends {i j : Nat} (hi : i < t.links.length)
    (hnot : standingAt (t.standings leaves) i ≠ .above) (hd : t.links.Descends i j) :
    standingAt (t.standings leaves) j ≠ .above := by
  intro habove
  have hfits := u.fits_standings hnodup (u.planted.descends_lt hi hd)
  rw [habove] at hfits
  cases hfits with
  | above hbelow hleaf hdj =>
    have hfits' := u.fits_standings hnodup hi
    generalize hstanding : standingAt (t.standings leaves) i = standing at hfits'
    cases hfits' with
    | selected hrank =>
      have hij := hd.eq_of_below_nil (hleaves i (List.mem_of_getElem? hrank))
      rw [hij] at hnot
      exact hnot habove
    | above => exact hnot hstanding
    | outside hnone => exact hnone _ hleaf (hd.trans hdj)

/-- The steps of a tree are those of its branches above selected leaves **in postorder**. -/
private theorem map_stepAt {s : Rose} (hs : s.Follows t.links)
    (hslot : ∀ c < t.links.length, slot c = t.slotOf (t.standings leaves) c) :
    (s.postorder.filter (t.isAbove leaves)).map (t.stepAt leaves) = s.entered slot := by
  induction s using Rose.induction with
  | node i cs ih =>
    have hchild : slot i = .child ↔ standingAt (t.standings leaves) i = .above := by
      rw [hslot i hs.index_lt, slotOf_eq_child_iff]
    by_cases habove : standingAt (t.standings leaves) i = .above
    · -- the children come first, and each is entered when it stands above a selected leaf
      have henter : ∀ c ∈ cs, (c.postorder.filter (t.isAbove leaves)).map (t.stepAt leaves)
          = c.entered slot := fun c hc => ih c hc (hs.of_mem hc)
      have hfilter : [i].filter (t.isAbove leaves) = [i] := by
        simpa [isAbove] using habove
      have hstep : t.stepAt leaves i = cs.map fun c => slot c.index := by
        rw [stepAt, childrenAt_eq, hs.below_eq, List.map_map]
        apply List.map_congr_left
        intro c hc
        exact (hslot _ (hs.of_mem hc).index_lt).symm
      rw [Rose.postorder_node, List.filter_append, List.map_append,
        Rose.map_filter_flatMap slot henter, hfilter, List.map_singleton, hstep,
        Rose.entered_node cs (hchild.mpr habove)]
    · have hstays : slot (Rose.node i cs).index ≠ .child := fun henters =>
        habove (hchild.mp henters)
      rw [Rose.entered_eq_nil hstays, List.map_eq_nil_iff, List.filter_eq_nil_iff]
      intro j hj
      have hd := hs.mem_postorder.mp hj
      simpa [isAbove] using not_above_of_descends u hnodup hleaves hs.index_lt habove hd

/-- The steps from the selected leaves are those that are **emitted below the root**. -/
theorem Unfolds.stepsFrom_eq_entered :
    t.stepsFrom leaves = r.entered (t.slotOf (t.standings leaves)) := by
  rw [stepsFrom_eq, u.postorder_eq]
  exact map_stepAt u hnodup hleaves u.follows fun _ _ => rfl

/-- **Climbing and emitting** gives the steps from the selected leaves. -/
theorem Unfolds.stepsAlong_eq {root : Nat} (hformed : t.Formed root) (hne : leaves ≠ [])
    (hlt : ∀ leaf ∈ leaves, leaf < t.links.length) {order : List Nat} (horder : order.Perm leaves) :
    t.stepsAlong order leaves = .some (t.stepsFrom leaves) := by
  have hcovered : ∀ j, j ∈ t.coveredFrom order ↔ ∃ leaf ∈ leaves, t.links.Descends j leaf := by
    intro j
    rw [mem_coveredFrom hformed.parentAt_iff]
    simp only [horder.mem_iff]
  have hslot : ∀ c < t.links.length, t.slotAlong leaves (t.coveredFrom order) c
      = t.slotOf (t.standings leaves) c := fun c hc => u.slotAlong_eq hnodup hleaves hcovered hc
  have hsteps := map_stepAt u hnodup hleaves u.follows hslot
  have hchild : t.slotAlong leaves (t.coveredFrom order) r.index = .child
      ↔ standingAt (t.standings leaves) r.index = .above := by
    rw [hslot r.index u.planted.root_lt, slotOf_eq_child_iff]
  obtain ⟨leaf, hleaf⟩ := List.exists_mem_of_ne_nil leaves hne
  have hdescends := u.planted.descends leaf (hlt leaf hleaf)
  have hfits := u.fits_standings hnodup u.planted.root_lt
  rw [stepsAlong, u.root_eq, stepsFrom_eq, u.postorder_eq, hsteps]
  dsimp only
  rw [childrenAt_eq]
  by_cases hbelow : t.links.below r.index = []
  · -- a root without children is a selected leaf, and there is no step
    have hnot : standingAt (t.standings leaves) r.index ≠ .above := by
      intro habove
      rw [habove] at hfits
      cases hfits with
      | above hbranch => exact hbranch hbelow
    rw [hbelow, List.isEmpty_nil, if_pos rfl,
      Rose.entered_eq_nil fun henters => hnot (hchild.mp henters)]
  · have habove : standingAt (t.standings leaves) r.index = .above := by
      generalize standingAt (t.standings leaves) r.index = standing at hfits
      cases hfits with
      | selected hrank => exact absurd (hleaves _ (List.mem_of_getElem? hrank)) hbelow
      | above => rfl
      | outside hnone => exact absurd hdescends (hnone leaf hleaf)
    rw [if_neg (by simpa using hbelow), Rose.entered, if_pos (hchild.mpr habove),
      emit_rose t.childrenAt_eq u.follows]

end Standings

/-! ## §4 Opening -/

section Open

variable {indices others order : List Nat} {e : Error}

/-- Two ascending lists with the same numbers are the same. -/
theorem selection_congr (h : ∀ p, p ∈ others ↔ p ∈ indices) :
    selection others = selection indices := by
  have hperm : (selection others).Perm (selection indices) := by
    apply (List.perm_ext_iff_of_nodup (selection_nodup others) (selection_nodup indices)).mpr
    intro p
    rw [mem_selection, mem_selection]
    exact h p
  exact hperm.eq_of_pairwise' (selection_ascending others) (selection_ascending indices)

/-- Only **which positions** are given matters. -/
theorem openAt_congr (h : ∀ p, p ∈ others ↔ p ∈ indices) : t.openAt others = t.openAt indices := by
  unfold openAt
  rw [selection_congr h]

/-- Why a tree is not opened at some positions. Each rule but the first takes it for granted that
those before it do not apply. -/
inductive Unopened (t : Tree) (indices : List Nat) : Error → Prop where
  | emptyTree (hroot : t.root = none) : Unopened t indices .emptyTree
  | noLeaves (hroot : t.root ≠ none) (hnil : indices = []) : Unopened t indices (.opening .noLeaves)
  /-- The **smallest** of the positions out of range is reported. -/
  | outOfRange {p : Nat} (hroot : t.root ≠ none) (hp : p ∈ indices) (hout : t.leafCount ≤ p)
    (hleast : ∀ q ∈ indices, t.leafCount ≤ q → p ≤ q) :
    Unopened t indices (.indexOutOfRange p t.leafCount)

/-- What is found first in the selection is the smallest position out of range. -/
private theorem find?_selection_eq_some_iff {p : Nat} :
    (selection indices).find? (t.leafCount ≤ ·) = some p ↔ p ∈ indices ∧ t.leafCount ≤ p
      ∧ ∀ q ∈ indices, t.leafCount ≤ q → p ≤ q := by
  have hfirst : ∀ p, (selection indices).find? (t.leafCount ≤ ·) = some p → p ∈ indices
      ∧ t.leafCount ≤ p ∧ ∀ q ∈ indices, t.leafCount ≤ q → p ≤ q := by
    intro p hp
    obtain ⟨hout, front, back, hsplit, hfront⟩ := List.find?_eq_some_iff_append.mp hp
    have hascending := selection_ascending indices
    refine ⟨mem_selection.mp (List.mem_of_find?_eq_some hp), of_decide_eq_true hout, ?_⟩
    intro q hq hqout
    have hmem := mem_selection.mpr hq
    rw [hsplit] at hmem hascending
    -- what stands in front is in range, and what stands behind is larger
    rcases List.mem_append.mp hmem with hq | hq
    · have hin := hfront q hq
      simp [hqout] at hin
    · rcases List.mem_cons.mp hq with rfl | hq
      · exact Nat.le_refl q
      · have hback := (List.pairwise_cons.mp (List.pairwise_append.mp hascending).2.1).1
        exact Nat.le_of_lt (hback q hq)
  constructor
  · exact hfirst p
  · rintro ⟨hp, hout, hleast⟩
    cases hfind : (selection indices).find? (t.leafCount ≤ ·) with
    | none =>
      have hin := List.find?_eq_none.mp hfind p (mem_selection.mpr hp)
      simp [hout] at hin
    | some q =>
      obtain ⟨hq, hqout, hqleast⟩ := hfirst q hfind
      rw [Nat.le_antisymm (hqleast p hp hout) (hleast q hq hqout)]

/-- A tree without a root has no digest. -/
theorem rootDigest_of_no_root (hroot : t.root = none) : t.rootDigest = .error .emptyTree := by
  simp [rootDigest, rootNode, hroot, Except.map]

/-- The checks in their order, once there is a root. -/
private theorem openAt_of_root {expected : Digest} (hroot : t.rootDigest = .ok expected) :
    t.openAt indices = if indices = [] then .error (.opening .noLeaves)
      else match (selection indices).find? (t.leafCount ≤ ·) with
        | some p => .error (.indexOutOfRange p t.leafCount)
        | none => .ok (t.opening expected (selection indices)) := by
  have hempty : (selection indices).isEmpty = true ↔ indices = [] := by
    rw [List.isEmpty_iff, selection_eq_nil_iff]
  rw [openAt, hroot, ok_bind]
  dsimp only
  by_cases hnil : indices = []
  · rw [if_pos (hempty.mpr hnil), if_pos hnil]
    rfl
  · rw [if_neg (fun hsome => hnil (hempty.mp hsome)), if_neg hnil]
    cases (selection indices).find? (t.leafCount ≤ ·) with
    | some p => rfl
    | none => rfl

/-- A tree is not opened for one of these reasons, and for **no other**. -/
theorem Made.openAt_eq_error_iff (h : t.Made) :
    t.openAt indices = .error e ↔ t.Unopened indices e := by
  cases hroot : t.root with
  | none =>
    have hopen : t.openAt indices = .error .emptyTree := by
      rw [openAt, rootDigest_of_no_root hroot]
      rfl
    rw [hopen]
    constructor
    · intro he
      obtain rfl := Except.error.inj he
      exact .emptyTree hroot
    · intro he
      cases he with
      | emptyTree => rfl
      | noLeaves hsome => exact absurd hroot hsome
      | outOfRange hsome => exact absurd hroot hsome
  | some root =>
    have hsome : t.root ≠ none := by simp [hroot]
    obtain ⟨r, -, u⟩ := h.unfolds hroot
    rw [openAt_of_root u.rootDigest_eq]
    by_cases hnil : indices = []
    · rw [if_pos hnil]
      constructor
      · intro he
        obtain rfl := Except.error.inj he
        exact .noLeaves hsome hnil
      · intro he
        cases he with
        | emptyTree hnone => exact absurd hnone hsome
        | noLeaves => rfl
        | outOfRange _ hp =>
          rw [hnil] at hp
          exact absurd hp List.not_mem_nil
    · rw [if_neg hnil]
      constructor
      · intro he
        cases hfind : (selection indices).find? (t.leafCount ≤ ·) with
        | none =>
          rw [hfind] at he
          cases he
        | some p =>
          rw [hfind] at he
          obtain rfl := Except.error.inj he
          obtain ⟨hp, hout, hleast⟩ := find?_selection_eq_some_iff.mp hfind
          exact .outOfRange hsome hp hout hleast
      · intro he
        cases he with
        | emptyTree hnone => exact absurd hnone hsome
        | noLeaves _ hno => exact absurd hno hnil
        | outOfRange _ hp hout hleast =>
          rw [find?_selection_eq_some_iff.mpr ⟨hp, hout, hleast⟩]

/-- **Climbing in any order** gives the opening that is made without climbing. -/
theorem Made.openAlong_eq (h : t.Made) (horder : order.Perm (t.leavesAt (selection indices))) :
    t.openAlong order indices = .some (t.openAt indices) := by
  unfold openAlong
  cases hroot : t.root with
  | none =>
    rw [openAt, rootDigest_of_no_root hroot]
    rfl
  | some root =>
    obtain ⟨r, -, u⟩ := h.unfolds hroot
    rw [openAt_of_root u.rootDigest_eq, u.rootDigest_eq]
    dsimp only
    by_cases hnil : indices = []
    · have hselection : (selection indices).isEmpty = true := by simp [hnil]
      rw [if_pos hselection, if_pos hnil]
    · have hselection : ¬ (selection indices).isEmpty = true := by simpa using hnil
      rw [if_neg hselection, if_neg hnil]
      cases hfind : (selection indices).find? (t.leafCount ≤ ·) with
      | some p => rfl
      | none =>
        have hrange : ∀ p ∈ selection indices, p < t.leafCount := by
          intro p hp
          simpa using List.find?_eq_none.mp hfind p hp
        have hne : t.leavesAt (selection indices) ≠ [] := by
          intro hno
          have hlength := length_leavesAt hrange
          rw [hno, List.length_nil] at hlength
          exact hnil (selection_eq_nil_iff.mp (List.length_eq_zero_iff.mp hlength.symm))
        obtain ⟨root', hformed⟩ : ∃ root, t.Formed root := by
          rcases h.formed_or_empty with ⟨-, -, hno⟩ | hformed
          · rw [hroot] at hno
            cases hno
          · exact hformed
        have hsteps := u.stepsAlong_eq (u.nodup_leavesAt (selection_nodup indices))
          (fun leaf hleaf => (u.below_leavesAt hleaf).2) hformed hne
          (fun leaf hleaf => (u.below_leavesAt hleaf).1) horder
        dsimp only
        rw [hsteps]
        rfl

end Open

/-! ## §5 Openings of reachable trees -/

/-- **What an opening depends on.** A reachable tree is opened at some positions exactly when it has
a root, there are positions, and all are in range; else the reason is the first of these that fails,
with the smallest position out of range. The opening depends on nothing but which positions are
given: they may be reordered and repeated, and the climbs from the selected leaves may be made in
any order. -/
theorem Reachable.openAt_exact (h : t.Reachable) (indices : List Nat) :
    ((∃ o, t.openAt indices = .ok o)
        ↔ t.root ≠ none ∧ indices ≠ [] ∧ ∀ p ∈ indices, p < t.leafCount)
      ∧ (∀ e, t.openAt indices = .error e ↔ t.Unopened indices e)
      ∧ (∀ others : List Nat, (∀ p, p ∈ others ↔ p ∈ indices) → t.openAt others = t.openAt indices)
      ∧ ∀ order : List Nat, order.Perm (t.leavesAt (selection indices)) →
        t.openAlong order indices = .some (t.openAt indices) := by
  refine ⟨?_, ?_, ?_, ?_⟩
  · constructor
    · intro hopen
      obtain ⟨o, ho⟩ := hopen
      obtain ⟨expected, hexpected, hne, hlt, -⟩ := openAt_eq_ok_iff.mp ho
      refine ⟨?_, hne, hlt⟩
      intro hroot
      rw [rootDigest_of_no_root hroot] at hexpected
      cases hexpected
    · intro hopen
      obtain ⟨-, hne, hlt⟩ := hopen
      obtain ⟨r, u, ho⟩ := h.made.exists_openAt hne hlt
      exact ⟨_, ho⟩
  · intro e
    exact h.made.openAt_eq_error_iff
  · intro others hsame
    exact openAt_congr hsame
  · intro order horder
    exact h.made.openAlong_eq horder

/-- Two of three items are opened, one of them twice. Naming each once gives the same opening, and
so does climbing from the last leaf first. Of two positions out of range the smaller one is
reported. -/
theorem Reachable.openAt_exact_three : ∃ o,
    (Tree.ofItems .sha1 true [[1], [2], [3]]).openAt [2, 0, 2] = .ok o
      ∧ (Tree.ofItems .sha1 true [[1], [2], [3]]).openAt [0, 2] = .ok o
      ∧ (Tree.ofItems .sha1 true [[1], [2], [3]]).openAlong [2, 0] [2, 0, 2] = .some (.ok o)
      ∧ (Tree.ofItems .sha1 true [[1], [2], [3]]).openAt [7, 0, 5]
        = .error (.indexOutOfRange 5 3) := by
  have htree := Reachable.ofItems .sha1 true [[1], [2], [3]]
  have hleaves : (Tree.ofItems .sha1 true [[1], [2], [3]]).leaves = #[0, 1, 2] :=
    leaves_ofItems ..
  have hcount : (Tree.ofItems .sha1 true [[1], [2], [3]]).leafCount = 3 := by
    rw [leafCount, hleaves]
    rfl
  have hroot : (Tree.ofItems .sha1 true [[1], [2], [3]]).root ≠ none := by
    intro hnone
    have hempty := htree.made.leaves_of_no_root hnone
    simp [hleaves] at hempty
  obtain ⟨hopen, -, hset, horder⟩ := Reachable.openAt_exact htree [2, 0, 2]
  obtain ⟨o, ho⟩ := hopen.mpr ⟨hroot, by simp, by simp [hcount]⟩
  have hselected : selection [2, 0, 2] = [0, 2] := by
    simp [selection, List.mergeSort, List.eraseReps, List.eraseRepsBy, List.eraseRepsBy.loop]
  have hperm : ([2, 0] : List Nat).Perm
      ((Tree.ofItems .sha1 true [[1], [2], [3]]).leavesAt (selection [2, 0, 2])) := by
    rw [hselected]
    simp only [leavesAt, hleaves]
    exact List.Perm.swap 0 2 []
  refine ⟨o, ho, ?_, ?_, ?_⟩
  · rw [hset [0, 2] (by simp), ho]
  · rw [horder [2, 0] hperm, ho]
  · have hrefused := (Reachable.openAt_exact htree [7, 0, 5]).2.1
      (.indexOutOfRange 5 (Tree.ofItems .sha1 true [[1], [2], [3]]).leafCount)
    rw [hcount] at hrefused
    apply hrefused.mpr
    rw [← hcount]
    apply Unopened.outOfRange hroot
    · simp
    · simp [hcount]
    · simp [hcount]

end Tree

end HashTree
