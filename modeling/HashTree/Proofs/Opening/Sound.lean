import HashTree.Opening.Update
import HashTree.Proofs.Format.Restore
import HashTree.Proofs.Opening.Standings

/-!
# Sound openings

An opening is sound when its positions ascend, it has one leaf for each of them in either buffer,
its slots name leaves that exist, and all its digests and payloads are of its algorithm. Soundness
says nothing about how the steps fit together; that is for the replay to find out.
-/

namespace HashTree

open Outcome

/-! ## §1 Leaves and slots -/

/-- A leaf has a digest of the right size, and a payload that hashes to it if it has one. -/
def Opened.Sound (a : Algorithm) (leaf : Opened) : Prop :=
  leaf.digest.length = a.digestSize ∧ ∀ b ∈ leaf.payload, a.digest b = leaf.digest

/-- A slot among `count` leaves names one of them or carries a digest of the right size. -/
def Slot.Sound (a : Algorithm) (count : Nat) : Slot → Prop
  | .sibling digest => digest.length = a.digestSize
  | .leaf rank => rank < count
  | .child => True

/-- What an opening needs to have before it can be replayed. -/
structure Opening.Sound (o : Opening) : Prop where
  indices_ne_nil : o.indices ≠ []
  ascending : o.indices.Pairwise (· < ·)
  length_captured : o.captured.length = o.indices.length
  length_current : o.current.length = o.indices.length
  length_expected : o.expected.length = o.algorithm.digestSize
  steps_ne_nil : ∀ step ∈ o.steps, step ≠ []
  slots : ∀ step ∈ o.steps, ∀ slot ∈ step, slot.Sound o.algorithm o.indices.length
  captured : ∀ leaf ∈ o.captured, leaf.Sound o.algorithm
  current : ∀ leaf ∈ o.current, leaf.Sound o.algorithm

/-! ## §2 Openings of trees -/

section Generated

variable {t : Tree} {r : Rose} {indices : List Nat} {o : Opening}

private theorem sound_openedAt {root : Nat} (hformed : t.Formed root) (leaves : List Nat) :
    ∀ leaf ∈ t.openedAt leaves, leaf.Sound t.algorithm := by
  intro leaf hleaf
  obtain ⟨n, hn, rfl⟩ := List.mem_map.mp hleaf
  obtain ⟨i, -, hi⟩ := List.mem_filterMap.mp hn
  have hmem := Array.mem_of_getElem? hi
  exact ⟨hformed.digest_length n hmem, fun b hb => (hformed.payload_eq n hmem b hb).2⟩

private theorem sound_slotOf (u : t.Unfolds r) {leaves : List Nat} (hnodup : leaves.Nodup)
    {c : Nat} (hc : c < t.links.length) :
    (t.slotOf (t.standings leaves) c).Sound t.algorithm leaves.length := by
  have hfits := u.fits_standings hnodup hc
  rw [Tree.slotOf]
  generalize standingAt (t.standings leaves) c = standing at hfits
  cases hfits with
  | selected hrank => exact (List.getElem?_eq_some_iff.mp hrank).1
  | above => trivial
  | outside => exact u.length_digestAt c hc

/-- The steps of an opening have slots, and their slots are sound. -/
private theorem sound_stepsFrom (u : t.Unfolds r) {leaves : List Nat} (hnodup : leaves.Nodup)
    {step : Step} (hstep : step ∈ t.stepsFrom leaves) :
    step ≠ [] ∧ ∀ slot ∈ step, slot.Sound t.algorithm leaves.length := by
  obtain ⟨i, hi, rfl⟩ := List.mem_map.mp hstep
  obtain ⟨hmem, habove⟩ := List.mem_filter.mp hi
  rw [u.postorder_eq] at hmem
  have hlt := u.planted.descends_lt u.planted.root_lt (u.follows.mem_postorder.mp hmem)
  have hfits := u.fits_standings hnodup hlt
  rw [beq_iff_eq.mp habove] at hfits
  rw [Tree.childrenAt_eq]
  constructor
  · cases hfits with
    | above hbelow _ _ => simpa using hbelow
  · intro slot hslot
    obtain ⟨c, hc, rfl⟩ := List.mem_map.mp hslot
    exact sound_slotOf u hnodup (u.planted.child_lt hc)

/-- The opening of a tree is sound. -/
theorem Tree.Made.sound_of_openAt (h : t.Made) (ho : t.openAt indices = .ok o) : o.Sound := by
  obtain ⟨expected, hexpected, hne, hlt, rfl⟩ := Tree.openAt_eq_ok_iff.mp ho
  obtain ⟨root, hroot⟩ : ∃ root, t.root = some root := by
    cases hroot : t.root with
    | none => simp [Tree.rootDigest, Tree.rootNode, hroot, Except.map] at hexpected
    | some root => exact ⟨root, rfl⟩
  obtain ⟨r, rfl, u⟩ := h.unfolds hroot
  obtain ⟨root, hformed⟩ : ∃ root, t.Formed root := by
    cases h with
    | empty a => cases hroot
    | assembled plan => exact ⟨_, plan.formed⟩
  have hrange : ∀ p ∈ Tree.selection indices, p < t.leafCount :=
    fun p hp => hlt p (Tree.mem_selection.mp hp)
  have hnodup := u.nodup_leavesAt (Tree.selection_nodup indices)
  have hlength := Tree.length_leavesAt hrange
  have hopened := u.length_openedAt hrange
  have hsteps := fun step (hstep : step ∈ t.stepsFrom (t.leavesAt (Tree.selection indices))) =>
    sound_stepsFrom u hnodup hstep
  refine ⟨fun hnil => hne (Tree.selection_eq_nil_iff.mp hnil), Tree.selection_ascending indices,
    hopened, hopened, ?_, fun step hstep => (hsteps step hstep).1, fun step hstep => ?_,
    sound_openedAt hformed _, sound_openedAt hformed _⟩
  · rw [u.rootDigest_eq] at hexpected
    obtain rfl := Except.ok.inj hexpected
    exact u.length_digestAt _ u.planted.root_lt
  · show ∀ slot ∈ step, slot.Sound t.algorithm (Tree.selection indices).length
    rw [← hlength]
    exact (hsteps step hstep).2

end Generated

/-! ## §3 Documents of openings -/

/-- The slot that a document describes. -/
def SlotDocument.toSlot : SlotDocument → Slot
  | .sibling digest => .sibling digest
  | .leaf rank => .leaf rank.toNat
  | .child => .child

namespace OpeningDocument

/-- The opening that a document describes, sound or not. -/
def toOpening (d : OpeningDocument) (a : Algorithm) : Opening :=
  ⟨a, d.indices.map UInt32.toNat, d.steps.map (·.map SlotDocument.toSlot), d.expected, d.captured,
    d.current⟩

theorem increasing_iff {numbers : List Nat} :
    increasing numbers = true ↔ numbers.Pairwise (· < ·) := by
  rw [← List.isChain_iff_pairwise]
  induction numbers with
  | nil => simp [increasing]
  | cons m numbers ih =>
    cases numbers with
    | nil => simp [increasing]
    | cons n numbers => rw [increasing, Bool.and_eq_true, ih, decide_eq_true_eq,
        List.isChain_cons_cons]

private theorem restoreSlot_eq_ok_iff {a : Algorithm} {count : Nat} {d : SlotDocument}
    {slot : Slot} :
    restoreSlot a count d = .ok slot ↔ slot = d.toSlot ∧ d.toSlot.Sound a count := by
  cases d with
  | sibling digest =>
    rw [restoreSlot, check_bind_eq_ok_iff, requireSize_eq_ok_iff, pure_eq_ok_iff, and_comm,
      eq_comm]
    rfl
  | leaf rank =>
    rw [restoreSlot, check_bind_eq_ok_iff, require_eq_ok_iff, pure_eq_ok_iff, and_comm, eq_comm,
      decide_eq_true_eq]
    rfl
  | child =>
    rw [restoreSlot, Except.ok.injEq, eq_comm]
    exact (and_iff_left trivial).symm

private theorem restoreStep_eq_ok_iff {a : Algorithm} {count : Nat} {d : List SlotDocument}
    {step : Step} : restoreStep a count d = .ok step ↔ step = d.map SlotDocument.toSlot
      ∧ (d ≠ [] ∧ ∀ slot ∈ d, slot.toSlot.Sound a count) := by
  rw [restoreStep, check_bind_eq_ok_iff, require_eq_ok_iff,
    mapM_eq_ok_iff_map fun _ _ => restoreSlot_eq_ok_iff, Bool.not_eq_true', List.isEmpty_eq_false_iff]
  exact and_left_comm

private theorem requireOpened_eq_ok_iff {a : Algorithm} {leaf : Opened} :
    requireOpened a leaf = .ok () ↔ leaf.Sound a := by
  rw [requireOpened, check_bind_eq_ok_iff, requireSize_eq_ok_iff, requirePayload_eq_ok_iff,
    Opened.Sound]

/-- A document is restored exactly when it describes a **sound opening**. -/
theorem restore_eq_ok_iff {a : Algorithm} {d : OpeningDocument} {o : Opening} :
    d.restore a = .ok o ↔ o = d.toOpening a ∧ (d.toOpening a).Sound := by
  rw [restore]
  simp only [check_bind_eq_ok_iff, require_eq_ok_iff, requireSize_eq_ok_iff]
  -- only the steps have a result, so theirs is the one bind that is not a check
  rw [bind_eq_ok_iff]
  simp only [check_bind_eq_ok_iff, pure_eq_ok_iff, forM_eq_ok_iff, requireOpened_eq_ok_iff,
    mapM_eq_ok_iff_map fun _ _ => restoreStep_eq_ok_iff, increasing_iff, Bool.and_eq_true,
    beq_iff_eq, Bool.not_eq_true', List.isEmpty_eq_false_iff]
  constructor
  · rintro ⟨hne, hascending, ⟨hcaptured, hcurrent⟩, hexpected, steps, ⟨rfl, hsteps⟩,
      hcapturedSound, hcurrentSound, rfl⟩
    refine ⟨rfl, hne, hascending, hcaptured, hcurrent, hexpected, fun step hstep => ?_,
      fun step hstep slot hslot => ?_, hcapturedSound, hcurrentSound⟩
    · obtain ⟨d, hd, rfl⟩ := List.mem_map.mp hstep
      simpa using (hsteps d hd).1
    · obtain ⟨d, hd, rfl⟩ := List.mem_map.mp hstep
      obtain ⟨s, hs, rfl⟩ := List.mem_map.mp hslot
      exact (hsteps d hd).2 s hs
  · rintro ⟨rfl, h⟩
    refine ⟨h.indices_ne_nil, h.ascending, ⟨h.length_captured, h.length_current⟩,
      h.length_expected, _, ⟨rfl, fun d hd => ⟨?_, fun s hs => ?_⟩⟩, h.captured, h.current, rfl⟩
    · simpa using h.steps_ne_nil _ (List.mem_map.mpr ⟨d, hd, rfl⟩)
    · exact h.slots _ (List.mem_map.mpr ⟨d, hd, rfl⟩) _ (List.mem_map.mpr ⟨s, hs, rfl⟩)

end OpeningDocument

end HashTree
