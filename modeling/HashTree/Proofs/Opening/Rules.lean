import HashTree.Proofs.Opening.Calls

/-!
# The rules of openings

An opening that can be come by keeps to all rules of soundness, whoever wrote the bytes that it was
loaded from. Nothing else is asked of a document: it is rejected only for a rule that it breaks, and
the fault names this rule.
-/

namespace HashTree

open Outcome

namespace OpeningDocument

variable {d : OpeningDocument} {a : Algorithm} {fault : FormatError}

/-! ## §1 Broken rules -/

/-- The rules that a document can break, each with **the fault that names it**. -/
inductive Breaks (d : OpeningDocument) (a : Algorithm) : FormatError → Prop where
  | noLeaves (h : d.indices = []) : Breaks d a (.inconsistent .proof .noLeaves)
  | indices (h : ¬ (d.indices.map UInt32.toNat).Pairwise (· < ·)) :
    Breaks d a (.inconsistent .proof .indicesNotIncreasing)
  /-- One of the buffers has not one leaf for each index. -/
  | buffer {leaves : List Opened} (hleaves : leaves = d.captured ∨ leaves = d.current)
    (h : leaves.length ≠ d.indices.length) : Breaks d a (.inconsistent .proof .bufferLength)
  | expected (h : d.expected.length ≠ a.digestSize) :
    Breaks d a (.inconsistent .proof .digestLength)
  | step (h : [] ∈ d.steps) : Breaks d a (.inconsistent .proofStep .emptyStep)
  | sibling {step : List SlotDocument} {digest : Digest} (hstep : step ∈ d.steps)
    (hslot : .sibling digest ∈ step) (h : digest.length ≠ a.digestSize) :
    Breaks d a (.inconsistent .proofStep .digestLength)
  | rank {step : List SlotDocument} {rank : UInt32} (hstep : step ∈ d.steps)
    (hslot : .leaf rank ∈ step) (h : d.indices.length ≤ rank.toNat) :
    Breaks d a (.inconsistent .proofStep .slotOutOfRange)
  | digest {leaf : Opened} (hleaf : leaf ∈ d.captured ∨ leaf ∈ d.current)
    (h : leaf.digest.length ≠ a.digestSize) : Breaks d a (.inconsistent .proofLeaf .digestLength)
  | payload {leaf : Opened} {b : Bytes} (hleaf : leaf ∈ d.captured ∨ leaf ∈ d.current)
    (hb : leaf.payload = some b) (h : a.digest b ≠ leaf.digest) :
    Breaks d a (.inconsistent .proofLeaf .payloadDigest)

/-- A document that breaks a rule describes **no sound opening**. -/
theorem Breaks.not_sound (h : d.Breaks a fault) : ¬ (d.toOpening a).Sound := by
  intro hsound
  have hcount : (d.toOpening a).indices.length = d.indices.length := List.length_map _
  -- each rule is denied by the field of soundness that it is named for
  cases h with
  | noLeaves h => exact hsound.indices_ne_nil (by rw [toOpening, h, List.map_nil])
  | indices h => exact h hsound.ascending
  | buffer hleaves h =>
    rw [← hcount] at h
    rcases hleaves with rfl | rfl
    · exact h hsound.length_captured
    · exact h hsound.length_current
  | expected h => exact h hsound.length_expected
  | step h => exact hsound.steps_ne_nil _ (List.mem_map_of_mem h) rfl
  | sibling hstep hslot h =>
    exact h (hsound.slots _ (List.mem_map_of_mem hstep) _ (List.mem_map_of_mem hslot))
  | rank hstep hslot h =>
    have hlt := hsound.slots _ (List.mem_map_of_mem hstep) _ (List.mem_map_of_mem hslot)
    rw [hcount] at hlt
    exact absurd hlt (Nat.not_lt.mpr h)
  | digest hleaf h => exact h (hleaf.elim (hsound.captured _) (hsound.current _)).1
  | payload hleaf hb h => exact h ((hleaf.elim (hsound.captured _) (hsound.current _)).2 _ hb)

/-! ## §2 Faults -/

private theorem breaks_of_restoreSlot {step : List SlotDocument} {slot : SlotDocument}
    (hstep : step ∈ d.steps) (hslot : slot ∈ step)
    (h : restoreSlot a d.indices.length slot = .error fault) : d.Breaks a fault := by
  cases slot with
  | sibling digest =>
    rcases check_bind_eq_error_iff.mp h with hsize | ⟨-, hpure⟩
    · obtain ⟨hne, rfl⟩ := require_eq_error_iff.mp hsize
      exact .sibling hstep hslot (beq_eq_false_iff_ne.mp hne)
    · cases hpure
  | leaf rank =>
    rcases check_bind_eq_error_iff.mp h with hrange | ⟨-, hpure⟩
    · obtain ⟨hle, rfl⟩ := require_eq_error_iff.mp hrange
      exact .rank hstep hslot (Nat.not_lt.mp (of_decide_eq_false hle))
    · cases hpure
  | child => cases h

private theorem breaks_of_restoreStep {step : List SlotDocument} (hstep : step ∈ d.steps)
    (h : restoreStep a d.indices.length step = .error fault) : d.Breaks a fault := by
  rcases check_bind_eq_error_iff.mp h with hempty | ⟨-, hslots⟩
  · obtain ⟨hisEmpty, rfl⟩ := require_eq_error_iff.mp hempty
    have hnil : step = [] := by simpa using hisEmpty
    rw [hnil] at hstep
    exact .step hstep
  · obtain ⟨slot, hslot, hfault⟩ := exists_of_mapM_eq_error hslots
    exact breaks_of_restoreSlot hstep hslot hfault

private theorem breaks_of_requireOpened {leaf : Opened}
    (hleaf : leaf ∈ d.captured ∨ leaf ∈ d.current) (h : requireOpened a leaf = .error fault) : d.Breaks a fault := by
  rcases check_bind_eq_error_iff.mp h with hsize | ⟨-, hpayload⟩
  · obtain ⟨hne, rfl⟩ := require_eq_error_iff.mp hsize
    exact .digest hleaf (beq_eq_false_iff_ne.mp hne)
  · obtain ⟨hne, rfl⟩ := require_eq_error_iff.mp hpayload
    cases hb : leaf.payload with
    | none => simp [hb] at hne
    | some b => exact .payload hleaf hb (by simpa [hb] using hne)

/-- A document is rejected **for a rule that it breaks**, and the fault names it. -/
theorem breaks_of_restore (h : d.restore a = .error fault) : d.Breaks a fault := by
  have hcount : (d.indices.map UInt32.toNat).length = d.indices.length := List.length_map _
  unfold restore at h
  simp only [hcount] at h
  -- the rules are judged in their order, and the first that is broken is reported
  rcases check_bind_eq_error_iff.mp h with hrule | ⟨-, h⟩
  · obtain ⟨hnil, rfl⟩ := require_eq_error_iff.mp hrule
    exact .noLeaves (by simpa using hnil)
  rcases check_bind_eq_error_iff.mp h with hrule | ⟨-, h⟩
  · obtain ⟨hdescends, rfl⟩ := require_eq_error_iff.mp hrule
    apply Breaks.indices
    rw [← increasing_iff, hdescends]
    exact Bool.false_ne_true
  rcases check_bind_eq_error_iff.mp h with hrule | ⟨-, h⟩
  · obtain ⟨hlengths, rfl⟩ := require_eq_error_iff.mp hrule
    rcases Bool.and_eq_false_iff.mp hlengths with hlength | hlength
    · exact .buffer (.inl rfl) (beq_eq_false_iff_ne.mp hlength)
    · exact .buffer (.inr rfl) (beq_eq_false_iff_ne.mp hlength)
  rcases check_bind_eq_error_iff.mp h with hrule | ⟨-, h⟩
  · obtain ⟨hne, rfl⟩ := require_eq_error_iff.mp hrule
    exact .expected (beq_eq_false_iff_ne.mp hne)
  rcases bind_eq_error_iff.mp h with hsteps | ⟨steps, -, h⟩
  · obtain ⟨step, hstep, hfault⟩ := exists_of_mapM_eq_error hsteps
    exact breaks_of_restoreStep hstep hfault
  rcases check_bind_eq_error_iff.mp h with hleaves | ⟨-, h⟩
  · obtain ⟨leaf, hleaf, hfault⟩ := exists_of_forM_eq_error hleaves
    exact breaks_of_requireOpened (.inl hleaf) hfault
  rcases check_bind_eq_error_iff.mp h with hleaves | ⟨-, hpure⟩
  · obtain ⟨leaf, hleaf, hfault⟩ := exists_of_forM_eq_error hleaves
    exact breaks_of_requireOpened (.inr hleaf) hfault
  · cases hpure

end OpeningDocument

/-! ## §3 Soundness throughout -/

namespace Opening

/-- **Openings are sound throughout, and nothing more is asked of a document.** An opening is made
from a reachable tree or loaded from any bytes, and any calls are made on it with nodes that can be
come by. It keeps to all rules of soundness. A document is restored exactly when the opening that it
describes is sound, and then to this opening; else it breaks the rule that the fault names. -/
theorem sound_throughout :
    (∀ o : Opening, o.Reachable → ∀ calls : List Call,
        (∀ call ∈ calls, ∀ n ∈ call.nodes, n.Reachable) → (o.after calls).Sound)
      ∧ ∀ (d : OpeningDocument) (a : Algorithm),
        (∀ o, d.restore a = .ok o ↔ o = d.toOpening a ∧ (d.toOpening a).Sound)
        ∧ ∀ fault, d.restore a = .error fault → d.Breaks a fault ∧ ¬ (d.toOpening a).Sound := by
  refine ⟨?_, fun d a => ⟨fun o => OpeningDocument.restore_eq_ok_iff, ?_⟩⟩
  · intro o ho calls hnodes
    exact (ho.after hnodes).sound
  · intro fault hfault
    have hbreaks := OpeningDocument.breaks_of_restore hfault
    exact ⟨hbreaks, hbreaks.not_sound⟩

/-- A document of an opening of a single item, whose payload only the captured leaf keeps. -/
def single (b : Bytes) : OpeningDocument where
  version := formatVersion
  algorithm := "sha1"
  indices := [0]
  expected := Algorithm.sha1.digest b
  steps := []
  captured := [⟨some b, Algorithm.sha1.digest b⟩]
  current := [⟨none, Algorithm.sha1.digest b⟩]

/-- It describes a sound opening. -/
theorem sound_single (b : Bytes) : ((single b).toOpening .sha1).Sound := by
  constructor <;>
    simp [single, OpeningDocument.toOpening, Opened.Sound, Algorithm.length_digest]

/-- An opening of three items is sound after a call with a node and two that are refused. A document
is restored under its algorithm; under another it is rejected for the size of the expected digest. -/
theorem sound_throughout_three :
    (∃ o, (Tree.ofItems .sha1 true [[], [2], [3]]).openAt [1] = .ok o
      ∧ (o.after [.updateNodes [.ofPayload .sha1 [5]], .updateDigests [[5]], .update []]).Sound)
      ∧ (∃ o, (single [7]).restore .sha1 = .ok o ∧ o.Sound)
      ∧ (single [7]).restore .sha256 = .error (.inconsistent .proof .digestLength)
      ∧ (single [7]).Breaks .sha256 (.inconsistent .proof .digestLength) := by
  obtain ⟨hreachable, hrestore⟩ := sound_throughout
  obtain ⟨o, hopen, -, -, -, -⟩ := Tree.exists_openAt_three
  have hnodes : ∀ call ∈ [Call.updateNodes [.ofPayload .sha1 [5]], .updateDigests [[5]],
      .update []], ∀ n ∈ call.nodes, n.Reachable := by
    simpa [Call.nodes] using Node.Reachable.ofPayload .sha1 [5]
  have hsize : requireSize .sha256 .proof (single [7]).expected = broken .proof .digestLength := by
    rw [requireSize, single, Algorithm.length_digest]
    rfl
  have hrejected : (single [7]).restore .sha256 = .error (.inconsistent .proof .digestLength) := by
    unfold OpeningDocument.restore
    rw [hsize]
    rfl
  refine ⟨⟨o, hopen, hreachable o (.opened (.ofItems _ _ _) hopen) _ hnodes⟩, ?_, hrejected,
    ((hrestore (single [7]) .sha256).2 _ hrejected).1⟩
  have hsound := sound_single [7]
  exact ⟨_, ((hrestore (single [7]) .sha1).1 _).mpr ⟨rfl, hsound⟩, hsound⟩

end Opening

end HashTree
