import HashTree.Proofs.Opening.Sound
import HashTree.Proofs.Tree.Reachable

/-!
# Reachable openings

An opening is made from a reachable tree or loaded from bytes, whoever wrote them, and its current
leaves are then replaced any number of times. A replacement that is refused leaves no opening
behind, so whatever is reached is sound.
-/

namespace HashTree

open Outcome

/-! ## §1 Nodes -/

/-- A node that can be come by: a leaf by itself or a node of a reachable tree. -/
inductive Node.Reachable : Node → Prop where
  | ofPayload (a : Algorithm) (payload : Bytes) : Node.Reachable (Node.ofPayload a payload)
  | ofDigest {a : Algorithm} {d : Digest} {n : Node} (h : Node.ofDigest a d = .ok n) :
    Node.Reachable n
  | ofTree {t : Tree} {n : Node} (ht : t.Reachable) (hn : n ∈ t.nodes) : Node.Reachable n

theorem Algorithm.checkDigest_eq_ok_iff {a : Algorithm} {d : Digest} :
    a.checkDigest d = .ok () ↔ d.length = a.digestSize := by
  rw [checkDigest]
  split
  · next h => simp [h]
  · next h => simp [h]

/-- A node of a formed tree is a sound leaf. -/
theorem Tree.Made.sound_node {t : Tree} (h : t.Made) {n : Node} (hn : n ∈ t.nodes) :
    (Opened.mk n.payload? n.digest).Sound n.algorithm := by
  obtain ⟨root, hformed⟩ := h.exists_formed hn
  rw [Opened.Sound, hformed.algorithm_eq n hn]
  exact ⟨hformed.digest_length n hn, fun b hb => (hformed.payload_eq n hn b hb).2⟩

/-- A reachable node makes a sound leaf. -/
theorem Node.Reachable.sound {n : Node} (h : n.Reachable) :
    (Opened.mk n.payload? n.digest).Sound n.algorithm := by
  cases h with
  | ofPayload a payload =>
    refine ⟨a.length_digest payload, fun b hb => ?_⟩
    rw [← Option.some.inj hb]
    rfl
  | @ofDigest a d n h =>
    rw [Node.ofDigest] at h
    split at h
    · next hcheck =>
      obtain rfl := Except.ok.inj h
      exact ⟨Algorithm.checkDigest_eq_ok_iff.mp hcheck, fun b hb => by cases hb⟩
    · cases h
  | ofTree ht hn => exact ht.made.sound_node hn

namespace Opening

variable {o p : Opening}

/-! ## §2 Changes -/

theorem replace_eq_ok_iff {leaves : List Opened} :
    o.replace leaves = .ok p
      ↔ leaves.length = o.indices.length ∧ p = { o with current := leaves } := by
  rw [replace]
  split
  · next h => simp [h, eq_comm]
  · next h => simp [h]

/-- As many payloads as there are indices are taken. -/
theorem update_eq_ok {payloads : List Bytes} (hlength : payloads.length = o.indices.length) :
    o.update payloads
      = .ok { o with current := payloads.map fun b => ⟨some b, o.algorithm.digest b⟩ } :=
  replace_eq_ok_iff.mpr ⟨by rwa [List.length_map], rfl⟩

theorem leafOfDigest_eq_ok_iff {d : Digest} {leaf : Opened} :
    o.leafOfDigest d = .ok leaf ↔ leaf = ⟨none, d⟩ ∧ d.length = o.algorithm.digestSize := by
  rw [← Algorithm.checkDigest_eq_ok_iff, leafOfDigest]
  cases o.algorithm.checkDigest d with
  | error e => simp
  | ok u => simp [eq_comm]

theorem updateDigests_eq_ok_iff {digests : List Digest} :
    o.updateDigests digests = .ok p ↔ (∀ d ∈ digests, d.length = o.algorithm.digestSize)
      ∧ o.replace (digests.map fun d => ⟨none, d⟩) = .ok p := by
  rw [updateDigests, bind_eq_ok_iff]
  simp only [mapM_eq_ok_iff_map fun _ _ => leafOfDigest_eq_ok_iff]
  exact ⟨fun ⟨_, ⟨hleaves, hdigests⟩, h⟩ => ⟨hdigests, hleaves ▸ h⟩,
    fun ⟨hdigests, h⟩ => ⟨_, ⟨rfl, hdigests⟩, h⟩⟩

theorem leafOfNode_eq_ok_iff {n : Node} {leaf : Opened} :
    o.leafOfNode n = .ok leaf ↔ leaf = ⟨n.payload?, n.digest⟩ ∧ n.algorithm = o.algorithm := by
  rw [leafOfNode]
  split
  · next h => simp [h, eq_comm]
  · next h => simp [h]

theorem updateNodes_eq_ok_iff {nodes : List Node} :
    o.updateNodes nodes = .ok p ↔ (∀ n ∈ nodes, n.algorithm = o.algorithm)
      ∧ o.replace (nodes.map fun n => ⟨n.payload?, n.digest⟩) = .ok p := by
  rw [updateNodes, bind_eq_ok_iff]
  simp only [mapM_eq_ok_iff_map fun _ _ => leafOfNode_eq_ok_iff]
  exact ⟨fun ⟨_, ⟨hleaves, hnodes⟩, h⟩ => ⟨hnodes, hleaves ▸ h⟩,
    fun ⟨hnodes, h⟩ => ⟨_, ⟨rfl, hnodes⟩, h⟩⟩

/-- The second opening is the first after **one change** of its current leaves. -/
inductive Changed (o : Opening) : Opening → Prop where
  | payloads {payloads : List Bytes} {p : Opening} (h : o.update payloads = .ok p) : Changed o p
  | digests {digests : List Digest} {p : Opening} (h : o.updateDigests digests = .ok p) :
    Changed o p
  | nodes {nodes : List Node} {p : Opening} (hnodes : ∀ n ∈ nodes, n.Reachable)
    (h : o.updateNodes nodes = .ok p) : Changed o p
  | refreshed : Changed o o.refresh

/-- A change replaces the current leaves by sound ones, one for each index, and **nothing else**. -/
theorem Changed.exists_leaves (h : o.Changed p) (hlength : o.captured.length = o.indices.length)
    (hcaptured : ∀ leaf ∈ o.captured, leaf.Sound o.algorithm) :
    ∃ leaves, leaves.length = o.indices.length ∧ (∀ leaf ∈ leaves, leaf.Sound o.algorithm)
      ∧ p = { o with current := leaves } := by
  cases h with
  | payloads h =>
    obtain ⟨hlength, rfl⟩ := replace_eq_ok_iff.mp h
    refine ⟨_, hlength, fun leaf hleaf => ?_, rfl⟩
    obtain ⟨b, -, rfl⟩ := List.mem_map.mp hleaf
    exact ⟨o.algorithm.length_digest b, fun c hc => by rw [← Option.some.inj hc]⟩
  | digests h =>
    obtain ⟨hdigests, h⟩ := updateDigests_eq_ok_iff.mp h
    obtain ⟨hlength, rfl⟩ := replace_eq_ok_iff.mp h
    refine ⟨_, hlength, fun leaf hleaf => ?_, rfl⟩
    obtain ⟨d, hd, rfl⟩ := List.mem_map.mp hleaf
    exact ⟨hdigests d hd, fun c hc => by cases hc⟩
  | nodes hnodes h =>
    obtain ⟨halgorithm, h⟩ := updateNodes_eq_ok_iff.mp h
    obtain ⟨hlength, rfl⟩ := replace_eq_ok_iff.mp h
    refine ⟨_, hlength, fun leaf hleaf => ?_, rfl⟩
    obtain ⟨n, hn, rfl⟩ := List.mem_map.mp hleaf
    rw [← halgorithm n hn]
    exact (hnodes n hn).sound
  | refreshed => exact ⟨o.captured, hlength, hcaptured, rfl⟩

/-- A change keeps an opening sound. -/
theorem Changed.sound (h : o.Changed p) (ho : o.Sound) : p.Sound := by
  obtain ⟨leaves, hlength, hleaves, rfl⟩ := h.exists_leaves ho.length_captured ho.captured
  exact { ho with length_current := hlength, current := hleaves }

/-- Any number of changes replaces the current leaves, and **nothing else**. -/
theorem exists_leaves_of_changes (h : Relation.ReflTransGen Changed o p) (ho : o.Sound) :
    p.Sound ∧ ∃ leaves, p = { o with current := leaves } := by
  induction h with
  | refl => exact ⟨ho, o.current, rfl⟩
  | tail _ hchange ih =>
    obtain ⟨hsound, leaves, rfl⟩ := ih
    obtain ⟨leaves', -, -, hq⟩ := hchange.exists_leaves hsound.length_captured hsound.captured
    exact ⟨hchange.sound hsound, leaves', hq⟩

/-! ## §3 Openings -/

/-- An opening that can be come by. -/
inductive Reachable : Opening → Prop where
  | opened {t : Tree} {indices : List Nat} {o : Opening} (ht : t.Reachable)
    (h : t.openAt indices = .ok o) : Reachable o
  /-- The bytes are **any bytes** that are accepted. -/
  | loaded {bytes : Bytes} {encoding : Encoding} {requested : Option Algorithm} {o : Opening}
    (h : Opening.load bytes encoding requested = .ok o) : Reachable o
  | changed {o p : Opening} (ho : Reachable o) (h : o.Changed p) : Reachable p

/-- Every way to come by an opening leads to a sound one. -/
theorem Reachable.sound (h : o.Reachable) : o.Sound := by
  induction h with
  | opened ht h => exact ht.made.sound_of_openAt h
  | loaded h =>
    obtain ⟨a, d, hd⟩ := exists_restore_of_load h
    obtain ⟨rfl, hsound⟩ := OpeningDocument.restore_eq_ok_iff.mp hd
    exact hsound
  | changed _ h ih => exact h.sound ih

end Opening

end HashTree
