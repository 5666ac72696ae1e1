import HashTree.Proofs.Format.Dump
import HashTree.Proofs.Opening.Generated

/-!
# Dumping and loading openings

An opening is dumped unless a number does not fit the four bytes that it is written in. Whatever is
dumped of a reachable opening is loaded again as **the same opening, field by field**, whether its
leaves were changed or not and whether its algorithm is asked for or not.
-/

namespace HashTree

open Outcome

/-! ## §1 Documents of openings -/

/-- The document of a slot whose rank fits. -/
def Slot.document : Slot → SlotDocument
  | sibling digest => .sibling digest
  | leaf rank => .leaf (UInt32.ofNat rank)
  | child => .child

theorem Slot.toDocument_eq_ok_iff {slot : Slot} {d : SlotDocument} :
    slot.toDocument = .ok d
      ↔ d = slot.document ∧ ∀ rank, slot = .leaf rank → rank < UInt32.size := by
  cases slot with
  | sibling digest => simp [toDocument, document, eq_comm]
  | leaf rank =>
    -- only a rank is checked
    have hrank : ((∃ i, Label.checkIndex ⟨.proofStep, "leaf"⟩ rank = .ok i ∧ SlotDocument.leaf i = d)
        ↔ d = .leaf (UInt32.ofNat rank) ∧ rank < UInt32.size) := by
      simp only [Label.checkIndex_eq_ok_iff]
      constructor
      · rintro ⟨_, ⟨rfl, hlt⟩, rfl⟩
        exact ⟨rfl, hlt⟩
      · rintro ⟨rfl, hlt⟩
        exact ⟨_, ⟨rfl, hlt⟩, rfl⟩
    rw [toDocument, map_eq_ok_iff, hrank]
    simp [document]
  | child => simp [toDocument, document, eq_comm]

/-- A slot whose rank fits is the one that its document describes. -/
theorem Slot.toSlot_document {slot : Slot} (h : ∀ rank, slot = .leaf rank → rank < UInt32.size) :
    slot.document.toSlot = slot := by
  cases slot with
  | sibling digest => rfl
  | leaf rank => exact congrArg Slot.leaf (UInt32.toNat_ofNat_of_lt (h rank rfl))
  | child => rfl

/-- The slot that a document describes has this document. -/
theorem SlotDocument.document_toSlot (d : SlotDocument) : d.toSlot.document = d := by
  cases d with
  | sibling digest => rfl
  | leaf rank => exact congrArg leaf UInt32.ofNat_toNat
  | child => rfl

namespace Opening

variable {o p : Opening} {e : Encoding} {fault : FormatError} {bytes : Bytes}

/-- All positions and ranks of an opening fit 32 bits. -/
structure Indexed (o : Opening) : Prop where
  index_lt : ∀ i ∈ o.indices, i < UInt32.size
  rank_lt : ∀ step ∈ o.steps, ∀ slot ∈ step, ∀ rank, slot = .leaf rank → rank < UInt32.size

/-- The document of an opening whose positions and ranks fit. -/
def document (o : Opening) : OpeningDocument :=
  ⟨formatVersion, o.algorithm.name, o.indices.map UInt32.ofNat, o.expected,
    o.steps.map (·.map Slot.document), o.captured, o.current⟩

/-- A document is drawn up **exactly when all positions and ranks fit**. -/
theorem toDocument_eq_ok_iff {d : OpeningDocument} :
    o.toDocument = .ok d ↔ d = o.document ∧ o.Indexed := by
  have hstep : ∀ (step : Step) (ds : List SlotDocument), step.mapM Slot.toDocument = .ok ds
      ↔ ds = step.map Slot.document
        ∧ ∀ slot ∈ step, ∀ rank, slot = .leaf rank → rank < UInt32.size :=
    fun step ds => mapM_eq_ok_iff_map fun _ _ => Slot.toDocument_eq_ok_iff
  unfold toDocument
  simp only [bind_eq_ok_iff, pure_eq_ok_iff, mapM_eq_ok_iff_map hstep,
    mapM_eq_ok_iff_map fun _ _ => Label.checkIndex_eq_ok_iff]
  constructor
  · rintro ⟨_, ⟨rfl, hrank⟩, _, ⟨rfl, hindex⟩, rfl⟩
    exact ⟨rfl, ⟨hindex, hrank⟩⟩
  · rintro ⟨rfl, ⟨hindex, hrank⟩⟩
    exact ⟨_, ⟨rfl, hrank⟩, _, ⟨rfl, hindex⟩, rfl⟩

/-- The document of an opening describes it, if its positions and ranks fit. -/
theorem toOpening_document (h : o.Indexed) : o.document.toOpening o.algorithm = o := by
  have hindices : (o.indices.map UInt32.ofNat).map UInt32.toNat = o.indices :=
    map_toNat_ofNat h.index_lt
  have hsteps : (o.steps.map (·.map Slot.document)).map (·.map SlotDocument.toSlot) = o.steps := by
    rw [List.map_map]
    refine Eq.trans (List.map_congr_left fun step hstep => ?_) o.steps.map_id
    -- slot by slot the document gives back what was written
    show (step.map Slot.document).map SlotDocument.toSlot = step
    rw [List.map_map]
    refine Eq.trans (List.map_congr_left fun slot hslot => ?_) step.map_id
    exact Slot.toSlot_document (h.rank_lt step hstep slot hslot)
  rw [OpeningDocument.toOpening, document, hindices, hsteps]

/-- All positions and ranks of a document are of 32 bits. -/
theorem indexed_toOpening (d : OpeningDocument) (a : Algorithm) : (d.toOpening a).Indexed := by
  constructor
  · intro i hi
    obtain ⟨n, -, rfl⟩ := List.mem_map.mp hi
    exact n.toNat_lt_size
  · intro step hstep slot hslot rank hrank
    obtain ⟨slots, -, rfl⟩ := List.mem_map.mp hstep
    obtain ⟨sd, -, rfl⟩ := List.mem_map.mp hslot
    cases sd with
    | leaf n =>
      obtain rfl := Slot.leaf.inj hrank
      exact n.toNat_lt_size
    | _ => cases hrank

/-- **An opening has the document again that describes it**, under the name of its algorithm. -/
theorem toDocument_toOpening {d : OpeningDocument} (hversion : d.version = formatVersion)
    (a : Algorithm) : (d.toOpening a).toDocument = .ok { d with algorithm := a.name } := by
  have hslots : ∀ slots : List SlotDocument,
      (slots.map SlotDocument.toSlot).map Slot.document = slots := by
    intro slots
    rw [List.map_map]
    exact (List.map_congr_left fun d _ => d.document_toSlot).trans slots.map_id
  have hsteps : (d.steps.map (·.map SlotDocument.toSlot)).map (·.map Slot.document) = d.steps := by
    rw [List.map_map]
    exact (List.map_congr_left fun slots _ => hslots slots).trans d.steps.map_id
  apply toDocument_eq_ok_iff.mpr
  refine ⟨?_, indexed_toOpening d a⟩
  rw [document, OpeningDocument.toOpening, hsteps, map_ofNat_toNat, ← hversion]

/-- **A sound opening is restored from its document**, if its positions and ranks fit. -/
theorem Sound.restore_document (h : o.Sound) (hindexed : o.Indexed) :
    o.document.restore o.algorithm = .ok o := by
  have hopening := toOpening_document hindexed
  apply OpeningDocument.restore_eq_ok_iff.mpr
  exact ⟨hopening.symm, by rwa [hopening]⟩

/-! ## §2 Openings that are not dumped -/

/-- The numbers that an encoding writes in four bytes, each with the field that it goes to. A JSON
text counts nothing. -/
inductive Counted (o : Opening) : Encoding → Label → Nat → Prop where
  | index {e : Encoding} {i : Nat} (h : i ∈ o.indices) : Counted o e ⟨.proof, "indices"⟩ i
  | rank {e : Encoding} {step : Step} {rank : Nat} (hstep : step ∈ o.steps)
    (hslot : .leaf rank ∈ step) : Counted o e ⟨.proofStep, "leaf"⟩ rank
  | indexCount : Counted o .binary ⟨.proof, "indices"⟩ o.indices.length
  | stepCount : Counted o .binary ⟨.proof, "steps"⟩ o.steps.length
  | slotCount {step : Step} (h : step ∈ o.steps) :
    Counted o .binary ⟨.proofStep, "slots"⟩ step.length
  | capturedCount : Counted o .binary ⟨.proof, "original"⟩ o.captured.length
  | currentCount : Counted o .binary ⟨.proof, "working"⟩ o.current.length
  | payload {leaf : Opened} {b : Bytes} (hleaf : leaf ∈ o.captured ∨ leaf ∈ o.current)
    (hb : leaf.payload = some b) : Counted o .binary ⟨.proofLeaf, "payload"⟩ b.length

/-- A number is too large for its four bytes, and the fault names its field. -/
def Exceeds (o : Opening) (e : Encoding) (fault : FormatError) : Prop :=
  ∃ l n, o.Counted e l n ∧ UInt32.size ≤ n ∧ fault = l.invalidLength

private theorem Counted.exceeds {l : Label} {n : Nat} (h : o.Counted e l n)
    (hindex : l.checkIndex n = .error fault) : o.Exceeds e fault :=
  ⟨l, n, h, Label.checkIndex_eq_error_iff.mp hindex⟩

/-- A document is not drawn up only if a position or a rank is too large. -/
theorem exceeds_of_toDocument (h : o.toDocument = .error fault) : o.Exceeds e fault := by
  unfold toDocument at h
  rcases bind_eq_error_iff.mp h with hsteps | ⟨steps, -, h⟩
  · obtain ⟨step, hstep, hslots⟩ := exists_of_mapM_eq_error hsteps
    obtain ⟨slot, hslot, herror⟩ := exists_of_mapM_eq_error hslots
    cases slot with
    | sibling digest => cases herror
    | leaf rank =>
      rw [Slot.toDocument] at herror
      cases hindex : Label.checkIndex ⟨.proofStep, "leaf"⟩ rank with
      | ok i =>
        rw [hindex] at herror
        cases herror
      | error fault' =>
        rw [hindex] at herror
        cases herror
        exact Counted.exceeds (.rank hstep hslot) hindex
    | child => cases herror
  · rcases bind_eq_error_iff.mp h with hindices | ⟨indices, -, hpure⟩
    · obtain ⟨i, hi, hindex⟩ := exists_of_mapM_eq_error hindices
      exact Counted.exceeds (.index hi) hindex
    · cases hpure

/-- A digest of the right width is written. -/
private theorem writeDigest_ne_error {l : Label} {width : Nat} {d : Digest}
    (hwidth : d.length = width) : ¬ (Output.digest l width d).toExcept = .error fault := by
  intro h
  have hok := (Output.toExcept_digest_eq_ok_iff (l := l)).mpr ⟨hwidth, rfl⟩
  cases hok.symm.trans h

/-- A sound slot is written, as its rank has been checked before. -/
private theorem writeSlot_ne_error {a : Algorithm} {count : Nat} {slot : Slot}
    (hslot : slot.Sound a count) :
    ¬ (Binary.writeSlot a.digestSize slot.document).toExcept = .error fault := by
  intro h
  cases slot with
  | sibling digest =>
    rcases Output.toExcept_append_eq_error_iff.mp h with htag | ⟨_, -, hdigest⟩
    · cases htag
    · exact writeDigest_ne_error hslot hdigest
  | leaf rank => cases h
  | child => cases h

/-- A sound leaf is not written only if its payload is too long. -/
private theorem exceeds_of_writeOpened {leaf : Opened}
    (hleaf : leaf ∈ o.captured ∨ leaf ∈ o.current) (hsound : leaf.Sound o.algorithm)
    (h : (Binary.writeOpened o.algorithm.digestSize leaf).toExcept = .error fault) :
    o.Exceeds .binary fault := by
  rcases Output.toExcept_append_eq_error_iff.mp h with hpayload | ⟨_, -, hdigest⟩
  · obtain ⟨b, hb, hsized⟩ := Output.exists_of_toExcept_option_eq_error hpayload
    obtain ⟨hlarge, hfault⟩ := Output.toExcept_sized_eq_error_iff.mp hsized
    exact ⟨_, _, .payload hleaf hb, hlarge, hfault⟩
  · exact absurd hdigest (writeDigest_ne_error hsound.1)

private theorem exceeds_of_writeSteps (hsound : o.Sound)
    (h : (Binary.writeSteps o.algorithm.digestSize o.document.steps).toExcept = .error fault) :
    o.Exceeds .binary fault := by
  rcases Output.exists_of_toExcept_list_eq_error h with ⟨hlarge, hfault⟩ | ⟨ds, hds, hslots⟩
  · rw [document, List.length_map] at hlarge
    exact ⟨_, _, .stepCount, hlarge, hfault⟩
  · obtain ⟨step, hstep, rfl⟩ := List.mem_map.mp hds
    rcases Output.exists_of_toExcept_list_eq_error hslots with ⟨hlarge, hfault⟩ | ⟨d, hd, hslot⟩
    · rw [List.length_map] at hlarge
      exact ⟨_, _, .slotCount hstep, hlarge, hfault⟩
    · obtain ⟨slot, hmem, rfl⟩ := List.mem_map.mp hd
      exact absurd hslot (writeSlot_ne_error (hsound.slots step hstep slot hmem))

private theorem exceeds_of_writeOpening (hsound : o.Sound)
    (h : (Binary.writeOpening o.algorithm.digestSize o.document).toExcept = .error fault) :
    o.Exceeds .binary fault := by
  -- the head, the positions, the root, the steps and the two lists of leaves are joined from the
  -- left, so the last of them comes off first
  rcases Output.toExcept_append_eq_error_iff.mp h with h | ⟨_, -, hcurrent⟩
  · rcases Output.toExcept_append_eq_error_iff.mp h with h | ⟨_, -, hcaptured⟩
    · rcases Output.toExcept_append_eq_error_iff.mp h with h | ⟨_, -, hsteps⟩
      · rcases Output.toExcept_append_eq_error_iff.mp h with h | ⟨_, -, hexpected⟩
        · rcases Output.toExcept_append_eq_error_iff.mp h with hhead | ⟨_, -, hindices⟩
          · exact absurd hhead (Binary.writeHead_ne_error .opening o.algorithm)
          · obtain ⟨hlarge, hfault⟩ := Binary.writeIndices_eq_error hindices
            rw [document, List.length_map] at hlarge
            exact ⟨_, _, .indexCount, hlarge, hfault⟩
        · exact absurd hexpected (writeDigest_ne_error hsound.length_expected)
      · exact exceeds_of_writeSteps hsound hsteps
    · rcases Output.exists_of_toExcept_list_eq_error hcaptured with
        ⟨hlarge, hfault⟩ | ⟨leaf, hleaf, hopened⟩
      · exact ⟨_, _, .capturedCount, hlarge, hfault⟩
      · exact exceeds_of_writeOpened (.inl hleaf) (hsound.captured leaf hleaf) hopened
  · rcases Output.exists_of_toExcept_list_eq_error hcurrent with
      ⟨hlarge, hfault⟩ | ⟨leaf, hleaf, hopened⟩
    · exact ⟨_, _, .currentCount, hlarge, hfault⟩
    · exact exceeds_of_writeOpened (.inr hleaf) (hsound.current leaf hleaf) hopened

/-- A sound opening is not dumped only if **a number is too large** for its four bytes. -/
theorem Sound.exceeds_of_dump (hsound : o.Sound) (h : o.dump e = .error fault) :
    o.Exceeds e fault := by
  rcases bind_eq_error_iff.mp h with hdocument | ⟨d, hdocument, h⟩
  · exact exceeds_of_toDocument hdocument
  · obtain ⟨rfl, -⟩ := toDocument_eq_ok_iff.mp hdocument
    cases e with
    | json => cases h
    | binary => exact exceeds_of_writeOpening hsound h

/-! ## §3 Openings that are dumped -/

private theorem lt_of_writeOpened {leaves : List Opened} {l : Label} {width : Nat}
    (h : (Output.list l (Binary.writeOpened width) leaves).toExcept = .ok bytes) :
    leaves.length < UInt32.size
      ∧ ∀ leaf ∈ leaves, ∀ b, leaf.payload = some b → b.length < UInt32.size := by
  obtain ⟨hcount, hitems⟩ := Output.of_toExcept_list_eq_ok h
  refine ⟨hcount, fun leaf hleaf b hb => ?_⟩
  obtain ⟨_, hopened⟩ := hitems leaf hleaf
  obtain ⟨_, _, hpayload, -, -⟩ := Output.toExcept_append_eq_ok_iff.mp hopened
  rw [Binary.writePayload, hb] at hpayload
  obtain ⟨_, _, -, hsized, -⟩ := Output.toExcept_append_eq_ok_iff.mp hpayload
  obtain ⟨_, _, hindex, -, -⟩ := Output.toExcept_append_eq_ok_iff.mp hsized
  exact (Output.toExcept_index_eq_ok_iff.mp hindex).1

/-- The counts of an opening that was written fit their four bytes, and so do its payloads. -/
private theorem lt_of_writeOpening {width : Nat}
    (h : (Binary.writeOpening width o.document).toExcept = .ok bytes) :
    o.indices.length < UInt32.size ∧ o.steps.length < UInt32.size
      ∧ (∀ step ∈ o.steps, step.length < UInt32.size)
      ∧ o.captured.length < UInt32.size ∧ o.current.length < UInt32.size
      ∧ ∀ leaf, leaf ∈ o.captured ∨ leaf ∈ o.current →
        ∀ b, leaf.payload = some b → b.length < UInt32.size := by
  obtain ⟨_, _, h, hcurrent, -⟩ := Output.toExcept_append_eq_ok_iff.mp h
  obtain ⟨_, _, h, hcaptured, -⟩ := Output.toExcept_append_eq_ok_iff.mp h
  obtain ⟨_, _, h, hsteps, -⟩ := Output.toExcept_append_eq_ok_iff.mp h
  obtain ⟨_, _, h, -, -⟩ := Output.toExcept_append_eq_ok_iff.mp h
  obtain ⟨_, _, -, hindices, -⟩ := Output.toExcept_append_eq_ok_iff.mp h
  have hindexCount := (Output.of_toExcept_list_eq_ok hindices).1
  obtain ⟨hstepCount, hslots⟩ := Output.of_toExcept_list_eq_ok hsteps
  rw [document, List.length_map] at hindexCount hstepCount
  have hslotCount : ∀ step ∈ o.steps, step.length < UInt32.size := by
    intro step hstep
    obtain ⟨_, hlist⟩ := hslots _ (List.mem_map_of_mem hstep)
    have hcount := (Output.of_toExcept_list_eq_ok hlist).1
    rwa [List.length_map] at hcount
  obtain ⟨hcapturedCount, hcapturedPayload⟩ := lt_of_writeOpened hcaptured
  obtain ⟨hcurrentCount, hcurrentPayload⟩ := lt_of_writeOpened hcurrent
  refine ⟨hindexCount, hstepCount, hslotCount, hcapturedCount, hcurrentCount, fun leaf hleaf => ?_⟩
  exact hleaf.elim (hcapturedPayload leaf) (hcurrentPayload leaf)

/-- Where an opening was dumped **every number fits** its four bytes. -/
theorem Counted.lt_of_dump {l : Label} {n : Nat} (h : o.Counted e l n)
    (hdump : o.dump e = .ok bytes) : n < UInt32.size := by
  obtain ⟨d, hdocument, hdump⟩ := bind_eq_ok_iff.mp hdump
  obtain ⟨rfl, hindexed⟩ := toDocument_eq_ok_iff.mp hdocument
  -- positions and ranks are checked for the document, but counts only where they are written
  cases h with
  | index hi => exact hindexed.index_lt _ hi
  | rank hstep hslot => exact hindexed.rank_lt _ hstep _ hslot _ rfl
  | indexCount => exact (lt_of_writeOpening hdump).1
  | stepCount => exact (lt_of_writeOpening hdump).2.1
  | slotCount hstep => exact (lt_of_writeOpening hdump).2.2.1 _ hstep
  | capturedCount => exact (lt_of_writeOpening hdump).2.2.2.1
  | currentCount => exact (lt_of_writeOpening hdump).2.2.2.2.1
  | payload hleaf hb => exact (lt_of_writeOpening hdump).2.2.2.2.2 _ hleaf _ hb

/-- A sound opening is dumped **exactly when every number fits** its four bytes. -/
theorem Sound.exists_dump_iff (hsound : o.Sound) :
    (∃ bytes, o.dump e = .ok bytes) ↔ ∀ l n, o.Counted e l n → n < UInt32.size := by
  constructor
  · rintro ⟨bytes, hdump⟩ l n hcounted
    exact hcounted.lt_of_dump hdump
  · intro hfits
    cases hdump : o.dump e with
    | ok bytes => exact ⟨bytes, rfl⟩
    | error fault =>
      obtain ⟨l, n, hcounted, hlarge, -⟩ := hsound.exceeds_of_dump hdump
      exact absurd (hfits l n hcounted) (Nat.not_lt.mpr hlarge)

/-- What was dumped as a JSON text is read as the document of the opening. -/
theorem load_json (d : OpeningDocument) (requested : Option Algorithm)
    (hversion : d.version = formatVersion) :
    load (Bytes.ofText (Textual.ofOpening d).compact) .json requested
      = resolve .proof d.algorithm requested fun a => d.restore a := by
  have htext : readText .proof Textual.readOpening (Bytes.ofText (Textual.ofOpening d).compact)
      = .ok d := by
    rw [readText, Bytes.toText?_eq_some_iff.mpr rfl, Option.bind_some,
      Textual.readOpening_parse?_compact]
  have hcurrent : requireVersion .proof d.version = .ok () := if_pos hversion
  unfold load
  rw [htext, ok_bind, hcurrent, ok_bind]

/-- Bytes are loaded when the document makes sense **under the algorithm that it names**. -/
theorem load_of_read {d : OpeningDocument} {a : Algorithm} {requested : Option Algorithm}
    (hread : (Binary.readOpening a.digestSize).run bytes = .ok d)
    (hname : Algorithm.ofName? d.algorithm = some a) (hrestore : d.restore a = .ok o)
    (hrequested : requested = none ∨ requested = some a) :
    load bytes .binary requested = .ok o := by
  -- the head is read alone for the algorithm, whose width the whole is then read with
  have hhead := Binary.readHead_run_of_writeOpening (Binary.readOpening_run_eq_ok_iff.mp hread).2
  unfold load
  dsimp only
  rw [hhead, ok_bind]
  apply resolve_named hname _ hrequested
  rw [hread, ok_bind]
  exact hrestore

/-- **What was dumped is loaded again**, with or without a request for the algorithm. -/
theorem Sound.load_of_dump (hsound : o.Sound) (h : o.dump e = .ok bytes)
    {requested : Option Algorithm} (hrequested : requested = none ∨ requested = some o.algorithm) :
    load bytes e requested = .ok o := by
  obtain ⟨d, hdocument, h⟩ := bind_eq_ok_iff.mp h
  obtain ⟨rfl, hindexed⟩ := toDocument_eq_ok_iff.mp hdocument
  have hname : Algorithm.ofName? o.document.algorithm = some o.algorithm :=
    o.algorithm.ofName?_name
  have hrestore := hsound.restore_document hindexed
  cases e with
  | json =>
    obtain rfl := pure_eq_ok_iff.mp h
    rw [load_json o.document requested rfl]
    exact resolve_named hname hrestore hrequested
  | binary =>
    have hread := Binary.readOpening_run_eq_ok_iff.mpr ⟨rfl, h⟩
    exact load_of_read hread hname hrestore hrequested

end Opening

/-! ## §4 Openings of trees -/

namespace Tree

variable {t : Tree} {r : Rose} {indices : List Nat} {o : Opening} {leaves : List Opened}
  {e : Encoding}

/-- There are no more leaves than nodes. -/
theorem Unfolds.leafCount_le (u : t.Unfolds r) : t.leafCount ≤ t.nodes.size := by
  rw [← length_links]
  refine length_le_of_nodup u.leaves_nodup fun i hi => ?_
  exact ((u.mem_leaves i).mp (Array.mem_toList_iff.mp hi)).1

/-- An opening has no more steps than the tree has nodes. -/
theorem Unfolds.length_stepsFrom_le (u : t.Unfolds r) (selected : List Nat) :
    (t.stepsFrom selected).length ≤ t.nodes.size := by
  rw [stepsFrom, List.length_map, u.postorder_eq, ← length_links]
  exact (List.length_filter_le ..).trans (u.planted.length_postorder_le u.follows)

/-- A step has no more slots than the tree has nodes. -/
theorem Unfolds.length_step_le (u : t.Unfolds r) {selected : List Nat} {step : Step}
    (hstep : step ∈ t.stepsFrom selected) : step.length ≤ t.nodes.size := by
  obtain ⟨i, -, rfl⟩ := List.mem_map.mp hstep
  rw [List.length_map, childrenAt_eq, ← length_links]
  exact length_le_of_nodup (Links.nodup_below u.planted.nodup_flatten i) fun _ => u.planted.child_lt

/-- The positions, ranks and counts of an opening are no larger than the number of the tree's nodes,
whatever leaves the opening has been given. -/
theorem Made.le_of_counted (h : t.Made) (ho : t.openAt indices = .ok o)
    (hlength : leaves.length = o.indices.length) {l : Label} {n : Nat}
    (hcounted : Opening.Counted { o with current := leaves } e l n) :
    n ≤ t.nodes.size ∨ ∃ leaf, (leaf ∈ o.captured ∨ leaf ∈ leaves)
      ∧ ∃ b, leaf.payload = some b ∧ b.length = n := by
  have hsound := h.sound_of_openAt ho
  obtain ⟨expected, -, hne, hlt, rfl⟩ := openAt_eq_ok_iff.mp ho
  obtain ⟨r, u, -⟩ := h.exists_openAt hne hlt
  have hpositions : ∀ p ∈ selection indices, p < t.leafCount :=
    fun p hp => hlt p (mem_selection.mp hp)
  have hcount : (selection indices).length ≤ t.nodes.size :=
    (length_le_of_nodup (selection_nodup indices) hpositions).trans u.leafCount_le
  cases hcounted with
  | index hi => exact .inl ((Nat.le_of_lt (hpositions _ hi)).trans u.leafCount_le)
  | rank hstep hslot =>
    have hrank := hsound.slots _ hstep _ hslot
    exact .inl ((Nat.le_of_lt hrank).trans hcount)
  | indexCount => exact .inl hcount
  | stepCount => exact .inl (u.length_stepsFrom_le _)
  | slotCount hstep => exact .inl (u.length_step_le hstep)
  | capturedCount => exact .inl (hsound.length_captured.trans_le hcount)
  | currentCount => exact .inl (hlength.trans_le hcount)
  | payload hleaf hb => exact .inr ⟨_, hleaf, _, hb, rfl⟩

/-- An opening of a tree is dumped in **every encoding**, whatever leaves it has been given, unless
the tree has `2 ^ 32` nodes or a leaf has a payload of so many bytes. -/
theorem Made.exists_dump_of_openAt (h : t.Made) (ho : t.openAt indices = .ok o)
    (hlength : leaves.length = o.indices.length) (hleaves : ∀ leaf ∈ leaves, leaf.Sound o.algorithm)
    (hsize : t.nodes.size < UInt32.size)
    (hpayload : ∀ leaf, leaf ∈ o.captured ∨ leaf ∈ leaves →
      ∀ b, leaf.payload = some b → b.length < UInt32.size) (e : Encoding) :
    ∃ bytes, Opening.dump { o with current := leaves } e = .ok bytes := by
  have hsound : Opening.Sound { o with current := leaves } :=
    { h.sound_of_openAt ho with length_current := hlength, current := hleaves }
  apply hsound.exists_dump_iff.mpr
  intro l n hcounted
  rcases h.le_of_counted ho hlength hcounted with hle | ⟨leaf, hleaf, b, hb, rfl⟩
  · exact Nat.lt_of_le_of_lt hle hsize
  · exact hpayload leaf hleaf b hb

/-- The second of three items can be opened, and has a payload of one byte at most. -/
theorem exists_openAt_three : ∃ o, (Tree.ofItems .sha1 true [[], [2], [3]]).openAt [1] = .ok o
    ∧ o.algorithm = .sha1 ∧ o.indices = [1] ∧ o.current = o.captured
    ∧ ∀ leaf ∈ o.captured, ∀ b, leaf.payload = some b → b.length < UInt32.size := by
  have hmade := ofItems_made .sha1 true [[], [2], [3]]
  have hlt : ∀ p ∈ [1], p < (Tree.ofItems .sha1 true [[], [2], [3]]).leafCount := by
    simp [leafCount, leaves_ofItems]
  obtain ⟨r, u, hopen⟩ := hmade.exists_openAt (by simp) hlt
  refine ⟨_, hopen, algorithm_ofItems _ _, selection_singleton 1, rfl, fun leaf hleaf b hb => ?_⟩
  -- the payload is one of the tree's
  obtain ⟨n, hn, rfl⟩ := List.mem_map.mp hleaf
  obtain ⟨i, -, hi⟩ := List.mem_filterMap.mp hn
  exact ofItems_three_fits.2 n (Array.mem_of_getElem? hi) b hb

end Tree

/-! ## §5 Reachable openings -/

namespace Opening

/-- **Dumping and loading** a reachable opening. It is dumped exactly when every position, rank,
count and length fits its four bytes; else the fault names the field of one that does not. From the
bytes that are dumped the same opening is loaded, with or without a request for its algorithm, so it
is judged as it was before. -/
theorem Reachable.roundTrip {o : Opening} (h : o.Reachable) (e : Encoding) :
    ((∃ bytes, o.dump e = .ok bytes) ↔ ∀ l n, o.Counted e l n → n < UInt32.size)
      ∧ (∀ fault, o.dump e = .error fault →
        ∃ l n, o.Counted e l n ∧ UInt32.size ≤ n ∧ fault = l.invalidLength)
      ∧ ∀ bytes, o.dump e = .ok bytes →
        load bytes e none = .ok o ∧ load bytes e (some o.algorithm) = .ok o
        ∧ ∀ p, load bytes e none = .ok p ∨ load bytes e (some o.algorithm) = .ok p →
          p.valid = o.valid ∧ p.check = o.check ∧ p.computeRoot = o.computeRoot := by
  refine ⟨h.sound.exists_dump_iff, fun fault hdump => h.sound.exceeds_of_dump hdump,
    fun bytes hdump => ?_⟩
  have hnone := h.sound.load_of_dump hdump (.inl rfl)
  have hsome := h.sound.load_of_dump hdump (.inr rfl)
  refine ⟨hnone, hsome, fun p hp => ?_⟩
  -- whatever is loaded is the opening that was dumped
  obtain rfl : o = p := by
    rcases hp with hp | hp
    · exact Except.ok.inj (hnone.symm.trans hp)
    · exact Except.ok.inj (hsome.symm.trans hp)
  exact ⟨rfl, rfl, rfl⟩

/-- The second of three items is opened and replaced. The opening is then dumped in both encodings,
and loaded again with the new leaf and the old one. -/
theorem Reachable.roundTrip_three : ∃ o p,
    (Tree.ofItems .sha1 true [[], [2], [3]]).openAt [1] = .ok o ∧ o.update [[4]] = .ok p
      ∧ (∃ bytes, p.dump .json = .ok bytes ∧ load bytes .json none = .ok p)
      ∧ ∃ bytes, p.dump .binary = .ok bytes ∧ load bytes .binary (some .sha1) = .ok p := by
  have ht : (Tree.ofItems .sha1 true [[], [2], [3]]).Reachable := .ofItems _ _ _
  obtain ⟨hsize, hpayload⟩ := Tree.ofItems_three_fits
  have hlt : ∀ p ∈ [1], p < (Tree.ofItems .sha1 true [[], [2], [3]]).leafCount := by
    simp [Tree.leafCount, Tree.leaves_ofItems]
  obtain ⟨r, u, hopen⟩ := ht.made.exists_openAt (by simp) hlt
  generalize ho : Tree.opening _ _ _ = o at hopen
  have halgorithm : o.algorithm = .sha1 := by
    rw [← ho]
    exact Tree.algorithm_ofItems _ _
  have hindices : o.indices = [1] := by
    rw [← ho]
    exact Tree.selection_singleton 1
  have hcount : ([[4]] : List Bytes).length = o.indices.length := by rw [hindices]; rfl
  have hupdate := update_eq_ok hcount
  refine ⟨o, _, hopen, hupdate, ?_⟩
  -- the captured payload is one of the tree's, and the new one has a single byte
  have hsmall : ∀ leaf, leaf ∈ o.captured
      ∨ leaf ∈ [[4]].map (fun b => Opened.mk (some b) (o.algorithm.digest b)) →
      ∀ b, leaf.payload = some b → b.length < UInt32.size := by
    rintro leaf (hleaf | hleaf) b hb
    · rw [← ho] at hleaf
      obtain ⟨n, hn, rfl⟩ := List.mem_map.mp hleaf
      obtain ⟨i, -, hi⟩ := List.mem_filterMap.mp hn
      exact hpayload n (Array.mem_of_getElem? hi) b hb
    · obtain rfl := List.mem_singleton.mp hleaf
      obtain rfl := Option.some.inj hb
      decide
  have hchanged := Changed.payloads hupdate
  have hreachable := Reachable.changed (.opened ht hopen) hchanged
  have hdump := ht.made.exists_dump_of_openAt hopen (by rwa [List.length_map])
    hreachable.sound.current hsize hsmall
  obtain ⟨text, htext⟩ := hdump .json
  obtain ⟨bytes, hbytes⟩ := hdump .binary
  have hbinary := ((Reachable.roundTrip hreachable .binary).2.2 bytes hbytes).2.1
  rw [← halgorithm]
  exact ⟨⟨text, htext, ((Reachable.roundTrip hreachable .json).2.2 text htext).1⟩, bytes, hbytes,
    hbinary⟩

end Opening

end HashTree
