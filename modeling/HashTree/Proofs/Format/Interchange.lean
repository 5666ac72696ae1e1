import HashTree.Proofs.Format.Faithful

/-!
# Interchange of the encodings

A document can be put down as a JSON text and, if its digests have the width of an algorithm and its
counts and lengths fit four bytes, as bytes. Under a request for that algorithm both are judged
**alike**: whether the document makes sense or not, the two encodings give the same tree or the same
fault. Without a request they need not, since the bytes are then read with other widths, too.
-/

namespace HashTree

open Outcome

/-! ## §1 Values that have bytes -/

namespace Grammar

variable {α : Type} {item : Rule α} {width : Nat}

/-- A rule has some bytes for the value. -/
def Spelled (rule : Rule α) (a : α) : Prop := ∃ bytes, rule a bytes

@[simp]
theorem spelled_number_iff {n : Nat} : Spelled Number n ↔ n < UInt32.size := by
  simp [Spelled, number_iff]

@[simp]
theorem spelled_index (n : UInt32) : Spelled Index n :=
  spelled_number_iff.mpr n.toNat_lt_size

@[simp]
theorem spelled_sized_iff {payload : Bytes} :
    Spelled Sized payload ↔ payload.length < UInt32.size := by
  rw [← spelled_number_iff]
  constructor
  · intro h
    obtain ⟨_, ⟨hcount⟩⟩ := h
    exact ⟨_, hcount⟩
  · intro h
    obtain ⟨_, hcount⟩ := h
    exact ⟨_, Sized.intro hcount⟩

@[simp]
theorem spelled_fixed_iff {d : Bytes} : Spelled (Fixed width) d ↔ d.length = width := by
  constructor
  · intro h
    obtain ⟨_, ⟨hlength⟩⟩ := h
    exact hlength
  · intro h
    exact ⟨d, Fixed.intro h⟩

@[simp]
theorem spelled_optional_iff {a : Option α} :
    Spelled (Optional item) a ↔ ∀ b ∈ a, Spelled item b := by
  cases a with
  | none =>
    have habsent : Spelled (Optional item) none := ⟨_, Optional.absent⟩
    simp [habsent]
  | some b =>
    simp only [Option.mem_some_iff, forall_eq']
    constructor
    · intro h
      obtain ⟨_, h⟩ := h
      cases h with
      | present hb => exact ⟨_, hb⟩
    · intro h
      obtain ⟨_, hb⟩ := h
      exact ⟨_, Optional.present hb⟩

@[simp]
theorem spelled_each_iff {items : List α} :
    Spelled (Each item) items ↔ ∀ a ∈ items, Spelled item a := by
  induction items with
  | nil =>
    have hnil : Spelled (Each item) [] := ⟨_, Each.nil⟩
    simp [hnil]
  | cons a items ih =>
    rw [List.forall_mem_cons, ← ih]
    constructor
    · intro h
      obtain ⟨_, h⟩ := h
      cases h with
      | cons ha hitems => exact ⟨⟨_, ha⟩, ⟨_, hitems⟩⟩
    · intro h
      obtain ⟨⟨_, ha⟩, ⟨_, hitems⟩⟩ := h
      exact ⟨_, Each.cons ha hitems⟩

@[simp]
theorem spelled_counted_iff {items : List α} : Spelled (Counted item) items
    ↔ items.length < UInt32.size ∧ ∀ a ∈ items, Spelled item a := by
  rw [← spelled_number_iff, ← spelled_each_iff]
  constructor
  · intro h
    obtain ⟨_, ⟨hcount, hitems⟩⟩ := h
    exact ⟨⟨_, hcount⟩, ⟨_, hitems⟩⟩
  · intro h
    obtain ⟨⟨_, hcount⟩, ⟨_, hitems⟩⟩ := h
    exact ⟨_, Counted.intro hcount hitems⟩

@[simp]
theorem spelled_head_iff {tag : UInt8} {name : String} :
    Spelled (Head tag) name ↔ (Bytes.ofText name).length < UInt32.size := by
  rw [← spelled_sized_iff]
  constructor
  · intro h
    obtain ⟨_, ⟨hname⟩⟩ := h
    exact ⟨_, hname⟩
  · intro h
    obtain ⟨_, hname⟩ := h
    exact ⟨_, Head.intro hname⟩

end Grammar

/-! ## §2 Documents that fit -/

/-- The length of a payload fits four bytes, if there is one. -/
def PayloadFits (payload : Option Bytes) : Prop :=
  ∀ b ∈ payload, b.length < UInt32.size

/-- A node has a digest of the width, and its payload and its children can be counted. -/
structure NodeDocument.Fits (width : Nat) (n : NodeDocument) : Prop where
  length_digest : n.digest.length = width
  payload : PayloadFits n.payload
  childCount_lt : n.children.length < UInt32.size

/-- The digests of a tree have the width, and its counts and lengths fit four bytes. It need not
make sense in any other way. -/
structure TreeDocument.Fits (width : Nat) (d : TreeDocument) : Prop where
  nameLength_lt : (Bytes.ofText d.algorithm).length < UInt32.size
  leafCount_lt : d.leaves.length < UInt32.size
  nodeCount_lt : d.nodes.length < UInt32.size
  nodes : ∀ n ∈ d.nodes, n.Fits width

/-- A sibling has a digest of the width. -/
def SlotDocument.Fits (width : Nat) (slot : SlotDocument) : Prop :=
  ∀ digest, slot = .sibling digest → digest.length = width

/-- A leaf has a digest of the width and a payload whose length fits. -/
structure Opened.Fits (width : Nat) (leaf : Opened) : Prop where
  payload : PayloadFits leaf.payload
  length_digest : leaf.digest.length = width

/-- The digests of an opening have the width, and its counts and lengths fit four bytes. It need not
make sense in any other way. -/
structure OpeningDocument.Fits (width : Nat) (d : OpeningDocument) : Prop where
  nameLength_lt : (Bytes.ofText d.algorithm).length < UInt32.size
  indexCount_lt : d.indices.length < UInt32.size
  length_expected : d.expected.length = width
  stepCount_lt : d.steps.length < UInt32.size
  slotCount_lt : ∀ step ∈ d.steps, step.length < UInt32.size
  slots : ∀ step ∈ d.steps, ∀ slot ∈ step, slot.Fits width
  capturedCount_lt : d.captured.length < UInt32.size
  captured : ∀ leaf ∈ d.captured, leaf.Fits width
  currentCount_lt : d.current.length < UInt32.size
  current : ∀ leaf ∈ d.current, leaf.Fits width

namespace Grammar

variable {width : Nat}

theorem spelled_payload_iff {payload : Option Bytes} :
    Spelled (Optional Sized) payload ↔ PayloadFits payload := by
  simp [PayloadFits]

@[simp]
theorem spelled_node_iff {n : NodeDocument} : Spelled (Node width) n ↔ n.Fits width := by
  constructor
  · intro h
    obtain ⟨_, ⟨hdigest, hpayload, hchildren⟩⟩ := h
    constructor
    · exact spelled_fixed_iff.mp ⟨_, hdigest⟩
    · exact spelled_payload_iff.mp ⟨_, hpayload⟩
    · exact (spelled_counted_iff.mp ⟨_, hchildren⟩).1
  · intro h
    obtain ⟨_, hdigest⟩ := spelled_fixed_iff.mpr h.length_digest
    obtain ⟨_, hpayload⟩ := spelled_payload_iff.mpr h.payload
    obtain ⟨_, hchildren⟩ : Spelled (Counted Index) n.children := by
      simp [h.childCount_lt]
    exact ⟨_, Node.intro hdigest hpayload hchildren⟩

/-- A tree of the current version has bytes **exactly when it fits**. -/
theorem spelled_tree_iff {d : TreeDocument} (hversion : d.version = formatVersion) :
    Spelled (Tree width) d ↔ d.Fits width := by
  constructor
  · intro h
    obtain ⟨_, ⟨hname, -, hleaves, hnodes⟩⟩ := h
    have hnodes := spelled_counted_iff.mp ⟨_, hnodes⟩
    constructor
    · exact spelled_head_iff.mp ⟨_, hname⟩
    · exact (spelled_counted_iff.mp ⟨_, hleaves⟩).1
    · exact hnodes.1
    · intro n hn
      exact spelled_node_iff.mp (hnodes.2 n hn)
  · intro h
    obtain ⟨version, name, root, leaves, nodes⟩ := d
    obtain rfl : version = formatVersion := hversion
    obtain ⟨_, hname⟩ : Spelled (Head 1) name := spelled_head_iff.mpr h.nameLength_lt
    obtain ⟨_, hroot⟩ : Spelled (Optional Index) root := by simp
    obtain ⟨_, hleaves⟩ : Spelled (Counted Index) leaves := by
      simpa using h.leafCount_lt
    obtain ⟨_, hnodes⟩ : Spelled (Counted (Node width)) nodes := by
      simpa using ⟨h.nodeCount_lt, h.nodes⟩
    exact ⟨_, Tree.intro hname hroot hleaves hnodes⟩

@[simp]
theorem spelled_slot_iff {slot : SlotDocument} : Spelled (Slot width) slot ↔ slot.Fits width := by
  unfold SlotDocument.Fits
  cases slot with
  | sibling digest =>
    simp only [SlotDocument.sibling.injEq, forall_eq']
    rw [← spelled_fixed_iff]
    constructor
    · intro h
      obtain ⟨_, ⟨hdigest⟩⟩ := h
      exact ⟨_, hdigest⟩
    · intro h
      obtain ⟨_, hdigest⟩ := h
      exact ⟨_, Slot.sibling hdigest⟩
  | leaf rank =>
    obtain ⟨_, hrank⟩ := spelled_index rank
    have hleaf : Spelled (Slot width) (.leaf rank) := ⟨_, Slot.leaf hrank⟩
    simp [hleaf]
  | child =>
    have hchild : Spelled (Slot width) .child := ⟨_, Slot.child⟩
    simp [hchild]

@[simp]
theorem spelled_leaf_iff {leaf : Opened} : Spelled (Leaf width) leaf ↔ leaf.Fits width := by
  constructor
  · intro h
    obtain ⟨_, ⟨hpayload, hdigest⟩⟩ := h
    exact ⟨spelled_payload_iff.mp ⟨_, hpayload⟩, spelled_fixed_iff.mp ⟨_, hdigest⟩⟩
  · intro h
    obtain ⟨_, hpayload⟩ := spelled_payload_iff.mpr h.payload
    obtain ⟨_, hdigest⟩ := spelled_fixed_iff.mpr h.length_digest
    exact ⟨_, Leaf.intro hpayload hdigest⟩

/-- An opening of the current version has bytes **exactly when it fits**. -/
theorem spelled_opening_iff {d : OpeningDocument} (hversion : d.version = formatVersion) :
    Spelled (Opening width) d ↔ d.Fits width := by
  constructor
  · intro h
    obtain ⟨_, ⟨hname, hindices, hexpected, hsteps, hcaptured, hcurrent⟩⟩ := h
    have hsteps := spelled_counted_iff.mp ⟨_, hsteps⟩
    have hcaptured := spelled_counted_iff.mp ⟨_, hcaptured⟩
    have hcurrent := spelled_counted_iff.mp ⟨_, hcurrent⟩
    simp only [spelled_counted_iff, spelled_slot_iff, spelled_leaf_iff] at hsteps hcaptured hcurrent
    exact {
      nameLength_lt := spelled_head_iff.mp ⟨_, hname⟩
      indexCount_lt := (spelled_counted_iff.mp ⟨_, hindices⟩).1
      length_expected := spelled_fixed_iff.mp ⟨_, hexpected⟩
      stepCount_lt := hsteps.1
      slotCount_lt := fun step hstep => (hsteps.2 step hstep).1
      slots := fun step hstep => (hsteps.2 step hstep).2
      capturedCount_lt := hcaptured.1
      captured := hcaptured.2
      currentCount_lt := hcurrent.1
      current := hcurrent.2 }
  · intro h
    obtain ⟨version, name, indices, expected, steps, captured, current⟩ := d
    obtain rfl : version = formatVersion := hversion
    obtain ⟨_, hname⟩ : Spelled (Head 2) name := spelled_head_iff.mpr h.nameLength_lt
    obtain ⟨_, hindices⟩ : Spelled (Counted Index) indices := by
      simpa using h.indexCount_lt
    obtain ⟨_, hexpected⟩ : Spelled (Fixed width) expected :=
      spelled_fixed_iff.mpr h.length_expected
    obtain ⟨_, hsteps⟩ : Spelled (Counted (Counted (Slot width))) steps := by
      simp only [spelled_counted_iff, spelled_slot_iff]
      exact ⟨h.stepCount_lt, fun step hstep => ⟨h.slotCount_lt step hstep, h.slots step hstep⟩⟩
    obtain ⟨_, hcaptured⟩ : Spelled (Counted (Leaf width)) captured := by
      simpa using ⟨h.capturedCount_lt, h.captured⟩
    obtain ⟨_, hcurrent⟩ : Spelled (Counted (Leaf width)) current := by
      simpa using ⟨h.currentCount_lt, h.current⟩
    exact ⟨_, Opening.intro hname hindices hexpected hsteps hcaptured hcurrent⟩

end Grammar

/-! ## §3 Loading what was written -/

/-- Under a request only what the requested algorithm makes of a document **matters**. -/
theorem resolve_some_congr {α : Type} {place : Section} {named : String} {a : Algorithm}
    {attempt attempt' : Algorithm → Except FormatError α} (h : attempt a = attempt' a) :
    resolve place named (some a) attempt = resolve place named (some a) attempt' := by
  unfold resolve
  dsimp only
  rw [h]

/-- The bytes of a document are judged as the document is. -/
theorem Tree.load_of_writeTree {d : TreeDocument} {a : Algorithm} {bytes : Bytes}
    (hversion : d.version = formatVersion)
    (h : (Binary.writeTree a.digestSize d).toExcept = .ok bytes) :
    load bytes .binary (some a) = resolve .tree d.algorithm (some a) fun a => d.restore a := by
  have hread : (Binary.readTree a.digestSize).run bytes = .ok d :=
    Binary.readTree_run_eq_ok_iff.mpr ⟨hversion, h⟩
  unfold load
  dsimp only
  rw [Binary.readHead_run_of_writeTree h, ok_bind]
  apply resolve_some_congr
  rw [hread, ok_bind]

/-- The bytes of a document are judged as the document is. -/
theorem Opening.load_of_writeOpening {d : OpeningDocument} {a : Algorithm} {bytes : Bytes}
    (hversion : d.version = formatVersion)
    (h : (Binary.writeOpening a.digestSize d).toExcept = .ok bytes) :
    load bytes .binary (some a) = resolve .proof d.algorithm (some a) fun a => d.restore a := by
  have hread : (Binary.readOpening a.digestSize).run bytes = .ok d :=
    Binary.readOpening_run_eq_ok_iff.mpr ⟨hversion, h⟩
  unfold load
  dsimp only
  rw [Binary.readHead_run_of_writeOpening h, ok_bind]
  apply resolve_some_congr
  rw [hread, ok_bind]

/-- **The encodings accept and reject alike.** Take any document of the current version, sensible or
not and under any name. It has bytes for the width of an algorithm exactly when it fits, and then
its JSON text and its bytes give the same tree or the same fault under a request for this algorithm.
The same holds of openings. -/
theorem load_interchange (a : Algorithm) :
    (∀ d : TreeDocument, d.version = formatVersion →
        ((∃ bytes, (Binary.writeTree a.digestSize d).toExcept = .ok bytes) ↔ d.Fits a.digestSize)
        ∧ ∀ bytes, (Binary.writeTree a.digestSize d).toExcept = .ok bytes →
          Tree.load (Bytes.ofText (Textual.ofTree d).compact) .json (some a)
            = Tree.load bytes .binary (some a))
      ∧ ∀ d : OpeningDocument, d.version = formatVersion →
        ((∃ bytes, (Binary.writeOpening a.digestSize d).toExcept = .ok bytes)
          ↔ d.Fits a.digestSize)
        ∧ ∀ bytes, (Binary.writeOpening a.digestSize d).toExcept = .ok bytes →
          Opening.load (Bytes.ofText (Textual.ofOpening d).compact) .json (some a)
            = Opening.load bytes .binary (some a) := by
  constructor
  · intro d hversion
    constructor
    · simp only [Grammar.follows_tree hversion]
      exact Grammar.spelled_tree_iff hversion
    · intro bytes hbytes
      rw [Tree.load_json d _ hversion, Tree.load_of_writeTree hversion hbytes]
  · intro d hversion
    constructor
    · simp only [Grammar.follows_opening hversion]
      exact Grammar.spelled_opening_iff hversion
    · intro bytes hbytes
      rw [Opening.load_json d _ hversion, Opening.load_of_writeOpening hversion hbytes]

/-- A branch that keeps a payload, and an opening of nothing under an unknown name. In both
encodings the one is refused for the payload and the other for the name. -/
theorem load_interchange_broken :
    (∃ bytes, (Binary.writeTree 20
          ⟨1, "SHA-1", some 0, [7], [⟨List.replicate 20 0, some [9], [5, 5]⟩]⟩).toExcept = .ok bytes
        ∧ Tree.load bytes .binary (some .sha1) = .error ⟨.node, .inconsistent .internalPayload⟩)
      ∧ ∃ bytes, (Binary.writeOpening 32
          ⟨1, "md5", [], List.replicate 32 0, [[]], [], []⟩).toExcept = .ok bytes
        ∧ Opening.load bytes .binary (some .blake2s)
          = .error ⟨.proof, .otherAlgorithm "blake2s" "md5"⟩ := by
  constructor
  · obtain ⟨hspelled, halike⟩ := (load_interchange .sha1).1
      ⟨1, "SHA-1", some 0, [7], [⟨List.replicate 20 0, some [9], [5, 5]⟩]⟩ rfl
    have hfits : TreeDocument.Fits 20
        ⟨1, "SHA-1", some 0, [7], [⟨List.replicate 20 0, some [9], [5, 5]⟩]⟩ := by
      constructor
      · decide
      · decide
      · decide
      · intro n hn
        obtain rfl := List.mem_singleton.mp hn
        constructor
        · rfl
        · intro b hb
          obtain rfl := Option.some.inj hb
          decide
        · decide
    obtain ⟨bytes, hbytes⟩ := hspelled.mpr hfits
    refine ⟨bytes, hbytes, ?_⟩
    rw [← halike bytes hbytes, Tree.load_json _ _ rfl]
    decide
  · obtain ⟨hspelled, halike⟩ := (load_interchange .blake2s).2
      ⟨1, "md5", [], List.replicate 32 0, [[]], [], []⟩ rfl
    have hfits : OpeningDocument.Fits 32 ⟨1, "md5", [], List.replicate 32 0, [[]], [], []⟩ := by
      constructor <;> simp
      all_goals decide
    obtain ⟨bytes, hbytes⟩ := hspelled.mpr hfits
    refine ⟨bytes, hbytes, ?_⟩
    rw [← halike bytes hbytes, Opening.load_json _ _ rfl]
    decide

end HashTree
