import HashTree.Proofs.Format.Binary
import HashTree.Proofs.Wire.Grammar
import Mathlib.Logic.Relator

/-!
# The grammar of documents as bytes

The layout of a document, as rules. All numbers have four bytes but for the version, which has two,
and the tags and flags, which have one.

* A document is its version, the tag of its kind, the sized name of its algorithm, and a body.
* The body of a tree is an optional root, the counted leaves and the counted nodes. A node is its
  digest, an optional sized payload and its counted children.
* The body of an opening is the counted positions, the expected digest, the counted steps, and twice
  the counted leaves. A step is its counted slots, each behind a tag. A leaf is an optional sized
  payload and its digest.

The readers and the writers of documents both keep to these rules, so the format is **canonical**: no
byte string has two documents, and no document has two byte strings.
-/

namespace HashTree

namespace Grammar

/-! ## §1 Documents -/

/-- The version, the tag of a kind and the sized name of an algorithm. -/
inductive Head (tag : UInt8) : Rule String where
  | intro {name : String} {x : Bytes} (hname : Sized (Bytes.ofText name) x) :
    Head tag name ([1, 0] ++ [tag] ++ x)

/-- A digest, an optional payload and the children. -/
inductive Node (width : Nat) : Rule NodeDocument where
  | intro {digest : Digest} {payload : Option Bytes} {children : List UInt32} {x y z : Bytes}
    (hdigest : Fixed width digest x) (hpayload : Optional Sized payload y)
    (hchildren : Counted Index children z) : Node width ⟨digest, payload, children⟩ (x ++ y ++ z)

/-- The head of a tree, its root, its leaves and its nodes. -/
inductive Tree (width : Nat) : Rule TreeDocument where
  | intro {name : String} {root : Option UInt32} {leaves : List UInt32} {nodes : List NodeDocument}
    {w x y z : Bytes} (hname : Head 1 name w) (hroot : Optional Index root x)
    (hleaves : Counted Index leaves y) (hnodes : Counted (Node width) nodes z) :
    Tree width ⟨1, name, root, leaves, nodes⟩ (w ++ x ++ y ++ z)

/-- A slot behind the tag of its kind. -/
inductive Slot (width : Nat) : Rule SlotDocument where
  | sibling {digest : Digest} {x : Bytes} (h : Fixed width digest x) :
    Slot width (.sibling digest) ([0] ++ x)
  | leaf {rank : UInt32} {x : Bytes} (h : Index rank x) : Slot width (.leaf rank) ([1] ++ x)
  | child : Slot width .child [2]

/-- An optional payload and a digest. -/
inductive Leaf (width : Nat) : Rule Opened where
  | intro {payload : Option Bytes} {digest : Digest} {x y : Bytes}
    (hpayload : Optional Sized payload x) (hdigest : Fixed width digest y) :
    Leaf width ⟨payload, digest⟩ (x ++ y)

/-- The head of an opening, its positions, the expected digest, its steps and its leaves, first as
they were and then as they stand now. -/
inductive Opening (width : Nat) : Rule OpeningDocument where
  | intro {name : String} {indices : List UInt32} {expected : Digest}
    {steps : List (List SlotDocument)} {captured current : List Opened} {u v w x y z : Bytes}
    (hname : Head 2 name u) (hindices : Counted Index indices v) (hexpected : Fixed width expected w)
    (hsteps : Counted (Counted (Slot width)) steps x) (hcaptured : Counted (Leaf width) captured y)
    (hcurrent : Counted (Leaf width) current z) :
    Opening width ⟨1, name, indices, expected, steps, captured, current⟩ (u ++ v ++ w ++ x ++ y ++ z)

open Binary Output

variable {width : Nat} {bytes : Bytes}

/-! ## §2 The writers follow the grammar -/

/-- The version and the tag are always written. -/
private theorem toExcept_front (kind : Kind) :
    (u16 formatVersion ++ u8 kind.tag).toExcept = .ok ([1, 0] ++ [kind.tag]) := by
  cases kind <;> rfl

theorem follows_head {kind : Kind} : Follows (writeHead kind) (Head kind.tag) := by
  intro name bytes
  unfold writeHead
  rw [toExcept_append_eq_ok_iff]
  simp only [toExcept_front, Except.ok.injEq]
  constructor
  · intro h
    obtain ⟨_, x, rfl, hx, rfl⟩ := h
    apply Head.intro
    exact follows_sized.mp hx
  · intro h
    cases h with
    | intro hname => exact ⟨_, _, rfl, follows_sized.mpr hname, rfl⟩

theorem follows_payload {place : Section} : Follows (writePayload place) (Optional Sized) :=
  follows_sized.option

theorem follows_indices {l : Label} : Follows (writeIndices l) (Counted Index) :=
  follows_u32.list

theorem follows_node : Follows (writeNode width) (Node width) := by
  intro n bytes
  simp only [writeNode, toExcept_append_eq_ok_iff]
  constructor
  · intro h
    obtain ⟨_, z, ⟨x, y, hx, hy, rfl⟩, hz, rfl⟩ := h
    apply Node.intro
    · exact follows_digest.mp hx
    · exact follows_payload.mp hy
    · exact follows_indices.mp hz
  · intro h
    cases h with
    | intro hdigest hpayload hchildren =>
      exact ⟨_, _, ⟨_, _, follows_digest.mpr hdigest, follows_payload.mpr hpayload, rfl⟩,
        follows_indices.mpr hchildren, rfl⟩

/-- A writer puts the current version, whatever the document says. -/
theorem follows_tree {d : TreeDocument} (hversion : d.version = formatVersion) :
    (writeTree width d).toExcept = .ok bytes ↔ Tree width d bytes := by
  simp only [writeTree, toExcept_append_eq_ok_iff]
  constructor
  · intro h
    obtain ⟨_, z, ⟨_, y, ⟨w, x, hw, hx, rfl⟩, hy, rfl⟩, hz, rfl⟩ := h
    obtain ⟨version, name, root, leaves, nodes⟩ := d
    obtain rfl : version = formatVersion := hversion
    apply Tree.intro
    · exact follows_head.mp hw
    · exact follows_u32.option.mp hx
    · exact follows_indices.mp hy
    · exact follows_node.list.mp hz
  · intro h
    cases h with
    | intro hname hroot hleaves hnodes =>
      have hw : (writeHead .tree _).toExcept = .ok _ := follows_head.mpr hname
      exact ⟨_, _, ⟨_, _, ⟨_, _, hw, follows_u32.option.mpr hroot, rfl⟩,
        follows_indices.mpr hleaves, rfl⟩, follows_node.list.mpr hnodes, rfl⟩

theorem follows_slot : Follows (writeSlot width) (Slot width) := by
  intro slot bytes
  constructor
  · intro h
    cases slot with
    | sibling digest =>
      obtain ⟨_, x, htag, hx, rfl⟩ := toExcept_append_eq_ok_iff.mp h
      obtain rfl := Except.ok.inj htag
      apply Slot.sibling
      exact follows_digest.mp hx
    | leaf rank =>
      obtain ⟨_, x, htag, hx, rfl⟩ := toExcept_append_eq_ok_iff.mp h
      obtain rfl := Except.ok.inj htag
      apply Slot.leaf
      exact follows_u32.mp hx
    | child =>
      obtain rfl := Except.ok.inj h
      exact Slot.child
  · intro h
    cases h with
    | sibling hdigest =>
      exact toExcept_append_eq_ok_iff.mpr ⟨_, _, rfl, follows_digest.mpr hdigest, rfl⟩
    | leaf hrank => exact toExcept_append_eq_ok_iff.mpr ⟨_, _, rfl, follows_u32.mpr hrank, rfl⟩
    | child => rfl

theorem follows_steps : Follows (writeSteps width) (Counted (Counted (Slot width))) :=
  Follows.list follows_slot.list

theorem follows_opened : Follows (writeOpened width) (Leaf width) := by
  intro leaf bytes
  simp only [writeOpened, toExcept_append_eq_ok_iff]
  constructor
  · intro h
    obtain ⟨x, y, hx, hy, rfl⟩ := h
    apply Leaf.intro
    · exact follows_payload.mp hx
    · exact follows_digest.mp hy
  · intro h
    cases h with
    | intro hpayload hdigest =>
      exact ⟨_, _, follows_payload.mpr hpayload, follows_digest.mpr hdigest, rfl⟩

/-- A writer puts the current version, whatever the opening says. -/
theorem follows_opening {d : OpeningDocument} (hversion : d.version = formatVersion) :
    (writeOpening width d).toExcept = .ok bytes ↔ Opening width d bytes := by
  simp only [writeOpening, toExcept_append_eq_ok_iff]
  constructor
  · intro h
    obtain ⟨_, z, ⟨_, y, ⟨_, x, ⟨_, w, ⟨u, v, hu, hv, rfl⟩, hw, rfl⟩, hx, rfl⟩, hy, rfl⟩, hz, rfl⟩ := h
    obtain ⟨version, name, indices, expected, steps, captured, current⟩ := d
    obtain rfl : version = formatVersion := hversion
    apply Opening.intro
    · exact follows_head.mp hu
    · exact follows_indices.mp hv
    · exact follows_digest.mp hw
    · exact follows_steps.mp hx
    · exact follows_opened.list.mp hy
    · exact follows_opened.list.mp hz
  · intro h
    cases h with
    | intro hname hindices hexpected hsteps hcaptured hcurrent =>
      have hu : (writeHead .opening _).toExcept = .ok _ := follows_head.mpr hname
      exact ⟨_, _, ⟨_, _, ⟨_, _, ⟨_, _, ⟨_, _, hu, follows_indices.mpr hindices, rfl⟩,
        follows_digest.mpr hexpected, rfl⟩, follows_steps.mpr hsteps, rfl⟩,
        follows_opened.list.mpr hcaptured, rfl⟩, follows_opened.list.mpr hcurrent, rfl⟩

/-! ## §3 The format is canonical -/

/-- What is read is what the rules say. -/
theorem readTree_run_iff {d : TreeDocument} :
    (readTree width).run bytes = .ok d ↔ Tree width d bytes := by
  rw [readTree_run_eq_ok_iff]
  constructor
  · intro h
    exact (follows_tree h.1).mp h.2
  · intro h
    have hversion : d.version = formatVersion := by
      cases h
      rfl
    exact ⟨hversion, (follows_tree hversion).mpr h⟩

/-- What is read is what the rules say. -/
theorem readOpening_run_iff {d : OpeningDocument} :
    (readOpening width).run bytes = .ok d ↔ Opening width d bytes := by
  rw [readOpening_run_eq_ok_iff]
  constructor
  · intro h
    exact (follows_opening h.1).mp h.2
  · intro h
    have hversion : d.version = formatVersion := by
      cases h
      rfl
    exact ⟨hversion, (follows_opening hversion).mpr h⟩

/-- Rules by which one function reads and another writes are **unambiguous in both directions**. -/
theorem biUnique {ε α : Type} {rule : Rule α} {read : Bytes → Except ε α}
    {write : α → Except ε Bytes} (hread : ∀ a bytes, rule a bytes → read bytes = .ok a)
    (hwrite : ∀ a bytes, rule a bytes → write a = .ok bytes) : Relator.BiUnique rule := by
  constructor
  · intro a b bytes ha hb
    exact Except.ok.inj ((hread a bytes ha).symm.trans (hread b bytes hb))
  · intro a bytes bytes' h h'
    exact Except.ok.inj ((hwrite a bytes h).symm.trans (hwrite a bytes' h'))

theorem tree_biUnique (width : Nat) : Relator.BiUnique (Tree width) := by
  apply biUnique
  · intro d bytes h
    exact readTree_run_iff.mpr h
  · intro d bytes h
    exact (readTree_run_eq_ok_iff.mp (readTree_run_iff.mpr h)).2

theorem opening_biUnique (width : Nat) : Relator.BiUnique (Opening width) := by
  apply biUnique
  · intro d bytes h
    exact readOpening_run_iff.mpr h
  · intro d bytes h
    exact (readOpening_run_eq_ok_iff.mp (readOpening_run_iff.mpr h)).2

/-- **The binary format is canonical.** A byte string is read as a document exactly when the document
is of the current version and is written as this byte string, and exactly when the grammar has the
one for the other. So no byte string stands for two documents and no document is spelled in two
ways. This holds of trees and of openings, with digests of any width. -/
theorem canonical_documents (width : Nat) :
    (∀ (bytes : Bytes) (d : TreeDocument),
        ((readTree width).run bytes = .ok d
          ↔ d.version = formatVersion ∧ (writeTree width d).toExcept = .ok bytes)
        ∧ ((readTree width).run bytes = .ok d ↔ Tree width d bytes))
      ∧ Relator.BiUnique (Tree width)
      ∧ (∀ (bytes : Bytes) (d : OpeningDocument),
        ((readOpening width).run bytes = .ok d
          ↔ d.version = formatVersion ∧ (writeOpening width d).toExcept = .ok bytes)
        ∧ ((readOpening width).run bytes = .ok d ↔ Opening width d bytes))
      ∧ Relator.BiUnique (Opening width) := by
  refine ⟨?_, tree_biUnique width, ?_, opening_biUnique width⟩
  · intro bytes d
    exact ⟨readTree_run_eq_ok_iff, readTree_run_iff⟩
  · intro bytes d
    exact ⟨readOpening_run_eq_ok_iff, readOpening_run_iff⟩

/-- The document of a tree without nodes: the version, the tag, the name, and no root, no leaves and no
nodes. -/
example : (writeTree 20 ⟨1, "sha1", none, [], []⟩).toExcept
    = .ok [1, 0, 1, 4, 0, 0, 0, 115, 104, 97, 49, 0, 0, 0, 0, 0, 0, 0, 0, 0] := by
  decide

end Grammar

end HashTree
