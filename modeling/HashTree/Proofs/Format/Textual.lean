import HashTree.Format.Textual
import HashTree.Proofs.Json.Text

/-!
# Documents as JSON and back

What is written of a tree or an opening as a JSON text is read back as the same document. A payload
that is absent has no member and an empty one has an empty text, so the two are told apart.
-/

namespace HashTree

namespace Textual

open Json

/-! ## §1 Simple values -/

theorem readU16_ofNat (n : UInt16) : readU16 (.ofNat n.toNat) = some n := by
  simp [readU16, Json.ofNat, Json.toNat?, Numeral.toNat?_ofNat, n.toNat_lt_size]

theorem readU32_ofU32 (n : UInt32) : readU32 (ofU32 n) = some n := by
  simp [readU32, ofU32, Json.ofNat, Json.toNat?, Numeral.toNat?_ofNat, n.toNat_lt_size]

theorem readHex_ofBytes (b : Bytes) : readHex (ofBytes b) = some b := by
  simp [readHex, ofBytes, toString?, Hex.decode_encode, Except.toOption]

/-- A list is read item by item. -/
theorem readList_map {α : Type} {read : Json → Option α} {put : α → Json}
    (h : ∀ a, read (put a) = some a) (items : List α) :
    readList read (.array (items.map put)) = some items := by
  change (items.map put).mapM read = some items
  induction items with
  | nil => rfl
  | cons a items ih => simp [h a, ih]

/-- The two ways to leave a payload out of a record and to put it in. -/
theorem optional_payload (payload : Option Bytes) :
    optional none (nullable readHex) (payload.map ofBytes) = some payload := by
  cases payload with
  | none => rfl
  | some b =>
    change (readHex (ofBytes b)).map some = _
    rw [readHex_ofBytes]
    rfl

theorem nullable_root (root : Option UInt32) :
    nullable readU32 ((root.map ofU32).getD .null) = some root := by
  cases root with
  | none => rfl
  | some n =>
    change (readU32 (ofU32 n)).map some = _
    rw [readU32_ofU32]
    rfl

/-! ## §2 Trees -/

private theorem membersOf?_ofNode (n : NodeDocument) :
    membersOf? ["digest", "payload", "children"] (ofNode n) = some [some (ofBytes n.digest),
      n.payload.map ofBytes,
      if n.children.isEmpty then none else some (.array (n.children.map ofU32))] := by
  obtain ⟨digest, payload, children⟩ := n
  cases payload <;> cases children <;>
    simp [ofNode, payloadMember, membersOf?, onlyMember]

theorem readNode_ofNode (n : NodeDocument) : readNode (ofNode n) = some n := by
  obtain ⟨digest, payload, children⟩ := n
  have hchildren : optional [] (readList readU32)
      (if children.isEmpty then none else some (.array (children.map ofU32))) = some children := by
    cases children with
    | nil => rfl
    | cons child children => exact readList_map readU32_ofU32 (child :: children)
  rw [readNode, membersOf?_ofNode]
  simp only [List.isEmpty_iff] at hchildren
  simp [required, readHex_ofBytes, optional_payload, hchildren]

/-- **The value of a tree's document is read back as the document.** -/
theorem readTree_ofTree (d : TreeDocument) : readTree (ofTree d) = some d := by
  have hmembers : membersOf? ["version", "algorithm", "root", "leaves", "nodes"] (ofTree d)
      = some [some (.ofNat d.version.toNat), some (.string d.algorithm),
        some ((d.root.map ofU32).getD .null), some (.array (d.leaves.map ofU32)),
        some (.array (d.nodes.map ofNode))] := by
    simp [ofTree, membersOf?, onlyMember]
  rw [readTree, hmembers]
  simp [required, optional, toString?, readU16_ofNat, nullable_root, readList_map readU32_ofU32,
    readList_map readNode_ofNode]

/-! ## §3 Openings -/

theorem readSlot_ofSlot (slot : SlotDocument) : readSlot (ofSlot slot) = some slot := by
  cases slot with
  | sibling digest => simp [readSlot, ofSlot, readHex_ofBytes]
  | leaf rank => simp [readSlot, ofSlot, readU32_ofU32]
  | child => rfl

theorem readSteps_map (steps : List (List SlotDocument)) :
    readList (readList readSlot) (.array (steps.map fun step => .array (step.map ofSlot)))
      = some steps :=
  readList_map (fun step => readList_map readSlot_ofSlot step) steps

theorem readOpened_ofOpened (leaf : Opened) : readOpened (ofOpened leaf) = some leaf := by
  have hmembers : membersOf? ["payload", "digest"] (ofOpened leaf)
      = some [leaf.payload.map ofBytes, some (ofBytes leaf.digest)] := by
    obtain ⟨payload, digest⟩ := leaf
    cases payload <;> simp [ofOpened, payloadMember, membersOf?, onlyMember]
  rw [readOpened, hmembers]
  simp [required, readHex_ofBytes, optional_payload]

/-- **The value of an opening's document is read back as the document.** -/
theorem readOpening_ofOpening (d : OpeningDocument) : readOpening (ofOpening d) = some d := by
  have hmembers : membersOf? ["version", "algorithm", "indices", "expected", "steps", "original",
      "working"] (ofOpening d) = some [some (.ofNat d.version.toNat), some (.string d.algorithm),
        some (.array (d.indices.map ofU32)), some (ofBytes d.expected),
        some (.array (d.steps.map fun step => .array (step.map ofSlot))),
        some (.array (d.captured.map ofOpened)), some (.array (d.current.map ofOpened))] := by
    simp [ofOpening, membersOf?, onlyMember]
  rw [readOpening, hmembers]
  simp [required, toString?, readU16_ofNat, readHex_ofBytes, readList_map readU32_ofU32,
    readSteps_map, readList_map readOpened_ofOpened]

/-! ## §4 Texts -/

theorem legible_ofU32 (n : UInt32) : (ofU32 n).Legible := legible_ofNat _

theorem legible_ofBytes (b : Bytes) : (ofBytes b).Legible := legible_string _

/-- The items of a list are legible when each of their values is. -/
theorem legible_map {α : Type} {put : α → Json} (h : ∀ a, (put a).Legible) (items : List α) :
    (Json.array (items.map put)).Legible := by
  apply legible_array
  intro v hv
  obtain ⟨a, -, rfl⟩ := List.mem_map.mp hv
  exact h a

theorem legible_ofNode (n : NodeDocument) : (ofNode n).Legible := by
  obtain ⟨digest, payload, children⟩ := n
  have hchildren := legible_map legible_ofU32 children
  apply legible_object
  cases payload <;> cases children <;> simp_all [payloadMember, legible_ofBytes]

theorem legible_ofTree (d : TreeDocument) : (ofTree d).Legible := by
  have hroot : ((d.root.map ofU32).getD .null).Legible := by
    cases d.root with
    | none => exact legible_null
    | some n => exact legible_ofU32 n
  apply legible_object
  simp [legible_ofNat, legible_string, hroot, legible_map legible_ofU32, legible_map legible_ofNode]

/-- The text of a tree's document is parsed and read back as the document. -/
theorem readTree_parse?_compact (d : TreeDocument) :
    (parse? (ofTree d).compact).bind readTree = some d := by
  rw [parse?_compact (legible_ofTree d), Option.bind_some, readTree_ofTree]

theorem legible_ofSlot (slot : SlotDocument) : (ofSlot slot).Legible := by
  cases slot with
  | sibling digest =>
    apply legible_object
    simp [legible_ofBytes]
  | leaf rank =>
    apply legible_object
    simp [legible_ofU32]
  | child => exact legible_string _

theorem legible_ofOpened (leaf : Opened) : (ofOpened leaf).Legible := by
  obtain ⟨payload, digest⟩ := leaf
  apply legible_object
  cases payload <;> simp [payloadMember, legible_ofBytes]

theorem legible_ofOpening (d : OpeningDocument) : (ofOpening d).Legible := by
  have hsteps := legible_map (fun step => legible_map legible_ofSlot step) d.steps
  apply legible_object
  simp [legible_ofNat, legible_string, legible_ofBytes, legible_map legible_ofU32, hsteps,
    legible_map legible_ofOpened]

/-- The text of an opening's document is parsed and read back as the document. -/
theorem readOpening_parse?_compact (d : OpeningDocument) :
    (parse? (ofOpening d).compact).bind readOpening = some d := by
  rw [parse?_compact (legible_ofOpening d), Option.bind_some, readOpening_ofOpening]

end Textual

end HashTree
