import HashTree.Bytes.Hex
import HashTree.Format.Document
import HashTree.Json.Text

/-!
# Documents as JSON

A document is an object with a fixed set of members. Reading takes the members in any order and
refuses unknown and repeated ones; it also takes an array of the members' values in their own order,
which may end early where the last members have a default.
-/

namespace HashTree

namespace Textual

/-! ## §1 Records -/

/-- The value of a member that stands alone under its key. Nothing when the key is repeated. -/
def onlyMember (members : List (String × Json)) (key : String) : Option (Option Json) :=
  match members.filter (·.1 == key) with
  | [] => some none
  | [member] => some (some member.2)
  | _ => none

/-- The values of a record's members, each where it is given. Nothing when the value is no such
record. -/
def membersOf? (keys : List String) : Json → Option (List (Option Json))
  | .object members =>
    if members.all fun member => keys.contains member.1 then keys.mapM (onlyMember members)
    else none
  | .array values =>
    if values.length ≤ keys.length then
      some (values.map some ++ List.replicate (keys.length - values.length) none)
    else none
  | _ => none

/-- The value of a member that must be given. -/
def required {α : Type} (read : Json → Option α) (member : Option Json) : Option α :=
  member.bind read

/-- The value of a member that may be left out. -/
def optional {α : Type} (absent : α) (read : Json → Option α) : Option Json → Option α
  | none => some absent
  | some v => read v

/-- A value that may be null. -/
def nullable {α : Type} (read : Json → Option α) : Json → Option (Option α)
  | .null => some none
  | v => (read v).map some

/-! ## §2 Simple values -/

/-- A number of 16 bits. -/
def readU16 (v : Json) : Option UInt16 :=
  v.toNat?.bind fun n => if n < UInt16.size then some (UInt16.ofNat n) else none

/-- A number of 32 bits. -/
def readU32 (v : Json) : Option UInt32 :=
  v.toNat?.bind fun n => if n < UInt32.size then some (UInt32.ofNat n) else none

/-- Bytes in hexadecimal. -/
def readHex (v : Json) : Option Bytes :=
  v.toString?.bind fun s => (Hex.decode s).toOption

/-- The items of an array. -/
def readList {α : Type} (read : Json → Option α) : Json → Option (List α)
  | .array items => items.mapM read
  | _ => none

/-- A number of 32 bits as a value. -/
def ofU32 (n : UInt32) : Json := .ofNat n.toNat

/-- Bytes as a value. -/
def ofBytes (b : Bytes) : Json := .string (Hex.encode b)

/-- The member of a payload, left out when it is absent. -/
def payloadMember : Option Bytes → List (String × Json)
  | none => []
  | some b => [("payload", ofBytes b)]

/-! ## §3 Trees -/

/-- The value of a node. A leaf has no list of children. -/
def ofNode (n : NodeDocument) : Json :=
  .object ([("digest", ofBytes n.digest)] ++ payloadMember n.payload
    ++ if n.children.isEmpty then [] else [("children", .array (n.children.map ofU32))])

/-- Reads a node. -/
def readNode (v : Json) : Option NodeDocument := do
  match ← membersOf? ["digest", "payload", "children"] v with
  | [digest, payload, children] =>
    return ⟨← required readHex digest, ← optional none (nullable readHex) payload,
      ← optional [] (readList readU32) children⟩
  | _ => none

/-- The value of a tree. -/
def ofTree (d : TreeDocument) : Json :=
  .object [("version", .ofNat d.version.toNat), ("algorithm", .string d.algorithm),
    ("root", (d.root.map ofU32).getD .null), ("leaves", .array (d.leaves.map ofU32)),
    ("nodes", .array (d.nodes.map ofNode))]

/-- Reads a tree. -/
def readTree (v : Json) : Option TreeDocument := do
  match ← membersOf? ["version", "algorithm", "root", "leaves", "nodes"] v with
  | [version, algorithm, root, leaves, nodes] =>
    return ⟨← required readU16 version, ← required Json.toString? algorithm,
      ← optional none (nullable readU32) root, ← required (readList readU32) leaves,
      ← required (readList readNode) nodes⟩
  | _ => none

/-! ## §4 Openings -/

/-- The value of a slot. -/
def ofSlot : SlotDocument → Json
  | .sibling digest => .object [("sibling", ofBytes digest)]
  | .leaf rank => .object [("leaf", ofU32 rank)]
  | .child => .string "child"

/-- Reads a slot. One that carries nothing may be written with or without a null. -/
def readSlot : Json → Option SlotDocument
  | .string key => if key = "child" then some .child else none
  | .object [(key, v)] =>
    if key = "sibling" then (readHex v).map .sibling
    else if key = "leaf" then (readU32 v).map .leaf
    else if key = "child" then
      match v with
      | .null => some .child
      | _ => none
    else none
  | _ => none

/-- The value of a leaf of an opening. -/
def ofOpened (leaf : Opened) : Json :=
  .object (payloadMember leaf.payload ++ [("digest", ofBytes leaf.digest)])

/-- Reads a leaf of an opening. -/
def readOpened (v : Json) : Option Opened := do
  match ← membersOf? ["payload", "digest"] v with
  | [payload, digest] =>
    return ⟨← optional none (nullable readHex) payload, ← required readHex digest⟩
  | _ => none

/-- The value of an opening. -/
def ofOpening (d : OpeningDocument) : Json :=
  .object [("version", .ofNat d.version.toNat), ("algorithm", .string d.algorithm),
    ("indices", .array (d.indices.map ofU32)), ("expected", ofBytes d.expected),
    ("steps", .array (d.steps.map fun step => .array (step.map ofSlot))),
    ("original", .array (d.captured.map ofOpened)),
    ("working", .array (d.current.map ofOpened))]

/-- Reads an opening. -/
def readOpening (v : Json) : Option OpeningDocument := do
  match ← membersOf? ["version", "algorithm", "indices", "expected", "steps", "original",
      "working"] v with
  | [version, algorithm, indices, expected, steps, captured, current] =>
    return ⟨← required readU16 version, ← required Json.toString? algorithm,
      ← required (readList readU32) indices, ← required readHex expected,
      ← required (readList (readList readSlot)) steps,
      ← required (readList readOpened) captured, ← required (readList readOpened) current⟩
  | _ => none

end Textual

end HashTree
