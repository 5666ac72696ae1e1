/-!
# Faults of encoded documents

What can be wrong with the bytes of a tree or a proof, and the wording of it. A fault always names
the section of the document in which it lies.
-/

namespace HashTree

/-! ## §1 Sections -/

/-- The sections of an encoded document. -/
inductive Section where
  | header
  | tree
  | node
  | proof
  | proofStep
  | proofLeaf
  deriving DecidableEq, Repr

/-- The name of a section. -/
def Section.name : Section → String
  | .header => "header"
  | .tree => "tree"
  | .node => "node"
  | .proof => "proof"
  | .proofStep => "proof step"
  | .proofLeaf => "proof leaf"

/-- A field of a section. -/
structure Label where
  place : Section
  field : String
  deriving DecidableEq, Repr

/-! ## §2 Broken rules -/

/-- The rules that a decoded tree or proof can break. -/
inductive Inconsistency where
  | nodesWithoutRoot
  | rootOutOfRange
  | digestLength
  | payloadDigest
  | internalPayload
  | singleChild
  | childOutOfRange
  | severalParents
  | missingParent
  | reachableTwice
  | unreachable
  | leafOutOfRange
  | leafListedTwice
  | leafInternal
  | leafMissing
  | internalDigest
  | noLeaves
  | indicesNotIncreasing
  | bufferLength
  | emptyStep
  | slotOutOfRange
  deriving DecidableEq, Repr

/-- The wording of a broken rule. -/
def Inconsistency.message : Inconsistency → String
  | .nodesWithoutRoot => "nodes present without a root"
  | .rootOutOfRange => "root index out of range"
  | .digestLength => "digest length does not match algorithm"
  | .payloadDigest => "payload does not hash to its digest"
  | .internalPayload => "internal node carries a payload"
  | .singleChild => "internal node has a single child"
  | .childOutOfRange => "child index out of range"
  | .severalParents => "node has more than one parent"
  | .missingParent => "only the root may lack a parent"
  | .reachableTwice => "node reachable twice"
  | .unreachable => "node unreachable from the root"
  | .leafOutOfRange => "leaf index out of range"
  | .leafListedTwice => "leaf listed twice"
  | .leafInternal => "leaf list names an internal node"
  | .leafMissing => "leaf list misses a childless node"
  | .internalDigest => "internal digest does not match children"
  | .noLeaves => "proof covers no leaves"
  | .indicesNotIncreasing => "indices are not strictly increasing"
  | .bufferLength => "leaf buffers do not match indices"
  | .emptyStep => "step has no slots"
  | .slotOutOfRange => "leaf slot out of range"

/-! ## §3 Faults -/

/-- What is wrong with a document. -/
inductive Defect where
  /-- The bytes ended inside a field. -/
  | unexpectedEnd (field : String)
  /-- A length or index is out of its range. -/
  | invalidLength (field : String)
  /-- A field holds a value that the layout does not have. -/
  | invalidValue (field : String)
  /-- Bytes follow the end of the document. -/
  | trailingBytes (consumed remaining : Nat)
  /-- The text is not JSON of the expected form. -/
  | malformedJson
  /-- The document has an unknown version. -/
  | unsupportedVersion (found : UInt16)
  /-- The document names another algorithm than the requested one. -/
  | otherAlgorithm (expected got : String)
  /-- The document breaks a rule. -/
  | inconsistent (rule : Inconsistency)
  /-- No algorithm makes sense of the document. -/
  | noMatchingAlgorithm
  deriving DecidableEq, Repr

/-- The wording of a defect. -/
def Defect.message : Defect → String
  | .unexpectedEnd field => "unexpected end of input while reading \x60" ++ field ++ "\x60"
  | .invalidLength field => "invalid length for \x60" ++ field ++ "\x60"
  | .invalidValue field => "invalid value for \x60" ++ field ++ "\x60"
  | .trailingBytes consumed remaining =>
    toString remaining ++ " trailing bytes after offset " ++ toString consumed
  | .malformedJson => "malformed json"
  | .unsupportedVersion found => "unsupported format version " ++ toString found.toNat
  | .otherAlgorithm expected got =>
    "payload uses \x60" ++ got ++ "\x60, expected \x60" ++ expected ++ "\x60"
  | .inconsistent rule => "inconsistent payload: " ++ rule.message
  | .noMatchingAlgorithm => "no registered algorithm matches the payload"

/-- A defect and the section in which it lies. -/
structure FormatError where
  place : Section
  defect : Defect
  deriving DecidableEq, Repr

namespace FormatError

/-- The wording of a fault. -/
def message (e : FormatError) : String :=
  e.place.name ++ ": " ++ e.defect.message

/-- A broken rule in a section. -/
def inconsistent (place : Section) (rule : Inconsistency) : FormatError :=
  ⟨place, .inconsistent rule⟩

end FormatError

namespace Label

/-- The bytes ended inside the field. -/
def unexpectedEnd (l : Label) : FormatError := ⟨l.place, .unexpectedEnd l.field⟩

/-- The field has a length or index out of range. -/
def invalidLength (l : Label) : FormatError := ⟨l.place, .invalidLength l.field⟩

/-- The field has a value that the layout does not have. -/
def invalidValue (l : Label) : FormatError := ⟨l.place, .invalidValue l.field⟩

/-- Lengths and indices are written in four bytes, so they must be below `2 ^ 32`. -/
def checkIndex (l : Label) (n : Nat) : Except FormatError UInt32 :=
  if n < UInt32.size then .ok (UInt32.ofNat n) else .error l.invalidLength

end Label

end HashTree
