import HashTree.Format.Binary
import HashTree.Format.Encoding
import HashTree.Format.Restore
import HashTree.Format.Textual

/-!
# Dumping and loading

Trees and openings as documents in either encoding. A document names its algorithm, but the name is
only a hint unless a certain algorithm is asked for: where it is unknown, or the document makes no
sense under it, the other algorithms are tried in the order of the registry.
-/

namespace HashTree

/-! ## §1 Finding the algorithm -/

/-- The result of the first algorithm that succeeds. -/
def firstSuccess {α : Type} (attempt : Algorithm → Except FormatError α)
    (algorithms : List Algorithm) : Option α :=
  algorithms.findSome? fun a => (attempt a).toOption

/-- Makes sense of a document that names an algorithm. Where one is requested the name must be one
of its names. Otherwise the named algorithm is tried first and then all others, and if none succeeds
the failure of the named one is reported. -/
def resolve {α : Type} (place : Section) (named : String) (requested : Option Algorithm)
    (attempt : Algorithm → Except FormatError α) : Except FormatError α :=
  match requested, Algorithm.ofName? named with
  | some a, hint =>
    if hint = some a then attempt a else .error ⟨place, .otherAlgorithm a.name named⟩
  | none, none =>
    match firstSuccess attempt Algorithm.all with
    | some v => .ok v
    | none => .error ⟨place, .noMatchingAlgorithm⟩
  | none, some a =>
    match attempt a with
    | .ok v => .ok v
    | .error e =>
      match firstSuccess attempt (Algorithm.all.filter (· ≠ a)) with
      | some v => .ok v
      | none => .error e

/-- The value of a JSON text in the form of a document. -/
def readText {α : Type} (place : Section) (read : Json → Option α) (bytes : Bytes) :
    Except FormatError α :=
  match (bytes.toText?.bind Json.parse?).bind read with
  | some d => .ok d
  | none => .error ⟨place, .malformedJson⟩

/-- The version of a document must be the one that is written. -/
def requireVersion (place : Section) (version : UInt16) : Except FormatError Unit :=
  if version = formatVersion then .ok () else .error ⟨place, .unsupportedVersion version⟩

/-! ## §2 Trees -/

namespace Tree

/-- Writes a tree. -/
def dump (t : Tree) (encoding : Encoding) : Except FormatError Bytes := do
  let d ← t.toDocument
  match encoding with
  | .json => return Bytes.ofText (Textual.ofTree d).compact
  | .binary => (Binary.writeTree t.algorithm.digestSize d).toExcept

/-- Reads a tree, under the requested algorithm if there is one. -/
def load (bytes : Bytes) (encoding : Encoding) (requested : Option Algorithm) :
    Except FormatError Tree := do
  match encoding with
  | .json =>
    let d ← readText .tree Textual.readTree bytes
    requireVersion .tree d.version
    resolve .tree d.algorithm requested fun a => d.restore a
  | .binary =>
    let named ← (Binary.readHead .tree).run bytes
    resolve .tree named requested fun a => do
      let d ← (Binary.readTree a.digestSize).run bytes
      d.restore a

end Tree

/-! ## §3 Openings -/

namespace Opening

/-- Writes an opening. -/
def dump (o : Opening) (encoding : Encoding) : Except FormatError Bytes := do
  let d ← o.toDocument
  match encoding with
  | .json => return Bytes.ofText (Textual.ofOpening d).compact
  | .binary => (Binary.writeOpening o.algorithm.digestSize d).toExcept

/-- Reads an opening, under the requested algorithm if there is one. -/
def load (bytes : Bytes) (encoding : Encoding) (requested : Option Algorithm) :
    Except FormatError Opening := do
  match encoding with
  | .json =>
    let d ← readText .proof Textual.readOpening bytes
    requireVersion .proof d.version
    resolve .proof d.algorithm requested fun a => d.restore a
  | .binary =>
    let named ← (Binary.readHead .opening).run bytes
    resolve .proof named requested fun a => do
      let d ← (Binary.readOpening a.digestSize).run bytes
      d.restore a

end Opening

end HashTree
