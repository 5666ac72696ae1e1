import HashTree.Bytes.Hex
import HashTree.Digest.Algorithm
import HashTree.Wire.Fault

/-!
# Errors

Everything that an operation on trees, openings and documents can report, by cause, with one
wording for each cause.
-/

namespace HashTree

/-! ## §1 Nodes -/

/-- Why a node cannot be used where it is put. -/
inductive NodeError where
  /-- A digest that does not have the size of its algorithm. -/
  | digestLength (algorithm : Algorithm) (got : Nat)
  /-- A node of another algorithm. -/
  | algorithmMismatch (expected got : Algorithm)
  deriving DecidableEq, Repr

/-- The wording of an error with a node. -/
def NodeError.message : NodeError → String
  | .digestLength a got =>
    a.name ++ " digest must be " ++ toString a.digestSize ++ " bytes, got " ++ toString got
  | .algorithmMismatch expected got =>
    "algorithm mismatch: expected " ++ expected.name ++ ", got " ++ got.name

/-- A digest must have the size of its algorithm. -/
def Algorithm.checkDigest (a : Algorithm) (d : Digest) : Except NodeError Unit :=
  if d.length = a.digestSize then .ok () else .error (.digestLength a d.length)

/-! ## §2 Openings -/

/-- Why the steps of an opening do not lead from its leaves to one root. -/
inductive PathFault where
  /-- There is not one leaf for each index. -/
  | bufferLength
  /-- Without steps there must be exactly one leaf. -/
  | noSteps
  /-- A step takes more digests than the steps before it left. -/
  | missingDigest
  /-- A slot names a leaf that the opening does not have. -/
  | leafOutOfRange
  /-- Two slots name one leaf. -/
  | leafUsedTwice
  /-- No slot names some leaf. -/
  | leafUnused
  /-- More than one digest is left at the end. -/
  | severalRoots
  deriving DecidableEq, Repr

/-- The wording of a fault in the steps. -/
def PathFault.message : PathFault → String
  | .bufferLength => "working leaves do not match indices"
  | .noSteps => "empty path must cover exactly one leaf"
  | .missingDigest => "step consumes more digests than produced"
  | .leafOutOfRange => "leaf slot out of range"
  | .leafUsedTwice => "leaf slot used twice"
  | .leafUnused => "path leaves a proven leaf unused"
  | .severalRoots => "path does not converge to a single root"

/-- Why an opening cannot be made, changed or accepted. -/
inductive OpeningError where
  | noLeaves
  | leafCountMismatch (expected got : Nat)
  | malformedPath (fault : PathFault)
  | rootMismatch (expected computed : Digest)
  deriving DecidableEq, Repr

/-- The wording of an error with an opening. -/
def OpeningError.message : OpeningError → String
  | .noLeaves => "no leaves selected for the proof"
  | .leafCountMismatch expected got =>
    "leaf count mismatch: expected " ++ toString expected ++ ", got " ++ toString got
  | .malformedPath fault => "malformed proof path: " ++ fault.message
  | .rootMismatch expected computed =>
    "root mismatch: expected " ++ Hex.encode expected ++ ", computed " ++ Hex.encode computed

/-! ## §3 All errors -/

/-- What an operation can report. -/
inductive Error where
  | unknownAlgorithm (name : String)
  | emptyTree
  | indexOutOfRange (index length : Nat)
  | opening (e : OpeningError)
  | node (e : NodeError)
  | format (e : FormatError)
  deriving DecidableEq, Repr

/-- The wording of an error. -/
def Error.message : Error → String
  | .unknownAlgorithm name => "unsupported digest algorithm \x60" ++ name ++ "\x60"
  | .emptyTree => "tree has no leaves"
  | .indexOutOfRange index length =>
    "index " ++ toString index ++ " out of range (len " ++ toString length ++ ")"
  | .opening e => e.message
  | .node e => e.message
  | .format e => e.message

/-- The algorithm of a name, or an error that repeats the name as it was given. -/
def Algorithm.ofName (name : String) : Except Error Algorithm :=
  match Algorithm.ofName? name with
  | some a => .ok a
  | none => .error (.unknownAlgorithm name)

end HashTree
