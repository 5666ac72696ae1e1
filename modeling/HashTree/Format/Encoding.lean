import HashTree.Text.Blank
import HashTree.Wire.Fault

/-!
# The encodings of documents
-/

namespace HashTree

/-- How a document is written. -/
inductive Encoding where
  /-- As a JSON text. -/
  | json
  /-- As counted fields. -/
  | binary
  deriving DecidableEq, Repr

namespace Encoding

/-- The encoding used where none is chosen. -/
def standard : Encoding := json

/-- The name of an encoding. -/
def name : Encoding → String
  | json => "json"
  | binary => "binary"

/-- The encoding of a name, looked up without regard to blanks at the ends and to the case of ASCII
letters. The binary encoding has a short name too. -/
def ofName (name : String) : Except FormatError Encoding :=
  let folded := Text.foldName name
  if folded = "json" then .ok json
  else if folded = "binary" || folded = "bin" then .ok binary
  else .error (Label.invalidValue ⟨.header, "encoding"⟩)

end Encoding

end HashTree
