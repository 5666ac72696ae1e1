import HashTree.Json.Canonical
import HashTree.Mapping.Value

/-!
# Mappings from JSON

An object becomes a mapping of its members in the order of their keys, a string becomes its text,
and any other value becomes its compact canonical text.
-/

namespace HashTree

namespace Value

/-- The value of a text. -/
def ofText (s : String) : Value := .bytes (Bytes.ofText s)

mutual

/-- The value of a canonical JSON value. -/
def ofCanonical : Json → Value
  | .object members => .map (ofMembers members)
  | .string s => ofText s
  | v => ofText v.compact

/-- The entries of canonical members. -/
def ofMembers : List (String × Json) → Mapping
  | [] => []
  | (key, v) :: members => (key, ofCanonical v) :: ofMembers members

end

/-- The value of a JSON value. -/
def ofJson (v : Json) : Value := ofCanonical v.canonical

/-- The mapping of a JSON object. -/
def mappingOfJson? (v : Json) : Option Mapping :=
  match ofJson v with
  | .map entries => some entries
  | .bytes _ => none

end Value

end HashTree
