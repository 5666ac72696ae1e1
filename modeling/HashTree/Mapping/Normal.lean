import HashTree.Mapping.Value

/-!
# Normal forms of mappings

Entries of a mapping can compete for one place, and the first one wins. There are two readings of
what a place is.

* In the **nested** reading a key is taken as it is written. Each mapping keeps the first entry of
  every key, a mapping under the key included even if it is empty.
* In the **dotted** reading a key is a path whose segments are separated by dots, and a value under
  nested mappings has the path of all keys above it. A value is kept unless a value before it has
  the same path, a path that leads through its own, or a path that its own leads through.
-/

namespace HashTree

namespace Mapping

/-! ## §1 The nested reading -/

/-- The first entry of every key, in the order of these; `done` holds those before, the last one
first. -/
def keepFirst {α : Type} : List (String × α) → (done : List (String × α)) → List (String × α)
  | [], done => done.reverse
  | entry :: entries, done =>
    keepFirst entries (if done.any (·.1 == entry.1) then done else entry :: done)

/-- The nested normal form of a value. -/
def nestedValue (value : Value) : Value :=
  value.fold .bytes fun entries => .map (keepFirst entries [])

/-- The entries of a mapping; a byte string has none. -/
def entriesOf : Value → Mapping
  | .bytes _ => []
  | .map entries => entries

/-- The normal form of a mapping in the nested reading. -/
def nested (mapping : Mapping) : Mapping :=
  entriesOf (nestedValue (.map mapping))

/-! ## §2 Paths -/

/-- A path from the top of a mapping: one key for each level. -/
abbrev Path := List String

/-- Splits characters at dots. The characters of the segment that is read, `segment`, and the
segments before it, `done`, are held with the last one first. -/
def splitDots : List Char → (segment : List Char) → (done : Path) → Path
  | [], segment, done => (String.ofList segment.reverse :: done).reverse
  | c :: rest, segment, done =>
    if c = '.' then splitDots rest [] (String.ofList segment.reverse :: done)
    else splitDots rest (c :: segment) done

/-- The segments of a key. There is one more than there are dots. -/
def segments (key : String) : Path := splitDots key.toList [] []

/-- The byte strings in a value with their paths, from the first to the last. -/
def expandValue (value : Value) : List (Path × Bytes) :=
  value.fold (fun b => [([], b)]) fun entries =>
    entries.flatMap fun (key, inner) =>
      let front := segments key
      inner.map fun (path, b) => (front ++ path, b)

/-- The byte strings in a mapping with their paths, from the first to the last. -/
def expand (mapping : Mapping) : List (Path × Bytes) :=
  expandValue (.map mapping)

/-! ## §3 The dotted reading -/

/-- A mapping with a gap where one of its mappings was taken out. -/
structure Gap where
  key : String
  /-- The entries before the gap. -/
  before : Mapping
  /-- The entries after the gap. -/
  after : Mapping

/-- Closes gaps, the innermost one first, around a mapping. -/
def close : List Gap → Mapping → Mapping
  | [], mapping => mapping
  | gap :: gaps, mapping => close gaps (gap.before ++ (gap.key, .map mapping) :: gap.after)

/-- Splits a mapping at the first entry of a key; `before` holds the entries in front of it, the
last one first. -/
def splitAtKey (key : String) : Mapping → (before : Mapping) → Option (Mapping × Value × Mapping)
  | [], _ => none
  | (k, value) :: rest, before =>
    if k = key then some (before.reverse, value, rest)
    else splitAtKey key rest ((k, value) :: before)

/-- A byte string under a path of keys. -/
def chain (path : Path) (b : Bytes) : Value :=
  path.foldr (fun key value => .map [(key, value)]) (.bytes b)

/-- Looks for the place of a path, and fills it. Nothing when the place is taken: a value stands on
the way, or anything at all stands at the end. -/
def place? (b : Bytes) : Path → Mapping → List Gap → Option Mapping
  | [], _, _ => none
  | key :: path, mapping, gaps =>
    match splitAtKey key mapping [] with
    | none => some (close gaps (mapping ++ [(key, chain path b)]))
    | some (before, .map inner, after) =>
      if path.isEmpty then none else place? b path inner (⟨key, before, after⟩ :: gaps)
    | some (_, .bytes _, _) => none

/-- Stores a byte string under a path, unless its place is taken. -/
def insert (mapping : Mapping) (path : Path) (b : Bytes) : Mapping :=
  (place? b path mapping []).getD mapping

/-- The normal form of a mapping in the dotted reading. -/
def dotted (mapping : Mapping) : Mapping :=
  (expand mapping).foldl (fun kept (path, b) => insert kept path b) []

/-! ## §4 Choosing a reading -/

/-- How the keys of a mapping are read. -/
inductive Reading where
  | dotted
  | nested
  deriving DecidableEq, Repr

/-- The normal form of a mapping in a reading. -/
def normalize : Reading → Mapping → Mapping
  | .dotted => dotted
  | .nested => nested

end Mapping

end HashTree
