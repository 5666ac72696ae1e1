import HashTree.Bytes.Hex
import HashTree.Digest.Algorithm
import HashTree.Json.Text

/-!
# How algorithms and digests are written

An algorithm is written by its name and a digest in hexadecimal, both as JSON strings where a JSON
text is wanted. Collections of either have one sorted order.
-/

namespace HashTree

namespace Algorithm

/-- The algorithm that a JSON value names. -/
def ofJson? (v : Json) : Option Algorithm :=
  v.toString?.bind ofName?

/-- The JSON value that names an algorithm. -/
def toJson (a : Algorithm) : Json := .string a.name

/-- Algorithms in the order of the registry. -/
def sort (algorithms : List Algorithm) : List Algorithm :=
  algorithms.mergeSort (fun a b => a.rank ≤ b.rank)

end Algorithm

namespace Digest

/-- The digest that a JSON value spells. -/
def ofJson? (v : Json) : Option Digest :=
  v.toString?.bind fun s => (Hex.decode s).toOption

/-- The JSON value that spells a digest. -/
def toJson (d : Digest) : Json := .string (Hex.encode d)

/-- How a digest is shown in diagnostics. -/
def describe (d : Digest) : String := "Digest(0x" ++ Hex.encode d ++ ")"

/-- The **short label** of a digest: the first four bytes. -/
def label (d : Digest) : String := Hex.encode (d.take 4)

/-- The digests in lexicographic order, each once. -/
def sortDistinct (digests : List Digest) : List Digest :=
  (digests.mergeSort Bytes.le).eraseReps

end Digest

end HashTree
