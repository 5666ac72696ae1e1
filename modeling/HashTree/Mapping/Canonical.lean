import HashTree.Mapping.Normal
import HashTree.Tree.Form

/-!
# The canonical tree of a mapping

Every byte string is a leaf. A mapping of which nothing is present is absent itself, one with a
single present entry is that entry, and any other is a branch over its present entries, **sorted by
digest**; entries of one digest keep their order. Keys shape the tree and are not hashed.
-/

namespace HashTree

namespace Mapping

/-- What a mapping becomes whose present entries are given. -/
def gather (a : Algorithm) : List Form → Option Form
  | [] => none
  | [form] => some form
  | forms => some (Form.join a (forms.mergeSort fun f g => Bytes.le f.digest g.digest))

/-- The form of a value in normal form, unless it is absent. -/
def form? (a : Algorithm) (retain : Bool) (value : Value) : Option Form :=
  value.fold (fun b => some (.leaf (a.digest b) (if retain then some b else none)))
    fun entries => gather a (entries.filterMap (·.2))

/-- The tree of a mapping, whose payloads are kept or not. -/
def toTree (a : Algorithm) (retain : Bool) (reading : Reading) (mapping : Mapping) : Tree :=
  match form? a retain (.map (normalize reading mapping)) with
  | none => Tree.empty a
  | some form => form.toTree a

end Mapping

end HashTree
