import HashTree.Opening.Basic
import HashTree.Tree.Basic

/-!
# Changing the leaves of an opening

The current leaves can be replaced as a whole, by new payloads, by digests or by nodes, or set back
to what they were. All replacements are judged before any takes effect.
-/

namespace HashTree

namespace Opening

variable (o : Opening)

/-- Replaces the current leaves, one for each index. -/
def replace (leaves : List Opened) : Except Error Opening :=
  if leaves.length = o.indices.length then .ok { o with current := leaves }
  else .error (.opening (.leafCountMismatch o.indices.length leaves.length))

/-- Replaces the leaves by new payloads. -/
def update (payloads : List Bytes) : Except Error Opening :=
  o.replace (payloads.map fun b => ⟨some b, o.algorithm.digest b⟩)

/-- A digest as a leaf without a payload. -/
def leafOfDigest (d : Digest) : Except Error Opened :=
  match o.algorithm.checkDigest d with
  | .ok () => .ok ⟨none, d⟩
  | .error e => .error (.node e)

/-- Replaces the leaves by digests. -/
def updateDigests (digests : List Digest) : Except Error Opening := do
  o.replace (← digests.mapM o.leafOfDigest)

/-- A node as a leaf, with the payload it keeps. -/
def leafOfNode (n : Node) : Except Error Opened :=
  if n.algorithm = o.algorithm then .ok ⟨n.payload?, n.digest⟩
  else .error (.node (.algorithmMismatch o.algorithm n.algorithm))

/-- Replaces the leaves by nodes. -/
def updateNodes (nodes : List Node) : Except Error Opening := do
  o.replace (← nodes.mapM o.leafOfNode)

/-- Sets the leaves back to what they were when the opening was made. -/
def refresh : Opening := { o with current := o.captured }

end Opening

end HashTree
