import HashTree.Opening.Update

/-!
# Editing an opening in place

The changes of an opening as procedures on one that is held. A procedure that fails leaves behind
what it holds **at that moment**: nothing is put back. What the changes come to as values says
`HashTree.Opening.Update`.
-/

namespace HashTree

/-- A procedure on an opening that is held. -/
abbrev Edit (α : Type) : Type := EStateM Error Opening α

namespace Edit

/-- Replaces the current leaves, one for each index. -/
def replace (leaves : List Opened) : Edit Unit := do
  let o ← get
  if leaves.length = o.indices.length then set { o with current := leaves }
  else throw (.opening (.leafCountMismatch o.indices.length leaves.length))

/-- Replaces the leaves by new payloads. -/
def update (payloads : List Bytes) : Edit Unit := do
  let o ← get
  replace (payloads.map fun b => ⟨some b, o.algorithm.digest b⟩)

/-- A digest as a leaf without a payload. -/
def leafOfDigest (d : Digest) : Edit Opened := do
  let o ← get
  match o.algorithm.checkDigest d with
  | .ok () => return ⟨none, d⟩
  | .error e => throw (.node e)

/-- Replaces the leaves by digests. -/
def updateDigests (digests : List Digest) : Edit Unit := do
  replace (← digests.mapM leafOfDigest)

/-- A node as a leaf, with the payload it keeps. -/
def leafOfNode (n : Node) : Edit Opened := do
  let o ← get
  if n.algorithm = o.algorithm then return ⟨n.payload?, n.digest⟩
  else throw (.node (.algorithmMismatch o.algorithm n.algorithm))

/-- Replaces the leaves by nodes. -/
def updateNodes (nodes : List Node) : Edit Unit := do
  replace (← nodes.mapM leafOfNode)

/-- Sets the leaves back to what they were when the opening was made. -/
def refresh : Edit Unit :=
  modify fun o => { o with current := o.captured }

end Edit

/-- A call with its arguments. -/
inductive Call where
  | update (payloads : List Bytes)
  | updateDigests (digests : List Digest)
  | updateNodes (nodes : List Node)
  | refresh
  deriving DecidableEq, Repr

/-- What a call does. -/
def Call.edit : Call → Edit Unit
  | update payloads => Edit.update payloads
  | updateDigests digests => Edit.updateDigests digests
  | updateNodes nodes => Edit.updateNodes nodes
  | refresh => Edit.refresh

namespace Opening

/-- The outcome of a call, and the opening that is held after it. -/
def perform (o : Opening) (call : Call) : Except Error Unit × Opening :=
  match call.edit.run o with
  | .ok () p => (.ok (), p)
  | .error e p => (.error e, p)

/-- The opening that is held after some calls, **whether they failed or not**. -/
def after (o : Opening) (calls : List Call) : Opening :=
  calls.foldl (fun o call => (o.perform call).2) o

end Opening

end HashTree
