import HashTree.Opening.Basic

/-!
# Replaying an opening

The steps are replayed from the first to the last. Each one takes the digests of its children, some
of which earlier steps have left, and leaves the digest of its branch. What is left at the end must
be one digest, and every leaf must have been used once.
-/

namespace HashTree

namespace Opening

/-- The state between two steps. -/
structure Replay where
  /-- Which leaves have been used. -/
  used : Array Bool
  /-- The digests that no step has taken, the last one first. -/
  loose : List Digest

/-- The state before the first step. -/
def Replay.start (count : Nat) : Replay := ⟨Array.replicate count false, []⟩

/-- Finds the digests of a step's children. `produced` holds what is left for its child slots, and
`done` the digests found so far, the last one first. -/
def feed (current : Array Opened) : Step → (used : Array Bool) → (produced done : List Digest) →
    Except PathFault (List Digest × Array Bool)
  | [], used, _, done => .ok (done.reverse, used)
  | .sibling digest :: slots, used, produced, done =>
    feed current slots used produced (digest :: done)
  | .leaf rank :: slots, used, produced, done =>
    match current[rank]? with
    | none => .error .leafOutOfRange
    | some leaf =>
      if used.getD rank true then .error .leafUsedTwice
      else feed current slots (used.setIfInBounds rank true) produced (leaf.digest :: done)
  | .child :: slots, used, produced, done =>
    match produced with
    | [] => .error .missingDigest
    | digest :: produced => feed current slots used produced (digest :: done)

/-- Replays one step. -/
def Replay.step (a : Algorithm) (current : Array Opened) (r : Replay) (step : Step) :
    Except PathFault Replay :=
  let arity := step.count .child
  let produced := r.loose.take arity
  if produced.length < arity then .error .missingDigest
  else
    match feed current step r.used produced.reverse [] with
    | .error fault => .error fault
    | .ok (digests, used) => .ok ⟨used, a.digest digests.flatten :: r.loose.drop arity⟩

/-- The digest that is left at the end. -/
def Replay.result (r : Replay) : Except PathFault Digest :=
  if r.used.any (!·) then .error .leafUnused
  else
    match r.loose with
    | [root] => .ok root
    | _ => .error .severalRoots

variable (o : Opening)

/-- The digest of the root that the leaves lead to as they stand now. -/
def computeRoot : Except PathFault Digest :=
  if o.current.length ≠ o.indices.length then .error .bufferLength
  else if o.steps.isEmpty then
    match o.current with
    | [single] => .ok single.digest
    | _ => .error .noSteps
  else do
    let current := o.current.toArray
    let last ← o.steps.foldlM (Replay.step o.algorithm current) (.start current.size)
    last.result

/-- Accepts an opening whose leaves lead to the expected root, and says what is wrong with any
other. -/
def check : Except OpeningError Unit :=
  match o.computeRoot with
  | .error fault => .error (.malformedPath fault)
  | .ok computed =>
    if computed = o.expected then .ok () else .error (.rootMismatch o.expected computed)

/-- Do the leaves lead to the expected root? -/
def valid : Bool := o.check.isOk

end Opening

end HashTree
