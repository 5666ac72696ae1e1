import HashTree.Bytes

/-!
# Mappings

A mapping is a list of entries, each a key with a value; a value is a byte string or a mapping
again. Keys may repeat: what an entry counts for is decided by the normal forms.

Values can be nested very deeply, so everything that is computed from a value is computed by
`Value.fold`, which keeps the open mappings in a list instead of recursing into them.
-/

namespace HashTree

/-- What is stored under a key. -/
inductive Value where
  | bytes (b : Bytes)
  | map (entries : List (String × Value))
  deriving Repr

/-- A list of entries. -/
abbrev Mapping := List (String × Value)

namespace Value

mutual

/-- The number of values in a value, and one for each key. -/
def weight : Value → Nat
  | bytes _ => 1
  | map entries => weights entries + 1

/-- The number of values and keys in some entries. -/
def weights : List (String × Value) → Nat
  | [] => 0
  | (_, value) :: entries => value.weight + 1 + weights entries

end

/-! ## §1 Folding -/

variable {α : Type}

/-- A mapping that is being folded: the key of the entry that is worked on, the results of the
entries before it, the last one first, and the entries after it. -/
structure Frame (α : Type) where
  key : String
  done : List (String × α)
  rest : List (String × Value)

/-- What the fold turns to next. -/
inductive Turn (α : Type) where
  /-- Into a value. -/
  | down (value : Value)
  /-- Back out of a value with its result. -/
  | up (result : α)

/-- How much is left to do in open mappings. -/
def pending : List (Frame α) → Nat
  | [] => 0
  | f :: frames => 2 * weights f.rest + 1 + pending frames

/-- How much is left to do. -/
def Turn.load (turn : Turn α) (frames : List (Frame α)) : Nat :=
  match turn with
  | .down value => 2 * value.weight + pending frames
  | .up _ => pending frames

/-- Folds a value inside some open mappings. -/
def run (leaf : Bytes → α) (node : List (String × α) → α) (turn : Turn α)
    (frames : List (Frame α)) : α :=
  match turn, frames with
  | .down (.bytes b), frames => run leaf node (.up (leaf b)) frames
  | .down (.map []), frames => run leaf node (.up (node [])) frames
  | .down (.map ((key, value) :: rest)), frames =>
    run leaf node (.down value) (⟨key, [], rest⟩ :: frames)
  | .up result, [] => result
  | .up result, ⟨key, done, []⟩ :: frames =>
    run leaf node (.up (node ((key, result) :: done).reverse)) frames
  | .up result, ⟨key, done, (next, value) :: rest⟩ :: frames =>
    run leaf node (.down value) (⟨next, (key, result) :: done, rest⟩ :: frames)
termination_by turn.load frames
decreasing_by
  all_goals simp only [Turn.load, pending, weight, weights]; omega

/-- Computes something from a value: `leaf` says what it is for a byte string, and `node` what it
is for a mapping whose values have been replaced by their results. -/
def fold (leaf : Bytes → α) (node : List (String × α) → α) (value : Value) : α :=
  run leaf node (.down value) []

/-! ## §2 Laws of the fold -/

variable (leaf : Bytes → α) (node : List (String × α) → α)

mutual

/-- A value inside open mappings is replaced by its result. -/
theorem run_down (value : Value) (frames : List (Frame α)) :
    run leaf node (.down value) frames = run leaf node (.up (fold leaf node value)) frames := by
  match value with
  | .bytes b =>
    rw [fold, run, run, run]
  | .map [] =>
    rw [fold, run, run, run]
  | .map ((key, value) :: rest) =>
    have inner := run_entries value rest key []
    rw [run, inner, fold, run, inner, run]
termination_by 2 * value.weight
decreasing_by simp only [weight, weights]; omega

/-- The entries of an open mapping are replaced by their results. -/
theorem run_entries (value : Value) (rest : List (String × Value)) (key : String)
    (done : List (String × α)) (frames : List (Frame α)) :
    run leaf node (.down value) (⟨key, done, rest⟩ :: frames)
      = run leaf node
          (.up (node (done.reverse
            ++ ((key, value) :: rest).map fun e => (e.1, fold leaf node e.2)))) frames := by
  match rest with
  | [] =>
    rw [run_down value, run]
    simp
  | (next, value') :: rest =>
    rw [run_down value, run, run_entries value' rest next]
    simp
termination_by 2 * (value.weight + weights rest) + 1
decreasing_by all_goals (try simp only [weights]); omega

end

/-- A byte string is folded by the first function. -/
@[simp] theorem fold_bytes (b : Bytes) : fold leaf node (.bytes b) = leaf b := by
  rw [fold, run, run]

/-- A mapping is folded by the second function once its values have been folded. -/
@[simp] theorem fold_map (entries : List (String × Value)) :
    fold leaf node (.map entries)
      = node (entries.map fun e => (e.1, fold leaf node e.2)) := by
  match entries with
  | [] => rw [fold, run, run]; rfl
  | (key, value) :: rest =>
    rw [fold, run, run_entries, run]
    simp

end Value

end HashTree
