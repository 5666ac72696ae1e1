/-!
# JSON values

A JSON text denotes a value of the type below. Members of an object keep their order and their
repetitions, and a number keeps its digits, so that every reader can decide for itself which
texts it accepts.
-/

namespace HashTree

/-! ## §1 Numbers -/

/-- A number **as it is spelled**, each group of digits from the left. -/
structure Numeral where
  /-- Is there a minus sign? -/
  negative : Bool
  /-- The digits before the point. -/
  whole : List Nat
  /-- The digits after the point, if there is one. -/
  fraction : Option (List Nat)
  /-- The digits of the exponent, if there is one, and whether it is negative. -/
  exponent : Option (Bool × List Nat)
  deriving DecidableEq, Repr

namespace Numeral

/-- The digits of a number. -/
def digitsOf (n : Nat) : List Nat :=
  (Nat.toDigits 10 n).map fun c => c.toNat - 48

/-- The number with the given digits. -/
def valueOf (digits : List Nat) : Nat :=
  digits.foldl (fun n d => 10 * n + d) 0

/-- A natural number in its only integer spelling. -/
def ofNat (n : Nat) : Numeral :=
  ⟨false, digitsOf n, none, none⟩

/-- The natural number of an integer spelling without a sign. -/
def toNat? (n : Numeral) : Option Nat :=
  if n.negative || n.fraction.isSome || n.exponent.isSome then none
  else some (valueOf n.whole)

end Numeral

/-! ## §2 Values -/

/-- A JSON value. -/
inductive Json where
  | null
  | bool (value : Bool)
  | number (value : Numeral)
  | string (value : String)
  | array (items : List Json)
  | object (members : List (String × Json))
  deriving Repr

namespace Json

/-- A natural number. -/
def ofNat (n : Nat) : Json := .number (.ofNat n)

/-- The text of a string. -/
def toString? : Json → Option String
  | .string s => some s
  | _ => none

/-- The natural number of an integer without a sign. -/
def toNat? : Json → Option Nat
  | .number n => n.toNat?
  | _ => none

end Json

end HashTree
