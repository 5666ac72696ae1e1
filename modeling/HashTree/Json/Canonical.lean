import HashTree.Decimal.Shortest
import HashTree.Json.Text

/-!
# Canonical JSON values

Two texts that differ in the order of members or in the spelling of numbers may denote the same
data. The canonical value of a text sorts the members of every object by key, the last of several
with one key winning, and spells every number in one way: integers of 64 bits by their digits, all
others as doubles by their shortest digits.
-/

namespace HashTree

namespace Numeral

/-! ## §1 The double of a spelling -/

/-- The digits that are looked at, as one number, and the power of ten it is multiplied by. -/
structure Scaled where
  significand : Nat
  exponent : Int
  deriving DecidableEq, Repr

/-- Takes digits before the point while the number stays below `2 ^ 64`. Each digit after that
only counts as a factor of ten. -/
def takeWhole : List Nat → (full : Bool) → Scaled → Scaled
  | [], _, s => s
  | d :: rest, full, s =>
    if full || UInt64.size ≤ 10 * s.significand + d then
      takeWhole rest true { s with exponent := s.exponent + 1 }
    else takeWhole rest false { s with significand := 10 * s.significand + d }

/-- Takes digits after the point while the number stays below `2 ^ 64`. -/
def takeFraction : List Nat → Scaled → Scaled
  | [], s => s
  | d :: rest, s =>
    if UInt64.size ≤ 10 * s.significand + d then s
    else takeFraction rest ⟨10 * s.significand + d, s.exponent - 1⟩

/-- A power of ten as a double. -/
def tenTo (n : Nat) : Float := Float.ofScientific 1 false n

/-- Divides by a power of ten, at most `10 ^ 308` at a time. -/
def shrink (f : Float) : (steps n : Nat) → Float
  | 0, _ => f
  | steps + 1, n =>
    if n ≤ 308 then f / tenTo n
    else if f == 0 then f
    else shrink (f / tenTo 308) steps (n - 308)

/-- The double of a scaled number, by one rounding to a double and one multiplication or some
divisions. Nothing when it is too large. -/
def Scaled.toFloat? (s : Scaled) : Option Float :=
  let f := s.significand.toUInt64.toFloat
  match s.exponent with
  | .ofNat n =>
    if n ≤ 308 then
      let g := f * tenTo n
      if g.isInf then none else some g
    else if f == 0 then some f else none
  | .negSucc n => some (shrink f (n / 308 + 2) (n + 1))

/-- The largest exponent that is taken at its value. -/
def largestExponent : Nat := 0x7FFFFFFF

/-- The double of a spelling. Nothing when it is too large. -/
def toFloat? (n : Numeral) : Option Float :=
  let s := takeFraction (n.fraction.getD []) (takeWhole n.whole false ⟨0, 0⟩)
  let size := match n.exponent with
    | none => s.toFloat?
    | some (negative, digits) =>
      let e := valueOf digits
      if e ≤ largestExponent then
        Scaled.toFloat? ⟨s.significand, if negative then s.exponent - e else s.exponent + e⟩
      else if negative || s.significand = 0 then some 0 else none
  size.map fun f => if n.negative then -f else f

/-! ## §2 The spelling of a double -/

/-- The spelling of a positive decimal without trailing zeros: **positional** while the first digit
stands for a power of ten from `10 ^ (-5)` to `10 ^ 15`, with at least one digit after the point,
and with one digit before the point and an exponent otherwise. -/
def ofDecimal (negative : Bool) (d : Decimal) : Numeral :=
  let digits := digitsOf d.significand
  let leading := digits.length + d.exponent - 1
  if -5 ≤ leading ∧ leading ≤ 15 then
    if 0 ≤ d.exponent then
      ⟨negative, digits ++ List.replicate d.exponent.toNat 0, some [0], none⟩
    else if 0 ≤ leading then
      let n := (leading + 1).toNat
      ⟨negative, digits.take n, some (digits.drop n), none⟩
    else
      ⟨negative, [0], some (List.replicate (-leading - 1).toNat 0 ++ digits), none⟩
  else
    let rest := digits.drop 1
    ⟨negative, digits.take 1, if rest.isEmpty then none else some rest,
     some (leading < 0, digitsOf leading.natAbs)⟩

/-- The number of the highest of 64 bits, which holds the sign of an integer or a double. -/
def signBit : Nat := 0x8000000000000000

/-- The spelling of a finite double by its shortest digits. -/
def ofFloat (f : Float) : Numeral :=
  let bits := f.toBits.toNat
  let negative := signBit ≤ bits
  let size := bits % signBit
  if size = 0 then ⟨negative, [0], some [0], none⟩
  else ofDecimal negative (Decimal.ofBits size)

/-! ## §3 Canonical values -/

/-- Is the number spelled as an integer that fits in 64 bits, with or without a sign? Negative zero
does not count. -/
def fitsInteger (n : Numeral) : Bool :=
  let size := valueOf n.whole
  n.fraction.isNone && n.exponent.isNone &&
    (if n.negative then size ≠ 0 && size ≤ signBit else size < UInt64.size)

/-- The one spelling of a number. A number too large for a double stays as it is. -/
def canonical (n : Numeral) : Numeral :=
  if n.fitsInteger then n else (n.toFloat?.map ofFloat).getD n

end Numeral

namespace Json

/-- Puts a member in front of members sorted by key, unless the first of them has its key. -/
def putFirst (m : String × Json) : List (String × Json) → List (String × Json)
  | [] => [m]
  | n :: rest => if m.1 = n.1 then n :: rest else m :: n :: rest

/-- Members sorted by key, the last of several with one key winning. -/
def sortMembers (members : List (String × Json)) : List (String × Json) :=
  (members.mergeSort fun m n => m.1 ≤ n.1).foldr putFirst []

mutual

/-- The canonical form of a value. -/
def canonical : Json → Json
  | .number n => .number n.canonical
  | .array items => .array (canonicalItems items)
  | .object members => .object (sortMembers (canonicalMembers members))
  | v => v

/-- The canonical forms of items. -/
def canonicalItems : List Json → List Json
  | [] => []
  | item :: items => item.canonical :: canonicalItems items

/-- The members with their values in canonical form. -/
def canonicalMembers : List (String × Json) → List (String × Json)
  | [] => []
  | (key, value) :: members => (key, value.canonical) :: canonicalMembers members

end

end Json

end HashTree
