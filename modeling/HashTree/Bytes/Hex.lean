import HashTree.Bytes
import HashTree.Text.Quoted

/-!
# Hexadecimal text

Two digits a byte, the high half first. Writing uses lowercase digits; reading takes both cases
and names the first thing that is wrong with a text it refuses.
-/

namespace HashTree

namespace Hex

/-! ## §1 Writing -/

/-- The lowercase digit of a number below sixteen. -/
def digit (n : Nat) : Char :=
  if n < 10 then Char.ofNat (48 + n) else Char.ofNat (87 + n)

/-- The two digits of a byte. -/
def digits (b : UInt8) : List Char :=
  [digit (b.toNat / 16), digit (b.toNat % 16)]

/-- The hexadecimal text of a byte string. -/
def encode (bytes : Bytes) : String :=
  String.ofList (bytes.flatMap digits)

/-! ## §2 Reading -/

/-- Why a text is not hexadecimal. -/
inductive Fault where
  /-- The number of bytes of the text is odd, so the last digit has no partner. -/
  | oddLength
  /-- The byte at this offset is no digit. -/
  | badDigit (byte : UInt8) (position : Nat)
  deriving DecidableEq, Repr

/-- The wording of a fault. -/
def Fault.message : Fault → String
  | .oddLength => "Odd number of digits"
  | .badDigit byte position =>
    "Invalid character " ++ Text.quoteByte byte ++ " at position " ++ toString position

/-- The value of a digit of either case. -/
def value? (c : Char) : Option Nat :=
  if '0' ≤ c ∧ c ≤ '9' then some (c.toNat - 48)
  else if 'a' ≤ c ∧ c ≤ 'f' then some (c.toNat - 87)
  else if 'A' ≤ c ∧ c ≤ 'F' then some (c.toNat - 55)
  else none

/-- The fault of a character that is no digit: its first byte is the one that is named. All
characters before it are digits of one byte each, so its offset is their count. -/
def badAt (c : Char) (position : Nat) : Fault :=
  .badDigit ((String.utf8EncodeChar c).headD 0) position

/-- Reads pairs of digits; `done` holds the bytes read so far, the last one first. -/
def decodePairs : (position : Nat) → List Char → (done : Bytes) → Except Fault Bytes
  | _, [], done => .ok done.reverse
  | position, [c], _ => .error (badAt c position)
  | position, c :: d :: rest, done =>
    match value? c, value? d with
    | none, _ => .error (badAt c position)
    | some _, none => .error (badAt d (position + 1))
    | some high, some low =>
      decodePairs (position + 2) rest (UInt8.ofNat (16 * high + low) :: done)

/-- Reads a hexadecimal text. The length is judged first, then the digits from the left. -/
def decode (text : String) : Except Fault Bytes :=
  if text.utf8ByteSize % 2 = 1 then .error .oddLength
  else decodePairs 0 text.toList []

end Hex

end HashTree
