/-!
# A byte shown as a quoted character

Diagnostics show an offending byte as the character of the same number between single quotes,
with a backslash escape where the character would not be legible.
-/

namespace HashTree

namespace Text

/-- The lowercase hexadecimal text of a number, without leading zeros. -/
def hexNumeral (n : Nat) : String :=
  String.ofList (Nat.toDigits 16 n)

/-- Is the character of this byte shown as itself? The two ranges of graphic characters are, the
soft hyphen excepted. -/
def showsItself (b : UInt8) : Bool :=
  (0x20 ≤ b && b ≤ 0x7E) || (0xA1 ≤ b && b != 0xAD)

/-- The legible form of a character below 256. -/
def legible (b : UInt8) : String :=
  if b = 0x00 then "\\0"
  else if b = 0x09 then "\\t"
  else if b = 0x0A then "\\n"
  else if b = 0x0D then "\\r"
  else if b = 0x27 then "\\'"
  else if b = 0x5C then "\\\\"
  else if showsItself b then String.singleton (Char.ofNat b.toNat)
  else "\\u\x7b" ++ hexNumeral b.toNat ++ "\x7d"

/-- The quoted form of a character below 256. -/
def quoteByte (b : UInt8) : String :=
  "'" ++ legible b ++ "'"

end Text

end HashTree
