/-!
# Blank characters

The characters with the Unicode property White_Space, the removal of them at both ends of a text,
and the lowercasing of ASCII letters, which together make names comparable.
-/

namespace HashTree

namespace Text

/-- The ranges of the property **White_Space**, both ends included. -/
def blankRanges : List (Nat × Nat) :=
  [(0x0009, 0x000D), (0x0020, 0x0020), (0x0085, 0x0085), (0x00A0, 0x00A0), (0x1680, 0x1680),
   (0x2000, 0x200A), (0x2028, 0x2029), (0x202F, 0x202F), (0x205F, 0x205F), (0x3000, 0x3000)]

/-- Has the character the property White_Space? -/
def isBlank (c : Char) : Bool :=
  blankRanges.any fun range => range.1 ≤ c.toNat && c.toNat ≤ range.2

/-- Removes the blanks at both ends. -/
def strip (chars : List Char) : List Char :=
  ((chars.dropWhile isBlank).reverse.dropWhile isBlank).reverse

/-- The form under which a name is looked up: no blanks at its ends, ASCII letters in lowercase and
every other character as it stands. -/
def foldName (name : String) : String :=
  String.ofList ((strip name.toList).map Char.toLower)

end Text

end HashTree
