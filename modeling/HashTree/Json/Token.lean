import HashTree.Bytes.Hex
import HashTree.Json.Basic

/-!
# JSON tokens

A JSON text is a sequence of tokens with blanks between them. This module writes a token and cuts a
text into tokens. Cutting is by the **longest run**: a word or a number extends as far as the
characters that may stand in one, so that a text is refused where a run is neither.
-/

namespace HashTree

namespace Json

/-- The parts of a JSON text. -/
inductive Token where
  | openArray
  | closeArray
  | openObject
  | closeObject
  | comma
  | colon
  | null
  | bool (value : Bool)
  | number (value : Numeral)
  | string (value : String)
  deriving DecidableEq, Repr

/-! ## §1 Writing strings -/

/-- The spelling of a character inside a string: only the quote, the backslash and the control
characters are escaped. -/
def escapeChar (c : Char) : List Char :=
  if c = '"' then ['\\', '"']
  else if c = '\\' then ['\\', '\\']
  else if c = '\x08' then ['\\', 'b']
  else if c = '\x0c' then ['\\', 'f']
  else if c = '\n' then ['\\', 'n']
  else if c = '\r' then ['\\', 'r']
  else if c = '\t' then ['\\', 't']
  else if c.toNat < 32 then
    ['\\', 'u', '0', '0', Nat.digitChar (c.toNat / 16), Nat.digitChar (c.toNat % 16)]
  else [c]

/-- The spelling of a string with its quotes. -/
def quoted (s : String) : List Char :=
  '"' :: (s.toList.flatMap escapeChar ++ ['"'])

/-! ## §2 Writing numbers -/

/-- The characters of digits. -/
def digitChars (digits : List Nat) : List Char :=
  digits.map Nat.digitChar

/-- The spelling of a number. An exponent always carries its sign. -/
def numeralChars (n : Numeral) : List Char :=
  let sign := if n.negative then ['-'] else []
  let fraction := match n.fraction with
    | none => []
    | some digits => '.' :: digitChars digits
  let exponent := match n.exponent with
    | none => []
    | some (negative, digits) => 'e' :: (if negative then '-' else '+') :: digitChars digits
  sign ++ digitChars n.whole ++ fraction ++ exponent

/-- The spelling of a token. -/
def Token.chars : Token → List Char
  | .openArray => ['[']
  | .closeArray => [']']
  | .openObject => ['\x7b']
  | .closeObject => ['\x7d']
  | .comma => [',']
  | .colon => [':']
  | .null => ['n', 'u', 'l', 'l']
  | .bool true => ['t', 'r', 'u', 'e']
  | .bool false => ['f', 'a', 'l', 's', 'e']
  | .number n => numeralChars n
  | .string s => quoted s

/-! ## §3 Reading strings -/

/-- The number of four hexadecimal digits. -/
def unit? (a b c d : Char) : Option Nat :=
  match Hex.value? a, Hex.value? b, Hex.value? c, Hex.value? d with
  | some a, some b, some c, some d => some (4096 * a + 256 * b + 16 * c + d)
  | _, _, _, _ => none

/-- The character of a one-letter escape. -/
def escaped? (c : Char) : Option Char :=
  if c = '"' ∨ c = '\\' ∨ c = '/' then some c
  else if c = 'b' then some '\x08'
  else if c = 'f' then some '\x0c'
  else if c = 'n' then some '\n'
  else if c = 'r' then some '\r'
  else if c = 't' then some '\t'
  else none

/-- What an escaped 16-bit unit contributes, given the first half of a pair that may be waiting:
a character, or the first half of a pair. A second half without a first, and a first half without
a second, are no text. -/
inductive Contribution where
  | char (c : Char)
  | half (high : Nat)
  | none

/-- Joins an escaped unit to what waits before it. -/
def contribute (waiting : Option Nat) (unit : Nat) : Contribution :=
  let isHigh := 0xD800 ≤ unit && unit < 0xDC00
  let isLow := 0xDC00 ≤ unit && unit < 0xE000
  match waiting with
  | some high =>
    if isLow then .char (Char.ofNat (0x10000 + 1024 * (high - 0xD800) + (unit - 0xDC00))) else .none
  | none =>
    if isHigh then .half unit else if isLow then .none else .char (Char.ofNat unit)

/-- Resolves the escapes of a string's inner characters; `done` holds the result so far, the last
character first. -/
def unescape : List Char → (waiting : Option Nat) → (done : List Char) → Option String
  | [], none, done => some (String.ofList done.reverse)
  | [], some _, _ => none
  | '\\' :: 'u' :: a :: b :: c :: d :: rest, waiting, done =>
    match unit? a b c d with
    | none => none
    | some unit =>
      match contribute waiting unit with
      | .char c => unescape rest none (c :: done)
      | .half high => unescape rest (some high) done
      | .none => none
  | '\\' :: c :: rest, none, done =>
    match escaped? c with
    | none => none
    | some c => unescape rest none (c :: done)
  | c :: rest, none, done => if c = '\\' then none else unescape rest none (c :: done)
  | _ :: _, some _, _ => none

/-- Splits a text after an opening quote into the characters up to the closing one and what
follows it. Control characters may not stand in between. -/
def splitQuoted : List Char → (inner : List Char) → Option (List Char × List Char)
  | [], _ => none
  | c :: rest, inner =>
    if c = '"' then some (inner.reverse, rest)
    else if c.toNat < 32 then none
    else if c = '\\' then
      match rest with
      | [] => none
      | d :: rest => splitQuoted rest (d :: c :: inner)
    else splitQuoted rest (c :: inner)

/-- What follows a string is shorter than what its opening quote stood before. -/
theorem length_of_splitQuoted {chars inner body rest : List Char}
    (h : splitQuoted chars inner = some (body, rest)) : rest.length < chars.length := by
  fun_induction splitQuoted chars inner
  -- each step drops a character or an escaped pair; the other branches have no result
  all_goals simp_all <;> omega

/-! ## §4 Reading numbers and words -/

/-- The value of a decimal digit. -/
def digit? (c : Char) : Option Nat :=
  if '0' ≤ c ∧ c ≤ '9' then some (c.toNat - 48) else none

/-- The longest run of digits at the front, and the rest. -/
def splitDigits : List Char → List Nat × List Char
  | [] => ([], [])
  | c :: rest =>
    match digit? c with
    | none => ([], c :: rest)
    | some d => let (digits, rest) := splitDigits rest; (d :: digits, rest)

/-- Reads an exponent, or nothing, to the end. -/
def readExponent : List Char → Option (Option (Bool × List Nat))
  | [] => some none
  | c :: rest =>
    if c = 'e' ∨ c = 'E' then
      let (negative, rest) := match rest with
        | '-' :: rest => (true, rest)
        | '+' :: rest => (false, rest)
        | rest => (false, rest)
      match splitDigits rest with
      | ([], _) => none
      | (digits, []) => some (some (negative, digits))
      | (_, _ :: _) => none
    else none

/-- Reads a fraction, or nothing. -/
def readFraction : List Char → Option (Option (List Nat) × List Char)
  | '.' :: rest =>
    match splitDigits rest with
    | ([], _) => none
    | (digits, rest) => some (some digits, rest)
  | rest => some (none, rest)

/-- Reads a run as a number. No digit may stand before a leading zero. -/
def readNumeral (run : List Char) : Option Numeral :=
  let (negative, run) := match run with
    | '-' :: rest => (true, rest)
    | rest => (false, rest)
  match splitDigits run with
  | ([], _) => none
  | (0 :: _ :: _, _) => none
  | (whole, rest) => do
    let (fraction, rest) ← readFraction rest
    let exponent ← readExponent rest
    return ⟨negative, whole, fraction, exponent⟩

/-- Reads a run as a word or a number. -/
def readRun (run : List Char) : Option Token :=
  if run = ['n', 'u', 'l', 'l'] then some .null
  else if run = ['t', 'r', 'u', 'e'] then some (.bool true)
  else if run = ['f', 'a', 'l', 's', 'e'] then some (.bool false)
  else (readNumeral run).map .number

/-- May the character stand in a word or a number? -/
def inRun (c : Char) : Bool :=
  c.isAlphanum || c == '+' || c == '-' || c == '.'

/-! ## §5 Cutting a text into tokens -/

/-- The four characters that may stand between tokens. -/
def isSpace (c : Char) : Bool :=
  c == ' ' || c == '\t' || c == '\n' || c == '\r'

/-- The token of a single character. -/
def mark? (c : Char) : Option Token :=
  if c = '[' then some .openArray
  else if c = ']' then some .closeArray
  else if c = '\x7b' then some .openObject
  else if c = '\x7d' then some .closeObject
  else if c = ',' then some .comma
  else if c = ':' then some .colon
  else none

/-- The token that starts with the character `c`, and what follows it. -/
def splitToken (c : Char) (rest : List Char) : Option (Token × List Char) :=
  match mark? c with
  | some token => some (token, rest)
  | none =>
    if c = '"' then
      match splitQuoted rest [] with
      | none => none
      | some (inner, rest) => (unescape inner none []).map fun text => (.string text, rest)
    else if inRun c then
      (readRun (c :: rest.takeWhile inRun)).map fun token => (token, rest.dropWhile inRun)
    else none

/-- A token takes at least one character. -/
theorem length_of_splitToken {c : Char} {rest rest' : List Char} {token : Token}
    (h : splitToken c rest = some (token, rest')) : rest'.length ≤ rest.length := by
  unfold splitToken at h
  split at h
  · -- a mark
    simp_all
  · split at h
    · -- a string
      split at h
      · simp at h
      · next inner after hq =>
        have := length_of_splitQuoted hq
        obtain ⟨_, _, h⟩ := Option.map_eq_some_iff.1 h
        simp only [Prod.mk.injEq] at h
        rw [← h.2]
        omega
    · split at h
      · -- a run
        obtain ⟨_, _, h⟩ := Option.map_eq_some_iff.1 h
        simp only [Prod.mk.injEq] at h
        rw [← h.2]
        exact (List.dropWhile_suffix inRun).length_le
      · simp at h

/-- Cuts a text into tokens; `done` holds those cut off so far, the last one first. -/
def tokens? (chars : List Char) (done : List Token) : Option (List Token) :=
  match chars with
  | [] => some done.reverse
  | c :: rest =>
    if isSpace c then tokens? rest done
    else
      match _h : splitToken c rest with
      | none => none
      | some (token, rest') => tokens? rest' (token :: done)
termination_by chars.length
decreasing_by
  · simp
  · have := length_of_splitToken _h
    simp only [List.length_cons]
    omega

end Json

end HashTree
