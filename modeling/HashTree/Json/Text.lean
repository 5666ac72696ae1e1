import HashTree.Json.Token

/-!
# JSON texts

The compact text of a value, and the value of a text. Reading runs over the tokens with a stack of
the arrays and objects that are still open, so it needs no recursion on the nesting.
-/

namespace HashTree

namespace Json

/-! ## §1 Writing -/

mutual

/-- The tokens of a value. -/
def toTokens : Json → List Token
  | .null => [.null]
  | .bool b => [.bool b]
  | .number n => [.number n]
  | .string s => [.string s]
  | .array items => .openArray :: (itemTokens items ++ [.closeArray])
  | .object members => .openObject :: (memberTokens members ++ [.closeObject])

/-- The tokens of the items of an array, with commas between them. -/
def itemTokens : List Json → List Token
  | [] => []
  | [item] => item.toTokens
  | item :: next :: items => item.toTokens ++ .comma :: itemTokens (next :: items)

/-- The tokens of the members of an object, with commas between them. -/
def memberTokens : List (String × Json) → List Token
  | [] => []
  | [(key, value)] => .string key :: .colon :: value.toTokens
  | (key, value) :: next :: members =>
    .string key :: .colon :: (value.toTokens ++ .comma :: memberTokens (next :: members))

end

/-- The text of a value without any blanks. -/
def compact (v : Json) : String :=
  String.ofList (v.toTokens.flatMap Token.chars)

/-! ## §2 Reading -/

/-- An array or object that is still open, with its parts so far, the last one first. -/
inductive Frame where
  | array (done : List Json)
  | object (done : List (String × Json)) (key : String)

/-- What may come next. -/
inductive Expect where
  /-- A value. -/
  | value
  /-- The first item of an array, or its end. -/
  | firstItem
  /-- The first key of an object, or its end. -/
  | firstKey
  /-- A further key of an object with the given members. -/
  | key (done : List (String × Json))
  /-- The colon after a key. -/
  | colon (done : List (String × Json)) (key : String)
  /-- Whatever may follow a finished value. -/
  | after (value : Json)

/-- The reader between two tokens. -/
structure Reading where
  expect : Expect
  frames : List Frame

/-- Reads the first token of a value. -/
def Reading.value (frames : List Frame) : Token → Option Reading
  | .null => some ⟨.after .null, frames⟩
  | .bool b => some ⟨.after (.bool b), frames⟩
  | .number n => some ⟨.after (.number n), frames⟩
  | .string s => some ⟨.after (.string s), frames⟩
  | .openArray => some ⟨.firstItem, .array [] :: frames⟩
  | .openObject => some ⟨.firstKey, frames⟩
  | _ => none

/-- Reads the token after a finished value. -/
def Reading.close (v : Json) : List Frame → Token → Option Reading
  | .array done :: frames, .comma => some ⟨.value, .array (v :: done) :: frames⟩
  | .array done :: frames, .closeArray => some ⟨.after (.array (v :: done).reverse), frames⟩
  | .object done key :: frames, .comma => some ⟨.key ((key, v) :: done), frames⟩
  | .object done key :: frames, .closeObject =>
    some ⟨.after (.object ((key, v) :: done).reverse), frames⟩
  | _, _ => none

/-- Reads one token. -/
def Reading.step (r : Reading) (token : Token) : Option Reading :=
  match r.expect, token with
  | .value, token => Reading.value r.frames token
  | .firstItem, .closeArray =>
    match r.frames with
    | .array _ :: frames => some ⟨.after (.array []), frames⟩
    | _ => none
  | .firstItem, token => Reading.value r.frames token
  | .firstKey, .closeObject => some ⟨.after (.object []), r.frames⟩
  | .firstKey, .string key => some ⟨.colon [] key, r.frames⟩
  | .key done, .string key => some ⟨.colon done key, r.frames⟩
  | .colon done key, .colon => some ⟨.value, .object done key :: r.frames⟩
  | .after v, token => Reading.close v r.frames token
  | _, _ => none

/-- The value that has been read, when nothing is open and nothing expected. -/
def Reading.result? : Reading → Option Json
  | ⟨.after v, []⟩ => some v
  | _ => none

/-- The value of a sequence of tokens. -/
def ofTokens? (tokens : List Token) : Option Json :=
  (tokens.foldlM Reading.step ⟨.value, []⟩).bind Reading.result?

/-- The value of a text. -/
def parse? (text : String) : Option Json :=
  (tokens? text.toList []).bind ofTokens?

end Json

end HashTree
