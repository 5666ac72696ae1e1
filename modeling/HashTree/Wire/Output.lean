import HashTree.Bytes
import HashTree.Wire.Fault

/-!
# Writing fields as bytes

An output is the bytes of some fields, up to the first field that cannot be written. Outputs are
joined end to end; after a failure nothing is added.
-/

namespace HashTree

/-- The bytes of some fields, and the failure that ended them if there was one. -/
structure Output where
  bytes : Bytes
  error : Option FormatError
  deriving DecidableEq, Repr

namespace Output

variable {α : Type}

/-! ## §1 Joining -/

/-- No fields. -/
def empty : Output := ⟨[], none⟩

/-- Bytes that can be written. -/
def ofBytes (bytes : Bytes) : Output := ⟨bytes, none⟩

/-- A failure before anything was written. -/
def fail (e : FormatError) : Output := ⟨[], some e⟩

/-- The second output after the first, unless the first failed. -/
def append (o p : Output) : Output :=
  match o.error with
  | some _ => o
  | none => ⟨o.bytes ++ p.bytes, p.error⟩

instance : Append Output := ⟨append⟩

/-- Outputs one after the other, up to the first failure. -/
def concat (parts : List Output) : Output :=
  let written := parts.takeWhile (·.error.isNone)
  let rest := parts.dropWhile (·.error.isNone)
  ofBytes (written.flatMap (·.bytes)) ++ rest.headD empty

/-- The bytes of an output that did not fail. -/
def toExcept (o : Output) : Except FormatError Bytes :=
  match o.error with
  | some e => .error e
  | none => .ok o.bytes

/-! ## §2 Fields -/

/-- A number of `width` bytes, least significant first. -/
def number (width n : Nat) : Output := ofBytes (Bytes.ofNatLE width n)

/-- A number of one byte. -/
def u8 (n : UInt8) : Output := number 1 n.toNat

/-- A number of two bytes. -/
def u16 (n : UInt16) : Output := number 2 n.toNat

/-- A number of four bytes. -/
def u32 (n : UInt32) : Output := number 4 n.toNat

/-- A flag: zero or one. -/
def flag (b : Bool) : Output := u8 (if b then 1 else 0)

/-- A length or an index, in four bytes. -/
def index (l : Label) (n : Nat) : Output :=
  match l.checkIndex n with
  | .ok n => u32 n
  | .error e => fail e

/-- Bytes preceded by their number. -/
def sized (l : Label) (bytes : Bytes) : Output :=
  index l bytes.length ++ ofBytes bytes

/-- UTF-8 text preceded by the number of its bytes. -/
def text (l : Label) (s : String) : Output :=
  sized l (Bytes.ofText s)

/-- A digest whose width both sides know, without its length. -/
def digest (l : Label) (width : Nat) (d : Bytes) : Output :=
  if d.length = width then ofBytes d else fail l.invalidLength

/-- A value preceded by a flag that says whether there is one. -/
def option (put : α → Output) : Option α → Output
  | none => flag false
  | some a => flag true ++ put a

/-- Values preceded by their number. -/
def list (l : Label) (put : α → Output) (items : List α) : Output :=
  index l items.length ++ concat (items.map put)

end Output

end HashTree
