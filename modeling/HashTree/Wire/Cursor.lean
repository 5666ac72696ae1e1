import HashTree.Bytes
import HashTree.Wire.Fault

/-!
# Reading fields off a byte string

A cursor stands in a byte string. A reader takes a value off it and moves it on, or fails and
leaves it **where the failing part left it**: bytes that were taken stay taken, and a field that
ends too early takes nothing.
-/

namespace HashTree

/-- A place in a byte string: the bytes ahead, and how many lie behind. -/
structure Cursor where
  position : Nat
  rest : Bytes
  deriving DecidableEq, Repr

namespace Cursor

/-- The start of a byte string. -/
def start (bytes : Bytes) : Cursor := ⟨0, bytes⟩

/-- The number of bytes ahead. -/
def remaining (c : Cursor) : Nat := c.rest.length

end Cursor

/-- Takes a value off a cursor, or fails; either way it says where the cursor stands afterwards. -/
def Read (α : Type) : Type := Cursor → Except FormatError α × Cursor

namespace Read

variable {α β : Type}

/-! ## §1 Sequencing -/

/-- Reads nothing. -/
@[inline]
protected def pure (a : α) : Read α := fun c => (.ok a, c)

/-- Reads on with what was read, unless that failed. -/
@[inline]
protected def bind (r : Read α) (f : α → Read β) : Read β := fun c =>
  match r c with
  | (.ok a, c) => f a c
  | (.error e, c) => (.error e, c)

instance : Monad Read where
  pure := Read.pure
  bind := Read.bind

/-- Fails without moving. -/
@[inline]
def fail (e : FormatError) : Read α := fun c => (.error e, c)

/-- What the reader makes of a whole byte string, wherever it stops. -/
def run (r : Read α) (bytes : Bytes) : Except FormatError α :=
  (r (Cursor.start bytes)).1

/-! ## §2 Fields -/

/-- The next `n` bytes. -/
def take (l : Label) (n : Nat) : Read Bytes := fun c =>
  let (front, back) := c.rest.splitAt n
  if front.length < n then (.error l.unexpectedEnd, c)
  else (.ok front, ⟨c.position + n, back⟩)

/-- A number of `width` bytes, least significant first. -/
def number (width : Nat) (l : Label) : Read Nat := do
  return (← take l width).toNatLE

/-- A number of one byte. -/
def u8 (l : Label) : Read UInt8 := do
  return UInt8.ofNat (← number 1 l)

/-- A number of two bytes. -/
def u16 (l : Label) : Read UInt16 := do
  return UInt16.ofNat (← number 2 l)

/-- A number of four bytes. -/
def u32 (l : Label) : Read UInt32 := do
  return UInt32.ofNat (← number 4 l)

/-- A flag: zero or one. -/
def flag (l : Label) : Read Bool := do
  let b ← u8 l
  if b = 0 then return false
  else if b = 1 then return true
  else fail l.invalidValue

/-- Bytes preceded by their number. -/
def sized (l : Label) : Read Bytes := do
  let n ← u32 l
  take l n.toNat

/-- UTF-8 text preceded by the number of its bytes. -/
def text (l : Label) : Read String := do
  match (← sized l).toText? with
  | some s => return s
  | none => fail l.invalidValue

/-- A value preceded by a flag that says whether there is one. -/
def option (l : Label) (item : Read α) : Read (Option α) := do
  if ← flag l then
    let a ← item
    return some a
  else return none

/-- Reads `count` values; `done` holds those read so far, the last one first. -/
def repeated (item : Read α) : (count : Nat) → (done : List α) → Read (List α)
  | 0, done => Read.pure done.reverse
  | count + 1, done => fun c =>
    match item c with
    | (.ok a, c) => repeated item count (a :: done) c
    | (.error e, c) => (.error e, c)

/-- Are fewer than `n` bytes ahead? -/
def fewerThan (n : Nat) : Read Bool := fun c =>
  (.ok ((c.rest.take n).length < n), c)

/-- Values preceded by their number. A number larger than that of the bytes ahead is refused before
anything is read. -/
def list (l : Label) (item : Read α) : Read (List α) := do
  let count ← u32 l
  if ← fewerThan count.toNat then fail l.invalidLength
  else repeated item count.toNat []

/-- The end of the bytes. -/
def finish (place : Section) : Read Unit := fun c =>
  match c.rest with
  | [] => (.ok (), c)
  | _ :: _ => (.error ⟨place, .trailingBytes c.position c.remaining⟩, c)

end Read

end HashTree
