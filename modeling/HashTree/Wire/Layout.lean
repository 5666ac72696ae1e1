import HashTree.Wire.Cursor
import HashTree.Wire.Output

/-!
# Layouts

A **field** is a value together with the way it is written. A **layout** says what is to be read,
and a **datum** is what was read. Fields and layouts nest to any depth through options and lists; they
describe every sequence of bytes that the writing and reading operations can produce and take apart.
-/

namespace HashTree

/-! ## §1 Fields -/

/-- A value to be written. -/
inductive Field where
  | u8 (n : UInt8)
  | u16 (n : UInt16)
  | u32 (n : UInt32)
  | index (l : Label) (n : Nat)
  | flag (b : Bool)
  | sized (l : Label) (bytes : Bytes)
  | text (l : Label) (s : String)
  | digest (l : Label) (width : Nat) (d : Bytes)
  | absent
  | present (item : Field)
  | list (l : Label) (items : List Field)
  deriving Repr

namespace Field

mutual

/-- The bytes of a field. -/
def write : Field → Output
  | .u8 n => Output.u8 n
  | .u16 n => Output.u16 n
  | .u32 n => Output.u32 n
  | .index l n => Output.index l n
  | .flag b => Output.flag b
  | .sized l bytes => Output.sized l bytes
  | .text l s => Output.text l s
  | .digest l width d => Output.digest l width d
  | .absent => Output.flag false
  | .present item => Output.flag true ++ item.write
  | .list l items => Output.index l items.length ++ Output.concat (writeEach items)

/-- The bytes of each of some fields. -/
def writeEach : List Field → List Output
  | [] => []
  | item :: items => item.write :: writeEach items

end

/-- Each field is written by itself. -/
theorem writeEach_eq_map (fields : List Field) : writeEach fields = fields.map write := by
  induction fields with
  | nil => rfl
  | cons field fields ih => simp [writeEach, ih]

end Field

/-! ## §2 Layouts -/

/-- What is to be read. -/
inductive Layout where
  | u8 (l : Label)
  | u16 (l : Label)
  | u32 (l : Label)
  | flag (l : Label)
  | take (l : Label) (n : Nat)
  | sized (l : Label)
  | text (l : Label)
  | option (l : Label) (item : Layout)
  | list (l : Label) (item : Layout)
  | finish (place : Section)
  deriving Repr

/-- What was read. -/
inductive Datum where
  | number (n : Nat)
  | flag (b : Bool)
  | bytes (b : Bytes)
  | text (s : String)
  | absent
  | present (item : Datum)
  | list (items : List Datum)
  | done
  deriving Repr

namespace Layout

/-- A digest of known width is so many bytes. -/
abbrev digest (l : Label) (width : Nat) : Layout := .take l width

/-- Reads what the layout says. -/
def read : Layout → Read Datum
  | .u8 l => do return .number (← Read.u8 l).toNat
  | .u16 l => do return .number (← Read.u16 l).toNat
  | .u32 l => do return .number (← Read.u32 l).toNat
  | .flag l => do return .flag (← Read.flag l)
  | .take l n => do return .bytes (← Read.take l n)
  | .sized l => do return .bytes (← Read.sized l)
  | .text l => do return .text (← Read.text l)
  | .option l item => do
    match ← Read.option l item.read with
    | none => return .absent
    | some d => return .present d
  | .list l item => do return .list (← Read.list l item.read)
  | .finish place => do
    Read.finish place
    return .done

end Layout

end HashTree
