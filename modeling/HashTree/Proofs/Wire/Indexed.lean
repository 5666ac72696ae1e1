import HashTree.Proofs.Wire.Mirror
import HashTree.Wire.Layout

/-!
# Reading by an offset

A cursor holds the bytes ahead, and its numbers have no bound. Memory holds **all the bytes** in one
place and keeps numbers in words: a reader over it has an offset, adds to it, and slices the bytes
from one index to another. A sum can be too large for a word, and a slice out of range is a
**trap**, after which there is no answer at all. Here every operation is said over again in these
terms. No operation traps, and each answers what it answers on a cursor and moves the offset as the
cursor moves.
-/

namespace HashTree

/-! ## §1 Memory -/

/-- A byte string in memory. A word can hold its length, and any number of four bytes. -/
structure Memory where
  bytes : Bytes
  /-- How many numbers a word can hold. -/
  words : Nat
  length_lt : bytes.length < words
  u32_le : UInt32.size ≤ words

namespace Memory

/-- Any byte string can lie in memory. -/
def ofBytes (bytes : Bytes) : Memory :=
  ⟨bytes, bytes.length + UInt32.size, by simp [UInt32.size], Nat.le_add_left _ _⟩

variable (m : Memory)

/-- The sum of two words, unless a word cannot hold it. -/
def sum? (x y : Nat) : Option Nat := if x + y < m.words then some (x + y) else none

/-- The bytes from one index to another, if the indices are in order and in range. -/
def slice? (start stop : Nat) : Option Bytes :=
  if start ≤ stop ∧ stop ≤ m.bytes.length then some (m.bytes.extract start stop) else none

/-- The number of bytes behind an offset; none where there is no such offset. -/
def remaining (offset : Nat) : Nat := m.bytes.length - offset

end Memory

/-! ## §2 Operations over an offset -/

/-- Takes a value off the bytes or fails, and says what the offset is afterwards. To give nothing
is to **trap**. -/
def Indexed (α : Type) : Type := Memory → Nat → Option (Except FormatError α × Nat)

namespace Indexed

variable {α β : Type}

/-- Reads on with what was read, unless that failed or trapped. -/
protected def bind (r : Indexed α) (f : α → Indexed β) : Indexed β := fun m offset =>
  match r m offset with
  | some (.ok a, offset) => f a m offset
  | some (.error e, offset) => some (.error e, offset)
  | none => none

instance : Monad Indexed where
  pure a := fun _ offset => some (.ok a, offset)
  bind := Indexed.bind

/-- Fails without moving. -/
def fail (e : FormatError) : Indexed α := fun _ offset => some (.error e, offset)

/-- Gives no answer. -/
def trap : Indexed α := fun _ _ => none

/-- The next `n` bytes. The sum is checked before it is compared, and only then the bytes are
sliced. -/
def take (l : Label) (n : Nat) : Indexed Bytes := fun m offset =>
  match (m.sum? offset n).filter (· ≤ m.bytes.length) with
  | none => some (.error l.unexpectedEnd, offset)
  | some stop => (m.slice? offset stop).map fun part => (.ok part, stop)

/-- A number of `width` bytes, copied to a place of that size. A copy of another size traps. -/
def number (width : Nat) (l : Label) : Indexed Nat := do
  let part ← take l width
  if part.length = width then return part.toNatLE else trap

/-- A number of one byte. -/
def u8 (l : Label) : Indexed UInt8 := do
  return UInt8.ofNat (← number 1 l)

/-- A number of two bytes. -/
def u16 (l : Label) : Indexed UInt16 := do
  return UInt16.ofNat (← number 2 l)

/-- A number of four bytes. -/
def u32 (l : Label) : Indexed UInt32 := do
  return UInt32.ofNat (← number 4 l)

/-- A flag: zero or one. -/
def flag (l : Label) : Indexed Bool := do
  let b ← u8 l
  if b = 0 then return false
  else if b = 1 then return true
  else fail l.invalidValue

/-- Bytes preceded by their number. -/
def sized (l : Label) : Indexed Bytes := do
  let n ← u32 l
  take l n.toNat

/-- UTF-8 text preceded by the number of its bytes. -/
def text (l : Label) : Indexed String := do
  match (← sized l).toText? with
  | some s => return s
  | none => fail l.invalidValue

/-- A value preceded by a flag that says whether there is one. -/
def option (l : Label) (item : Indexed α) : Indexed (Option α) := do
  if ← flag l then
    let a ← item
    return some a
  else return none

/-- Reads `count` values; `done` holds those read so far, the last one first. -/
def repeated (item : Indexed α) : (count : Nat) → (done : List α) → Indexed (List α)
  | 0, done => return done.reverse
  | count + 1, done => do
    let a ← item
    repeated item count (a :: done)

/-- Are fewer than `n` bytes ahead? -/
def fewerThan (n : Nat) : Indexed Bool := fun m offset =>
  some (.ok (m.remaining offset < n), offset)

/-- Values preceded by their number. -/
def list (l : Label) (item : Indexed α) : Indexed (List α) := do
  let count ← u32 l
  if ← fewerThan count.toNat then fail l.invalidLength
  else repeated item count.toNat []

/-- The end of the bytes. -/
def finish (place : Section) : Indexed Unit := fun m offset =>
  if m.remaining offset = 0 then some (.ok (), offset)
  else some (.error ⟨place, .trailingBytes offset (m.remaining offset)⟩, offset)

/-- Reads what the layout says. -/
def read : Layout → Indexed Datum
  | .u8 l => do return .number (← u8 l).toNat
  | .u16 l => do return .number (← u16 l).toNat
  | .u32 l => do return .number (← u32 l).toNat
  | .flag l => do return .flag (← flag l)
  | .take l n => do return .bytes (← take l n)
  | .sized l => do return .bytes (← sized l)
  | .text l => do return .text (← text l)
  | .option l item => do
    match ← option l (read item) with
    | none => return .absent
    | some d => return .present d
  | .list l item => do return .list (← list l (read item))
  | .finish place => do
    finish place
    return .done

/-! ## §3 Agreement -/

/-- The operation **agrees** with one on a cursor: from any offset in the bytes it does not trap, it
answers the same, and it moves on as far as the cursor, never back and never past the end. -/
def Agrees (r : Indexed α) (s : Read α) : Prop :=
  ∀ (m : Memory) {offset : Nat}, offset ≤ m.bytes.length → ∃ outcome next,
    r m offset = some (outcome, next)
      ∧ s (Cursor.atOffset m.bytes offset) = (outcome, Cursor.atOffset m.bytes next)
      ∧ offset ≤ next ∧ next ≤ m.bytes.length

variable {l : Label} {r : Indexed α} {s : Read α}

theorem agrees_pure (a : α) : Agrees (pure a) (pure a) :=
  fun _ offset h => ⟨.ok a, offset, rfl, rfl, Nat.le_refl offset, h⟩

theorem agrees_fail (e : FormatError) : Agrees (fail e : Indexed α) (Read.fail e) :=
  fun _ offset h => ⟨.error e, offset, rfl, rfl, Nat.le_refl offset, h⟩

theorem Agrees.bind {f : α → Indexed β} {g : α → Read β} (h : Agrees r s)
    (hf : ∀ a, Agrees (f a) (g a)) : Agrees (r >>= f) (s >>= g) := by
  intro m offset hoffset
  obtain ⟨outcome, next, hr, hs, hle, hnext⟩ := h m hoffset
  have hindexed : (r >>= f) m offset = Indexed.bind r f m offset := rfl
  have hread : ∀ c, (s >>= g) c = Read.bind s g c := fun _ => rfl
  cases outcome with
  | error e =>
    refine ⟨.error e, next, ?_, ?_, hle, hnext⟩
    · rw [hindexed, Indexed.bind, hr]
    · rw [hread, Read.bind, hs]
  | ok a =>
    obtain ⟨outcome, last, hfa, hga, hle', hlast⟩ := hf a m hnext
    refine ⟨outcome, last, ?_, ?_, Nat.le_trans hle hle', hlast⟩
    · rw [hindexed, Indexed.bind, hr]
      exact hfa
    · rw [hread, Read.bind, hs]
      exact hga

theorem Agrees.map (h : Agrees r s) (f : α → β) :
    Agrees (do return f (← r)) (do return f (← s)) :=
  h.bind fun a => agrees_pure (f a)

/-- **The sum is a word and the slice is in range** where there are enough bytes. Where there are
not, nothing is sliced. -/
theorem agrees_take (l : Label) (n : Nat) : Agrees (take l n) (Read.take l n) := by
  intro m offset hoffset
  have hahead : (m.bytes.drop offset).length = m.bytes.length - offset := List.length_drop
  by_cases hfits : offset + n ≤ m.bytes.length
  · -- the length of the bytes is a word, and so is the smaller sum
    have hsum : (m.sum? offset n).filter (· ≤ m.bytes.length) = some (offset + n) := by
      rw [Memory.sum?, if_pos (Nat.lt_of_le_of_lt hfits m.length_lt)]
      simpa using hfits
    have hslice : m.slice? offset (offset + n) = some (m.bytes.extract offset (offset + n)) :=
      if_pos ⟨Nat.le_add_right offset n, hfits⟩
    refine ⟨.ok (m.bytes.extract offset (offset + n)), offset + n, ?_, ?_,
      Nat.le_add_right offset n, hfits⟩
    · rw [take, hsum]
      dsimp only
      rw [hslice, Option.map_some]
    · have henough : ¬ ((m.bytes.drop offset).take n).length < n := by
        rw [List.length_take, hahead]
        omega
      rw [Read.take, Cursor.atOffset, List.splitAt_eq]
      dsimp only
      rw [if_neg henough, List.drop_drop, List.extract_eq_take_drop, Nat.add_sub_cancel_left,
        Cursor.atOffset]
  · have hsum : (m.sum? offset n).filter (· ≤ m.bytes.length) = none := by
      rw [Memory.sum?]
      split
      · simpa using hfits
      · rfl
    have hshort : ((m.bytes.drop offset).take n).length < n := by
      rw [List.length_take, hahead]
      omega
    refine ⟨.error l.unexpectedEnd, offset, ?_, ?_, Nat.le_refl offset, hoffset⟩
    · rw [take, hsum]
    · rw [Read.take, Cursor.atOffset, List.splitAt_eq]
      dsimp only
      rw [if_pos hshort]

/-- A number that is read has its width, so **the copy is of the right size**. -/
theorem agrees_number (width : Nat) (l : Label) :
    Agrees (number width l) (Read.number width l) := by
  intro m offset hoffset
  obtain ⟨outcome, next, hr, hs, hle, hnext⟩ := agrees_take l width m hoffset
  have hindexed : number width l m offset = Indexed.bind (take l width) (fun part =>
    if part.length = width then return part.toNatLE else trap) m offset := rfl
  have hread : Read.number width l (Cursor.atOffset m.bytes offset)
    = Read.bind (Read.take l width) (fun part => return part.toNatLE)
      (Cursor.atOffset m.bytes offset) := rfl
  rw [hindexed, hread, Indexed.bind, Read.bind, hr, hs]
  cases outcome with
  | error e => exact ⟨.error e, next, rfl, rfl, hle, hnext⟩
  | ok part =>
    have hwidth := (Read.take_eq_ok_iff.mp hs).1
    refine ⟨.ok part.toNatLE, next, ?_, rfl, hle, hnext⟩
    dsimp only
    rw [if_pos hwidth]
    rfl

theorem agrees_u8 (l : Label) : Agrees (u8 l) (Read.u8 l) := (agrees_number 1 l).map _

theorem agrees_u16 (l : Label) : Agrees (u16 l) (Read.u16 l) := (agrees_number 2 l).map _

theorem agrees_u32 (l : Label) : Agrees (u32 l) (Read.u32 l) := (agrees_number 4 l).map _

theorem agrees_flag (l : Label) : Agrees (flag l) (Read.flag l) := by
  refine (agrees_u8 l).bind fun b => ?_
  split
  · exact agrees_pure false
  · split
    · exact agrees_pure true
    · exact agrees_fail _

theorem agrees_sized (l : Label) : Agrees (sized l) (Read.sized l) :=
  (agrees_u32 l).bind fun n => agrees_take l n.toNat

theorem agrees_text (l : Label) : Agrees (text l) (Read.text l) := by
  refine (agrees_sized l).bind fun bytes => ?_
  cases bytes.toText? with
  | some s => exact agrees_pure s
  | none => exact agrees_fail _

theorem Agrees.option (h : Agrees r s) : Agrees (option l r) (Read.option l s) := by
  refine (agrees_flag l).bind fun present => ?_
  cases present with
  | true => exact h.map some
  | false => exact agrees_pure none

theorem Agrees.repeated (h : Agrees r s) (count : Nat) (done : List α) :
    Agrees (repeated r count done) (Read.repeated s count done) := by
  induction count generalizing done with
  | zero => exact agrees_pure _
  | succ count ih => exact h.bind fun a => ih (a :: done)

theorem agrees_fewerThan (n : Nat) : Agrees (fewerThan n) (Read.fewerThan n) := by
  intro m offset hoffset
  refine ⟨.ok (decide (m.remaining offset < n)), offset, rfl, ?_, Nat.le_refl offset, hoffset⟩
  rw [Read.fewerThan_eq_ok_iff, Cursor.atOffset, List.length_drop]
  exact ⟨rfl, rfl⟩

theorem Agrees.list (h : Agrees r s) : Agrees (list l r) (Read.list l s) := by
  refine (agrees_u32 l).bind fun count => (agrees_fewerThan count.toNat).bind fun fewer => ?_
  cases fewer with
  | true => exact agrees_fail _
  | false => exact h.repeated count.toNat []

theorem agrees_finish (place : Section) : Agrees (finish place) (Read.finish place) := by
  intro m offset hoffset
  have hahead : (m.bytes.drop offset).length = m.remaining offset := List.length_drop
  by_cases hend : m.remaining offset = 0
  · refine ⟨.ok (), offset, if_pos hend, ?_, Nat.le_refl offset, hoffset⟩
    rw [Read.finish_eq_ok_iff]
    exact ⟨List.length_eq_zero_iff.mp (hahead.trans hend), rfl⟩
  · refine ⟨.error ⟨place, .trailingBytes offset (m.remaining offset)⟩, offset, if_neg hend, ?_,
      Nat.le_refl offset, hoffset⟩
    have hne : m.bytes.drop offset ≠ [] := by
      intro hnil
      rw [hnil] at hahead
      exact hend hahead.symm
    rw [← hahead]
    exact Read.finish_of_ne_nil hne

/-- **Every layout is read over an offset as on a cursor.** -/
theorem agrees_read (layout : Layout) : Agrees (read layout) layout.read := by
  induction layout with
  | u8 l => exact (agrees_u8 l).map _
  | u16 l => exact (agrees_u16 l).map _
  | u32 l => exact (agrees_u32 l).map _
  | flag l => exact (agrees_flag l).map _
  | take l n => exact (agrees_take l n).map _
  | sized l => exact (agrees_sized l).map _
  | text l => exact (agrees_text l).map _
  | option l item ih =>
    refine ih.option.bind fun value => ?_
    cases value with
    | none => exact agrees_pure _
    | some d => exact agrees_pure _
  | list l item ih => exact ih.list.map _
  | finish place => exact (agrees_finish place).bind fun _ => agrees_pure _

end Indexed

end HashTree
