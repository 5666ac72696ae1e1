/-!
# Byte strings

Digests, payloads and encoded documents are all lists of bytes. This module fixes the type, its
lexicographic order, the two readings of a byte string as a number, the splitting into blocks of
one size, and the passage between text and its UTF-8 bytes.
-/

namespace HashTree

/-- A byte string. A list, so that every function on it is a recursion on its data. -/
abbrev Bytes := List UInt8

namespace Bytes

/-! ## §1 Order -/

/-- The **lexicographic order**: the first differing byte decides, and a string comes before its
extensions. -/
def le : Bytes → Bytes → Bool
  | [], _ => true
  | _ :: _, [] => false
  | a :: as, b :: bs => if a < b then true else if b < a then false else le as bs

/-! ## §2 Numbers -/

/-- The `width` low bytes of a number, **least significant first**. -/
def ofNatLE : (width : Nat) → Nat → Bytes
  | 0, _ => []
  | width + 1, n => UInt8.ofNat n :: ofNatLE width (n / 256)

/-- The number whose bytes are given **least significant first**. -/
def toNatLE (bytes : Bytes) : Nat :=
  bytes.foldr (fun b n => b.toNat + 256 * n) 0

/-- The `width` low bytes of a number, **most significant first**. -/
def ofNatBE (width n : Nat) : Bytes :=
  (ofNatLE width n).reverse

/-- The number whose bytes are given **most significant first**. -/
def toNatBE (bytes : Bytes) : Nat :=
  bytes.foldl (fun n b => 256 * n + b.toNat) 0

/-- A number takes exactly the width it is given. -/
@[simp] theorem length_ofNatLE (width n : Nat) : (ofNatLE width n).length = width := by
  induction width generalizing n with
  | zero => rfl
  | succ width ih => simp [ofNatLE, ih]

/-! ## §3 Blocks -/

/-- Cuts a string into pieces of `size + 1` bytes; the last piece may be shorter, and there is none
for the empty string. -/
def blocks (size : Nat) (bytes : Bytes) : List Bytes :=
  match bytes with
  | [] => []
  | b :: rest => (b :: rest.take size) :: blocks size (rest.drop size)
termination_by bytes.length
decreasing_by simp only [List.length_cons, List.length_drop]; omega

/-! ## §4 Text -/

/-- The UTF-8 bytes of a text. -/
def ofText (text : String) : Bytes :=
  text.toByteArray.data.toList

/-- The text that a byte string encodes, when it is valid UTF-8. -/
def toText? (bytes : Bytes) : Option String :=
  String.fromUTF8? ⟨bytes.toArray⟩

end Bytes

end HashTree
