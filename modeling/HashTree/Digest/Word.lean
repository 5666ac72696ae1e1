import HashTree.Bytes

/-!
# Machine words of two sizes

The digests compute with words of 32 or 64 bits, and several of them exist in both sizes with one
description. A `Word` type has the bitwise operations, addition modulo its size, and the passage
to and from numbers.
-/

namespace HashTree

/-- A type of fixed-size words. -/
class Word (ω : Type) extends Add ω, XorOp ω, AndOp ω, Complement ω where
  /-- The number of bytes of a word. -/
  size : Nat
  /-- The word with the low bits of a number. -/
  ofNat : Nat → ω
  /-- The number of a word. -/
  toNat : ω → Nat
  /-- Rotation towards the low bits. -/
  rotateRight : ω → Nat → ω
  /-- Shift towards the low bits, filled with zeros. -/
  shiftRight : ω → Nat → ω

@[always_inline]
instance : Word UInt32 where
  size := 4
  ofNat := UInt32.ofNat
  toNat := UInt32.toNat
  rotateRight x n := (x >>> UInt32.ofNat n) ||| (x <<< UInt32.ofNat (32 - n))
  shiftRight x n := x >>> UInt32.ofNat n

@[always_inline]
instance : Word UInt64 where
  size := 8
  ofNat := UInt64.ofNat
  toNat := UInt64.toNat
  rotateRight x n := (x >>> UInt64.ofNat n) ||| (x <<< UInt64.ofNat (64 - n))
  shiftRight x n := x >>> UInt64.ofNat n

namespace Word

variable {ω : Type} [Word ω]

/-- The words of a byte string, the first byte of each the **most** significant. -/
@[specialize]
def wordsBE (bytes : Bytes) : List ω :=
  (bytes.blocks (size ω - 1)).map fun block => ofNat block.toNatBE

/-- The words of a byte string, the first byte of each the **least** significant. -/
@[specialize]
def wordsLE (bytes : Bytes) : List ω :=
  (bytes.blocks (size ω - 1)).map fun block => ofNat block.toNatLE

/-- The bytes of words, most significant first in each. -/
@[specialize]
def bytesBE (words : List ω) : Bytes :=
  words.flatMap fun w => Bytes.ofNatBE (size ω) (toNat w)

/-- The bytes of words, least significant first in each. -/
@[specialize]
def bytesLE (words : List ω) : Bytes :=
  words.flatMap fun w => Bytes.ofNatLE (size ω) (toNat w)

end Word

end HashTree
