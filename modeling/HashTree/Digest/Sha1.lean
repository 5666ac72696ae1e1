import HashTree.Digest.Stream
import HashTree.Digest.Word

/-!
# SHA-1

Five words of 32 bits, eighty rounds a block, a digest of 20 bytes.
-/

namespace HashTree

/-- The **closing bytes** of a message in the style shared by SHA-1 and SHA-2: one set bit, zeros,
and the length in bits in the last `field` bytes, up to a multiple of the block size. -/
def bitPadding (blockSize field length : Nat) : Bytes :=
  let used := (length + 1 + field) % blockSize
  let zeros := if used = 0 then 0 else blockSize - used
  0x80 :: (List.replicate zeros 0 ++ Bytes.ofNatBE field (8 * length))

namespace Sha1

/-! ## §1 State -/

/-- The five chaining words. -/
structure State where
  a : UInt32
  b : UInt32
  c : UInt32
  d : UInt32
  e : UInt32
  deriving DecidableEq, Repr

/-- The state before the first block. -/
def State.start : State :=
  ⟨0x67452301, 0xEFCDAB89, 0x98BADCFE, 0x10325476, 0xC3D2E1F0⟩

/-- Wordwise sum. -/
def State.add (s t : State) : State :=
  ⟨s.a + t.a, s.b + t.b, s.c + t.c, s.d + t.d, s.e + t.e⟩

/-- The words in order. -/
def State.words (s : State) : List UInt32 :=
  [s.a, s.b, s.c, s.d, s.e]

/-! ## §2 Compression -/

/-- Rotation towards the high bits. -/
def rotateLeft (x : UInt32) (n : UInt32) : UInt32 :=
  (x <<< n) ||| (x >>> (32 - n))

/-- Extends the message words by `count` further ones. The list has the newest word first. -/
def extend : (count : Nat) → List UInt32 → List UInt32
  | 0, words => words
  | count + 1, words =>
    let mixed := words.getD 2 0 ^^^ words.getD 7 0 ^^^ words.getD 13 0 ^^^ words.getD 15 0
    extend count (rotateLeft mixed 1 :: words)

/-- The eighty words of a block's schedule. -/
def schedule (block : Bytes) : List UInt32 :=
  (extend 64 (Word.wordsBE block).reverse).reverse

/-- The bitwise function and the constant of a round: four quarters of twenty rounds. -/
def mix (round : Nat) (b c d : UInt32) : UInt32 :=
  if round < 20 then ((b &&& c) ||| (~~~b &&& d)) + 0x5A827999
  else if round < 40 then (b ^^^ c ^^^ d) + 0x6ED9EBA1
  else if round < 60 then ((b &&& c) ||| (b &&& d) ||| (c &&& d)) + 0x8F1BBCDC
  else (b ^^^ c ^^^ d) + 0xCA62C1D6

/-- Runs the rounds from number `round` on, one for each word. -/
def rounds : (round : Nat) → State → List UInt32 → State
  | _, s, [] => s
  | round, s, w :: rest =>
    let a := rotateLeft s.a 5 + mix round s.b s.c s.d + s.e + w
    rounds (round + 1) ⟨a, s.a, rotateLeft s.b 30, s.c, s.d⟩ rest

/-- Absorbs one block. -/
def compress (s : State) (block : Bytes) : State :=
  s.add (rounds 0 s (schedule block))

/-! ## §3 The digest -/

/-- The digest of 20 bytes. -/
def sha1 : BlockDigest where
  State := State
  lastIndex := 63
  start := .start
  absorb s _ block := compress s block
  finish s length last :=
    let closed := (last ++ bitPadding 64 8 length).blocks 63
    Word.bytesBE (closed.foldl compress s).words

end Sha1

end HashTree
