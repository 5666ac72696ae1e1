import HashTree.Digest.Roots
import HashTree.Digest.Stream
import HashTree.Digest.Word

/-!
# BLAKE2

A sixteen-word working state, mixed by columns and by diagonals with the message words in a
different order each round. It exists on words of 32 and of 64 bits. The last block is told apart
by a flag and filled up with zeros, and every block is counted.
-/

namespace HashTree

namespace Blake2

variable {ω : Type} [Word ω]

/-! ## §1 State -/

/-- Four words. The working state is four rows. -/
structure Row (ω : Type) where
  a : ω
  b : ω
  c : ω
  d : ω

/-- The eight chaining words, as two rows. -/
structure State (ω : Type) where
  upper : Row ω
  lower : Row ω

namespace Row

/-- Four words of a list, from the given position; missing ones are zero. -/
@[specialize]
def ofNats (words : List Nat) (i : Nat) : Row ω :=
  ⟨Word.ofNat (words.getD i 0), Word.ofNat (words.getD (i + 1) 0),
   Word.ofNat (words.getD (i + 2) 0), Word.ofNat (words.getD (i + 3) 0)⟩

/-- The words in order. -/
def words (r : Row ω) : List ω := [r.a, r.b, r.c, r.d]

/-- Wordwise sum. -/
@[specialize]
def add (r s : Row ω) : Row ω :=
  ⟨r.a + s.a, r.b + s.b, r.c + s.c, r.d + s.d⟩

/-- Wordwise exclusive or, turned towards the low bits. -/
@[specialize]
def xorRotate (n : Nat) (r s : Row ω) : Row ω :=
  ⟨Word.rotateRight (r.a ^^^ s.a) n, Word.rotateRight (r.b ^^^ s.b) n,
   Word.rotateRight (r.c ^^^ s.c) n, Word.rotateRight (r.d ^^^ s.d) n⟩

/-- Wordwise exclusive or. -/
@[specialize]
def xor (r s : Row ω) : Row ω :=
  ⟨r.a ^^^ s.a, r.b ^^^ s.b, r.c ^^^ s.c, r.d ^^^ s.d⟩

/-- Moves every word one place forward. -/
def shift1 (r : Row ω) : Row ω := ⟨r.b, r.c, r.d, r.a⟩

/-- Moves every word two places. -/
def shift2 (r : Row ω) : Row ω := ⟨r.c, r.d, r.a, r.b⟩

/-- Moves every word one place back. -/
def shift3 (r : Row ω) : Row ω := ⟨r.d, r.a, r.b, r.c⟩

end Row

/-! ## §2 Compression -/

/-- What the two word sizes do not share. -/
structure Shape where
  /-- The number of rounds. -/
  rounds : Nat
  /-- The four rotations of a mixing step. -/
  turns : Nat × Nat × Nat × Nat
  /-- The fractional parts that fill the starting state. -/
  fractions : List Nat

/-- The shape on 32-bit words. -/
def narrow : Shape := ⟨10, (16, 12, 8, 7), Roots.squareFirst.map Roots.high⟩

/-- The shape on 64-bit words. -/
def wide : Shape := ⟨12, (32, 24, 16, 63), Roots.squareFirst⟩

/-- The orders in which the rounds take the message words. From the eleventh round on they are used
again from the first. -/
def orders : List (List Nat) :=
  [[0, 1, 2, 3, 4, 5, 6, 7, 8, 9, 10, 11, 12, 13, 14, 15],
   [14, 10, 4, 8, 9, 15, 13, 6, 1, 12, 0, 2, 11, 7, 5, 3],
   [11, 8, 12, 0, 5, 2, 15, 13, 10, 14, 3, 6, 7, 1, 9, 4],
   [7, 9, 3, 1, 13, 12, 11, 14, 2, 6, 5, 10, 4, 0, 15, 8],
   [9, 0, 5, 7, 2, 4, 10, 15, 14, 1, 11, 12, 6, 8, 3, 13],
   [2, 12, 6, 10, 0, 11, 8, 3, 4, 13, 7, 5, 15, 14, 1, 9],
   [12, 5, 1, 15, 14, 13, 4, 10, 0, 7, 6, 3, 9, 2, 8, 11],
   [13, 11, 7, 14, 12, 1, 3, 9, 5, 0, 15, 4, 8, 6, 2, 10],
   [6, 15, 14, 9, 11, 3, 0, 8, 12, 2, 13, 7, 1, 4, 10, 5],
   [10, 2, 8, 4, 7, 6, 1, 5, 15, 11, 9, 14, 3, 12, 13, 0]]

/-- The working state. -/
structure Square (ω : Type) where
  r0 : Row ω
  r1 : Row ω
  r2 : Row ω
  r3 : Row ω

/-- Mixes every column with two rows of message words. -/
@[specialize]
def Square.mix (turns : Nat × Nat × Nat × Nat) (v : Square ω) (x y : Row ω) : Square ω :=
  let r0 := (v.r0.add v.r1).add x
  let r3 := v.r3.xorRotate turns.1 r0
  let r2 := v.r2.add r3
  let r1 := v.r1.xorRotate turns.2.1 r2
  let r0 := (r0.add r1).add y
  let r3 := r3.xorRotate turns.2.2.1 r0
  let r2 := r2.add r3
  let r1 := r1.xorRotate turns.2.2.2 r2
  ⟨r0, r1, r2, r3⟩

/-- Brings every diagonal into a column. -/
def Square.slant (v : Square ω) : Square ω :=
  ⟨v.r0, v.r1.shift1, v.r2.shift2, v.r3.shift3⟩

/-- Brings the diagonals back. -/
def Square.unslant (v : Square ω) : Square ω :=
  ⟨v.r0, v.r1.shift3, v.r2.shift2, v.r3.shift1⟩

/-- One round over the message words in the given order. -/
@[specialize]
def round (shape : Shape) (message : Array ω) (v : Square ω) (order : List Nat) : Square ω :=
  let word (i : Nat) : ω := message.getD (order.getD i 0) (Word.ofNat 0)
  let v := v.mix shape.turns ⟨word 0, word 2, word 4, word 6⟩ ⟨word 1, word 3, word 5, word 7⟩
  let v := v.slant.mix shape.turns
    ⟨word 8, word 10, word 12, word 14⟩ ⟨word 9, word 11, word 13, word 15⟩
  v.unslant

/-- The starting words that carry the count of bytes and the flag of the last block. -/
@[specialize]
def tally (shape : Shape) (count : Nat) (last : Bool) : Row ω :=
  let base : Row ω := .ofNats shape.fractions 4
  let flag : ω := if last then ~~~(Word.ofNat 0) else Word.ofNat 0
  base.xor ⟨Word.ofNat count, Word.ofNat (count >>> (8 * Word.size ω)), flag, Word.ofNat 0⟩

/-- Absorbs one block of sixteen words. -/
@[specialize]
def compress (shape : Shape) (last : Bool) (s : State ω) (count : Nat) (block : Bytes) : State ω :=
  let message : Array ω := (Word.wordsLE block).toArray
  let v : Square ω := ⟨s.upper, s.lower, .ofNats shape.fractions 0, tally shape count last⟩
  let v := ((orders ++ orders).take shape.rounds).foldl (round shape message) v
  ⟨(s.upper.xor v.r0).xor v.r2, (s.lower.xor v.r1).xor v.r3⟩

/-- The state before the first block of an unkeyed digest of `size` bytes. -/
@[specialize]
def State.start (shape : Shape) (size : Nat) : State ω :=
  let upper : Row ω := .ofNats shape.fractions 0
  ⟨{ upper with a := upper.a ^^^ Word.ofNat (0x01010000 + size) }, .ofNats shape.fractions 4⟩

/-- The last piece filled up with zeros to a whole block. -/
def fill (blockSize : Nat) (last : Bytes) : Bytes :=
  last ++ List.replicate (blockSize - last.length) 0

/-! ## §3 The digests -/

/-- The digest of 32 bytes, on 32-bit words. -/
def blake2s : BlockDigest where
  State := State UInt32
  lastIndex := 63
  start := .start narrow 32
  absorb s count block := compress narrow false s count block
  finish s length last :=
    let s := compress narrow true s length (fill 64 last)
    Word.bytesLE (s.upper.words ++ s.lower.words)

/-- The digest of 64 bytes, on 64-bit words. -/
def blake2b : BlockDigest where
  State := State UInt64
  lastIndex := 127
  start := .start wide 64
  absorb s count block := compress wide false s count block
  finish s length last :=
    let s := compress wide true s length (fill 128 last)
    Word.bytesLE (s.upper.words ++ s.lower.words)

end Blake2

end HashTree
