import HashTree.Digest.Roots
import HashTree.Digest.Sha1

/-!
# SHA-2

Eight words of 32 or 64 bits. The two sizes differ in the number of rounds, the rotations and the
constants; the shorter digests of each size differ in the starting words and in how many bytes of
the last state are kept.
-/

namespace HashTree

namespace Sha2

/-! ## §1 State -/

/-- The eight chaining words. -/
structure State (ω : Type) where
  a : ω
  b : ω
  c : ω
  d : ω
  e : ω
  f : ω
  g : ω
  h : ω

variable {ω : Type} [Word ω]

/-- Wordwise sum. -/
@[specialize]
def State.add (s t : State ω) : State ω :=
  ⟨s.a + t.a, s.b + t.b, s.c + t.c, s.d + t.d, s.e + t.e, s.f + t.f, s.g + t.g, s.h + t.h⟩

/-- The words in order. -/
def State.words (s : State ω) : List ω :=
  [s.a, s.b, s.c, s.d, s.e, s.f, s.g, s.h]

/-- The state with the given words; missing ones are zero. -/
@[specialize]
def State.ofNats (words : List Nat) : State ω :=
  let word (i : Nat) : ω := Word.ofNat (words.getD i 0)
  ⟨word 0, word 1, word 2, word 3, word 4, word 5, word 6, word 7⟩

/-! ## §2 Compression -/

/-- What the two word sizes do not share. -/
structure Shape where
  /-- The rotations of the first word in a round. -/
  upper : Nat × Nat × Nat
  /-- The rotations of the fifth word in a round. -/
  lower : Nat × Nat × Nat
  /-- Two rotations and a shift of the word fifteen places back in the schedule. -/
  far : Nat × Nat × Nat
  /-- Two rotations and a shift of the word two places back in the schedule. -/
  near : Nat × Nat × Nat
  /-- The constant of each round. -/
  constants : List Nat

/-- The shape on 32-bit words. -/
def narrow : Shape :=
  ⟨(2, 13, 22), (6, 11, 25), (7, 18, 3), (17, 19, 10), (Roots.cube.take 64).map Roots.high⟩

/-- The shape on 64-bit words. -/
def wide : Shape :=
  ⟨(28, 34, 39), (14, 18, 41), (1, 8, 7), (19, 61, 6), Roots.cube⟩

/-- The sum of three rotations. -/
@[specialize]
def turn (n : Nat × Nat × Nat) (x : ω) : ω :=
  Word.rotateRight x n.1 ^^^ Word.rotateRight x n.2.1 ^^^ Word.rotateRight x n.2.2

/-- The sum of two rotations and a shift. -/
@[specialize]
def spread (n : Nat × Nat × Nat) (x : ω) : ω :=
  Word.rotateRight x n.1 ^^^ Word.rotateRight x n.2.1 ^^^ Word.shiftRight x n.2.2

/-- Extends the message words by `count` further ones. The list has the newest word first. -/
@[specialize]
def extend (shape : Shape) : (count : Nat) → List ω → List ω
  | 0, words => words
  | count + 1, words =>
    let back (i : Nat) : ω := words.getD (i - 1) (Word.ofNat 0)
    extend shape count
      ((spread shape.near (back 2) + back 7 + spread shape.far (back 15) + back 16) :: words)

/-- The words of a block's schedule, one for each round. -/
@[specialize]
def schedule (shape : Shape) (block : Bytes) : List ω :=
  (extend shape (shape.constants.length - 16) (Word.wordsBE block).reverse).reverse

/-- One round, with its message word and constant. -/
@[specialize]
def round (shape : Shape) (s : State ω) (w : ω) (constant : Nat) : State ω :=
  let choice := (s.e &&& s.f) ^^^ (~~~s.e &&& s.g)
  let majority := (s.a &&& s.b) ^^^ (s.a &&& s.c) ^^^ (s.b &&& s.c)
  let first := s.h + turn shape.lower s.e + choice + Word.ofNat constant + w
  let second := turn shape.upper s.a + majority
  ⟨first + second, s.a, s.b, s.c, s.d + first, s.e, s.f, s.g⟩

/-- Runs a round for each word and constant. -/
@[specialize]
def rounds (shape : Shape) : State ω → List ω → List Nat → State ω
  | s, w :: words, k :: constants => rounds shape (round shape s w k) words constants
  | s, _, _ => s

/-- Absorbs one block. -/
@[specialize]
def compress (shape : Shape) (s : State ω) (block : Bytes) : State ω :=
  s.add (rounds shape s (schedule shape block) shape.constants)

/-! ## §3 The digests -/

/-- SHA-2 on 32-bit words from the given start, cut to `size` bytes. -/
def narrowDigest (start : List Nat) (size : Nat) : BlockDigest where
  State := State UInt32
  lastIndex := 63
  start := .ofNats start
  absorb s _ block := compress narrow s block
  finish s length last :=
    let closed := (last ++ bitPadding 64 8 length).blocks 63
    (Word.bytesBE (closed.foldl (compress narrow) s).words).take size

/-- SHA-2 on 64-bit words from the given start, cut to `size` bytes. -/
def wideDigest (start : List Nat) (size : Nat) : BlockDigest where
  State := State UInt64
  lastIndex := 127
  start := .ofNats start
  absorb s _ block := compress wide s block
  finish s length last :=
    let closed := (last ++ bitPadding 128 16 length).blocks 127
    (Word.bytesBE (closed.foldl (compress wide) s).words).take size

/-- The digest of 28 bytes. -/
def sha224 : BlockDigest := narrowDigest (Roots.squareNext.map Roots.low) 28

/-- The digest of 32 bytes. -/
def sha256 : BlockDigest := narrowDigest (Roots.squareFirst.map Roots.high) 32

/-- The digest of 48 bytes. -/
def sha384 : BlockDigest := wideDigest Roots.squareNext 48

/-- The digest of 64 bytes. -/
def sha512 : BlockDigest := wideDigest Roots.squareFirst 64

end Sha2

end HashTree
