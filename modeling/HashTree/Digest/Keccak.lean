import HashTree.Digest.Stream
import HashTree.Digest.Word

/-!
# Keccak with its first padding

A sponge over twenty-five lanes of 64 bits. A message is closed by a set bit, zeros and a set bit,
with no bits of domain separation in front, so the digests differ from the later standard ones of
the same sizes. The block shrinks as the digest grows: together with twice the digest it fills the
state.
-/

namespace HashTree

namespace Keccak

/-! ## §1 Lanes -/

/-- Five lanes that share their second coordinate. -/
structure Plane where
  x0 : UInt64
  x1 : UInt64
  x2 : UInt64
  x3 : UInt64
  x4 : UInt64
  deriving DecidableEq, Repr

/-- The twenty-five lanes. -/
structure State where
  y0 : Plane
  y1 : Plane
  y2 : Plane
  y3 : Plane
  y4 : Plane
  deriving DecidableEq, Repr

namespace Plane

/-- Five lanes of a list, from the given position; missing ones are zero. -/
def ofLanes (lanes : List UInt64) (i : Nat) : Plane :=
  ⟨lanes.getD i 0, lanes.getD (i + 1) 0, lanes.getD (i + 2) 0, lanes.getD (i + 3) 0,
   lanes.getD (i + 4) 0⟩

/-- The lanes in order. -/
def lanes (p : Plane) : List UInt64 :=
  [p.x0, p.x1, p.x2, p.x3, p.x4]

/-- Lanewise exclusive or. -/
def xor (p q : Plane) : Plane :=
  ⟨p.x0 ^^^ q.x0, p.x1 ^^^ q.x1, p.x2 ^^^ q.x2, p.x3 ^^^ q.x3, p.x4 ^^^ q.x4⟩

/-- Rotation of one lane towards the high bits. -/
def rotateLane (x n : UInt64) : UInt64 :=
  (x <<< n) ||| (x >>> (64 - n))

/-- Rotation of each lane by its own amount. -/
def rotate (p : Plane) (n0 n1 n2 n3 n4 : UInt64) : Plane :=
  ⟨rotateLane p.x0 n0, rotateLane p.x1 n1, rotateLane p.x2 n2, rotateLane p.x3 n3,
   rotateLane p.x4 n4⟩

/-- Adds to every lane what stands after its neighbour and lacks that neighbour. -/
def chi (p : Plane) : Plane :=
  ⟨p.x0 ^^^ (~~~p.x1 &&& p.x2), p.x1 ^^^ (~~~p.x2 &&& p.x3), p.x2 ^^^ (~~~p.x3 &&& p.x4),
   p.x3 ^^^ (~~~p.x4 &&& p.x0), p.x4 ^^^ (~~~p.x0 &&& p.x1)⟩

/-- From the parities of the five columns, what each column receives: its left neighbour and its
right neighbour turned by one bit. -/
def columnShare (c : Plane) : Plane :=
  ⟨c.x4 ^^^ rotateLane c.x1 1, c.x0 ^^^ rotateLane c.x2 1, c.x1 ^^^ rotateLane c.x3 1,
   c.x2 ^^^ rotateLane c.x4 1, c.x3 ^^^ rotateLane c.x0 1⟩

end Plane

namespace State

/-- All lanes zero. -/
def start : State :=
  let zero : Plane := ⟨0, 0, 0, 0, 0⟩
  ⟨zero, zero, zero, zero, zero⟩

/-- The state whose lanes are listed plane by plane; missing ones are zero. -/
def ofLanes (lanes : List UInt64) : State :=
  ⟨.ofLanes lanes 0, .ofLanes lanes 5, .ofLanes lanes 10, .ofLanes lanes 15, .ofLanes lanes 20⟩

/-- The lanes plane by plane. -/
def lanes (s : State) : List UInt64 :=
  s.y0.lanes ++ s.y1.lanes ++ s.y2.lanes ++ s.y3.lanes ++ s.y4.lanes

/-- Lanewise exclusive or. -/
def xor (s t : State) : State :=
  ⟨s.y0.xor t.y0, s.y1.xor t.y1, s.y2.xor t.y2, s.y3.xor t.y3, s.y4.xor t.y4⟩

/-! ## §2 The permutation -/

/-- **Theta**: every lane receives the share of its column. -/
def theta (s : State) : State :=
  let share := ((((s.y0.xor s.y1).xor s.y2).xor s.y3).xor s.y4).columnShare
  ⟨s.y0.xor share, s.y1.xor share, s.y2.xor share, s.y3.xor share, s.y4.xor share⟩

/-- **Rho**: every lane turns by its own amount. -/
def rho (s : State) : State :=
  ⟨s.y0.rotate 0 1 62 28 27,
   s.y1.rotate 36 44 6 55 20,
   s.y2.rotate 3 10 43 25 39,
   s.y3.rotate 41 45 15 21 8,
   s.y4.rotate 18 2 61 56 14⟩

/-- **Pi**: the lanes change places. -/
def pi (s : State) : State :=
  ⟨⟨s.y0.x0, s.y1.x1, s.y2.x2, s.y3.x3, s.y4.x4⟩,
   ⟨s.y0.x3, s.y1.x4, s.y2.x0, s.y3.x1, s.y4.x2⟩,
   ⟨s.y0.x1, s.y1.x2, s.y2.x3, s.y3.x4, s.y4.x0⟩,
   ⟨s.y0.x4, s.y1.x0, s.y2.x1, s.y3.x2, s.y4.x3⟩,
   ⟨s.y0.x2, s.y1.x3, s.y2.x4, s.y3.x0, s.y4.x1⟩⟩

/-- **Chi**: the only step that is not linear. -/
def chi (s : State) : State :=
  ⟨s.y0.chi, s.y1.chi, s.y2.chi, s.y3.chi, s.y4.chi⟩

/-- **Iota**: the first lane receives the round constant. -/
def iota (s : State) (constant : UInt64) : State :=
  { s with y0 := { s.y0 with x0 := s.y0.x0 ^^^ constant } }

/-- One round. -/
def round (s : State) (constant : UInt64) : State :=
  s.theta.rho.pi.chi.iota constant

/-- The constants of the twenty-four rounds. -/
def constants : List UInt64 :=
  [0x0000000000000001, 0x0000000000008082, 0x800000000000808a,
   0x8000000080008000, 0x000000000000808b, 0x0000000080000001,
   0x8000000080008081, 0x8000000000008009, 0x000000000000008a,
   0x0000000000000088, 0x0000000080008009, 0x000000008000000a,
   0x000000008000808b, 0x800000000000008b, 0x8000000000008089,
   0x8000000000008003, 0x8000000000008002, 0x8000000000000080,
   0x000000000000800a, 0x800000008000000a, 0x8000000080008081,
   0x8000000000008080, 0x0000000080000001, 0x8000000080008008]

/-- The permutation. -/
def permute (s : State) : State :=
  constants.foldl round s

/-- Absorbs one block. -/
def absorb (s : State) (block : Bytes) : State :=
  (s.xor (.ofLanes (Word.wordsLE block))).permute

end State

/-! ## §3 The digests -/

/-- The closing bytes: a set bit, zeros, and a set last bit, in one byte if there is room for one
only. -/
def padding (blockSize length : Nat) : Bytes :=
  match blockSize - length % blockSize with
  | 0 => []
  | 1 => [0x81]
  | n + 2 => 0x01 :: (List.replicate n 0 ++ [0x80])

/-- The digest of `size` bytes. -/
def keccak (size : Nat) : BlockDigest where
  State := State
  lastIndex := 199 - 2 * size
  start := .start
  absorb s _ block := s.absorb block
  finish s length last :=
    let closed := (last ++ padding (200 - 2 * size) length).blocks (199 - 2 * size)
    (Word.bytesLE (closed.foldl State.absorb s).lanes).take size

end Keccak

end HashTree
