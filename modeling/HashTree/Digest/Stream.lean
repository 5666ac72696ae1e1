import HashTree.Bytes

/-!
# Block digests and their running form

Every supported digest absorbs a message block by block and treats the last piece apart. A
`BlockDigest` is that description; a `Running` value is a message absorbed so far, kept as the state
after the blocks that are known not to be the last and the bytes that may still belong to it.

The **cut** is the same for all: a block is absorbed as soon as at least one byte follows it. The
pending bytes thus depend on the message alone and not on how it was handed over.
-/

namespace HashTree

/-! ## §1 Description -/

/-- A digest that works on blocks. -/
structure BlockDigest where
  /-- What is carried from block to block. -/
  State : Type
  /-- The block size, less one. -/
  lastIndex : Nat
  /-- The state before the first block. -/
  start : State
  /-- Absorbs a full block that is not the last; the number counts all bytes up to its end. -/
  absorb : State → Nat → Bytes → State
  /-- Absorbs the last piece, at most a block long, and reads off the digest; the number is the
  length of the message. -/
  finish : State → Nat → Bytes → Bytes

namespace BlockDigest

/-- The number of bytes in a block; never zero. -/
def blockSize (d : BlockDigest) : Nat := d.lastIndex + 1

/-! ## §2 Running digests -/

/-- A message absorbed so far. -/
structure Running (d : BlockDigest) where
  /-- The state after the absorbed blocks. -/
  state : d.State
  /-- How many bytes those blocks hold. -/
  absorbed : Nat
  /-- The bytes after them. -/
  pending : Bytes

/-- Absorbs blocks while bytes follow them. -/
def drain (d : BlockDigest) (state : d.State) (absorbed : Nat) (bytes : Bytes) : Running d :=
  match _h : bytes.drop d.blockSize with
  | [] => ⟨state, absorbed, bytes⟩
  | next :: rest =>
    let position := absorbed + d.blockSize
    drain d (d.absorb state position (bytes.take d.blockSize)) position (next :: rest)
termination_by bytes.length
decreasing_by
  have := congrArg List.length _h
  simp only [List.length_drop, List.length_cons, blockSize] at this ⊢
  omega

namespace Running

variable {d : BlockDigest}

/-- Nothing absorbed yet. -/
def fresh (d : BlockDigest) : Running d :=
  ⟨d.start, 0, []⟩

/-- Absorbs more bytes. -/
def update (r : Running d) (chunk : Bytes) : Running d :=
  d.drain r.state r.absorbed (r.pending ++ chunk)

/-- The digest of everything absorbed. The running value itself is not used up. -/
def digest (r : Running d) : Bytes :=
  d.finish r.state (r.absorbed + r.pending.length) r.pending

end Running

/-- The digest of a whole message. -/
def digest (d : BlockDigest) (message : Bytes) : Bytes :=
  ((Running.fresh d).update message).digest

end BlockDigest

end HashTree
