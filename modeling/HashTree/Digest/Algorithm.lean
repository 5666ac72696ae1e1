import HashTree.Digest.Blake2
import HashTree.Digest.Keccak
import HashTree.Digest.Sha1
import HashTree.Digest.Sha2
import HashTree.Text.Blank

/-!
# The registry of digest algorithms

Eleven algorithms in a fixed order, each with a canonical name, a digest size and a block digest.
Names are looked up without regard to blanks at their ends and to the case of ASCII letters, and
some algorithms answer to a second name.
-/

namespace HashTree

/-- A digest. Its length is that of the algorithm wherever a node or a proof is well formed; bytes
of any other length are representable, so that unchecked input can be talked about. -/
abbrev Digest := Bytes

/-! ## §1 The algorithms -/

/-- The supported algorithms, in the order of the registry. -/
inductive Algorithm where
  | sha1
  | sha224
  | sha256
  | sha384
  | sha512
  | keccak224
  | keccak256
  | keccak384
  | keccak512
  | blake2s
  | blake2b
  deriving DecidableEq, Repr, Inhabited

namespace Algorithm

/-- All algorithms in the order of the registry. -/
def all : List Algorithm :=
  [sha1, sha224, sha256, sha384, sha512, keccak224, keccak256, keccak384, keccak512, blake2s,
   blake2b]

/-- The algorithm used where none is chosen. -/
def standard : Algorithm := sha1

/-- The place in the registry. -/
def rank (a : Algorithm) : Nat := all.idxOf a

/-- The canonical name. -/
def name : Algorithm → String
  | sha1 => "sha1"
  | sha224 => "sha224"
  | sha256 => "sha256"
  | sha384 => "sha384"
  | sha512 => "sha512"
  | keccak224 => "keccak224"
  | keccak256 => "keccak256"
  | keccak384 => "keccak384"
  | keccak512 => "keccak512"
  | blake2s => "blake2s"
  | blake2b => "blake2b"

/-- The second name, where there is one. -/
def alias? : Algorithm → Option String
  | sha1 => some "sha-1"
  | sha224 => some "sha-224"
  | sha256 => some "sha-256"
  | sha384 => some "sha-384"
  | sha512 => some "sha-512"
  | blake2s => some "blake2s256"
  | blake2b => some "blake2b512"
  | _ => none

/-- The number of bytes of a digest. -/
def digestSize : Algorithm → Nat
  | sha1 => 20
  | sha224 => 28
  | sha256 => 32
  | sha384 => 48
  | sha512 => 64
  | keccak224 => 28
  | keccak256 => 32
  | keccak384 => 48
  | keccak512 => 64
  | blake2s => 32
  | blake2b => 64

/-! ## §2 Lookup -/

/-- Does the algorithm answer to this name, given in folded form? -/
def answersTo (a : Algorithm) (folded : String) : Bool :=
  a.name == folded || a.alias? == some folded

/-- The algorithm of a name. -/
def ofName? (name : String) : Option Algorithm :=
  all.find? (·.answersTo (Text.foldName name))

/-! ## §3 Digests -/

/-- How the algorithm works through a message. -/
def blockDigest : Algorithm → BlockDigest
  | sha1 => Sha1.sha1
  | sha224 => Sha2.sha224
  | sha256 => Sha2.sha256
  | sha384 => Sha2.sha384
  | sha512 => Sha2.sha512
  | keccak224 => Keccak.keccak 28
  | keccak256 => Keccak.keccak 32
  | keccak384 => Keccak.keccak 48
  | keccak512 => Keccak.keccak 64
  | blake2s => Blake2.blake2s
  | blake2b => Blake2.blake2b

/-- The digest of a whole message. -/
def digest (a : Algorithm) (message : Bytes) : Digest :=
  a.blockDigest.digest message

end Algorithm

/-! ## §4 Running digests -/

/-- A message absorbed so far under some algorithm. -/
structure RunningDigest where
  algorithm : Algorithm
  running : algorithm.blockDigest.Running

namespace RunningDigest

/-- Nothing absorbed yet. -/
def fresh (a : Algorithm) : RunningDigest :=
  ⟨a, .fresh a.blockDigest⟩

/-- Absorbs more bytes. -/
def update (r : RunningDigest) (chunk : Bytes) : RunningDigest :=
  ⟨r.algorithm, r.running.update chunk⟩

/-- The digest of everything absorbed. -/
def digest (r : RunningDigest) : Digest :=
  r.running.digest

/-- The digest of everything absorbed, and a fresh start. -/
def digestReset (r : RunningDigest) : Digest × RunningDigest :=
  (r.digest, fresh r.algorithm)

/-- The digest of another message under the same algorithm. -/
def digestOf (r : RunningDigest) (message : Bytes) : Digest :=
  r.algorithm.digest message

/-- Two running digests count as the same when their algorithms are, whatever they absorbed. -/
def sameAlgorithm (r s : RunningDigest) : Bool :=
  r.algorithm == s.algorithm

/-- How a running digest is shown: its name and size, nothing of its state. -/
def describe (r : RunningDigest) : String :=
  "DigestAlgorithm \x7b name: \"" ++ r.algorithm.name ++ "\", digest_size: "
    ++ toString r.algorithm.digestSize ++ " \x7d"

end RunningDigest

end HashTree
