import HashTree.Digest.Algorithm

/-!
# Sizes of digests

Every digest has the number of bytes that the registry gives for its algorithm, whatever the
message. A digest is read off the words of a last state, so only the number and the size of these
words matter.
-/

namespace HashTree

/-! ## §1 Words as bytes -/

/-- Bytes of words, most significant first, number one word size for each word. -/
theorem Word.length_bytesBE {ω : Type} [Word ω] (words : List ω) :
    (Word.bytesBE words).length = words.length * Word.size ω := by
  induction words with
  | nil => simp [Word.bytesBE]
  | cons w words ih =>
    simp only [Word.bytesBE, List.flatMap_cons, List.length_append, List.length_cons] at ih ⊢
    rw [ih, Bytes.ofNatBE, List.length_reverse, Bytes.length_ofNatLE, Nat.add_one_mul,
      Nat.add_comm]

/-- Bytes of words, least significant first, number one word size for each word. -/
theorem Word.length_bytesLE {ω : Type} [Word ω] (words : List ω) :
    (Word.bytesLE words).length = words.length * Word.size ω := by
  induction words with
  | nil => simp [Word.bytesLE]
  | cons w words ih =>
    simp only [Word.bytesLE, List.flatMap_cons, List.length_append, List.length_cons] at ih ⊢
    rw [ih, Bytes.length_ofNatLE, Nat.add_one_mul, Nat.add_comm]

/-! ## §2 Single digests -/

private theorem length_sha1 (message : Bytes) : (Sha1.sha1.digest message).length = 20 := by
  show (Word.bytesBE (Sha1.State.words _)).length = 20
  rw [Word.length_bytesBE]
  rfl

private theorem length_narrowDigest {start : List Nat} {size : Nat} (hsize : size ≤ 32)
    (message : Bytes) : ((Sha2.narrowDigest start size).digest message).length = size := by
  show ((Word.bytesBE (Sha2.State.words _)).take size).length = size
  rw [List.length_take, Word.length_bytesBE]
  exact Nat.min_eq_left hsize

private theorem length_wideDigest {start : List Nat} {size : Nat} (hsize : size ≤ 64)
    (message : Bytes) : ((Sha2.wideDigest start size).digest message).length = size := by
  show ((Word.bytesBE (Sha2.State.words _)).take size).length = size
  rw [List.length_take, Word.length_bytesBE]
  exact Nat.min_eq_left hsize

private theorem length_keccak {size : Nat} (hsize : size ≤ 200) (message : Bytes) :
    ((Keccak.keccak size).digest message).length = size := by
  show ((Word.bytesLE (Keccak.State.lanes _)).take size).length = size
  rw [List.length_take, Word.length_bytesLE]
  exact Nat.min_eq_left hsize

private theorem length_blake2s (message : Bytes) :
    (Blake2.blake2s.digest message).length = 32 := by
  show (Word.bytesLE (Blake2.Row.words _ ++ Blake2.Row.words _)).length = 32
  rw [Word.length_bytesLE]
  rfl

private theorem length_blake2b (message : Bytes) :
    (Blake2.blake2b.digest message).length = 64 := by
  show (Word.bytesLE (Blake2.Row.words _ ++ Blake2.Row.words _)).length = 64
  rw [Word.length_bytesLE]
  rfl

/-! ## §3 All algorithms -/

namespace Algorithm

/-- A digest has the **size of its algorithm**. -/
@[simp]
theorem length_digest (a : Algorithm) (message : Bytes) :
    (a.digest message).length = a.digestSize := by
  cases a with
  | sha1 => exact length_sha1 message
  | sha224 => exact length_narrowDigest (by decide) message
  | sha256 => exact length_narrowDigest (by decide) message
  | sha384 => exact length_wideDigest (by decide) message
  | sha512 => exact length_wideDigest (by decide) message
  | keccak224 => exact length_keccak (by decide) message
  | keccak256 => exact length_keccak (by decide) message
  | keccak384 => exact length_keccak (by decide) message
  | keccak512 => exact length_keccak (by decide) message
  | blake2s => exact length_blake2s message
  | blake2b => exact length_blake2b message

end Algorithm

end HashTree
