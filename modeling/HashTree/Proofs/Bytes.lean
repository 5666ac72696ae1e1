import HashTree.Bytes.Hex
import Mathlib.Algebra.Group.Nat.Defs

/-!
# Bytes of numbers and texts

The passages between byte strings and what they stand for lose nothing: numbers of a known width,
texts in UTF-8, and byte strings in hexadecimal.
-/

namespace HashTree

namespace Bytes

/-! ## §1 Numbers -/

theorem toNatLE_lt (bytes : Bytes) : toNatLE bytes < 256 ^ bytes.length := by
  induction bytes with
  | nil => simp [toNatLE]
  | cons b bytes ih =>
    have hb := b.toNat_lt
    have hcons : toNatLE (b :: bytes) = b.toNat + 256 * toNatLE bytes := rfl
    rw [hcons, List.length_cons, Nat.pow_succ]
    omega

/-- A number that fits its width is read off its bytes. -/
theorem toNatLE_ofNatLE {width n : Nat} (h : n < 256 ^ width) :
    toNatLE (ofNatLE width n) = n := by
  induction width generalizing n with
  | zero =>
    have hn : n = 0 := by simpa using h
    subst hn
    rfl
  | succ width ih =>
    have hlt : n / 256 < 256 ^ width := by
      rw [Nat.pow_succ] at h
      omega
    have hcons : toNatLE (ofNatLE (width + 1) n)
        = (UInt8.ofNat n).toNat + 256 * toNatLE (ofNatLE width (n / 256)) := rfl
    rw [hcons, ih hlt, UInt8.toNat_ofNat']
    omega

/-- The bytes of the number that bytes stand for are those bytes. -/
theorem ofNatLE_toNatLE (bytes : Bytes) : ofNatLE bytes.length (toNatLE bytes) = bytes := by
  induction bytes with
  | nil => rfl
  | cons b bytes ih =>
    have hb := b.toNat_lt
    have hcons : toNatLE (b :: bytes) = b.toNat + 256 * toNatLE bytes := rfl
    have hdiv : (b.toNat + 256 * toNatLE bytes) / 256 = toNatLE bytes := by omega
    have hlow : UInt8.ofNat (b.toNat + 256 * toNatLE bytes) = b := by
      apply UInt8.toNat_inj.mp
      rw [UInt8.toNat_ofNat']
      omega
    rw [hcons, List.length_cons, ofNatLE, hdiv, ih, hlow]

/-! ## §2 Pieces of one width -/

/-- Pieces of one width can be told apart when they are written one after the other. -/
theorem flatten_inj {width : Nat} {pieces pieces' : List Bytes}
    (h : ∀ piece ∈ pieces, piece.length = width) (h' : ∀ piece ∈ pieces', piece.length = width)
    (hlength : pieces.length = pieces'.length) (hflatten : pieces.flatten = pieces'.flatten) :
    pieces = pieces' := by
  induction pieces generalizing pieces' with
  | nil => exact (List.length_eq_zero_iff.mp hlength.symm).symm
  | cons piece pieces ih =>
    cases pieces' with
    | nil => cases hlength
    | cons piece' pieces' =>
      obtain ⟨hpiece, hpieces⟩ := List.forall_mem_cons.mp h
      obtain ⟨hpiece', hpieces'⟩ := List.forall_mem_cons.mp h'
      rw [List.flatten_cons, List.flatten_cons] at hflatten
      obtain ⟨rfl, hrest⟩ := List.append_inj hflatten (hpiece.trans hpiece'.symm)
      rw [ih hpieces hpieces' (Nat.succ.inj hlength) hrest]

/-! ## §3 Text -/

/-- A byte string encodes a text when it is the UTF-8 of that text. -/
theorem toText?_eq_some_iff {bytes : Bytes} {s : String} :
    toText? bytes = some s ↔ bytes = ofText s := by
  unfold toText? String.fromUTF8?
  constructor
  · intro h
    split at h
    · obtain rfl := Option.some.inj h
      rfl
    · cases h
  · rintro rfl
    exact dif_pos s.isValidUTF8

end Bytes

namespace Hex

/-! ## §4 Hexadecimal text -/

theorem value?_digit {n : Nat} (h : n < 16) : value? (digit n) = some n := by
  have hall : ∀ n < 16, value? (digit n) = some n := by decide
  exact hall n h

theorem utf8Size_digit {n : Nat} (h : n < 16) : (digit n).utf8Size = 1 := by
  have hall : ∀ n < 16, (digit n).utf8Size = 1 := by decide
  exact hall n h

/-- The digits of a byte string read back as that byte string, whatever was read before. -/
theorem decodePairs_digits (position : Nat) (bytes done : Bytes) :
    decodePairs position (bytes.flatMap digits) done = .ok (done.reverse ++ bytes) := by
  induction bytes generalizing position done with
  | nil => simp [decodePairs]
  | cons b bytes ih =>
    have hb := b.toNat_lt
    have hhigh := value?_digit (n := b.toNat / 16) (by omega)
    have hlow := value?_digit (n := b.toNat % 16) (by omega)
    have hbyte : UInt8.ofNat (16 * (b.toNat / 16) + b.toNat % 16) = b := by
      rw [Nat.div_add_mod, UInt8.ofNat_toNat]
    rw [List.flatMap_cons, digits, List.cons_append, List.cons_append, List.nil_append,
      decodePairs, hhigh, hlow]
    simp [hbyte, ih]

/-- Every digit is a single byte, so the length of the text is even. -/
theorem utf8ByteSize_encode (bytes : Bytes) : (encode bytes).utf8ByteSize = 2 * bytes.length := by
  induction bytes with
  | nil => rfl
  | cons b bytes ih =>
    have hb := b.toNat_lt
    have hhigh := utf8Size_digit (n := b.toNat / 16) (by omega)
    have hlow := utf8Size_digit (n := b.toNat % 16) (by omega)
    have hcons : encode (b :: bytes) = String.ofList (digits b) ++ encode bytes := by
      rw [encode, List.flatMap_cons, String.ofList_append, encode]
    have hpair : (String.ofList (digits b)).utf8ByteSize = 2 := by
      rw [← String.size_toByteArray, String.toByteArray_ofList]
      simp [digits, List.utf8Encode, hhigh, hlow]
    rw [hcons, String.utf8ByteSize_append, ih, hpair, List.length_cons]
    omega

theorem length_encode (bytes : Bytes) : (encode bytes).length = 2 * bytes.length := by
  induction bytes with
  | nil => rfl
  | cons b bytes ih =>
    rw [encode, String.length_ofList] at ih ⊢
    have hpair : (digits b).length = 2 := rfl
    rw [List.flatMap_cons, List.length_append, ih, hpair, List.length_cons]
    omega

/-- A hexadecimal text has nothing but digits. -/
theorem exists_digit_of_mem_encode {bytes : Bytes} {c : Char} (hc : c ∈ (encode bytes).toList) :
    ∃ n < 16, c = digit n := by
  rw [encode, String.toList_ofList] at hc
  obtain ⟨b, -, hdigits⟩ := List.mem_flatMap.mp hc
  have hb := b.toNat_lt
  rw [digits, List.mem_cons, List.mem_singleton] at hdigits
  rcases hdigits with rfl | rfl
  · exact ⟨b.toNat / 16, by omega, rfl⟩
  · exact ⟨b.toNat % 16, by omega, rfl⟩

/-- The text of a byte string is read back. -/
theorem decode_encode (bytes : Bytes) : decode (encode bytes) = .ok bytes := by
  have heven : ¬ (2 * bytes.length) % 2 = 1 := by omega
  rw [decode, utf8ByteSize_encode, if_neg heven, encode, String.toList_ofList,
    decodePairs_digits, List.reverse_nil, List.nil_append]

end Hex

end HashTree
