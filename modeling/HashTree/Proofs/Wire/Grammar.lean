import HashTree.Proofs.Bytes
import HashTree.Proofs.Wire.Output
import Mathlib.Data.List.Basic

/-!
# The grammar of fields

Which byte strings stand for which values, said by rules and apart from the functions that read and
write them. A rule joins the bytes of its parts end to end. It knows of no cursor and of no failure:
where a value has no bytes, no rule applies. A writer **follows** a rule when it writes the bytes
that the rule has for a value, and fails where the rule has none.
-/

namespace HashTree

namespace Grammar

variable {α : Type}

/-! ## §1 Rules -/

/-- Which byte strings stand for which values. -/
abbrev Rule (α : Type) : Type := α → Bytes → Prop

/-- A number in **four bytes**, the least significant first. -/
inductive Number : Rule Nat where
  | intro (b₀ b₁ b₂ b₃ : UInt8) :
    Number (b₀.toNat + 256 * (b₁.toNat + 256 * (b₂.toNat + 256 * b₃.toNat))) [b₀, b₁, b₂, b₃]

/-- An index is a number. -/
def Index : Rule UInt32 := fun n => Number n.toNat

/-- Bytes behind the number of them. -/
inductive Sized : Rule Bytes where
  | intro {payload count : Bytes} (hcount : Number payload.length count) :
    Sized payload (count ++ payload)

/-- Bytes of a width that both sides know, and **nothing in front** of them. -/
inductive Fixed (width : Nat) : Rule Bytes where
  | intro {bytes : Bytes} (hlength : bytes.length = width) : Fixed width bytes bytes

/-- A value that may be absent, behind a flag that is zero or one. -/
inductive Optional (item : Rule α) : Rule (Option α) where
  | absent : Optional item none [0]
  | present {a : α} {x : Bytes} (ha : item a x) : Optional item (some a) (1 :: x)

/-- Values one after the other. -/
inductive Each (item : Rule α) : Rule (List α) where
  | nil : Each item [] []
  | cons {a : α} {items : List α} {x y : Bytes} (ha : item a x) (hitems : Each item items y) :
    Each item (a :: items) (x ++ y)

/-- Values behind the number of them. -/
inductive Counted (item : Rule α) : Rule (List α) where
  | intro {items : List α} {count x : Bytes} (hcount : Number items.length count)
    (hitems : Each item items x) : Counted item items (count ++ x)

/-! ## §2 Writers that follow a rule -/

/-- The writer puts the bytes that the rule has for a value. -/
def Follows (put : α → Output) (rule : Rule α) : Prop :=
  ∀ {a : α} {bytes : Bytes}, (put a).toExcept = .ok bytes ↔ rule a bytes

open Output

variable {n width : Nat} {bytes : Bytes} {l : Label} {put : α → Output} {item : Rule α}

/-- The bytes of a number are those that it is computed to, and they have room for it. -/
theorem number_iff : Number n bytes ↔ n < UInt32.size ∧ Bytes.ofNatLE 4 n = bytes := by
  have hsize : UInt32.size = 256 ^ 4 := rfl
  -- the sum of the rule is what is computed from the four bytes
  have hvalue : ∀ b₀ b₁ b₂ b₃ : UInt8, Bytes.toNatLE [b₀, b₁, b₂, b₃]
      = b₀.toNat + 256 * (b₁.toNat + 256 * (b₂.toNat + 256 * b₃.toNat)) := by
    simp [Bytes.toNatLE]
  rw [hsize]
  constructor
  · intro h
    cases h with
    | intro b₀ b₁ b₂ b₃ =>
      rw [← hvalue]
      exact ⟨Bytes.toNatLE_lt [b₀, b₁, b₂, b₃], Bytes.ofNatLE_toNatLE [b₀, b₁, b₂, b₃]⟩
  · intro h
    obtain ⟨hlt, hbytes⟩ := h
    have hlength : bytes.length = 4 := by
      rw [← hbytes]
      exact Bytes.length_ofNatLE 4 n
    have hn : Bytes.toNatLE bytes = n := by
      rw [← hbytes]
      exact Bytes.toNatLE_ofNatLE hlt
    obtain ⟨b₀, b₁, b₂, b₃, rfl⟩ := List.length_eq_four.mp hlength
    rw [← hn, hvalue]
    exact Number.intro b₀ b₁ b₂ b₃

theorem follows_index : Follows (index l) Number := by
  intro n bytes
  rw [toExcept_index_eq_ok_iff, number_iff]

theorem follows_u32 : Follows u32 Index := by
  intro n bytes
  have hlt : n.toNat < UInt32.size := n.toNat_lt_size
  rw [Index, number_iff, u32, number, toExcept_ofBytes, Except.ok.injEq, and_iff_right hlt]

theorem follows_sized : Follows (sized l) Sized := by
  intro payload bytes
  constructor
  · intro h
    obtain ⟨count, _, hcount, hpayload, rfl⟩ := toExcept_append_eq_ok_iff.mp h
    obtain rfl := Except.ok.inj hpayload
    apply Sized.intro
    exact follows_index.mp hcount
  · intro h
    cases h with
    | intro hcount => exact toExcept_append_eq_ok_iff.mpr ⟨_, _, follows_index.mpr hcount, rfl, rfl⟩

theorem follows_digest : Follows (digest l width) (Fixed width) := by
  intro d bytes
  rw [toExcept_digest_eq_ok_iff]
  constructor
  · intro h
    obtain ⟨hlength, rfl⟩ := h
    exact Fixed.intro hlength
  · intro h
    cases h with
    | intro hlength => exact ⟨hlength, rfl⟩

theorem Follows.option (h : Follows put item) : Follows (Output.option put) (Optional item) := by
  intro a bytes
  constructor
  · intro hput
    cases a with
    | none =>
      obtain rfl := Except.ok.inj hput
      exact Optional.absent
    | some a =>
      obtain ⟨_, x, hflag, hx, rfl⟩ := toExcept_append_eq_ok_iff.mp hput
      obtain rfl := Except.ok.inj hflag
      apply Optional.present
      exact h.mp hx
  · intro hrule
    cases hrule with
    | absent => rfl
    | present ha => exact toExcept_append_eq_ok_iff.mpr ⟨[1], _, rfl, h.mpr ha, rfl⟩

/-- Values are written one after the other, in the order of the rule. -/
theorem Follows.each (h : Follows put item) {items : List α} {bytes : Bytes} :
    (concat (items.map put)).toExcept = .ok bytes ↔ Each item items bytes := by
  induction items generalizing bytes with
  | nil =>
    constructor
    · intro hput
      obtain rfl := Except.ok.inj hput
      exact Each.nil
    · intro hrule
      cases hrule
      rfl
  | cons a items ih =>
    rw [List.map_cons, concat_cons, toExcept_append_eq_ok_iff]
    constructor
    · intro hput
      obtain ⟨x, y, hx, hy, rfl⟩ := hput
      exact Each.cons (h.mp hx) (ih.mp hy)
    · intro hrule
      cases hrule with
      | cons ha hitems => exact ⟨_, _, h.mpr ha, ih.mpr hitems, rfl⟩

theorem Follows.list (h : Follows put item) : Follows (Output.list l put) (Counted item) := by
  intro items bytes
  constructor
  · intro hput
    obtain ⟨count, x, hcount, hitems, rfl⟩ := toExcept_append_eq_ok_iff.mp hput
    exact Counted.intro (follows_index.mp hcount) (h.each.mp hitems)
  · intro hrule
    cases hrule with
    | intro hcount hitems =>
      exact toExcept_append_eq_ok_iff.mpr ⟨_, _, follows_index.mpr hcount, h.each.mpr hitems, rfl⟩

end Grammar

end HashTree
