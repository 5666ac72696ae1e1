import HashTree.Proofs.Outcome
import HashTree.Wire.Output

/-!
# Outputs that fail and outputs that do not

Outputs are joined end to end up to the first failure. So joined outputs are all written or one of
them is the failure, and a field fails only for a number that is too large for its four bytes or for
a digest of another width.
-/

namespace HashTree

open Outcome

/-- A number is an index exactly when it fits four bytes. -/
theorem Label.checkIndex_eq_ok_iff {l : Label} {n : Nat} {i : UInt32} :
    l.checkIndex n = .ok i ↔ i = UInt32.ofNat n ∧ n < UInt32.size := by
  unfold checkIndex
  split
  · next hn => simp [hn, eq_comm]
  · next hn => simp [hn]

theorem Label.checkIndex_eq_error_iff {l : Label} {n : Nat} {e : FormatError} :
    l.checkIndex n = .error e ↔ UInt32.size ≤ n ∧ e = l.invalidLength := by
  unfold checkIndex
  split
  · next hn => simp [Nat.not_le.mpr hn]
  · next hn => simp [Nat.le_of_not_lt hn, eq_comm]

namespace Output

variable {α : Type} {o p : Output} {bytes : Bytes} {e : FormatError}

/-! ## §1 Joining -/

@[simp]
theorem toExcept_ofBytes (bytes : Bytes) : (ofBytes bytes).toExcept = .ok bytes := rfl

@[simp]
theorem toExcept_empty : empty.toExcept = .ok [] := rfl

@[simp]
theorem toExcept_fail (e : FormatError) : (fail e).toExcept = .error e := rfl

/-- Joined outputs are the first and then the second, as checks are. -/
theorem toExcept_append (o p : Output) :
    (o ++ p).toExcept = do return (← o.toExcept) ++ (← p.toExcept) := by
  obtain ⟨written, failure⟩ := o
  obtain ⟨following, failure'⟩ := p
  cases failure <;> cases failure' <;> rfl

theorem toExcept_append_eq_ok_iff : (o ++ p).toExcept = .ok bytes
    ↔ ∃ x y, o.toExcept = .ok x ∧ p.toExcept = .ok y ∧ x ++ y = bytes := by
  rw [toExcept_append, bind_eq_ok_iff]
  simp only [bind_eq_ok_iff, pure_eq_ok_iff, exists_and_left]

theorem toExcept_append_eq_error_iff : (o ++ p).toExcept = .error e
    ↔ o.toExcept = .error e ∨ ∃ x, o.toExcept = .ok x ∧ p.toExcept = .error e := by
  have hpure : ∀ x y : Bytes, ¬ (pure (x ++ y) : Except FormatError Bytes) = .error e :=
    fun _ _ h => nomatch h
  rw [toExcept_append, bind_eq_error_iff]
  simp only [bind_eq_error_iff, hpure, and_false, exists_false, or_false]

theorem append_assoc (o p q : Output) : o ++ p ++ q = o ++ (p ++ q) := by
  obtain ⟨written, failure⟩ := o
  obtain ⟨following, failure'⟩ := p
  cases failure with
  | some e => rfl
  | none =>
    change append (append _ _) _ = append _ (append _ _)
    cases failure' <;> simp [append]

@[simp]
theorem concat_nil : concat [] = empty := rfl

/-- A sequence of outputs is its first one joined to the rest. -/
@[simp]
theorem concat_cons (o : Output) (parts : List Output) : concat (o :: parts) = o ++ concat parts := by
  obtain ⟨written, failure⟩ := o
  cases failure with
  | none =>
    -- the bytes written so far are joined to the first part's
    change append (ofBytes (written ++ _)) _ = append (ofBytes written) (append _ _)
    simp [append, ofBytes, List.flatMap_def]
  | some e => rfl

/-- A sequence fails in one of its parts. -/
theorem exists_of_toExcept_concat_eq_error {parts : List Output}
    (h : (concat parts).toExcept = .error e) : ∃ o ∈ parts, o.toExcept = .error e := by
  induction parts with
  | nil => cases h
  | cons o parts ih =>
    rw [concat_cons, toExcept_append_eq_error_iff] at h
    rcases h with ho | ⟨_, -, hparts⟩
    · exact ⟨o, List.mem_cons_self, ho⟩
    · obtain ⟨p, hp, hpe⟩ := ih hparts
      exact ⟨p, List.mem_cons_of_mem o hp, hpe⟩

/-- A sequence is written when all its parts are. -/
theorem exists_of_toExcept_concat_eq_ok {parts : List Output}
    (h : (concat parts).toExcept = .ok bytes) : ∀ o ∈ parts, ∃ x, o.toExcept = .ok x := by
  induction parts generalizing bytes with
  | nil => exact fun _ ho => nomatch ho
  | cons o parts ih =>
    rw [concat_cons] at h
    obtain ⟨x, y, hx, hy, -⟩ := toExcept_append_eq_ok_iff.mp h
    exact List.forall_mem_cons.mpr ⟨⟨x, hx⟩, ih hy⟩

/-! ## §2 Fields -/

variable {l : Label} {n : Nat}

theorem toExcept_index_eq_ok_iff :
    (index l n).toExcept = .ok bytes ↔ n < UInt32.size ∧ Bytes.ofNatLE 4 n = bytes := by
  unfold index
  split
  · next i hi =>
    obtain ⟨rfl, hn⟩ := Label.checkIndex_eq_ok_iff.mp hi
    simp [u32, number, hn, Nat.mod_eq_of_lt hn]
  · next e' he =>
    have hn := (Label.checkIndex_eq_error_iff.mp he).1
    simp [Nat.not_lt.mpr hn]

theorem toExcept_index_eq_error_iff :
    (index l n).toExcept = .error e ↔ UInt32.size ≤ n ∧ e = l.invalidLength := by
  unfold index
  split
  · next i hi =>
    have hn := (Label.checkIndex_eq_ok_iff.mp hi).2
    simp [u32, number, Nat.not_le.mpr hn]
  · next e' he =>
    obtain ⟨hn, rfl⟩ := Label.checkIndex_eq_error_iff.mp he
    simp [hn, eq_comm]

theorem toExcept_sized_eq_error_iff {payload : Bytes} : (sized l payload).toExcept = .error e
    ↔ UInt32.size ≤ payload.length ∧ e = l.invalidLength := by
  simp [sized, toExcept_append_eq_error_iff, toExcept_index_eq_error_iff]

theorem toExcept_digest_eq_ok_iff {width : Nat} {d : Bytes} :
    (digest l width d).toExcept = .ok bytes ↔ d.length = width ∧ d = bytes := by
  unfold digest
  split <;> simp_all

/-- A flag never fails, so an optional value fails where it is given and fails. -/
theorem exists_of_toExcept_option_eq_error {put : α → Output} {item : Option α}
    (h : (option put item).toExcept = .error e) :
    ∃ a, item = some a ∧ (put a).toExcept = .error e := by
  cases item with
  | none => cases h
  | some a =>
    rcases toExcept_append_eq_error_iff.mp h with hflag | ⟨_, -, ha⟩
    · cases hflag
    · exact ⟨a, rfl, ha⟩

/-- A list is written when its length fits and all its items are. -/
theorem of_toExcept_list_eq_ok {put : α → Output} {items : List α}
    (h : (list l put items).toExcept = .ok bytes) :
    items.length < UInt32.size ∧ ∀ a ∈ items, ∃ x, (put a).toExcept = .ok x := by
  obtain ⟨x, y, hindex, hitems, -⟩ := toExcept_append_eq_ok_iff.mp h
  refine ⟨(toExcept_index_eq_ok_iff.mp hindex).1, fun a ha => ?_⟩
  exact exists_of_toExcept_concat_eq_ok hitems _ (List.mem_map_of_mem ha)

/-- A list fails for its length or in one of its items. -/
theorem exists_of_toExcept_list_eq_error {put : α → Output} {items : List α}
    (h : (list l put items).toExcept = .error e) :
    (UInt32.size ≤ items.length ∧ e = l.invalidLength)
      ∨ ∃ a ∈ items, (put a).toExcept = .error e := by
  rcases toExcept_append_eq_error_iff.mp h with hindex | ⟨_, -, hitems⟩
  · exact .inl (toExcept_index_eq_error_iff.mp hindex)
  · obtain ⟨o, ho, hoe⟩ := exists_of_toExcept_concat_eq_error hitems
    obtain ⟨a, ha, rfl⟩ := List.mem_map.mp ho
    exact .inr ⟨a, ha, hoe⟩

/-! ## §3 Solid outputs -/

/-- If the output is written at all it takes a byte. -/
def Solid (o : Output) : Prop := o.toExcept ≠ .ok []

theorem Solid.append_left (h : o.Solid) : (o ++ p).Solid := by
  intro hempty
  obtain ⟨x, y, hx, -, hxy⟩ := toExcept_append_eq_ok_iff.mp hempty
  apply h
  rw [hx, (List.append_eq_nil_iff.mp hxy).1]

theorem Solid.append_right (h : p.Solid) : (o ++ p).Solid := by
  intro hempty
  obtain ⟨x, y, -, hy, hxy⟩ := toExcept_append_eq_ok_iff.mp hempty
  apply h
  rw [hy, (List.append_eq_nil_iff.mp hxy).2]

theorem solid_u32 (n : UInt32) : (u32 n).Solid :=
  fun h => nomatch h

theorem solid_list {put : α → Output} {items : List α} : (list l put items).Solid := by
  apply Solid.append_left
  intro h
  have hlength := congrArg List.length (toExcept_index_eq_ok_iff.mp h).2
  rw [Bytes.length_ofNatLE] at hlength
  cases hlength

/-- There are no more parts than bytes where every part takes a byte. -/
theorem length_le_of_toExcept_concat {parts : List Output} (hsolid : ∀ o ∈ parts, o.Solid)
    (h : (concat parts).toExcept = .ok bytes) : parts.length ≤ bytes.length := by
  induction parts generalizing bytes with
  | nil => exact Nat.zero_le _
  | cons o parts ih =>
    rw [concat_cons] at h
    obtain ⟨x, y, hx, hy, rfl⟩ := toExcept_append_eq_ok_iff.mp h
    obtain ⟨ho, hparts⟩ := List.forall_mem_cons.mp hsolid
    have hpos : x.length ≠ 0 := by
      intro hzero
      exact ho (List.length_eq_zero_iff.mp hzero ▸ hx)
    have hle := ih hparts hy
    rw [List.length_cons, List.length_append]
    omega

end Output

end HashTree
