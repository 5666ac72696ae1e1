import HashTree.Json.Text
import HashTree.Proofs.Json.Token

/-!
# Reading the values that were written

The compact text of a value is read back as the value. The tokens of a value never put two words or
numbers side by side, so the text is cut into them again; and the reader, wherever it expects a
value, stands behind it once it has taken the tokens of one.
-/

namespace HashTree

namespace Json

/-! ## §1 The tokens of a value -/

/-- What follows a value is neither a word nor a number. -/
private def Closed (after : List Token) : Prop := ∀ t ∈ after.head?, t.isRun = false

private theorem Closed.cons {t : Token} (ht : t.isRun = false) (after : List Token) :
    Closed (t :: after) := by
  intro u hu
  cases hu
  exact ht

/-- Behind a mark or a string anything may stand. -/
private theorem isChain_cons_mark {t : Token} {after : List Token} (ht : t.isRun = false)
    (h : after.IsChain MayTouch) : (t :: after).IsChain MayTouch :=
  List.isChain_cons.mpr ⟨fun _ _ hruns => Bool.false_ne_true (ht.symm.trans hruns.1), h⟩

/-- Before a mark or a string anything may stand. -/
private theorem isChain_cons_closed {t : Token} {after : List Token} (hclosed : Closed after)
    (h : after.IsChain MayTouch) : (t :: after).IsChain MayTouch :=
  List.isChain_cons.mpr
    ⟨fun _ hu hruns => Bool.false_ne_true ((hclosed _ hu).symm.trans hruns.2), h⟩

mutual

/-- The tokens of a value may stand before whatever may follow a value. -/
theorem isChain_toTokens (v : Json) {after : List Token} (hclosed : Closed after)
    (h : after.IsChain MayTouch) : (v.toTokens ++ after).IsChain MayTouch := by
  cases v with
  | null | bool | number | string => exact isChain_cons_closed hclosed h
  | array items =>
    rw [toTokens, List.cons_append, List.append_assoc, List.singleton_append]
    apply isChain_cons_mark rfl
    exact isChain_itemTokens items (Closed.cons rfl after) (isChain_cons_mark rfl h)
  | object members =>
    rw [toTokens, List.cons_append, List.append_assoc, List.singleton_append]
    apply isChain_cons_mark rfl
    exact isChain_memberTokens members (Closed.cons rfl after) (isChain_cons_mark rfl h)

theorem isChain_itemTokens (items : List Json) {after : List Token} (hclosed : Closed after)
    (h : after.IsChain MayTouch) : (itemTokens items ++ after).IsChain MayTouch := by
  match items with
  | [] => exact h
  | [item] => exact isChain_toTokens item hclosed h
  | item :: next :: items =>
    rw [itemTokens, List.append_assoc, List.cons_append]
    apply isChain_toTokens item (Closed.cons rfl _)
    exact isChain_cons_mark rfl (isChain_itemTokens (next :: items) hclosed h)

theorem isChain_memberTokens (members : List (String × Json)) {after : List Token}
    (hclosed : Closed after) (h : after.IsChain MayTouch) :
    (memberTokens members ++ after).IsChain MayTouch := by
  match members with
  | [] => exact h
  | [(key, value)] =>
    exact isChain_cons_mark rfl (isChain_cons_mark rfl (isChain_toTokens value hclosed h))
  | (key, value) :: next :: members =>
    rw [memberTokens, List.cons_append, List.cons_append, List.append_assoc, List.cons_append]
    apply isChain_cons_mark rfl
    apply isChain_cons_mark rfl
    apply isChain_toTokens value (Closed.cons rfl _)
    exact isChain_cons_mark rfl (isChain_memberTokens (next :: members) hclosed h)

end

/-! ## §2 Reading tokens -/

/-- The first item of an array is read as any value is, since no value starts with a bracket that
closes. -/
private theorem foldlM_step_firstItem (v : Json) (frames : List Frame) (after : List Token) :
    (v.toTokens ++ after).foldlM Reading.step ⟨.firstItem, frames⟩
      = (v.toTokens ++ after).foldlM Reading.step ⟨.value, frames⟩ := by
  cases v <;> rfl

mutual

/-- The reader **takes the tokens of a value** and stands behind it. -/
theorem foldlM_step_toTokens (v : Json) (frames : List Frame) (after : List Token) :
    (v.toTokens ++ after).foldlM Reading.step ⟨.value, frames⟩
      = after.foldlM Reading.step ⟨.after v, frames⟩ := by
  match v with
  | .null | .bool b | .number n | .string s => rfl
  | .array [] | .object [] => rfl
  | .array (item :: items) =>
    have hitems := foldlM_step_itemTokens (item :: items) (List.cons_ne_nil _ _) [] frames after
    rw [toTokens, List.cons_append, List.append_assoc, List.singleton_append]
    rw [List.reverse_nil, List.nil_append] at hitems
    rw [← hitems]
    -- behind the bracket stands the first item, or its end
    cases items with
    | nil => exact foldlM_step_firstItem item _ _
    | cons next items =>
      rw [itemTokens, List.append_assoc]
      exact foldlM_step_firstItem item _ _
  | .object (member :: members) =>
    have hmembers :=
      foldlM_step_memberTokens (member :: members) (List.cons_ne_nil _ _) [] frames after
    rw [toTokens, List.cons_append, List.append_assoc, List.singleton_append]
    rw [List.reverse_nil, List.nil_append] at hmembers
    rw [← hmembers]
    cases members <;> rfl

/-- Items are entered one by one into the array that is open. -/
theorem foldlM_step_itemTokens (items : List Json) (hne : items ≠ []) (done : List Json)
    (frames : List Frame) (after : List Token) :
    (itemTokens items ++ .closeArray :: after).foldlM Reading.step ⟨.value, .array done :: frames⟩
      = after.foldlM Reading.step ⟨.after (.array (done.reverse ++ items)), frames⟩ := by
  match items with
  | [] => exact absurd rfl hne
  | [item] =>
    rw [itemTokens, foldlM_step_toTokens item, ← List.reverse_cons]
    rfl
  | item :: next :: items =>
    have hitems :=
      foldlM_step_itemTokens (next :: items) (List.cons_ne_nil _ _) (item :: done) frames after
    rw [List.reverse_cons, List.append_assoc, List.singleton_append] at hitems
    rw [itemTokens, List.append_assoc, foldlM_step_toTokens item, ← hitems]
    rfl

/-- Members are entered one by one into the object that is open. -/
theorem foldlM_step_memberTokens (members : List (String × Json)) (hne : members ≠ [])
    (done : List (String × Json)) (frames : List Frame) (after : List Token) :
    (memberTokens members ++ .closeObject :: after).foldlM Reading.step ⟨.key done, frames⟩
      = after.foldlM Reading.step ⟨.after (.object (done.reverse ++ members)), frames⟩ := by
  match members with
  | [] => exact absurd rfl hne
  | [(key, value)] =>
    rw [memberTokens, ← List.reverse_cons]
    exact foldlM_step_toTokens value (.object done key :: frames) (.closeObject :: after)
  | (key, value) :: next :: members =>
    have hmembers := foldlM_step_memberTokens (next :: members) (List.cons_ne_nil _ _)
      ((key, value) :: done) frames after
    rw [List.reverse_cons, List.append_assoc, List.singleton_append] at hmembers
    rw [← hmembers, memberTokens, List.cons_append, List.cons_append, List.append_assoc]
    exact foldlM_step_toTokens value (.object done key :: frames) _

end

/-! ## §3 Texts -/

/-- All numbers of the value are spelled as numbers are in a JSON text. -/
def Legible (v : Json) : Prop := ∀ t ∈ v.toTokens, t.Legible

theorem legible_null : Legible .null := by
  intro t ht
  rw [List.mem_singleton.mp ht]
  trivial

theorem legible_string (s : String) : Legible (.string s) := by
  intro t ht
  rw [List.mem_singleton.mp ht]
  trivial

theorem legible_ofNat (n : Nat) : Legible (.ofNat n) := by
  intro t ht
  rw [List.mem_singleton.mp ht]
  exact Numeral.spelled_ofNat n

private theorem legible_itemTokens (items : List Json) (h : ∀ item ∈ items, item.Legible) :
    ∀ t ∈ itemTokens items, t.Legible := by
  match items with
  | [] => exact fun _ ht => nomatch ht
  | [item] => exact h item List.mem_cons_self
  | item :: next :: items =>
    obtain ⟨hitem, hitems⟩ := List.forall_mem_cons.mp h
    intro t ht
    rw [itemTokens, List.mem_append, List.mem_cons] at ht
    rcases ht with ht | rfl | ht
    · exact hitem t ht
    · trivial
    · exact legible_itemTokens (next :: items) hitems t ht

theorem legible_array {items : List Json} (h : ∀ item ∈ items, item.Legible) :
    Legible (.array items) := by
  intro t ht
  rw [toTokens, List.mem_cons, List.mem_append, List.mem_singleton] at ht
  rcases ht with rfl | ht | rfl
  · trivial
  · exact legible_itemTokens items h t ht
  · trivial

private theorem legible_memberTokens (members : List (String × Json))
    (h : ∀ m ∈ members, m.2.Legible) : ∀ t ∈ memberTokens members, t.Legible := by
  match members with
  | [] => exact fun _ ht => nomatch ht
  | [(key, value)] =>
    intro t ht
    rw [memberTokens, List.mem_cons, List.mem_cons] at ht
    rcases ht with rfl | rfl | ht
    · trivial
    · trivial
    · exact h (key, value) List.mem_cons_self t ht
  | (key, value) :: next :: members =>
    obtain ⟨hvalue, hmembers⟩ := List.forall_mem_cons.mp h
    intro t ht
    rw [memberTokens, List.mem_cons, List.mem_cons, List.mem_append, List.mem_cons] at ht
    rcases ht with rfl | rfl | ht | rfl | ht
    · trivial
    · trivial
    · exact hvalue t ht
    · trivial
    · exact legible_memberTokens (next :: members) hmembers t ht

theorem legible_object {members : List (String × Json)} (h : ∀ m ∈ members, m.2.Legible) :
    Legible (.object members) := by
  intro t ht
  rw [toTokens, List.mem_cons, List.mem_append, List.mem_singleton] at ht
  rcases ht with rfl | ht | rfl
  · trivial
  · exact legible_memberTokens members h t ht
  · trivial

/-- **The compact text of a value is read back as the value.** -/
theorem parse?_compact {v : Json} (h : v.Legible) : parse? v.compact = some v := by
  have hclosed : Closed [] := fun _ ht => nomatch ht
  have htouch := isChain_toTokens v hclosed .nil
  rw [List.append_nil] at htouch
  have hvalue := foldlM_step_toTokens v [] []
  rw [List.append_nil] at hvalue
  rw [parse?, compact, String.toList_ofList, tokens?_flatMap_chars h htouch, List.reverse_nil,
    List.nil_append, Option.bind_some, ofTokens?, hvalue]
  rfl

end Json

end HashTree
