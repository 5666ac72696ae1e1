import Mathlib.Data.List.Forall2

/-!
# Outcomes of checks

Checks are chained: what follows runs only after what came before succeeded. So a chain succeeds
exactly when all its links do, and that is how success is read off a chain of any length.
-/

namespace HashTree

namespace Outcome

variable {ε α β : Type}

/-! ## §1 Chains -/

theorem ok_bind (a : α) (f : α → Except ε β) : Except.ok a >>= f = f a := rfl

/-- A chain succeeds when its first link does and then its second. -/
theorem bind_eq_ok_iff {x : Except ε α} {f : α → Except ε β} {b : β} :
    x >>= f = .ok b ↔ ∃ a, x = .ok a ∧ f a = .ok b := by
  cases x with
  | error e => simp [bind, Except.bind]
  | ok a => simp [bind, Except.bind]

/-- A chain that starts with a check succeeds when the check does and then the rest. -/
theorem check_bind_eq_ok_iff {x : Except ε Unit} {f : Unit → Except ε β} {b : β} :
    x >>= f = .ok b ↔ x = .ok () ∧ f () = .ok b := by
  rw [bind_eq_ok_iff]
  exact ⟨fun ⟨_, hx, hf⟩ => ⟨hx, hf⟩, fun ⟨hx, hf⟩ => ⟨(), hx, hf⟩⟩

/-- A chain fails in its first link or in its second. -/
theorem bind_eq_error_iff {x : Except ε α} {f : α → Except ε β} {e : ε} :
    x >>= f = .error e ↔ x = .error e ∨ ∃ a, x = .ok a ∧ f a = .error e := by
  cases x with
  | error e => simp [bind, Except.bind]
  | ok a => simp [bind, Except.bind]

/-- A chain that starts with a check fails when the check does or else the rest. -/
theorem check_bind_eq_error_iff {x : Except ε Unit} {f : Unit → Except ε β} {e : ε} :
    x >>= f = .error e ↔ x = .error e ∨ x = .ok () ∧ f () = .error e := by
  rw [bind_eq_error_iff]
  exact or_congr_right ⟨fun ⟨_, hx, hf⟩ => ⟨hx, hf⟩, fun ⟨hx, hf⟩ => ⟨(), hx, hf⟩⟩

/-- An outcome that is a changed one succeeds when the one that was changed does. -/
theorem map_eq_ok_iff {x : Except ε α} {f : α → β} {b : β} :
    x.map f = .ok b ↔ ∃ a, x = .ok a ∧ f a = b := by
  cases x with
  | error e => simp [Except.map]
  | ok a => simp [Except.map]

/-- What gives a single result gives that one. -/
theorem pure_eq_ok_iff {a b : α} : (pure a : Except ε α) = .ok b ↔ a = b := by
  simp [pure, Except.pure]

/-! ## §2 Lists -/

/-- A list is worked through when each of its items is. -/
theorem mapM_eq_ok_iff {f : α → Except ε β} {items : List α} {results : List β} :
    items.mapM f = .ok results ↔ List.Forall₂ (fun a b => f a = .ok b) items results := by
  induction items generalizing results with
  | nil =>
    rw [List.mapM_nil, pure_eq_ok_iff, List.forall₂_nil_left_iff]
    exact eq_comm
  | cons a items ih =>
    rw [List.mapM_cons, bind_eq_ok_iff]
    constructor
    · rintro ⟨b, hb, hrest⟩
      obtain ⟨bs, hbs, hresults⟩ := bind_eq_ok_iff.mp hrest
      rw [← pure_eq_ok_iff.mp hresults]
      exact .cons hb (ih.mp hbs)
    · intro hall
      cases hall with
      | cons hb hbs => exact ⟨_, hb, bind_eq_ok_iff.mpr ⟨_, ih.mpr hbs, rfl⟩⟩

/-- Where an item can only be turned into one result, so can a list. -/
theorem mapM_eq_ok_iff_map {f : α → Except ε β} {g : α → β} {p : α → Prop}
    (hf : ∀ a b, f a = .ok b ↔ b = g a ∧ p a) {items : List α} {results : List β} :
    items.mapM f = .ok results ↔ results = items.map g ∧ ∀ a ∈ items, p a := by
  rw [mapM_eq_ok_iff]
  induction items generalizing results with
  | nil => simp
  | cons a items ih =>
    rw [List.forall₂_cons_left_iff, List.map_cons, List.forall_mem_cons]
    constructor
    · rintro ⟨b, bs, hb, hbs, rfl⟩
      obtain ⟨rfl, ha⟩ := (hf a b).mp hb
      obtain ⟨rfl, hitems⟩ := ih.mp hbs
      exact ⟨rfl, ha, hitems⟩
    · rintro ⟨rfl, ha, hitems⟩
      exact ⟨g a, items.map g, (hf a _).mpr ⟨rfl, ha⟩, ih.mpr ⟨rfl, hitems⟩, rfl⟩

/-- A list is not worked through when one of its items is not, and **the first** such item tells
why. -/
theorem mapM_eq_error_iff {f : α → Except ε β} {items : List α} {e : ε} :
    items.mapM f = .error e ↔ ∃ front a rest, items = front ++ a :: rest
      ∧ (∀ x ∈ front, ∃ b, f x = .ok b) ∧ f a = .error e := by
  induction items with
  | nil => simp [pure, Except.pure]
  | cons a items ih =>
    rw [List.mapM_cons, bind_eq_error_iff]
    constructor
    · rintro (ha | ⟨b, hb, hrest⟩)
      · exact ⟨[], a, items, rfl, by simp, ha⟩
      · rcases bind_eq_error_iff.mp hrest with hitems | ⟨bs, -, hpure⟩
        · obtain ⟨front, c, rest, rfl, hfront, hc⟩ := ih.mp hitems
          exact ⟨a :: front, c, rest, rfl, List.forall_mem_cons.mpr ⟨⟨b, hb⟩, hfront⟩, hc⟩
        · cases hpure
    · rintro ⟨front, c, rest, hsplit, hfront, hc⟩
      cases front with
      | nil =>
        obtain ⟨rfl, rfl⟩ := List.cons.inj hsplit
        exact .inl hc
      | cons x front =>
        obtain ⟨rfl, rfl⟩ := List.cons.inj hsplit
        obtain ⟨⟨b, hb⟩, hfront⟩ := List.forall_mem_cons.mp hfront
        exact .inr ⟨b, hb, bind_eq_error_iff.mpr (.inl (ih.mpr ⟨front, c, rest, rfl, hfront, hc⟩))⟩

/-- A list is not worked through when one of its items is not. -/
theorem exists_of_mapM_eq_error {f : α → Except ε β} {items : List α} {e : ε}
    (h : items.mapM f = .error e) : ∃ a ∈ items, f a = .error e := by
  obtain ⟨front, a, rest, rfl, -, ha⟩ := mapM_eq_error_iff.mp h
  exact ⟨a, List.mem_append_right front List.mem_cons_self, ha⟩

/-- A list passes a check when each of its items does. -/
theorem forM_eq_ok_iff {f : α → Except ε Unit} {items : List α} :
    items.forM f = .ok () ↔ ∀ a ∈ items, f a = .ok () := by
  induction items with
  | nil => simp [pure, Except.pure]
  | cons a items ih =>
    rw [List.forM_eq_forM, List.forM_cons, bind_eq_ok_iff, List.forall_mem_cons, ← ih,
      List.forM_eq_forM]
    exact ⟨fun ⟨_, ha, hitems⟩ => ⟨ha, hitems⟩, fun ⟨ha, hitems⟩ => ⟨(), ha, hitems⟩⟩

/-- A list does not pass a check when one of its items does not. -/
theorem exists_of_forM_eq_error {f : α → Except ε Unit} {items : List α} {e : ε}
    (h : items.forM f = .error e) : ∃ a ∈ items, f a = .error e := by
  induction items with
  | nil => cases h
  | cons a items ih =>
    rw [List.forM_eq_forM, List.forM_cons] at h
    rcases check_bind_eq_error_iff.mp h with ha | ⟨-, hitems⟩
    · exact ⟨a, List.mem_cons_self, ha⟩
    · obtain ⟨c, hc, hce⟩ := ih hitems
      exact ⟨c, List.mem_cons_of_mem a hc, hce⟩

end Outcome

end HashTree
