import HashTree.Proofs.Mapping.Rearranged

/-!
# The nested reading

Keeping the first entry of every key is said here without the list of what was kept before: the
first entry stays, and what was kept of the others loses its key. The normal form of a mapping keeps
the first entries of its values' normal forms.
-/

namespace HashTree

namespace Mapping

/-! ## §1 First entries -/

variable {α β : Type}

/-- The **first entry** of every key. -/
def firsts : List (String × α) → List (String × α)
  | [] => []
  | e :: entries => e :: (firsts entries).filter (·.1 ≠ e.1)

/-- An entry of a key that is left out is left out, and **removes nothing more**. -/
theorem filter_firsts_cons_of_mem {e : String × α} {names : List String} (h : e.1 ∈ names)
    (entries : List (String × α)) :
    (firsts (e :: entries)).filter (fun f => f.1 ∉ names)
      = (firsts entries).filter fun f => f.1 ∉ names := by
  have hless : ∀ f ∈ firsts entries, decide (f.1 ∉ names)
      = (decide (f.1 ∉ names) && decide (f.1 ≠ e.1)) := by
    intro f _
    rw [← Bool.decide_and, decide_eq_decide]
    exact ⟨fun hf => ⟨hf, fun heq => hf (heq ▸ h)⟩, And.left⟩
  rw [firsts, List.filter_cons, List.filter_filter, if_neg (by simpa using h),
    List.filter_congr hless]

/-- Any other entry stays, and its key is **left out behind it**. -/
theorem filter_firsts_cons_of_notMem {e : String × α} {names names' : List String}
    (h : e.1 ∉ names) (hnames : ∀ name, name ∈ names' ↔ name = e.1 ∨ name ∈ names)
    (entries : List (String × α)) :
    (firsts (e :: entries)).filter (fun f => f.1 ∉ names)
      = e :: (firsts entries).filter fun f => f.1 ∉ names' := by
  have hmore : ∀ f ∈ firsts entries, decide (f.1 ∉ names')
      = (decide (f.1 ∉ names) && decide (f.1 ≠ e.1)) := by
    intro f _
    rw [← Bool.decide_and, decide_eq_decide, hnames, not_or, and_comm]
  rw [firsts, List.filter_cons, List.filter_filter, if_pos (decide_eq_true h),
    List.filter_congr hmore]

/-- What is kept follows what was kept before, less the keys of that. -/
theorem keepFirst_eq (entries done : List (String × α)) :
    keepFirst entries done
      = done.reverse ++ (firsts entries).filter fun e => e.1 ∉ done.map (·.1) := by
  induction entries generalizing done with
  | nil => simp [keepFirst, firsts]
  | cons e entries ih =>
    have hany : done.any (·.1 == e.1) = decide (e.1 ∈ done.map (·.1)) := by
      rw [Bool.eq_iff_iff]
      simp
    rw [keepFirst, hany, ih]
    by_cases hkept : e.1 ∈ done.map (·.1)
    · rw [if_pos (decide_eq_true hkept), filter_firsts_cons_of_mem hkept]
    · rw [if_neg (by simpa using hkept), List.reverse_cons, List.append_assoc,
        filter_firsts_cons_of_notMem hkept fun name => List.mem_cons]
      rfl

/-- Entries with different keys are all first ones. -/
theorem firsts_eq_self {entries : List (String × α)}
    (h : entries.Pairwise fun e f => e.1 ≠ f.1) : firsts entries = entries := by
  induction h with
  | nil => rfl
  | @cons e entries he _ ih =>
    rw [firsts, ih, List.filter_eq_self.mpr]
    exact fun f hf => decide_eq_true (he f hf).symm

/-- Keys may be respelled and values replaced, as long as different keys stay different. -/
theorem firsts_map {g : String × α → String × β} (hg : ∀ e f, (g e).1 = (g f).1 ↔ e.1 = f.1)
    (entries : List (String × α)) : firsts (entries.map g) = (firsts entries).map g := by
  induction entries with
  | nil => rfl
  | cons e entries ih =>
    rw [List.map_cons, firsts, ih, firsts, List.map_cons, List.filter_map]
    have hsame : ∀ f ∈ firsts entries, ((fun f => decide (f.1 ≠ (g e).1)) ∘ g) f
        = decide (f.1 ≠ e.1) := by
      intro f _
      rw [Function.comp_apply, decide_eq_decide, not_iff_not]
      exact hg f e
    rw [List.filter_congr hsame]

/-- First entries correspond when all entries do. -/
theorem firsts_forall₂ {R : String × α → String × β → Prop} (hR : ∀ e f, R e f → e.1 = f.1)
    {entries : List (String × α)} {others : List (String × β)}
    (h : List.Forall₂ R entries others) : List.Forall₂ R (firsts entries) (firsts others) := by
  induction h with
  | nil => exact .nil
  | @cons e f entries others hef _ ih =>
    apply List.Forall₂.cons hef
    refine List.rel_filter (fun e' f' hef' => ?_) ih
    show decide (e'.1 ≠ e.1) = true ↔ decide (f'.1 ≠ f.1) = true
    rw [hR e f hef, hR e' f' hef']

/-! ## §2 Normal forms -/

/-- The normal form of a mapping as a value is the value of its normal form. -/
theorem nestedValue_map (entries : Mapping) : nestedValue (.map entries) = .map (nested entries) := by
  rw [nested, nestedValue, Value.fold_map]
  rfl

theorem nestedValue_bytes (b : Bytes) : nestedValue (.bytes b) = .bytes b :=
  Value.fold_bytes ..

/-- The nested normal form keeps the **first entry** of every key, in normal form itself. -/
theorem nested_eq (entries : Mapping) :
    nested entries = firsts (entries.map fun e => (e.1, nestedValue e.2)) := by
  rw [nested, nestedValue, Value.fold_map, entriesOf, keepFirst_eq]
  simp [nestedValue]

/-! ## §3 Rearranging -/

/-- Entries of different keys may be reordered. -/
theorem nested_perm {entries entries' : Mapping} (perm : entries.Perm entries')
    (free : entries.Pairwise fun e f => e.1 ≠ f.1) : (nested entries).Perm (nested entries') := by
  have free' := perm.pairwise free fun {e f} h => h.symm
  have hfirsts : ∀ {entries : Mapping}, (entries.Pairwise fun e f => e.1 ≠ f.1) →
      nested entries = entries.map fun e => (e.1, nestedValue e.2) := by
    intro entries hfree
    rw [nested_eq, firsts_eq_self]
    exact List.pairwise_map.mpr hfree
  rw [hfirsts free, hfirsts free']
  exact perm.map _

/-- The entries of a mapping in a mapping may be rearranged. -/
theorem nested_inner {before below below' after : Mapping} {key : String}
    (h : Rearranged (nested below) (nested below')) :
    Rearranged (nested (before ++ (key, .map below) :: after))
      (nested (before ++ (key, .map below') :: after)) := by
  apply Rearranged.of_forall₂
  rw [nested_eq, nested_eq]
  apply firsts_forall₂ fun e f hef => hef.1
  have hsame : ∀ entries : Mapping, List.Forall₂
      (fun e f : String × Value => e.1 = f.1 ∧ RearrangedValue e.2 f.2) entries entries :=
    fun entries => List.forall₂_same.mpr fun e _ => ⟨rfl, .same e.2⟩
  rw [List.map_append, List.map_append, List.map_cons, List.map_cons]
  refine List.rel_append (hsame _) (.cons ⟨rfl, ?_⟩ (hsame _))
  rw [nestedValue_map, nestedValue_map]
  exact .map h

end Mapping

end HashTree
