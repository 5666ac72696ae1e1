import HashTree.Mapping.Canonical
import HashTree.Proofs.Tree.Layout

/-!
# Trees of mappings

A mapping becomes a form by hashing upwards from its byte strings, so the form is sound and its
layout is planned, whatever the entries are and however they are read.
-/

namespace HashTree

/-- The induction over a value, with one hypothesis for all entries. -/
@[elab_as_elim]
theorem Value.induction {motive : Value → Prop} (bytes : ∀ b, motive (.bytes b))
    (map : ∀ entries, (∀ e ∈ entries, motive e.2) → motive (.map entries)) :
    ∀ value, motive value
  | .bytes b => bytes b
  | .map entries => map entries fun e he =>
    have : sizeOf e.2 < sizeOf entries :=
      Nat.lt_of_le_of_lt (by cases e; simp) (List.sizeOf_lt_of_mem he)
    Value.induction bytes map e.2
termination_by value => sizeOf value

namespace Mapping

variable {a : Algorithm} {retain : Bool}

/-- Whatever sound forms are gathered to is sound. -/
theorem gather_sound {forms : List Form} (h : ∀ form ∈ forms, form.Sound a) {form : Form}
    (hform : gather a forms = some form) : form.Sound a := by
  match forms with
  | [] => simp [gather] at hform
  | [single] =>
    obtain rfl := Option.some.inj hform
    exact h single List.mem_cons_self
  | first :: second :: rest =>
    obtain rfl := Option.some.inj hform
    refine .branch ?_ rfl fun c hc => h c (List.mem_mergeSort.mp hc)
    rw [List.length_mergeSort]
    simp

/-- The form of a value is **sound**. -/
theorem form?_sound {value : Value} {form : Form} (h : form? a retain value = some form) :
    form.Sound a := by
  induction value using Value.induction generalizing form with
  | bytes b =>
    rw [form?, Value.fold_bytes] at h
    obtain rfl := Option.some.inj h
    refine .leaf (a.length_digest b) fun payload hpayload => ?_
    cases retain with
    | true => rw [← Option.some.inj hpayload]
    | false => simp at hpayload
  | map entries ih =>
    rw [form?, Value.fold_map] at h
    refine gather_sound (fun inner hinner => ?_) h
    obtain ⟨e, he, hinner⟩ := List.mem_filterMap.mp hinner
    obtain ⟨entry, hentry, rfl⟩ := List.mem_map.mp he
    exact ih entry hentry hinner

/-- The tree of a mapping is empty or assembled from a plan. -/
theorem toTree_made (a : Algorithm) (retain : Bool) (reading : Reading) (mapping : Mapping) :
    (toTree a retain reading mapping).Made := by
  rw [toTree]
  split
  · exact .empty a
  · next form hform => exact Form.toTree_made (form?_sound hform)

end Mapping

end HashTree
