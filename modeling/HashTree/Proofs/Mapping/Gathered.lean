import HashTree.Proofs.Bytes.Order
import HashTree.Proofs.Mapping.Canonical
import HashTree.Proofs.Tree.Arranged

/-!
# The canonical form, rule by rule

What a mapping in normal form stands for is said here by rules: a byte string is a leaf; a mapping is
absent, or its only present entry, or a branch over its present entries in the order of their
digests. The rules leave **one form** for every value, which is the one that is computed, and the
tree of the mapping is the arranged layout of that form. Every byte string stored in the mapping is
one of its leaves.
-/

namespace HashTree

/-- The byte strings that are stored in a value, from the first to the last. -/
def Value.stored (value : Value) : List Bytes :=
  value.fold (fun b => [b]) fun entries => entries.flatMap (·.2)

@[simp]
theorem Value.stored_bytes (b : Bytes) : (Value.bytes b).stored = [b] :=
  Value.fold_bytes ..

@[simp]
theorem Value.stored_map (entries : Mapping) :
    (Value.map entries).stored = entries.flatMap (·.2.stored) := by
  rw [stored, Value.fold_map, List.flatMap_map]
  rfl

namespace Mapping

/-! ## §1 Rules -/

/-- What some present entries, given by their forms, are **gathered** to. -/
inductive Gathers (a : Algorithm) : List Form → Option Form → Prop where
  /-- Of nothing comes nothing. -/
  | absent : Gathers a [] none
  /-- A single entry stands for itself. -/
  | only (form : Form) : Gathers a [form] (some form)
  /-- Two entries or more come under a branch, **ascending by digest**; entries of one digest keep
  their order. The branch is hashed from the digests as they come. -/
  | branch {present ordered : List Form} (two : 2 ≤ present.length) (perm : ordered.Perm present)
    (ascending : ordered.Pairwise fun f g => f.digest ≤ g.digest)
    (stable : ∀ d, ordered.filter (·.digest = d) = present.filter (·.digest = d)) :
    Gathers a present (some (.branch (a.digest (ordered.flatMap Form.digest)) ordered))

/-- The **canonical form** of a value, or that there is none. -/
inductive Canonical (a : Algorithm) (retain : Bool) : Value → Option Form → Prop where
  /-- A byte string is a leaf, hashed from its bytes. -/
  | bytes (b : Bytes) :
    Canonical a retain (.bytes b) (some (.leaf (a.digest b) (if retain then some b else none)))
  /-- A mapping is gathered from what its entries are, as far as they are present. -/
  | map {entries : List (String × Value)} {whole : Option Form} (part : Value → Option Form)
    (parts : ∀ e ∈ entries, Canonical a retain e.2 (part e.2))
    (gathers : Gathers a (entries.filterMap fun e => part e.2) whole) :
    Canonical a retain (.map entries) whole

variable {a : Algorithm} {retain : Bool}

/-- Entries are gathered in **one way**. -/
theorem Gathers.unique {present : List Form} {whole other : Option Form}
    (h : Gathers a present whole) (h' : Gathers a present other) : whole = other := by
  cases h with
  | absent =>
    cases h' with
    | absent => rfl
    | branch two _ _ _ => simp at two
  | only form =>
    cases h' with
    | only _ => rfl
    | branch two _ _ _ => simp at two
  | @branch _ ordered two _ ascending stable =>
    cases h' with
    | absent => simp at two
    | only _ => simp at two
    | @branch _ ordered' _ _ ascending' stable' =>
      have hsame : ordered = ordered' := by
        apply Bytes.eq_of_filter Form.digest ascending ascending'
        intro d
        rw [stable, stable']
      rw [hsame]

/-- Sorting by digest gathers. -/
theorem gathers_gather (present : List Form) : Gathers a present (gather a present) := by
  match present with
  | [] => exact .absent
  | [form] => exact .only form
  | first :: second :: rest =>
    apply Gathers.branch
    · simp
    · exact List.mergeSort_perm _ _
    · exact Bytes.pairwise_mergeSort Form.digest _
    · exact Bytes.filter_mergeSort Form.digest _

/-- Where forms of one digest are the same form, they are gathered **in any order** to the same. -/
theorem gather_perm {forms forms' : List Form} (perm : forms.Perm forms')
    (same : ∀ x ∈ forms, ∀ y ∈ forms, x.digest = y.digest → x = y) :
    gather a forms = gather a forms' := by
  match forms, forms' with
  | [], fs => rw [List.nil_perm.mp perm]
  | [f], fs => rw [List.singleton_perm.mp perm]
  | _ :: _ :: _, [] => simp at perm
  | _ :: _ :: _, [_] => simpa using perm.length_eq
  | f :: g :: fs, f' :: g' :: fs' =>
    exact congrArg (fun sorted => some (Form.join a sorted))
      (Bytes.mergeSort_eq_of_perm Form.digest perm same)

/-- A byte string is a leaf. -/
theorem form?_bytes (b : Bytes) :
    form? a retain (.bytes b)
      = some (.leaf (a.digest b) (if retain then some b else none)) := by
  rw [form?, Value.fold_bytes]

/-- A mapping is gathered from the forms of its entries. -/
theorem form?_map (entries : List (String × Value)) :
    form? a retain (.map entries)
      = gather a (entries.filterMap fun e => form? a retain e.2) := by
  rw [form?, Value.fold_map, List.filterMap_map]
  rfl

/-- The form that is computed is canonical. -/
theorem canonical_form? (value : Value) : Canonical a retain value (form? a retain value) := by
  induction value using Value.induction with
  | bytes b =>
    rw [form?_bytes]
    exact .bytes b
  | map entries ih =>
    rw [form?_map]
    exact .map (form? a retain) ih (gathers_gather _)

/-- A value has **one** canonical form. -/
theorem Canonical.unique {value : Value} {whole other : Option Form}
    (h : Canonical a retain value whole) (h' : Canonical a retain value other) : whole = other := by
  induction value using Value.induction generalizing whole other with
  | bytes b =>
    cases h
    cases h'
    rfl
  | map entries ih =>
    cases h with
    | map part parts gathers =>
      cases h' with
      | map part' parts' gathers' =>
        have hparts : entries.filterMap (fun e => part e.2)
            = entries.filterMap fun e => part' e.2 :=
          List.filterMap_congr fun e he => ih e he (parts e he) (parts' e he)
        rw [hparts] at gathers
        exact gathers.unique gathers'

/-! ## §2 Stored byte strings -/

/-- Gathering keeps all leaves. -/
private theorem leafCells_gather (present : List Form) :
    ((gather a present).toList.flatMap Form.leafCells).Perm (present.flatMap Form.leafCells) := by
  match present with
  | [] => exact .refl _
  | [form] => exact .refl _
  | first :: second :: rest =>
    show ([Form.branch _ _].flatMap Form.leafCells).Perm _
    rw [List.flatMap_singleton, Form.leafCells_branch]
    exact (List.mergeSort_perm _ _).flatMap_right _

/-- Every byte string that is stored becomes **one leaf**. -/
theorem leafCells_form? (value : Value) :
    ((form? a retain value).toList.flatMap Form.leafCells).Perm
      (value.stored.map (Cell.ofPayload a retain)) := by
  induction value using Value.induction with
  | bytes b =>
    rw [form?_bytes, Value.stored_bytes]
    exact .refl _
  | map entries ih =>
    rw [form?_map]
    apply (leafCells_gather _).trans
    rw [Value.stored_map, List.map_flatMap]
    -- entry by entry
    have hflat : (entries.filterMap fun e => form? a retain e.2).flatMap Form.leafCells
        = entries.flatMap fun e => (form? a retain e.2).toList.flatMap Form.leafCells := by
      rw [List.filterMap_eq_flatMap_toList, List.flatMap_assoc]
    rw [hflat]
    exact List.Perm.flatMap_left entries ih

/-! ## §3 Trees -/

/-- The leaves of the tree are the stored byte strings, **one for one**. -/
theorem leafNodes_toTree (a : Algorithm) (retain : Bool) (reading : Reading) (mapping : Mapping) :
    ((toTree a retain reading mapping).leafNodes.map Node.cell).Perm
      ((Value.map (normalize reading mapping)).stored.map (Cell.ofPayload a retain)) := by
  apply List.Perm.trans _ (leafCells_form? _)
  rw [toTree]
  cases form? a retain (.map (normalize reading mapping)) with
  | none => exact .refl _
  | some form => simp [Form.leafNodes_toTree]

/-- A tree is the **layout** of a canonical form; where there is none the tree is empty. -/
def LaidOut (a : Algorithm) (t : Tree) : Option Form → Prop
  | none => t = Tree.empty a
  | some form => t.algorithm = a ∧ t.Arranged form

/-- **The tree of a mapping is canonical.** The mapping in normal form has one canonical form by the
rules, and its tree is the layout of that form: leaves from left to right, then branches in
postorder, the root last. The byte strings that are stored in the mapping are the leaves, one for
one. -/
theorem toTree_canonical (a : Algorithm) (retain : Bool) (reading : Reading) (mapping : Mapping) :
    ∃ whole, Canonical a retain (.map (normalize reading mapping)) whole
      ∧ (∀ other, Canonical a retain (.map (normalize reading mapping)) other → other = whole)
      ∧ LaidOut a (toTree a retain reading mapping) whole
      ∧ ((toTree a retain reading mapping).leafNodes.map Node.cell).Perm
        ((Value.map (normalize reading mapping)).stored.map (Cell.ofPayload a retain)) := by
  refine ⟨form? a retain (.map (normalize reading mapping)), canonical_form? _,
    fun other hother => hother.unique (canonical_form? _), ?_, leafNodes_toTree ..⟩
  rw [toTree]
  cases hform : form? a retain (.map (normalize reading mapping)) with
  | none => rfl
  | some form => exact ⟨rfl, Form.toTree_arranged (form?_sound hform)⟩

end Mapping

end HashTree
