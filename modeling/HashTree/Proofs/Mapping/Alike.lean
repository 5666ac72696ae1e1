import HashTree.Proofs.Mapping.Gathered

/-!
# What the root of a mapping depends on

The digest at the top of a value can be computed without a form: present digests are sorted and
hashed together, a single one stands for itself. So it depends on the nested multiset of the stored
byte strings alone. Values are **alike** when they agree in this multiset, which is said here by
rules, and alike values have trees of one root digest.
-/

namespace HashTree

namespace Value

/-! ## §1 Alike values -/

/-- Two values are **alike** when they become the same once the keys and the order of entries are
forgotten, mappings in which nothing is stored are dropped, and mappings of a single entry are
replaced by this entry, at every level: the least congruence with these rules. -/
inductive Alike : Value → Value → Prop where
  | refl (value : Value) : Alike value value
  | symm {value value' : Value} (h : Alike value value') : Alike value' value
  | trans {value middle value' : Value} (h : Alike value middle) (h' : Alike middle value') :
    Alike value value'
  /-- Keys do not matter. -/
  | keys {entries entries' : Mapping} (values : entries.map (·.2) = entries'.map (·.2)) :
    Alike (.map entries) (.map entries')
  /-- The order does not matter. -/
  | order {entries entries' : Mapping} (perm : entries.Perm entries') :
    Alike (.map entries) (.map entries')
  /-- An entry under which nothing is stored does not matter. -/
  | absent {key : String} {value : Value} {entries : Mapping} (nothing : value.stored = []) :
    Alike (.map ((key, value) :: entries)) (.map entries)
  /-- A single entry stands for itself. -/
  | only (key : String) (value : Value) : Alike (.map [(key, value)]) value
  /-- Inside an entry the same rules hold. -/
  | inner {key : String} {value value' : Value} {entries : Mapping} (h : Alike value value') :
    Alike (.map ((key, value) :: entries)) (.map ((key, value') :: entries))

/-- Mappings are alike when their entries are, one by one. -/
theorem Alike.map {entries entries' : Mapping}
    (h : List.Forall₂ (fun e f => Alike e.2 f.2) entries entries') :
    Alike (.map entries) (.map entries') := by
  -- the entries that are done already stand in front
  suffices ∀ done : Mapping, Alike (.map (done ++ entries)) (.map (done ++ entries')) from this []
  induction h with
  | nil => exact fun done => .refl _
  | @cons e f rest rest' hef _ ih =>
    intro done
    have hfront : Alike (.map (done ++ e :: rest)) (.map (e :: (done ++ rest))) :=
      .order List.perm_middle
    have hvalue : Alike (.map (e :: (done ++ rest))) (.map ((e.1, f.2) :: (done ++ rest))) :=
      .inner hef
    have hkey : Alike (.map ((e.1, f.2) :: (done ++ rest))) (.map (f :: (done ++ rest))) := by
      apply Alike.keys
      simp
    have hback : Alike (.map (f :: (done ++ rest))) (.map ((done ++ [f]) ++ rest)) := by
      apply Alike.order
      rw [List.append_assoc]
      exact List.perm_middle.symm
    have hrest := ih (done ++ [f])
    rw [List.append_assoc done [f] rest'] at hrest
    exact hfront.trans (hvalue.trans (hkey.trans (hback.trans hrest)))

end Value

/-- The cell at which a form is spelled out carries its digest. -/
theorem Form.At.digest_eq {cells : List Cell} {i : Nat} {form : Form} (h : At cells i form) :
    ∃ content, cells[i]? = some ⟨form.digest, content⟩ := by
  cases h with
  | leaf here => exact ⟨_, here⟩
  | branch here _ => exact ⟨_, here⟩

/-- The root of a form that is laid out carries the digest of the form. -/
theorem Form.rootDigest_toTree (a : Algorithm) (form : Form) :
    (form.toTree a).rootDigest = .ok form.digest := by
  obtain ⟨-, -, hat, -, -, -⟩ := form.exists_spelled
  obtain ⟨content, hcell⟩ := hat.digest_eq
  have hroot : (form.toTree a).root = some form.top := by
    rw [toTree_eq]
    rfl
  rw [Tree.rootDigest, Tree.rootNode, hroot, Option.bind_some, toTree_eq, Tree.getElem?_assemble,
    hcell]
  rfl

namespace Mapping

variable {a : Algorithm}

/-! ## §2 Digests without forms -/

/-- The digest over some present digests. -/
def crown (a : Algorithm) : List Digest → Option Digest
  | [] => none
  | [digest] => some digest
  | digests => some (a.digest (digests.mergeSort Bytes.le).flatten)

/-- The digest at the top of a value, unless the value is absent. -/
def digest? (a : Algorithm) (value : Value) : Option Digest :=
  value.fold (fun b => some (a.digest b)) fun entries => crown a (entries.filterMap (·.2))

theorem digest?_map (entries : Mapping) :
    digest? a (.map entries) = crown a ((entries.map (·.2)).filterMap (digest? a)) := by
  rw [digest?, Value.fold_map, List.filterMap_map, List.filterMap_map]
  rfl

/-- What some forms are gathered to has the digest over theirs. -/
theorem digest_gather (forms : List Form) :
    (gather a forms).map Form.digest = crown a (forms.map Form.digest) := by
  match forms with
  | [] => rfl
  | [form] => rfl
  | first :: second :: rest =>
    have hsorted := Bytes.map_mergeSort Form.digest (first :: second :: rest)
    show some (a.digest (List.flatMap Form.digest _)) = some (a.digest (List.flatten _))
    rw [List.flatMap_def, hsorted]
    rfl

/-- The order of the present digests does not matter. -/
theorem crown_perm {digests digests' : List Digest} (h : digests.Perm digests') :
    crown a digests = crown a digests' := by
  have hleaves : ∀ ds : List Digest,
      crown a ds = (gather a (ds.map fun d => .leaf d none)).map Form.digest := by
    intro ds
    rw [digest_gather, List.map_map]
    simp [Function.comp_def, Form.digest]
  rw [hleaves, hleaves, gather_perm (h.map _)]
  -- leaves without payloads are told apart by their digests
  intro x hx y hy hdigest
  obtain ⟨d, -, rfl⟩ := List.mem_map.mp hx
  obtain ⟨d', -, rfl⟩ := List.mem_map.mp hy
  exact congrArg (Form.leaf · none) hdigest

/-- The canonical form of a value has the digest of the value, whether payloads are kept or not. -/
theorem digest_form? (retain : Bool) (value : Value) :
    (form? a retain value).map Form.digest = digest? a value := by
  induction value using Value.induction with
  | bytes b =>
    rw [form?_bytes, digest?, Value.fold_bytes]
    rfl
  | map entries ih =>
    rw [form?_map, digest_gather, digest?_map, List.map_filterMap, List.filterMap_map]
    exact congrArg (crown a) (List.filterMap_congr ih)

/-- A value is absent when nothing is stored in it. -/
theorem digest?_eq_none {value : Value} (h : value.stored = []) : digest? a value = none := by
  induction value using Value.induction with
  | bytes b => simp at h
  | map entries ih =>
    rw [Value.stored_map, List.flatMap_eq_nil_iff] at h
    have hnone : (entries.map (·.2)).filterMap (digest? a) = [] := by
      rw [List.filterMap_map, List.filterMap_eq_nil_iff]
      exact fun e he => ih e he (h e he)
    rw [digest?_map, hnone]
    rfl

/-- Alike values have **one digest**. -/
theorem digest?_congr {value value' : Value} (h : value.Alike value') :
    digest? a value = digest? a value' := by
  induction h with
  | refl value => rfl
  | symm _ ih => exact ih.symm
  | trans _ _ ih ih' => exact ih.trans ih'
  | keys values => rw [digest?_map, digest?_map, values]
  | order perm =>
    rw [digest?_map, digest?_map]
    exact crown_perm ((perm.map _).filterMap _)
  | absent nothing =>
    rw [digest?_map, digest?_map, List.map_cons, List.filterMap_cons_none (digest?_eq_none nothing)]
  | only key value =>
    rw [digest?_map]
    cases hvalue : digest? a value <;> simp [hvalue, crown]
  | inner _ ih => simp only [digest?_map, List.map_cons, List.filterMap_cons, ih]

/-- The root of a mapping carries **the digest of its normal form**; where that is absent, there is
no root. -/
theorem rootDigest_toTree (a : Algorithm) (retain : Bool) (reading : Reading) (mapping : Mapping) :
    (toTree a retain reading mapping).rootDigest
      = (digest? a (.map (normalize reading mapping))).elim (.error .emptyTree) .ok := by
  rw [← digest_form? retain, toTree]
  cases form? a retain (.map (normalize reading mapping)) with
  | none => rfl
  | some form => exact form.rootDigest_toTree a

end Mapping

end HashTree
