import HashTree.Proofs.Mapping.Wrapped

/-!
# Plain mappings

A mapping is plain when its keys have no dots and are unique, at every level. There is no conflict in
it, so the nested reading leaves it as it is. The dotted reading **trims** it: it leaves out the
mappings in which no byte string lies, and keeps everything else in its order. What is trimmed leaves
no trace in the tree, so both readings make one tree, and so does the dotted reading of the list of
all byte strings under their dotted paths.
-/

namespace HashTree

namespace Mapping

/-! ## §1 Trimming -/

/-- A value without the mappings in which no byte string lies; nothing if it is such a one itself. -/
def trim? (value : Value) : Option Value :=
  value.fold (fun b => some (.bytes b)) fun entries =>
    let present := entries.filterMap fun (key, inner?) => inner?.map fun inner => (key, inner)
    if present.isEmpty then none else some (.map present)

/-- What stays of an entry. -/
def trimEntry (e : String × Value) : Option (String × Value) :=
  (trim? e.2).map fun value => (e.1, value)

/-- A mapping without the mappings in it in which no byte string lies. -/
def trimmed (mapping : Mapping) : Mapping := mapping.filterMap trimEntry

@[simp]
theorem trim?_bytes (b : Bytes) : trim? (.bytes b) = some (.bytes b) :=
  Value.fold_bytes ..

theorem trim?_map (mapping : Mapping) :
    trim? (.map mapping)
      = if trimmed mapping = [] then none else some (.map (trimmed mapping)) := by
  rw [trim?, Value.fold_map, List.filterMap_map]
  show (if (trimmed mapping).isEmpty then none else some (Value.map (trimmed mapping))) = _
  simp only [List.isEmpty_iff]

theorem trimmed_cons (e : String × Value) (mapping : Mapping) :
    trimmed (e :: mapping) = (trimEntry e).toList ++ trimmed mapping := by
  rw [trimmed, List.filterMap_cons]
  cases trimEntry e <;> rfl

/-- What stays of an entry stays under its key. -/
theorem keys_trimEntry {e : String × Value} {key : String}
    (h : key ∈ keys (trimEntry e).toList) : key = e.1 := by
  cases hvalue : trim? e.2 with
  | none => simp [trimEntry, hvalue, keys] at h
  | some value => simpa [trimEntry, hvalue, keys] using h

/-- Trimming keeps **every byte string** under its path. -/
theorem paths_trimmed (mapping : Mapping) : paths (trimmed mapping) = paths mapping := by
  have hentries : ∀ mapping : Mapping, paths (trimmed mapping)
      = mapping.flatMap fun e => ((trim? e.2).toList.flatMap pathsOf).map (under [e.1]) := by
    intro mapping
    rw [paths_eq, trimmed, List.filterMap_eq_flatMap_toList, List.flatMap_assoc]
    refine List.flatMap_congr fun e _ => ?_
    cases h : trim? e.2 <;> simp [trimEntry, h]
  -- by induction on the value: what is left out had no paths
  have hvalue : ∀ value, (trim? value).toList.flatMap pathsOf = pathsOf value := by
    intro value
    induction value using Value.induction with
    | bytes b => simp
    | map entries ih =>
      have hbelow : paths (trimmed entries) = paths entries := by
        rw [hentries, paths_eq]
        exact List.flatMap_congr fun e he => congrArg _ (ih e he)
      rw [trim?_map, pathsOf_map, ← hbelow]
      by_cases hnil : trimmed entries = []
      · simp [hnil]
      · simp [hnil]
  rw [hentries, paths_eq]
  exact List.flatMap_congr fun e _ => congrArg _ (hvalue e.2)

/-- What is trimmed leaves **no trace** in a form. -/
theorem form?_trimmed (a : Algorithm) (retain : Bool) (mapping : Mapping) :
    form? a retain (.map (trimmed mapping)) = form? a retain (.map mapping) := by
  have hentries : ∀ mapping : Mapping, form? a retain (.map (trimmed mapping))
      = gather a (mapping.filterMap fun e => (trim? e.2).bind (form? a retain)) := by
    intro mapping
    rw [form?_map, trimmed, List.filterMap_filterMap]
    refine congrArg _ (List.filterMap_congr fun e _ => ?_)
    cases h : trim? e.2 <;> simp [trimEntry, h]
  -- by induction on the value: what is left out had no form
  have hvalue : ∀ value, (trim? value).bind (form? a retain) = form? a retain value := by
    intro value
    induction value using Value.induction with
    | bytes b => simp
    | map entries ih =>
      have hbelow : form? a retain (.map (trimmed entries)) = form? a retain (.map entries) := by
        rw [hentries, form?_map]
        exact congrArg _ (List.filterMap_congr ih)
      rw [trim?_map, ← hbelow]
      by_cases hnil : trimmed entries = []
      · rw [if_pos hnil, hnil]
        exact (form?_map []).symm
      · rw [if_neg hnil, Option.bind_some]
  rw [hentries, form?_map]
  exact congrArg _ (List.filterMap_congr fun e _ => hvalue e.2)

/-! ## §2 Plain mappings -/

/-- A mapping is **plain** when its keys have no dots and are unique, at every level. -/
inductive Plain : Mapping → Prop where
  | intro {mapping : Mapping} (segments : ∀ key ∈ keys mapping, IsSegment key)
    (unique : (keys mapping).Nodup)
    (inner : ∀ key below, (key, Value.map below) ∈ mapping → Plain below) : Plain mapping

/-- All byte strings of a mapping side by side, from the first to the last, each under its path with
dots between the keys. -/
def flattened (mapping : Mapping) : Mapping :=
  (paths mapping).map fun (path, b) => (joinDots path, .bytes b)

/-- A key without a dot is its only segment. -/
theorem segments_of_isSegment {key : String} (h : IsSegment key) : segments key = [key] :=
  segments_joinDots (List.cons_ne_nil key []) (by simpa using h)

/-- Every path in a mapping has a key. -/
theorem path_ne_nil_of_mem_paths {mapping : Mapping} : ∀ item ∈ paths mapping, item.1 ≠ [] := by
  intro item hitem
  obtain ⟨e, -, inner, -, rfl⟩ := exists_of_mem_paths hitem
  exact List.cons_ne_nil e.1 inner.1

/-- A byte string or a mapping under a new key leaves there **what stays of it**. -/
theorem insertAll_pathsOf {before : Mapping} {key : String} (hkey : key ∉ keys before)
    (value : Value) (hinner : ∀ below, value = .map below → insertAll [] (paths below) = trimmed below) :
    insertAll before ((pathsOf value).map (under [key]))
      = before ++ (trimEntry (key, value)).toList := by
  cases value with
  | bytes b =>
    rw [pathsOf_bytes, trimEntry, trim?_bytes]
    exact (Fills.fresh hkey).insert_eq
  | map below =>
    have hbelow : insertAll [] (paths below) = trimmed below := hinner below rfl
    rw [pathsOf_map, trimEntry, trim?_map, ← hbelow]
    by_cases hnil : paths below = []
    · simp [hnil, insertAll]
    · -- something was stored, so the mapping there is not trimmed away
      have hne : insertAll [] (paths below) ≠ [] := by
        intro h
        apply hnil
        rw [← paths_trimmed, ← hbelow, h, paths_nil]
      rw [insertAll_under_key hkey path_ne_nil_of_mem_paths hnil, if_neg hne]
      rfl

/-- Entries with new keys are stored **one behind the other**, as far as anything stays of them. -/
theorem insertAll_paths_behind {before rest : Mapping}
    (hinner : ∀ key below, (key, .map below) ∈ rest → insertAll [] (paths below) = trimmed below)
    (hunique : (keys rest).Nodup) (hnew : ∀ e ∈ rest, e.1 ∉ keys before) :
    insertAll before (paths rest) = before ++ trimmed rest := by
  induction rest generalizing before with
  | nil => simp [insertAll, trimmed]
  | cons e rest ih =>
    obtain ⟨key, value⟩ := e
    obtain ⟨hother, hunique⟩ := List.nodup_cons.mp hunique
    have hfirst : key ∉ keys before := hnew _ List.mem_cons_self
    have hnew' : ∀ f ∈ rest, f.1 ∉ keys (before ++ (trimEntry (key, value)).toList) := by
      intro f hf hmem
      rw [keys, List.map_append, List.mem_append] at hmem
      rcases hmem with hmem | hmem
      · exact hnew f (List.mem_cons_of_mem _ hf) hmem
      · have hsame : f.1 = key := keys_trimEntry hmem
        exact hother (List.mem_map.mpr ⟨f, hf, hsame⟩)
    have hvalue : ∀ below, value = .map below → insertAll [] (paths below) = trimmed below := by
      rintro below rfl
      exact hinner key below List.mem_cons_self
    have hrest := ih (fun key below hmem => hinner key below (List.mem_cons_of_mem _ hmem)) hunique
      hnew'
    rw [paths_cons, insertAll_append, insertAll_pathsOf hfirst value hvalue, hrest, trimmed_cons,
      List.append_assoc]

/-! ## §3 Both readings -/

namespace Plain

variable {mapping : Mapping}

/-- The nested reading leaves a plain mapping **as it is**. -/
theorem nested_eq_self (h : Plain mapping) : nested mapping = mapping := by
  induction h with
  | @intro mapping _ unique _ ih =>
    have hvalues : mapping.map (fun e => (e.1, nestedValue e.2)) = mapping := by
      refine (List.map_congr_left fun ⟨key, value⟩ he => ?_).trans (List.map_id mapping)
      cases value with
      | bytes b => rw [nestedValue_bytes, id]
      | map below => rw [nestedValue_map, ih key below he, id]
    rw [nested_eq, hvalues]
    exact firsts_eq_self (List.pairwise_map.mp unique)

/-- The dotted paths of a plain mapping are **its paths**. -/
theorem expand_eq_paths (h : Plain mapping) : expand mapping = paths mapping := by
  induction h with
  | @intro mapping segs _ _ ih =>
    rw [expand_eq, paths_eq]
    refine List.flatMap_congr fun ⟨key, value⟩ he => ?_
    rw [expandEntry, segments_of_isSegment (segs key (List.mem_map_of_mem he))]
    cases value with
    | bytes b => simp [expandValue]
    | map below =>
      rw [pathsOf_map, ← ih key below he]
      rfl

/-- On a path in a plain mapping no key has a dot. -/
theorem isSegment_of_mem_paths (h : Plain mapping) {item : Path × Bytes}
    (hitem : item ∈ paths mapping) : ∀ key ∈ item.1, IsSegment key := by
  induction h generalizing item with
  | intro segs _ _ ih =>
    obtain ⟨⟨key, value⟩, he, inner, hinner, rfl⟩ := exists_of_mem_paths hitem
    rw [under, List.singleton_append, List.forall_mem_cons]
    refine ⟨segs key (List.mem_map_of_mem he), ?_⟩
    cases value with
    | bytes b =>
      obtain rfl : inner = ([], b) := by simpa using hinner
      simp
    | map below => exact ih key below he hinner

/-- Flattened, it has **the same paths**. -/
theorem expand_flattened (h : Plain mapping) : expand (flattened mapping) = paths mapping := by
  have hentry : ∀ item ∈ paths mapping,
      expandEntry (joinDots item.1, .bytes item.2) = [item] := by
    intro item hitem
    have hne := path_ne_nil_of_mem_paths item hitem
    rw [expandEntry_bytes, segments_joinDots hne (h.isSegment_of_mem_paths hitem)]
  rw [expand_eq, flattened, List.flatMap_map]
  exact (List.flatMap_congr hentry).trans (List.flatMap_singleton' _)

/-- The byte strings of a plain mapping, stored one after the other, make it again, **trimmed**. -/
theorem insertAll_paths (h : Plain mapping) : insertAll [] (paths mapping) = trimmed mapping := by
  induction h with
  | intro _ unique _ ih => exact insertAll_paths_behind ih unique fun e _ => List.not_mem_nil

/-- The dotted reading **trims** a plain mapping. -/
theorem dotted_eq_trimmed (h : Plain mapping) : dotted mapping = trimmed mapping := by
  rw [dotted_eq, h.expand_eq_paths, h.insertAll_paths]

end Plain

/-- **Both readings of a plain mapping make one tree.** Where keys have no dots and are unique at every
level, the dotted reading makes the tree of the nested one, empty mappings or not, and so does the
dotted reading of the flattened mapping: the algorithm, every node in its place, the leaves and the
root are the same. -/
theorem toTree_plain (a : Algorithm) (retain : Bool) {mapping : Mapping} (h : Plain mapping) :
    toTree a retain .dotted mapping = toTree a retain .nested mapping
      ∧ toTree a retain .dotted (flattened mapping) = toTree a retain .nested mapping := by
  have hflat : dotted (flattened mapping) = dotted mapping := by
    rw [dotted_eq, dotted_eq, h.expand_flattened, h.expand_eq_paths]
  have hform : form? a retain (.map (dotted mapping)) = form? a retain (.map (nested mapping)) := by
    rw [h.dotted_eq_trimmed, h.nested_eq_self, form?_trimmed]
  constructor
  · exact toTree_congr a retain hform
  · apply toTree_congr
    show form? a retain (.map (dotted (flattened mapping))) = _
    rw [hflat]
    exact hform

theorem toTree_plain_at :
    Plain [("a", .map [("b", .bytes [1]), ("e", .map [])]), ("c", .bytes [2])]
      ∧ flattened [("a", .map [("b", .bytes [1]), ("e", .map [])]), ("c", .bytes [2])]
        = [("a.b", .bytes [1]), ("c", .bytes [2])]
      ∧ toTree .sha256 true .dotted [("a.b", .bytes [1]), ("c", .bytes [2])]
        = toTree .sha256 true .nested
          [("a", .map [("b", .bytes [1]), ("e", .map [])]), ("c", .bytes [2])] := by
  have hempty : Plain [] :=
    .intro (by decide) (by decide) fun _ _ hmem => (List.not_mem_nil hmem).elim
  have hinner : Plain [("b", .bytes [1]), ("e", .map [])] := by
    refine .intro (by decide) (by decide) fun key below hmem => ?_
    obtain ⟨-, rfl⟩ : key = "e" ∧ below = [] := by simpa using hmem
    exact hempty
  have hplain : Plain [("a", .map [("b", .bytes [1]), ("e", .map [])]), ("c", .bytes [2])] := by
    refine .intro (by decide) (by decide) fun key below hmem => ?_
    obtain ⟨-, rfl⟩ : key = "a" ∧ below = [("b", .bytes [1]), ("e", .map [])] := by
      simpa using hmem
    exact hinner
  have hflat : flattened [("a", .map [("b", .bytes [1]), ("e", .map [])]), ("c", .bytes [2])]
      = [("a.b", .bytes [1]), ("c", .bytes [2])] := by
    have hjoin : joinDots ["a", "b"] = "a.b" ∧ joinDots ["c"] = "c" := by decide
    simp [flattened, under, hjoin]
  exact ⟨hplain, hflat, hflat ▸ (toTree_plain .sha256 true hplain).2⟩

end Mapping

end HashTree
