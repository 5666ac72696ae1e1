import HashTree.Proofs.Mapping.Rearranged

/-!
# Paths of a mapping

Every byte string in a mapping has a path of keys, as they are written. A mapping is **normal** when
its keys are unique at every level and no mapping in it is empty; it is then determined by the paths
of its byte strings up to the order of the entries at each level.
-/

namespace HashTree

namespace Mapping

/-! ## §1 Paths -/

/-- A byte string whose path is continued at the front. -/
def under (front : Path) (item : Path × Bytes) : Path × Bytes := (front ++ item.1, item.2)

/-- The byte strings in a value with the paths of keys that lead to them. -/
def pathsOf (value : Value) : List (Path × Bytes) :=
  value.fold (fun b => [([], b)]) fun entries => entries.flatMap fun (key, items) =>
    items.map (under [key])

/-- The byte strings in a mapping with the paths of keys that lead to them. -/
def paths (mapping : Mapping) : List (Path × Bytes) := pathsOf (.map mapping)

@[simp]
theorem pathsOf_bytes (b : Bytes) : pathsOf (.bytes b) = [([], b)] :=
  Value.fold_bytes ..

@[simp]
theorem pathsOf_map (mapping : Mapping) : pathsOf (.map mapping) = paths mapping := rfl

theorem paths_eq (mapping : Mapping) :
    paths mapping = mapping.flatMap fun e => (pathsOf e.2).map (under [e.1]) := by
  rw [paths, pathsOf, Value.fold_map, List.flatMap_map]
  rfl

@[simp]
theorem paths_nil : paths [] = [] := paths_eq []

@[simp]
theorem paths_cons (key : String) (value : Value) (rest : Mapping) :
    paths ((key, value) :: rest) = (pathsOf value).map (under [key]) ++ paths rest := by
  rw [paths_eq, paths_eq, List.flatMap_cons]

@[simp]
theorem paths_append (before after : Mapping) :
    paths (before ++ after) = paths before ++ paths after := by
  simp only [paths_eq, List.flatMap_append]

theorem paths_perm {mapping mapping' : Mapping} (perm : mapping.Perm mapping') :
    (paths mapping).Perm (paths mapping') := by
  simp only [paths_eq]
  exact perm.flatMap_right _

/-- The keys of a mapping. -/
def keys (mapping : Mapping) : List String := mapping.map (·.1)

/-- A path begins with a key of the mapping. -/
theorem exists_of_mem_paths {mapping : Mapping} {item : Path × Bytes} (h : item ∈ paths mapping) :
    ∃ e ∈ mapping, ∃ inner ∈ pathsOf e.2, item = under [e.1] inner := by
  rw [paths_eq, List.mem_flatMap] at h
  obtain ⟨e, he, hitem⟩ := h
  obtain ⟨inner, hinner, rfl⟩ := List.mem_map.mp hitem
  exact ⟨e, he, inner, hinner, rfl⟩

/-! ## §2 Normal mappings -/

/-- A mapping is **normal** when keys are unique and mappings are not empty, at every level. -/
inductive Normal : Mapping → Prop where
  | intro {mapping : Mapping} (unique : (keys mapping).Nodup)
    (full : ∀ key, (key, Value.map []) ∉ mapping)
    (inner : ∀ key below, (key, Value.map below) ∈ mapping → Normal below) : Normal mapping

namespace Normal

variable {mapping : Mapping}

theorem unique (h : Normal mapping) : (keys mapping).Nodup := by
  cases h with
  | intro unique _ _ => exact unique

theorem full (h : Normal mapping) (key : String) : (key, Value.map []) ∉ mapping := by
  cases h with
  | intro _ full _ => exact full key

theorem inner (h : Normal mapping) {key : String} {below : Mapping}
    (hmem : (key, Value.map below) ∈ mapping) : Normal below := by
  cases h with
  | intro _ _ inner => exact inner key below hmem

/-- The order of the entries does not matter. -/
theorem perm {mapping' : Mapping} (h : Normal mapping) (perm : mapping.Perm mapping') :
    Normal mapping' := by
  apply Normal.intro
  · exact (perm.map _).nodup_iff.mp h.unique
  · exact fun key hmem => h.full key (perm.mem_iff.mpr hmem)
  · exact fun key below hmem => h.inner (perm.mem_iff.mpr hmem)

/-- The entries behind the first one are normal and have other keys. -/
theorem of_cons {e : String × Value} (h : Normal (e :: mapping)) :
    e.1 ∉ keys mapping ∧ Normal mapping := by
  obtain ⟨hfresh, hunique⟩ := List.nodup_cons.mp h.unique
  refine ⟨hfresh, .intro hunique ?_ ?_⟩
  · exact fun key hmem => h.full key (List.mem_cons_of_mem _ hmem)
  · exact fun key below hmem => h.inner (List.mem_cons_of_mem _ hmem)

/-- Something is stored under every entry. -/
theorem pathsOf_ne_nil (h : Normal mapping) : ∀ e ∈ mapping, pathsOf e.2 ≠ [] := by
  induction h with
  | @intro mapping _ full _ ih =>
    intro ⟨key, value⟩ hmem
    match value with
    | .bytes b => simp
    | .map [] => exact absurd hmem (full key)
    | .map ((key', value') :: below) =>
      have hfirst := ih key _ hmem (key', value') List.mem_cons_self
      simp [hfirst]

end Normal

/-! ## §3 Mappings from paths -/

/-- Does a path begin with a key? -/
def starts (key : String) (item : Path × Bytes) : Bool := item.1.head? = some key

/-- Only an entry of the key itself has paths that begin with it. -/
theorem starts_eq_false {mapping : Mapping} {key : String} (h : key ∉ keys mapping) :
    ∀ item ∈ paths mapping, starts key item = false := by
  intro item hitem
  obtain ⟨e, he, inner, -, rfl⟩ := exists_of_mem_paths hitem
  have hne : e.1 ≠ key := fun heq => h (heq ▸ List.mem_map_of_mem he)
  simp [starts, under, hne]

/-- The paths that begin with the first key are those of the first entry, and no others. -/
theorem filter_starts {key : String} {rest : Mapping} (h : key ∉ keys rest) (value : Value) :
    (paths ((key, value) :: rest)).filter (starts key) = (pathsOf value).map (under [key])
      ∧ (paths ((key, value) :: rest)).filter (!starts key ·) = paths rest := by
  have hfirst : ∀ item ∈ (pathsOf value).map (under [key]), starts key item = true := by
    intro item hitem
    obtain ⟨inner, -, rfl⟩ := List.mem_map.mp hitem
    simp [starts, under]
  have hrest := starts_eq_false h
  rw [paths_cons, List.filter_append, List.filter_append]
  constructor
  · rw [List.filter_eq_self.mpr hfirst, List.filter_eq_nil_iff.mpr, List.append_nil]
    exact fun item hitem => by simp [hrest item hitem]
  · rw [List.filter_eq_nil_iff.mpr, List.filter_eq_self.mpr, List.nil_append]
    · exact fun item hitem => by simp [hrest item hitem]
    · exact fun item hitem => by simp [hfirst item hitem]

/-- What stands under a key determines the byte strings below. -/
theorem perm_of_under {front : Path} {items items' : List (Path × Bytes)}
    (h : (items.map (under front)).Perm (items'.map (under front))) : items.Perm items' := by
  apply (List.map_perm_map_iff _).mp h
  intro ⟨path, b⟩ ⟨path', b'⟩ heq
  simpa [under] using heq

/-- A single byte string has the empty path, which leads to nothing in a mapping. -/
theorem eq_bytes_of_perm {b : Bytes} {value : Value} (h : [([], b)].Perm (pathsOf value)) :
    value = .bytes b := by
  cases value with
  | bytes b' => simpa using h.symm
  | map mapping =>
    obtain ⟨e, -, inner, -, heq⟩ := exists_of_mem_paths (h.subset List.mem_cons_self)
    cases heq

/-- A key of a mapping can be put in front. -/
theorem exists_perm_cons {mapping : Mapping} {key : String} (h : key ∈ keys mapping) :
    ∃ value rest, mapping.Perm ((key, value) :: rest) := by
  obtain ⟨⟨_, value⟩, he, rfl⟩ := List.mem_map.mp h
  obtain ⟨before, after, rfl⟩ := List.append_of_mem he
  exact ⟨value, before ++ after, List.perm_middle⟩

/-- Values with the same paths are rearranged, given that their mappings are. -/
private theorem rearranged_value {value value' : Value}
    (ih : ∀ below, value = .map below → ∀ below', Normal below' →
      (paths below).Perm (paths below') → Rearranged below below')
    (h' : ∀ below', value' = .map below' → Normal below')
    (hpaths : (pathsOf value).Perm (pathsOf value')) : RearrangedValue value value' := by
  cases value with
  | bytes b =>
    rw [pathsOf_bytes] at hpaths
    obtain rfl := eq_bytes_of_perm hpaths
    exact .same _
  | map below =>
    cases value' with
    | bytes b' =>
      rw [pathsOf_bytes] at hpaths
      cases eq_bytes_of_perm hpaths.symm
    | map below' => exact .map (ih below rfl below' (h' below' rfl) hpaths)

/-- Normal mappings with the same paths are **rearranged**. -/
theorem Normal.rearranged {mapping mapping' : Mapping} (h : Normal mapping)
    (h' : Normal mapping') (hpaths : (paths mapping).Perm (paths mapping')) :
    Rearranged mapping mapping' := by
  induction h generalizing mapping' with
  | @intro mapping unique full inner ih =>
    have h := Normal.intro unique full inner
    clear unique full inner
    -- `ih` speaks of the mappings in the entries; the entries themselves are taken one by one
    induction mapping generalizing mapping' with
    | nil =>
      cases mapping' with
      | nil => exact .refl []
      | cons e rest =>
        have hfirst := h'.pathsOf_ne_nil e List.mem_cons_self
        rw [paths_nil] at hpaths
        have hnil := hpaths.symm.eq_nil
        rw [paths_cons, List.append_eq_nil_iff, List.map_eq_nil_iff] at hnil
        exact absurd hnil.1 hfirst
    | cons e rest ihrest =>
      obtain ⟨key, value⟩ := e
      obtain ⟨hfresh, hrest⟩ := h.of_cons
      -- some path begins with the key, so the other mapping has an entry of this key
      have hkey : key ∈ keys mapping' := by
        by_contra hnot
        have hnone := starts_eq_false hnot
        obtain ⟨item, hitem⟩ := List.exists_mem_of_ne_nil _ (h.pathsOf_ne_nil _ List.mem_cons_self)
        have hmem : under [key] item ∈ paths ((key, value) :: rest) := by
          rw [paths_cons]
          exact List.mem_append_left _ (List.mem_map_of_mem hitem)
        simpa [starts, under] using hnone _ (hpaths.subset hmem)
      obtain ⟨value', rest', hperm⟩ := exists_perm_cons hkey
      have h'' := h'.perm hperm
      obtain ⟨hfresh', hrest'⟩ := h''.of_cons
      have hall := hpaths.trans (paths_perm hperm)
      have hfirst := hall.filter (starts key)
      have hothers := hall.filter (!starts key ·)
      rw [(filter_starts hfresh value).1, (filter_starts hfresh' value').1] at hfirst
      rw [(filter_starts hfresh value).2, (filter_starts hfresh' value').2] at hothers
      have hvalue : RearrangedValue value value' := by
        apply rearranged_value _ _ (perm_of_under hfirst)
        · rintro below rfl
          exact fun below' => ih key below List.mem_cons_self
        · rintro below' rfl
          exact h''.inner List.mem_cons_self
      have hbehind : Rearranged rest rest' :=
        ihrest (fun key below hmem => ih key below (List.mem_cons_of_mem _ hmem)) hrest' hothers
          hrest
      have hfront : Rearranged ((key, value) :: rest) ((key, value') :: rest') :=
        (hvalue.cons key rest).trans (hbehind.cons _)
      exact hfront.trans (.order hperm.symm)

end Mapping

end HashTree
