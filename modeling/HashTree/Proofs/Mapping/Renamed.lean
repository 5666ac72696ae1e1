import HashTree.Proofs.Mapping.Dotted
import HashTree.Proofs.Mapping.Nested
import HashTree.Proofs.Mapping.Segments

/-!
# Renamed mappings

The keys of a mapping can be renamed level by level. When different keys of a level stay different,
renaming passes through the normal forms: entries compete for the renamed place exactly when they
competed for the place, so that the normal form of a renamed mapping is the renamed normal form. In
the dotted reading the keys of a level are segments, and a dotted key has one for each level.
-/

namespace HashTree

namespace Mapping

/-! ## §1 Renaming -/

/-- The path of keys that a key stands for. -/
def Reading.path : Reading → String → Path
  | .dotted, key => segments key
  | .nested, key => [key]

/-- A **renaming** has an injective function for every level, which is given by the path above it.
In the dotted reading segments become segments. -/
structure Renaming (reading : Reading) where
  key : (above : Path) → String → String
  injective (above : Path) : Function.Injective (key above)
  segment (dots : reading = .dotted) (above : Path) (k : String) (h : IsSegment k) :
    IsSegment (key above k)

/-- A path below another one whose keys are renamed. -/
def respell (key : Path → String → String) (above : Path) : Path → Path
  | [] => []
  | k :: path => key above k :: respell key (above ++ [k]) path

namespace Renaming

variable {reading : Reading} (σ : Renaming reading)

/-- The new name of a key, level by level. -/
def name (above : Path) (key : String) : String :=
  joinDots (respell σ.key above (reading.path key))

mutual

/-- A value under some path whose keys are renamed. -/
def value (above : Path) : Value → Value
  | .bytes b => .bytes b
  | .map mapping => .map (entries above mapping)

/-- A mapping under some path whose keys are renamed. -/
def entries (above : Path) : List (String × Value) → List (String × Value)
  | [] => []
  | (key, v) :: rest =>
    (σ.name above key, value (above ++ reading.path key) v) :: entries above rest

end

/-- The same renaming of keys as they are written. -/
def plain : Renaming .nested where
  key := σ.key
  injective := σ.injective
  segment dots := by cases dots

theorem entries_eq (above : Path) (mapping : Mapping) :
    σ.entries above mapping
      = mapping.map fun e => (σ.name above e.1, σ.value (above ++ reading.path e.1) e.2) := by
  induction mapping with
  | nil => rw [entries, List.map_nil]
  | cons e rest ih => rw [entries, List.map_cons, ih]

@[simp]
theorem value_bytes (above : Path) (b : Bytes) : σ.value above (.bytes b) = .bytes b := by
  rw [value]

@[simp]
theorem value_map (above : Path) (mapping : Mapping) :
    σ.value above (.map mapping) = .map (σ.entries above mapping) := by
  rw [value]

/-- Renamed values are **alike**. -/
theorem alike (above : Path) (v : Value) : (σ.value above v).Alike v := by
  induction v using Value.induction generalizing above with
  | bytes b =>
    rw [value_bytes]
    exact .refl _
  | map mapping ih =>
    rw [value_map, entries_eq]
    apply Value.Alike.map
    rw [List.forall₂_map_left_iff, List.forall₂_same]
    exact fun e he => ih e he _

/-- Paths are respelled from the front. -/
theorem respell_append (key : Path → String → String) (above front path : Path) :
    respell key above (front ++ path)
      = respell key above front ++ respell key (above ++ front) path := by
  induction front generalizing above with
  | nil => simp [respell]
  | cons k front ih => simp [respell, ih]

/-! ## §2 The nested reading -/

section Nested

variable (σ : Renaming .nested)

theorem name_eq (above : Path) (key : String) : σ.name above key = σ.key above key :=
  String.intercalate_singleton (s := ".")

theorem name_eq_iff (above : Path) {key key' : String} :
    σ.name above key = σ.name above key' ↔ key = key' := by
  rw [name_eq, name_eq, (σ.injective above).eq_iff]

/-- The normal form of a renamed value is the **renamed normal form**. -/
theorem nestedValue_value (above : Path) (v : Value) :
    nestedValue (σ.value above v) = σ.value above (nestedValue v) := by
  induction v using Value.induction generalizing above with
  | bytes b => simp [nestedValue_bytes]
  | map mapping ih =>
    rw [value_map, nestedValue_map, nestedValue_map, value_map, nested_eq, nested_eq, entries_eq,
      entries_eq, ← firsts_map fun e f => σ.name_eq_iff above, List.map_map, List.map_map]
    refine congrArg (fun entries => Value.map (firsts entries)) (List.map_congr_left fun e he => ?_)
    simp [ih e he]

theorem nested_entries (mapping : Mapping) :
    nested (σ.entries [] mapping) = σ.entries [] (nested mapping) := by
  have h := σ.nestedValue_value [] (.map mapping)
  rw [value_map, nestedValue_map, nestedValue_map, value_map] at h
  exact Value.map.inj h

end Nested

/-! ## §3 The dotted reading -/

section Plain

variable (σ : Renaming .nested) {b : Bytes} {path : Path} {mapping mapping' : Mapping}

/-- No other key becomes the renamed key. -/
theorem notMem_keys (above : Path) {key : String} (h : key ∉ keys mapping) :
    σ.key above key ∉ keys (σ.entries above mapping) := by
  rw [entries_eq, keys, List.map_map, List.mem_map]
  rintro ⟨e, he, heq⟩
  have hkey := (σ.name_eq above e.1).symm.trans heq
  exact h (σ.injective above hkey ▸ List.mem_map_of_mem he)

theorem entries_append (above : Path) (mapping mapping' : Mapping) :
    σ.entries above (mapping ++ mapping') = σ.entries above mapping ++ σ.entries above mapping' := by
  simp only [entries_eq, List.map_append]

theorem entries_cons (above : Path) (key : String) (v : Value) (rest : Mapping) :
    σ.entries above ((key, v) :: rest)
      = (σ.key above key, σ.value (above ++ [key]) v) :: σ.entries above rest := by
  rw [entries, name_eq]
  rfl

theorem value_chain (above path : Path) (b : Bytes) :
    σ.value above (chain path b) = chain (respell σ.key above path) b := by
  induction path generalizing above with
  | nil => exact σ.value_bytes above b
  | cons key path ih =>
    show σ.value above (.map [(key, chain path b)]) = .map [(σ.key above key, _)]
    rw [value_map, entries_cons, ih]
    rfl

/-- The renamed place is filled. -/
theorem fills (above : Path) (h : Fills b path mapping mapping') :
    Fills b (respell σ.key above path) (σ.entries above mapping) (σ.entries above mapping') := by
  induction h generalizing above with
  | fresh new =>
    rw [entries_append, entries_cons, value_chain]
    exact .fresh (σ.notMem_keys above new)
  | @inside key path before below below' after first _ ih =>
    rw [entries_append, entries_append, entries_cons, entries_cons, value_map, value_map]
    exact .inside (σ.notMem_keys above first) (ih (above ++ [key]))

/-- The renamed place is taken. -/
theorem taken (above : Path) (h : Taken path mapping) :
    Taken (respell σ.key above path) (σ.entries above mapping) := by
  induction h generalizing above with
  | here mapping => exact .here _
  | value first =>
    rw [entries_append, entries_cons, value_bytes]
    exact .value (σ.notMem_keys above first)
  | @inside key path before below after first _ ih =>
    rw [entries_append, entries_cons, value_map]
    exact .inside (σ.notMem_keys above first) (ih (above ++ [key]))

/-- Storing under a renamed path stores in the **renamed mapping**. -/
theorem insert_entries (mapping : Mapping) (path : Path) (b : Bytes) :
    insert (σ.entries [] mapping) (respell σ.key [] path) b
      = σ.entries [] (insert mapping path b) := by
  rcases fills_or_taken b path mapping with ⟨mapping', hfills⟩ | htaken
  · rw [hfills.insert_eq, (σ.fills [] hfills).insert_eq]
  · rw [htaken.insert_eq, (σ.taken [] htaken).insert_eq]

/-- Storing under renamed paths, one after the other. -/
theorem foldl_insert_entries (mapping : Mapping) (items : List (Path × Bytes)) :
    items.foldl (fun kept item => insert kept (respell σ.key [] item.1) item.2)
        (σ.entries [] mapping)
      = σ.entries [] (items.foldl (fun kept item => insert kept item.1 item.2) mapping) := by
  induction items generalizing mapping with
  | nil => rfl
  | cons item items ih => rw [List.foldl_cons, List.foldl_cons, insert_entries, ih]

end Plain

section Dotted

variable (σ : Renaming .dotted)

/-- Renamed segments are segments. -/
theorem isSegment_respell {path : Path} (h : ∀ key ∈ path, IsSegment key) (above : Path) :
    ∀ key ∈ respell σ.key above path, IsSegment key := by
  induction path generalizing above with
  | nil => simp [respell]
  | cons key path ih =>
    rw [respell, List.forall_mem_cons]
    obtain ⟨hfirst, hrest⟩ := List.forall_mem_cons.mp h
    exact ⟨σ.segment rfl above key hfirst, ih hrest _⟩

theorem segments_name (above : Path) (key : String) :
    segments (σ.name above key) = respell σ.key above (segments key) := by
  have hne : respell σ.key above (segments key) ≠ [] := by
    match hsegments : segments key with
    | [] => exact absurd hsegments (segments_ne_nil key)
    | _ :: _ => simp [respell]
  exact segments_joinDots hne (σ.isSegment_respell (fun _ => isSegment_of_mem) above)

/-- The byte strings of a renamed value have **respelled paths**. -/
theorem expandValue_value (above : Path) (v : Value) :
    expandValue (σ.value above v)
      = (expandValue v).map fun item => (respell σ.key above item.1, item.2) := by
  induction v using Value.induction generalizing above with
  | bytes b => simp [expandValue, respell]
  | map mapping ih =>
    have hexpand : ∀ mapping : Mapping, expandValue (.map mapping) = mapping.flatMap expandEntry :=
      expand_eq
    rw [value_map, hexpand, hexpand, entries_eq, List.flatMap_map, List.map_flatMap]
    refine List.flatMap_congr fun e he => ?_
    rw [expandEntry, expandEntry, segments_name, ih e he, List.map_map, List.map_map]
    refine List.map_congr_left fun item _ => ?_
    simp [under, respell_append, Reading.path]

theorem dotted_entries (mapping : Mapping) :
    dotted (σ.entries [] mapping) = σ.plain.entries [] (dotted mapping) := by
  have hexpand : expand (σ.entries [] mapping)
      = (expand mapping).map fun item => (respell σ.key [] item.1, item.2) := by
    have h := σ.expandValue_value [] (.map mapping)
    rwa [value_map] at h
  have hfold := σ.plain.foldl_insert_entries [] (expand mapping)
  rw [entries] at hfold
  rw [dotted, dotted, hexpand, List.foldl_map]
  exact hfold

end Dotted

end Renaming

end Mapping

end HashTree
