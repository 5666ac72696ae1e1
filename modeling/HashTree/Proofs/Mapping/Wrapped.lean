import HashTree.Proofs.Mapping.Gathered
import HashTree.Proofs.Mapping.Dotted
import HashTree.Proofs.Mapping.Nested
import HashTree.Proofs.Mapping.Segments

/-!
# Wrapped mappings

A mapping is wrapped by becoming the only value of another one, under any key. What competed for a
place in it competes for the same place below the key, so the normal form is wrapped too, and a
mapping of a single entry leaves no trace in the tree. So keys can be put around a mapping, or in
front of all its keys, without changing its tree.
-/

namespace HashTree

namespace Mapping

/-! ## §1 Storing below a key -/

/-- Stores byte strings one after the other. -/
def insertAll (mapping : Mapping) (items : List (Path × Bytes)) : Mapping :=
  items.foldl (fun kept (path, b) => insert kept path b) mapping

theorem dotted_eq (mapping : Mapping) : dotted mapping = insertAll [] (expand mapping) := rfl

theorem insertAll_cons (mapping : Mapping) (item : Path × Bytes) (items : List (Path × Bytes)) :
    insertAll mapping (item :: items) = insertAll (insert mapping item.1 item.2) items := rfl

theorem insertAll_append (mapping : Mapping) (items more : List (Path × Bytes)) :
    insertAll mapping (items ++ more) = insertAll (insertAll mapping items) more :=
  List.foldl_append

section Below

variable {before below : Mapping} {key : String} {path : Path} {items : List (Path × Bytes)}

/-- Below a new key a byte string is stored **as in an empty mapping**. -/
theorem insert_new (hkey : key ∉ keys before) (hpath : path ≠ []) (b : Bytes) :
    insert before (key :: path) b = before ++ [(key, .map (insert [] path b))] := by
  obtain ⟨first, path, rfl⟩ := List.exists_cons_of_ne_nil hpath
  have hempty : first ∉ keys [] := List.not_mem_nil
  rw [(Fills.fresh hkey).insert_eq, (Fills.fresh hempty).insert_eq]
  rfl

/-- Below the last key it is stored **in the mapping there**. -/
theorem insert_last (hkey : key ∉ keys before) (path : Path) (b : Bytes) :
    insert (before ++ [(key, .map below)]) (key :: path) b
      = before ++ [(key, .map (insert below path b))] := by
  rcases fills_or_taken b path below with ⟨below', hfills⟩ | htaken
  · rw [hfills.insert_eq, (Fills.inside hkey hfills).insert_eq]
  · rw [htaken.insert_eq, (Taken.inside hkey htaken).insert_eq]

private theorem insertAll_last (hkey : key ∉ keys before) (items : List (Path × Bytes)) :
    insertAll (before ++ [(key, .map below)]) (items.map (under [key]))
      = before ++ [(key, .map (insertAll below items))] := by
  induction items generalizing below with
  | nil => rfl
  | cons item items ih =>
    rw [List.map_cons, insertAll_cons, insertAll_cons, ← ih]
    exact congrArg (insertAll · _) (insert_last hkey item.1 item.2)

/-- Byte strings below a new key make **one entry**, which holds what they make by themselves. -/
theorem insertAll_under_key (hkey : key ∉ keys before) (hpaths : ∀ item ∈ items, item.1 ≠ [])
    (hne : items ≠ []) :
    insertAll before (items.map (under [key])) = before ++ [(key, .map (insertAll [] items))] := by
  obtain ⟨item, items, rfl⟩ := List.exists_cons_of_ne_nil hne
  rw [List.map_cons, insertAll_cons, insertAll_cons, ← insertAll_last hkey]
  exact congrArg (insertAll · _) (insert_new hkey (hpaths item List.mem_cons_self) item.2)

/-! ## §2 Wrapping -/

/-- A value under some keys, each the only one of its mapping. -/
def wrap (front : Path) (value : Value) : Value :=
  front.foldr (fun key value => .map [(key, value)]) value

theorem wrap_cons (key : String) (front : Path) (value : Value) :
    wrap (key :: front) value = .map [(key, wrap front value)] := rfl

theorem chain_eq_wrap (path : Path) (b : Bytes) : chain path b = wrap path (.bytes b) := rfl

/-- A wrapped mapping is a mapping. -/
theorem wrap_map (front : Path) (mapping : Mapping) :
    wrap front (.map mapping) = .map (entriesOf (wrap front (.map mapping))) := by
  cases front <;> rfl

/-- Byte strings with a longer path make what they make by themselves, **wrapped**. -/
theorem insertAll_under (front : Path) (hpaths : ∀ item ∈ items, item.1 ≠ []) (hne : items ≠ []) :
    .map (insertAll [] (items.map (under front))) = wrap front (.map (insertAll [] items)) := by
  induction front with
  | nil =>
    have hsame : items.map (under []) = items := List.map_id items
    rw [hsame]
    rfl
  | cons key front ih =>
    have hsplit : items.map (under (key :: front))
        = (items.map (under front)).map (under [key]) := by
      simp [under]
    have hpaths' : ∀ item ∈ items.map (under front), item.1 ≠ [] := by
      intro item hitem
      obtain ⟨inner, hinner, rfl⟩ := List.mem_map.mp hitem
      exact List.append_ne_nil_of_right_ne_nil front (hpaths inner hinner)
    have hempty : key ∉ keys [] := List.not_mem_nil
    rw [hsplit, insertAll_under_key hempty hpaths' (by simpa using hne), ih, wrap_cons]
    rfl

end Below

/-! ## §3 Forms -/

section Forms

variable (a : Algorithm) (retain : Bool)

/-- A single entry **leaves no trace**. -/
theorem form?_single (key : String) (value : Value) :
    form? a retain (.map [(key, value)]) = form? a retain value := by
  rw [form?_map]
  cases h : form? a retain value <;> simp [h, gather]

theorem form?_wrap (front : Path) (value : Value) :
    form? a retain (wrap front value) = form? a retain value := by
  induction front with
  | nil => rfl
  | cons key front ih => rw [wrap_cons, form?_single, ih]

/-- Keys leave no trace. -/
theorem form?_map_congr {mapping mapping' : Mapping} (h : mapping.map (·.2) = mapping'.map (·.2)) :
    form? a retain (.map mapping) = form? a retain (.map mapping') := by
  have hvalues : ∀ mapping : Mapping, mapping.filterMap (fun e => form? a retain e.2)
      = (mapping.map (·.2)).filterMap (form? a retain) := by
    intro mapping
    rw [List.filterMap_map]
    rfl
  rw [form?_map, form?_map, hvalues, hvalues, h]

/-- Normal forms of one form have one tree. -/
theorem toTree_congr {reading reading' : Reading} {mapping mapping' : Mapping}
    (h : form? a retain (.map (normalize reading mapping))
      = form? a retain (.map (normalize reading' mapping'))) :
    toTree a retain reading mapping = toTree a retain reading' mapping' := by
  rw [toTree, toTree, h]

end Forms

/-! ## §4 Longer keys -/

/-- Every path in an expanded mapping has a key. -/
theorem path_ne_nil_of_mem_expand {mapping : Mapping} :
    ∀ item ∈ expand mapping, item.1 ≠ [] := by
  intro item hitem
  rw [expand_eq, List.mem_flatMap] at hitem
  obtain ⟨e, -, hitem⟩ := hitem
  obtain ⟨inner, -, rfl⟩ := List.mem_map.mp hitem
  exact List.append_ne_nil_of_left_ne_nil (segments_ne_nil e.1) _

/-- Longer paths for all byte strings leave no trace in the dotted reading. -/
theorem form?_dotted_under (a : Algorithm) (retain : Bool) {mapping mapping' : Mapping}
    (front : Path) (h : expand mapping' = (expand mapping).map (under front)) :
    form? a retain (.map (dotted mapping')) = form? a retain (.map (dotted mapping)) := by
  rw [dotted_eq, dotted_eq, h]
  by_cases hne : expand mapping = []
  · rw [hne, List.map_nil]
  · rw [insertAll_under front path_ne_nil_of_mem_expand hne, form?_wrap]

/-- A mapping with a key and a dot in front of every key. -/
def prefixed (key : String) (mapping : Mapping) : Mapping :=
  mapping.map fun e => (key ++ "." ++ e.1, e.2)

theorem segments_dot (key rest : String) :
    segments (key ++ "." ++ rest) = segments key ++ segments rest := by
  have hjoin : joinDots (segments key ++ segments rest)
      = joinDots (segments key) ++ "." ++ joinDots (segments rest) :=
    String.intercalate_append_of_ne_nil (segments_ne_nil key) (segments_ne_nil rest)
  rw [joinDots_segments, joinDots_segments] at hjoin
  rw [← hjoin]
  apply segments_joinDots
  · exact List.append_ne_nil_of_left_ne_nil (segments_ne_nil key) _
  · intro segment hsegment
    exact (List.mem_append.mp hsegment).elim isSegment_of_mem isSegment_of_mem

theorem expand_single (key : String) (mapping : Mapping) :
    expand [(key, .map mapping)] = (expand mapping).map (under (segments key)) := by
  rw [expand_eq, List.flatMap_singleton]
  rfl

theorem expand_prefixed (key : String) (mapping : Mapping) :
    expand (prefixed key mapping) = (expand mapping).map (under (segments key)) := by
  rw [expand_eq, expand_eq, prefixed, List.flatMap_map, List.map_flatMap]
  refine List.flatMap_congr fun e _ => ?_
  rw [expandEntry, expandEntry, segments_dot, List.map_map]
  refine List.map_congr_left fun item _ => ?_
  simp [under]

theorem nested_single (key : String) (mapping : Mapping) :
    nested [(key, .map mapping)] = [(key, .map (nested mapping))] := by
  rw [nested_eq, List.map_singleton, nestedValue_map]
  rfl

theorem nested_prefixed (key : String) (mapping : Mapping) :
    nested (prefixed key mapping) = prefixed key (nested mapping) := by
  have hkeys : ∀ e f : String × Value, key ++ "." ++ e.1 = key ++ "." ++ f.1 ↔ e.1 = f.1 := by
    intro e f
    simp [String.append_assoc]
  rw [nested_eq, nested_eq, prefixed, prefixed, ← firsts_map hkeys, List.map_map, List.map_map]
  rfl

end Mapping

/-! ## §5 Trees -/

/-- The tree of a single byte string: one node, which is the root and the only leaf. -/
def Tree.lone (a : Algorithm) (retain : Bool) (b : Bytes) : Tree :=
  ⟨a, #[⟨a, a.digest b, none, .leaf (if retain then some b else none)⟩], #[0], some 0⟩

namespace Mapping

variable (a : Algorithm) (retain : Bool) (reading : Reading)

/-- A mapping under one key has **the tree of the mapping**. -/
theorem toTree_single (key : String) (mapping : Mapping) :
    toTree a retain reading [(key, .map mapping)] = toTree a retain reading mapping := by
  apply toTree_congr
  cases reading with
  | dotted => exact form?_dotted_under a retain _ (expand_single key mapping)
  | nested =>
    show form? a retain (.map (nested _)) = form? a retain (.map (nested _))
    rw [nested_single, form?_single]

/-- So has a mapping with a key in front of all its keys. -/
theorem toTree_prefixed (key : String) (mapping : Mapping) :
    toTree a retain reading (prefixed key mapping) = toTree a retain reading mapping := by
  apply toTree_congr
  cases reading with
  | dotted => exact form?_dotted_under a retain _ (expand_prefixed key mapping)
  | nested =>
    show form? a retain (.map (nested _)) = form? a retain (.map (nested _))
    rw [nested_prefixed]
    apply form?_map_congr
    simp [prefixed]

/-- A byte string under one key has a tree of **one node**. -/
theorem toTree_bytes (key : String) (b : Bytes) :
    toTree a retain reading [(key, .bytes b)] = Tree.lone a retain b := by
  have hform : form? a retain (.map (normalize reading [(key, .bytes b)]))
      = some (.leaf (a.digest b) (if retain then some b else none)) := by
    cases reading with
    | dotted =>
      obtain ⟨first, rest, hsegments⟩ := List.exists_cons_of_ne_nil (segments_ne_nil key)
      have hempty : first ∉ keys [] := List.not_mem_nil
      -- the segments of the key become mappings of one entry each
      rw [normalize, dotted_eq, expand_eq, List.flatMap_singleton, expandEntry_bytes, hsegments]
      show form? a retain (.map (insert [] (first :: rest) b)) = _
      rw [(Fills.fresh hempty).insert_eq, List.nil_append, form?_single, chain_eq_wrap, form?_wrap,
        form?_bytes]
    | nested =>
      rw [normalize, nested_eq, List.map_singleton, nestedValue_bytes]
      show form? a retain (.map [(key, .bytes b)]) = _
      rw [form?_single, form?_bytes]
  rw [toTree, hform]
  show Form.toTree a _ = _
  rw [Form.toTree_eq]
  rfl

/-- **Wrapping leaves no trace.** In either reading a mapping under a key, whatever dots are in the
key, has the tree of the mapping, and so has a mapping under any number of keys, one below the other,
or with a key and a dot in front of all its keys. A single byte string has a tree of one node, under
however many keys it lies. -/
theorem toTree_wrapped :
    (∀ key mapping, toTree a retain reading [(key, .map mapping)] = toTree a retain reading mapping)
      ∧ (∀ front mapping, toTree a retain reading (entriesOf (wrap front (.map mapping)))
        = toTree a retain reading mapping)
      ∧ (∀ key mapping, toTree a retain reading (prefixed key mapping)
        = toTree a retain reading mapping)
      ∧ ∀ key front b, toTree a retain reading [(key, wrap front (.bytes b))]
        = Tree.lone a retain b := by
  refine ⟨toTree_single a retain reading, fun front mapping => ?_, toTree_prefixed a retain reading,
    fun key front b => ?_⟩
  · -- one key after the other is taken off, from the outside
    induction front with
    | nil => rfl
    | cons key front ih =>
      rw [wrap_cons, wrap_map]
      exact (toTree_single a retain reading key _).trans ih
  · induction front generalizing key with
    | nil => exact toTree_bytes a retain reading key b
    | cons next front ih =>
      rw [wrap_cons]
      exact (toTree_single a retain reading key _).trans (ih next)

end Mapping

end HashTree
