import HashTree.Proofs.Mapping.Dotted
import HashTree.Proofs.Mapping.Gathered
import HashTree.Proofs.Mapping.Segments
import HashTree.Proofs.Tree.Shape

/-!
# The dotted reading, rule by rule

The dotted normal form is said here by rules that follow the entries: they are **expanded** in their
order, the first of any paths that meet is **selected**, and a mapping **holds** the selected byte
strings, each under its path, with the keys of every level in the order in which they come first.
The rules leave one mapping, which is the one that is computed by storing one byte string after the
other: one that is refused leaves nothing behind.
-/

namespace HashTree

namespace Mapping

/-! ## §1 Expanding -/

/-- A key is **cut at its dots** into the segments of a path. -/
structure CutAtDots (key : String) (path : Path) : Prop where
  ne_nil : path ≠ []
  segments : ∀ segment ∈ path, IsSegment segment
  join_eq : joinDots path = key

/-- The byte strings of some entries **in their order**, each with the path of all keys above it. -/
inductive Expands : Mapping → List (Path × Bytes) → Prop where
  | nil : Expands [] []
  | bytes {key : String} {path : Path} {b : Bytes} {rest : Mapping} {items : List (Path × Bytes)}
    (cut : CutAtDots key path) (behind : Expands rest items) :
    Expands ((key, .bytes b) :: rest) ((path, b) :: items)
  | map {key : String} {path : Path} {below rest : Mapping} {inner items : List (Path × Bytes)}
    (cut : CutAtDots key path) (inside : Expands below inner) (behind : Expands rest items) :
    Expands ((key, .map below) :: rest) (inner.map (under path) ++ items)

theorem cutAtDots_iff {key : String} {path : Path} : CutAtDots key path ↔ path = segments key := by
  constructor
  · intro h
    rw [← h.join_eq]
    exact (segments_joinDots h.ne_nil h.segments).symm
  · rintro rfl
    exact ⟨segments_ne_nil key, fun _ => isSegment_of_mem, joinDots_segments key⟩

/-- Entries are expanded in **one way**. -/
theorem Expands.unique {mapping : Mapping} {items items' : List (Path × Bytes)}
    (h : Expands mapping items) (h' : Expands mapping items') : items = items' := by
  induction h generalizing items' with
  | nil =>
    cases h'
    rfl
  | bytes cut _ ih =>
    cases h' with
    | bytes cut' behind' =>
      rw [cutAtDots_iff.mp cut, cutAtDots_iff.mp cut', ih behind']
  | map cut _ _ ihinside ihbehind =>
    cases h' with
    | map cut' inside' behind' =>
      rw [cutAtDots_iff.mp cut, cutAtDots_iff.mp cut', ihinside inside', ihbehind behind']

/-- Entries are expanded one by one, once the mappings in them are. -/
private theorem expands_entries {entries : Mapping} (ih : ∀ e ∈ entries, ∀ below,
    e.2 = .map below → Expands below (expand below)) : Expands entries (expand entries) := by
  rw [expand_eq]
  induction entries with
  | nil => exact .nil
  | cons e rest ihrest =>
    obtain ⟨key, value⟩ := e
    have hcut := cutAtDots_iff.mpr (rfl : segments key = segments key)
    have hrest := ihrest fun e he => ih e (List.mem_cons_of_mem _ he)
    rw [List.flatMap_cons]
    cases value with
    | bytes b =>
      rw [expandEntry_bytes]
      exact .bytes hcut hrest
    | map below => exact .map hcut (ih (key, .map below) List.mem_cons_self below rfl) hrest

/-- The rules say **what is computed**. -/
theorem expands_expand (mapping : Mapping) : Expands mapping (expand mapping) := by
  have hvalue : ∀ value : Value, ∀ below, value = .map below → Expands below (expand below) := by
    intro value
    induction value using Value.induction with
    | bytes b =>
      intro below heq
      cases heq
    | map entries ih =>
      intro below heq
      obtain rfl := Value.map.inj heq
      exact expands_entries ih
  exact hvalue (.map mapping) mapping rfl

/-- Every byte string has a key above it. -/
theorem Expands.path_ne_nil {mapping : Mapping} {items : List (Path × Bytes)}
    (h : Expands mapping items) : ∀ item ∈ items, item.1 ≠ [] := by
  induction h with
  | nil => simp
  | bytes cut _ ih => exact List.forall_mem_cons.mpr ⟨cut.ne_nil, ih⟩
  | map cut _ _ _ ih =>
    intro item hitem
    rcases List.mem_append.mp hitem with hitem | hitem
    · obtain ⟨inner, -, rfl⟩ := List.mem_map.mp hitem
      exact List.append_ne_nil_of_left_ne_nil cut.ne_nil _
    · exact ih item hitem

/-! ## §2 Selecting -/

/-- What is selected from some items, taken in their order: an item is **kept unless its path meets**
that of an item that was kept before. -/
inductive Selects : List (Path × Bytes) → List (Path × Bytes) → Prop where
  | nil : Selects [] []
  | keep {items kept : List (Path × Bytes)} {item : Path × Bytes} (before : Selects items kept)
    (free : ∀ other ∈ kept, ¬ Meets item.1 other.1) : Selects (items ++ [item]) (kept ++ [item])
  | drop {items kept : List (Path × Bytes)} {item other : Path × Bytes}
    (before : Selects items kept) (mem : other ∈ kept) (meets : Meets item.1 other.1) :
    Selects (items ++ [item]) kept

/-- What is selected is determined. -/
theorem Selects.eq_foldl {items kept : List (Path × Bytes)} (h : Selects items kept)
    (hne : ∀ item ∈ items, item.1 ≠ []) : kept = items.foldl select [] := by
  induction h with
  | nil => rfl
  | @keep items kept item _ free ih =>
    obtain ⟨hitems, hitem⟩ := List.forall_mem_append.mp hne
    have hfree : ¬ Refused kept item := by
      intro hrefused
      rcases hrefused with hnil | ⟨other, hmem, hmeets⟩
      · exact hitem item (List.mem_singleton_self item) hnil
      · exact free other hmem hmeets
    rw [List.foldl_append, ← ih hitems, List.foldl_cons, List.foldl_nil, select, if_neg hfree]
  | @drop items kept item other _ mem meets ih =>
    have hrefused : Refused kept item := .inr ⟨other, mem, meets⟩
    rw [List.foldl_append, ← ih (List.forall_mem_append.mp hne).1, List.foldl_cons, List.foldl_nil,
      select, if_pos hrefused]

/-- The rules say **what is computed**. -/
theorem selects_foldl {items : List (Path × Bytes)} (hne : ∀ item ∈ items, item.1 ≠ []) :
    Selects items (items.foldl select []) := by
  induction items using List.reverseRecOn with
  | nil => exact .nil
  | append_singleton items item ih =>
    obtain ⟨hitems, hitem⟩ := List.forall_mem_append.mp hne
    have hbefore := ih hitems
    rw [List.foldl_append, List.foldl_cons, List.foldl_nil, select]
    by_cases hrefused : Refused (items.foldl select []) item
    · rw [if_pos hrefused]
      rcases hrefused with hnil | ⟨other, hmem, hmeets⟩
      · exact absurd hnil (hitem item (List.mem_singleton_self item))
      · exact .drop hbefore hmem hmeets
    · rw [if_neg hrefused]
      exact .keep hbefore fun other hmem hmeets => hrefused (.inr ⟨other, hmem, hmeets⟩)

/-! ## §3 Holding -/

/-- The first keys of the paths, **in the order in which they come first**. -/
def firstKeys (items : List (Path × Bytes)) : List String :=
  (items.filterMap (·.1.head?)).eraseDups

/-- The items whose paths begin with a key, each with the rest of its path. -/
def itemsBelow (key : String) (items : List (Path × Bytes)) : List (Path × Bytes) :=
  items.filterMap fun item => if item.1.head? = some key then some (item.1.tail, item.2) else none

/-- A value **holds** some items. A byte string holds itself at the end of a path; a mapping has one
entry for each first key of the paths, in the order of these, and the entry holds what is below the
key. -/
inductive Holds : List (Path × Bytes) → Value → Prop where
  | bytes (b : Bytes) : Holds [([], b)] (.bytes b)
  | map {items : List (Path × Bytes)} {mapping : Mapping} (pathed : ∀ item ∈ items, item.1 ≠ [])
    (keys_eq : keys mapping = firstKeys items)
    (entries : ∀ e ∈ mapping, Holds (itemsBelow e.1 items) e.2) : Holds items (.map mapping)

variable {items : List (Path × Bytes)} {mapping mapping' : Mapping} {key key' : String}
  {path : Path} {b : Bytes}

theorem itemsBelow_append (key : String) (items more : List (Path × Bytes)) :
    itemsBelow key (items ++ more) = itemsBelow key items ++ itemsBelow key more :=
  List.filterMap_append

@[simp]
theorem itemsBelow_self (key : String) (path : Path) (b : Bytes) :
    itemsBelow key [(key :: path, b)] = [(path, b)] := by
  simp [itemsBelow]

theorem itemsBelow_of_ne (hne : key ≠ key') (path : Path) (b : Bytes) :
    itemsBelow key' [(key :: path, b)] = [] := by
  simp [itemsBelow, hne]

theorem mem_firstKeys : key ∈ firstKeys items ↔ ∃ item ∈ items, item.1.head? = some key := by
  rw [firstKeys, List.mem_eraseDups, List.mem_filterMap]

/-- Nothing is below a key that no path begins with. -/
theorem itemsBelow_eq_nil (h : key ∉ firstKeys items) : itemsBelow key items = [] := by
  rw [itemsBelow, List.filterMap_eq_nil_iff]
  intro item hitem
  exact if_neg fun hhead => h (mem_firstKeys.mpr ⟨item, hitem, hhead⟩)

/-- One more item brings a key at the end, unless it has come before. -/
theorem firstKeys_concat (items : List (Path × Bytes)) (key : String) (path : Path) (b : Bytes) :
    firstKeys (items ++ [(key :: path, b)])
      = if key ∈ firstKeys items then firstKeys items else firstKeys items ++ [key] := by
  simp only [firstKeys, List.mem_eraseDups]
  rw [List.filterMap_append, List.eraseDups_append]
  by_cases hmem : key ∈ items.filterMap (·.1.head?)
  · simp [hmem, List.removeAll]
  · simp [hmem, List.removeAll, List.eraseDups_cons]

/-- **Only one value** holds some items. -/
theorem Holds.unique {value value' : Value} (h : Holds items value) (h' : Holds items value') :
    value = value' := by
  induction h generalizing value' with
  | bytes b =>
    cases h' with
    | bytes => rfl
    | map pathed => exact absurd rfl (pathed _ (List.mem_singleton_self _))
  | @map items mapping pathed keys_eq _ ih =>
    cases h' with
    | bytes => exact absurd rfl (pathed _ (List.mem_singleton_self _))
    | @map _ mapping' _ keys_eq' entries' =>
      have hkeys : keys mapping = keys mapping' := keys_eq.trans keys_eq'.symm
      have hlength : mapping.length = mapping'.length := by
        simpa [keys] using congrArg List.length hkeys
      -- entries of one place have the same key, and so the same value
      refine congrArg _ (List.ext_getElem hlength fun k hk hk' => ?_)
      have hkey : mapping[k].1 = mapping'[k].1 := by
        simpa [keys] using List.getElem_of_eq hkeys (by simpa [keys] using hk)
      have hentry := entries' _ (List.getElem_mem hk')
      rw [← hkey] at hentry
      exact Prod.ext hkey (ih _ (List.getElem_mem hk) hentry)

/-- A chain holds **one byte string** under its path. -/
theorem holds_chain (path : Path) (b : Bytes) : Holds [(path, b)] (chain path b) := by
  induction path with
  | nil => exact .bytes b
  | cons key path ih =>
    refine .map (by simp) (by simp [keys, firstKeys, List.eraseDups_cons]) fun e he => ?_
    obtain rfl := List.mem_singleton.mp he
    rwa [itemsBelow_self]

/-- A filled place holds **one item more**. -/
theorem Holds.of_fills (h : Holds items (.map mapping)) (hn : Normal mapping)
    (hfills : Fills b path mapping mapping') : Holds (items ++ [(path, b)]) (.map mapping') := by
  induction hfills generalizing items with
  | @fresh key path mapping new =>
    cases h with
    | map pathed keys_eq entries =>
      -- a new key comes last, and nothing has been below it
      have hnew : key ∉ firstKeys items := keys_eq ▸ new
      refine .map ?_ ?_ fun e he => ?_
      · exact List.forall_mem_append.mpr ⟨pathed, by simp⟩
      · rw [firstKeys_concat, if_neg hnew, ← keys_eq]
        simp [keys]
      · rcases List.mem_append.mp he with he | he
        · have hne : key ≠ e.1 := fun heq => new (heq ▸ List.mem_map_of_mem he)
          rw [itemsBelow_append, itemsBelow_of_ne hne, List.append_nil]
          exact entries e he
        · obtain rfl := List.mem_singleton.mp he
          rw [itemsBelow_append, itemsBelow_eq_nil hnew, itemsBelow_self, List.nil_append]
          exact holds_chain path b
  | @inside key path before inner inner' after _ hfills ih =>
    cases h with
    | map pathed keys_eq entries =>
      have hkeys : keys (before ++ (key, Value.map inner') :: after)
          = keys (before ++ (key, Value.map inner) :: after) := by simp [keys]
      have hold : key ∈ firstKeys items := by
        rw [← keys_eq]
        simp [keys]
      have hunique := hn.unique
      rw [keys, List.map_append, List.map_cons, List.nodup_middle, List.nodup_cons,
        ← List.map_append] at hunique
      refine .map ?_ ?_ fun e he => ?_
      · exact List.forall_mem_append.mpr ⟨pathed, by simp⟩
      · rw [firstKeys_concat, if_pos hold, hkeys, keys_eq]
      · rcases List.mem_cons.mp (List.perm_middle.mem_iff.mp he) with rfl | he
        · -- the entry in which the place was filled
          have hmem : (key, Value.map inner) ∈ before ++ (key, Value.map inner) :: after :=
            List.mem_append_right _ List.mem_cons_self
          rw [itemsBelow_append, itemsBelow_self]
          exact ih (entries _ hmem) (hn.inner hmem)
        · have hother : e.1 ∈ (before ++ after).map (·.1) := List.mem_map_of_mem he
          have hne : key ≠ e.1 := fun heq => hunique.1 (heq ▸ hother)
          have hmem := List.perm_middle.mem_iff.mpr (List.mem_cons_of_mem (key, Value.map inner) he)
          rw [itemsBelow_append, itemsBelow_of_ne hne, List.append_nil]
          exact entries e hmem

/-! ## §4 Storing -/

/-- A mapping that holds what was kept holds what is kept **after one more item**. -/
theorem Holds.insert (h : Holds items (.map mapping)) (hn : Normal mapping)
    (hpaths : (paths mapping).Perm items) (path : Path) (b : Bytes) :
    Holds (select items (path, b)) (.map (Mapping.insert mapping path b)) := by
  rw [select]
  -- the paths of the mapping are those that were kept, so both refuse the same items
  rcases hn.insert_cases path b with ⟨hfree, hfills⟩ | ⟨hrefused, hsame⟩
  · rw [if_neg fun hrefused => hfree (hrefused.perm hpaths.symm)]
    exact h.of_fills hn hfills
  · rw [if_pos (hrefused.perm hpaths), hsame]
    exact h

/-- Storing items one after the other leaves a mapping that **holds what is selected**. -/
theorem holds_foldl_insert (items : List (Path × Bytes)) : Holds (items.foldl select [])
    (.map (items.foldl (fun kept (path, b) => Mapping.insert kept path b) [])) := by
  induction items using List.reverseRecOn with
  | nil => exact .map (by simp) rfl (by simp)
  | append_singleton items item ih =>
    obtain ⟨hnormal, hpaths⟩ := Normal.nil.foldl_insert items
    rw [paths_nil] at hpaths
    rw [List.foldl_append, List.foldl_append]
    exact ih.insert hnormal hpaths item.1 item.2

/-! ## §5 Leaves -/

/-- What is stored in a value are the byte strings at the ends of its paths. -/
theorem map_snd_pathsOf (value : Value) : (pathsOf value).map (·.2) = value.stored := by
  induction value using Value.induction with
  | bytes b => simp
  | map entries ih =>
    rw [pathsOf_map, paths_eq, Value.stored_map, List.map_flatMap]
    apply List.flatMap_congr
    intro e he
    rw [List.map_map, ← ih e he]
    rfl

/-- Expanding keeps every byte string. -/
theorem map_snd_expandValue (value : Value) : (expandValue value).map (·.2) = value.stored := by
  induction value using Value.induction with
  | bytes b => simp [expandValue]
  | map entries ih =>
    have hexpand : expandValue (.map entries) = entries.flatMap expandEntry := expand_eq entries
    rw [hexpand, Value.stored_map, List.map_flatMap]
    apply List.flatMap_congr
    intro e he
    rw [← ih e he, expandEntry, List.map_map]
    rfl

/-- What has been selected stays selected. -/
private theorem foldl_select_ne_nil {selected : List (Path × Bytes)} (hne : selected ≠ [])
    (items : List (Path × Bytes)) : items.foldl select selected ≠ [] := by
  induction items generalizing selected with
  | nil => exact hne
  | cons item items ih =>
    refine ih ?_
    rw [select]
    split
    · exact hne
    · exact List.append_ne_nil_of_left_ne_nil hne _

/-- Of a mapping that holds a byte string the dotted reading leaves one: the **first** is never
refused. -/
theorem stored_dotted_ne_nil {mapping : Mapping} (hne : (Value.map mapping).stored ≠ []) :
    (Value.map (dotted mapping)).stored ≠ [] := by
  have hexpand : expand mapping ≠ [] := by
    intro hnil
    rw [← map_snd_expandValue, show expandValue (.map mapping) = [] from hnil] at hne
    exact hne rfl
  obtain ⟨first, rest, hitems⟩ := List.exists_cons_of_ne_nil hexpand
  have hpath := (expands_expand mapping).path_ne_nil first (by rw [hitems]; exact List.mem_cons_self)
  have hfirst : select [] first = [first] := by simp [select, Refused, hpath]
  have hperm := paths_dotted mapping
  rw [hitems, List.foldl_cons, hfirst] at hperm
  rw [← map_snd_pathsOf, pathsOf_map]
  intro hnil
  rw [List.map_eq_nil_iff.mp hnil] at hperm
  exact foldl_select_ne_nil (List.cons_ne_nil first []) rest (List.nil_perm.mp hperm)

/-- At every position of a tree there is a leaf. -/
theorem length_leafNodes {t : Tree} (h : t.Made) : t.leafNodes.length = t.leafCount := by
  rw [Tree.leafNodes, Tree.nodesAt, Tree.leafCount, ← Array.length_toList]
  apply List.filterMap_length_eq_length.mpr
  intro i hi
  cases hroot : t.root with
  | none =>
    rw [h.leaves_of_no_root hroot] at hi
    cases hi
  | some root =>
    obtain ⟨r, -, u⟩ := h.unfolds hroot
    have hlt := ((u.mem_leaves i).mp (Array.mem_toList_iff.mp hi)).1
    rw [Tree.length_links] at hlt
    simp [hlt]

/-- **The dotted reading is the greedy selection.** The entries of a mapping are expanded in one way
and what is selected from them is determined. The dotted normal form is the one mapping that holds
the selected byte strings: these and no others lie at the ends of its paths, keys are unique, no
mapping in it is empty, and the keys of each level are in the order in which they come first. Its
tree has one leaf for each selected byte string. -/
theorem dotted_greedy (mapping : Mapping) : ∃ items kept : List (Path × Bytes),
    Expands mapping items ∧ (∀ items', Expands mapping items' → items' = items)
      ∧ Selects items kept ∧ (∀ kept', Selects items kept' → kept' = kept)
      ∧ Holds kept (.map (dotted mapping))
      ∧ (∀ other, Holds kept (.map other) → other = dotted mapping)
      ∧ (paths (dotted mapping)).Perm kept ∧ Normal (dotted mapping)
      ∧ ∀ a retain, (toTree a retain .dotted mapping).leafCount = kept.length
        ∧ ((toTree a retain .dotted mapping).leafNodes.map Node.cell).Perm
          (kept.map fun item => Cell.ofPayload a retain item.2) := by
  have hexpands := expands_expand mapping
  have hne := hexpands.path_ne_nil
  have hholds : Holds ((expand mapping).foldl select []) (.map (dotted mapping)) :=
    holds_foldl_insert (expand mapping)
  refine ⟨expand mapping, (expand mapping).foldl select [], hexpands, fun _ h => h.unique hexpands,
    selects_foldl hne, fun _ h => h.eq_foldl hne, hholds, fun _ h => ?_, paths_dotted mapping,
    dotted_normal mapping, fun a retain => ?_⟩
  · exact Value.map.inj (h.unique hholds)
  · have hstored : ((Value.map (dotted mapping)).stored.map (Cell.ofPayload a retain)).Perm
        (((expand mapping).foldl select []).map fun item => Cell.ofPayload a retain item.2) := by
      rw [← map_snd_pathsOf, pathsOf_map, List.map_map]
      exact (paths_dotted mapping).map _
    have hcells := (leafNodes_toTree a retain .dotted mapping).trans hstored
    have hlength := hcells.length_eq
    rw [List.length_map, List.length_map, length_leafNodes (toTree_made ..)] at hlength
    exact ⟨hlength, hcells⟩

end Mapping

end HashTree
