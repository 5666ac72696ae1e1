import HashTree.Proofs.Mapping.Paths

/-!
# Filling places

Storing a byte string under a path either fills the place of the path or finds it taken. Both are
said here by rules that follow the keys of the path down the mapping, without the gaps that the
search leaves behind. A place is taken exactly when a path of the mapping **meets** the new one.
-/

namespace HashTree

namespace Mapping

/-! ## §1 Finding a key -/

/-- A key of a mapping has a first entry. -/
theorem exists_first {mapping : Mapping} {key : String} (h : key ∈ keys mapping) :
    ∃ before value after, mapping = before ++ (key, value) :: after ∧ key ∉ keys before := by
  induction mapping with
  | nil => simp [keys] at h
  | cons e rest ih =>
    by_cases hkey : key = e.1
    · exact ⟨[], e.2, rest, by simp [hkey], by simp [keys]⟩
    · obtain ⟨before, value, after, rfl, hfirst⟩ := ih ((List.mem_cons.mp h).resolve_left hkey)
      refine ⟨e :: before, value, after, rfl, ?_⟩
      rw [keys, List.map_cons, List.mem_cons, not_or]
      exact ⟨hkey, hfirst⟩

/-- The search passes over entries of other keys. -/
theorem splitAtKey_pass {key : String} {mapping : Mapping} (h : key ∉ keys mapping)
    (after done : Mapping) :
    splitAtKey key (mapping ++ after) done = splitAtKey key after (mapping.reverse ++ done) := by
  induction mapping generalizing done with
  | nil => rfl
  | cons e rest ih =>
    rw [keys, List.map_cons, List.mem_cons, not_or] at h
    rw [List.cons_append, splitAtKey, if_neg (Ne.symm h.1), ih h.2, List.reverse_cons,
      List.append_assoc]
    rfl

/-- A key that no entry has is not found. -/
theorem splitAtKey_eq_none {key : String} {mapping : Mapping} (h : key ∉ keys mapping) :
    splitAtKey key mapping [] = none := by
  have hpass := splitAtKey_pass h [] []
  rwa [List.append_nil] at hpass

/-- The first entry of a key is found. -/
theorem splitAtKey_eq_some {key : String} {before : Mapping} (h : key ∉ keys before)
    (value : Value) (after : Mapping) :
    splitAtKey key (before ++ (key, value) :: after) [] = some (before, value, after) := by
  rw [splitAtKey_pass h, splitAtKey, if_pos rfl, List.append_nil, List.reverse_reverse]

/-! ## §2 Filled and taken places -/

/-- A byte string **fills** the place of a path. -/
inductive Fills (b : Bytes) : Path → Mapping → Mapping → Prop where
  /-- No entry has the key: an entry with all that is missing is added at the end. -/
  | fresh {key : String} {path : Path} {mapping : Mapping} (new : key ∉ keys mapping) :
    Fills b (key :: path) mapping (mapping ++ [(key, chain path b)])
  /-- The first entry of the key is a mapping: the place in it is filled. -/
  | inside {key : String} {path : Path} {before below below' after : Mapping}
    (first : key ∉ keys before) (h : Fills b path below below') :
    Fills b (key :: path) (before ++ (key, .map below) :: after)
      (before ++ (key, .map below') :: after)

/-- The place of a path is **taken**. -/
inductive Taken : Path → Mapping → Prop where
  /-- A mapping stands there. -/
  | here (mapping : Mapping) : Taken [] mapping
  /-- A byte string stands there or on the way. -/
  | value {key : String} {path : Path} {before : Mapping} {b : Bytes} {after : Mapping}
    (first : key ∉ keys before) : Taken (key :: path) (before ++ (key, .bytes b) :: after)
  /-- The first entry of the key is a mapping, and the place in it is taken. -/
  | inside {key : String} {path : Path} {before below after : Mapping}
    (first : key ∉ keys before) (h : Taken path below) :
    Taken (key :: path) (before ++ (key, .map below) :: after)

/-- Every place can be filled or is taken. -/
theorem fills_or_taken (b : Bytes) (path : Path) (mapping : Mapping) :
    (∃ mapping', Fills b path mapping mapping') ∨ Taken path mapping := by
  induction path generalizing mapping with
  | nil => exact .inr (.here mapping)
  | cons key path ih =>
    by_cases hkey : key ∈ keys mapping
    · obtain ⟨before, value, after, rfl, hfirst⟩ := exists_first hkey
      cases value with
      | bytes b' => exact .inr (.value hfirst)
      | map below =>
        rcases ih below with ⟨below', hfills⟩ | htaken
        · exact .inl ⟨_, .inside hfirst hfills⟩
        · exact .inr (.inside hfirst htaken)
    · exact .inl ⟨_, .fresh hkey⟩

variable {b : Bytes} {path : Path} {mapping mapping' : Mapping}

/-- A filled place lies under some key. -/
theorem Fills.path_ne_nil (h : Fills b path mapping mapping') : path.isEmpty = false := by
  cases h <;> rfl

/-- The search fills the place, and closes the gaps that it was given. -/
theorem Fills.place?_eq (h : Fills b path mapping mapping') (gaps : List Gap) :
    place? b path mapping gaps = some (close gaps mapping') := by
  induction h generalizing gaps with
  | fresh new => rw [place?, splitAtKey_eq_none new]
  | inside first h ih =>
    rw [place?, splitAtKey_eq_some first]
    simp only [h.path_ne_nil, Bool.false_eq_true, if_false]
    rw [ih, close]

/-- The search finds a taken place taken. -/
theorem Taken.place?_eq (h : Taken path mapping) (gaps : List Gap) :
    place? b path mapping gaps = none := by
  induction h generalizing gaps with
  | here mapping => rw [place?]
  | value first => rw [place?, splitAtKey_eq_some first]
  | inside first _ ih =>
    rw [place?, splitAtKey_eq_some first]
    simp [ih]

/-- A byte string is stored **where its place can be filled**. -/
theorem Fills.insert_eq (h : Fills b path mapping mapping') : insert mapping path b = mapping' := by
  rw [insert, h.place?_eq]
  rfl

/-- Nothing is stored at a place that is taken. -/
theorem Taken.insert_eq (h : Taken path mapping) (b : Bytes) : insert mapping path b = mapping := by
  rw [insert, h.place?_eq]
  rfl

/-! ## §3 What is stored -/

theorem pathsOf_chain (path : Path) (b : Bytes) : pathsOf (chain path b) = [(path, b)] := by
  induction path with
  | nil => exact pathsOf_bytes b
  | cons key path ih =>
    show pathsOf (.map [(key, chain path b)]) = _
    simp [ih, under]

/-- A filled place adds **one byte string**, under its path. -/
theorem Fills.paths_perm (h : Fills b path mapping mapping') :
    (paths mapping').Perm ((path, b) :: paths mapping) := by
  induction h with
  | fresh new =>
    rw [paths_append, paths_cons, pathsOf_chain, paths_nil, List.append_nil]
    exact List.perm_append_singleton _ _
  | @inside key path before below below' after _ _ ih =>
    rw [paths_append, paths_cons, paths_append, paths_cons]
    have hinner := (ih.map (under [key])).append_right (paths after)
    exact (hinner.append_left (paths before)).trans List.perm_middle

theorem Fills.ne_nil (h : Fills b path mapping mapping') : mapping' ≠ [] := by
  cases h <;> simp

/-- A single entry over a chain is normal. -/
theorem normal_chain (key : String) (path : Path) (b : Bytes) :
    Normal [(key, chain path b)] := by
  induction path generalizing key with
  | nil => exact .intro (by simp [keys]) (by simp [chain]) (by simp [chain])
  | cons key' path ih =>
    refine .intro (by simp [keys]) (by simp [chain]) fun key'' below hmem => ?_
    obtain ⟨-, rfl⟩ : key'' = key ∧ below = [(key', chain path b)] := by simpa [chain] using hmem
    exact ih key'

/-- Filling a place of a normal mapping leaves it **normal**. -/
theorem Normal.of_fills (hn : Normal mapping) (h : Fills b path mapping mapping') :
    Normal mapping' := by
  induction h with
  | @fresh key path mapping new =>
    have hlast := normal_chain key path b
    have hmem : ∀ e, e ∈ mapping ++ [(key, chain path b)] →
        e ∈ mapping ∨ e ∈ [(key, chain path b)] := fun e => List.mem_append.mp
    refine .intro ?_ (fun key' h => ?_) fun key' below h => ?_
    · rw [keys, List.map_append]
      exact hn.unique.append hlast.unique (by simpa [keys] using new)
    · exact (hmem _ h).elim (hn.full key') (hlast.full key')
    · exact (hmem _ h).elim hn.inner hlast.inner
  | @inside key path before below below' after _ h ih =>
    have hmem : ∀ e, e ∈ before ++ (key, Value.map below') :: after →
        e = (key, .map below') ∨ e ∈ before ++ (key, Value.map below) :: after := by
      intro e he
      simp only [List.mem_append, List.mem_cons] at he ⊢
      tauto
    refine .intro ?_ (fun key' h' => ?_) fun key' inner h' => ?_
    · simpa [keys] using hn.unique
    · rcases hmem _ h' with heq | hold
      · obtain ⟨-, hnil⟩ : key = key' ∧ below' = [] := by simpa using heq.symm
        exact h.ne_nil hnil
      · exact hn.full key' hold
    · rcases hmem _ h' with heq | hold
      · obtain ⟨-, rfl⟩ : key' = key ∧ inner = below' := by simpa using heq
        exact ih (hn.inner (List.mem_append_right _ List.mem_cons_self))
      · exact hn.inner hold

/-! ## §4 Meeting paths -/

/-- Two paths **meet** when they are equal or one leads through the other. -/
def Meets (path path' : Path) : Prop := path <+: path' ∨ path' <+: path

instance (path path' : Path) : Decidable (Meets path path') :=
  inferInstanceAs (Decidable (_ ∨ _))

theorem Meets.symm {path path' : Path} (h : Meets path path') : Meets path' path := Or.symm h

@[simp]
theorem meets_nil (path : Path) : Meets [] path := .inl List.nil_prefix

@[simp]
theorem meets_cons {key key' : String} {path path' : Path} :
    Meets (key :: path) (key' :: path') ↔ key = key' ∧ Meets path path' := by
  rw [Meets, Meets, List.cons_prefix_cons, List.cons_prefix_cons]
  grind

/-- A place that can be filled meets **no path** of the mapping. -/
theorem Fills.not_meets (h : Fills b path mapping mapping') (hn : Normal mapping) :
    ∀ item ∈ paths mapping, ¬ Meets path item.1 := by
  induction h with
  | fresh new =>
    intro item hitem hmeets
    obtain ⟨e, he, inner, -, rfl⟩ := exists_of_mem_paths hitem
    obtain ⟨rfl, -⟩ := meets_cons.mp hmeets
    exact new (List.mem_map_of_mem he)
  | @inside key path before below _ after _ _ ih =>
    intro item hitem hmeets
    obtain ⟨⟨key', value⟩, he, inner, hinner, rfl⟩ := exists_of_mem_paths hitem
    obtain ⟨rfl, hinside⟩ := meets_cons.mp hmeets
    -- keys are unique, so it is the entry in which the place was filled
    have hmem : (key, Value.map below) ∈ before ++ (key, Value.map below) :: after :=
      List.mem_append_right _ List.mem_cons_self
    obtain rfl : value = .map below := by
      have heq := List.inj_on_of_nodup_map hn.unique he hmem rfl
      exact congrArg Prod.snd heq
    exact ih (hn.inner hmem) inner hinner hinside

/-- A taken place meets **some path** of the mapping. -/
theorem Taken.exists_meets (h : Taken path mapping) (hn : Normal mapping) (hne : path ≠ []) :
    ∃ item ∈ paths mapping, Meets path item.1 := by
  induction h with
  | here mapping => exact absurd rfl hne
  | @value key path before b after _ =>
    exact ⟨([key], b), by simp [under], by simp [Meets]⟩
  | @inside key path before below after _ _ ih =>
    have hmem : (key, Value.map below) ∈ before ++ (key, Value.map below) :: after :=
      List.mem_append_right _ List.mem_cons_self
    have hlift : ∀ item ∈ paths below,
        under [key] item ∈ paths (before ++ (key, Value.map below) :: after) := by
      intro item hitem
      rw [paths_append, paths_cons]
      exact List.mem_append_right _ (List.mem_append_left _ (List.mem_map_of_mem hitem))
    obtain ⟨item, hitem, hmeets⟩ : ∃ item ∈ paths below, Meets path item.1 := by
      by_cases hend : path = []
      · obtain ⟨item, hitem⟩ := List.exists_mem_of_ne_nil _ (hn.pathsOf_ne_nil _ hmem)
        exact ⟨item, hitem, hend ▸ meets_nil _⟩
      · exact ih (hn.inner hmem) hend
    exact ⟨_, hlift item hitem, meets_cons.mpr ⟨rfl, hmeets⟩⟩

end Mapping

end HashTree
