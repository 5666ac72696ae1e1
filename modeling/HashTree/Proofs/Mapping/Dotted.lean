import HashTree.Proofs.Mapping.Places

/-!
# The dotted reading

The byte strings of a mapping are offered one after the other, and each is **selected** unless its
path meets one that was selected before. The dotted normal form is normal and its paths are those
that are selected, so that byte strings whose paths do not meet can be exchanged.
-/

namespace HashTree

namespace Mapping

/-! ## §1 Selecting -/

/-- An item is refused when it has no path or when its path meets that of a selected item. -/
def Refused (selected : List (Path × Bytes)) (item : Path × Bytes) : Prop :=
  item.1 = [] ∨ ∃ other ∈ selected, Meets item.1 other.1

instance (selected : List (Path × Bytes)) (item : Path × Bytes) :
    Decidable (Refused selected item) :=
  inferInstanceAs (Decidable (_ ∨ _))

/-- Selects an item unless it is refused. -/
def select (selected : List (Path × Bytes)) (item : Path × Bytes) : List (Path × Bytes) :=
  if Refused selected item then selected else selected ++ [item]

variable {selected selected' : List (Path × Bytes)} {item item' : Path × Bytes}

theorem Refused.perm (h : Refused selected item) (perm : selected.Perm selected') :
    Refused selected' item := by
  rcases h with hnil | ⟨other, hmem, hmeets⟩
  · exact .inl hnil
  · exact .inr ⟨other, perm.mem_iff.mp hmem, hmeets⟩

/-- An item is not refused for one that it does not meet. -/
theorem refused_append (h : ¬ Meets item.1 item'.1) :
    Refused (selected ++ [item']) item ↔ Refused selected item := by
  constructor
  · rintro (hnil | ⟨other, hmem, hmeets⟩)
    · exact .inl hnil
    · rcases List.mem_append.mp hmem with hmem | hmem
      · exact .inr ⟨other, hmem, hmeets⟩
      · obtain rfl := List.mem_singleton.mp hmem
        exact absurd hmeets h
  · rintro (hnil | ⟨other, hmem, hmeets⟩)
    · exact .inl hnil
    · exact .inr ⟨other, List.mem_append_left _ hmem, hmeets⟩

/-- What is selected does not depend on the order of what was selected. -/
theorem select_perm (perm : selected.Perm selected') (item : Path × Bytes) :
    (select selected item).Perm (select selected' item) := by
  rw [select, select]
  by_cases hrefused : Refused selected item
  · rwa [if_pos hrefused, if_pos (hrefused.perm perm)]
  · rw [if_neg hrefused, if_neg fun h => hrefused (h.perm perm.symm)]
    exact perm.append_right _

theorem foldl_select_perm (perm : selected.Perm selected') (items : List (Path × Bytes)) :
    (items.foldl select selected).Perm (items.foldl select selected') := by
  induction items generalizing selected selected' with
  | nil => exact perm
  | cons item items ih => exact ih (select_perm perm item)

/-- Items that do not meet are selected **in either order**. -/
theorem select_comm (h : ¬ Meets item.1 item'.1) (selected : List (Path × Bytes)) :
    (select (select selected item) item').Perm (select (select selected item') item) := by
  have h' : ¬ Meets item'.1 item.1 := fun hmeets => h hmeets.symm
  by_cases hitem : Refused selected item <;> by_cases hitem' : Refused selected item'
  · simp [select, hitem, hitem']
  · simp [select, hitem, hitem', refused_append h]
  · simp [select, hitem, hitem', refused_append h']
  · simp only [select, hitem, hitem', refused_append h, refused_append h', if_false]
    rw [List.append_assoc, List.append_assoc]
    exact List.Perm.append_left selected (.swap _ _ _)

/-! ## §2 Exchanging -/

/-- Items are **exchanged** by putting neighbours that do not meet into the other order. -/
inductive Exchanged : List (Path × Bytes) → List (Path × Bytes) → Prop where
  | refl (items : List (Path × Bytes)) : Exchanged items items
  | cons (item : Path × Bytes) {items items' : List (Path × Bytes)}
    (h : Exchanged items items') : Exchanged (item :: items) (item :: items')
  | swap {item item' : Path × Bytes} (h : ¬ Meets item.1 item'.1) (items : List (Path × Bytes)) :
    Exchanged (item :: item' :: items) (item' :: item :: items)
  | trans {items middle items' : List (Path × Bytes)} (h : Exchanged items middle)
    (h' : Exchanged middle items') : Exchanged items items'

namespace Exchanged

variable {items items' : List (Path × Bytes)}

/-- From exchanged items **the same** are selected. -/
theorem foldl_select (h : Exchanged items items') (selected : List (Path × Bytes)) :
    (items.foldl select selected).Perm (items'.foldl select selected) := by
  induction h generalizing selected with
  | refl items => exact .refl _
  | cons item _ ih => exact ih (select selected item)
  | swap h items => exact foldl_select_perm (select_comm h selected) items
  | trans _ _ ih ih' => exact (ih selected).trans (ih' selected)

theorem append_left (front : List (Path × Bytes)) (h : Exchanged items items') :
    Exchanged (front ++ items) (front ++ items') := by
  induction front with
  | nil => exact h
  | cons item front ih => exact ih.cons item

theorem append_right (h : Exchanged items items') (back : List (Path × Bytes)) :
    Exchanged (items ++ back) (items' ++ back) := by
  induction h with
  | refl items => exact .refl _
  | cons item _ ih => exact ih.cons item
  | swap h items => exact .swap h _
  | trans _ _ ih ih' => exact ih.trans ih'

/-- Exchanged items stay so under a longer path. -/
theorem under (front : Path) (h : Exchanged items items') :
    Exchanged (items.map (under front)) (items'.map (under front)) := by
  induction h with
  | refl items => exact .refl _
  | cons item _ ih => exact ih.cons _
  | @swap item item' h items =>
    apply Exchanged.swap
    simpa [Mapping.under, Meets] using h
  | trans _ _ ih ih' => exact ih.trans ih'

/-- An item moves behind items that it does not meet. -/
theorem move {item : Path × Bytes} (h : ∀ other ∈ items, ¬ Meets item.1 other.1)
    (back : List (Path × Bytes)) : Exchanged (item :: (items ++ back)) (items ++ item :: back) := by
  induction items with
  | nil => exact .refl _
  | cons other items ih =>
    have hother := Exchanged.swap (h other List.mem_cons_self) (items ++ back)
    have hrest := ih fun other hmem => h other (List.mem_cons_of_mem _ hmem)
    exact hother.trans (hrest.cons other)

/-- Items move behind others when no two of them meet. -/
theorem swap_append (h : ∀ item ∈ items, ∀ other ∈ items', ¬ Meets item.1 other.1)
    (back : List (Path × Bytes)) :
    Exchanged (items ++ (items' ++ back)) (items' ++ (items ++ back)) := by
  induction items with
  | nil => exact .refl _
  | cons item items ih =>
    have hrest := ih fun item hmem => h item (List.mem_cons_of_mem _ hmem)
    exact (hrest.cons item).trans (move (h item List.mem_cons_self) (items ++ back))

end Exchanged

/-! ## §3 Storing selects -/

variable {mapping : Mapping}

/-- A byte string fills its place unless it is **refused**, and then nothing changes. -/
theorem Normal.insert_cases (h : Normal mapping) (path : Path) (b : Bytes) :
    (¬ Refused (paths mapping) (path, b) ∧ Fills b path mapping (Mapping.insert mapping path b))
      ∨ (Refused (paths mapping) (path, b) ∧ Mapping.insert mapping path b = mapping) := by
  rcases fills_or_taken b path mapping with ⟨mapping', hfills⟩ | htaken
  · left
    rw [hfills.insert_eq]
    refine ⟨?_, hfills⟩
    rintro (hnil | ⟨other, hmem, hmeets⟩)
    · obtain rfl : path = [] := hnil
      exact absurd hfills.path_ne_nil (by simp)
    · exact hfills.not_meets h other hmem hmeets
  · right
    refine ⟨?_, htaken.insert_eq b⟩
    by_cases hnil : path = []
    · exact .inl hnil
    · exact .inr (htaken.exists_meets h hnil)

/-- Storing a byte string keeps a mapping normal and **selects** the byte string. -/
theorem Normal.insert (h : Normal mapping) (path : Path) (b : Bytes) :
    Normal (insert mapping path b)
      ∧ (paths (Mapping.insert mapping path b)).Perm (select (paths mapping) (path, b)) := by
  rw [select]
  rcases h.insert_cases path b with ⟨hfree, hfills⟩ | ⟨hrefused, hsame⟩
  · rw [if_neg hfree]
    exact ⟨h.of_fills hfills, hfills.paths_perm.trans (List.perm_append_singleton _ _).symm⟩
  · rw [if_pos hrefused, hsame]
    exact ⟨h, .refl _⟩

/-- Storing byte strings one after the other selects from them. -/
theorem Normal.foldl_insert (h : Normal mapping) (items : List (Path × Bytes)) :
    Normal (items.foldl (fun kept (path, b) => Mapping.insert kept path b) mapping)
      ∧ (paths (items.foldl (fun kept (path, b) => Mapping.insert kept path b) mapping)).Perm
        (items.foldl select (paths mapping)) := by
  induction items generalizing mapping with
  | nil => exact ⟨h, .refl _⟩
  | cons item items ih =>
    obtain ⟨hnormal, hselect⟩ := h.insert item.1 item.2
    obtain ⟨hnormal', hselect'⟩ := ih hnormal
    exact ⟨hnormal', hselect'.trans (foldl_select_perm hselect items)⟩

theorem Normal.nil : Normal [] := .intro List.nodup_nil (by simp) (by simp)

/-- The dotted normal form is **normal**. -/
theorem dotted_normal (mapping : Mapping) : Normal (dotted mapping) :=
  (Normal.nil.foldl_insert _).1

/-- The paths of the dotted normal form are those that are **selected**. -/
theorem paths_dotted (mapping : Mapping) :
    (paths (dotted mapping)).Perm ((expand mapping).foldl select []) := by
  have h := (Normal.nil.foldl_insert (expand mapping)).2
  rwa [paths_nil] at h

/-- The normal forms are rearranged when the byte strings are exchanged. -/
theorem dotted_exchanged {mapping mapping' : Mapping}
    (h : Exchanged (expand mapping) (expand mapping')) :
    Rearranged (dotted mapping) (dotted mapping') := by
  apply (dotted_normal mapping).rearranged (dotted_normal mapping')
  exact (paths_dotted mapping).trans ((h.foldl_select []).trans (paths_dotted mapping').symm)

/-! ## §4 Expanding -/

/-- The byte strings of an entry with their paths. -/
def expandEntry (e : String × Value) : List (Path × Bytes) :=
  (expandValue e.2).map (under (segments e.1))

@[simp]
theorem expandEntry_bytes (key : String) (b : Bytes) :
    expandEntry (key, .bytes b) = [(segments key, b)] := by
  simp [expandEntry, expandValue, under]

theorem expand_eq (mapping : Mapping) : expand mapping = mapping.flatMap expandEntry := by
  rw [expand, expandValue, Value.fold_map, List.flatMap_map]
  rfl

/-- Entries whose byte strings do not meet may be reordered. -/
theorem expand_perm {mapping mapping' : Mapping} (perm : mapping.Perm mapping')
    (free : mapping.Pairwise fun e f =>
      ∀ item ∈ expandEntry e, ∀ other ∈ expandEntry f, ¬ Meets item.1 other.1) :
    Exchanged (expand mapping) (expand mapping') := by
  simp only [expand_eq]
  induction perm with
  | nil => exact .refl _
  | cons e _ ih => exact (ih (List.pairwise_cons.mp free).2).append_left _
  | swap e f rest =>
    obtain ⟨hfirst, -⟩ := List.pairwise_cons.mp free
    exact Exchanged.swap_append (hfirst e List.mem_cons_self) _
  | trans perm _ ih ih' =>
    have free' := perm.pairwise free fun {e f} h other hother item hitem hmeets =>
      h item hitem other hother hmeets.symm
    exact (ih free).trans (ih' free')

/-- The byte strings in a mapping in a mapping may be exchanged. -/
theorem expand_inner {before below below' after : Mapping} {key : String}
    (h : Exchanged (expand below) (expand below')) :
    Exchanged (expand (before ++ (key, .map below) :: after))
      (expand (before ++ (key, .map below') :: after)) := by
  simp only [expand_eq, List.flatMap_append, List.flatMap_cons]
  exact ((h.under (segments key)).append_right _).append_left _

end Mapping

end HashTree
