import HashTree.Proofs.Mapping.Renamed

/-!
# What leaves the root of a mapping as it is

The root stands for the nested multiset of the byte strings that the normal form holds, and for
nothing else. Entries that do not compete for a place can be reordered and keys can be renamed,
whatever the reading, since neither changes this multiset.
-/

namespace HashTree

namespace Mapping

/-! ## §1 Reordering entries -/

/-- Two entries **conflict** when they compete for a place: in the nested reading they have one key,
in the dotted reading the paths of some byte strings in them meet. -/
def Conflict : Reading → String × Value → String × Value → Prop
  | .nested, e, f => e.1 = f.1
  | .dotted, e, f => ∃ item ∈ expandEntry e, ∃ other ∈ expandEntry f, Meets item.1 other.1

/-- A mapping is **reordered** by permuting entries of which no two conflict, at any level. -/
inductive Reordered (reading : Reading) : Mapping → Mapping → Prop where
  | order {mapping mapping' : Mapping} (perm : mapping.Perm mapping')
    (free : mapping.Pairwise fun e f => ¬ Conflict reading e f) : Reordered reading mapping mapping'
  | inner {before below below' after : Mapping} {key : String}
    (h : Reordered reading below below') :
    Reordered reading (before ++ (key, .map below) :: after) (before ++ (key, .map below') :: after)
  | trans {mapping middle mapping' : Mapping} (h : Reordered reading mapping middle)
    (h' : Reordered reading middle mapping') : Reordered reading mapping mapping'

namespace Reordered

variable {mapping mapping' : Mapping}

/-- In the nested reading the normal forms are rearranged. -/
theorem nested (h : Reordered .nested mapping mapping') :
    Rearranged (nested mapping) (Mapping.nested mapping') := by
  induction h with
  | order perm free => exact .order (nested_perm perm free)
  | inner _ ih => exact nested_inner ih
  | trans _ _ ih ih' => exact ih.trans ih'

/-- In the dotted reading the byte strings are exchanged. -/
theorem expand (h : Reordered .dotted mapping mapping') :
    Exchanged (expand mapping) (Mapping.expand mapping') := by
  induction h with
  | order perm free =>
    apply expand_perm perm
    apply free.imp
    intro e f hfree item hitem other hother hmeets
    exact hfree ⟨item, hitem, other, hother, hmeets⟩
  | inner _ ih => exact expand_inner ih
  | trans _ _ ih ih' => exact ih.trans ih'

/-- The normal form of a reordered mapping is **rearranged**. -/
theorem normalize {reading : Reading} (h : Reordered reading mapping mapping') :
    Rearranged (normalize reading mapping) (Mapping.normalize reading mapping') := by
  cases reading with
  | dotted => exact dotted_exchanged h.expand
  | nested => exact h.nested

end Reordered

/-- The normal form of a renamed mapping is the **renamed normal form**. -/
theorem Renaming.normalize_entries {reading : Reading} (σ : Renaming reading) (mapping : Mapping) :
    normalize reading (σ.entries [] mapping) = σ.plain.entries [] (normalize reading mapping) := by
  cases reading with
  | dotted => exact σ.dotted_entries mapping
  | nested => exact σ.nested_entries mapping

/-! ## §2 Roots -/

/-- Two trees have **the same root**: one digest, or none because both are empty. -/
def SameRoot (a : Algorithm) (t t' : Tree) : Prop :=
  (∃ d, t.rootDigest = .ok d ∧ t'.rootDigest = .ok d) ∨ t = Tree.empty a ∧ t' = Tree.empty a

/-- Mappings that are **alike** in normal form have trees of the same root. -/
theorem sameRoot_of_alike (a : Algorithm) (retain retain' : Bool) {reading reading' : Reading}
    {mapping mapping' : Mapping}
    (h : Value.Alike (.map (normalize reading mapping)) (.map (normalize reading' mapping'))) :
    SameRoot a (toTree a retain reading mapping) (toTree a retain' reading' mapping') := by
  have hdigest := digest?_congr (a := a) h
  rw [← digest_form? retain, ← digest_form? retain'] at hdigest
  rw [toTree, toTree]
  -- both normal forms have a form, and then one digest, or neither has
  cases hform : form? a retain (.map (normalize reading mapping)) with
  | none =>
    rw [hform, Option.map_none, eq_comm, Option.map_eq_none_iff] at hdigest
    rw [hdigest]
    exact .inr ⟨rfl, rfl⟩
  | some form =>
    rw [hform, Option.map_some, eq_comm, Option.map_eq_some_iff] at hdigest
    obtain ⟨form', hform', hsame⟩ := hdigest
    rw [hform']
    exact .inl ⟨form.digest, form.rootDigest_toTree a, hsame ▸ form'.rootDigest_toTree a⟩

/-- **The root depends on the nested multiset of values alone.** It carries the digest of the normal
form, which is computed from the sorted digests of what is stored at each level. Mappings whose
normal forms are alike have the same root, even in different readings. So does a mapping whose
entries are reordered where they do not conflict, and a mapping whose keys are renamed. -/
theorem sameRoot (a : Algorithm) :
    (∀ (retain : Bool) (reading : Reading) (mapping : Mapping),
      (toTree a retain reading mapping).rootDigest
        = (digest? a (.map (normalize reading mapping))).elim (.error .emptyTree) .ok)
    ∧ (∀ (retain retain' : Bool) (reading reading' : Reading) (mapping mapping' : Mapping),
      Value.Alike (.map (normalize reading mapping)) (.map (normalize reading' mapping')) →
        SameRoot a (toTree a retain reading mapping) (toTree a retain' reading' mapping'))
    ∧ (∀ (retain : Bool) (reading : Reading) (mapping mapping' : Mapping),
      Reordered reading mapping mapping' →
        SameRoot a (toTree a retain reading mapping) (toTree a retain reading mapping'))
    ∧ ∀ (retain : Bool) (reading : Reading) (σ : Renaming reading) (mapping : Mapping),
      SameRoot a (toTree a retain reading (σ.entries [] mapping))
        (toTree a retain reading mapping) := by
  refine ⟨rootDigest_toTree a, ?alike, ?reordered, ?renamed⟩
  case alike =>
    intro retain retain' reading reading' mapping mapping' h
    exact sameRoot_of_alike a retain retain' h
  case reordered =>
    intro retain reading mapping mapping' h
    exact sameRoot_of_alike a retain retain h.normalize.alike
  case renamed =>
    intro retain reading σ mapping
    apply sameRoot_of_alike
    rw [σ.normalize_entries]
    have h := σ.plain.alike [] (.map (normalize reading mapping))
    rwa [Renaming.value_map] at h

/-- The bytes `1` and `2`, the first below two keys beside an empty mapping, or under a dotted key
that stands before or behind the other one. -/
theorem sameRoot_two :
    Value.Alike
        (.map (normalize .nested
          [("x", .map [("y", .bytes [1]), ("e", .map [])]), ("z", .bytes [2])]))
        (.map (normalize .dotted [("p", .bytes [2]), ("q.r", .bytes [1])]))
      ∧ SameRoot .sha1
        (toTree .sha1 true .nested
          [("x", .map [("y", .bytes [1]), ("e", .map [])]), ("z", .bytes [2])])
        (toTree .sha1 false .dotted [("p", .bytes [2]), ("q.r", .bytes [1])])
      ∧ Reordered .dotted [("p", .bytes [2]), ("q.r", .bytes [1])]
        [("q.r", .bytes [1]), ("p", .bytes [2])]
      ∧ SameRoot .sha1 (toTree .sha1 true .dotted [("p", .bytes [2]), ("q.r", .bytes [1])])
        (toTree .sha1 true .dotted [("q.r", .bytes [1]), ("p", .bytes [2])]) := by
  obtain ⟨-, halike, hreordered, -⟩ := sameRoot .sha1
  have hnested : normalize .nested
      [("x", .map [("y", .bytes [1]), ("e", .map [])]), ("z", .bytes [2])]
      = [("x", .map [("y", .bytes [1]), ("e", .map [])]), ("z", .bytes [2])] := by
    simp [normalize, nested_eq, nestedValue_map, nestedValue_bytes, firsts]
  have hdotted : normalize .dotted [("p", .bytes [2]), ("q.r", .bytes [1])]
      = [("p", .bytes [2]), ("q", .map [("r", .bytes [1])])] := by
    simp only [normalize, dotted, expand_eq, List.flatMap_cons, List.flatMap_nil, expandEntry_bytes]
    rfl
  have h : Value.Alike
      (.map (normalize .nested
        [("x", .map [("y", .bytes [1]), ("e", .map [])]), ("z", .bytes [2])]))
      (.map (normalize .dotted [("p", .bytes [2]), ("q.r", .bytes [1])])) := by
    rw [hnested, hdotted]
    -- the empty mapping is dropped from behind its neighbour, and the rest is renamed and swapped
    have hinner : Value.Alike (.map [("y", .bytes [1]), ("e", .map [])])
        (.map [("r", .bytes [1])]) :=
      (Value.Alike.order (.swap _ _ _)).trans ((Value.Alike.absent (by simp)).trans (.keys rfl))
    exact (Value.Alike.inner hinner).trans ((Value.Alike.order (.swap _ _ _)).trans (.keys rfl))
  have h' : Reordered .dotted [("p", .bytes [2]), ("q.r", .bytes [1])]
      [("q.r", .bytes [1]), ("p", .bytes [2])] := by
    apply Reordered.order (.swap _ _ _)
    have hmeets : ¬ Meets (segments "q.r") (segments "p") := by decide +kernel
    simpa [Conflict] using fun h => hmeets h.symm
  exact ⟨h, halike _ _ _ _ _ _ h, h', hreordered _ _ _ _ h'⟩

end Mapping

end HashTree
