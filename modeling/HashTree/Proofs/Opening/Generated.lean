import HashTree.Proofs.Opening.Reachable
import HashTree.Proofs.Opening.Recompute

/-!
# Openings of reachable trees

Opening a reachable tree at any positions gives an opening that computes the root of the tree with
the opened leaves replaced by the current ones, whatever these are. With the leaves as they were
this is the root of the tree itself, and for a tree of items it is the root of the tree of the
changed items.
-/

namespace HashTree

open Opening

/-- An opening is accepted when it computes the root that it expects. -/
theorem Opening.valid_iff {o : Opening} : o.valid = true ↔ o.computeRoot = .ok o.expected := by
  rw [valid, check]
  cases o.computeRoot with
  | error fault => simp [Except.isOk, Except.toBool]
  | ok d =>
    rw [Except.ok.injEq]
    by_cases heq : d = o.expected
    · simp [heq, Except.isOk, Except.toBool]
    · simp [heq, Except.isOk, Except.toBool]

namespace Tree

variable {t : Tree} {r : Rose} {indices : List Nat}

/-! ## §1 The opening that is made -/

/-- A reachable tree is opened at any positions in range. -/
theorem Made.exists_openAt (h : t.Made) (hne : indices ≠ [])
    (hlt : ∀ p ∈ indices, p < t.leafCount) : ∃ r, t.Unfolds r
      ∧ t.openAt indices = .ok (t.opening (t.digestAt r.index) (selection indices)) := by
  obtain ⟨root, hroot⟩ : ∃ root, t.root = some root := by
    cases hroot : t.root with
    | none =>
      obtain ⟨p, hp⟩ := List.exists_mem_of_ne_nil _ hne
      have hp := hlt p hp
      rw [leafCount, h.leaves_of_no_root hroot] at hp
      exact absurd hp (Nat.not_lt_zero p)
    | some root => exact ⟨root, rfl⟩
  obtain ⟨r, rfl, u⟩ := h.unfolds hroot
  exact ⟨r, u, openAt_eq_ok_iff.mpr ⟨_, u.rootDigest_eq, hne, hlt, rfl⟩⟩

/-- Whatever its current leaves are, the opening has the steps of the tree. -/
theorem opens_opening (hne : indices ≠ []) (hlt : ∀ p ∈ indices, p < t.leafCount)
    (expected : Digest) {leaves : List Opened}
    (hlength : leaves.length = (selection indices).length) :
    t.Opens { t.opening expected (selection indices) with current := leaves } where
  algorithm_eq := rfl
  steps_eq := rfl
  nodup := selection_nodup indices
  indices_lt p hp := hlt p (mem_selection.mp hp)
  indices_ne_nil hnil := hne (selection_eq_nil_iff.mp hnil)
  length_current := hlength

/-- With the leaves as they were nothing changes. -/
theorem Unfolds.rehashing_opening (u : t.Unfolds r) (hlt : ∀ p ∈ indices, p < t.leafCount)
    (expected : Digest) : t.Rehashing (t.opening expected (selection indices)) t.digestAt where
  opened rank p i leaf hp hpi hleaf := by
    have hrange : ∀ q ∈ selection indices, q < t.leafCount :=
      fun q hq => hlt q (mem_selection.mp hq)
    have hdigests : (t.openedAt (t.leavesAt (selection indices))).map (·.digest)
        = (t.leavesAt (selection indices)).map t.digestAt :=
      map_digest_openedAt fun i hi => (u.below_leavesAt hi).1
    have hget := congrArg (·[rank]?) hdigests
    have hleaf : (t.openedAt (t.leavesAt (selection indices)))[rank]? = some leaf := hleaf
    simp only [List.getElem?_map, hleaf, (getElem?_leavesAt hrange).mpr ⟨p, hp, hpi⟩] at hget
    exact (Option.some.inj hget).symm
  kept p i _ _ := rfl
  branch i n hn hne := by
    rw [← below_eq_children hn] at hne ⊢
    exact u.digestAt_eq i hne

/-- The opening of a tree computes the root that it expects. -/
theorem Made.computeRoot_of_openAt (h : t.Made) {o : Opening} (ho : t.openAt indices = .ok o) :
    o.computeRoot = .ok o.expected := by
  obtain ⟨expected, hexpected, hne, hlt, rfl⟩ := openAt_eq_ok_iff.mp ho
  obtain ⟨r, u, hopen⟩ := h.exists_openAt hne hlt
  rw [u.rootDigest_eq] at hexpected
  obtain rfl := Except.ok.inj hexpected
  have hrange : ∀ p ∈ selection indices, p < t.leafCount :=
    fun p hp => hlt p (mem_selection.mp hp)
  exact (opens_opening hne hlt _ (u.length_openedAt hrange)).computeRoot_eq u
    (u.rehashing_opening hlt _)

/-! ## §2 Changed items -/

/-- Some items with those at certain positions replaced. -/
def changedItems (items : List Bytes) (changes : List (Nat × Bytes)) : List Bytes :=
  (Table.fill items.toArray changes).toList

@[simp]
theorem length_changedItems (items : List Bytes) (changes : List (Nat × Bytes)) :
    (changedItems items changes).length = items.length := by
  rw [changedItems, Array.length_toList, Table.size_fill, List.size_toArray]

section Items

variable {a : Algorithm} {items payloads : List Bytes} {o p : Opening}
  (hlt : ∀ position ∈ o.indices, position < items.length) (hnodup : o.indices.Nodup)
  (hlength : payloads.length = o.indices.length)

include hlength in
private theorem zip_keys : (o.indices.zip payloads).map Prod.fst = o.indices :=
  List.map_fst_zip (Nat.le_of_eq hlength.symm)

include hlt hnodup hlength in
private theorem getElem?_changedItems_opened {rank position : Nat} {b : Bytes}
    (hposition : o.indices[rank]? = some position) (hb : payloads[rank]? = some b) :
    (changedItems items (o.indices.zip payloads))[position]? = some b := by
  have hkeys : ((o.indices.zip payloads).map Prod.fst).Nodup := by rwa [zip_keys hlength]
  have hmem : (position, b) ∈ o.indices.zip payloads :=
    List.mem_of_getElem? (List.getElem?_zip_eq_some.mpr ⟨hposition, hb⟩)
  rw [changedItems, Array.getElem?_toList]
  exact Table.getElem?_fill_of_mem hkeys hmem (hlt position (List.mem_of_getElem? hposition))

include hlength in
private theorem getElem?_changedItems_kept {position : Nat} (hposition : position ∉ o.indices) :
    (changedItems items (o.indices.zip payloads))[position]? = items[position]? := by
  rw [changedItems, Array.getElem?_toList,
    Table.getElem?_fill_of_notMem (by rwa [zip_keys hlength]), List.getElem?_toArray]

include hlt hnodup in
/-- The tree of the changed items carries the digests that the change leads to. -/
private theorem rehashing_ofItems (retain retain' : Bool) (halgorithm : o.algorithm = a)
    (hupdate : o.update payloads = .ok p) : (ofItems a retain items).Rehashing p
      (ofItems a retain' (changedItems items (o.indices.zip payloads))).digestAt := by
  obtain ⟨hlength, rfl⟩ := replace_eq_ok_iff.mp hupdate
  rw [List.length_map] at hlength
  have hleaf : ∀ {position i : Nat}, (ofItems a retain items).leaves[position]? = some i →
      position < items.length ∧ i = position := by
    intro position i hi
    rw [leaves_ofItems, List.getElem?_toArray] at hi
    obtain ⟨hposition, rfl⟩ := List.getElem?_eq_some_iff.mp hi
    exact ⟨by simpa using hposition, by simp⟩
  refine ⟨fun rank position i leaf hposition hi hleaf' => ?_,
    fun position i hposition hi => ?_, fun i n hn hne => ?_⟩
  · obtain ⟨-, rfl⟩ := hleaf hi
    have hcurrent : (payloads.map fun b => Opened.mk (some b) (o.algorithm.digest b))[rank]?
        = some leaf := hleaf'
    rw [List.getElem?_map, Option.map_eq_some_iff] at hcurrent
    obtain ⟨b, hb, rfl⟩ := hcurrent
    rw [halgorithm]
    exact digestAt_ofItems a retain'
      (getElem?_changedItems_opened hlt hnodup hlength hposition hb)
  · obtain ⟨hposition', rfl⟩ := hleaf hi
    have hb := List.getElem?_eq_getElem hposition'
    rw [digestAt_ofItems a retain hb]
    exact digestAt_ofItems a retain' ((getElem?_changedItems_kept hlength hposition).trans hb)
  · -- the trees have the same child lists
    have hitems : items ≠ [] := by
      rintro rfl
      simp [empty] at hn
    have hothers : changedItems items (o.indices.zip payloads) ≠ [] := by
      rwa [ne_eq, ← List.length_eq_zero_iff, length_changedItems, List.length_eq_zero_iff]
    obtain ⟨hlinks, -⟩ := ofItems_alike a retain retain'
      (length_changedItems items (o.indices.zip payloads)).symm
    have hbelow := below_eq_children hn
    obtain ⟨cells, root, plan, htree⟩ := exists_plan_ofItems a retain' _ hothers
    obtain ⟨r, -, u⟩ := exists_unfolds plan
    rw [← htree] at u
    rw [hlinks] at hbelow
    rw [← hbelow] at hne ⊢
    rw [u.digestAt_eq i hne, algorithm_ofItems, algorithm_ofItems]

end Items

/-! ## §3 Openings of reachable trees -/

/-- **An opening of a reachable tree computes the root of the changed tree.** At any positions in
range there is an opening. Whatever leaves it is given, there are digests of the tree after that
change, and the root is computed as in any such digests; every way to change the leaves is such a
change. So the opening accepts the leaves as they were, and for a tree of items it computes the root
of the tree of the changed items. -/
theorem Reachable.computeRoot_openAt (h : t.Reachable) (hne : indices ≠ [])
    (hlt : ∀ p ∈ indices, p < t.leafCount) : ∃ o root, t.openAt indices = .ok o
      ∧ t.root = some root ∧ (∀ p, p ∈ o.indices ↔ p ∈ indices)
      ∧ (∀ leaves : List Opened, leaves.length = o.indices.length →
          (∃ d, t.Rehashing { o with current := leaves } d)
          ∧ ∀ d, t.Rehashing { o with current := leaves } d →
            Opening.computeRoot { o with current := leaves } = .ok (d root))
      ∧ (∀ p, o.Changed p → ∃ leaves, leaves.length = o.indices.length
          ∧ p = { o with current := leaves })
      ∧ o.valid = true
      ∧ ∀ a retain retain' items, t = Tree.ofItems a retain items → ∀ payloads : List Bytes,
          payloads.length = o.indices.length → ∃ p d, o.update payloads = .ok p
            ∧ p.computeRoot = .ok d
            ∧ (Tree.ofItems a retain' (changedItems items (o.indices.zip payloads))).rootDigest
              = .ok d := by
  obtain ⟨r, u, hopen⟩ := h.made.exists_openAt hne hlt
  have hsound := h.made.sound_of_openAt hopen
  have hrange : ∀ p ∈ selection indices, p < t.leafCount :=
    fun p hp => hlt p (mem_selection.mp hp)
  have hcompute : ∀ leaves : List Opened, leaves.length = (selection indices).length →
      t.Opens { t.opening (t.digestAt r.index) (selection indices) with current := leaves } :=
    fun leaves hlength => opens_opening hne hlt _ hlength
  refine ⟨_, r.index, hopen, u.root_eq, fun p => mem_selection, fun leaves hlength => ?_,
    fun p hp => ?_, ?_, ?_⟩
  · exact ⟨(hcompute leaves hlength).exists_rehashing u,
      fun d hd => (hcompute leaves hlength).computeRoot_eq u hd⟩
  · obtain ⟨leaves, hlength, -, hp⟩ := hp.exists_leaves hsound.length_captured hsound.captured
    exact ⟨leaves, hlength, hp⟩
  · exact Opening.valid_iff.mpr (h.made.computeRoot_of_openAt hopen)
  · rintro a retain retain' items rfl payloads hcount
    have hupdate := Opening.update_eq_ok hcount
    have hpositions : ∀ p ∈ selection indices, p < items.length := by
      intro p hp
      have hp := hrange p hp
      rwa [leafCount, leaves_ofItems, List.size_toArray, List.length_range] at hp
    have hrehashing := rehashing_ofItems hpositions (selection_nodup indices) retain retain'
      (algorithm_ofItems a retain) hupdate
    refine ⟨_, _, hupdate,
      (hcompute _ (by rwa [List.length_map])).computeRoot_eq u hrehashing, ?_⟩
    -- the tree of the changed items has its root at the same index
    have hroot := (ofItems_alike a retain retain' (length_changedItems items
      ((selection indices).zip payloads)).symm).2
    rw [u.root_eq] at hroot
    obtain ⟨r', hindex, u'⟩ := (ofItems_made a retain' _).unfolds hroot.symm
    rw [← hindex]
    exact u'.rootDigest_eq

/-- Two of three items are opened, and changing both computes the root of the changed items. -/
theorem Reachable.computeRoot_openAt_three :
    ∃ o p d, (Tree.ofItems .sha1 true [[1], [2], [3]]).openAt [2, 0] = .ok o ∧ o.valid = true
      ∧ o.update [[4], [5]] = .ok p ∧ p.computeRoot = .ok d
      ∧ (Tree.ofItems .sha1 false (changedItems [[1], [2], [3]]
          (o.indices.zip [[4], [5]]))).rootDigest = .ok d := by
  have hlt : ∀ p ∈ [2, 0], p < (Tree.ofItems .sha1 true [[1], [2], [3]]).leafCount := by
    simp [leafCount, leaves_ofItems]
  obtain ⟨o, root, hopen, -, -, -, -, hvalid, hitems⟩ :=
    Reachable.computeRoot_openAt (.ofItems .sha1 true [[1], [2], [3]]) (by simp) hlt
  have hcount : ([[4], [5]] : List Bytes).length = o.indices.length := by
    obtain ⟨expected, -, -, -, rfl⟩ := openAt_eq_ok_iff.mp hopen
    show 2 = (selection [2, 0]).length
    simp [selection, List.mergeSort, List.eraseReps, List.eraseRepsBy, List.eraseRepsBy.loop]
  obtain ⟨p, d, hupdate, hcompute, hroot⟩ := hitems _ _ false _ rfl _ hcount
  exact ⟨o, p, d, hopen, hvalid, hupdate, hcompute, hroot⟩

end Tree

end HashTree
