import HashTree.Proofs.Tree.Walk

/-!
# Walks where every index has one parent

Child lists may give every index but the root one parent and still go round in circles, or fall apart
into several pieces. A walk from the root never notices. What it has named and what is in its queue
are at any time the root and the children of what it has named, and no child is listed twice. So
nothing is named twice, and as there are finitely many indices the walk comes to an end. By then it
has named what lies below the root, and whatever it has not named is cut off from there.
-/

namespace HashTree

variable {links : Links} {root i : Nat}

/-! ## §1 Children that are listed -/

/-- Different indices list different children, and **none lists the root**. -/
theorem Links.Parented.nodup_listed (h : links.Parented root) {named : List Nat}
    (hnodup : named.Nodup) : (root :: named.flatMap links.below).Nodup := by
  apply List.nodup_cons.mpr
  constructor
  · intro hmem
    obtain ⟨p, -, hp⟩ := List.mem_flatMap.mp hmem
    exact h.not_child_root hp
  · apply List.nodup_flatMap.mpr
    constructor
    · exact fun i _ => Links.nodup_below h.nodup_flatten i
    · -- a child of two indices would have two parents
      exact hnodup.imp fun hne c hp hq => hne (Links.Child.unique h.nodup_flatten hp hq)

/-! ## §2 What a walk has named -/

namespace Walk

/-- **Where a walk stands** after it has named some indices, one after the other. -/
structure Tracks (links : Links) (root : Nat) (named : List Nat) (w : Walk) : Prop where
  below_eq : w.below = links.toArray
  nodup : named.Nodup
  /-- Every child of a named index was put into the queue, and nothing else but the root. -/
  once : (named ++ w.queue).Perm (root :: named.flatMap links.below)
  descends : ∀ i ∈ named ++ w.queue, links.Descends root i

variable {named : List Nat} {w next : Walk}

theorem tracks_start (links : Links) (root : Nat) :
    Tracks links root [] (.start links.toArray (some root)) where
  below_eq := rfl
  nodup := List.nodup_nil
  once := .refl _
  descends i hi := by
    have hroot : i = root := by simpa [start, queue] using hi
    rw [hroot]
    exact .refl

namespace Tracks

variable (ht : Tracks links root named w)
include ht

theorem lt_of_mem (h : links.Parented root) (hi : i ∈ named ++ w.queue) : i < links.length :=
  h.descends_lt h.root_lt (ht.descends i hi)

/-- No more is named than there are indices. -/
theorem length_le (h : links.Parented root) : named.length ≤ links.length := by
  have hsubset : named ⊆ List.range links.length := fun i hi =>
    List.mem_range.mpr (ht.lt_of_mem h (List.mem_append_left _ hi))
  simpa using (ht.nodup.subperm hsubset).length_le

/-- The first of the queue has **not been named before**, and its children go to the end. -/
theorem step (h : links.Parented root) (hnext : w.next? = some (i, next)) :
    Tracks links root (named ++ [i]) next := by
  obtain ⟨rest, children, hqueue, hchildren, hbelow, hthen⟩ := queue_of_next? hnext
  rw [ht.below_eq, List.getElem?_toArray] at hchildren
  have hlisted := Links.below_eq_of_getElem? hchildren
  have hnodup : (named ++ w.queue).Nodup := ht.once.nodup_iff.mpr (h.nodup_listed ht.nodup)
  have honce := ht.once
  have hdescends := ht.descends
  -- the first of the queue moves over to what is named
  rw [hqueue, List.append_cons] at hnodup honce hdescends
  refine ⟨hbelow.trans ht.below_eq, hnodup.of_append_left, ?_, fun k hk => ?_⟩
  · rw [hthen, List.flatMap_append, List.flatMap_singleton, hlisted, ← List.append_assoc,
      ← List.cons_append]
    exact honce.append_right children
  · rw [hthen, ← List.append_assoc] at hk
    rcases List.mem_append.mp hk with hold | hnew
    · exact hdescends k hold
    · have hi : links.Descends root i := hdescends i (by simp)
      apply hi.tail
      rwa [Links.Child, hlisted]

/-- From wherever a walk stands it **comes to an end**. -/
theorem exists_names (h : links.Parented root) :
    ∃ list last, Names w list ∧ Tracks links root (named ++ list) last ∧ last.queue = [] := by
  -- with every step there is one index less that has not been named
  induction hn : links.length - named.length using Nat.strong_induction_on generalizing named w with
  | _ n ih =>
    cases hqueue : w.queue with
    | nil => exact ⟨[], w, .finished hqueue, by simpa using ht, hqueue⟩
    | cons i rest =>
      have hi : i < links.length := ht.lt_of_mem h (by simp [hqueue])
      have hbelow : w.below[i]? = some (links.below i) := by
        rw [ht.below_eq, List.getElem?_toArray]
        exact Links.getElem?_eq_below hi
      obtain ⟨next, hnext, -, -⟩ := next?_of_queue_cons hqueue hbelow
      have hstep := ht.step h hnext
      have hle := hstep.length_le h
      rw [List.length_append, List.length_singleton] at hle
      obtain ⟨list, last, hnames, hlast, hnil⟩ :=
        ih (links.length - (named ++ [i]).length) (by simp; omega) hstep rfl
      exact ⟨i :: list, last, .next hnext hnames, by simpa using hlast, hnil⟩

/-- At the end **what lies below the root** has been named, and nothing else. -/
theorem mem_iff (hnil : w.queue = []) : i ∈ named ↔ links.Descends root i := by
  have honce := ht.once
  rw [hnil, List.append_nil] at honce
  constructor
  · exact fun hi => ht.descends i (List.mem_append_left _ hi)
  · intro hd
    induction hd with
    | refl => exact honce.mem_iff.mpr List.mem_cons_self
    | tail _ hc ih =>
      exact honce.mem_iff.mpr (List.mem_cons_of_mem _ (List.mem_flatMap.mpr ⟨_, ih, hc⟩))

end Tracks

end Walk

namespace Links.Parented

variable (h : links.Parented root)
include h

/-- **The walk from the root ends.** It names what lies below the root, and nothing twice. -/
theorem exists_names : ∃ order, Walk.Names (.start links.toArray (some root)) order
    ∧ order.Nodup ∧ ∀ i, i ∈ order ↔ links.Descends root i := by
  obtain ⟨order, last, hnames, htracks, hnil⟩ := (Walk.tracks_start links root).exists_names h
  rw [List.nil_append] at htracks
  exact ⟨order, hnames, htracks.nodup, fun i => htracks.mem_iff hnil⟩

variable {order : List Nat} (hnodup : order.Nodup) (hmem : ∀ i, i ∈ order ↔ links.Descends root i)
include hnodup hmem

private theorem subperm_range : order.Subperm (List.range links.length) :=
  hnodup.subperm fun i hi => List.mem_range.mpr (h.descends_lt h.root_lt ((hmem i).mp hi))

theorem length_order_le : order.length ≤ links.length := by
  simpa using (h.subperm_range hnodup hmem).length_le

/-- Less than all is named exactly when something is **cut off from the root**. -/
theorem length_order_lt_iff :
    order.length < links.length ↔ ∃ i < links.length, ¬ links.Descends root i := by
  constructor
  · intro hlt
    by_contra hall
    have hsubset : List.range links.length ⊆ order := by
      intro i hi
      rw [hmem]
      by_contra hnot
      exact hall ⟨i, List.mem_range.mp hi, hnot⟩
    have hle := (List.nodup_range.subperm hsubset).length_le
    rw [List.length_range] at hle
    omega
  · rintro ⟨i, hi, hnot⟩
    by_contra hge
    -- as many as there are, are all of them
    have hperm := (h.subperm_range hnodup hmem).perm_of_length_le (by simpa using hge)
    exact hnot ((hmem i).mp (hperm.mem_iff.mpr (List.mem_range.mpr hi)))

end Links.Parented

end HashTree
