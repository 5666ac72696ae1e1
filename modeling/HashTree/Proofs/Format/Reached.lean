import HashTree.Proofs.Format.Consistent

/-!
# The walk through a document

Once every node but the root of a document is known to have one parent, restoring it walks from the
root and counts what it meets. The walk ends by itself: it meets no node twice, whatever the other
nodes look like, so the fault that is there for this case is never reported. Nodes that go round in
circles, or that hang together apart from the root, are never met. It is by the count alone that such
documents are rejected.
-/

namespace HashTree

open Outcome

namespace TreeDocument

/-! ## §1 The walk without a bound -/

/-- What it comes to when a walk is **followed to its end**. -/
inductive Surveys : Walk → Array Bool → Nat → Except FormatError Nat → Prop where
  /-- With nothing in the queue the count is final. -/
  | finished {w : Walk} {seen : Array Bool} {count : Nat} (h : w.queue = []) :
    Surveys w seen count (.ok count)
  /-- The next index was seen before. -/
  | twice {w next : Walk} {seen : Array Bool} {count index : Nat}
    (h : w.next? = some (index, next)) (old : seen.getD index false = true) :
    Surveys w seen count (broken .tree .reachableTwice)
  /-- The next index is new; it is counted and counts as seen from now on. -/
  | next {w next : Walk} {seen : Array Bool} {count index : Nat} {outcome : Except FormatError Nat}
    (h : w.next? = some (index, next)) (new : seen.getD index false = false)
    (later : Surveys next (seen.setIfInBounds index true) (count + 1) outcome) :
    Surveys w seen count outcome

variable {w next : Walk} {seen : Array Bool} {count fuel index : Nat}

/-- A survey with enough fuel answers **what the walk comes to**. -/
theorem Surveys.exists_bound {outcome : Except FormatError Nat}
    (h : Surveys w seen count outcome) :
    ∃ bound, ∀ fuel ≥ bound, survey fuel w seen count = outcome := by
  induction h with
  | finished hnil =>
    refine ⟨0, fun fuel _ => ?_⟩
    cases fuel <;> simp [survey, Walk.next?_of_queue_nil hnil]
  | twice hnext old =>
    refine ⟨0, fun fuel _ => ?_⟩
    cases fuel <;> simp [survey, hnext, old]
  | next hnext new _ ih =>
    -- one step more than for the walk after it
    obtain ⟨bound, hbound⟩ := ih
    refine ⟨bound + 1, fun fuel hfuel => ?_⟩
    obtain ⟨fuel, rfl⟩ : ∃ n, fuel = n + 1 := ⟨fuel - 1, by omega⟩
    simpa [survey, hnext, new] using hbound fuel (by omega)

/-- A walk comes to **one thing**. -/
theorem Surveys.unique {outcome other : Except FormatError Nat}
    (h : Surveys w seen count outcome) (h' : Surveys w seen count other) : outcome = other := by
  obtain ⟨bound, hbound⟩ := h.exists_bound
  obtain ⟨bound', hbound'⟩ := h'.exists_bound
  rw [← hbound (max bound bound') (le_max_left _ _), hbound' _ (le_max_right _ _)]

/-- A walk over child lists, with none but indices in its queue. -/
structure InRange (links : Links) (w : Walk) : Prop where
  below_eq : w.below = links.toArray
  queue_lt : ∀ i ∈ w.queue, i < links.length

/-- Such a walk is over, or it names the first of its queue and is such a walk again. -/
theorem InRange.over_or_next {links : Links} (hw : InRange links w)
    (closed : ∀ p c, links.Child p c → c < links.length) :
    w.queue = [] ∨ ∃ index next, w.next? = some (index, next) ∧ index < links.length
      ∧ InRange links next := by
  cases hqueue : w.queue with
  | nil => exact .inl rfl
  | cons index rest =>
    right
    have hindex : index < links.length := hw.queue_lt index (by simp [hqueue])
    have hbelow : w.below[index]? = some (links.below index) := by
      rw [hw.below_eq, List.getElem?_toArray]
      exact Links.getElem?_eq_below hindex
    obtain ⟨next, hnext, hkeeps, hthen⟩ := Walk.next?_of_queue_cons hqueue hbelow
    refine ⟨index, next, hnext, hindex, hkeeps.trans hw.below_eq, fun i hi => ?_⟩
    rw [hthen] at hi
    rcases List.mem_append.mp hi with hi | hi
    · exact hw.queue_lt i (by simp [hqueue, hi])
    · exact closed index i hi

/-- The number of indices that have not been seen. -/
def unseen (seen : Array Bool) : Nat := seen.count false

/-- A new index is one of those that have not been seen, and is so no longer. -/
theorem unseen_setIfInBounds (hlt : index < seen.size) (new : seen.getD index false = false) :
    unseen (seen.setIfInBounds index true) + 1 = unseen seen := by
  have hnew : seen[index] = false := by simpa [Array.getD, hlt] using new
  have hpos : 0 < seen.count false := Array.count_pos_iff.mpr (hnew ▸ Array.getElem_mem hlt)
  rw [unseen, unseen, Array.setIfInBounds_def, dif_pos hlt, Array.count_set]
  simp [hnew]
  omega

/-- **The bound changes nothing**: a survey that is allowed a step for each index that has not been
seen comes to what the walk comes to. -/
theorem surveys_survey {links : Links} (hw : InRange links w)
    (closed : ∀ p c, links.Child p c → c < links.length) (hsize : seen.size = links.length)
    (hfuel : unseen seen ≤ fuel) (count : Nat) :
    Surveys w seen count (survey fuel w seen count) := by
  induction fuel generalizing w seen count with
  | zero =>
    rcases hw.over_or_next closed with hnil | ⟨index, next, hnext, hlt, -⟩
    · simpa [survey, Walk.next?_of_queue_nil hnil] using Surveys.finished hnil
    · -- everything has been seen, the next index too
      have old : seen.getD index false = true := by
        by_contra hnew
        have hless := unseen_setIfInBounds (hsize ▸ hlt) (Bool.eq_false_iff.mpr hnew)
        omega
      simpa [survey, hnext] using Surveys.twice hnext old
  | succ fuel ih =>
    rcases hw.over_or_next closed with hnil | ⟨index, next, hnext, hlt, hrange⟩
    · simpa [survey, Walk.next?_of_queue_nil hnil] using Surveys.finished hnil
    · rw [survey, hnext]
      cases hseen : seen.getD index false with
      | true => simpa [hseen] using Surveys.twice hnext hseen
      | false =>
        have hless := unseen_setIfInBounds (hsize ▸ hlt) hseen
        have hsize' : (seen.setIfInBounds index true).size = links.length := by simpa using hsize
        have hlater := ih hrange hsize' (by omega) (count + 1)
        simpa [hseen] using Surveys.next hnext hseen hlater

/-! ## §2 Faults that can be reported -/

/-- A check fails **for nothing but some rules**. -/
def FailsFor {α : Type} (rules : List (Section × Inconsistency)) (check : Except FormatError α) :
    Prop :=
  ∀ fault, check = .error fault → ∃ rule ∈ rules, fault = .inconsistent rule.1 rule.2

section

variable {α β : Type} {rules : List (Section × Inconsistency)} {place : Section}
  {rule : Inconsistency}

theorem failsFor_ok (a : α) : FailsFor rules (.ok a) := fun _ h => by cases h

theorem failsFor_broken (h : (place, rule) ∈ rules) :
    FailsFor rules (broken place rule : Except FormatError α) := by
  intro fault hfault
  cases hfault
  exact ⟨_, h, rfl⟩

theorem failsFor_require (h : (place, rule) ∈ rules) (condition : Bool) :
    FailsFor rules (require condition place rule) := by
  intro fault hfault
  obtain ⟨-, rfl⟩ := require_eq_error_iff.mp hfault
  exact ⟨_, h, rfl⟩

/-- What follows a check needs to be looked at only where the check succeeds. -/
theorem FailsFor.bind {check : Except FormatError α} {f : α → Except FormatError β}
    (h : FailsFor rules check) (hf : ∀ a, check = .ok a → FailsFor rules (f a)) :
    FailsFor rules (check >>= f) := by
  intro fault hfault
  rcases bind_eq_error_iff.mp hfault with hcheck | ⟨a, ha, hnext⟩
  · exact h fault hcheck
  · exact hf a ha fault hnext

theorem failsFor_foldlM {f : β → α → Except FormatError β} {items : List α}
    (hf : ∀ b a, FailsFor rules (f b a)) (b : β) : FailsFor rules (items.foldlM f b) := by
  induction items generalizing b with
  | nil => exact failsFor_ok b
  | cons a items ih =>
    rw [List.foldlM_cons]
    exact (hf b a).bind fun next _ => ih next

theorem failsFor_forM {f : α → Except FormatError Unit} {items : List α}
    (hf : ∀ a, FailsFor rules (f a)) : FailsFor rules (items.forM f) := by
  intro fault hfault
  obtain ⟨a, -, ha⟩ := exists_of_forM_eq_error hfault
  exact hf a fault ha

/-- No other rule is reported. -/
theorem FailsFor.ne_error {check : Except FormatError α} (h : FailsFor rules check)
    (hrule : (place, rule) ∉ rules) : check ≠ .error (.inconsistent place rule) := by
  intro hfault
  obtain ⟨⟨_, _⟩, hmem, heq⟩ := h _ hfault
  cases heq
  exact hrule hmem

end

/-- More rules do no harm. -/
theorem FailsFor.mono {α : Type} {rules more : List (Section × Inconsistency)}
    {check : Except FormatError α} (h : FailsFor rules check) (hsubset : rules ⊆ more) :
    FailsFor more check := by
  intro fault hfault
  obtain ⟨rule, hrule, heq⟩ := h fault hfault
  exact ⟨rule, hsubset hrule, heq⟩

/-- The rules for nodes one by one and for parents. -/
def nodeRules : List (Section × Inconsistency) :=
  [(.node, .digestLength), (.node, .payloadDigest), (.node, .internalPayload),
    (.node, .singleChild), (.node, .childOutOfRange), (.tree, .severalParents)]

/-- The rules that are judged after the walk: those for leaves, and for digests of branches. -/
def lateRules : List (Section × Inconsistency) :=
  [(.tree, .leafOutOfRange), (.tree, .leafListedTwice), (.tree, .leafInternal),
    (.tree, .leafMissing), (.node, .internalDigest)]

/-- The rules for which the document of a tree **can be rejected**. That a node is reachable twice is
not among them. -/
def treeRules : List (Section × Inconsistency) :=
  [(.tree, .nodesWithoutRoot), (.tree, .rootOutOfRange), (.tree, .missingParent),
    (.tree, .unreachable)] ++ nodeRules ++ lateRules

theorem failsFor_claimAll (a : Algorithm) (nodes : List NodeDocument) :
    FailsFor nodeRules (claimAll a nodes) := by
  have hclaim : ∀ parent table child, FailsFor nodeRules (claim parent table child) := by
    intro parent table child
    rw [claim]
    split
    · exact failsFor_broken (by decide)
    · exact failsFor_broken (by decide)
    · exact failsFor_ok _
  refine failsFor_foldlM (fun table entry => ?_) _
  obtain ⟨n, index⟩ := entry
  apply (failsFor_require (by decide) _).bind
  intro _ _
  split
  · exact (failsFor_require (by decide) _).bind fun _ _ => failsFor_ok _
  · apply (failsFor_require (by decide) _).bind
    intro _ _
    exact (failsFor_require (by decide) _).bind fun _ _ => failsFor_foldlM (hclaim index) _

theorem failsFor_requireLeaves (leaves : List Nat) (nodes : List NodeDocument) :
    FailsFor lateRules (requireLeaves leaves nodes) := by
  have hname : ∀ named leaf, FailsFor lateRules (nameLeaf nodes.toArray named leaf) := by
    intro named leaf
    rw [nameLeaf]
    split
    · exact failsFor_broken (by decide)
    · apply (failsFor_require (by decide) _).bind
      intro _ _
      exact (failsFor_require (by decide) _).bind fun _ _ => failsFor_ok _
  exact (failsFor_foldlM hname _).bind fun _ _ => failsFor_require (by decide) _

theorem failsFor_requireDigests (a : Algorithm) (nodes : List NodeDocument) :
    FailsFor lateRules (requireDigests a nodes) :=
  failsFor_forM fun _ => failsFor_require (by decide) _

/-- What is judged after the walk. -/
theorem failsFor_late (a : Algorithm) (leaves : List Nat) (nodes : List NodeDocument) (t : Tree) :
    FailsFor lateRules (do
      requireLeaves leaves nodes
      requireDigests a nodes
      return t) :=
  (failsFor_requireLeaves leaves nodes).bind fun _ _ =>
    (failsFor_requireDigests a nodes).bind fun _ _ => failsFor_ok t

/-! ## §3 What is judged before the walk -/

/-- The document has passed the checks for its root, for its nodes one by one and for parents. -/
def Judged (d : TreeDocument) (a : Algorithm) (root : Nat) : Prop :=
  root < d.nodes.length
    ∧ ∃ table, claimAll a d.nodes = .ok table ∧ requireParents root table = .ok ()

variable {a : Algorithm} {d : TreeDocument} {root : Nat} {order : List Nat}

/-- These checks pass exactly when **every index but the root has one parent** and every node is proper
by itself. -/
theorem judged_iff :
    d.Judged a root ↔ d.links.Parented root ∧ ∀ n ∈ d.nodes, n.Proper a := by
  constructor
  · rintro ⟨hlt, hclaimed⟩
    obtain ⟨hproper, hparented⟩ := (exists_claimed_iff hlt).mp hclaimed
    rw [links_cells] at hparented
    exact ⟨hparented, hproper⟩
  · rintro ⟨hparented, hproper⟩
    have hlt : root < d.nodes.length := by simpa using hparented.root_lt
    rw [← links_cells] at hparented
    exact ⟨hlt, (exists_claimed_iff hlt).mpr ⟨hproper, hparented⟩⟩

/-! ## §4 The walk from the root -/

/-- **The walk through a document**, which names some indices in their order. -/
structure Explores (d : TreeDocument) (root : Nat) (order : List Nat) : Prop where
  names : (Walk.start d.links.toArray (some root)).Names order
  /-- No index is visited twice. -/
  nodup : order.Nodup
  /-- The walk ends after at most as many steps as there are nodes. -/
  length_le : order.length ≤ d.nodes.length
  mem_iff : ∀ i, i ∈ order ↔ d.links.Descends root i
  /-- Followed to its end it comes to the number of steps, and to nothing else. -/
  surveys_iff : ∀ outcome, Surveys (.start d.links.toArray (some root))
    (Array.replicate d.nodes.length false) 0 outcome ↔ outcome = .ok order.length
  /-- What is judged in the end is **the count alone**. -/
  reachable_eq : requireReachable root d.nodes
    = require (order.length == d.nodes.length) .tree .unreachable
  /-- Something lies below itself exactly when the count is too low, -/
  loop_iff : (∃ i, Relation.TransGen d.links.Child i i) ↔ order.length < d.nodes.length
  /-- and so it is when something is cut off from the root. -/
  detached_iff : (∃ i < d.nodes.length, ¬ d.links.Descends root i) ↔ order.length < d.nodes.length

/-- Where every index but the root has one parent, **the walk ends and visits nothing twice**. -/
theorem exists_explores (h : d.links.Parented root) : ∃ order, d.Explores root order := by
  obtain ⟨order, hnames, hnodup, hmem⟩ := h.exists_names
  have hle := h.length_order_le hnodup hmem
  have hlt := h.length_order_lt_iff hnodup hmem
  have hloop := h.exists_loop_iff
  have hroot := h.root_lt
  rw [length_links] at hle hlt hloop
  refine ⟨order, hnames, hnodup, hle, hmem, fun outcome => ?_, requireReachable_eq hnames hnodup hle,
    hloop.trans hlt.symm, hlt.symm⟩
  have hrange : InRange d.links (.start d.links.toArray (some root)) := by
    refine ⟨rfl, fun i hi => ?_⟩
    have hstart : i = root := by simpa [Walk.start, Walk.queue] using hi
    rwa [hstart]
  have hsize : (Array.replicate d.nodes.length false).size = d.links.length := by simp
  have hfuel : unseen (Array.replicate d.nodes.length false) ≤ d.nodes.length := by simp [unseen]
  -- the bounded survey counts what is named, and it comes to what the walk comes to
  have hends := surveys_survey hrange (fun p c hc => h.child_lt hc) hsize hfuel 0
  rw [survey_of_names hnames hnodup (fun i _ => getD_replicate d.nodes.length i) hle 0,
    Nat.zero_add] at hends
  constructor
  · exact fun houtcome => houtcome.unique hends
  · rintro rfl
    exact hends

/-! ## §5 Restoring -/

/-- Once a document is judged, what is left are the walk, the leaves and the digests. -/
theorem restore_of_judged {root : UInt32} (hroot : d.root = some root)
    (h : d.Judged a root.toNat) : d.restore a = (do
      requireReachable root.toNat d.nodes
      requireLeaves (d.leaves.map UInt32.toNat) d.nodes
      requireDigests a d.nodes
      return Tree.assemble a (d.nodes.map (·.toCell)) (d.leaves.map UInt32.toNat) root.toNat) := by
  obtain ⟨hlt, table, hclaims, hparents⟩ := h
  have hrange : require (root.toNat < d.nodes.length) .tree .rootOutOfRange = .ok () := by
    simpa [require_eq_ok_iff] using hlt
  rw [restore, hroot]
  simp only [hrange, hclaims, hparents, ok_bind]

/-- A judged document is reported to have unreachable nodes exactly when **the count is too low**. -/
theorem Explores.unreachable_iff {root : UInt32} (hexplores : d.Explores root.toNat order)
    (hroot : d.root = some root) (h : d.Judged a root.toNat) :
    d.restore a = .error (.inconsistent .tree .unreachable) ↔ order.length < d.nodes.length := by
  rw [restore_of_judged hroot h, hexplores.reachable_eq, check_bind_eq_error_iff]
  constructor
  · rintro (hcount | ⟨-, hlate⟩)
    · obtain ⟨hne, -⟩ := require_eq_error_iff.mp hcount
      exact Nat.lt_of_le_of_ne hexplores.length_le (beq_eq_false_iff_ne.mp hne)
    · -- no later check reports this
      exact absurd hlate ((failsFor_late a _ d.nodes _).ne_error (by decide))
  · intro hlt
    exact .inl (require_eq_error_iff.mpr ⟨beq_eq_false_iff_ne.mpr (Nat.ne_of_lt hlt), rfl⟩)

/-- A document is rejected for nothing but **the rules for trees**. -/
theorem failsFor_restore (a : Algorithm) (d : TreeDocument) : FailsFor treeRules (d.restore a) := by
  cases hroot : d.root with
  | none =>
    rw [restore, hroot]
    exact (failsFor_require (by decide) _).bind fun _ _ => failsFor_ok _
  | some root =>
    rw [restore, hroot]
    apply (failsFor_require (by decide) _).bind
    intro _ hrange
    apply ((failsFor_claimAll a d.nodes).mono (by decide)).bind
    intro table hclaims
    apply (failsFor_require (by decide) _).bind
    intro _ hparents
    -- by now the document is judged, so the walk ends with a count
    have hjudged : d.Judged a root.toNat :=
      ⟨of_decide_eq_true (require_eq_ok_iff.mp hrange), table, hclaims, hparents⟩
    obtain ⟨order, hexplores⟩ := exists_explores (judged_iff.mp hjudged).1
    rw [hexplores.reachable_eq]
    apply (failsFor_require (by decide) _).bind
    intro _ _
    exact (failsFor_late a _ d.nodes _).mono (by decide)

/-- **No node is ever reached twice.** Whatever a document says, it is never reported that the walk
through it met a node twice. When its root, its children and its parents have been found right, the
walk from the root ends after at most as many steps as there are nodes, and visits nothing twice;
where something goes round in circles or is cut off from the root, this shows in the count and in
nothing else, and the document is rejected for the count. -/
theorem reached_once (a : Algorithm) (d : TreeDocument) :
    d.restore a ≠ .error (.inconsistent .tree .reachableTwice)
      ∧ ∀ root, d.root = some root →
        (d.Judged a root.toNat → d.links.Parented root.toNat)
        ∧ (d.links.Parented root.toNat → ∃ order, d.Explores root.toNat order
          ∧ (d.Judged a root.toNat → (d.restore a = .error (.inconsistent .tree .unreachable)
            ↔ order.length < d.nodes.length))) := by
  refine ⟨(failsFor_restore a d).ne_error (by decide), fun root hroot => ⟨fun h => ?_, fun h => ?_⟩⟩
  · exact (judged_iff.mp h).1
  · obtain ⟨order, hexplores⟩ := exists_explores h
    exact ⟨order, hexplores, hexplores.unreachable_iff hroot⟩

/-- A root over two leaves, and two branches apart from it, each of which is a child of the other. -/
def roundabout : TreeDocument where
  version := formatVersion
  algorithm := "sha1"
  root := some 2
  leaves := [0, 1, 5, 6]
  nodes := [[], [], [0, 1], [4, 5], [3, 6], [], []].map fun children =>
    ⟨List.replicate 20 0, none, children⟩

/-- Every node but the root has one parent. The walk names three nodes, and this is too few. -/
theorem reached_once_roundabout :
    roundabout.Judged .sha1 2 ∧ (∃ i, Relation.TransGen roundabout.links.Child i i)
      ∧ (∃ order, roundabout.Explores 2 order ∧ order.length < 7)
      ∧ roundabout.restore .sha1 = .error (.inconsistent .tree .unreachable) := by
  have hlinks : roundabout.links = [[], [], [0, 1], [4, 5], [3, 6], [], []] := rfl
  have hparented : roundabout.links.Parented 2 := ⟨by rw [hlinks]; decide⟩
  have hproper : ∀ n ∈ roundabout.nodes, n.Proper .sha1 := by
    intro n hn
    obtain ⟨children, hchildren, rfl⟩ := List.mem_map.mp hn
    have hshape : ∀ list ∈ ([[], [], [0, 1], [4, 5], [3, 6], [], []] : List (List UInt32)),
        list = [] ∨ 2 ≤ list.length := by decide
    refine ⟨rfl, ?_⟩
    rcases hshape children hchildren with rfl | htwo
    · simp [NodeDocument.isLeaf]
    · have hne : children ≠ [] := List.ne_nil_of_length_pos (by omega)
      simp [NodeDocument.isLeaf, hne, htwo]
  have hjudged : roundabout.Judged .sha1 2 := judged_iff.mpr ⟨hparented, hproper⟩
  have hloop : Relation.TransGen roundabout.links.Child 3 3 := by
    have hchild : ∀ p c, c ∈ [[], [], [0, 1], [4, 5], [3, 6], [], []].getD p [] →
        roundabout.links.Child p c := fun p c hc => hc
    exact .head (hchild 3 4 (by decide)) (.single (hchild 4 3 (by decide)))
  obtain ⟨order, hexplores, hrejected⟩ := ((reached_once .sha1 roundabout).2 2 rfl).2 hparented
  have hless : order.length < 7 := hexplores.loop_iff.mp ⟨3, hloop⟩
  exact ⟨hjudged, ⟨3, hloop⟩, ⟨order, hexplores, hless⟩, (hrejected hjudged).mpr hless⟩

end TreeDocument

end HashTree
