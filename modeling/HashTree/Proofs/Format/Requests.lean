import HashTree.Proofs.Format.Document
import HashTree.Proofs.Format.Load
import HashTree.Proofs.Opening.Sound

/-!
# Requests for an algorithm

Loading finds the algorithm by itself or is told it. Either way it reads the name that a document
carries and lets algorithms make what they can of the whole document, each by itself. So the two
ways can be compared without looking at documents at all: they **agree** wherever both give a
result, they report the same fault, and an algorithm that the document does not name is taken only
after all that come before it have failed.
-/

namespace HashTree

open Outcome

/-! ## §1 Resolving a name -/

section Resolve

variable {α : Type} {place : Section} {named : String} {requested : Option Algorithm}
  {attempt : Algorithm → Except FormatError α} {v : α} {a : Algorithm} {e : FormatError}

/-- The algorithm can make nothing of the document. -/
def Refuses (attempt : Algorithm → Except FormatError α) (a : Algorithm) : Prop :=
  ∃ e, attempt a = .error e

theorem refuses_iff_toOption : Refuses attempt a ↔ (attempt a).toOption = none := by
  unfold Refuses
  cases attempt a with
  | error e => simp [Except.toOption]
  | ok v => simp [Except.toOption]

theorem toOption_eq_some_iff {x : Except FormatError α} : x.toOption = some v ↔ x = .ok v := by
  cases x with
  | error e => simp [Except.toOption]
  | ok w => simp [Except.toOption]

/-- The first algorithm that succeeds stands behind algorithms that all **fail**. -/
theorem firstSuccess_eq_some_iff {algorithms : List Algorithm} :
    firstSuccess attempt algorithms = some v ↔ ∃ front a back, algorithms = front ++ a :: back
      ∧ attempt a = .ok v ∧ ∀ b ∈ front, Refuses attempt b := by
  simp only [firstSuccess, List.findSome?_eq_some_iff, toOption_eq_some_iff, refuses_iff_toOption]

/-- Algorithms that fail can be **left out** of a search. -/
theorem firstSuccess_filter {p : Algorithm → Bool} {algorithms : List Algorithm}
    (h : ∀ a, p a = false → Refuses attempt a) :
    firstSuccess attempt (algorithms.filter p) = firstSuccess attempt algorithms := by
  unfold firstSuccess
  induction algorithms with
  | nil => rfl
  | cons a algorithms ih =>
    cases hp : p a with
    | true => simp only [List.filter_cons, hp, if_true, List.findSome?_cons, ih]
    | false =>
      have hnone := refuses_iff_toOption.mp (h a hp)
      simp only [List.filter_cons, hp, List.findSome?_cons, hnone]
      simpa using ih

/-- What stands before an algorithm in the registry has a lower rank, and nothing else has. -/
theorem Algorithm.mem_of_rank_lt {front back : List Algorithm} {b : Algorithm}
    (hall : Algorithm.all = front ++ a :: back) (h : b.rank < a.rank) : b ∈ front := by
  by_contra hb
  -- the search for the algorithm itself ends no later than behind the front
  have hfirst : a.rank ≤ front.length := by
    unfold rank
    rw [hall]
    by_cases ha : a ∈ front
    · rw [List.idxOf_append_of_mem ha]
      exact List.idxOf_le_length
    · simp [List.idxOf_append_of_notMem ha]
  have hlater : front.length ≤ b.rank := by
    unfold rank
    rw [hall, List.idxOf_append_of_notMem hb]
    exact Nat.le_add_right ..
  omega

/-- A requested algorithm is the only one that is tried, and the name must be its name. -/
theorem resolve_some_eq_ok_iff : resolve place named (some a) attempt = .ok v
    ↔ Algorithm.ofName? named = some a ∧ attempt a = .ok v := by
  unfold resolve
  dsimp only
  split
  · next hname => simp [hname]
  · next hname => simp [hname]

/-- The algorithm that a document names is tried whether it is requested or not, so what it makes of
the document is **what is reported** of a failure. -/
theorem resolve_some_eq_error (hname : Algorithm.ofName? named = some a)
    (h : resolve place named none attempt = .error e) :
    resolve place named (some a) attempt = .error e := by
  have hattempt : attempt a = .error e := by
    simp only [resolve, hname] at h
    cases hfirst : attempt a with
    | ok v =>
      rw [hfirst] at h
      cases h
    | error e' =>
      rw [hfirst] at h
      dsimp only at h
      split at h
      · cases h
      · exact h
  simp only [resolve, hname, if_true, hattempt]

/-- Where the named algorithm fails, if there is one, **all algorithms in their order** are left. -/
theorem resolve_none_eq_ok_iff (h : ∀ b, Algorithm.ofName? named = some b → Refuses attempt b) :
    resolve place named none attempt = .ok v ↔ firstSuccess attempt Algorithm.all = some v := by
  cases hname : Algorithm.ofName? named with
  | none =>
    simp only [resolve, hname]
    cases firstSuccess attempt Algorithm.all with
    | none => simp
    | some w => simp
  | some b =>
    obtain ⟨e, he⟩ := h b hname
    have hothers : firstSuccess attempt (Algorithm.all.filter (· ≠ b))
        = firstSuccess attempt Algorithm.all := by
      apply firstSuccess_filter
      intro c hc
      have hcb : c = b := by simpa using hc
      exact ⟨e, hcb ▸ he⟩
    simp only [resolve, hname, he, hothers]
    cases firstSuccess attempt Algorithm.all with
    | none => simp
    | some w => simp

/-- Without a request the named algorithm is taken, or else the **first** of all that succeeds. -/
theorem exists_of_resolve_none (h : resolve place named none attempt = .ok v) :
    ∃ a, attempt a = .ok v ∧ (Algorithm.ofName? named = some a
      ∨ (∀ b, Algorithm.ofName? named = some b → Refuses attempt b)
        ∧ ∀ b : Algorithm, b.rank < a.rank → Refuses attempt b) := by
  by_cases hnamed : ∀ b, Algorithm.ofName? named = some b → Refuses attempt b
  · rw [resolve_none_eq_ok_iff hnamed] at h
    obtain ⟨front, a, back, hall, ha, hfront⟩ := firstSuccess_eq_some_iff.mp h
    refine ⟨a, ha, Or.inr ⟨hnamed, ?_⟩⟩
    intro b hb
    exact hfront b (Algorithm.mem_of_rank_lt hall hb)
  · -- the named algorithm makes something of the document, and that is the result
    simp only [not_forall] at hnamed
    obtain ⟨b, hname, hsucceeds⟩ := hnamed
    cases hattempt : attempt b with
    | error e => exact absurd ⟨e, hattempt⟩ hsucceeds
    | ok w =>
      simp only [resolve, hname, hattempt] at h
      exact ⟨b, hattempt.trans h, Or.inl hname⟩

end Resolve

/-! ## §2 Agreement -/

section Agreement

variable {α : Type}

/-- How loading with a request and without one **agree**. A document carries a name, if its head can
be read, and `attempt` says what each algorithm by itself makes of the whole document. -/
structure Agreement (algorithm : α → Algorithm) (name : Except FormatError String)
    (attempt : Algorithm → Except FormatError α) (load : Option Algorithm → Except FormatError α) :
    Prop where
  /-- What is loaded under a request has the requested algorithm, and is loaded without it too. -/
  of_request : ∀ a v, load (some a) = .ok v → algorithm v = a ∧ load none = .ok v
  /-- What is loaded without a request is loaded under one for its algorithm, if the document names
  this algorithm. -/
  to_request : ∀ v named, load none = .ok v → name = .ok named →
    Algorithm.ofName? named = some (algorithm v) → load (some (algorithm v)) = .ok v
  /-- A fault is the same under a request, unless the document names another algorithm. -/
  same_fault : ∀ e a, load none = .error e →
    (∀ named, name = .ok named → Algorithm.ofName? named = some a) → load (some a) = .error e
  /-- An algorithm that the document does not name is taken only when the one it names, if there is
  one, and **all before it in the registry** have failed. -/
  last_resort : ∀ v, load none = .ok v → ∃ named, name = .ok named
    ∧ attempt (algorithm v) = .ok v
    ∧ (Algorithm.ofName? named ≠ some (algorithm v) →
      (∀ b, Algorithm.ofName? named = some b → Refuses attempt b)
        ∧ ∀ b : Algorithm, b.rank < (algorithm v).rank → Refuses attempt b)

/-- Whatever resolves the name that a document carries, agrees with itself. -/
theorem agreement_of_resolve {algorithm : α → Algorithm} {place : Section}
    {name : Except FormatError String} {attempt : Algorithm → Except FormatError α}
    {load : Option Algorithm → Except FormatError α}
    (halgorithm : ∀ a v, attempt a = .ok v → algorithm v = a)
    (hload : ∀ requested, load requested = name >>= fun named =>
      resolve place named requested attempt) :
    Agreement algorithm name attempt load := by
  constructor
  · intro a v h
    rw [hload] at h ⊢
    obtain ⟨named, hname, h⟩ := bind_eq_ok_iff.mp h
    obtain ⟨hnamed, hattempt⟩ := resolve_some_eq_ok_iff.mp h
    refine ⟨halgorithm a v hattempt, ?_⟩
    rw [hname, ok_bind]
    exact resolve_named hnamed hattempt (Or.inl rfl)
  · intro v named h hname hnamed
    rw [hload, hname, ok_bind] at h ⊢
    apply resolve_some_eq_ok_iff.mpr
    refine ⟨hnamed, ?_⟩
    -- what some algorithm makes of the document is of that algorithm
    obtain ⟨a, hattempt, -⟩ := exists_of_resolve_none h
    rw [halgorithm a v hattempt]
    exact hattempt
  · intro e a h hnamed
    rw [hload] at h ⊢
    rcases bind_eq_error_iff.mp h with hname | ⟨named, hname, h⟩
    · rw [hname]
      rfl
    · rw [hname, ok_bind]
      exact resolve_some_eq_error (hnamed named hname) h
  · intro v h
    rw [hload] at h
    obtain ⟨named, hname, h⟩ := bind_eq_ok_iff.mp h
    obtain ⟨a, hattempt, hnamed⟩ := exists_of_resolve_none h
    obtain rfl := halgorithm a v hattempt
    exact ⟨named, hname, hattempt, fun hne => hnamed.resolve_left hne⟩

end Agreement

/-! ## §3 Trees -/

namespace Tree

variable {bytes : Bytes} {encoding : Encoding} {requested : Option Algorithm}

/-- The name that bytes carry in a document of the current version. -/
def nameIn (bytes : Bytes) : Encoding → Except FormatError String
  | .json => do
    let d ← readText .tree Textual.readTree bytes
    requireVersion .tree d.version
    return d.algorithm
  | .binary => (Binary.readHead .tree).run bytes

/-- What an algorithm by itself makes of bytes. -/
def loadUnder (bytes : Bytes) (encoding : Encoding) (a : Algorithm) : Except FormatError Tree :=
  match encoding with
  | .json => do
    let d ← readText .tree Textual.readTree bytes
    requireVersion .tree d.version
    d.restore a
  | .binary => do
    let d ← (Binary.readTree a.digestSize).run bytes
    d.restore a

/-- Loading is to find out the name and to resolve it. -/
theorem load_eq : load bytes encoding requested = nameIn bytes encoding >>= fun named =>
    resolve .tree named requested (loadUnder bytes encoding) := by
  cases encoding with
  | json =>
    unfold load nameIn loadUnder
    dsimp only
    cases readText .tree Textual.readTree bytes with
    | error e => rfl
    | ok d =>
      simp only [ok_bind]
      cases requireVersion .tree d.version with
      | error e => rfl
      | ok u => rfl
  | binary => rfl

/-- What is restored under an algorithm is of this algorithm. -/
theorem algorithm_of_restore {a : Algorithm} {d : TreeDocument} {t : Tree}
    (h : d.restore a = .ok t) : t.algorithm = a := by
  cases hroot : d.root with
  | none =>
    obtain ⟨-, -, rfl⟩ := (TreeDocument.restore_eq_ok_iff_of_no_root hroot).mp h
    rfl
  | some root =>
    obtain ⟨-, rfl⟩ := (TreeDocument.restore_eq_ok_iff_of_root hroot).mp h
    rfl

theorem algorithm_of_loadUnder {a : Algorithm} {t : Tree}
    (h : loadUnder bytes encoding a = .ok t) : t.algorithm = a := by
  cases encoding with
  | json =>
    obtain ⟨d, -, h⟩ := bind_eq_ok_iff.mp h
    exact algorithm_of_restore (check_bind_eq_ok_iff.mp h).2
  | binary =>
    obtain ⟨d, -, h⟩ := bind_eq_ok_iff.mp h
    exact algorithm_of_restore h

end Tree

/-! ## §4 Openings -/

namespace Opening

variable {bytes : Bytes} {encoding : Encoding} {requested : Option Algorithm}

/-- The name that bytes carry in a document of the current version. -/
def nameIn (bytes : Bytes) : Encoding → Except FormatError String
  | .json => do
    let d ← readText .proof Textual.readOpening bytes
    requireVersion .proof d.version
    return d.algorithm
  | .binary => (Binary.readHead .opening).run bytes

/-- What an algorithm by itself makes of bytes. -/
def loadUnder (bytes : Bytes) (encoding : Encoding) (a : Algorithm) : Except FormatError Opening :=
  match encoding with
  | .json => do
    let d ← readText .proof Textual.readOpening bytes
    requireVersion .proof d.version
    d.restore a
  | .binary => do
    let d ← (Binary.readOpening a.digestSize).run bytes
    d.restore a

/-- Loading is to find out the name and to resolve it. -/
theorem load_eq : load bytes encoding requested = nameIn bytes encoding >>= fun named =>
    resolve .proof named requested (loadUnder bytes encoding) := by
  cases encoding with
  | json =>
    unfold load nameIn loadUnder
    dsimp only
    cases readText .proof Textual.readOpening bytes with
    | error e => rfl
    | ok d =>
      simp only [ok_bind]
      cases requireVersion .proof d.version with
      | error e => rfl
      | ok u => rfl
  | binary => rfl

theorem algorithm_of_loadUnder {a : Algorithm} {o : Opening}
    (h : loadUnder bytes encoding a = .ok o) : o.algorithm = a := by
  have hrestore : ∀ d : OpeningDocument, d.restore a = .ok o → o.algorithm = a := by
    intro d hd
    obtain ⟨rfl, -⟩ := OpeningDocument.restore_eq_ok_iff.mp hd
    rfl
  cases encoding with
  | json =>
    obtain ⟨d, -, h⟩ := bind_eq_ok_iff.mp h
    exact hrestore d (check_bind_eq_ok_iff.mp h).2
  | binary =>
    obtain ⟨d, -, h⟩ := bind_eq_ok_iff.mp h
    exact hrestore d h

end Opening

/-! ## §5 Loading with and without a request -/

/-- **Requests do not change what is loaded.** For all bytes in either encoding, loading a tree or
an opening with a request agrees with loading it without one. -/
theorem load_agreement (bytes : Bytes) (encoding : Encoding) :
    Agreement Tree.algorithm (Tree.nameIn bytes encoding) (Tree.loadUnder bytes encoding)
        (Tree.load bytes encoding)
      ∧ Agreement Opening.algorithm (Opening.nameIn bytes encoding)
        (Opening.loadUnder bytes encoding) (Opening.load bytes encoding) := by
  constructor
  · apply agreement_of_resolve
    · intro a t h
      exact Tree.algorithm_of_loadUnder h
    · intro requested
      exact Tree.load_eq
  · apply agreement_of_resolve
    · intro a o h
      exact Opening.algorithm_of_loadUnder h
    · intro requested
      exact Opening.load_eq

/-- Nothing is known of a name, so what it stands before goes to the first of all algorithms. -/
example :
    (Tree.load [1, 0, 1, 1, 0, 0, 0, 120, 0, 0, 0, 0, 0, 0, 0, 0, 0] .binary none).toOption.map
      Tree.algorithm = some .sha1 := by
  decide

end HashTree
