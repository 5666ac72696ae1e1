import HashTree.Proofs.Format.Grammar
import HashTree.Proofs.Opening.Dump

/-!
# Dumping what was loaded

Bytes are loaded whoever wrote them, and under an algorithm that their name need not even spell.
When what was loaded is dumped again, **nothing is normalised but this name**: the bytes are those
that were loaded, with the canonical name of the algorithm in place of the name that stood there.
-/

namespace HashTree

open Outcome

/-! ## §1 Names in documents -/

namespace Grammar

variable {tag : UInt8} {named name : String} {width : Nat} {x y : Bytes}

/-- Two byte strings with heads that **differ in the name** and the same behind them. -/
inductive Renamed (tag : UInt8) (named name : String) : Bytes → Bytes → Prop where
  | intro {x y : Bytes} (hx : Head tag named x) (hy : Head tag name y) (body : Bytes) :
    Renamed tag named name (x ++ body) (y ++ body)

/-- A name has a head when its length fits four bytes. -/
theorem exists_head (tag : UInt8) (h : (Bytes.ofText name).length < UInt32.size) :
    ∃ x, Head tag name x := by
  have hcount : Number (Bytes.ofText name).length _ := number_iff.mpr ⟨h, rfl⟩
  exact ⟨_, Head.intro (Sized.intro hcount)⟩

/-- A name has no more than one head. -/
theorem Head.unique (hx : Head tag name x) (hy : Head tag name y) : x = y := by
  obtain ⟨⟨hcount⟩⟩ := hx
  obtain ⟨⟨hcount'⟩⟩ := hy
  rw [← (number_iff.mp hcount).2, ← (number_iff.mp hcount').2]

/-- Bytes that consist of a head and of what does not depend on the name are **the renamed ones**
under any other name. -/
private theorem renamed_iff {rule : Rule String} {body : Bytes}
    (hrule : ∀ name x, rule name x ↔ ∃ head, Head tag name head ∧ head ++ body = x)
    (hx : rule named x) : rule name y ↔ Renamed tag named name x y := by
  obtain ⟨head, hhead, rfl⟩ := (hrule named x).mp hx
  constructor
  · intro hy
    obtain ⟨head', hhead', rfl⟩ := (hrule name y).mp hy
    exact Renamed.intro hhead hhead' body
  · intro hrenamed
    generalize hbytes : head ++ body = bytes at hrenamed
    cases hrenamed with
    | @intro head₁ head₂ h₁ h₂ rest =>
      -- there is one head to the name, so what follows it is the body
      obtain rfl := hhead.unique h₁
      obtain rfl := List.append_cancel_left hbytes
      exact (hrule name _).mpr ⟨head₂, h₂, rfl⟩

/-- A tree **with another name** has the renamed bytes, and no others. -/
theorem tree_renamed_iff {d : TreeDocument} (h : Tree width d x) :
    Tree width { d with algorithm := name } y ↔ Renamed 1 d.algorithm name x y := by
  cases h with
  | @intro named root leaves nodes u v w z hhead hroot hleaves hnodes =>
    -- what stands behind the head is spelled in one way only
    have hrule : ∀ name x, Tree width ⟨1, name, root, leaves, nodes⟩ x
        ↔ ∃ head, Head 1 name head ∧ head ++ (v ++ w ++ z) = x := by
      intro name x
      simp only [← List.append_assoc]
      constructor
      · intro hx
        cases hx with
        | intro hhead hroot' hleaves' hnodes' =>
          refine ⟨_, hhead, (tree_biUnique width).2 ?_ (Tree.intro hhead hroot' hleaves' hnodes')⟩
          exact Tree.intro hhead hroot hleaves hnodes
      · intro hx
        obtain ⟨head, hhead, rfl⟩ := hx
        exact Tree.intro hhead hroot hleaves hnodes
    exact renamed_iff hrule (Tree.intro hhead hroot hleaves hnodes)

/-- Every tree can be renamed to a name whose length fits. -/
theorem exists_tree_renamed {d : TreeDocument} (h : Tree width d x)
    (hname : (Bytes.ofText name).length < UInt32.size) :
    ∃ y, Renamed 1 d.algorithm name x y := by
  obtain ⟨head, hhead⟩ := exists_head 1 hname
  cases h with
  | intro hx _ _ _ =>
    simp only [List.append_assoc]
    exact ⟨_, Renamed.intro hx hhead _⟩

/-- An opening **with another name** has the renamed bytes, and no others. -/
theorem opening_renamed_iff {d : OpeningDocument} (h : Opening width d x) :
    Opening width { d with algorithm := name } y ↔ Renamed 2 d.algorithm name x y := by
  cases h with
  | @intro named indices expected steps captured current u v w x₁ x₂ x₃ hhead hindices hexpected
      hsteps hcaptured hcurrent =>
    have hrule : ∀ name x, Opening width ⟨1, name, indices, expected, steps, captured, current⟩ x
        ↔ ∃ head, Head 2 name head ∧ head ++ (v ++ w ++ x₁ ++ x₂ ++ x₃) = x := by
      intro name x
      simp only [← List.append_assoc]
      constructor
      · intro hx
        cases hx with
        | intro hhead hindices' hexpected' hsteps' hcaptured' hcurrent' =>
          refine ⟨_, hhead, (opening_biUnique width).2 ?_
            (Opening.intro hhead hindices' hexpected' hsteps' hcaptured' hcurrent')⟩
          exact Opening.intro hhead hindices hexpected hsteps hcaptured hcurrent
      · intro hx
        obtain ⟨head, hhead, rfl⟩ := hx
        exact Opening.intro hhead hindices hexpected hsteps hcaptured hcurrent
    exact renamed_iff hrule (Opening.intro hhead hindices hexpected hsteps hcaptured hcurrent)

/-- Every opening can be renamed to a name whose length fits. -/
theorem exists_opening_renamed {d : OpeningDocument} (h : Opening width d x)
    (hname : (Bytes.ofText name).length < UInt32.size) :
    ∃ y, Renamed 2 d.algorithm name x y := by
  obtain ⟨head, hhead⟩ := exists_head 2 hname
  cases h with
  | intro hx _ _ _ _ _ =>
    simp only [List.append_assoc]
    exact ⟨_, Renamed.intro hx hhead _⟩

end Grammar

/-! ## §2 Dumps -/

namespace Tree

variable {t : Tree} {d : TreeDocument} {bytes x y : Bytes} {named : String}
  {requested : Option Algorithm}

/-- A tree that has a document is dumped to the bytes of this document. -/
theorem dump_binary_iff (h : t.toDocument = .ok d) :
    t.dump .binary = .ok y ↔ Grammar.Tree t.algorithm.digestSize d y := by
  have hversion : d.version = formatVersion := by
    obtain ⟨rfl, -⟩ := toDocument_eq_ok_iff.mp h
    rfl
  have hdump : t.dump .binary = (Binary.writeTree t.algorithm.digestSize d).toExcept := by
    unfold dump
    rw [h, ok_bind]
  rw [hdump]
  exact Grammar.follows_tree hversion

/-- A loaded tree has the document that was read, under the name of its algorithm. -/
theorem exists_document_of_load (h : load bytes .binary requested = .ok t) :
    ∃ d, (Binary.readTree t.algorithm.digestSize).run bytes = .ok d
      ∧ t.toDocument = .ok { d with algorithm := t.algorithm.name } := by
  obtain ⟨a, d, hread, hrestore⟩ := exists_read_of_load h
  have hversion := (Binary.readTree_run_eq_ok_iff.mp hread).1
  obtain ⟨rfl, hdocument⟩ := TreeDocument.toDocument_of_restore hversion hrestore
  exact ⟨d, hread, hdocument⟩

/-- What is dumped has indices that fit, and a document with the bytes of the dump. -/
theorem indexed_of_dump (hdump : t.dump .binary = .ok x) :
    t.Indexed ∧ Grammar.Tree t.algorithm.digestSize t.document x := by
  obtain ⟨d, hdocument, -⟩ := bind_eq_ok_iff.mp hdump
  have hx := (dump_binary_iff hdocument).mp hdump
  obtain ⟨rfl, hindexed⟩ := toDocument_eq_ok_iff.mp hdocument
  exact ⟨hindexed, hx⟩

/-- A dump can be renamed to a name whose length fits. -/
theorem exists_renamed (hdump : t.dump .binary = .ok x)
    (hlength : (Bytes.ofText named).length < UInt32.size) :
    ∃ y, Grammar.Renamed 1 t.algorithm.name named x y := by
  obtain ⟨-, hx⟩ := indexed_of_dump hdump
  exact Grammar.exists_tree_renamed hx hlength

/-- A tree that was dumped is read and loaded **under any name** of its algorithm. -/
theorem Made.load_of_renamed (hmade : t.Made) (hdump : t.dump .binary = .ok x)
    (hnamed : Algorithm.ofName? named = some t.algorithm)
    (hrenamed : Grammar.Renamed 1 t.algorithm.name named x y)
    (hrequested : requested = none ∨ requested = some t.algorithm) :
    (Binary.readTree t.algorithm.digestSize).run y = .ok { t.document with algorithm := named }
      ∧ load y .binary requested = .ok t := by
  obtain ⟨hindexed, hx⟩ := indexed_of_dump hdump
  have hread := Grammar.readTree_run_iff.mpr ((Grammar.tree_renamed_iff hx).mpr hrenamed)
  -- the name does not enter what is restored
  exact ⟨hread, load_of_read hread hnamed (hmade.restore_document hindexed) hrequested⟩

end Tree

namespace Opening

variable {o : Opening} {d : OpeningDocument} {bytes x y : Bytes} {named : String}
  {requested : Option Algorithm}

/-- An opening that has a document is dumped to the bytes of this document. -/
theorem dump_binary_iff (h : o.toDocument = .ok d) :
    o.dump .binary = .ok y ↔ Grammar.Opening o.algorithm.digestSize d y := by
  have hversion : d.version = formatVersion := by
    obtain ⟨rfl, -⟩ := toDocument_eq_ok_iff.mp h
    rfl
  have hdump : o.dump .binary = (Binary.writeOpening o.algorithm.digestSize d).toExcept := by
    unfold dump
    rw [h, ok_bind]
  rw [hdump]
  exact Grammar.follows_opening hversion

/-- A loaded opening has the document that was read, under the name of its algorithm. -/
theorem exists_document_of_load (h : load bytes .binary requested = .ok o) :
    ∃ d, (Binary.readOpening o.algorithm.digestSize).run bytes = .ok d
      ∧ o.toDocument = .ok { d with algorithm := o.algorithm.name } := by
  obtain ⟨a, d, hread, hrestore⟩ := exists_read_of_load h
  have hversion := (Binary.readOpening_run_eq_ok_iff.mp hread).1
  obtain ⟨rfl, -⟩ := OpeningDocument.restore_eq_ok_iff.mp hrestore
  exact ⟨d, hread, toDocument_toOpening hversion a⟩

/-- What is dumped has indices that fit, and a document with the bytes of the dump. -/
theorem indexed_of_dump (hdump : o.dump .binary = .ok x) :
    o.Indexed ∧ Grammar.Opening o.algorithm.digestSize o.document x := by
  obtain ⟨d, hdocument, -⟩ := bind_eq_ok_iff.mp hdump
  have hx := (dump_binary_iff hdocument).mp hdump
  obtain ⟨rfl, hindexed⟩ := toDocument_eq_ok_iff.mp hdocument
  exact ⟨hindexed, hx⟩

/-- A dump can be renamed to a name whose length fits. -/
theorem exists_renamed (hdump : o.dump .binary = .ok x)
    (hlength : (Bytes.ofText named).length < UInt32.size) :
    ∃ y, Grammar.Renamed 2 o.algorithm.name named x y := by
  obtain ⟨-, hx⟩ := indexed_of_dump hdump
  exact Grammar.exists_opening_renamed hx hlength

/-- An opening that was dumped is read and loaded **under any name** of its algorithm. -/
theorem Sound.load_of_renamed (hsound : o.Sound) (hdump : o.dump .binary = .ok x)
    (hnamed : Algorithm.ofName? named = some o.algorithm)
    (hrenamed : Grammar.Renamed 2 o.algorithm.name named x y)
    (hrequested : requested = none ∨ requested = some o.algorithm) :
    (Binary.readOpening o.algorithm.digestSize).run y = .ok { o.document with algorithm := named }
      ∧ load y .binary requested = .ok o := by
  obtain ⟨hindexed, hx⟩ := indexed_of_dump hdump
  have hread := Grammar.readOpening_run_iff.mpr ((Grammar.opening_renamed_iff hx).mpr hrenamed)
  -- the name does not enter what is restored
  exact ⟨hread, load_of_read hread hnamed (hsound.restore_document hindexed) hrequested⟩

end Opening

/-! ## §3 Loading and dumping -/

namespace Binary

open Grammar

/-- **Nothing of accepted bytes is lost.** Whatever bytes a tree or an opening is loaded from, with or
without a request for an algorithm, it has the document that these bytes were read as, under the
canonical name of its algorithm. It is dumped again, and the dump is the bytes that were loaded with
this name in place of the other. -/
theorem dump_of_load (bytes : Bytes) (requested : Option Algorithm) :
    (∀ t, Tree.load bytes .binary requested = .ok t → ∃ d,
        (readTree t.algorithm.digestSize).run bytes = .ok d
        ∧ t.toDocument = .ok { d with algorithm := t.algorithm.name }
        ∧ (∃ again, t.dump .binary = .ok again)
        ∧ ∀ again, t.dump .binary = .ok again
          ↔ Renamed 1 d.algorithm t.algorithm.name bytes again)
      ∧ ∀ o, Opening.load bytes .binary requested = .ok o → ∃ d,
        (readOpening o.algorithm.digestSize).run bytes = .ok d
        ∧ o.toDocument = .ok { d with algorithm := o.algorithm.name }
        ∧ (∃ again, o.dump .binary = .ok again)
        ∧ ∀ again, o.dump .binary = .ok again
          ↔ Renamed 2 d.algorithm o.algorithm.name bytes again := by
  constructor
  · intro t hload
    obtain ⟨d, hread, hdocument⟩ := Tree.exists_document_of_load hload
    have hbytes := readTree_run_iff.mp hread
    have hiff : ∀ again, t.dump .binary = .ok again
        ↔ Renamed 1 d.algorithm t.algorithm.name bytes again := by
      intro again
      exact (Tree.dump_binary_iff hdocument).trans (tree_renamed_iff hbytes)
    obtain ⟨again, hagain⟩ := exists_tree_renamed hbytes t.algorithm.length_name_lt
    exact ⟨d, hread, hdocument, ⟨again, (hiff again).mpr hagain⟩, hiff⟩
  · intro o hload
    obtain ⟨d, hread, hdocument⟩ := Opening.exists_document_of_load hload
    have hbytes := readOpening_run_iff.mp hread
    have hiff : ∀ again, o.dump .binary = .ok again
        ↔ Renamed 2 d.algorithm o.algorithm.name bytes again := by
      intro again
      exact (Opening.dump_binary_iff hdocument).trans (opening_renamed_iff hbytes)
    obtain ⟨again, hagain⟩ := exists_opening_renamed hbytes o.algorithm.length_name_lt
    exact ⟨d, hread, hdocument, ⟨again, (hiff again).mpr hagain⟩, hiff⟩

/-- A tree of three items and an opening of it are written under an alias of their algorithm. They
are loaded from these bytes, and dumped under the canonical name. -/
theorem dump_of_load_alias : ∃ o x y z w,
    (Tree.ofItems .sha1 true [[], [2], [3]]).openAt [1] = .ok o
      ∧ Tree.load x .binary none = .ok (Tree.ofItems .sha1 true [[], [2], [3]])
      ∧ (Tree.ofItems .sha1 true [[], [2], [3]]).dump .binary = .ok y
      ∧ Renamed 1 "SHA-1" "sha1" x y
      ∧ Opening.load z .binary (some .sha1) = .ok o ∧ o.dump .binary = .ok w
      ∧ Renamed 2 "SHA-1" "sha1" z w := by
  have hmade := Tree.ofItems_made .sha1 true [[], [2], [3]]
  have halgorithm : (Tree.ofItems .sha1 true [[], [2], [3]]).algorithm = .sha1 :=
    Tree.algorithm_ofItems _ _
  obtain ⟨hsize, hpayload⟩ := Tree.ofItems_three_fits
  obtain ⟨o, hopen, ho, -, hcurrent, hsmall⟩ := Tree.exists_openAt_three
  generalize Tree.ofItems .sha1 true [[], [2], [3]] = t at *
  have hlength : (Bytes.ofText "SHA-1").length < UInt32.size := by decide
  have halias : ∀ a, a = Algorithm.sha1 → Algorithm.ofName? "SHA-1" = some a := by
    intro a ha
    rw [ha]
    decide
  refine ⟨o, ?_⟩
  -- the tree is dumped, renamed, loaded and dumped again
  obtain ⟨y₀, hy₀⟩ := hmade.exists_dump hsize hpayload .binary
  obtain ⟨x, hx⟩ := Tree.exists_renamed hy₀ hlength
  obtain ⟨hread, hload⟩ := hmade.load_of_renamed hy₀ (halias _ halgorithm) hx (.inl rfl)
  obtain ⟨d, hd, -, ⟨y, hy⟩, hiff⟩ := (dump_of_load x none).1 t hload
  obtain rfl := Except.ok.inj (hread.symm.trans hd)
  have hxy := (hiff y).mp hy
  rw [halgorithm] at hxy
  -- and so is the opening
  have hsound := hmade.sound_of_openAt hopen
  have hfits : ∃ w, Opening.dump { o with current := o.captured } .binary = .ok w := by
    apply hmade.exists_dump_of_openAt hopen hsound.length_captured hsound.captured hsize
    intro leaf hleaf
    exact hsmall leaf (hleaf.elim id id)
  have heq : { o with current := o.captured } = o :=
    congrArg (fun leaves => { o with current := leaves }) hcurrent.symm
  rw [heq] at hfits
  obtain ⟨w₀, hw₀⟩ := hfits
  obtain ⟨z, hz⟩ := Opening.exists_renamed hw₀ hlength
  obtain ⟨hread, hload'⟩ := hsound.load_of_renamed hw₀ (halias _ ho) hz (.inr rfl)
  obtain ⟨d, hd, -, ⟨w, hw⟩, hiff⟩ := (dump_of_load z (some o.algorithm)).2 o hload'
  obtain rfl := Except.ok.inj (hread.symm.trans hd)
  have hzw := (hiff w).mp hw
  rw [ho] at hzw hload'
  exact ⟨x, y, z, w, hopen, hload, hy, hxy, hload', hw, hzw⟩

end Binary

end HashTree
