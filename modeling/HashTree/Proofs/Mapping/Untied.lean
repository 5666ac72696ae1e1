import HashTree.Proofs.Mapping.Invariance
import HashTree.Proofs.Tree.Equality

/-!
# Trees that do not depend on the order of entries

Reordering entries leaves the root as it is, and the leaves up to their order. The tree itself is
the same when no two different parts of one branch are **tied** by having one digest: sorting by
digest then leaves a single order. Tied parts keep the order of their entries, and a byte string can
be made for a tie, since a mapping is hashed from nothing but the digests of its entries.
-/

namespace HashTree

/-- A form is **untied** when children of one digest are the same form, in every branch. -/
inductive Form.Untied : Form → Prop where
  | leaf (digest : Digest) (payload : Option Bytes) : Untied (.leaf digest payload)
  | branch {digest : Digest} {children : List Form}
    (same : ∀ x ∈ children, ∀ y ∈ children, x.digest = y.digest → x = y)
    (below : ∀ c ∈ children, Untied c) : Untied (.branch digest children)

namespace Mapping

variable {a : Algorithm} {retain : Bool}

/-! ## §1 Gathering without ties -/

/-- What forms are gathered to is untied **exactly when** they are, and no two different ones have
one digest. -/
theorem untied_gather_iff {forms : List Form} :
    (∀ form, gather a forms = some form → form.Untied)
      ↔ (∀ x ∈ forms, ∀ y ∈ forms, x.digest = y.digest → x = y) ∧ ∀ x ∈ forms, x.Untied := by
  match forms with
  | [] => simp [gather]
  | [form] => simp [gather]
  | first :: second :: rest =>
    have hsorted := List.mergeSort_perm (first :: second :: rest)
      fun f g => Bytes.le f.digest g.digest
    constructor
    · intro h
      cases h _ rfl with
      | branch same below =>
        refine ⟨fun x hx y hy => ?_, fun x hx => below x (hsorted.mem_iff.mpr hx)⟩
        exact same x (hsorted.mem_iff.mpr hx) y (hsorted.mem_iff.mpr hy)
    · rintro ⟨same, below⟩ form hform
      obtain rfl := Option.some.inj hform
      refine .branch (fun x hx y hy => ?_) fun x hx => below x (hsorted.mem_iff.mp hx)
      exact same x (hsorted.mem_iff.mp hx) y (hsorted.mem_iff.mp hy)

/-- Rearranging a mapping of an untied form leaves **the form** as it is. -/
theorem Rearranged.form?_eq {mapping mapping' : Mapping} (h : Rearranged mapping mapping')
    (untied : ∀ form, form? a retain (.map mapping) = some form → form.Untied) :
    form? a retain (.map mapping) = form? a retain (.map mapping') := by
  induction h with
  | order perm =>
    rw [form?_map] at untied ⊢
    rw [form?_map]
    exact gather_perm (perm.filterMap _) (untied_gather_iff.mp untied).1
  | @inner key below below' rest _ ih =>
    have hbelow : form? a retain (.map below) = form? a retain (.map below') := by
      apply ih
      intro form hform
      rw [form?_map] at untied
      -- the form of the inner mapping is one of those that are gathered
      apply (untied_gather_iff.mp untied).2
      exact List.mem_filterMap.mpr ⟨(key, .map below), List.mem_cons_self, hform⟩
    rw [form?_map, form?_map, List.filterMap_cons, List.filterMap_cons, hbelow]
  | trans _ _ ih ih' =>
    have hfirst := ih untied
    rw [hfirst] at untied ⊢
    exact ih' untied

/-- In a rearranged mapping the same byte strings are stored. -/
theorem Rearranged.stored_perm {mapping mapping' : Mapping} (h : Rearranged mapping mapping') :
    (Value.map mapping).stored.Perm (Value.map mapping').stored := by
  induction h with
  | order perm =>
    rw [Value.stored_map, Value.stored_map]
    exact perm.flatMap_right _
  | inner _ ih =>
    rw [Value.stored_map, Value.stored_map, List.flatMap_cons, List.flatMap_cons]
    exact ih.append_right _
  | trans _ _ ih ih' => exact ih.trans ih'

/-! ## §2 Byte strings under dotted keys -/

/-- The mapping of some byte strings under keys. -/
def ofBytes (entries : List (String × Bytes)) : Mapping :=
  entries.map fun e => (e.1, .bytes e.2)

/-- The byte strings are stored one after the other. -/
theorem dotted_ofBytes (entries : List (String × Bytes)) :
    dotted (ofBytes entries)
      = entries.foldl (fun kept e => insert kept (segments e.1) e.2) [] := by
  have hexpand : expand (ofBytes entries) = entries.map fun e => (segments e.1, e.2) := by
    rw [expand_eq, ofBytes, List.flatMap_map, List.map_eq_flatMap]
    simp
  rw [dotted, hexpand, List.foldl_map]

/-- A list is **free of conflicts** when no key is there twice and none leads through another. -/
def ConflictFree (entries : List (String × Bytes)) : Prop :=
  entries.Pairwise fun e f => e.1 ≠ f.1 ∧ ¬ LeadsThrough e.1 f.1 ∧ ¬ LeadsThrough f.1 e.1

instance (entries : List (String × Bytes)) : Decidable (ConflictFree entries) :=
  inferInstanceAs (Decidable (List.Pairwise _ _))

/-- Permuting a list that is free of conflicts reorders its mapping. -/
theorem ConflictFree.reordered {entries entries' : List (String × Bytes)}
    (free : ConflictFree entries) (perm : entries.Perm entries') :
    Reordered .dotted (ofBytes entries) (ofBytes entries') := by
  apply Reordered.order (perm.map _)
  rw [List.pairwise_map]
  apply List.Pairwise.imp _ free
  intro e f ⟨hne, hthrough, hthrough'⟩ ⟨item, hitem, other, hother, hmeets⟩
  rw [expandEntry_bytes, List.mem_singleton] at hitem hother
  rw [hitem, hother] at hmeets
  rcases hmeets with hfront | hfront
  · rcases eq_or_leadsThrough hfront with heq | hleads
    · exact hne heq.symm
    · exact hthrough' hleads
  · rcases eq_or_leadsThrough hfront with heq | hleads
    · exact hne heq
    · exact hthrough hleads

/-- **Permuting byte strings whose keys do not conflict** leaves the root as it is and the leaves up
to their order. It leaves the whole tree as it is, and with it all leaves and openings by position,
when the canonical form is untied. -/
theorem toTree_perm (a : Algorithm) (retain : Bool) {entries entries' : List (String × Bytes)}
    (free : ConflictFree entries) (perm : entries.Perm entries') :
    SameRoot a (toTree a retain .dotted (ofBytes entries))
        (toTree a retain .dotted (ofBytes entries'))
      ∧ ((toTree a retain .dotted (ofBytes entries)).leafNodes.map Node.cell).Perm
        ((toTree a retain .dotted (ofBytes entries')).leafNodes.map Node.cell)
      ∧ ((∀ form, form? a retain (.map (dotted (ofBytes entries))) = some form → form.Untied) →
        toTree a retain .dotted (ofBytes entries) = toTree a retain .dotted (ofBytes entries')
        ∧ (toTree a retain .dotted (ofBytes entries)).same
          (toTree a retain .dotted (ofBytes entries')) = true) := by
  have hrearranged := (free.reordered perm).normalize
  refine ⟨sameRoot_of_alike a retain retain hrearranged.alike, ?leaves, fun untied => ?tree⟩
  case leaves =>
    have hstored := (hrearranged.stored_perm).map (Cell.ofPayload a retain)
    exact (leafNodes_toTree ..).trans (hstored.trans (leafNodes_toTree ..).symm)
  case tree =>
    have htree : toTree a retain .dotted (ofBytes entries)
        = toTree a retain .dotted (ofBytes entries') := by
      rw [toTree, toTree]
      simp only [normalize] at hrearranged ⊢
      rw [hrearranged.form?_eq untied]
    exact ⟨htree, htree ▸ Tree.same_self _⟩

/-- Two byte strings whose digests differ are not tied. -/
theorem toTree_perm_two :
    toTree .sha1 true .dotted (ofBytes [("a", [1]), ("b", [2])])
      = toTree .sha1 true .dotted (ofBytes [("b", [2]), ("a", [1])]) := by
  have free : ConflictFree [("a", [1]), ("b", [2])] := by decide +kernel
  have hdotted : dotted (ofBytes [("a", [1]), ("b", [2])])
      = [("a", .bytes [1]), ("b", .bytes [2])] := by
    rw [dotted_ofBytes]
    rfl
  have hdigest : Algorithm.sha1.digest [1] ≠ Algorithm.sha1.digest [2] := by decide +kernel
  have untied : ∀ form, form? .sha1 true (.map (dotted (ofBytes [("a", [1]), ("b", [2])])))
      = some form → form.Untied := by
    rw [hdotted, form?_map, untied_gather_iff]
    simp [form?_bytes, Form.digest, hdigest, hdigest.symm, Form.Untied.leaf]
  obtain ⟨-, -, htree⟩ := toTree_perm .sha1 true free (.swap _ _ _)
  exact (htree untied).1

/-! ## §3 A tie -/

/-- Two forms are gathered by comparing their digests. -/
theorem gather_pair (f g : Form) :
    gather a [f, g]
      = some (Form.join a (if Bytes.le f.digest g.digest then [f, g] else [g, f])) := by
  simp [gather, List.mergeSort, List.merge]

/-- A mapping of two equal byte strings, and a byte string that is **made for a tie**: it is what
another mapping of two equal byte strings is hashed from. -/
def tiedLeft : List (String × Bytes) :=
  [("a.x.p", [49]), ("a.x.q", [49]),
    ("a.y", Algorithm.sha1.digest [50] ++ Algorithm.sha1.digest [50])]

/-- The other mapping, and a byte string that is made for a tie with the first one. -/
def tiedRight : List (String × Bytes) :=
  [("b.x", Algorithm.sha1.digest [49] ++ Algorithm.sha1.digest [49]),
    ("b.y.p", [50]), ("b.y.q", [50])]

/-- **Tied parts keep the order of their entries**: there are keys without a conflict whose order
shows in the tree and in its leaves. -/
theorem same_tied_eq_false :
    ConflictFree (tiedLeft ++ tiedRight)
      ∧ (tiedLeft ++ tiedRight).Perm (tiedRight ++ tiedLeft)
      ∧ (toTree .sha1 true .dotted (ofBytes (tiedLeft ++ tiedRight))).same
        (toTree .sha1 true .dotted (ofBytes (tiedRight ++ tiedLeft))) = false
      ∧ (toTree .sha1 true .dotted (ofBytes (tiedLeft ++ tiedRight))).leafNodes.map (·.digest)
        ≠ (toTree .sha1 true .dotted (ofBytes (tiedRight ++ tiedLeft))).leafNodes.map (·.digest) := by
  obtain ⟨haxp, haxq, hay, hbx, hbyp, hbyq⟩ : segments "a.x.p" = ["a", "x", "p"]
      ∧ segments "a.x.q" = ["a", "x", "q"] ∧ segments "a.y" = ["a", "y"]
      ∧ segments "b.x" = ["b", "x"] ∧ segments "b.y.p" = ["b", "y", "p"]
      ∧ segments "b.y.q" = ["b", "y", "q"] := by decide +kernel
  have hleft : ∀ x y : Bytes, dotted (ofBytes [("a.x.p", [49]), ("a.x.q", [49]), ("a.y", y),
      ("b.x", x), ("b.y.p", [50]), ("b.y.q", [50])])
      = [("a", .map [("x", .map [("p", .bytes [49]), ("q", .bytes [49])]), ("y", .bytes y)]),
        ("b", .map [("x", .bytes x), ("y", .map [("p", .bytes [50]), ("q", .bytes [50])])])] := by
    intro x y
    simp only [dotted_ofBytes, List.foldl_cons, haxp, haxq, hay, hbx, hbyp, hbyq]
    rfl
  have hright : ∀ x y : Bytes, dotted (ofBytes [("b.x", x), ("b.y.p", [50]), ("b.y.q", [50]),
      ("a.x.p", [49]), ("a.x.q", [49]), ("a.y", y)])
      = [("b", .map [("x", .bytes x), ("y", .map [("p", .bytes [50]), ("q", .bytes [50])])]),
        ("a", .map [("x", .map [("p", .bytes [49]), ("q", .bytes [49])]), ("y", .bytes y)])] := by
    intro x y
    simp only [dotted_ofBytes, List.foldl_cons, haxp, haxq, hay, hbx, hbyp, hbyq]
    rfl
  refine ⟨by decide +kernel, List.perm_append_comm, ?_⟩
  -- what is left is a comparison of digests
  simp only [toTree, normalize, tiedLeft, tiedRight, List.cons_append, List.nil_append, hleft,
    hright, form?_map, form?_bytes, gather_pair, List.filterMap_cons, List.filterMap_nil, Form.join,
    Form.digest]
  decide +kernel

end Mapping

end HashTree
