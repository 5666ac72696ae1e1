import HashTree.Proofs.Format.Grammar

/-!
# Bytes that tell where they end

A rule is **delimited** when the bytes that it has for a value show by themselves where they stop:
no two values can be read off the front of one byte string, and no value can be read off it in two
ways. Every rule of the format is delimited, as counts and flags and tags stand in front of what
they announce, and what has no count has a width that both sides know.

That width is not written. So the bytes of a digest are taken by whoever knows the width, and what
stands behind the first digest of a document means nothing to a reader of another width.
-/

namespace HashTree

namespace Grammar

variable {α : Type} {item : Rule α} {width width' : Nat} {u v : Bytes}

/-- Bytes for values, with anything behind them, can be taken apart in **one way**. -/
def Delimited (rule : Rule α) : Prop :=
  ∀ {a b : α} {x y u v : Bytes}, rule a x → rule b y → x ++ u = y ++ v → a = b ∧ x = y ∧ u = v

/-! ## §1 Fields -/

/-- Bytes of one length tell where they end. -/
private theorem append_inj_of_length {x y : Bytes} {n : Nat} (hx : x.length = n) (hy : y.length = n)
    (h : x ++ u = y ++ v) : x = y ∧ u = v :=
  List.append_inj h (hx.trans hy.symm)

theorem delimited_number : Delimited Number := by
  intro m n x y u v hx hy h
  obtain ⟨hm, rfl⟩ := number_iff.mp hx
  obtain ⟨hn, rfl⟩ := number_iff.mp hy
  obtain ⟨hbytes, hrest⟩ :=
    append_inj_of_length (Bytes.length_ofNatLE 4 m) (Bytes.length_ofNatLE 4 n) h
  -- four bytes have room for either number, so they give it back
  have hsize : UInt32.size = 256 ^ 4 := rfl
  have hmn : m = n := by
    rw [hsize] at hm hn
    rw [← Bytes.toNatLE_ofNatLE hm, hbytes, Bytes.toNatLE_ofNatLE hn]
  exact ⟨hmn, hbytes, hrest⟩

theorem delimited_index : Delimited Index := by
  intro m n x y u v hx hy h
  obtain ⟨hmn, hbytes, hrest⟩ := delimited_number hx hy h
  exact ⟨UInt32.toNat_inj.mp hmn, hbytes, hrest⟩

theorem delimited_sized : Delimited Sized := by
  intro b c x y u v hx hy h
  cases hx with
  | intro hcount =>
    cases hy with
    | intro hcount' =>
      simp only [List.append_assoc] at h
      obtain ⟨hlength, rfl, h₁⟩ := delimited_number hcount hcount' h
      obtain ⟨rfl, hrest⟩ := append_inj_of_length hlength rfl h₁
      exact ⟨rfl, rfl, hrest⟩

theorem delimited_fixed : Delimited (Fixed width) := by
  intro b c x y u v hx hy h
  cases hx with
  | intro hlength =>
    cases hy with
    | intro hlength' =>
      obtain ⟨hbytes, hrest⟩ := append_inj_of_length hlength hlength' h
      exact ⟨hbytes, hbytes, hrest⟩

theorem Delimited.optional (hitem : Delimited item) : Delimited (Optional item) := by
  intro a b x y u v hx hy h
  cases hx with
  | absent =>
    cases hy with
    | absent => exact ⟨rfl, rfl, List.append_cancel_left h⟩
    | present hb => simp at h
  | present ha =>
    cases hy with
    | absent => simp at h
    | present hb =>
      obtain ⟨-, h₁⟩ := List.cons.inj h
      obtain ⟨rfl, rfl, hrest⟩ := hitem ha hb h₁
      exact ⟨rfl, rfl, hrest⟩

/-- Values one after the other do not tell where they end, unless it is known **how many** there
are. -/
theorem Delimited.each (hitem : Delimited item) {as bs : List α} {x y : Bytes}
    (hx : Each item as x) (hy : Each item bs y) (hlength : as.length = bs.length)
    (h : x ++ u = y ++ v) : as = bs ∧ x = y ∧ u = v := by
  induction hx generalizing bs y with
  | nil =>
    cases hy with
    | nil => exact ⟨rfl, rfl, h⟩
    | cons hb hbs => cases hlength
  | cons ha has ih =>
    cases hy with
    | nil => cases hlength
    | cons hb hbs =>
      simp only [List.append_assoc] at h
      obtain ⟨rfl, rfl, h₁⟩ := hitem ha hb h
      obtain ⟨rfl, rfl, hrest⟩ := ih hbs (Nat.succ.inj hlength) h₁
      exact ⟨rfl, rfl, hrest⟩

theorem Delimited.counted (hitem : Delimited item) : Delimited (Counted item) := by
  intro as bs x y u v hx hy h
  cases hx with
  | intro hcount hitems =>
    cases hy with
    | intro hcount' hitems' =>
      simp only [List.append_assoc] at h
      obtain ⟨hlength, rfl, h₁⟩ := delimited_number hcount hcount' h
      obtain ⟨rfl, rfl, hrest⟩ := hitem.each hitems hitems' hlength h₁
      exact ⟨rfl, rfl, hrest⟩

/-! ## §2 Parts of documents -/

/-- A text is told by its bytes. -/
theorem ofText_inj {s t : String} (h : Bytes.ofText s = Bytes.ofText t) : s = t := by
  have hs : Bytes.toText? (Bytes.ofText s) = some s := Bytes.toText?_eq_some_iff.mpr rfl
  have ht : Bytes.toText? (Bytes.ofText s) = some t := Bytes.toText?_eq_some_iff.mpr h
  exact Option.some.inj (hs.symm.trans ht)

theorem delimited_head {tag : UInt8} : Delimited (Head tag) := by
  intro s t x y u v hx hy h
  cases hx with
  | intro hname =>
    cases hy with
    | intro hname' =>
      simp only [List.append_assoc, List.append_cancel_left_eq] at h
      obtain ⟨htext, rfl, hrest⟩ := delimited_sized hname hname' h
      exact ⟨ofText_inj htext, rfl, hrest⟩

theorem delimited_node : Delimited (Node width) := by
  intro m n x y u v hx hy h
  cases hx with
  | intro hdigest hpayload hchildren =>
    cases hy with
    | intro hdigest' hpayload' hchildren' =>
      simp only [List.append_assoc] at h
      obtain ⟨rfl, rfl, h₁⟩ := delimited_fixed hdigest hdigest' h
      obtain ⟨rfl, rfl, h₂⟩ := delimited_sized.optional hpayload hpayload' h₁
      obtain ⟨rfl, rfl, hrest⟩ := delimited_index.counted hchildren hchildren' h₂
      exact ⟨rfl, rfl, hrest⟩

theorem delimited_slot : Delimited (Slot width) := by
  intro s t x y u v hx hy h
  -- slots of different kinds differ in their tags
  cases hx with
  | sibling hdigest =>
    cases hy with
    | sibling hdigest' =>
      simp only [List.append_assoc, List.append_cancel_left_eq] at h
      obtain ⟨rfl, rfl, hrest⟩ := delimited_fixed hdigest hdigest' h
      exact ⟨rfl, rfl, hrest⟩
    | leaf hrank => simp at h
    | child => simp at h
  | leaf hrank =>
    cases hy with
    | sibling hdigest => simp at h
    | leaf hrank' =>
      simp only [List.append_assoc, List.append_cancel_left_eq] at h
      obtain ⟨rfl, rfl, hrest⟩ := delimited_index hrank hrank' h
      exact ⟨rfl, rfl, hrest⟩
    | child => simp at h
  | child =>
    cases hy with
    | sibling hdigest => simp at h
    | leaf hrank => simp at h
    | child => exact ⟨rfl, rfl, List.append_cancel_left h⟩

theorem delimited_steps : Delimited (Counted (Counted (Slot width))) :=
  Delimited.counted delimited_slot.counted

theorem delimited_leaf : Delimited (Leaf width) := by
  intro s t x y u v hx hy h
  cases hx with
  | intro hpayload hdigest =>
    cases hy with
    | intro hpayload' hdigest' =>
      simp only [List.append_assoc] at h
      obtain ⟨rfl, rfl, h₁⟩ := delimited_sized.optional hpayload hpayload' h
      obtain ⟨rfl, rfl, hrest⟩ := delimited_fixed hdigest hdigest' h₁
      exact ⟨rfl, rfl, hrest⟩

/-! ## §3 Documents -/

/-- What two trees share whose bytes start alike, **whatever their widths**: all but the nodes
themselves. If there are no nodes the documents share everything. -/
structure TreeFront (d d' : TreeDocument) : Prop where
  name_eq : d.algorithm = d'.algorithm
  root_eq : d.root = d'.root
  leaves_eq : d.leaves = d'.leaves
  nodeCount_eq : d.nodes.length = d'.nodes.length

theorem treeFront_of_append {d d' : TreeDocument} {x y : Bytes} (hx : Tree width d x)
    (hy : Tree width' d' y) (h : x ++ u = y ++ v) : TreeFront d d'
      ∧ ∃ front z z', x = front ++ z ∧ y = front ++ z' ∧ Each (Node width) d.nodes z
        ∧ Each (Node width') d'.nodes z' ∧ z ++ u = z' ++ v := by
  cases hx with
  | intro hname hroot hleaves hnodes =>
    cases hy with
    | intro hname' hroot' hleaves' hnodes' =>
      simp only [List.append_assoc] at h
      obtain ⟨rfl, rfl, h₁⟩ := delimited_head hname hname' h
      obtain ⟨rfl, rfl, h₂⟩ := delimited_index.optional hroot hroot' h₁
      obtain ⟨rfl, rfl, h₃⟩ := delimited_index.counted hleaves hleaves' h₂
      cases hnodes with
      | intro hcount hitems =>
        cases hnodes' with
        | intro hcount' hitems' =>
          simp only [List.append_assoc] at h₃
          obtain ⟨hlength, rfl, h₄⟩ := delimited_number hcount hcount' h₃
          exact ⟨⟨rfl, rfl, rfl, hlength⟩, _, _, _, (List.append_assoc ..).symm,
            (List.append_assoc ..).symm, hitems, hitems', h₄⟩

theorem delimited_tree : Delimited (Tree width) := by
  intro d d' x y u v hx hy h
  obtain ⟨hfront, front, z, z', rfl, rfl, hz, hz', hrest⟩ := treeFront_of_append hx hy h
  obtain ⟨-, rfl, hend⟩ := delimited_node.each hz hz' hfront.nodeCount_eq hrest
  exact ⟨(tree_biUnique width).1 hx hy, rfl, hend⟩

/-- What two openings share whose bytes start alike, **whatever their widths**: the name and the
positions. -/
structure OpeningFront (d d' : OpeningDocument) : Prop where
  name_eq : d.algorithm = d'.algorithm
  indices_eq : d.indices = d'.indices

theorem openingFront_of_append {d d' : OpeningDocument} {x y : Bytes} (hx : Opening width d x)
    (hy : Opening width' d' y) (h : x ++ u = y ++ v) : OpeningFront d d' := by
  cases hx with
  | intro hname hindices hexpected hsteps hcaptured hcurrent =>
    cases hy with
    | intro hname' hindices' hexpected' hsteps' hcaptured' hcurrent' =>
      simp only [List.append_assoc] at h
      obtain ⟨rfl, rfl, h₁⟩ := delimited_head hname hname' h
      obtain ⟨rfl, -, -⟩ := delimited_index.counted hindices hindices' h₁
      exact ⟨rfl, rfl⟩

theorem delimited_opening : Delimited (Opening width) := by
  intro d d' x y u v hx hy h
  cases hx with
  | intro hname hindices hexpected hsteps hcaptured hcurrent =>
    cases hy with
    | intro hname' hindices' hexpected' hsteps' hcaptured' hcurrent' =>
      simp only [List.append_assoc] at h
      obtain ⟨rfl, rfl, h₁⟩ := delimited_head hname hname' h
      obtain ⟨rfl, rfl, h₂⟩ := delimited_index.counted hindices hindices' h₁
      obtain ⟨rfl, rfl, h₃⟩ := delimited_fixed hexpected hexpected' h₂
      obtain ⟨rfl, rfl, h₄⟩ := delimited_steps hsteps hsteps' h₃
      obtain ⟨rfl, rfl, h₅⟩ := delimited_leaf.counted hcaptured hcaptured' h₄
      obtain ⟨rfl, rfl, hrest⟩ := delimited_leaf.counted hcurrent hcurrent' h₅
      exact ⟨rfl, rfl, hrest⟩

end Grammar

end HashTree
