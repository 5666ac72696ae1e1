import HashTree.Proofs.Tree.Growing
import HashTree.Tree.Form

/-!
# Layouts are planned

The parts of a form come in postorder, so a branch finds its children as the last tops. Placing all
parts of a form therefore leaves its root as one more top in front of those that were there, and
placing a whole form leaves a plan.
-/

namespace HashTree

namespace Form

/-! ## §1 Sound forms -/

/-- The induction over a form, with one hypothesis for all children. -/
@[elab_as_elim]
theorem induction {motive : Form → Prop} (leaf : ∀ digest payload, motive (.leaf digest payload))
    (branch : ∀ digest children, (∀ c ∈ children, motive c) → motive (.branch digest children)) :
    ∀ form, motive form
  | .leaf digest payload => leaf digest payload
  | .branch digest children => branch digest children fun c _ => induction leaf branch c

/-- Every digest in the form is the hash of what it stands for, and branches have two or more
children. -/
inductive Sound (a : Algorithm) : Form → Prop where
  | leaf {digest : Digest} {payload : Option Bytes} (length_eq : digest.length = a.digestSize)
      (payload_eq : ∀ b ∈ payload, a.digest b = digest) : Sound a (.leaf digest payload)
  | branch {digest : Digest} {children : List Form} (two : 2 ≤ children.length)
      (digest_eq : digest = a.digest (children.flatMap Form.digest))
      (below : ∀ c ∈ children, Sound a c) : Sound a (.branch digest children)

/-! ## §2 Parts -/

mutual

/-- The parts of a form, by recursion: those of the children from left to right, then the
branch. -/
def postParts : Form → List Part
  | leaf digest payload => [.leaf digest payload]
  | branch digest children => postPartsAll children ++ [.branch digest children.length]

/-- The parts of some forms, one form after the other. -/
def postPartsAll : List Form → List Part
  | [] => []
  | form :: forms => form.postParts ++ postPartsAll forms

end

theorem postPartsAll_eq_flatMap (forms : List Form) :
    postPartsAll forms = forms.flatMap postParts := by
  induction forms with
  | nil => rfl
  | cons form forms ih => rw [postPartsAll, List.flatMap_cons, ih]

@[simp]
theorem postParts_leaf (digest : Digest) (payload : Option Bytes) :
    (leaf digest payload).postParts = [.leaf digest payload] := rfl

@[simp]
theorem postParts_branch (digest : Digest) (children : List Form) :
    (branch digest children).postParts
      = children.flatMap postParts ++ [.branch digest children.length] := by
  rw [postParts, postPartsAll_eq_flatMap]

/-- The loop collects the parts of the forms on its stack, the last form first. -/
theorem collectParts_eq (stack : List Form) (done : List Part) :
    collectParts stack done = stack.reverse.flatMap postParts ++ done := by
  fun_induction collectParts stack done with
  | case1 done => rfl
  | case2 done digest payload rest ih =>
    rw [ih, List.reverse_cons, List.flatMap_append, List.append_assoc]
    simp
  | case3 done digest children rest ih =>
    rw [List.unattach_reverse, List.unattach_attach] at ih
    rw [ih, List.reverse_append, List.reverse_reverse, List.reverse_cons, List.flatMap_append,
      List.flatMap_append, List.append_assoc, List.append_assoc]
    simp

/-- The parts of a form are its parts by recursion. -/
theorem parts_eq_postParts (form : Form) : form.parts = form.postParts := by
  rw [parts, collectParts_eq]
  simp

/-- The cells of the leaves of a form, from left to right. -/
def leafCells (form : Form) : List Cell := form.postParts.filterMap Part.leafCell?

theorem leafCells_branch (digest : Digest) (children : List Form) :
    (branch digest children).leafCells = children.flatMap leafCells := by
  rw [leafCells, postParts_branch, List.filterMap_append, List.filterMap_flatMap]
  exact List.append_nil _

/-- The leaf cells of a sound form are sound, among any cells. -/
theorem Sound.leafCells {a : Algorithm} {form : Form} (h : form.Sound a) :
    ∀ cell ∈ form.leafCells,
      cell.content.isLeaf = true ∧ ∀ digests, cell.Sound a digests := by
  induction form using Form.induction with
  | leaf digest payload =>
    intro cell hcell
    obtain rfl : cell = ⟨digest, .leaf payload⟩ := by
      simpa [Form.leafCells, Part.leafCell?] using hcell
    cases h with
    | leaf hlength hpayload => exact ⟨rfl, fun _ => ⟨hlength, hpayload⟩⟩
  | branch digest children ih =>
    intro cell hcell
    rw [leafCells_branch, List.mem_flatMap] at hcell
    obtain ⟨c, hc, hcell⟩ := hcell
    cases h with
    | branch _ _ hbelow => exact ih c hc (hbelow c hc) cell hcell

/-! ## §3 Placing -/

namespace Placing

variable {a : Algorithm} {leaves : List Cell} {p : Placing}

/-- The arena so far. Leaves have their cells before they are placed. -/
def cells (leaves : List Cell) (p : Placing) : List Cell := leaves ++ p.branches.reverse

/-- The state between two parts. The leaves that are not yet placed count as tops. -/
structure Sound (a : Algorithm) (leaves : List Cell) (p : Placing) : Prop where
  growing : Growing a leaves.length (p.cells leaves)
    (p.loose ++ List.range' p.nextLeaf (leaves.length - p.nextLeaf))
  nextLeaf_le : p.nextLeaf ≤ leaves.length
  nextBranch_eq : p.nextBranch = leaves.length + p.branches.length

/-- The digest of a cell so far. -/
def digestAt (leaves : List Cell) (p : Placing) (i : Nat) : Digest :=
  ((p.cells leaves).map (·.digest)).getD i []

/-- The second state has the cells of the first, and perhaps more. -/
def Extends (leaves : List Cell) (p q : Placing) : Prop := p.cells leaves <+: q.cells leaves

theorem Extends.digestAt_eq {q : Placing} (h : p.Extends leaves q) {i : Nat}
    (hi : i < (p.cells leaves).length) : q.digestAt leaves i = p.digestAt leaves i := by
  obtain ⟨more, hmore⟩ := h
  rw [digestAt, digestAt, ← hmore, List.map_append, List.getD_eq_getElem?_getD,
    List.getD_eq_getElem?_getD, List.getElem?_append_left (by rwa [List.length_map])]

/-- Placing a leaf takes the next of the leaves. -/
theorem Sound.place_leaf (h : p.Sound a leaves) {digest : Digest} {payload : Option Bytes}
    {rest : List Cell} (hnext : leaves.drop p.nextLeaf = ⟨digest, .leaf payload⟩ :: rest) :
    (p.place (.leaf digest payload)).Sound a leaves
      ∧ leaves.drop (p.place (.leaf digest payload)).nextLeaf = rest
      ∧ (p.place (.leaf digest payload)).digestAt leaves p.nextLeaf = digest := by
  have hlt : p.nextLeaf < leaves.length := by
    have hlength := congrArg List.length hnext
    rw [List.length_drop, List.length_cons] at hlength
    omega
  rw [List.drop_eq_getElem_cons hlt, List.cons.injEq] at hnext
  refine ⟨⟨?_, hlt, h.nextBranch_eq⟩, hnext.2, ?_⟩
  · refine h.growing.perm ?_
    -- the first of the leaves that wait comes to the front
    obtain ⟨n, hn⟩ : ∃ n, leaves.length - p.nextLeaf = n + 1 :=
      ⟨leaves.length - p.nextLeaf - 1, by omega⟩
    show (p.loose ++ List.range' p.nextLeaf (leaves.length - p.nextLeaf)).Perm
      (p.nextLeaf :: p.loose ++ List.range' (p.nextLeaf + 1) (leaves.length - (p.nextLeaf + 1)))
    rw [hn, show leaves.length - (p.nextLeaf + 1) = n by omega, List.range'_succ]
    exact List.perm_middle
  · show ((leaves ++ p.branches.reverse).map (·.digest)).getD p.nextLeaf [] = digest
    rw [List.getD_eq_getElem?_getD, List.getElem?_map, List.getElem?_append_left hlt,
      List.getElem?_eq_getElem hlt, hnext.1]
    rfl

/-- Placing a branch takes its children from the last tops. -/
theorem Sound.place_branch (h : p.Sound a leaves) {tops rest : List Nat} {digest : Digest}
    (hloose : p.loose = tops.reverse ++ rest) (htwo : 2 ≤ tops.length)
    (hdigest : digest = a.digest (tops.flatMap (p.digestAt leaves))) :
    (p.place (.branch digest tops.length)).Sound a leaves
      ∧ (p.place (.branch digest tops.length)).loose = p.nextBranch :: rest
      ∧ p.Extends leaves (p.place (.branch digest tops.length))
      ∧ (p.place (.branch digest tops.length)).digestAt leaves p.nextBranch = digest := by
  have htake : (p.loose.take tops.length).reverse = tops := by
    rw [hloose, List.take_left' List.length_reverse, List.reverse_reverse]
  have hdrop : p.loose.drop tops.length = rest := by
    rw [hloose, List.drop_left' List.length_reverse]
  have hcells : (p.place (.branch digest tops.length)).cells leaves
      = p.cells leaves ++ [⟨digest, .internal tops⟩] := by
    simp [place, cells, htake]
  have hlength : (p.cells leaves).length = p.nextBranch := by
    rw [cells, List.length_append, List.length_reverse, h.nextBranch_eq]
  have hloose' : (p.place (.branch digest tops.length)).loose = p.nextBranch :: rest := by
    simp [place, hdrop]
  refine ⟨⟨?_, h.nextLeaf_le, ?_⟩, hloose', ⟨_, hcells.symm⟩, ?_⟩
  · -- the loose tops stand in reverse, and joining takes them in order
    have htops : (p.loose ++ List.range' p.nextLeaf (leaves.length - p.nextLeaf)).Perm
        (tops ++ (rest ++ List.range' p.nextLeaf (leaves.length - p.nextLeaf))) := by
      rw [hloose, List.append_assoc]
      exact (List.reverse_perm tops).append_right _
    have hjoin := (h.growing.perm htops).join htwo hdigest
    rw [hcells, hloose']
    rwa [hlength] at hjoin
  · show p.nextBranch + 1 = leaves.length + (p.branches.length + 1)
    rw [h.nextBranch_eq, Nat.add_assoc]
  · rw [digestAt, hcells, ← hlength, List.getD_eq_getElem?_getD]
    simp

/-- From the first state to the second some tops have come in front of the loose ones, and they
have the given digests. -/
structure Reaches (a : Algorithm) (leaves : List Cell) (p q : Placing) (tops : List Nat)
    (digests : List Digest) : Prop where
  sound : q.Sound a leaves
  loose_eq : q.loose = tops.reverse ++ p.loose
  grows : p.Extends leaves q
  digests_eq : tops.map (q.digestAt leaves) = digests

namespace Reaches

variable {q r : Placing} {tops more : List Nat} {digests others : List Digest}

theorem refl (h : p.Sound a leaves) : p.Reaches a leaves p [] [] :=
  ⟨h, rfl, List.prefix_rfl, rfl⟩

/-- A loose index keeps its digest. -/
theorem trans (hpq : p.Reaches a leaves q tops digests) (hqr : q.Reaches a leaves r more others) :
    p.Reaches a leaves r (tops ++ more) (digests ++ others) := by
  refine ⟨hqr.sound, ?_, hpq.grows.trans hqr.grows, ?_⟩
  · rw [hqr.loose_eq, hpq.loose_eq, List.reverse_append, List.append_assoc]
  · rw [List.map_append, hqr.digests_eq, ← hpq.digests_eq]
    congr 1
    refine List.map_congr_left fun top htop => hqr.grows.digestAt_eq ?_
    refine hpq.sound.growing.top_lt (List.mem_append_left _ ?_)
    rw [hpq.loose_eq]
    exact List.mem_append_left _ (List.mem_reverse.mpr htop)

end Reaches

/-- Placing some forms, given that each can be placed by itself. -/
private theorem place_forms {forms : List Form}
    (hforms : ∀ form ∈ forms, ∀ (p : Placing) (rest : List Cell), p.Sound a leaves →
      leaves.drop p.nextLeaf = form.leafCells ++ rest →
      ∃ top, p.Reaches a leaves (form.postParts.foldl place p) [top] [form.digest]
        ∧ leaves.drop (form.postParts.foldl place p).nextLeaf = rest)
    (h : p.Sound a leaves) {rest : List Cell}
    (hnext : leaves.drop p.nextLeaf = forms.flatMap leafCells ++ rest) :
    ∃ tops, p.Reaches a leaves ((forms.flatMap postParts).foldl place p) tops
        (forms.map Form.digest)
      ∧ leaves.drop ((forms.flatMap postParts).foldl place p).nextLeaf = rest := by
  induction forms generalizing p with
  | nil => exact ⟨[], .refl h, hnext⟩
  | cons form forms ih =>
    rw [List.flatMap_cons, List.append_assoc] at hnext
    obtain ⟨top, hfirst, hnext⟩ := hforms form List.mem_cons_self p _ h hnext
    obtain ⟨tops, hrest, hnext⟩ :=
      ih (fun f hf => hforms f (List.mem_cons_of_mem _ hf)) hfirst.sound hnext
    rw [List.flatMap_cons, List.foldl_append]
    exact ⟨top :: tops, hfirst.trans hrest, hnext⟩

/-- Placing a **sound form** leaves one more top, with the digest of the form. -/
theorem place_form {form : Form} (hform : form.Sound a) (h : p.Sound a leaves)
    {rest : List Cell} (hnext : leaves.drop p.nextLeaf = form.leafCells ++ rest) :
    ∃ top, p.Reaches a leaves (form.postParts.foldl place p) [top] [form.digest]
      ∧ leaves.drop (form.postParts.foldl place p).nextLeaf = rest := by
  induction form using Form.induction generalizing p rest with
  | leaf digest payload =>
    obtain ⟨hsound, hrest, hdigest⟩ := h.place_leaf hnext
    exact ⟨p.nextLeaf, ⟨hsound, rfl, List.prefix_rfl, congrArg (fun d => [d]) hdigest⟩, hrest⟩
  | branch digest children ih =>
    cases hform with
    | branch htwo hdigest hbelow =>
      rw [leafCells_branch] at hnext
      obtain ⟨tops, hchildren, hnext⟩ :=
        place_forms (fun c hc _ _ hp => ih c hc (hbelow c hc) hp) h hnext
      have hlength : tops.length = children.length := by
        have hlengths := congrArg List.length hchildren.digests_eq
        rwa [List.length_map, List.length_map] at hlengths
      have hflatten : children.flatMap Form.digest = tops.flatMap
          (((children.flatMap postParts).foldl place p).digestAt leaves) := by
        rw [List.flatMap_def, ← hchildren.digests_eq, ← List.flatMap_def]
      obtain ⟨hsound, hloose, hgrows, htop⟩ :=
        hchildren.sound.place_branch hchildren.loose_eq (hlength ▸ htwo)
          (show digest = _ by rw [hdigest, hflatten])
      rw [hlength] at hsound hloose hgrows htop
      rw [postParts_branch, List.foldl_append]
      exact ⟨_, ⟨hsound, hloose, hchildren.grows.trans hgrows,
        congrArg (fun d => [d]) htop⟩, hnext⟩

end Placing

/-- When all parts of a sound form are placed, an arena has grown whose one top is the root of its
tree. -/
theorem exists_growing_toTree {a : Algorithm} {form : Form} (h : form.Sound a) :
    ∃ cells root, Growing a form.leafCells.length cells [root]
      ∧ form.toTree a = Tree.assemble a cells (List.range form.leafCells.length) root := by
  have hleaves := Growing.of_leaves (a := a) (fun cell hcell => (h.leafCells cell hcell).1)
    fun cell hcell => (h.leafCells cell hcell).2 _
  have hstart : Placing.Sound a form.leafCells ⟨[], [], 0, form.leafCells.length⟩ := by
    refine ⟨?_, Nat.zero_le _, rfl⟩
    simpa [Placing.cells, ← List.range_eq_range'] using hleaves
  obtain ⟨top, hplaced, hnext⟩ := Placing.place_form h hstart (List.append_nil _).symm
  have hend := List.drop_eq_nil_iff.mp hnext
  have hgrowing := hplaced.sound.growing
  rw [Nat.sub_eq_zero_of_le hend, hplaced.loose_eq] at hgrowing
  refine ⟨_, top, hgrowing, ?_⟩
  show Tree.assemble a _ _ _ = _
  rw [parts_eq_postParts]
  have hroot : (form.postParts.foldl Placing.place
      ⟨[], [], 0, form.leafCells.length⟩).loose.headD 0 = top := by
    rw [hplaced.loose_eq]
    rfl
  rw [← hroot]
  rfl

/-- The tree of a sound form is assembled from a plan, with all leaves in front. -/
theorem exists_plan_toTree {a : Algorithm} {form : Form} (h : form.Sound a) :
    ∃ cells root, Planned a cells (List.range form.leafCells.length) root
      ∧ form.toTree a = Tree.assemble a cells (List.range form.leafCells.length) root := by
  obtain ⟨cells, root, hgrowing, htree⟩ := exists_growing_toTree h
  exact ⟨cells, root, hgrowing.planned, htree⟩

/-- The tree of a sound form is assembled from a plan. -/
theorem toTree_made {a : Algorithm} {form : Form} (h : form.Sound a) :
    (form.toTree a).Made := by
  obtain ⟨cells, root, hplan, htree⟩ := exists_plan_toTree h
  rw [htree]
  exact .assembled hplan

end Form

end HashTree
