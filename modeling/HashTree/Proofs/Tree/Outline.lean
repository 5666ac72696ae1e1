import HashTree.Proofs.Bytes
import HashTree.Proofs.Tree.LevelOrder
import HashTree.Tree.Outline

/-!
# Outlines

An outline is a recursion: after the line of a node come the lines of its children, each with all
that is below it, behind what passes by on the left. The loop that draws has a stack instead, and one
row of segments for all nodes on it. A subtree may leave anything behind its own depth in the row, but
in front of that depth it leaves the row as it was, and whatever waits on the stack is no deeper.
-/

namespace HashTree

/-! ## §1 Drawings by recursion -/

namespace Rose

mutual

/-- The lines **below the top** of a tree, after an indent. -/
def linesBelow (label : Nat → String) (indent : String) : Rose → List String
  | node _ cs => branchLines label indent cs

/-- The lines of trees that hang **side by side** after an indent: of each the line of its top, and
then those below it. A line passes by these unless the tree is the last one. -/
def branchLines (label : Nat → String) (indent : String) : List Rose → List String
  | [] => []
  | [r] => (indent ++ "└── " ++ label r.index) :: linesBelow label (indent ++ "    ") r
  | r :: next :: rest =>
    (indent ++ "├── " ++ label r.index) :: linesBelow label (indent ++ "│   ") r
      ++ branchLines label indent (next :: rest)

end

/-- The text of a drawing: the label of the top, and below it **one line for each** other index. -/
def drawing (label : Nat → String) (r : Rose) : String :=
  String.join ((label r.index :: r.linesBelow label "").map (· ++ "\n"))

variable {label : Nat → String} {indent : String} {r : Rose} {rest : List Rose}

theorem linesBelow_node (i : Nat) (cs : List Rose) :
    (node i cs).linesBelow label indent = branchLines label indent cs := by
  rw [linesBelow]

open Tree.Pending in
/-- The first of some trees is drawn as a last one where it is alone. -/
theorem branchLines_cons (depth : Nat) : branchLines label indent (r :: rest)
    = ((indent ++ branch ⟨r.index, depth, rest.isEmpty⟩ ++ label r.index)
        :: r.linesBelow label (indent ++ passing ⟨r.index, depth, rest.isEmpty⟩))
      ++ branchLines label indent rest := by
  cases rest with
  | nil => simp [branchLines, branch, passing]
  | cons next rest => simp [branchLines, branch, passing]

/-- There are as many lines as indices. -/
theorem length_linesBelow (r : Rose) : (r.linesBelow label indent).length + 1 = r.postorder.length := by
  induction r using Rose.induction generalizing indent with
  | node i cs ih =>
    rw [linesBelow_node, postorder_node, List.length_append, List.length_singleton]
    congr 1
    induction cs with
    | nil => rw [branchLines]; rfl
    | cons c cs ihcs =>
      rw [branchLines_cons 0, List.flatMap_cons, List.length_append, List.length_append,
        List.length_cons, ih c List.mem_cons_self,
        ihcs fun d hd => ih d (List.mem_cons_of_mem c hd)]

/-- No line is broken, unless a label is. -/
theorem notMem_linesBelow {c : Char} (hc : c ∉ "└── ├── │   ".toList)
    (hlabel : ∀ i, c ∉ (label i).toList) (r : Rose) (hindent : c ∉ indent.toList) :
    ∀ line ∈ r.linesBelow label indent, c ∉ line.toList := by
  induction r using Rose.induction generalizing indent with
  | node i cs ih =>
    rw [linesBelow_node]
    induction cs with
    | nil => simp [branchLines]
    | cons r cs ihcs =>
      have hbranch : ∀ p : Tree.Pending, c ∉ p.branch.toList ∧ c ∉ p.passing.toList := by
        intro p
        simp only [Tree.Pending.branch, Tree.Pending.passing]
        constructor <;> split <;> simp_all
      rw [branchLines_cons 0]
      intro line hline
      rcases List.mem_append.mp hline with hline | hline
      · rcases List.mem_cons.mp hline with rfl | hline
        · simp [hindent, hlabel, hbranch]
        · refine ih r List.mem_cons_self ?_ line hline
          simp [hindent, hbranch]
      · exact ihcs (fun d hd => ih d (List.mem_cons_of_mem r hd)) line hline

end Rose

namespace Tree

variable {t : Tree} {depth steps : Nat} {p : Pending} {pending : List Pending}

/-- The label of the node at an index. -/
def labelAt (t : Tree) (i : Nat) : String := (t.nodes[i]?.map (·.label)).getD ""

/-! ## §2 The loop -/

/-- Of the children of a node the one without others behind it is the last. -/
theorem pendingChildren_cons (c : Nat) (cs : List Nat) : pendingChildren depth (c :: cs)
    = ⟨c, depth, cs.isEmpty⟩ :: pendingChildren depth cs := by
  rw [pendingChildren, List.zipIdx_cons, List.map_cons, List.zipIdx_eq_map_add, List.map_map,
    pendingChildren]
  congr 1
  · cases cs <;> simp
  · refine List.map_congr_left fun entry _ => ?_
    simp
    omega

/-- From a stack with these nodes on top the loop comes to what was below them: it has drawn their
lines behind the segments of their depth, and **left these segments** as they were. -/
def Draws (t : Tree) (depth : Nat) (pending : List Pending) (steps : Nat)
    (lines : String → List String) : Prop :=
  ∀ (fuel : Nat) (rest : List Pending) (segments done : List String), depth ≤ segments.length →
    ∃ segments', segments'.take depth = segments.take depth
      ∧ t.drawLines (steps + fuel) (pending ++ rest) segments done = t.drawLines fuel rest segments'
        ((lines (String.join (segments.take depth))).reverse ++ done)

theorem draws_nil : t.Draws depth [] 0 fun _ => [] := by
  intro fuel rest segments done _
  exact ⟨segments, rfl, by simp⟩

theorem Draws.cons {steps' : Nat} {lines lines' : String → List String}
    (h : t.Draws depth [p] steps lines) (h' : t.Draws depth pending steps' lines') :
    t.Draws depth (p :: pending) (steps + steps') fun indent => lines indent ++ lines' indent := by
  intro fuel rest segments done hdepth
  obtain ⟨between, htake, hfirst⟩ := h (steps' + fuel) (pending ++ rest) segments done hdepth
  -- the row is still long enough, since its front is the old one
  have hlong : depth ≤ between.length := by
    have hlength := congrArg List.length htake
    rw [List.length_take, List.length_take] at hlength
    omega
  obtain ⟨after, htake', hsecond⟩ := h' fuel rest between
    ((lines (String.join (segments.take depth))).reverse ++ done) hlong
  refine ⟨after, htake'.trans htake, ?_⟩
  rw [Nat.add_assoc]
  refine hfirst.trans (hsecond.trans ?_)
  rw [htake, List.reverse_append, List.append_assoc]

/-- The line of a node is drawn **before its children**, for whom one more segment passes by. -/
theorem Draws.branch {n : Node} {lines : String → List String} (hn : t.nodes[p.index]? = some n)
    (h : t.Draws (p.depth + 1) (pendingChildren (p.depth + 1) n.children) steps lines) :
    t.Draws p.depth [p] (steps + 1) fun indent =>
      (indent ++ p.branch ++ n.label) :: lines (indent ++ p.passing) := by
  intro fuel rest segments done hdepth
  have hlength : (segments.take p.depth ++ [p.passing]).length = p.depth + 1 := by
    rw [List.length_append, List.length_take, List.length_singleton, Nat.min_eq_left hdepth]
  have hrow : (segments.take p.depth ++ [p.passing]).take (p.depth + 1)
      = segments.take p.depth ++ [p.passing] := List.take_of_length_le (Nat.le_of_eq hlength)
  obtain ⟨after, htake, hlines⟩ := h fuel rest (segments.take p.depth ++ [p.passing])
    ((String.join (segments.take p.depth) ++ p.branch ++ n.label) :: done)
    (Nat.le_of_eq hlength.symm)
  rw [hrow] at htake hlines
  refine ⟨after, ?_, ?_⟩
  · -- a row that starts with more than these segments starts with them
    have hfront := congrArg (List.take p.depth) htake
    rw [List.take_take, Nat.min_eq_left (Nat.le_succ _)] at hfront
    rw [hfront, List.take_left' (List.length_take_of_le hdepth)]
  · have hsteps : steps + 1 + fuel = steps + fuel + 1 := by omega
    rw [hsteps, List.singleton_append, drawLines, hn]
    refine hlines.trans ?_
    simp

/-- An index that links know has a node with the children they give it. -/
private theorem exists_node {i : Nat} {children : List Nat} (h : t.links[i]? = some children) :
    ∃ n, t.nodes[i]? = some n ∧ n.children = children ∧ t.labelAt i = n.label := by
  rw [links, List.getElem?_map, Option.map_eq_some_iff] at h
  obtain ⟨n, hn, hchildren⟩ := h
  rw [Array.getElem?_toList] at hn
  exact ⟨n, hn, hchildren, by rw [labelAt, hn]; rfl⟩

/-- Trees that are each drawn by the loop are drawn one after the other. -/
private theorem draws_forest {cs : List Rose} (h : ∀ r ∈ cs, ∀ last,
      t.Draws depth [⟨r.index, depth, last⟩] r.postorder.length fun indent =>
        (indent ++ Pending.branch ⟨r.index, depth, last⟩ ++ t.labelAt r.index)
          :: r.linesBelow t.labelAt (indent ++ Pending.passing ⟨r.index, depth, last⟩)) :
    t.Draws depth (pendingChildren depth (cs.map Rose.index)) (cs.flatMap Rose.postorder).length
      fun indent => Rose.branchLines t.labelAt indent cs := by
  induction cs with
  | nil =>
    simp only [Rose.branchLines]
    exact draws_nil
  | cons r cs ih =>
    have hrest := ih fun c hc => h c (List.mem_cons_of_mem r hc)
    rw [List.map_cons, pendingChildren_cons, List.isEmpty_map, List.flatMap_cons,
      List.length_append]
    simp only [Rose.branchLines_cons depth]
    exact (h r List.mem_cons_self _).cons hrest

/-- **The loop draws a tree as the recursion does**, in as many steps as it has indices. -/
theorem draws_rose {r : Rose} (hr : r.Follows t.links) (depth : Nat) (last : Bool) :
    t.Draws depth [⟨r.index, depth, last⟩] r.postorder.length fun indent =>
      (indent ++ Pending.branch ⟨r.index, depth, last⟩ ++ t.labelAt r.index)
        :: r.linesBelow t.labelAt (indent ++ Pending.passing ⟨r.index, depth, last⟩) := by
  induction r using Rose.induction generalizing depth last with
  | node i cs ih =>
    have hforest := draws_forest fun c hc last => ih c hc (hr.of_mem hc) (depth + 1) last
    cases hr with
    | node here _ =>
      obtain ⟨n, hn, hchildren, hlabel⟩ := exists_node here
      rw [← hchildren] at hforest
      rw [Rose.postorder_node, List.length_append, List.length_singleton, Rose.index_node, hlabel]
      simp only [Rose.linesBelow_node]
      exact Draws.branch (p := ⟨i, depth, last⟩) hn hforest

/-- The lines of an outline are those of the recursion. -/
theorem Unfolds.outlineLines_eq {r : Rose} (u : t.Unfolds r) :
    t.outlineLines = t.labelAt r.index :: r.linesBelow t.labelAt "" := by
  have hr := u.follows
  have hsize := (u.planted.postorder_perm hr rfl).length_eq
  rw [List.length_range, length_links] at hsize
  obtain ⟨i, cs⟩ := r
  have hforest := draws_forest fun c hc last => draws_rose (hr.of_mem hc) 0 last
  cases hr with
  | node here _ =>
    obtain ⟨n, hn, hchildren, hlabel⟩ := exists_node here
    rw [← hchildren] at hforest
    rw [Rose.postorder_node, List.length_append, List.length_singleton] at hsize
    obtain ⟨segments, -, hlines⟩ := hforest 1 [] [] [] (Nat.zero_le _)
    have hroot : (t.root.bind fun i => t.nodes[i]?) = some n := by
      rw [u.root_eq, Option.bind_some, Rose.index_node, hn]
    rw [List.append_nil, List.append_nil, drawLines, List.reverse_reverse, List.take_nil,
      String.join_nil] at hlines
    · rw [outlineLines, hroot, size, ← hsize, Rose.index_node, hlabel, Rose.linesBelow_node]
      exact congrArg (n.label :: ·) hlines
    · exact Nat.one_ne_zero

/-! ## §3 Outlines of trees -/

theorem Formed.length_labelAt {root i : Nat} (h : t.Formed root) (hi : i < t.size) :
    (t.labelAt i).length = 8 := by
  have hn : t.nodes[i]? = some t.nodes[i] := Array.getElem?_eq_getElem hi
  have hlength := h.digest_length _ (Array.getElem_mem hi)
  have hsize : 4 ≤ t.algorithm.digestSize := by cases t.algorithm <;> decide
  rw [labelAt, hn, Option.map_some, Option.getD_some, Node.label, Digest.label, Hex.length_encode,
    List.length_take, hlength, Nat.min_eq_left hsize]

/-- A label is hexadecimal, so it breaks no line. -/
theorem newline_notMem_labelAt (t : Tree) (i : Nat) : '\n' ∉ (t.labelAt i).toList := by
  have hdigits : ∀ n < 16, '\n' ≠ Hex.digit n := by decide
  rw [labelAt]
  cases t.nodes[i]? with
  | none => simp
  | some n =>
    intro hmem
    obtain ⟨k, hk, heq⟩ := Hex.exists_digit_of_mem_encode hmem
    exact hdigits k hk heq

/-- A text of unbroken lines has as many line ends as lines. -/
theorem count_newline_join {lines : List String} (h : ∀ line ∈ lines, '\n' ∉ line.toList) :
    (String.join (lines.map (· ++ "\n"))).toList.count '\n' = lines.length := by
  induction lines with
  | nil => rfl
  | cons line lines ih =>
    have hline := List.count_eq_zero.mpr (h line List.mem_cons_self)
    rw [List.map_cons, String.join_cons, String.toList_append, List.count_append,
      ih fun l hl => h l (List.mem_cons_of_mem line hl), String.toList_append, List.count_append,
      hline, List.length_cons, Nat.add_comm]
    rfl

/-- **The outline of a tree is the drawing by recursion**: the label of the root, eight characters
as every label, and below it the children from left to right, each with all that hangs from it behind
what passes by on the left. There is one line a node. -/
theorem Reachable.outline_eq_drawing (h : t.Reachable) (hne : t.size ≠ 0) :
    ∃ r : Rose, t.root = some r.index ∧ r.Follows t.links ∧ t.outline = r.drawing t.labelAt
      ∧ t.outline.toList.count '\n' = t.size ∧ ∀ i < t.size, (t.labelAt i).length = 8 := by
  rcases h.wellFormed with ⟨hnodes, -, -⟩ | ⟨root, hformed⟩
  · exact absurd (by rw [size, hnodes]; rfl) hne
  obtain ⟨r, rfl, u⟩ := h.made.unfolds hformed.root_eq
  have hlines := u.outlineLines_eq
  have hcount := (u.planted.postorder_perm u.follows rfl).length_eq
  rw [List.length_range, length_links] at hcount
  have hunbroken : ∀ line ∈ t.outlineLines, '\n' ∉ line.toList := by
    rw [hlines]
    refine List.forall_mem_cons.mpr ⟨t.newline_notMem_labelAt _, ?_⟩
    exact r.notMem_linesBelow (by decide) t.newline_notMem_labelAt (by simp)
  refine ⟨r, hformed.root_eq, u.follows, ?_, ?_, fun i hi => hformed.length_labelAt hi⟩
  · rw [outline, hlines, Rose.drawing]
  · rw [outline, count_newline_join hunbroken, hlines, List.length_cons, r.length_linesBelow, hcount,
      size]

/-- In the outline of three items the line below the first branch stands beside the first two. -/
theorem Reachable.outline_eq_drawing_three :
    ∃ label : Nat → String, (∀ i < 5, (label i).length = 8)
      ∧ (Tree.ofItems .sha1 true [[1], [2], [3]]).outline = String.join
          ([label 4, "├── " ++ label 3, "│   ├── " ++ label 0, "│   └── " ++ label 1,
            "└── " ++ label 2].map (· ++ "\n")) := by
  obtain ⟨cells, htree, hlinks⟩ := exists_cells_three
  have hsize : (Tree.ofItems .sha1 true [[1], [2], [3]]).size = 5 := by
    rw [size, ← length_links, htree, links_assemble, hlinks]
    rfl
  obtain ⟨r, hroot, hfollows, hdrawing, -, hlabels⟩ :=
    (Reachable.ofItems .sha1 true [[1], [2], [3]]).outline_eq_drawing (by rw [hsize]; decide)
  have hindex : r.index = 4 := by
    rw [htree] at hroot
    exact (Option.some.inj hroot).symm
  have hshape : r = .node 4 [.node 3 [.node 0 [], .node 1 []], .node 2 []] := by
    refine hfollows.unique ?_ hindex
    rw [htree, links_assemble, hlinks]
    have hleaf : ∀ i, i = 0 ∨ i = 1 ∨ i = 2 →
        Rose.Follows [[], [], [], [0, 1], [3, 2]] (.node i []) := by
      rintro i (rfl | rfl | rfl) <;> exact .node rfl (List.forall_mem_nil _)
    have hfirst : Rose.Follows [[], [], [], [0, 1], [3, 2]] (.node 3 [.node 0 [], .node 1 []]) :=
      .node rfl (by simp [hleaf])
    exact .node rfl (by simp [hleaf, hfirst])
  refine ⟨_, by rwa [hsize] at hlabels, ?_⟩
  rw [hdrawing, hshape]
  rfl

end Tree

end HashTree
