import HashTree.Proofs.Tree.Reachable
import HashTree.Proofs.Tree.Shape
import Mathlib.Data.List.Flatten
import Mathlib.Data.List.Nodup

/-!
# Level order

A walk keeps no record of where it has been; all it has is a queue. On planted links that is enough.
While the indices of one depth are taken from the front, their children gather behind them in the
order of their parents, so the queue passes from level to level, names every index below its start
once and is empty in the end. From then on there is nothing to be named any more.
-/

namespace HashTree

variable {links : Links} {root i j p q d e : Nat}

/-! ## §1 Depth and order -/

/-- The first index stands **before** the second one in a list. -/
abbrev Before (list : List Nat) (i j : Nat) : Prop := [i, j].Sublist list

/-- In lists put one behind the other, an index stands before another one in one of them, or its list
comes before the other's. -/
theorem before_flatMap_iff {list : List Nat} {f : Nat → List Nat} :
    Before (list.flatMap f) i j
      ↔ (∃ x ∈ list, Before (f x) i j) ∨ ∃ x y, Before list x y ∧ i ∈ f x ∧ j ∈ f y := by
  constructor
  · intro h
    induction list with
    | nil => exact absurd h (by simp)
    | cons x list ih =>
      rw [List.flatMap_cons] at h
      obtain ⟨front, back, hpair, hfront, hback⟩ := List.sublist_append_iff.mp h
      -- none of the two, the first one or both stand in the first list
      rcases front with - | ⟨a, - | ⟨b, rest⟩⟩
      · obtain rfl : [i, j] = back := hpair
        rcases ih hback with ⟨y, hy, hij⟩ | ⟨y, z, hyz, hi, hj⟩
        · exact Or.inl ⟨y, List.mem_cons_of_mem x hy, hij⟩
        · exact Or.inr ⟨y, z, hyz.cons x, hi, hj⟩
      · obtain ⟨rfl, rfl⟩ := List.cons.inj hpair
        obtain ⟨y, hy, hj⟩ := List.mem_flatMap.mp (List.singleton_sublist.mp hback)
        exact Or.inr ⟨x, y, (List.singleton_sublist.mpr hy).cons_cons x,
          List.singleton_sublist.mp hfront, hj⟩
      · simp only [List.cons_append, List.cons.injEq, List.nil_eq, List.append_eq_nil_iff] at hpair
        obtain ⟨rfl, rfl, rfl, -⟩ := hpair
        exact Or.inl ⟨x, List.mem_cons_self, hfront⟩
  · rintro (⟨x, hx, hij⟩ | ⟨x, y, hxy, hi, hj⟩)
    · have hone := (List.singleton_sublist.mpr hx).flatMap f
      rw [List.flatMap_singleton] at hone
      exact hij.trans hone
    · refine List.Sublist.trans ?_ (hxy.flatMap f)
      simp only [List.flatMap_cons, List.flatMap_nil, List.append_nil]
      exact (List.singleton_sublist.mpr hi).append (List.singleton_sublist.mpr hj)

/-- Numbers stand in a range by their size. -/
theorem before_range {n : Nat} (h : d < e) (he : e < n) : Before (List.range n) d e := by
  induction n with
  | zero => exact absurd he (Nat.not_lt_zero e)
  | succ n ih =>
    rw [List.range_succ]
    rcases Nat.lt_succ_iff_lt_or_eq.mp he with he | rfl
    · exact (ih he).trans (List.sublist_append_left _ _)
    · exact (List.singleton_sublist.mpr (List.mem_range.mpr h)).append (List.Sublist.refl [e])

namespace Links

/-- An index lies **so many steps** below the root. -/
inductive AtDepth (links : Links) (root : Nat) : Nat → Nat → Prop where
  | root : AtDepth links root 0 root
  | child {depth p c : Nat} (hp : AtDepth links root depth p) (hc : links.Child p c) :
    AtDepth links root (depth + 1) c

/-- The order **from level to level, and from left to right in each**. -/
inductive Earlier (links : Links) (root : Nat) : Nat → Nat → Prop where
  /-- An index comes before those that lie deeper. -/
  | higher {i j d e : Nat} (hi : links.AtDepth root d i) (hj : links.AtDepth root e j)
    (h : d < e) : Earlier links root i j
  /-- The children of one index come in their order. -/
  | siblings {p i j d : Nat} (hp : links.AtDepth root d p) (h : Before (links.below p) i j) :
    Earlier links root i j
  /-- The children of different indices of one depth come in the order of these. -/
  | cousins {p q i j d : Nat} (hp : links.AtDepth root d p) (hq : links.AtDepth root d q)
    (h : Earlier links root p q) (hi : links.Child p i) (hj : links.Child q j) :
    Earlier links root i j

theorem AtDepth.descends (h : links.AtDepth root d i) : links.Descends root i := by
  induction h with
  | root => exact .refl
  | child _ hc ih => exact ih.tail hc

theorem Descends.exists_atDepth (h : links.Descends root i) : ∃ d, links.AtDepth root d i := by
  induction h with
  | refl => exact ⟨0, .root⟩
  | tail _ hc ih =>
    obtain ⟨d, hd⟩ := ih
    exact ⟨d + 1, hd.child hc⟩

/-- On planted links an index has **one depth**. -/
theorem Planted.depth_unique {top : Nat} (h : links.Planted top) (hd : links.AtDepth root d i)
    (he : links.AtDepth root e i) : d = e := by
  induction hd generalizing e with
  | root =>
    cases he with
    | root => rfl
    | child hp hc => exact absurd hp.descends (h.not_descends hc)
  | child hp hc ih =>
    cases he with
    | root => exact absurd hp.descends (h.not_descends hc)
    | child hq hc' =>
      rw [hc.unique h.nodup_flatten hc'] at ih
      rw [ih hq]

/-! ## §2 Levels -/

/-- The indices of one depth: the root, and then always the children of those above. -/
def level (links : Links) (root : Nat) : Nat → List Nat
  | 0 => [root]
  | depth + 1 => (level links root depth).flatMap links.below

theorem mem_level_iff : i ∈ links.level root d ↔ links.AtDepth root d i := by
  induction d generalizing i with
  | zero =>
    rw [level, List.mem_singleton]
    constructor
    · rintro rfl
      exact .root
    · intro h
      cases h
      rfl
  | succ d ih =>
    rw [level, List.mem_flatMap]
    constructor
    · rintro ⟨p, hp, hc⟩
      exact (ih.mp hp).child hc
    · intro h
      cases h with
      | child hp hc => exact ⟨_, ih.mpr hp, hc⟩

/-- What stands before in a level is earlier. -/
theorem earlier_of_before_level (h : Before (links.level root d) i j) :
    links.Earlier root i j := by
  induction d generalizing i j with
  | zero =>
    have hlength := h.length_le
    simp [level] at hlength
  | succ d ih =>
    rcases before_flatMap_iff.mp h with ⟨p, hp, hij⟩ | ⟨p, q, hpq, hi, hj⟩
    · exact .siblings (mem_level_iff.mp hp) hij
    · have hp : p ∈ links.level root d := hpq.subset (by simp)
      have hq : q ∈ links.level root d := hpq.subset (by simp)
      exact .cousins (mem_level_iff.mp hp) (mem_level_iff.mp hq) (ih hpq) hi hj

/-- What is earlier stands before in a level, or in a level above. -/
theorem Planted.before_level_of_earlier {top : Nat} (h : links.Planted top)
    (hij : links.Earlier root i j) : (∃ d, Before (links.level root d) i j)
      ∨ ∃ d e, d < e ∧ i ∈ links.level root d ∧ j ∈ links.level root e := by
  induction hij with
  | higher hi hj hlt => exact Or.inr ⟨_, _, hlt, mem_level_iff.mpr hi, mem_level_iff.mpr hj⟩
  | @siblings p i j d hp hij =>
    exact Or.inl ⟨d + 1, before_flatMap_iff.mpr (Or.inl ⟨p, mem_level_iff.mpr hp, hij⟩)⟩
  | cousins hp hq _ hi hj ih =>
    rcases ih with ⟨d, hpq⟩ | ⟨d, e, hlt, hp', hq'⟩
    · exact Or.inl ⟨d + 1, before_flatMap_iff.mpr (Or.inr ⟨_, _, hpq, hi, hj⟩)⟩
    · -- both parents have the same depth
      obtain rfl := h.depth_unique hp (mem_level_iff.mp hp')
      obtain rfl := h.depth_unique hq (mem_level_iff.mp hq')
      exact absurd hlt (Nat.lt_irrefl _)

end Links

/-! ## §3 What a walk names -/

namespace Walk

variable {w : Walk} {list rest : List Nat}

/-- With enough fuel all is collected that the walk names. -/
theorem names_collect (hbelow : w.below = links.toArray) (forest : List Rose)
    (hforest : ∀ r ∈ forest, r.Follows links) (hqueue : w.queue = forest.map Rose.index)
    {fuel : Nat} (hfuel : (forest.flatMap Rose.postorder).length ≤ fuel) (done : List Nat) :
    ∃ list, collect fuel w done = done.reverse ++ list ∧ Names w list := by
  induction fuel generalizing w forest done with
  | zero =>
    have hnil := Rose.eq_nil_of_flatMap_postorder (List.length_eq_zero_iff.mp (Nat.le_zero.mp hfuel))
    rw [hnil] at hqueue
    exact ⟨[], by simp [collect], .finished hqueue⟩
  | succ fuel ih =>
    cases forest with
    | nil => exact ⟨[], by simp [collect, next?_of_queue_nil hqueue], .finished hqueue⟩
    | cons r forest =>
      obtain ⟨i, cs⟩ := r
      obtain ⟨next, hnext, hkeeps, hthen, hrest⟩ := next?_of_forest hbelow hforest hqueue
      have hlength := (Rose.flatMap_postorder_perm i cs forest).length_eq
      rw [List.length_cons] at hlength
      obtain ⟨list, hlist, hnames⟩ := ih hkeeps (forest ++ cs) hrest hthen (by omega) (i :: done)
      refine ⟨i :: list, ?_, .next hnext hnames⟩
      simp [collect, hnext, hlist]

/-- The first of the queue is named first. -/
theorem Names.head?_eq (h : Names w list) : list.head? = w.queue.head? := by
  cases h with
  | finished hnil => rw [hnil]
  | next hnext _ =>
    obtain ⟨rest, children, hstart, -⟩ := queue_of_next? hnext
    rw [hstart, List.head?_cons, List.head?_cons]

/-- A walk that starts with the indices in the front of its queue names these first. Meanwhile their
children gather **at the back, in the order of their parents**. -/
theorem Names.exists_front (h : Names w list) (hbelow : w.below = links.toArray)
    {front back : List Nat} (hqueue : w.queue = front ++ back) :
    ∃ next later, list = front ++ later ∧ Names next later ∧ next.below = links.toArray
      ∧ next.queue = back ++ front.flatMap links.below := by
  induction front generalizing w list back with
  | nil => exact ⟨w, list, rfl, h, hbelow, by simpa using hqueue⟩
  | cons i front ih =>
    cases h with
    | finished hnil =>
      rw [hnil] at hqueue
      exact absurd hqueue.symm (List.cons_ne_nil _ _)
    | next hnext hlater =>
      obtain ⟨rest, children, hstart, hchildren, hkeeps, hthen⟩ := queue_of_next? hnext
      rw [hstart, List.cons_append] at hqueue
      obtain ⟨rfl, rfl⟩ := List.cons.inj hqueue
      rw [hbelow, List.getElem?_toArray] at hchildren
      have hbelow' := hkeeps.trans hbelow
      rw [List.append_assoc] at hthen
      obtain ⟨last, later, rfl, hnames, hlast, hend⟩ := ih hlater hbelow' hthen
      refine ⟨last, later, rfl, hnames, hlast, ?_⟩
      rw [hend, List.flatMap_cons, Links.below_eq_of_getElem? hchildren, List.append_assoc]

/-- A walk that has a level in its queue goes on **level by level**. -/
theorem Names.exists_levels (h : Names w list) (hbelow : w.below = links.toArray)
    (hqueue : w.queue = links.level root d) :
    ∃ n, list = (List.range' d n).flatMap (links.level root) := by
  induction hn : list.length using Nat.strong_induction_on generalizing w list d with
  | _ n ih =>
    by_cases hnil : links.level root d = []
    · cases h with
      | finished _ => exact ⟨0, rfl⟩
      | next hnext _ =>
        obtain ⟨rest, children, hstart, -⟩ := queue_of_next? hnext
        rw [hqueue, hnil] at hstart
        exact absurd hstart.symm (List.cons_ne_nil _ _)
    · -- the level is named, its children are the next one, and less is left
      rw [← List.append_nil (links.level root d)] at hqueue
      obtain ⟨next, later, rfl, hnames, hkeeps, hthen⟩ := h.exists_front hbelow hqueue
      have hpos := List.length_pos_iff.mpr hnil
      rw [List.length_append] at hn
      obtain ⟨n', rfl⟩ := ih later.length (by omega) (d := d + 1) hnames hkeeps hthen rfl
      exact ⟨n' + 1, by rw [List.range'_succ, List.flatMap_cons]⟩

/-! ## §4 Calls -/

/-- What a call answers **after so many others**. -/
def answer {α : Type} (call : Walk → Option α × Walk) : Nat → Walk → Option α
  | 0, w => (call w).1
  | n + 1, w => answer call n (call w).2

theorem call_of_queue_nil (h : w.queue = []) : w.call = (none, ⟨w.below, [], []⟩) := by
  rw [call, next?_of_queue_nil h, h]
  rfl

/-- With nothing in the queue every call answers that there is nothing. -/
theorem answer_of_queue_nil (h : w.queue = []) (n : Nat) : answer call n w = none := by
  induction n generalizing w with
  | zero => rw [answer, call_of_queue_nil h]
  | succ n ih =>
    rw [answer, call_of_queue_nil h]
    exact ih rfl

/-- The calls answer what the walk names, **and nothing ever after**. -/
theorem Names.answer_eq (h : Names w list) (n : Nat) : answer call n w = list[n]? := by
  induction h generalizing n with
  | finished hnil => simpa using answer_of_queue_nil hnil n
  | next hnext _ ih =>
    cases n with
    | zero => simp [answer, call, hnext]
    | succ n => simpa [answer, call, hnext] using ih n

/-- The nodes are answered at the indices that are answered. -/
theorem answer_callNode (t : Tree) (n : Nat) (w : Walk) :
    answer t.callNode n w = (answer call n w).bind fun i => t.nodes[i]? := by
  induction n generalizing w with
  | zero => rfl
  | succ n ih => exact ih w.call.2

end Walk

/-! ## §5 Walks of trees -/

namespace Tree

variable {t : Tree}

/-- Where all indices are those of nodes, no index is passed over. -/
theorem map_some_nodesAt {list : List Nat} (hlt : ∀ i ∈ list, i < t.nodes.size) :
    (t.nodesAt list).map some = list.map fun i => t.nodes[i]? := by
  induction list with
  | nil => rfl
  | cons i list ih =>
    obtain ⟨hi, hlist⟩ := List.forall_mem_cons.mp hlt
    rw [nodesAt] at ih ⊢
    rw [List.filterMap_cons, Array.getElem?_eq_getElem hi, List.map_cons, List.map_cons,
      ih hlist, Array.getElem?_eq_getElem hi]

/-- A walk names, from a start, all that lies below it, once and in level order. -/
structure LevelWalk (t : Tree) (start : Option Nat) (order : List Nat) : Prop where
  /-- The calls answer the list, and after its end they answer nothing for ever. -/
  answer_eq : ∀ n, Walk.answer Walk.call n (.start t.below start) = order[n]?
  /-- Where nodes are wanted, they are those at the indices of the list. -/
  answerNode_eq : ∀ n, Walk.answer t.callNode n (.start t.below start)
    = order[n]?.bind fun i => t.nodes[i]?
  /-- Every index of the list has a node. -/
  nodesAt_eq : (t.nodesAt order).map some = order.map fun i => t.nodes[i]?
  head_eq : order.head? = start
  nodup : order.Nodup
  mem_iff : ∀ j, j ∈ order ↔ ∃ i ∈ start, t.links.Descends i j
  depth_unique : ∀ i ∈ start, ∀ j ∈ order, ∃! d, t.links.AtDepth i d j
  before_iff : ∀ i ∈ start, ∀ j k, Before order j k ↔ t.links.Earlier i j k

section Planted

variable (h : t.links.Planted root) (hi : i < t.nodes.size)
include h hi

/-- The walk from an index has the indices at and below it. -/
theorem names_levelOrderFrom : Walk.Names (.start t.below (some i)) (t.levelOrderFrom i) := by
  rw [← length_links] at hi
  obtain ⟨r, rfl, hr⟩ := h.exists_follows hi
  have hfuel : ([r].flatMap Rose.postorder).length ≤ t.below.size := by
    rw [t.below_eq, List.size_toArray]
    simpa using h.length_postorder_le hr
  obtain ⟨list, hlist, hnames⟩ := Walk.names_collect (w := .start t.below (some r.index))
    t.below_eq [r] (by simpa using hr) rfl hfuel []
  obtain rfl : t.levelOrderFrom r.index = list := hlist
  exact hnames

theorem nodup_levelOrderFrom : (t.levelOrderFrom i).Nodup := by
  rw [← length_links] at hi
  obtain ⟨r, rfl, hr⟩ := h.exists_follows hi
  exact (levelOrderFrom_perm h t.below_eq hr).nodup_iff.mpr (h.nodup_postorder hr)

theorem mem_levelOrderFrom_iff : j ∈ t.levelOrderFrom i ↔ t.links.Descends i j := by
  rw [← length_links] at hi
  obtain ⟨r, rfl, hr⟩ := h.exists_follows hi
  rw [(levelOrderFrom_perm h t.below_eq hr).mem_iff, hr.mem_postorder]

/-- **What is earlier stands before.** -/
theorem before_levelOrderFrom_iff :
    Before (t.levelOrderFrom i) j p ↔ t.links.Earlier i j p := by
  have hnames := names_levelOrderFrom h hi
  have hstart : (Walk.start t.below (some i)).queue = t.links.level i 0 := rfl
  obtain ⟨n, hlevels⟩ := hnames.exists_levels t.below_eq hstart
  rw [← List.range_eq_range'] at hlevels
  -- the levels that are not empty are those in the list
  have hlt : ∀ {d j}, j ∈ t.links.level i d → d < n := by
    intro d j hj
    have hdepth := Links.mem_level_iff.mp hj
    have hlist := (mem_levelOrderFrom_iff h hi).mpr hdepth.descends
    rw [hlevels] at hlist
    obtain ⟨e, he, hj'⟩ := List.mem_flatMap.mp hlist
    rw [h.depth_unique hdepth (Links.mem_level_iff.mp hj')]
    exact List.mem_range.mp he
  rw [hlevels, before_flatMap_iff]
  constructor
  · rintro (⟨d, -, hjp⟩ | ⟨d, e, hde, hj, hp⟩)
    · exact Links.earlier_of_before_level hjp
    · have hdepths := List.pairwise_iff_forall_sublist.mp List.pairwise_lt_range hde
      exact .higher (Links.mem_level_iff.mp hj) (Links.mem_level_iff.mp hp) hdepths
  · intro hjp
    rcases h.before_level_of_earlier hjp with ⟨d, hjp⟩ | ⟨d, e, hde, hj, hp⟩
    · have hj : j ∈ t.links.level i d := hjp.subset (by simp)
      exact Or.inl ⟨d, List.mem_range.mpr (hlt hj), hjp⟩
    · exact Or.inr ⟨d, e, before_range hde (hlt hp), hj, hp⟩

/-- From any index of planted links the walk is a level walk. -/
theorem levelWalk_from : t.LevelWalk (some i) (t.levelOrderFrom i) := by
  have hnames := names_levelOrderFrom h hi
  have hlt : ∀ j ∈ t.levelOrderFrom i, j < t.nodes.size := by
    intro j hj
    rw [← length_links] at hi ⊢
    exact h.descends_lt hi ((mem_levelOrderFrom_iff h (by simpa using hi)).mp hj)
  refine ⟨hnames.answer_eq, fun n => ?_, map_some_nodesAt hlt, hnames.head?_eq,
    nodup_levelOrderFrom h hi, fun j => ?_, fun k hk j hj => ?_, fun k hk j p => ?_⟩
  · rw [Walk.answer_callNode, hnames.answer_eq]
  · simpa using mem_levelOrderFrom_iff h hi
  · obtain rfl := Option.mem_some_iff.mp hk
    obtain ⟨d, hd⟩ := ((mem_levelOrderFrom_iff h hi).mp hj).exists_atDepth
    exact ⟨d, hd, fun e he => h.depth_unique he hd⟩
  · obtain rfl := Option.mem_some_iff.mp hk
    exact before_levelOrderFrom_iff h hi

end Planted

/-- Without a start there is nothing to be named. -/
theorem levelWalk_none (t : Tree) : t.LevelWalk none [] := by
  have hnames : Walk.Names (.start t.below none) [] := .finished rfl
  refine ⟨hnames.answer_eq, fun n => ?_, rfl, rfl, List.nodup_nil, by simp, by simp, by simp⟩
  rw [Walk.answer_callNode, hnames.answer_eq]

/-- **The walk of a tree is its level order.** From the root it names every index of the arena once,
by depth and in one depth by the order of the parents, then by the place among the children of one
parent; afterwards it answers nothing, however often it is called. From the top of a subtree it does
the same for what lies below. -/
theorem Reachable.levelWalk (h : t.Reachable) :
    t.LevelWalk t.root t.levelOrder ∧ t.levelOrder.Perm (List.range t.size)
      ∧ ∀ s : Subtree, s.tree = t → t.LevelWalk (some s.root) s.levelOrder := by
  cases hroot : t.root with
  | none =>
    have horder : t.levelOrder = [] := by
      rw [levelOrder, walk, hroot, Walk.toList]
      cases (Walk.start t.below none).below.size <;> rfl
    have hnodes : t.nodes = #[] := by
      rcases h.wellFormed with ⟨hnodes, -, -⟩ | ⟨root, hformed⟩
      · exact hnodes
      · rw [hformed.root_eq] at hroot
        cases hroot
    refine ⟨?_, ?_, fun s hs => ?_⟩
    · rw [horder]
      exact t.levelWalk_none
    · simp [horder, size, hnodes]
    · have hlt := s.root_lt
      rw [hs, hnodes] at hlt
      exact absurd hlt (Nat.not_lt_zero _)
  | some root =>
    obtain ⟨r, rfl, u⟩ := h.made.unfolds hroot
    have horder : t.levelOrder = t.levelOrderFrom r.index := by
      rw [levelOrder, walk, hroot, levelOrderFrom]
    have hlt := u.planted.root_lt
    rw [length_links] at hlt
    refine ⟨?_, ?_, fun s hs => ?_⟩
    · rw [horder]
      exact levelWalk_from u.planted hlt
    · rw [horder, size, ← length_links]
      exact (levelOrderFrom_perm u.planted t.below_eq u.follows).trans
        (u.planted.postorder_perm u.follows rfl)
    · subst hs
      exact levelWalk_from u.planted s.root_lt

/-- The tree of three items joins the first two, and both with the third. -/
theorem exists_cells_three : ∃ cells, Tree.ofItems .sha1 true [[1], [2], [3]]
      = assemble .sha1 cells [0, 1, 2] 4
    ∧ Cell.links cells = [[], [], [], [0, 1], [3, 2]] :=
  ⟨_, by simp [Tree.ofItems, Growth.grow, Growth.pairUp, Growth.join]; rfl, rfl⟩

/-- In the tree of three items the third one lies above the others, and is named before them. -/
theorem Reachable.levelWalk_three :
    (Tree.ofItems .sha1 true [[1], [2], [3]]).LevelWalk (some 4) [4, 3, 2, 0, 1]
      ∧ [4, 3, 2, 0, 1].Perm (List.range (Tree.ofItems .sha1 true [[1], [2], [3]]).size)
      ∧ (Tree.ofItems .sha1 true [[1], [2], [3]]).LevelWalk (some 3) [3, 0, 1] := by
  obtain ⟨hwalk, hperm, hbelow⟩ := (Reachable.ofItems .sha1 true [[1], [2], [3]]).levelWalk
  have hpart := hbelow ⟨_, 3, three_lt_size_ofItems⟩ rfl
  -- all that the orders depend on is the child lists and the root
  obtain ⟨cells, htree, hlinks⟩ := exists_cells_three
  have hroot : (Tree.ofItems .sha1 true [[1], [2], [3]]).root = some 4 := by
    rw [htree]
    rfl
  have horder : (Tree.ofItems .sha1 true [[1], [2], [3]]).levelOrder = [4, 3, 2, 0, 1] := by
    rw [levelOrder, walk, hroot, below_eq, htree, links_assemble, hlinks]
    decide
  have hthree : (Tree.ofItems .sha1 true [[1], [2], [3]]).levelOrderFrom 3 = [3, 0, 1] := by
    rw [levelOrderFrom, below_eq, htree, links_assemble, hlinks]
    decide
  rw [Subtree.levelOrder, hthree] at hpart
  rw [horder, hroot] at hwalk
  rw [horder] at hperm
  exact ⟨hwalk, hperm, hpart⟩

end Tree

end HashTree
