import HashTree.Proofs.Tree.Unfolding
import HashTree.Tree.Walk

/-!
# Walks over planted links

A walk keeps indices that are still to be named. On planted links these unfold to a list of trees,
and what the walk will name is what those trees hold. So a walk with enough fuel names every index
at or below its start, and names it once.
-/

namespace HashTree

variable {links : Links} {root i : Nat} {r : Rose}

/-! ## §1 How far a walk can go -/

/-- No tree holds more indices than there are. -/
theorem Links.Planted.length_postorder_le (h : links.Planted root) (hr : r.Follows links) :
    r.postorder.length ≤ links.length := by
  have hsubset : r.postorder ⊆ List.range links.length := fun j hj =>
    List.mem_range.mpr (h.descends_lt hr.index_lt (hr.mem_postorder.mp hj))
  simpa using ((h.nodup_postorder hr).subperm hsubset).length_le

/-! ## §2 Level order -/

namespace Walk

/-- With nothing in the queue a walk is over. -/
theorem next?_of_queue_nil {w : Walk} (h : w.queue = []) : w.next? = none := by
  obtain ⟨below, front, back⟩ := w
  obtain ⟨rfl, hback⟩ := List.append_eq_nil_iff.mp h
  simp [next?, hback]

/-- The first of the queue is named next, if it is an index. -/
theorem next?_of_queue_cons {w : Walk} {rest children : List Nat} (h : w.queue = i :: rest)
    (hbelow : w.below[i]? = some children) :
    ∃ next, w.next? = some (i, next) ∧ next.below = w.below
      ∧ next.queue = rest ++ children := by
  -- the first of the queue is at the front, or the back is turned round first
  have hsome : ∃ next, w.next? = some (i, next) := by
    obtain ⟨below, front, back⟩ := w
    cases front with
    | nil =>
      have hback : back.reverse = i :: rest := h
      exact ⟨⟨below, rest, children.reverse⟩, by simpa [next?, hback, visit] using hbelow⟩
    | cons first front =>
      obtain ⟨rfl, -⟩ := List.cons.inj h
      exact ⟨⟨below, front, children.reverse ++ back⟩, by simpa [next?, visit] using hbelow⟩
  obtain ⟨next, hnext⟩ := hsome
  obtain ⟨rest', children', hqueue, hchildren, hkeeps, hthen⟩ := queue_of_next? hnext
  obtain ⟨-, rfl⟩ := List.cons.inj (h.symm.trans hqueue)
  obtain rfl := Option.some.inj (hbelow.symm.trans hchildren)
  exact ⟨next, hnext, hkeeps, hthen⟩

/-- The walk names the indices of the list one after the other, and then its queue is empty. -/
inductive Names : Walk → List Nat → Prop where
  | finished {w : Walk} (h : w.queue = []) : Names w []
  | next {w next : Walk} {index : Nat} {list : List Nat} (h : w.next? = some (index, next))
    (later : Names next list) : Names w (index :: list)

/-- A step takes the first tree of the queue apart: its children go to the end. -/
theorem next?_of_forest {w : Walk} (hbelow : w.below = links.toArray) {cs forest : List Rose}
    (hforest : ∀ r ∈ Rose.node i cs :: forest, r.Follows links)
    (hqueue : w.queue = (Rose.node i cs :: forest).map Rose.index) :
    ∃ next, w.next? = some (i, next) ∧ next.below = links.toArray
      ∧ next.queue = (forest ++ cs).map Rose.index ∧ ∀ r ∈ forest ++ cs, r.Follows links := by
  have hr := hforest _ List.mem_cons_self
  have hchildren : w.below[i]? = some (cs.map Rose.index) := by
    rw [hbelow, List.getElem?_toArray]
    cases hr with
    | node here _ => exact here
  obtain ⟨next, hnext, hkeeps, hthen⟩ := next?_of_queue_cons hqueue hchildren
  refine ⟨next, hnext, hkeeps.trans hbelow, by rw [hthen, List.map_append], fun c hc => ?_⟩
  rcases List.mem_append.mp hc with hc | hc
  · exact hforest c (List.mem_cons_of_mem _ hc)
  · exact hr.of_mem hc

/-- A walk names what the trees in its queue hold, each index as often as they do. -/
theorem collect_perm {w : Walk} (hbelow : w.below = links.toArray) (forest : List Rose)
    (hforest : ∀ r ∈ forest, r.Follows links) (hqueue : w.queue = forest.map Rose.index)
    {fuel : Nat} (hfuel : (forest.flatMap Rose.postorder).length ≤ fuel) (done : List Nat) :
    (collect fuel w done).Perm (done.reverse ++ forest.flatMap Rose.postorder) := by
  induction fuel generalizing w forest done with
  | zero =>
    rw [List.length_eq_zero_iff.mp (Nat.le_zero.mp hfuel), collect, List.append_nil]
  | succ fuel ih =>
    cases forest with
    | nil =>
      rw [collect, next?_of_queue_nil hqueue]
      simp
    | cons r forest =>
      obtain ⟨i, cs⟩ := r
      obtain ⟨next, hnext, hkeeps, hthen, hrest⟩ := next?_of_forest hbelow hforest hqueue
      -- the trees that remain hold one index less, for which the fuel is enough
      have hperm := Rose.flatMap_postorder_perm i cs forest
      have hlength := hperm.length_eq
      rw [List.length_cons] at hlength
      rw [collect, hnext]
      refine (ih hkeeps (forest ++ cs) hrest hthen (by omega) (i :: done)).trans ?_
      rw [List.reverse_cons, List.append_assoc]
      exact (hperm.symm).append_left _

end Walk

namespace Tree

variable {t : Tree}

/-- The level order from an index names what lies at or below it, **each index once**. -/
theorem levelOrderFrom_perm (h : links.Planted root) (hbelow : t.below = links.toArray)
    (hr : r.Follows links) : (t.levelOrderFrom r.index).Perm r.postorder := by
  have hfuel : ([r].flatMap Rose.postorder).length ≤ t.below.size := by
    rw [hbelow, List.size_toArray]
    simpa using h.length_postorder_le hr
  have hperm := Walk.collect_perm (w := Walk.start t.below (some r.index)) hbelow [r]
    (by simpa using hr) rfl hfuel []
  rw [List.flatMap_singleton] at hperm
  exact hperm

/-! ## §3 Postorder -/

/-- The loop over a stack collects the trees on it, the last one first. -/
theorem collectPost_eq (hchildren : ∀ i, t.childrenAt i = links.below i) (stack : List Rose)
    (hstack : ∀ r ∈ stack, r.Follows links) {fuel : Nat}
    (hfuel : (stack.flatMap Rose.postorder).length ≤ fuel) (done : List Nat) :
    t.collectPost fuel (stack.map Rose.index) done
      = stack.reverse.flatMap Rose.postorder ++ done := by
  induction fuel generalizing stack done with
  | zero =>
    have hnil : stack = [] :=
      Rose.eq_nil_of_flatMap_postorder (List.length_eq_zero_iff.mp (Nat.le_zero.mp hfuel))
    rw [hnil]
    rfl
  | succ fuel ih =>
    cases stack with
    | nil => rfl
    | cons r stack =>
      obtain ⟨i, cs⟩ := r
      have hr := hstack _ List.mem_cons_self
      -- an index comes before its children here, and the whole is turned round by collecting
      have hnext := ih (cs.reverse ++ stack)
        (fun c hc => (List.mem_append.mp hc).elim
          (fun hc => hr.of_mem (List.mem_reverse.mp hc))
          fun hc => hstack c (List.mem_cons_of_mem _ hc))
        (by
          have hreverse := (cs.reverse_perm.flatMap_right Rose.postorder).length_eq
          simp only [List.flatMap_cons, List.flatMap_append, List.length_append,
            Rose.postorder_node, List.length_singleton] at hfuel ⊢
          omega) (i :: done)
      rw [List.map_cons, collectPost, Rose.index_node, hchildren, hr.below_eq, ← List.map_reverse,
        ← List.map_append, hnext]
      simp [List.flatMap_append]

/-- The postorder of a tree is that of its unfolding. -/
theorem postorder_eq (h : links.Planted root) (hsize : t.size = links.length)
    (hchildren : ∀ i, t.childrenAt i = links.below i) (hroot : t.root = some r.index)
    (hr : r.Follows links) : t.postorder = r.postorder := by
  have hfuel : ([r].flatMap Rose.postorder).length ≤ t.size := by
    rw [hsize]
    simpa using h.length_postorder_le hr
  have hcollect := collectPost_eq hchildren [r] (by simpa using hr) hfuel []
  rw [postorder, hroot]
  simpa using hcollect

end Tree

end HashTree
