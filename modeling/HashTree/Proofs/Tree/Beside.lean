import HashTree.Proofs.Tree.Embedded
import HashTree.Tree.Levels
import Mathlib.Algebra.Group.Nat.Defs
import Mathlib.Data.List.Induction

/-!
# Levels side by side

Two states of growth can stand inside a third one whose tops are those of the first followed by
those of the second. As long as the first part has an even number of tops, no pair crosses from one
part to the other: making the next level outside makes the next level of each part. So when the
first part has a power of two of tops, and the second no more, both grow to single tops that are
joined at the end.
-/

namespace HashTree

/-- A top whose index is renamed. -/
def Top.rename (f : Nat → Nat) (top : Top) : Top := ⟨f top.index, top.digest⟩

namespace Growth

variable {a : Algorithm}

/-! ## §1 Making the next level -/

/-- The cell of the parent of some tops. -/
def joined (a : Algorithm) (children : List Top) : Cell :=
  ⟨a.digest (children.flatMap (·.digest)), .internal (children.map (·.index))⟩

/-- A join puts its cell at the end. -/
theorem reverse_cells_join (g : Growth) (children : List Top) :
    (g.join a children).2.cells.reverse = g.cells.reverse ++ [joined a children] :=
  List.reverse_cons

/-- The parent of renamed tops is the renamed parent. -/
theorem joined_rename (f : Nat → Nat) (children : List Top) :
    joined a (children.map (Top.rename f)) = (joined a children).rename f := by
  simp [joined, Cell.rename, Content.rename, Top.rename, List.flatMap_map, Function.comp_def]

/-- The first two nodes are joined and done. -/
theorem pairUp_step (g : Growth) (left right : Top) (rest done : List Top) :
    pairUp a g (left :: right :: rest) done
      = pairUp a (g.join a [left, right]).2 rest ((g.join a [left, right]).1 :: done) := rfl

/-- Nodes that are done stand in front of the next level and **change nothing else**. -/
theorem pairUp_done (g : Growth) (level done : List Top) : pairUp a g level done
    = (done.reverse ++ (pairUp a g level []).1, (pairUp a g level []).2) := by
  induction level using List.twoStepInduction generalizing g done with
  | nil => simp [pairUp]
  | singleton single => simp [pairUp]
  | cons_cons left right rest ih _ =>
    rw [pairUp_step, pairUp_step, ih, ih _ [_]]
    simp

/-- The next level begins with the join of the first two nodes. -/
theorem pairUp_cons_cons (g : Growth) (left right : Top) (rest : List Top) :
    pairUp a g (left :: right :: rest) []
      = ((g.join a [left, right]).1 :: (pairUp a (g.join a [left, right]).2 rest []).1,
        (pairUp a (g.join a [left, right]).2 rest []).2) := by
  rw [pairUp_step, pairUp_done]
  rfl

/-- **No pair crosses** from an even number of nodes to those behind them. -/
theorem pairUp_append (g : Growth) (level more : List Top) (heven : level.length % 2 = 0) :
    pairUp a g (level ++ more) []
      = ((pairUp a g level []).1 ++ (pairUp a (pairUp a g level []).2 more []).1,
        (pairUp a (pairUp a g level []).2 more []).2) := by
  induction level using List.twoStepInduction generalizing g with
  | nil => rfl
  | singleton single => simp at heven
  | cons_cons left right rest ih _ =>
    have hrest : rest.length % 2 = 0 := by
      simp only [List.length_cons] at heven
      omega
    rw [List.cons_append, List.cons_append, pairUp_cons_cons, pairUp_cons_cons, ih _ hrest]
    rfl

theorem grow_single (g : Growth) (top : Top) : grow a g [top] = (some top, g) := by
  rw [grow]

/-- Making the next level first changes nothing. -/
theorem grow_pairUp (g : Growth) (level : List Top) :
    grow a (pairUp a g level []).2 (pairUp a g level []).1 = grow a g level := by
  rcases level with - | ⟨left, - | ⟨right, rest⟩⟩
  · rfl
  · rfl
  · rw [grow.eq_def a g (left :: right :: rest)]

/-! ## §2 Growing inside -/

/-- A state of growth, with some of its tops, **inside** another one. -/
structure Inside (f : Nat → Nat) (part whole : Growth) (tops others : List Top) : Prop where
  embeds : Embeds f part.cells.reverse whole.cells.reverse
  length_part : part.cells.length = part.count
  length_whole : whole.cells.length = whole.count
  top_lt : ∀ top ∈ tops, top.index < part.count
  others_eq : others = tops.map (Top.rename f)

namespace Inside

variable {f f' : Nat → Nat} {part whole : Growth} {tops others : List Top} {top left right : Top}

/-- A join outside changes nothing. -/
theorem join_outside (h : Inside f part whole tops others) (children : List Top) :
    Inside f part (whole.join a children).2 tops others where
  embeds := by
    rw [reverse_cells_join]
    exact h.embeds.append _
  length_part := h.length_part
  length_whole := congrArg (· + 1) h.length_whole
  top_lt := h.top_lt
  others_eq := h.others_eq

theorem pairUp_outside (h : Inside f part whole tops others) (level : List Top) :
    Inside f part (pairUp a whole level []).2 tops others := by
  induction level using List.twoStepInduction generalizing whole with
  | nil => exact h
  | singleton single => exact h
  | cons_cons left right rest ih _ =>
    rw [pairUp_cons_cons]
    exact ih (h.join_outside [left, right])

theorem tail (h : Inside f part whole (top :: tops) others) :
    Inside f part whole tops others.tail :=
  { h with
    top_lt := fun top htop => h.top_lt top (List.mem_cons_of_mem _ htop)
    others_eq := by rw [h.others_eq]; rfl }

/-- A top that was inside before is a top inside now. -/
theorem cons (h : Inside f part whole tops others) (htop : top.index < part.count) :
    Inside f part whole (top :: tops) (top.rename f :: others) :=
  { h with
    top_lt := List.forall_mem_cons.mpr ⟨htop, h.top_lt⟩
    others_eq := by rw [h.others_eq]; rfl }

/-- A pair that is joined inside and outside. -/
theorem join (h : Inside f part whole (left :: right :: tops) others) :
    ∃ f', (∀ k < part.count, f' k = f k)
      ∧ (whole.join a [left.rename f, right.rename f]).1 = (part.join a [left, right]).1.rename f'
      ∧ Inside f' (part.join a [left, right]).2
        (whole.join a [left.rename f, right.rename f]).2 tops (others.drop 2) := by
  have hsize : part.cells.reverse.length = part.count := by rw [List.length_reverse, h.length_part]
  have hsize' : whole.cells.reverse.length = whole.count := by
    rw [List.length_reverse, h.length_whole]
  have hchildren : ∀ c ∈ (joined a [left, right]).content.children,
      c < part.cells.reverse.length := by
    intro c hc
    obtain ⟨top, htop, rfl⟩ := List.mem_map.mp hc
    rw [hsize]
    exact h.top_lt top (by simp at htop ⊢; tauto)
  have hold : ∀ k < part.count, Function.update f part.count whole.count k = f k :=
    fun k hk => Function.update_of_ne (Nat.ne_of_lt hk) _ _
  -- the new cell is the last one on both sides, so the renaming sends the one to the other
  have hconcat := h.embeds.concat _ hchildren
  rw [hsize, hsize', ← joined_rename, ← reverse_cells_join, ← reverse_cells_join] at hconcat
  refine ⟨Function.update f part.count whole.count, hold, ?_, hconcat,
    congrArg (· + 1) h.length_part, congrArg (· + 1) h.length_whole, fun top htop => ?_, ?_⟩
  · simp [Growth.join, Top.rename]
  · exact Nat.lt_succ_of_lt (h.top_lt top (by simp [htop]))
  · rw [h.others_eq]
    refine List.map_congr_left fun top htop => ?_
    rw [Top.rename, Top.rename, hold _ (h.top_lt top (by simp [htop]))]

/-- The next level inside is **the next level** outside. -/
theorem pairUp (h : Inside f part whole tops others) :
    ∃ f', (∀ k < part.count, f' k = f k)
      ∧ part.count ≤ (Growth.pairUp a part tops []).2.count
      ∧ Inside f' (Growth.pairUp a part tops []).2 (Growth.pairUp a whole others []).2
        (Growth.pairUp a part tops []).1 (Growth.pairUp a whole others []).1 := by
  induction tops using List.twoStepInduction generalizing f part whole others with
  | nil =>
    obtain rfl : others = [] := h.others_eq
    exact ⟨f, fun _ _ => rfl, le_rfl, h⟩
  | singleton single =>
    obtain rfl : others = [single.rename f] := h.others_eq
    exact ⟨f, fun _ _ => rfl, le_rfl, h⟩
  | cons_cons left right rest ih _ =>
    obtain rfl : others = left.rename f :: right.rename f :: rest.map (Top.rename f) := h.others_eq
    -- the first pair is joined, and the rest goes on with a renaming that knows the new node
    obtain ⟨f', hold, htop, hnext⟩ := h.join (a := a)
    obtain ⟨f'', hold', hle, hrest⟩ := ih hnext
    have hcount : (part.join a [left, right]).2.count = part.count + 1 := rfl
    rw [hcount] at hold' hle
    rw [pairUp_cons_cons, pairUp_cons_cons, htop]
    have hindex : (part.join a [left, right]).1.index = part.count := rfl
    have hsame : (part.join a [left, right]).1.rename f'
        = (part.join a [left, right]).1.rename f'' := by
      rw [Top.rename, Top.rename, hindex, hold' _ (Nat.lt_succ_self _)]
    rw [hsame]
    refine ⟨f'', fun k hk => (hold' k (Nat.lt_succ_of_lt hk)).trans (hold k hk),
      Nat.le_of_succ_le hle, hrest.cons ?_⟩
    rw [hindex]
    exact hle

end Inside

/-! ## §3 Growing side by side -/

/-- The arena of what has grown. -/
def arena (grown : Option Top × Growth) : List Cell := grown.2.cells.reverse

/-- The index of the top that is left. -/
def apex (grown : Option Top × Growth) : Nat := (grown.1.map (·.index)).getD 0

/-- What has grown from two parts, and what has grown from both: the parts are embedded, and their
tops are the children of the top of the whole. -/
structure Halves (fl fr : Nat → Nat) (left right whole : Option Top × Growth) : Prop where
  left_embeds : Embeds fl (arena left) (arena whole)
  right_embeds : Embeds fr (arena right) (arena whole)
  children_eq : (Cell.links (arena whole)).below (apex whole) = [fl (apex left), fr (apex right)]

/-- Where the first part has a power of two of tops and the second no more, they grow **side by
side** and are joined at the end. -/
theorem grow_beside (height : Nat) {fl fr : Nat → Nat} {left right whole : Growth}
    {lefts rights others others' : List Top} (hleft : Inside fl left whole lefts others)
    (hright : Inside fr right whole rights others') (hlength : lefts.length = 2 ^ height)
    (hpos : 0 < rights.length) (hle : rights.length ≤ 2 ^ height) :
    ∃ fl' fr', (∀ k < left.count, fl' k = fl k) ∧ (∀ k < right.count, fr' k = fr k)
      ∧ Halves fl' fr' (grow a left lefts) (grow a right rights)
        (grow a whole (others ++ others')) := by
  induction height generalizing fl fr left right whole lefts rights others others' with
  | zero =>
    -- one top each: they are joined
    obtain ⟨l, rfl⟩ := List.length_eq_one_iff.mp hlength
    obtain ⟨r, rfl⟩ := List.length_eq_one_iff.mp (Nat.le_antisymm hle hpos)
    obtain rfl : others = [l.rename fl] := hleft.others_eq
    obtain rfl : others' = [r.rename fr] := hright.others_eq
    have hgrow : grow a whole ([l.rename fl] ++ [r.rename fr])
        = (some (whole.join a [l.rename fl, r.rename fr]).1,
          (whole.join a [l.rename fl, r.rename fr]).2) := by
      rw [← grow_pairUp, List.singleton_append, pairUp_cons_cons, pairUp, List.reverse_nil,
        grow_single]
    rw [hgrow, grow_single, grow_single]
    refine ⟨fl, fr, fun _ _ => rfl, fun _ _ => rfl, (hleft.join_outside _).embeds,
      (hright.join_outside _).embeds, ?_⟩
    have hroot : (arena (some (whole.join a [l.rename fl, r.rename fr]).1,
        (whole.join a [l.rename fl, r.rename fr]).2))[whole.count]?
        = some (joined a [l.rename fl, r.rename fr]) := by
      rw [arena, reverse_cells_join, ← hleft.length_whole, ← List.length_reverse]
      exact List.getElem?_concat_length
    exact Cell.below_links hroot
  | succ height ih =>
    have hdouble : 2 ^ (height + 1) = 2 * 2 ^ height := Nat.pow_succ'
    have hlevel : others.length = lefts.length := by rw [hleft.others_eq, List.length_map]
    -- the next level of the first part is made first, then that of the second one
    obtain ⟨fl₁, holdl, hcountl, hleft₁⟩ := hleft.pairUp (a := a)
    obtain ⟨fr₁, holdr, hcountr, hright₁⟩ := (hright.pairUp_outside others).pairUp (a := a)
    obtain ⟨fl₂, fr₂, holdl', holdr', hhalves⟩ := ih (hleft₁.pairUp_outside others') hright₁
      (by rw [length_pairUp]; simp only [List.length_nil]; omega)
      (by rw [length_pairUp]; omega) (by rw [length_pairUp]; simp only [List.length_nil]; omega)
    refine ⟨fl₂, fr₂, fun k hk => ?_, fun k hk => ?_, ?_⟩
    · rw [holdl' k (Nat.lt_of_lt_of_le hk hcountl), holdl k hk]
    · rw [holdr' k (Nat.lt_of_lt_of_le hk hcountr), holdr k hk]
    · rw [grow_pairUp, grow_pairUp] at hhalves
      rw [← grow_pairUp whole, pairUp_append _ _ _ (by omega)]
      exact hhalves

end Growth

end HashTree
