import HashTree.Proofs.Bytes
import HashTree.Proofs.Opening.Generated

/-!
# Openings bind their leaves

Two openings whose steps differ in digests only, and that compute one root, have the same digests
everywhere, unless at some step the two replays hash different bytes to one digest. The proof goes
through the steps **from the last to the first**: equal digests were hashed from equal bytes, and
equal bytes are equal digests slot by slot, because all digests have one width.
-/

namespace HashTree

open Outcome

/-! ## §1 What the steps hash -/

/-- The bytes that a step hashes. -/
def Opening.Replay.message? (current : Array Opened) (r : Replay) (step : Step) : Option Bytes :=
  match feed current step r.used (r.loose.take (step.count .child)).reverse [] with
  | .ok (digests, _) => some digests.flatten
  | .error _ => none

/-- The bytes that the step of a certain number hashes, when steps are replayed from a state. -/
def Opening.fedFrom (a : Algorithm) (current : Array Opened) :
    List Step → Replay → Nat → Option Bytes
  | [], _, _ => none
  | step :: _, r, 0 => r.message? current step
  | step :: steps, r, number + 1 =>
    match Replay.step a current r step with
    | .ok next => fedFrom a current steps next number
    | .error _ => none

/-- The bytes that a step of an opening **feeds to the hasher**. -/
def Opening.fed (o : Opening) (number : Nat) : Option Bytes :=
  fedFrom o.algorithm o.current.toArray o.steps (.start o.current.length) number

/-- At some step two openings hash **different bytes to one digest**. -/
def Opening.Collide (o p : Opening) : Prop :=
  ∃ number m n, o.fed number = some m ∧ p.fed number = some n ∧ m ≠ n
    ∧ o.algorithm.digest m = p.algorithm.digest n

/-- A slot without its digest. -/
def Slot.skeleton : Slot → Slot
  | .sibling _ => .sibling []
  | slot => slot

/-- The steps without their digests: how many there are, and of which kinds their slots. -/
def Opening.skeleton (o : Opening) : List Step := o.steps.map (·.map Slot.skeleton)

/-- The digests of the siblings, step by step. -/
def Opening.siblings (o : Opening) : List (List Digest) :=
  o.steps.map (·.filterMap Slot.sibling?)

namespace Opening

variable {a : Algorithm} {current current' : Array Opened}

/-! ## §2 One step -/

/-- The digests of some slots, where the child slots take the digests that were left. -/
private inductive Values (current : Array Opened) : Step → List Digest → List Digest → Prop where
  | nil : Values current [] [] []
  | sibling {slots : Step} {produced values : List Digest} (digest : Digest)
    (rest : Values current slots produced values) :
    Values current (.sibling digest :: slots) produced (digest :: values)
  | leaf {slots : Step} {produced values : List Digest} {rank : Nat} {leaf : Opened}
    (h : current[rank]? = some leaf) (rest : Values current slots produced values) :
    Values current (.leaf rank :: slots) produced (leaf.digest :: values)
  | child {slots : Step} {produced values : List Digest} (digest : Digest)
    (rest : Values current slots produced values) :
    Values current (.child :: slots) (digest :: produced) (digest :: values)

/-- Feeding finds the digests of the slots. -/
private theorem exists_values_of_feed {slots : Step} {used used' : Array Bool}
    {produced found digests : List Digest} (hlength : produced.length = slots.count .child)
    (h : feed current slots used produced found = .ok (digests, used')) :
    ∃ values, digests = found.reverse ++ values ∧ Values current slots produced values := by
  -- as many digests are left as child slots are still to be fed, so none is left in the end
  induction slots generalizing used produced found with
  | nil =>
    obtain ⟨rfl, -⟩ := Prod.mk.inj (Except.ok.inj h)
    rw [List.length_eq_zero_iff.mp hlength]
    exact ⟨[], (List.append_nil _).symm, .nil⟩
  | cons slot slots ih =>
    cases slot with
    | sibling digest =>
      obtain ⟨values, rfl, hvalues⟩ := ih (by simpa using hlength) h
      exact ⟨digest :: values, by simp, .sibling digest hvalues⟩
    | leaf rank =>
      rw [feed] at h
      split at h
      · cases h
      · next leaf hleaf =>
        split at h
        · cases h
        · obtain ⟨values, rfl, hvalues⟩ := ih (by simpa using hlength) h
          exact ⟨leaf.digest :: values, by simp, .leaf hleaf hvalues⟩
    | child =>
      cases produced with
      | nil => simp at hlength
      | cons digest produced =>
        obtain ⟨values, rfl, hvalues⟩ := ih (by simpa using hlength) h
        exact ⟨digest :: values, by simp, .child digest hvalues⟩

/-- Which leaves were used before and which after some slots: as many flags, and no further leaf
but those that the slots name. -/
private def Uses (slots : Step) (used used' : Array Bool) : Prop :=
  used'.size = used.size
    ∧ ∀ rank : Nat, used'[rank]? = some true → used[rank]? = some true ∨ .leaf rank ∈ slots

private theorem uses_of_feed {slots : Step} {used used' : Array Bool}
    {produced found digests : List Digest}
    (h : feed current slots used produced found = .ok (digests, used')) :
    Uses slots used used' := by
  induction slots generalizing used produced found with
  | nil =>
    obtain ⟨-, rfl⟩ := Prod.mk.inj (Except.ok.inj h)
    exact ⟨rfl, fun rank => Or.inl⟩
  | cons slot slots ih =>
    cases slot with
    | sibling digest =>
      obtain ⟨hsize, hused⟩ := ih h
      exact ⟨hsize, fun rank hr => (hused rank hr).imp_right (List.mem_cons_of_mem _)⟩
    | leaf named =>
      rw [feed] at h
      split at h
      · cases h
      · split at h
        · cases h
        · -- the flags that the rest starts from differ in the named leaf only
          obtain ⟨hsize, hused⟩ := ih h
          refine ⟨hsize.trans Array.size_setIfInBounds, fun rank hr => ?_⟩
          rcases hused rank hr with hset | hmem
          · by_cases hrank : named = rank
            · exact Or.inr (hrank ▸ List.mem_cons_self)
            · rw [Array.getElem?_setIfInBounds_ne hrank] at hset
              exact Or.inl hset
          · exact Or.inr (List.mem_cons_of_mem _ hmem)
    | child =>
      cases produced with
      | nil => cases h
      | cons digest produced =>
        obtain ⟨hsize, hused⟩ := ih h
        exact ⟨hsize, fun rank hr => (hused rank hr).imp_right (List.mem_cons_of_mem _)⟩

/-- All digests of a step have the width that their sources have. -/
private theorem Values.length_eq {slots : Step} {produced values : List Digest} {width : Nat}
    (h : Values current slots produced values)
    (hsiblings : ∀ digest, .sibling digest ∈ slots → digest.length = width)
    (hcurrent : ∀ leaf ∈ current, leaf.digest.length = width)
    (hproduced : ∀ digest ∈ produced, digest.length = width) :
    ∀ digest ∈ values, digest.length = width := by
  induction h with
  | nil => simp
  | sibling digest rest ih =>
    refine List.forall_mem_cons.mpr ⟨hsiblings digest List.mem_cons_self, ih (fun d hd => ?_)
      hproduced⟩
    exact hsiblings d (List.mem_cons_of_mem _ hd)
  | leaf h rest ih =>
    refine List.forall_mem_cons.mpr ⟨hcurrent _ (Array.mem_of_getElem? h), ih (fun d hd => ?_)
      hproduced⟩
    exact hsiblings d (List.mem_cons_of_mem _ hd)
  | child digest rest ih =>
    obtain ⟨hdigest, hproduced⟩ := List.forall_mem_cons.mp hproduced
    refine List.forall_mem_cons.mpr ⟨hdigest, ih (fun d hd => ?_) hproduced⟩
    exact hsiblings d (List.mem_cons_of_mem _ hd)

private theorem Values.length_values {slots : Step} {produced values : List Digest}
    (h : Values current slots produced values) : values.length = slots.length := by
  induction h with
  | nil => rfl
  | sibling _ _ ih => rw [List.length_cons, List.length_cons, ih]
  | leaf _ _ ih => rw [List.length_cons, List.length_cons, ih]
  | child _ _ ih => rw [List.length_cons, List.length_cons, ih]

/-- Equal digests stand in **equal slots**, and come from equal leaves and equal digests left. -/
private theorem Values.unique {slots slots' : Step} {produced produced' values : List Digest}
    (h : Values current slots produced values) (h' : Values current' slots' produced' values)
    (hskeleton : slots.map Slot.skeleton = slots'.map Slot.skeleton) :
    slots = slots' ∧ produced = produced' ∧ ∀ rank, .leaf rank ∈ slots →
      current[rank]?.map (·.digest) = current'[rank]?.map (·.digest) := by
  -- slots of two kinds have two skeletons, which leaves one case for each kind
  induction h generalizing slots' produced' with
  | nil =>
    cases h' with
    | nil => exact ⟨rfl, rfl, by simp⟩
  | sibling digest rest ih =>
    cases h' with
    | sibling _ rest' =>
      obtain ⟨rfl, rfl, hleaves⟩ := ih rest' (List.cons.inj hskeleton).2
      exact ⟨rfl, rfl, by simpa using hleaves⟩
    | leaf _ _ => cases (List.cons.inj hskeleton).1
    | child _ _ => cases (List.cons.inj hskeleton).1
  | leaf h rest ih =>
    -- the digest is a projection here, which the cases of the other side cannot match
    generalize hdigest : Opened.digest _ = digest at h'
    cases h' with
    | sibling _ _ => cases (List.cons.inj hskeleton).1
    | leaf hleaf' rest' =>
      obtain ⟨hrank, hslots⟩ := List.cons.inj hskeleton
      obtain rfl := Slot.leaf.inj hrank
      obtain ⟨rfl, rfl, hleaves⟩ := ih rest' hslots
      refine ⟨rfl, rfl, fun rank hmem => ?_⟩
      rcases List.mem_cons.mp hmem with heq | hmem
      · obtain rfl := Slot.leaf.inj heq
        rw [h, hleaf', Option.map_some, Option.map_some, hdigest]
      · exact hleaves rank hmem
    | child _ _ => cases (List.cons.inj hskeleton).1
  | child digest rest ih =>
    cases h' with
    | sibling _ _ => cases (List.cons.inj hskeleton).1
    | leaf _ _ => cases (List.cons.inj hskeleton).1
    | child _ rest' =>
      obtain ⟨rfl, rfl, hleaves⟩ := ih rest' (List.cons.inj hskeleton).2
      exact ⟨rfl, rfl, by simpa using hleaves⟩

/-- A step that succeeds hashes its message. -/
private theorem exists_message_of_step {r next : Replay} {step : Step}
    (h : Replay.step a current r step = .ok next) : ∃ values used,
      step.count .child ≤ r.loose.length
      ∧ Values current step (r.loose.take (step.count .child)).reverse values
      ∧ r.message? current step = some values.flatten
      ∧ next = ⟨used, a.digest values.flatten :: r.loose.drop (step.count .child)⟩
      ∧ Uses step r.used used := by
  rw [Replay.step] at h
  split at h
  · cases h
  · next hle =>
    rw [List.length_take] at hle
    have hle : step.count .child ≤ r.loose.length := by omega
    split at h
    · cases h
    · next digests used hfeed =>
      obtain rfl := Except.ok.inj h
      have hlength : (r.loose.take (step.count .child)).reverse.length = step.count .child := by
        rw [List.length_reverse, List.length_take, Nat.min_eq_left hle]
      obtain ⟨values, hdigests, hvalues⟩ := exists_values_of_feed hlength hfeed
      obtain rfl : digests = values := hdigests
      refine ⟨digests, used, hle, hvalues, ?_, rfl, uses_of_feed hfeed⟩
      rw [Replay.message?, hfeed]

/-! ## §3 All steps -/

/-- Siblings have the width of the algorithm. -/
private def Wide (a : Algorithm) (steps : List Step) : Prop :=
  ∀ step ∈ steps, ∀ digest, .sibling digest ∈ step → digest.length = a.digestSize

private theorem length_left {left : List Digest} (message : Bytes) (count : Nat)
    (h : ∀ digest ∈ left, digest.length = a.digestSize) :
    ∀ digest ∈ a.digest message :: left.drop count, digest.length = a.digestSize := by
  intro digest hd
  rcases List.mem_cons.mp hd with rfl | hd
  · exact a.length_digest message
  · exact h digest (List.mem_of_mem_drop hd)

/-- **Two replays to the same digests** agree in all that they took, or hash different bytes to one
digest at some step. -/
private theorem agree_or_collide {steps steps' : List Step}
    (hskeleton : steps.map (·.map Slot.skeleton) = steps'.map (·.map Slot.skeleton))
    (hwide : Wide a steps) (hwide' : Wide a steps')
    (hcurrent : ∀ leaf ∈ current, leaf.digest.length = a.digestSize)
    (hcurrent' : ∀ leaf ∈ current', leaf.digest.length = a.digestSize)
    {r r' last last' : Replay} (hloose : ∀ digest ∈ r.loose, digest.length = a.digestSize)
    (hloose' : ∀ digest ∈ r'.loose, digest.length = a.digestSize)
    (h : steps.foldlM (Replay.step a current) r = .ok last)
    (h' : steps'.foldlM (Replay.step a current') r' = .ok last')
    (hlast : last.loose = last'.loose) :
    (steps = steps' ∧ r.loose = r'.loose ∧ ∀ step ∈ steps, ∀ rank, .leaf rank ∈ step →
        current[rank]?.map (·.digest) = current'[rank]?.map (·.digest))
      ∨ ∃ number m n, fedFrom a current steps r number = some m
        ∧ fedFrom a current' steps' r' number = some n ∧ m ≠ n ∧ a.digest m = a.digest n := by
  -- induction on the steps reaches the last one first, which is where the digests are equal
  induction steps generalizing steps' r r' with
  | nil =>
    obtain rfl := List.map_eq_nil_iff.mp hskeleton.symm
    obtain rfl := Except.ok.inj h
    obtain rfl := Except.ok.inj h'
    exact Or.inl ⟨rfl, hlast, by simp⟩
  | cons step steps ih =>
    cases steps' with
    | nil => cases hskeleton
    | cons step' steps' =>
      obtain ⟨hstep, hsteps⟩ := List.cons.inj hskeleton
      obtain ⟨next, hnext, h⟩ := bind_eq_ok_iff.mp h
      obtain ⟨next', hnext', h'⟩ := bind_eq_ok_iff.mp h'
      obtain ⟨values, used, hle, hvalues, hmessage, rfl, -⟩ := exists_message_of_step hnext
      obtain ⟨values', used', hle', hvalues', hmessage', rfl, -⟩ := exists_message_of_step hnext'
      obtain ⟨hwideStep, hwide⟩ := List.forall_mem_cons.mp hwide
      obtain ⟨hwideStep', hwide'⟩ := List.forall_mem_cons.mp hwide'
      have hleft := length_left values.flatten (step.count .child) hloose
      have hleft' := length_left values'.flatten (step'.count .child) hloose'
      -- the steps that follow end in the same digests
      rcases ih hsteps hwide hwide' hleft hleft' h h' with
        ⟨rfl, hrest, hleaves⟩ | ⟨number, m, n, hm, hn, hne, hdigest⟩
      · obtain ⟨hdigest, hdrop⟩ := List.cons.inj hrest
        by_cases hbytes : values.flatten = values'.flatten
        · -- equal bytes are equal digests
          have hlength : values.length = values'.length := by
            rw [hvalues.length_values, hvalues'.length_values]
            simpa using congrArg List.length hstep
          have hequal : values = values' := Bytes.flatten_inj
            (hvalues.length_eq hwideStep hcurrent fun d hd =>
              hloose d (List.mem_of_mem_take (List.mem_reverse.mp hd)))
            (hvalues'.length_eq hwideStep' hcurrent' fun d hd =>
              hloose' d (List.mem_of_mem_take (List.mem_reverse.mp hd)))
            hlength hbytes
          rw [← hequal] at hvalues'
          obtain ⟨rfl, htake, hleavesStep⟩ := hvalues.unique hvalues' hstep
          refine Or.inl ⟨rfl, ?_, List.forall_mem_cons.mpr ⟨hleavesStep, hleaves⟩⟩
          -- what the step took and what it left make up what it found
          rw [← List.take_append_drop (step.count .child) r.loose, List.reverse_inj.mp htake, hdrop,
            List.take_append_drop]
        · exact Or.inr ⟨0, _, _, hmessage, hmessage', hbytes, hdigest⟩
      · -- a collision further on is one of all steps
        refine Or.inr ⟨number + 1, m, n, ?_, ?_, hne, hdigest⟩
        · rw [fedFrom, hnext]
          exact hm
        · rw [fedFrom, hnext']
          exact hn

/-- A leaf that has been used in the end was used at the start or is named by a step. -/
private theorem uses_of_steps {steps : List Step} {r last : Replay}
    (h : steps.foldlM (Replay.step a current) r = .ok last) :
    Uses steps.flatten r.used last.used := by
  induction steps generalizing r with
  | nil =>
    obtain rfl := Except.ok.inj h
    exact ⟨rfl, fun rank => Or.inl⟩
  | cons step steps ih =>
    obtain ⟨next, hnext, h⟩ := bind_eq_ok_iff.mp h
    obtain ⟨values, used, -, -, -, rfl, hsizeStep, husedStep⟩ := exists_message_of_step hnext
    obtain ⟨hsize, hused⟩ := ih h
    refine ⟨hsize.trans hsizeStep, fun rank hr => ?_⟩
    rw [List.flatten_cons, List.mem_append]
    rcases hused rank hr with hset | hmem
    · exact (husedStep rank hset).imp_right Or.inl
    · exact Or.inr (Or.inr hmem)

/-! ## §4 Whole openings -/

/-- What it takes to compute a root. -/
private theorem computeRoot_eq_ok {o : Opening} {d : Digest} (h : o.computeRoot = .ok d) :
    o.current.length = o.indices.length
      ∧ ((o.steps = [] ∧ o.current.map (·.digest) = [d])
        ∨ ∃ last, o.steps.foldlM (Replay.step o.algorithm o.current.toArray)
            (.start o.current.length) = .ok last
          ∧ last.used.any (!·) = false ∧ last.loose = [d] ∧ o.steps ≠ []) := by
  rw [computeRoot] at h
  split at h
  · cases h
  · next hlength =>
    refine ⟨not_not.mp hlength, ?_⟩
    split at h
    · next hempty =>
      refine Or.inl ⟨List.isEmpty_iff.mp hempty, ?_⟩
      split at h
      · next single hsingle =>
        rw [hsingle, ← Except.ok.inj h]
        rfl
      · cases h
    · next hsteps =>
      obtain ⟨last, hfold, hresult⟩ := bind_eq_ok_iff.mp h
      rw [List.size_toArray] at hfold
      refine Or.inr ⟨last, hfold, ?_⟩
      rw [Replay.result] at hresult
      split at hresult
      · cases hresult
      · next hused =>
        split at hresult
        · next root hroot =>
          exact ⟨by simpa using hused, by rw [hroot, Except.ok.inj hresult],
            fun hnil => hsteps (List.isEmpty_iff.mpr hnil)⟩
        · cases hresult

private theorem Sound.wide {o : Opening} (h : o.Sound) : Wide o.algorithm o.steps :=
  fun step hstep _ hmem => h.slots step hstep _ hmem

/-- All leaves were named when no flag is down in the end. -/
private theorem exists_step_of_used {o : Opening} {last : Replay}
    (h : o.steps.foldlM (Replay.step o.algorithm o.current.toArray) (.start o.current.length)
      = .ok last) (hused : last.used.any (!·) = false) {rank : Nat}
    (hrank : rank < o.current.length) : ∃ step ∈ o.steps, .leaf rank ∈ step := by
  obtain ⟨hsize, huses⟩ := uses_of_steps h
  have hlt : rank < last.used.size := by
    rw [hsize]
    simpa [Replay.start] using hrank
  have hset : last.used[rank]? = some true := by
    rw [Array.any_eq_false] at hused
    rw [Array.getElem?_eq_getElem hlt]
    simpa using hused rank hlt
  rcases huses rank hset with hstart | hmem
  · simp [Replay.start, Array.getElem?_replicate] at hstart
  · obtain ⟨step, hstep, hmem⟩ := List.mem_flatten.mp hmem
    exact ⟨step, hstep, hmem⟩

/-- Sound openings of one skeleton that compute one root are the same, or they collide. -/
theorem Sound.equal_or_collide {o p : Opening} (ho : o.Sound) (hp : p.Sound)
    (halgorithm : o.algorithm = p.algorithm) (hcount : o.indices.length = p.indices.length)
    (hskeleton : o.skeleton = p.skeleton) {d : Digest} (hod : o.computeRoot = .ok d)
    (hpd : p.computeRoot = .ok d) :
    (o.current.map (·.digest) = p.current.map (·.digest) ∧ o.siblings = p.siblings)
      ∨ o.Collide p := by
  obtain ⟨hlength, hod⟩ := computeRoot_eq_ok hod
  obtain ⟨hlength', hpd⟩ := computeRoot_eq_ok hpd
  -- by the skeletons both openings have steps or neither has
  rcases hod with ⟨hnil, hcurrent⟩ | ⟨last, hfold, hused, hloose, hne⟩
  · -- without steps the one leaf is the root
    have hnil' : p.steps = [] := by
      rw [skeleton, skeleton, hnil] at hskeleton
      exact List.map_eq_nil_iff.mp hskeleton.symm
    rcases hpd with ⟨-, hcurrent'⟩ | ⟨_, _, _, _, hne⟩
    · exact Or.inl ⟨hcurrent.trans hcurrent'.symm, by rw [siblings, siblings, hnil, hnil']⟩
    · exact absurd hnil' hne
  · rcases hpd with ⟨hnil', -⟩ | ⟨last', hfold', -, hloose', -⟩
    · rw [skeleton, skeleton, hnil'] at hskeleton
      exact absurd (List.map_eq_nil_iff.mp hskeleton) hne
    · have hwide' := hp.wide
      have hcurrent' : ∀ leaf ∈ p.current.toArray, leaf.digest.length = p.algorithm.digestSize :=
        fun leaf hleaf => (hp.current leaf (List.mem_toArray.mp hleaf)).1
      rw [← halgorithm] at hfold' hwide' hcurrent'
      rcases agree_or_collide hskeleton ho.wide hwide'
        (fun leaf hleaf => (ho.current leaf (List.mem_toArray.mp hleaf)).1) hcurrent' (by simp [Replay.start])
        (by simp [Replay.start]) hfold hfold' (hloose.trans hloose'.symm)
        with ⟨hsteps, -, hleaves⟩ | ⟨number, m, n, hm, hn, hne, hdigest⟩
      · refine Or.inl ⟨?_, by rw [siblings, siblings, hsteps]⟩
        -- every leaf is named by a step, so no leaf is left out
        refine List.ext_getElem? fun rank => ?_
        rw [List.getElem?_map, List.getElem?_map]
        by_cases hrank : rank < o.current.length
        · obtain ⟨step, hstep, hmem⟩ := exists_step_of_used hfold hused hrank
          simpa using hleaves step hstep rank hmem
        · rw [List.getElem?_eq_none (by omega), List.getElem?_eq_none (by omega)]
      · refine Or.inr ⟨number, m, n, hm, ?_, hne, ?_⟩
        · rw [fed, ← halgorithm]
          exact hn
        · rw [← halgorithm]
          exact hdigest

private theorem refresh_changed {o : Opening} (h : o.current = o.captured)
    (leaves : List Opened) : refresh { o with current := leaves } = o := by
  cases o
  cases h
  rfl

/-! ## §5 Binding -/

/-- **Openings bind their leaves.** Two reachable openings of one algorithm, one number of leaves
and one skeleton that compute one root have equal leaves and equal siblings, or collide. So an
opening of a reachable tree, however its leaves were changed, is rejected when a leaf has another
digest than it was made with, or collides with the opening as it was made. -/
theorem binding :
    (∀ {o p : Opening} {d : Digest}, o.Reachable → p.Reachable → o.algorithm = p.algorithm →
      o.indices.length = p.indices.length → o.skeleton = p.skeleton →
      o.computeRoot = .ok d → p.computeRoot = .ok d →
      (o.current.map (·.digest) = p.current.map (·.digest) ∧ o.siblings = p.siblings)
        ∨ o.Collide p)
    ∧ ∀ {t : Tree} {indices : List Nat} {o p : Opening}, t.Reachable →
      t.openAt indices = .ok o → Relation.ReflTransGen Changed o p →
      p.current.map (·.digest) ≠ o.captured.map (·.digest) → p.valid = false ∨ o.Collide p := by
  refine ⟨fun ho hp halgorithm hcount hskeleton hod hpd =>
    ho.sound.equal_or_collide hp.sound halgorithm hcount hskeleton hod hpd,
    fun {t indices o p} ht hopen hchanges hne => ?_⟩
  have ho := ht.made.sound_of_openAt hopen
  have hroot := ht.made.computeRoot_of_openAt hopen
  obtain ⟨hp, leaves, rfl⟩ := exists_leaves_of_changes hchanges ho
  cases hvalid : Opening.valid { o with current := leaves } with
  | false => exact Or.inl rfl
  | true =>
    -- the changed opening expects the root that the opening computed as it was made
    have hroot' := valid_iff.mp hvalid
    rcases ho.equal_or_collide hp rfl rfl rfl hroot hroot' with ⟨hcurrent, -⟩ | hcollide
    · obtain ⟨expected, -, -, -, rfl⟩ := Tree.openAt_eq_ok_iff.mp hopen
      exact absurd hcurrent.symm hne
    · exact Or.inr hcollide

/-- The second of three items is opened and given another digest: the opening is rejected, or
collides. Set back it has the leaf and the siblings that it had. -/
theorem binding_three : ∃ o p q d, (Tree.ofItems .sha1 true [[1], [2], [3]]).openAt [1] = .ok o
    ∧ o.updateDigests [d] = .ok p ∧ (p.valid = false ∨ o.Collide p) ∧ q = p.refresh
    ∧ ((o.current.map (·.digest) = q.current.map (·.digest) ∧ o.siblings = q.siblings)
      ∨ o.Collide q) := by
  have ht : (Tree.ofItems .sha1 true [[1], [2], [3]]).Reachable := .ofItems _ _ _
  have hlt : ∀ p ∈ [1], p < (Tree.ofItems .sha1 true [[1], [2], [3]]).leafCount := by
    simp [Tree.leafCount, Tree.leaves_ofItems]
  obtain ⟨r, u, hopen⟩ := ht.made.exists_openAt (by simp) hlt
  generalize ho : Tree.opening _ _ _ = o at hopen
  have halgorithm : o.algorithm = .sha1 := by
    rw [← ho]
    exact Tree.algorithm_ofItems _ _
  have hindices : o.indices = [1] := by
    rw [← ho]
    exact Tree.selection_singleton 1
  -- one of two different digests is not the captured one
  obtain ⟨d, hlength, hne⟩ : ∃ d : Digest, d.length = 20 ∧ [d] ≠ o.captured.map (·.digest) := by
    by_cases hzero : [List.replicate 20 0] = o.captured.map (·.digest)
    · refine ⟨List.replicate 20 1, List.length_replicate, fun hone => ?_⟩
      exact absurd (hone.trans hzero.symm) (by decide)
    · exact ⟨List.replicate 20 0, List.length_replicate, hzero⟩
  have hupdate : o.updateDigests [d] = .ok { o with current := [⟨none, d⟩] } := by
    refine updateDigests_eq_ok_iff.mpr ⟨?_, replace_eq_ok_iff.mpr ⟨?_, rfl⟩⟩
    · intro e he
      rw [halgorithm, List.mem_singleton.mp he]
      exact hlength
    · rw [hindices]
      rfl
  refine ⟨o, _, _, d, hopen, hupdate, ?_, rfl, ?_⟩
  · exact binding.2 ht hopen (.single (.digests hupdate)) hne
  · have hroot := ht.made.computeRoot_of_openAt hopen
    have hcaptured : o.current = o.captured := by
      rw [← ho]
      rfl
    rw [refresh_changed hcaptured]
    exact binding.1 (.opened ht hopen) (.opened ht hopen) rfl rfl rfl hroot hroot

end Opening

end HashTree
