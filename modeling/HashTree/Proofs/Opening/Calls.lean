import HashTree.Opening.Edit
import HashTree.Proofs.Opening.Dump

/-!
# Calls on openings

A call judges all its arguments before it replaces the leaves of the opening that is held. So it is
**all or nothing**: it does what it does to a value, or it fails and nothing has changed. Whatever
calls were made, and whether they failed or not, only the current leaves can differ, and a refresh
undoes it all.
-/

namespace HashTree

open Outcome

/-! ## §1 Procedures that are all or nothing -/

namespace Edit

variable {α β : Type}

/-- A procedure only **reads**: it has the outcome of a function and leaves what is held as it is. -/
def Reads (edit : Edit α) (f : Opening → Except Error α) : Prop :=
  ∀ o, edit.run o = match f o with
    | .ok a => .ok a o
    | .error e => .error e o

/-- A procedure **writes at once**: it puts the result of a function in, and where the function
fails it leaves what is held as it is. -/
def Writes (edit : Edit Unit) (f : Opening → Except Error Opening) : Prop :=
  ∀ o, edit.run o = match f o with
    | .ok p => .ok () p
    | .error e => .error e o

/-- Arguments are judged one after the other, **without a change** in between. -/
theorem Reads.mapM {g : α → Edit β} {f : α → Opening → Except Error β}
    (h : ∀ a, Reads (g a) (f a)) (items : List α) :
    Reads (items.mapM g) fun o => items.mapM fun a => f a o := by
  intro o
  induction items with
  | nil => rfl
  | cons a items ih =>
    simp only [List.mapM_cons, EStateM.run_bind, h a o]
    cases f a o with
    | error e => rfl -- the rest is not looked at
    | ok b =>
      simp only [ih]
      cases items.mapM fun a => f a o with
      | error e => rfl
      | ok bs => rfl

/-- What is written after reading alone is written at once. -/
theorem Reads.bind {edit : Edit α} {f : Opening → Except Error α} {next : α → Edit Unit}
    {g : α → Opening → Except Error Opening} (h : Reads edit f)
    (hnext : ∀ a, Writes (next a) (g a)) :
    Writes (edit >>= next) fun o => f o >>= fun a => g a o := by
  intro o
  simp only [EStateM.run_bind, h o]
  cases f o with
  | error e => rfl
  | ok a => exact hnext a o

theorem reads_get : Reads (get : Edit Opening) .ok :=
  fun _ => rfl

theorem reads_leafOfDigest (d : Digest) : Reads (leafOfDigest d) (·.leafOfDigest d) := by
  intro o
  simp only [leafOfDigest, Opening.leafOfDigest, EStateM.run_bind, EStateM.run_get]
  cases o.algorithm.checkDigest d with
  | error e => rfl
  | ok u => rfl

theorem reads_leafOfNode (n : Node) : Reads (leafOfNode n) (·.leafOfNode n) := by
  intro o
  simp only [leafOfNode, Opening.leafOfNode, EStateM.run_bind, EStateM.run_get]
  split
  · rfl
  · rfl

theorem writes_replace (leaves : List Opened) : Writes (replace leaves) (·.replace leaves) := by
  intro o
  simp only [replace, Opening.replace, EStateM.run_bind, EStateM.run_get]
  split
  · rfl
  · rfl

end Edit

/-- What a call makes of an opening **as a value**. -/
def Call.result (o : Opening) : Call → Except Error Opening
  | update payloads => o.update payloads
  | updateDigests digests => o.updateDigests digests
  | updateNodes nodes => o.updateNodes nodes
  | refresh => .ok o.refresh

/-- Every call reads all its arguments before it writes. -/
theorem Call.writes (call : Call) : call.edit.Writes call.result := by
  cases call with
  | update payloads => exact Edit.reads_get.bind fun o => Edit.writes_replace _
  | updateDigests digests =>
    exact (Edit.Reads.mapM Edit.reads_leafOfDigest digests).bind Edit.writes_replace
  | updateNodes nodes =>
    exact (Edit.Reads.mapM Edit.reads_leafOfNode nodes).bind Edit.writes_replace
  | refresh => exact fun _ => rfl

/-! ## §2 Calls that fit and calls that are refused -/

/-- The leaves that a call asks for, one for each argument in their order. -/
def Call.leaves (o : Opening) : Call → List Opened
  | update payloads => payloads.map fun b => ⟨some b, o.algorithm.digest b⟩
  | updateDigests digests => digests.map fun d => ⟨none, d⟩
  | updateNodes nodes => nodes.map fun n => ⟨n.payload?, n.digest⟩
  | refresh => o.captured

/-- The nodes that a call is given. -/
def Call.nodes : Call → List Node
  | updateNodes nodes => nodes
  | _ => []

/-- All arguments of a call are of the algorithm of the opening. -/
def Call.Proper (o : Opening) : Call → Prop
  | updateDigests digests => ∀ d ∈ digests, d.length = o.algorithm.digestSize
  | updateNodes nodes => ∀ n ∈ nodes, n.algorithm = o.algorithm
  | _ => True

/-- A call fits when its arguments are proper and **as many as there are indices**. -/
structure Call.Fits (o : Opening) (call : Call) : Prop where
  proper : call.Proper o
  length_eq : (call.leaves o).length = o.indices.length

/-- What is wrong with the arguments of a call. They are judged from the front, and counted when all
of them are proper. -/
inductive Call.Refused (o : Opening) : Call → Error → Prop where
  /-- The first digest that is **not of the size** of the algorithm. -/
  | digest {front rest : List Digest} {d : Digest}
    (hfront : ∀ x ∈ front, x.length = o.algorithm.digestSize)
    (hd : d.length ≠ o.algorithm.digestSize) :
    Refused o (updateDigests (front ++ d :: rest)) (.node (.digestLength o.algorithm d.length))
  /-- The first node that is **of another algorithm**. -/
  | node {front rest : List Node} {n : Node} (hfront : ∀ x ∈ front, x.algorithm = o.algorithm)
    (hn : n.algorithm ≠ o.algorithm) :
    Refused o (updateNodes (front ++ n :: rest))
      (.node (.algorithmMismatch o.algorithm n.algorithm))
  /-- Proper arguments, but too few or too many of them. -/
  | count {call : Call} (hproper : call.Proper o)
    (hcount : (call.leaves o).length ≠ o.indices.length) :
    Refused o call
      (.opening (.leafCountMismatch o.indices.length (call.leaves o).length))

namespace Opening

variable {o p : Opening} {e : Error} {call : Call}

theorem replace_eq_error_iff {leaves : List Opened} :
    o.replace leaves = .error e ↔ leaves.length ≠ o.indices.length
      ∧ e = .opening (.leafCountMismatch o.indices.length leaves.length) := by
  rw [replace]
  split
  · next h => simp [h]
  · next h => simp [h, eq_comm]

/-- Arguments that are judged one by one and then counted are refused for **the first** that is not
proper, or for their number. -/
theorem mapM_replace_eq_error_iff {α : Type} {judge : α → Except Error Opened} {leaf : α → Opened}
    {proper : α → Prop} {fault : α → Error}
    (hok : ∀ a b, judge a = .ok b ↔ b = leaf a ∧ proper a)
    (herror : ∀ a e, judge a = .error e ↔ e = fault a ∧ ¬ proper a) {items : List α} :
    items.mapM judge >>= o.replace = .error e
      ↔ (∃ front a rest, items = front ++ a :: rest ∧ (∀ x ∈ front, proper x) ∧ ¬ proper a
          ∧ e = fault a)
        ∨ (∀ x ∈ items, proper x) ∧ o.replace (items.map leaf) = .error e := by
  have hexists : ∀ a, (∃ b, judge a = .ok b) ↔ proper a := by
    intro a
    simp [hok]
  rw [bind_eq_error_iff, mapM_eq_error_iff]
  simp only [mapM_eq_ok_iff_map hok, hexists, herror]
  apply or_congr
  · simp only [and_comm]
  · constructor
    · intro h
      obtain ⟨_, ⟨rfl, hproper⟩, hreplace⟩ := h
      exact ⟨hproper, hreplace⟩
    · intro h
      exact ⟨_, ⟨rfl, h.1⟩, h.2⟩

theorem leafOfDigest_eq_error_iff {d : Digest} :
    o.leafOfDigest d = .error e ↔ e = .node (.digestLength o.algorithm d.length)
      ∧ ¬ d.length = o.algorithm.digestSize := by
  rw [leafOfDigest, Algorithm.checkDigest]
  by_cases h : d.length = o.algorithm.digestSize
  · simp [h]
  · simp [h, eq_comm]

theorem leafOfNode_eq_error_iff {n : Node} :
    o.leafOfNode n = .error e ↔ e = .node (.algorithmMismatch o.algorithm n.algorithm)
      ∧ ¬ n.algorithm = o.algorithm := by
  rw [leafOfNode]
  by_cases h : n.algorithm = o.algorithm
  · simp [h]
  · simp [h, eq_comm]

theorem updateDigests_eq_error_iff {digests : List Digest} :
    o.updateDigests digests = .error e
      ↔ (∃ front d rest, digests = front ++ d :: rest
          ∧ (∀ x ∈ front, x.length = o.algorithm.digestSize) ∧ ¬ d.length = o.algorithm.digestSize
          ∧ e = .node (.digestLength o.algorithm d.length))
        ∨ (∀ d ∈ digests, d.length = o.algorithm.digestSize)
          ∧ o.replace (digests.map fun d => ⟨none, d⟩) = .error e :=
  mapM_replace_eq_error_iff (fun _ _ => leafOfDigest_eq_ok_iff) fun _ _ => leafOfDigest_eq_error_iff

theorem updateNodes_eq_error_iff {nodes : List Node} :
    o.updateNodes nodes = .error e
      ↔ (∃ front n rest, nodes = front ++ n :: rest
          ∧ (∀ x ∈ front, x.algorithm = o.algorithm) ∧ ¬ n.algorithm = o.algorithm
          ∧ e = .node (.algorithmMismatch o.algorithm n.algorithm))
        ∨ (∀ n ∈ nodes, n.algorithm = o.algorithm)
          ∧ o.replace (nodes.map fun n => ⟨n.payload?, n.digest⟩) = .error e :=
  mapM_replace_eq_error_iff (fun _ _ => leafOfNode_eq_ok_iff) fun _ _ => leafOfNode_eq_error_iff

end Opening

namespace Call

variable {o p : Opening} {e : Error} {call : Call}

section

-- a refresh is refused nowhere, so the leaves that it puts in have to fit the opening
variable (hcaptured : o.captured.length = o.indices.length)

include hcaptured

/-- A call **succeeds exactly when it fits**, and replaces the current leaves by the ones it asks
for. -/
theorem result_eq_ok_iff : call.result o = .ok p
    ↔ call.Fits o ∧ p = { o with current := call.leaves o } := by
  have hreplace : call.result o = .ok p ↔ call.Proper o ∧ o.replace (call.leaves o) = .ok p := by
    cases call with
    | update payloads => exact (and_iff_right trivial).symm
    | updateDigests digests => exact Opening.updateDigests_eq_ok_iff
    | updateNodes nodes => exact Opening.updateNodes_eq_ok_iff
    | refresh =>
      -- the captured leaves are as many as the indices
      rw [Opening.replace_eq_ok_iff, leaves]
      simp [result, Opening.refresh, Proper, hcaptured, eq_comm]
  rw [hreplace, Opening.replace_eq_ok_iff]
  constructor
  · intro h
    obtain ⟨hproper, hlength, rfl⟩ := h
    exact ⟨⟨hproper, hlength⟩, rfl⟩
  · intro h
    obtain ⟨⟨hproper, hlength⟩, rfl⟩ := h
    exact ⟨hproper, hlength, rfl⟩

/-- A call **fails exactly when it is refused**. -/
theorem result_eq_error_iff : call.result o = .error e ↔ call.Refused o e := by
  constructor
  · -- an argument that is not proper hides that there are too many
    intro h
    cases call with
    | update payloads =>
      obtain ⟨hcount, rfl⟩ := Opening.replace_eq_error_iff.mp h
      exact .count trivial hcount
    | updateDigests digests =>
      rcases Opening.updateDigests_eq_error_iff.mp h with
        ⟨front, d, rest, rfl, hfront, hd, rfl⟩ | ⟨hproper, h⟩
      · exact .digest hfront hd
      · obtain ⟨hcount, rfl⟩ := Opening.replace_eq_error_iff.mp h
        exact .count hproper hcount
    | updateNodes nodes =>
      rcases Opening.updateNodes_eq_error_iff.mp h with
        ⟨front, n, rest, rfl, hfront, hn, rfl⟩ | ⟨hproper, h⟩
      · exact .node hfront hn
      · obtain ⟨hcount, rfl⟩ := Opening.replace_eq_error_iff.mp h
        exact .count hproper hcount
    | refresh => cases h
  · intro h
    cases h with
    | digest hfront hd =>
      exact Opening.updateDigests_eq_error_iff.mpr (.inl ⟨_, _, _, rfl, hfront, hd, rfl⟩)
    | node hfront hn =>
      exact Opening.updateNodes_eq_error_iff.mpr (.inl ⟨_, _, _, rfl, hfront, hn, rfl⟩)
    | count hproper hcount =>
      have hreplace := Opening.replace_eq_error_iff.mpr ⟨hcount, rfl⟩
      cases call with
      | update payloads => exact hreplace
      | updateDigests digests =>
        exact Opening.updateDigests_eq_error_iff.mpr (.inr ⟨hproper, hreplace⟩)
      | updateNodes nodes => exact Opening.updateNodes_eq_error_iff.mpr (.inr ⟨hproper, hreplace⟩)
      | refresh => exact absurd hcaptured hcount

end

/-- What a call asks for does not depend on the current leaves. -/
theorem leaves_current (call : Call) (leaves : List Opened) :
    call.leaves { o with current := leaves } = call.leaves o := by
  cases call <;> rfl

/-- Whether a call fits does not depend on the current leaves. -/
theorem fits_current_iff {leaves : List Opened} :
    call.Fits { o with current := leaves } ↔ call.Fits o := by
  have hproper : call.Proper { o with current := leaves } ↔ call.Proper o := by
    cases call <;> exact Iff.rfl
  constructor
  · intro h
    exact ⟨hproper.mp h.proper, by simpa only [leaves_current] using h.length_eq⟩
  · intro h
    exact ⟨hproper.mpr h.proper, by simpa only [leaves_current] using h.length_eq⟩

/-- Why a call is refused does not depend on them either. -/
theorem refused_current_iff {leaves : List Opened} :
    call.Refused { o with current := leaves } e ↔ call.Refused o e := by
  have hcurrent : ∀ (o : Opening) (leaves : List Opened), call.Refused o e →
      call.Refused { o with current := leaves } e := by
    intro o leaves h
    cases h with
    | digest hfront hd => exact .digest hfront hd
    | node hfront hn => exact .node hfront hn
    | count hproper hcount =>
      rw [← leaves_current call leaves]
      apply Refused.count
      · cases call <;> exact hproper
      · rwa [leaves_current]
  constructor
  · -- putting the old leaves back gives the opening again
    intro h
    exact hcurrent { o with current := leaves } o.current h
  · exact hcurrent o leaves

end Call

/-! ## §3 Runs of calls -/

namespace Opening

variable {o p : Opening} {e : Error} {call : Call}

/-- A call does what it does to a value, and **nothing at all** where that fails. -/
theorem perform_eq (o : Opening) (call : Call) : o.perform call = match call.result o with
    | .ok p => (.ok (), p)
    | .error e => (.error e, o) := by
  simp only [perform, call.writes o]
  cases call.result o with
  | error e => rfl
  | ok p => rfl

section

variable (hcaptured : o.captured.length = o.indices.length)

include hcaptured

theorem perform_eq_ok_iff : o.perform call = (.ok (), p)
    ↔ call.Fits o ∧ p = { o with current := call.leaves o } := by
  rw [← Call.result_eq_ok_iff hcaptured, perform_eq]
  cases call.result o with
  | error e => simp
  | ok q => simp

theorem perform_eq_error_iff : o.perform call = (.error e, p) ↔ call.Refused o e ∧ p = o := by
  rw [← Call.result_eq_error_iff hcaptured, perform_eq]
  cases call.result o with
  | error e => simp [eq_comm]
  | ok q => simp

/-- **One call** keeps everything but the current leaves, and one of them for each index. -/
theorem exists_leaves_of_perform (hcurrent : o.current.length = o.indices.length) (call : Call) :
    ∃ leaves, leaves.length = o.indices.length
      ∧ (o.perform call).2 = { o with current := leaves } := by
  cases hperform : o.perform call with
  | mk outcome p =>
    cases outcome with
    | ok u =>
      obtain ⟨hfits, rfl⟩ := (perform_eq_ok_iff hcaptured).mp hperform
      exact ⟨_, hfits.length_eq, rfl⟩
    | error e =>
      obtain ⟨-, rfl⟩ := (perform_eq_error_iff hcaptured).mp hperform
      exact ⟨_, hcurrent, rfl⟩

/-- **Any number of calls** keeps everything but the current leaves, and one of them for each
index. -/
theorem exists_leaves_of_after (hcurrent : o.current.length = o.indices.length)
    (calls : List Call) :
    ∃ leaves, leaves.length = o.indices.length
      ∧ o.after calls = { o with current := leaves } := by
  -- from the front, so that what holds after the first call is asked of the others
  induction calls generalizing o with
  | nil => exact ⟨_, hcurrent, rfl⟩
  | cons call calls ih =>
    obtain ⟨leaves, hlength, hperform⟩ := exists_leaves_of_perform hcaptured hcurrent call
    have hafter : o.after (call :: calls) = (o.perform call).2.after calls := rfl
    rw [hafter, hperform]
    exact ih (o := { o with current := leaves }) hcaptured hlength

end

/-- A call is a change, or it fails. -/
theorem changed_of_perform (o : Opening) {call : Call} (hnodes : ∀ n ∈ call.nodes, n.Reachable) :
    o.Changed (o.perform call).2 ∨ (o.perform call).2 = o := by
  rw [perform_eq]
  cases hresult : call.result o with
  | error e => exact .inr rfl
  | ok p =>
    left
    cases call with
    | update payloads => exact .payloads hresult
    | updateDigests digests => exact .digests hresult
    | updateNodes nodes => exact .nodes hnodes hresult
    | refresh =>
      obtain rfl := Except.ok.inj hresult
      exact .refreshed

/-- Calls lead to openings that can be come by, if their nodes can be come by. -/
theorem Reachable.after (h : o.Reachable) {calls : List Call}
    (hnodes : ∀ call ∈ calls, ∀ n ∈ call.nodes, n.Reachable) : (o.after calls).Reachable := by
  induction calls generalizing o with
  | nil => exact h
  | cons call calls ih =>
    obtain ⟨hcall, hcalls⟩ := List.forall_mem_cons.mp hnodes
    have hperform : (o.perform call).2.Reachable := by
      rcases changed_of_perform o hcall with hchanged | hsame
      · exact h.changed hchanged
      · rwa [hsame]
    exact ih hperform hcalls

/-- **Calls change nothing but the current leaves, and these all at once.** Any number of calls with
any arguments is made on an opening that can be come by, and some of them may fail. What is held
then differs from the opening in its current leaves alone, one for each index. A further call
succeeds exactly when it fits, and puts one leaf for each argument in, in their order. Else it fails
for the first argument that is not proper or for their number, and leaves what is held as it is. A
refresh brings the captured leaves back, so that an opening of a tree is accepted again. -/
theorem Reachable.perform_after (h : o.Reachable) (calls : List Call) :
    (∃ leaves, leaves.length = o.indices.length ∧ o.after calls = { o with current := leaves })
      ∧ (∀ call p, (o.after calls).perform call = (.ok (), p)
          ↔ call.Fits o ∧ p = { o with current := call.leaves o })
      ∧ (∀ call e p, (o.after calls).perform call = (.error e, p)
          ↔ call.Refused o e ∧ p = o.after calls)
      ∧ o.after (calls ++ [.refresh]) = { o with current := o.captured }
      ∧ ∀ (t : Tree) (indices : List Nat), t.Reachable → t.openAt indices = .ok o →
          (o.after (calls ++ [.refresh])).valid = true := by
  have hcaptured := h.sound.length_captured
  obtain ⟨leaves, hlength, hafter⟩ := exists_leaves_of_after hcaptured h.sound.length_current calls
  have hrefreshed : o.after (calls ++ [.refresh]) = { o with current := o.captured } := by
    have hlast : o.after (calls ++ [.refresh]) = ((o.after calls).perform .refresh).2 :=
      List.foldl_append ..
    rw [hlast, hafter]
    rfl
  have hkept : (o.after calls).captured.length = (o.after calls).indices.length := by
    rw [hafter]
    exact hcaptured
  refine ⟨⟨leaves, hlength, hafter⟩, ?_, ?_, hrefreshed, ?_⟩
  · intro call p
    rw [perform_eq_ok_iff hkept, hafter, Call.fits_current_iff, Call.leaves_current]
  · intro call e p
    rw [perform_eq_error_iff hkept, hafter, Call.refused_current_iff]
  · intro t indices ht hopen
    -- when it was made the current leaves were the captured ones
    have hsame : { o with current := o.captured } = o := by
      obtain ⟨expected, -, -, -, rfl⟩ := Tree.openAt_eq_ok_iff.mp hopen
      rfl
    rw [hrefreshed, hsame]
    exact valid_iff.mpr (ht.made.computeRoot_of_openAt hopen)

/-- The second of three items is opened and replaced. A list with a digest that is too short is
refused, and so is one without nodes; a refresh is all it takes for the opening to be accepted. -/
theorem Reachable.perform_after_three : ∃ o p,
    (Tree.ofItems .sha1 true [[], [2], [3]]).openAt [1] = .ok o
      ∧ o.after [.update [[4]]] = p ∧ p.current = [⟨some [4], o.algorithm.digest [4]⟩]
      ∧ p.perform (.updateDigests [[5], []]) = (.error (.node (.digestLength .sha1 1)), p)
      ∧ p.perform (.updateNodes []) = (.error (.opening (.leafCountMismatch 1 0)), p)
      ∧ (o.after ([.update [[4]], .updateDigests [[5], []]] ++ [.refresh])).valid = true := by
  have ht : (Tree.ofItems .sha1 true [[], [2], [3]]).Reachable := .ofItems _ _ _
  obtain ⟨o, hopen, halgorithm, hindices, -, -⟩ := Tree.exists_openAt_three
  have ho : o.Reachable := .opened ht hopen
  have hsize : o.algorithm.digestSize = 20 := by rw [halgorithm]; rfl
  obtain ⟨-, hok, -, -, -⟩ := Reachable.perform_after ho []
  obtain ⟨-, -, herror, -, -⟩ := Reachable.perform_after ho [.update [[4]]]
  obtain ⟨-, -, -, -, hvalid⟩ :=
    Reachable.perform_after ho [.update [[4]], .updateDigests [[5], []]]
  have hfits : (Call.update [[4]]).Fits o := ⟨trivial, by rw [hindices]; rfl⟩
  have hupdate : o.after [.update [[4]]] = { o with current := (Call.update [[4]]).leaves o } :=
    congrArg Prod.snd ((hok _ _).mpr ⟨hfits, rfl⟩)
  have hshort : Call.Refused o (.updateDigests ([] ++ [5] :: [[]])) _ :=
    .digest (by simp) (by rw [hsize]; decide)
  have hmissing : Call.Refused o (.updateNodes []) _ :=
    .count (by simp [Call.Proper]) (by simp [Call.leaves, hindices])
  rw [halgorithm] at hshort
  rw [hindices] at hmissing
  exact ⟨o, _, hopen, rfl, by rw [hupdate]; rfl, (herror _ _ _).mpr ⟨hshort, rfl⟩,
    (herror _ _ _).mpr ⟨hmissing, rfl⟩, hvalid _ [1] ht hopen⟩

end Opening

end HashTree
