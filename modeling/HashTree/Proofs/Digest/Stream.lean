import HashTree.Proofs.Digest.Size

/-!
# Running digests over whole runs

A message may be handed over in pieces, and the pieces may end anywhere within a block. The bytes a
running digest holds back depend on the message alone, so that a digest depends on what was absorbed
and not on where the pieces ended.

From this one fact a whole run is read off. Several running digests stand side by side on a
**bench**: bytes are added to one, its digest is asked for, it starts over, it is cloned, and a clone
takes the place of another. Beside the bench goes a **record** for each place, the pieces absorbed
there since the last fresh start, and the record says what every digest of the run is.
-/

namespace HashTree

/-! ## §1 Pieces of a message -/

namespace BlockDigest

variable {d : BlockDigest}

/-- A block or less is held back. -/
theorem drain_of_le (state : d.State) (absorbed : Nat) {bytes : Bytes}
    (h : bytes.length ≤ d.blockSize) : d.drain state absorbed bytes = ⟨state, absorbed, bytes⟩ := by
  have hrest : bytes.drop d.blockSize = [] := List.drop_eq_nil_of_le h
  rw [drain]
  split <;> simp_all

/-- Of more than a block, the first block is absorbed. -/
theorem drain_of_lt (state : d.State) (absorbed : Nat) {bytes : Bytes}
    (h : d.blockSize < bytes.length) :
    d.drain state absorbed bytes = d.drain
      (d.absorb state (absorbed + d.blockSize) (bytes.take d.blockSize)) (absorbed + d.blockSize)
      (bytes.drop d.blockSize) := by
  have hrest : bytes.drop d.blockSize ≠ [] := by
    rw [ne_eq, List.drop_eq_nil_iff]
    omega
  rw [drain.eq_def d state absorbed bytes]
  split
  · rename_i hnil
    exact absurd hnil hrest
  · rename_i hcons
    rw [hcons]

/-- What was held back is absorbed like any other bytes once more of them follow. -/
theorem drain_drain (state : d.State) (absorbed : Nat) (bytes more : Bytes) :
    d.drain (d.drain state absorbed bytes).state (d.drain state absorbed bytes).absorbed
      ((d.drain state absorbed bytes).pending ++ more) = d.drain state absorbed (bytes ++ more) := by
  by_cases hlen : bytes.length ≤ d.blockSize
  · rw [drain_of_le _ _ hlen]
  · -- The same first block is absorbed with the further bytes and without them.
    have hlt : d.blockSize < bytes.length := by omega
    have hmore : d.blockSize < (bytes ++ more).length := by
      rw [List.length_append]
      omega
    have hle : d.blockSize ≤ bytes.length := by omega
    rw [drain_of_lt _ _ hlt, drain_of_lt _ _ hmore, List.take_append_of_le_length hle,
      List.drop_append_of_le_length hle]
    exact drain_drain ..
termination_by bytes.length
decreasing_by
  rw [List.length_drop]
  simp only [blockSize] at hlt ⊢
  omega

namespace Running

/-- Two pieces in a row are **one piece**. -/
theorem update_update (r : Running d) (chunk next : Bytes) :
    (r.update chunk).update next = r.update (chunk ++ next) := by
  rw [update, update, update, drain_drain, List.append_assoc]

/-- An empty piece changes nothing at the start. -/
theorem update_fresh_nil : (fresh d).update [] = fresh d :=
  drain_of_le _ _ (Nat.zero_le _)

end Running

end BlockDigest

namespace RunningDigest

/-- Two pieces in a row are one piece, under every algorithm. -/
theorem update_update (r : RunningDigest) (chunk next : Bytes) :
    (r.update chunk).update next = r.update (chunk ++ next) := by
  simp only [update, BlockDigest.Running.update_update]

/-- An empty piece changes nothing at the start, under every algorithm. -/
theorem update_fresh_nil (a : Algorithm) : (fresh a).update [] = fresh a := by
  simp only [update, fresh, BlockDigest.Running.update_fresh_nil]

end RunningDigest

/-! ## §2 Benches -/

/-- **How values are handled**: what each move does to the one value it is about. -/
structure Handling (σ α : Type) where
  fresh : Algorithm → σ
  update : σ → Bytes → σ
  digest : σ → α
  digestReset : σ → α × σ
  digestOf : σ → Bytes → α

namespace Handling

/-- **A move** on a bench. Places count from zero, in the order in which values were put there. -/
inductive Move where
  /-- Puts a fresh value down after the others. -/
  | fresh (a : Algorithm)
  /-- Adds bytes to a value. -/
  | update (place : Nat) (chunk : Bytes)
  /-- Asks for the digest of what a value absorbed. Whether the value is used afterwards is up to
  the run. -/
  | digest (place : Nat)
  /-- Asks for that digest and makes the value start over. -/
  | digestReset (place : Nat)
  /-- Asks a value for the digest of another message. -/
  | digestOf (place : Nat) (message : Bytes)
  /-- Puts a copy of a value down after the others. -/
  | clone (place : Nat)
  /-- Puts a copy of a saved value in the place of another. -/
  | restore (place saved : Nat)

variable {σ τ α β : Type}

/-- One move: the answer, if one was asked for, and the bench after it. A place that holds nothing
answers nothing and stays as it is. -/
def act (h : Handling σ α) (bench : List σ) : Move → Option α × List σ
  | .fresh a => (none, bench ++ [h.fresh a])
  | .update place chunk => (none, bench.modify place (h.update · chunk))
  | .digest place => (bench[place]?.map h.digest, bench)
  | .digestReset place =>
    (bench[place]?.map fun value => (h.digestReset value).1,
      bench.modify place fun value => (h.digestReset value).2)
  | .digestOf place message => (bench[place]?.map (h.digestOf · message), bench)
  | .clone place => (none, bench ++ bench[place]?.toList)
  | .restore place saved => (none, (bench[saved]?.map (bench.set place ·)).getD bench)

/-- A run: the answers in order and the bench at the end. -/
def run (h : Handling σ α) (bench : List σ) : List Move → List (Option α) × List σ
  | [] => ([], bench)
  | move :: moves =>
    let (answer, after) := h.act bench move
    let (answers, last) := h.run after moves
    (answer :: answers, last)

/-- Running digests, handled as they are. -/
def running : Handling RunningDigest Digest where
  fresh := RunningDigest.fresh
  update := RunningDigest.update
  digest := RunningDigest.digest
  digestReset := RunningDigest.digestReset
  digestOf := RunningDigest.digestOf

/-! ## §3 Benches beside each other -/

/-- **One way of handling carried to another**: a change of values that goes with everything done to
them, and a change of answers that goes with everything asked of them. -/
structure Carries (h : Handling σ α) (k : Handling τ β) (f : σ → τ) (g : α → β) : Prop where
  fresh (a : Algorithm) : k.fresh a = f (h.fresh a)
  update (value : σ) (chunk : Bytes) : k.update (f value) chunk = f (h.update value chunk)
  digest (value : σ) : k.digest (f value) = g (h.digest value)
  digestReset (value : σ) :
    k.digestReset (f value) = (g (h.digestReset value).1, f (h.digestReset value).2)
  digestOf (value : σ) (message : Bytes) :
    k.digestOf (f value) message = g (h.digestOf value message)

variable {h : Handling σ α} {k : Handling τ β} {f : σ → τ} {g : α → β}

omit h k g in
/-- A change of one value is carried over. -/
private theorem modify_map {change : σ → σ} {changed : τ → τ}
    (hf : ∀ value, changed (f value) = f (change value)) (bench : List σ) (place : Nat) :
    (bench.map f).modify place changed = (bench.modify place change).map f := by
  refine List.ext_getElem? fun i => ?_
  simp only [List.getElem?_map, List.getElem?_modify]
  cases bench[i]? with
  | none => rfl
  | some value => by_cases hi : place = i <;> simp [hi, hf]

/-- A move is carried over. -/
theorem Carries.act (hc : Carries h k f g) (bench : List σ) (move : Move) :
    k.act (bench.map f) move
      = ((h.act bench move).1.map g, (h.act bench move).2.map f) := by
  -- each move is about one place, and what it does there is one of the rules
  cases move with
  | fresh a => simp [Handling.act, hc.fresh]
  | update place chunk =>
    simp only [Handling.act, Option.map_none]
    rw [modify_map fun value => hc.update value chunk]
  | digest place => simp [Handling.act, hc.digest, Function.comp_def]
  | digestReset place =>
    have hkept (value : σ) : (k.digestReset (f value)).2 = f (h.digestReset value).2 := by
      rw [hc.digestReset]
    simp only [Handling.act, List.getElem?_map, Option.map_map, Function.comp_def, hc.digestReset]
    rw [modify_map hkept]
  | digestOf place message => simp [Handling.act, hc.digestOf, Function.comp_def]
  | clone place => cases hv : bench[place]? <;> simp [Handling.act, hv]
  | restore place saved => cases hv : bench[saved]? <;> simp [Handling.act, hv, List.map_set]

/-- A whole run is carried over. -/
theorem Carries.run (hc : Carries h k f g) (bench : List σ) (moves : List Move) :
    k.run (bench.map f) moves
      = ((h.run bench moves).1.map (Option.map g), (h.run bench moves).2.map f) := by
  induction moves generalizing bench with
  | nil => rfl
  | cons move moves ih => simp only [Handling.run, hc.act, ih, List.map_cons]

end Handling

/-! ## §4 Records -/

/-- **What a place absorbed** since its last fresh start, piece by piece. -/
structure Absorbed where
  algorithm : Algorithm
  chunks : List Bytes
  deriving DecidableEq

namespace Absorbed

/-- The digest of all pieces put together. -/
def digest (r : Absorbed) : Digest :=
  r.algorithm.digest r.chunks.flatten

/-- A running digest that absorbed all pieces at once. -/
def replay (r : Absorbed) : RunningDigest :=
  (RunningDigest.fresh r.algorithm).update r.chunks.flatten

end Absorbed

namespace Handling

/-- Records kept beside a bench. A record goes along with clones, and its answer to a question is
the record of the message in question. -/
def recorded : Handling Absorbed Absorbed where
  fresh a := ⟨a, []⟩
  update r chunk := ⟨r.algorithm, r.chunks ++ [chunk]⟩
  digest r := r
  digestReset r := (r, ⟨r.algorithm, []⟩)
  digestOf r message := ⟨r.algorithm, [message]⟩

/-- Replayed, records are running digests, and their answers are digests of whole messages. -/
theorem carries_recorded : Carries recorded running Absorbed.replay Absorbed.digest where
  fresh a := (RunningDigest.update_fresh_nil a).symm
  update r chunk := by
    have hflat : (r.chunks ++ [chunk]).flatten = r.chunks.flatten ++ chunk := by simp
    show (RunningDigest.update _ _).update chunk
      = (RunningDigest.fresh r.algorithm).update (r.chunks ++ [chunk]).flatten
    rw [RunningDigest.update_update, hflat]
  digest _ := rfl
  digestReset r := by
    show (_, RunningDigest.fresh r.algorithm)
      = (_, (RunningDigest.fresh r.algorithm).update [])
    rw [RunningDigest.update_fresh_nil]
    rfl
  digestOf r message := by
    show r.algorithm.digest message = r.algorithm.digest [message].flatten
    rw [List.flatten_singleton]

/-- Adding a move to a run answers it last. -/
theorem run_concat (h : Handling σ α) (bench : List σ) (moves : List Move) (move : Move) :
    h.run bench (moves ++ [move])
      = ((h.run bench moves).1 ++ [(h.act (h.run bench moves).2 move).1],
        (h.act (h.run bench moves).2 move).2) := by
  induction moves generalizing bench with
  | nil => rfl
  | cons first moves ih => simp only [List.cons_append, run, ih]

/-! ## §5 Whole runs -/

/-- Over **any run**, with running digests of any algorithms side by side, every digest is that of
the pieces on record, put together and handed over at once, and has the size of its algorithm; and
asking for the digest of another message leaves the whole bench as it is. -/
theorem answers_running (moves : List Move) :
    (running.run [] moves).1 = (recorded.run [] moves).1.map (Option.map Absorbed.digest) ∧
      (running.run [] moves).1.map (Option.map List.length)
        = (recorded.run [] moves).1.map (Option.map (·.algorithm.digestSize)) ∧
      ∀ place message,
        (running.run [] (moves ++ [.digestOf place message])).2 = (running.run [] moves).2 := by
  have hanswers : (running.run [] moves).1
      = (recorded.run [] moves).1.map (Option.map Absorbed.digest) :=
    congrArg Prod.fst (carries_recorded.run [] moves)
  refine ⟨hanswers, ?_, fun place message => ?_⟩
  · -- the digest of a record has the size of its algorithm, whatever was absorbed
    have hsize : List.length ∘ Absorbed.digest = fun r => r.algorithm.digestSize :=
      funext fun r => r.algorithm.length_digest r.chunks.flatten
    rw [hanswers, List.map_map, Option.map_comp_map, hsize]
  · -- the question comes last and is answered from the bench as it stands
    rw [run_concat]
    rfl

/-- Two pieces, a clone between them and a fresh start: the clone remembers the first piece only. -/
example : (recorded.run []
    [.fresh .sha1, .update 0 [1], .clone 0, .update 0 [2, 3], .digestReset 0, .digest 0,
      .restore 0 1, .digest 0]).1
    = [none, none, none, none, some ⟨.sha1, [[1], [2, 3]]⟩, some ⟨.sha1, []⟩, none,
      some ⟨.sha1, [[1]]⟩] := by
  decide

end Handling

end HashTree
