import HashTree.Proofs.Opening.Dump
import HashTree.Proofs.Wire.CutShort

/-!
# Dumps that tell where they end

A dump has no length of its own, but under its algorithm it shows where it ends. If some bytes at its
end are missing, loading fails as **the bytes end too early**, and for no other reason; if bytes
follow, all of the dump is read before **the bytes behind it** are refused, and they are counted.
-/

namespace HashTree

open Outcome

namespace Binary

open Read Output

variable {width : Nat} {kind : Kind}

/-! ## §1 Parts of documents -/

/-- The version and the kind are as expected up to the cut. -/
theorem needs_head {name : String} : (readHead kind).Needs (writeHead kind name) := by
  unfold readHead writeHead
  rw [Output.append_assoc]
  refine needs_u16.bind mirrors_u16 ?_
  rw [if_neg (not_not.mpr rfl)]
  refine needs_u8.bind mirrors_u8 ?_
  rw [if_neg (not_not.mpr rfl)]
  exact needs_text

theorem needs_payload {place : Section} {payload : Option Bytes} :
    (readPayload place).Needs (writePayload place payload) :=
  Needs.option (fun _ => needs_sized) payload

theorem needs_indices {l m : Label} {indices : List UInt32} :
    (readIndices l).Needs (writeIndices m indices) :=
  Needs.list mirrors_u32 (fun _ => needs_u32) indices

theorem needs_node {n : NodeDocument} : (readNode width).Needs (writeNode width n) := by
  unfold readNode writeNode
  rw [Output.append_assoc]
  refine needs_digest.bind mirrors_take ?_
  refine needs_payload.bind mirrors_payload ?_
  exact needs_indices.bind_left

theorem needs_slot {slot : SlotDocument} : (readSlot width).Needs (writeSlot width slot) := by
  unfold readSlot
  -- the tag is one that was written, so it picks what was written after it
  cases slot with
  | sibling digest => exact needs_u8.bind mirrors_u8 needs_digest.bind_left
  | leaf rank => exact needs_u8.bind mirrors_u8 needs_u32.bind_left
  | child => exact needs_u8.bind_left

theorem needs_steps {steps : List (List SlotDocument)} :
    (readSteps width).Needs (writeSteps width steps) :=
  Needs.list (mirrors_slot.list solid_slot) (Needs.list mirrors_slot fun _ => needs_slot) steps

theorem needs_opened {leaf : Opened} : (readOpened width).Needs (writeOpened width leaf) := by
  unfold readOpened writeOpened
  refine needs_payload.bind mirrors_payload ?_
  exact needs_digest.bind_left

theorem needs_leaves {l m : Label} {leaves : List Opened} :
    (Read.list l (readOpened width)).Needs (Output.list m (writeOpened width) leaves) :=
  Needs.list mirrors_opened (fun _ => needs_opened) leaves

/-! ## §2 Documents -/

/-- Nothing is asked of a tree but bytes until the last of its nodes is read. -/
theorem needs_tree {d : TreeDocument} : (readTree width).Needs (writeTree width d) := by
  unfold readTree writeTree
  rw [Output.append_assoc, Output.append_assoc]
  refine needs_head.bind mirrors_head ?_
  refine (Needs.option (fun _ => needs_u32) d.root).bind mirrors_root ?_
  refine needs_indices.bind mirrors_indices ?_
  -- what comes after the nodes puts out nothing, so no cut goes through it
  exact (Needs.list mirrors_node (fun _ => needs_node) d.nodes).bind_left

theorem needs_opening {d : OpeningDocument} : (readOpening width).Needs (writeOpening width d) := by
  unfold readOpening writeOpening
  simp only [Output.append_assoc]
  refine needs_head.bind mirrors_head ?_
  refine needs_indices.bind mirrors_indices ?_
  refine needs_digest.bind mirrors_take ?_
  refine needs_steps.bind mirrors_steps ?_
  refine needs_leaves.bind mirrors_leaves ?_
  exact needs_leaves.bind_left

/-- A document with bytes behind it is read to its end, and then these are refused. -/
theorem readTree_run_continued {d : TreeDocument} {b more : Bytes}
    (h : (writeTree width d).toExcept = .ok b) (hmore : more ≠ []) :
    (readTree width).run (b ++ more) = .error ⟨.tree, .trailingBytes b.length more.length⟩ := by
  have hbetween : (writeTree width d).Between (Cursor.start (b ++ more)) ⟨b.length, more⟩ :=
    ⟨b, h, rfl, (Nat.zero_add _).symm⟩
  unfold writeTree at hbetween
  simp only [between_append_iff] at hbetween
  obtain ⟨c₃, ⟨c₂, ⟨c₁, hhead, hroot⟩, hleaves⟩, hnodes⟩ := hbetween
  -- each part leads to the next cursor, and the last one to the bytes behind
  rw [Read.run, readTree, bind_of_ok (mirrors_head.mpr hhead), bind_of_ok (mirrors_root.mpr hroot),
    bind_of_ok (mirrors_indices.mpr hleaves), bind_of_ok (mirrors_nodes.mpr hnodes),
    bind_of_error (finish_of_ne_nil hmore)]
  rfl

theorem readOpening_run_continued {d : OpeningDocument} {b more : Bytes}
    (h : (writeOpening width d).toExcept = .ok b) (hmore : more ≠ []) :
    (readOpening width).run (b ++ more)
      = .error ⟨.proof, .trailingBytes b.length more.length⟩ := by
  have hbetween : (writeOpening width d).Between (Cursor.start (b ++ more)) ⟨b.length, more⟩ :=
    ⟨b, h, rfl, (Nat.zero_add _).symm⟩
  unfold writeOpening at hbetween
  simp only [between_append_iff] at hbetween
  obtain ⟨c₅, ⟨c₄, ⟨c₃, ⟨c₂, ⟨c₁, hhead, hindices⟩, hexpected⟩, hsteps⟩, hcaptured⟩, hcurrent⟩ :=
    hbetween
  rw [Read.run, readOpening, bind_of_ok (mirrors_head.mpr hhead),
    bind_of_ok (mirrors_indices.mpr hindices), bind_of_ok (mirrors_take.mpr hexpected),
    bind_of_ok (mirrors_steps.mpr hsteps), bind_of_ok (mirrors_leaves.mpr hcaptured),
    bind_of_ok (mirrors_leaves.mpr hcurrent), bind_of_error (finish_of_ne_nil hmore)]
  rfl

end Binary

/-! ## §3 Loading under the right algorithm -/

/-- The bytes **tell where they end** to whoever loads them: with bytes missing they end too early,
and bytes behind them are refused for being there. -/
structure SelfDelimiting {α : Type} (load : Bytes → Except FormatError α) (place : Section)
    (bytes : Bytes) : Prop where
  cut_short : ∀ part : Bytes, part.CutFrom bytes → ∃ e, load part = .error e ∧ e.EndsEarly
  continued : ∀ more : Bytes, more ≠ [] →
    load (bytes ++ more) = .error ⟨place, .trailingBytes bytes.length more.length⟩

/-- What a document is under the algorithm that it names is what this algorithm makes of it. -/
theorem resolve_own_name {α : Type} {place : Section} {a : Algorithm}
    {attempt : Algorithm → Except FormatError α} :
    resolve place a.name (some a) attempt = attempt a := by
  simp only [resolve, Algorithm.ofName?_name, if_true]

namespace Binary

/-- A document is found under the name in its head, unless the head is cut, and then read. -/
private theorem selfDelimiting_of_needs {α β : Type} {kind : Kind} {place : Section} {a : Algorithm}
    (read : Algorithm → Read α) (restore : Algorithm → α → Except FormatError β) {o p : Output}
    {bytes : Bytes} (ho : o = writeHead kind a.name ++ p) (hbytes : o.toExcept = .ok bytes)
    (hneeds : (read a).Needs o)
    (hcontinued : ∀ more, more ≠ [] →
      (read a).run (bytes ++ more) = .error ⟨place, .trailingBytes bytes.length more.length⟩) :
    SelfDelimiting (fun bytes => do
      let named ← (readHead kind).run bytes
      resolve place named (some a) fun b => do
        let d ← (read b).run bytes
        restore b d) place bytes := by
  subst ho
  obtain ⟨x, y, hx, -, rfl⟩ := Output.toExcept_append_eq_ok_iff.mp hbytes
  constructor
  · intro part hcut
    -- the head is cut, or it is read and names the algorithm
    rcases needs_head.or_read mirrors_head hx hcut 0 with hout | ⟨part', -, hhead⟩
    · obtain ⟨e, hread, he⟩ := hout.run
      exact ⟨e, bind_eq_error_iff.mpr (.inl hread), he⟩
    · obtain ⟨e, hread, he⟩ := (hneeds 0 _ part hbytes hcut).run
      have hhead := Read.run_eq_ok_iff.mpr ⟨_, hhead⟩
      refine ⟨e, ?_, he⟩
      rw [hhead, ok_bind, resolve_own_name, hread]
      rfl
  · intro more hmore
    have hhead : (readHead kind).run (x ++ y ++ more) = .ok a.name := by
      rw [List.append_assoc]
      exact Read.run_eq_ok_iff.mpr ⟨_, mirrors_head.read hx 0 (y ++ more)⟩
    rw [hhead, ok_bind, resolve_own_name, hcontinued more hmore]
    rfl

end Binary

theorem Tree.selfDelimiting_of_dump {t : Tree} {bytes : Bytes} (hdump : t.dump .binary = .ok bytes) :
    SelfDelimiting (Tree.load · .binary (some t.algorithm)) .tree bytes := by
  obtain ⟨d, hdocument, hwrite⟩ := bind_eq_ok_iff.mp hdump
  obtain ⟨rfl, -⟩ := toDocument_eq_ok_iff.mp hdocument
  have hfront : ∃ p, Binary.writeTree t.algorithm.digestSize t.document
      = Binary.writeHead .tree t.algorithm.name ++ p := by
    rw [Binary.writeTree, Output.append_assoc, Output.append_assoc]
    exact ⟨_, rfl⟩
  obtain ⟨p, hp⟩ := hfront
  exact Binary.selfDelimiting_of_needs (fun a => Binary.readTree a.digestSize)
    (fun a d => d.restore a) hp hwrite Binary.needs_tree
    fun more hmore => Binary.readTree_run_continued hwrite hmore

theorem Opening.selfDelimiting_of_dump {o : Opening} {bytes : Bytes}
    (hdump : o.dump .binary = .ok bytes) :
    SelfDelimiting (Opening.load · .binary (some o.algorithm)) .proof bytes := by
  obtain ⟨d, hdocument, hwrite⟩ := bind_eq_ok_iff.mp hdump
  obtain ⟨rfl, -⟩ := toDocument_eq_ok_iff.mp hdocument
  have hfront : ∃ p, Binary.writeOpening o.algorithm.digestSize o.document
      = Binary.writeHead .opening o.algorithm.name ++ p := by
    simp only [Binary.writeOpening, Output.append_assoc]
    exact ⟨_, rfl⟩
  obtain ⟨p, hp⟩ := hfront
  exact Binary.selfDelimiting_of_needs (fun a => Binary.readOpening a.digestSize)
    (fun a d => d.restore a) hp hwrite Binary.needs_opening
    fun more hmore => Binary.readOpening_run_continued hwrite hmore

/-- **Dumps are self-delimiting under the right algorithm.** Cut the bytes of a tree or an opening
anywhere, and loading reports that they end too early: inside a field, or before the items that a
count announces. Add bytes, and it reports how many were read and how many are left. -/
theorem dump_selfDelimiting {b : Bytes} :
    (∀ t : Tree, t.dump .binary = .ok b →
        SelfDelimiting (Tree.load · .binary (some t.algorithm)) .tree b)
      ∧ ∀ o : Opening, o.dump .binary = .ok b →
        SelfDelimiting (Opening.load · .binary (some o.algorithm)) .proof b :=
  ⟨fun _ hdump => Tree.selfDelimiting_of_dump hdump,
    fun _ hdump => Opening.selfDelimiting_of_dump hdump⟩

/-- The tree of three items and the opening of the second are dumped. Without its last byte neither
dump is loaded, and with one more byte this one is reported. -/
theorem dump_selfDelimiting_three : ∃ o b c,
    (Tree.ofItems .sha1 true [[], [2], [3]]).openAt [1] = .ok o
      ∧ (Tree.ofItems .sha1 true [[], [2], [3]]).dump .binary = .ok b
      ∧ (∃ e, Tree.load b.dropLast .binary (some .sha1) = .error e ∧ e.EndsEarly)
      ∧ Tree.load (b ++ [0]) .binary (some .sha1) = .error ⟨.tree, .trailingBytes b.length 1⟩
      ∧ o.dump .binary = .ok c
      ∧ (∃ e, Opening.load c.dropLast .binary (some .sha1) = .error e ∧ e.EndsEarly)
      ∧ Opening.load (c ++ [0]) .binary (some .sha1) = .error ⟨.proof, .trailingBytes c.length 1⟩ := by
  have hmade := Tree.ofItems_made .sha1 true [[], [2], [3]]
  obtain ⟨hsize, hpayload⟩ := Tree.ofItems_three_fits
  obtain ⟨o, hopen, ho, -, hcurrent, hsmall⟩ := Tree.exists_openAt_three
  obtain ⟨b, hb⟩ := hmade.exists_dump hsize hpayload .binary
  have hsound := hmade.sound_of_openAt hopen
  obtain ⟨c, hc⟩ := hmade.exists_dump_of_openAt hopen hsound.length_current hsound.current hsize
    (by simpa [hcurrent] using hsmall) .binary
  have htree := dump_selfDelimiting.1 _ hb
  have hopening := dump_selfDelimiting.2 _ hc
  rw [Tree.algorithm_ofItems] at htree
  rw [ho] at hopening
  -- from no bytes nothing is loaded, so either dump has a last one
  have hb_ne : b ≠ [] := by
    rintro rfl
    cases hmade.load_of_dump hb (.inl rfl)
  have hc_ne : c ≠ [] := by
    rintro rfl
    cases hsound.load_of_dump hc (.inl rfl)
  exact ⟨o, b, c, hopen, hb, htree.cut_short _ (Bytes.cutFrom_dropLast hb_ne),
    htree.continued [0] (by simp), hc, hopening.cut_short _ (Bytes.cutFrom_dropLast hc_ne),
    hopening.continued [0] (by simp)⟩

end HashTree
