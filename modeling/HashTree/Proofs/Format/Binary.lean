import HashTree.Format.Binary
import HashTree.Proofs.Wire.Mirror

/-!
# Documents as bytes and back

The readers of documents mirror the writers, field by field. So the documents that a byte string is
read as are those that are written as this byte string: there is at most one, and whatever was
written is read back.
-/

namespace HashTree

namespace Binary

open Read Output

variable {width : Nat} {kind : Kind} {c c' : Cursor} {bytes : Bytes}

/-! ## §1 Fields -/

/-- A head is read where one of the current version and the expected kind was written. -/
theorem mirrors_head : (readHead kind).Mirrors (writeHead kind) := by
  intro c c' name
  unfold readHead writeHead
  simp only [bind_eq_ok_iff, mirrors_u16 (c := c), between_append_iff]
  constructor
  · rintro ⟨version, c₁, hversion, h⟩
    split at h
    · exact (fail_ne_ok h).elim
    · next hcurrent =>
      rw [not_not.mp hcurrent] at hversion
      obtain ⟨tag, c₂, htag, h⟩ := bind_eq_ok_iff.1 h
      split at h
      · exact (fail_ne_ok h).elim
      · next hkind =>
        rw [not_not.mp hkind] at htag
        exact ⟨c₂, ⟨c₁, hversion, mirrors_u8.1 htag⟩, mirrors_text.1 h⟩
  · rintro ⟨c₂, ⟨c₁, hversion, htag⟩, hname⟩
    refine ⟨formatVersion, c₁, hversion, ?_⟩
    rw [if_neg (not_not.mpr rfl)]
    refine bind_eq_ok_iff.2 ⟨kind.tag, c₂, mirrors_u8.2 htag, ?_⟩
    rw [if_neg (not_not.mpr rfl)]
    exact mirrors_text.2 hname

theorem mirrors_payload {place : Section} : (readPayload place).Mirrors (writePayload place) :=
  mirrors_sized.option

theorem mirrors_indices {l l' : Label} : (readIndices l).Mirrors (writeIndices l') :=
  mirrors_u32.list solid_u32

/-! ## §2 Trees -/

theorem mirrors_node : (readNode width).Mirrors (writeNode width) := by
  intro c c' n
  unfold readNode writeNode
  simp only [bind_eq_ok_iff, pure_eq_ok_iff, between_append_iff]
  constructor
  · rintro ⟨d, c₁, hdigest, payload, c₂, hpayload, children, _, hchildren, rfl, rfl⟩
    exact ⟨c₂, ⟨c₁, mirrors_take.1 hdigest, mirrors_payload.1 hpayload⟩,
      mirrors_indices.1 hchildren⟩
  · rintro ⟨c₂, ⟨c₁, hdigest, hpayload⟩, hchildren⟩
    exact ⟨n.digest, c₁, mirrors_take.2 hdigest, n.payload, c₂, mirrors_payload.2 hpayload,
      n.children, c', mirrors_indices.2 hchildren, rfl, rfl⟩

/-- A node takes at least the bytes that count its children. -/
theorem solid_node (n : NodeDocument) : (writeNode width n).Solid :=
  solid_list.append_right

theorem mirrors_root : (Read.option ⟨.tree, "root"⟩ (Read.u32 ⟨.tree, "root"⟩)).Mirrors
    (Output.option Output.u32) :=
  mirrors_u32.option

theorem mirrors_nodes : (Read.list ⟨.tree, "nodes"⟩ (readNode width)).Mirrors
    (Output.list ⟨.tree, "nodes"⟩ (writeNode width)) :=
  mirrors_node.list solid_node

/-- **A byte string is read as the document that is written as it**, whose version is the current
one. -/
theorem readTree_run_eq_ok_iff {d : TreeDocument} : (readTree width).run bytes = .ok d
    ↔ d.version = formatVersion ∧ (writeTree width d).toExcept = .ok bytes := by
  rw [run_eq_ok_iff, ← exists_between_start_iff]
  unfold readTree writeTree
  simp only [bind_eq_ok_iff, pure_eq_ok_iff, finish_eq_ok_iff, between_append_iff]
  constructor
  · rintro ⟨_, name, c₁, hhead, root, c₂, hroot, leaves, c₃, hleaves, nodes, c₄, hnodes, _, _,
      ⟨hend, rfl⟩, rfl, rfl⟩
    exact ⟨rfl, c₄, ⟨c₃, ⟨c₂, ⟨c₁, mirrors_head.1 hhead, mirrors_root.1 hroot⟩,
      mirrors_indices.1 hleaves⟩, mirrors_nodes.1 hnodes⟩, hend⟩
  · rintro ⟨hversion, c₄, ⟨c₃, ⟨c₂, ⟨c₁, hhead, hroot⟩, hleaves⟩, hnodes⟩, hend⟩
    obtain ⟨version, name, root, leaves, nodes⟩ := d
    obtain rfl : version = formatVersion := hversion
    exact ⟨c₄, name, c₁, mirrors_head.2 hhead, root, c₂, mirrors_root.2 hroot, leaves, c₃,
      mirrors_indices.2 hleaves, nodes, c₄, mirrors_nodes.2 hnodes, (), c₄, ⟨hend, rfl⟩, rfl,
      rfl⟩

/-- The name of the algorithm is read off the front of a document. -/
theorem readHead_run_of_writeTree {d : TreeDocument}
    (h : (writeTree width d).toExcept = .ok bytes) : (readHead .tree).run bytes = .ok d.algorithm := by
  obtain ⟨c₄, hbetween, -⟩ := exists_between_start_iff.2 h
  unfold writeTree at hbetween
  simp only [between_append_iff] at hbetween
  obtain ⟨_, ⟨_, ⟨c₁, hhead, -⟩, -⟩, -⟩ := hbetween
  exact run_eq_ok_iff.2 ⟨c₁, mirrors_head.2 hhead⟩

/-! ## §3 Openings -/

/-- A slot is told by its tag, and each kind of slot has a tag of its own. -/
theorem mirrors_slot : (readSlot width).Mirrors (writeSlot width) := by
  intro c c' slot
  unfold readSlot
  simp only [bind_eq_ok_iff, mirrors_u8 (c := c)]
  constructor
  · rintro ⟨tag, c₁, htag, h⟩
    split at h
    · next hzero =>
      obtain ⟨digest, c₂, hdigest, hpure⟩ := bind_eq_ok_iff.1 h
      obtain ⟨rfl, rfl⟩ := pure_eq_ok_iff.1 hpure
      rw [hzero] at htag
      exact between_append_iff.2 ⟨c₁, htag, mirrors_take.1 hdigest⟩
    · split at h
      · next hone =>
        obtain ⟨rank, c₂, hrank, hpure⟩ := bind_eq_ok_iff.1 h
        obtain ⟨rfl, rfl⟩ := pure_eq_ok_iff.1 hpure
        rw [hone] at htag
        exact between_append_iff.2 ⟨c₁, htag, mirrors_u32.1 hrank⟩
      · split at h
        · next htwo =>
          obtain ⟨rfl, rfl⟩ := pure_eq_ok_iff.1 h
          rwa [htwo] at htag
        · exact (fail_ne_ok h).elim
  · intro hbetween
    cases slot with
    | sibling digest =>
      obtain ⟨c₁, htag, hdigest⟩ := between_append_iff.1 hbetween
      refine ⟨0, c₁, htag, ?_⟩
      rw [if_pos rfl]
      apply bind_eq_ok_iff.2
      exact ⟨digest, c', mirrors_take.2 hdigest, rfl⟩
    | leaf rank =>
      obtain ⟨c₁, htag, hrank⟩ := between_append_iff.1 hbetween
      refine ⟨1, c₁, htag, ?_⟩
      rw [if_neg (by decide), if_pos rfl]
      apply bind_eq_ok_iff.2
      exact ⟨rank, c', mirrors_u32.2 hrank, rfl⟩
    | child => exact ⟨2, c', hbetween, rfl⟩

/-- A slot takes at least its tag. -/
theorem solid_slot (slot : SlotDocument) : (writeSlot width slot).Solid := by
  have htag : ∀ tag : UInt8, (u8 tag).Solid := fun tag h => nomatch h
  cases slot with
  | sibling digest => exact (htag 0).append_left
  | leaf rank => exact (htag 1).append_left
  | child => exact htag 2

/-- A step takes at least the bytes that count its slots. -/
theorem mirrors_steps : (readSteps width).Mirrors (writeSteps width) := by
  apply Mirrors.list
  · exact mirrors_slot.list solid_slot
  · exact fun _ => solid_list

theorem mirrors_opened : (readOpened width).Mirrors (writeOpened width) := by
  intro c c' leaf
  unfold readOpened writeOpened
  simp only [bind_eq_ok_iff, pure_eq_ok_iff, between_append_iff]
  constructor
  · rintro ⟨payload, c₁, hpayload, digest, c₂, hdigest, rfl, rfl⟩
    exact ⟨c₁, mirrors_payload.1 hpayload, mirrors_take.1 hdigest⟩
  · rintro ⟨c₁, hpayload, hdigest⟩
    exact ⟨leaf.payload, c₁, mirrors_payload.2 hpayload, leaf.digest, c',
      mirrors_take.2 hdigest, rfl, rfl⟩

/-- A leaf takes at least the flag of its payload. -/
theorem solid_opened (leaf : Opened) : (writeOpened width leaf).Solid := by
  apply Solid.append_left
  cases h : leaf.payload with
  | none => exact fun h => nomatch h
  | some b =>
    have hflag : (flag true).Solid := fun h => nomatch h
    exact hflag.append_left

theorem mirrors_leaves {l l' : Label} :
    (Read.list l (readOpened width)).Mirrors (Output.list l' (writeOpened width)) :=
  mirrors_opened.list solid_opened

/-- **A byte string is read as the opening that is written as it**, whose version is the current
one. -/
theorem readOpening_run_eq_ok_iff {d : OpeningDocument} :
    (readOpening width).run bytes = .ok d
      ↔ d.version = formatVersion ∧ (writeOpening width d).toExcept = .ok bytes := by
  rw [run_eq_ok_iff, ← exists_between_start_iff]
  unfold readOpening writeOpening
  simp only [bind_eq_ok_iff, pure_eq_ok_iff, finish_eq_ok_iff, between_append_iff]
  constructor
  · rintro ⟨_, name, c₁, hhead, indices, c₂, hindices, expected, c₃, hexpected, steps, c₄, hsteps,
      captured, c₅, hcaptured, current, c₆, hcurrent, _, _, ⟨hend, rfl⟩, rfl, rfl⟩
    exact ⟨rfl, c₆, ⟨c₅, ⟨c₄, ⟨c₃, ⟨c₂, ⟨c₁, mirrors_head.1 hhead, mirrors_indices.1 hindices⟩,
      mirrors_take.1 hexpected⟩, mirrors_steps.1 hsteps⟩, mirrors_leaves.1 hcaptured⟩,
      mirrors_leaves.1 hcurrent⟩, hend⟩
  · rintro ⟨hversion, c₆, ⟨c₅, ⟨c₄, ⟨c₃, ⟨c₂, ⟨c₁, hhead, hindices⟩, hexpected⟩, hsteps⟩,
      hcaptured⟩, hcurrent⟩, hend⟩
    obtain ⟨version, name, indices, expected, steps, captured, current⟩ := d
    obtain rfl : version = formatVersion := hversion
    exact ⟨c₆, name, c₁, mirrors_head.2 hhead, indices, c₂, mirrors_indices.2 hindices,
      expected, c₃, mirrors_take.2 hexpected, steps, c₄, mirrors_steps.2 hsteps,
      captured, c₅, mirrors_leaves.2 hcaptured, current, c₆, mirrors_leaves.2 hcurrent,
      (), c₆, ⟨hend, rfl⟩, rfl, rfl⟩

/-- The name of the algorithm is read off the front of an opening. -/
theorem readHead_run_of_writeOpening {d : OpeningDocument}
    (h : (writeOpening width d).toExcept = .ok bytes) :
    (readHead .opening).run bytes = .ok d.algorithm := by
  obtain ⟨c₆, hbetween, -⟩ := exists_between_start_iff.2 h
  unfold writeOpening at hbetween
  simp only [between_append_iff] at hbetween
  obtain ⟨_, ⟨_, ⟨_, ⟨_, ⟨c₁, hhead, -⟩, -⟩, -⟩, -⟩, -⟩ := hbetween
  exact run_eq_ok_iff.2 ⟨c₁, mirrors_head.2 hhead⟩

end Binary

end HashTree
