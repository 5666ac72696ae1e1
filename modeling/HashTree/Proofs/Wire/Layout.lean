import HashTree.Proofs.Wire.Mirror
import HashTree.Wire.Layout

/-!
# Fields and the layouts that describe them

A layout **describes** a field when it asks for what the field holds, through options and lists to
any depth. Such fields, one after the other, are written as bytes that the layouts take apart again,
wherever these bytes stand. What is read is what the fields hold, and the cursor is left at the end
of the last one.
-/

namespace HashTree

/-! ## §1 What fields hold -/

namespace Field

mutual

/-- What a field holds, without the labels it is written under. -/
def datum : Field → Datum
  | .u8 n => .number n.toNat
  | .u16 n => .number n.toNat
  | .u32 n => .number n.toNat
  | .index _ n => .number n
  | .flag b => .flag b
  | .sized _ bytes => .bytes bytes
  | .text _ s => .text s
  | .digest _ _ d => .bytes d
  | .absent => .absent
  | .present item => .present item.datum
  | .list _ items => .list (data items)

/-- What each of some fields holds. -/
def data : List Field → List Datum
  | [] => []
  | item :: items => item.datum :: data items

end

theorem data_eq_map (fields : List Field) : data fields = fields.map datum := by
  induction fields with
  | nil => rfl
  | cons field fields ih => rw [data, ih, List.map_cons]

/-- The **sizes of a field fit**: indices, lengths and counts fit four bytes, a digest has its width,
and every item of a list takes a byte. -/
inductive Fits : Field → Prop where
  | u8 (n : UInt8) : Fits (.u8 n)
  | u16 (n : UInt16) : Fits (.u16 n)
  | u32 (n : UInt32) : Fits (.u32 n)
  | index (l : Label) {n : Nat} (h : n < UInt32.size) : Fits (.index l n)
  | flag (b : Bool) : Fits (.flag b)
  | sized (l : Label) {bytes : Bytes} (h : bytes.length < UInt32.size) : Fits (.sized l bytes)
  | text (l : Label) {s : String} (h : (Bytes.ofText s).length < UInt32.size) : Fits (.text l s)
  | digest (l : Label) {width : Nat} {d : Bytes} (h : d.length = width) : Fits (.digest l width d)
  | absent : Fits .absent
  | present {item : Field} (h : Fits item) : Fits (.present item)
  | list (l : Label) {items : List Field} (hcount : items.length < UInt32.size)
    (hitems : ∀ item ∈ items, Fits item) (hbyte : ∀ item ∈ items, item.write.bytes ≠ []) :
    Fits (.list l items)

end Field

namespace Layout

/-- The layout **asks for what the field holds**. Labels are told to whoever meets a failure, and
those of the layout need not be those of the field. One layout describes all items of a list. -/
inductive Describes : Layout → Field → Prop where
  | u8 (l : Label) (n : UInt8) : Describes (.u8 l) (.u8 n)
  | u16 (l : Label) (n : UInt16) : Describes (.u16 l) (.u16 n)
  | u32 (l : Label) (n : UInt32) : Describes (.u32 l) (.u32 n)
  /-- An index is a number of four bytes. -/
  | index (l m : Label) (n : Nat) : Describes (.u32 l) (.index m n)
  | flag (l : Label) (b : Bool) : Describes (.flag l) (.flag b)
  | sized (l m : Label) (bytes : Bytes) : Describes (.sized l) (.sized m bytes)
  | text (l m : Label) (s : String) : Describes (.text l) (.text m s)
  | digest (l m : Label) (width : Nat) (d : Bytes) :
    Describes (.digest l width) (.digest m width d)
  | absent (l : Label) (item : Layout) : Describes (.option l item) .absent
  | present (l : Label) {item : Layout} {field : Field} (h : Describes item field) :
    Describes (.option l item) (.present field)
  | list (l m : Label) {item : Layout} {fields : List Field}
    (h : ∀ field ∈ fields, Describes item field) : Describes (.list l item) (.list m fields)

/-- Reads layout after layout. -/
def readEach : List Layout → Read (List Datum)
  | [] => return []
  | layout :: layouts => do
    let d ← layout.read
    let rest ← readEach layouts
    return d :: rest

end Layout

/-! ## §2 Fields that fit are written -/

namespace Field

open Output

private theorem written_concat {fields : List Field}
    (h : ∀ field ∈ fields, ∃ x, field.write.toExcept = .ok x) :
    ∃ x, (concat (fields.map write)).toExcept = .ok x := by
  induction fields with
  | nil => exact ⟨[], rfl⟩
  | cons field fields ih =>
    obtain ⟨hfield, hfields⟩ := List.forall_mem_cons.mp h
    obtain ⟨x, hx⟩ := hfield
    obtain ⟨y, hy⟩ := ih hfields
    refine ⟨x ++ y, ?_⟩
    rw [List.map_cons, concat_cons]
    exact toExcept_append_eq_ok_iff.mpr ⟨x, y, hx, hy, rfl⟩

private theorem written_sized {l : Label} {bytes : Bytes} (h : bytes.length < UInt32.size) :
    ∃ x, (Output.sized l bytes).toExcept = .ok x :=
  ⟨_, toExcept_append_eq_ok_iff.mpr
    ⟨_, _, toExcept_index_eq_ok_iff.mpr ⟨h, rfl⟩, toExcept_ofBytes bytes, rfl⟩⟩

/-- A field whose sizes fit is written. -/
theorem Fits.written {field : Field} (h : field.Fits) : ∃ x, field.write.toExcept = .ok x := by
  induction h with
  | u8 n => exact ⟨_, rfl⟩
  | u16 n => exact ⟨_, rfl⟩
  | u32 n => exact ⟨_, rfl⟩
  | index l h => exact ⟨_, toExcept_index_eq_ok_iff.mpr ⟨h, rfl⟩⟩
  | flag b => exact ⟨_, rfl⟩
  | sized l h => exact written_sized h
  | text l h => exact written_sized h
  | digest l h => exact ⟨_, toExcept_digest_eq_ok_iff.mpr ⟨h, rfl⟩⟩
  | absent => exact ⟨_, rfl⟩
  | present h ih =>
    obtain ⟨x, hx⟩ := ih
    exact ⟨_, toExcept_append_eq_ok_iff.mpr ⟨_, x, rfl, hx, rfl⟩⟩
  | list l hcount hitems hbyte ih =>
    obtain ⟨x, hx⟩ := written_concat ih
    rw [← writeEach_eq_map] at hx
    exact ⟨_, toExcept_append_eq_ok_iff.mpr
      ⟨_, x, toExcept_index_eq_ok_iff.mpr ⟨hcount, rfl⟩, hx, rfl⟩⟩

/-- What takes a byte is solid. -/
private theorem solid_of_bytes_ne_nil {o : Output} (h : o.bytes ≠ []) : o.Solid := by
  intro hempty
  unfold toExcept at hempty
  split at hempty
  · cases hempty
  · exact h (Except.ok.inj hempty)

end Field

/-! ## §3 Layouts take fields back -/

namespace Layout

variable {layout : Layout} {field : Field}

/-- A number of four bytes takes back an index. -/
private theorem takesBack_index (l m : Label) {n : Nat} (h : n < UInt32.size) :
    (read (.u32 l)).TakesBack (Output.index m n) (.number n) := by
  intro c c' hbetween
  have hn : (UInt32.ofNat n).toNat = n := UInt32.toNat_ofNat_of_lt h
  refine Read.bind_eq_ok_iff.mpr ⟨_, c', (Read.u32_eq_ok_iff_index hn).mpr hbetween, ?_⟩
  rw [hn]
  rfl

/-- **A layout takes back a field that it describes**, if the sizes of the field fit. -/
theorem Describes.takesBack (h : layout.Describes field) (hfits : field.Fits) :
    layout.read.TakesBack field.write field.datum := by
  induction h with
  | u8 l n => exact (Read.mirrors_u8.takesBack n).map fun n => Datum.number n.toNat
  | u16 l n => exact (Read.mirrors_u16.takesBack n).map fun n => Datum.number n.toNat
  | u32 l n => exact (Read.mirrors_u32.takesBack n).map fun n => Datum.number n.toNat
  | index l m n =>
    cases hfits with
    | index _ h => exact takesBack_index l m h
  | flag l b => exact (Read.mirrors_flag.takesBack b).map Datum.flag
  | sized l m bytes => exact (Read.mirrors_sized.takesBack bytes).map Datum.bytes
  | text l m s => exact (Read.mirrors_text.takesBack s).map Datum.text
  | digest l m width d => exact (Read.mirrors_take.takesBack d).map Datum.bytes
  | absent l item =>
    intro c c' hbetween
    exact Read.bind_eq_ok_iff.mpr ⟨none, c', Read.takesBack_absent hbetween, rfl⟩
  | @present l item field _ ih =>
    cases hfits with
    | present hitem =>
      intro c c' hbetween
      exact Read.bind_eq_ok_iff.mpr ⟨some field.datum, c', (ih hitem).present hbetween, rfl⟩
  | @list l m item fields _ ih =>
    cases hfits with
    | list _ hcount hitems hbyte =>
      rw [Field.write, Field.datum, Field.writeEach_eq_map, Field.data_eq_map,
        ← List.length_map Field.datum]
      refine (Read.TakesBack.list ?_ fun o ho => ?_).map Datum.list
      · rw [List.forall₂_map_left_iff, List.forall₂_map_right_iff, List.forall₂_same]
        exact fun field hfield => ih field hfield (hitems field hfield)
      · obtain ⟨field, hfield, rfl⟩ := List.mem_map.mp ho
        exact Field.solid_of_bytes_ne_nil (hbyte field hfield)

/-- Layouts take back the fields that they describe one by one. -/
theorem takesBack_readEach {layouts : List Layout} {fields : List Field}
    (h : List.Forall₂ Describes layouts fields) (hfits : ∀ field ∈ fields, field.Fits) :
    (readEach layouts).TakesBack (Output.concat (fields.map Field.write))
      (fields.map Field.datum) := by
  induction h with
  | nil =>
    intro c c' hbetween
    exact Read.pure_eq_ok_iff.mpr ⟨rfl, Output.between_empty_iff.mp hbetween⟩
  | @cons layout field layouts fields hfield _ ih =>
    obtain ⟨hfit, hfits⟩ := List.forall_mem_cons.mp hfits
    rw [List.map_cons, List.map_cons, Output.concat_cons]
    exact (hfield.takesBack hfit).bind ((ih hfits).map (field.datum :: ·))

/-- **Reading undoes writing.** Fields whose sizes fit are written, behind whatever was written
before. The layouts that describe them, read from where the first field starts and with any bytes
after the last one, give what the fields hold, and leave the cursor where the last field ends. -/
theorem readEach_written {layouts : List Layout} {fields : List Field}
    (hdescribes : List.Forall₂ Describes layouts fields)
    (hfits : ∀ field ∈ fields, field.Fits) :
    ∃ written : Bytes, ∀ before after : Bytes,
      (Output.ofBytes before ++ Output.concat (fields.map Field.write)).toExcept
          = .ok (before ++ written)
        ∧ readEach layouts (Cursor.atOffset (before ++ written ++ after) before.length)
          = (.ok (fields.map Field.datum),
            Cursor.atOffset (before ++ written ++ after) (before ++ written).length) := by
  obtain ⟨written, hwritten⟩ := Field.written_concat fun field hfield => (hfits field hfield).written
  refine ⟨written, fun before after => ⟨?_, ?_⟩⟩
  · exact Output.toExcept_append_eq_ok_iff.mpr ⟨before, written, rfl, hwritten, rfl⟩
  · exact takesBack_readEach hdescribes hfits
      ⟨written, hwritten, Cursor.past_atOffset before written after⟩

/-- A list of two texts of which one is absent is read back, under other labels than it was written
under. -/
theorem readEach_written_texts :
    List.Forall₂ Describes
        [.list ⟨.tree, "texts"⟩ (.option ⟨.tree, "present"⟩ (.text ⟨.tree, "text"⟩))]
        [.list ⟨.node, "x"⟩ [.present (.text ⟨.node, "y"⟩ "é"), .absent]]
      ∧ (Field.list ⟨.node, "x"⟩ [.present (.text ⟨.node, "y"⟩ "é"), .absent]).Fits
      ∧ ∃ written : Bytes, ∀ before after : Bytes,
        readEach [.list ⟨.tree, "texts"⟩ (.option ⟨.tree, "present"⟩ (.text ⟨.tree, "text"⟩))]
            (Cursor.atOffset (before ++ written ++ after) before.length)
          = (.ok [.list [.present (.text "é"), .absent]],
            Cursor.atOffset (before ++ written ++ after) (before ++ written).length) := by
  have hdescribes : List.Forall₂ Describes
      [.list ⟨.tree, "texts"⟩ (.option ⟨.tree, "present"⟩ (.text ⟨.tree, "text"⟩))]
      [.list ⟨.node, "x"⟩ [.present (.text ⟨.node, "y"⟩ "é"), .absent]] := by
    refine .cons (.list _ _ ?_) .nil
    simp only [List.forall_mem_cons]
    exact ⟨.present _ (.text _ _ "é"), .absent _ _, fun _ h => nomatch h⟩
  have hfits : (Field.list ⟨.node, "x"⟩ [.present (.text ⟨.node, "y"⟩ "é"), .absent]).Fits := by
    refine .list _ (by decide) ?_ ?_
    · simp only [List.forall_mem_cons]
      exact ⟨.present (.text _ (by decide)), .absent, fun _ h => nomatch h⟩
    · simp only [List.forall_mem_cons]
      exact ⟨by decide, by decide, fun _ h => nomatch h⟩
  obtain ⟨written, hwritten⟩ := readEach_written hdescribes (by simpa using hfits)
  exact ⟨hdescribes, hfits, written, fun before after => (hwritten before after).2⟩

end Layout

end HashTree
