import HashTree.Proofs.Wire.Indexed
import HashTree.Proofs.Wire.Layout

/-!
# Turns at a cursor

Operations take turns at one cursor, and a failure does not end the row: the next operation starts
where the one that failed left the cursor. An operation is made of **parts**, each started where the
parts before it ended. It fails because a part fails, or because it refuses what its parts have
taken; and it leaves the cursor just where that happened. In no turn does the cursor go back or past
the end of the bytes.
-/

namespace HashTree

/-! ## §1 Readers that fail -/

namespace Read

variable {α β : Type} {c c' : Cursor} {e : FormatError} {l : Label}

theorem bind_eq_error_iff {r : Read α} {f : α → Read β} : (r >>= f) c = (.error e, c')
    ↔ r c = (.error e, c') ∨ ∃ a c₁, r c = (.ok a, c₁) ∧ f a c₁ = (.error e, c') := by
  change Read.bind r f c = _ ↔ _
  unfold Read.bind
  obtain ⟨result, c₁⟩ := r c
  cases result with
  | error e => simp
  | ok a => simp

theorem map_eq_error_iff {r : Read α} {f : α → β} :
    (do return f (← r)) c = (.error e, c') ↔ r c = (.error e, c') := by
  rw [bind_eq_error_iff]
  refine ⟨fun h => ?_, .inl⟩
  rcases h with h | ⟨a, c₁, -, h⟩
  · exact h
  · cases h

theorem map_eq_ok_iff {r : Read α} {f : α → β} {b : β} :
    (do return f (← r)) c = (.ok b, c') ↔ ∃ a, r c = (.ok a, c') ∧ f a = b := by
  rw [bind_eq_ok_iff]
  constructor
  · rintro ⟨a, c₁, hr, h⟩
    obtain ⟨rfl, rfl⟩ := pure_eq_ok_iff.mp h
    exact ⟨a, hr, rfl⟩
  · rintro ⟨a, hr, rfl⟩
    exact ⟨a, c', hr, rfl⟩

theorem fail_eq_error_iff {e' : FormatError} :
    (fail e' : Read α) c = (.error e, c') ↔ e = e' ∧ c' = c := by
  simp [fail, eq_comm]

/-- Bytes are not to be had where there are fewer, and then **none is taken**. -/
theorem take_eq_error_iff {n : Nat} :
    take l n c = (.error e, c') ↔ c.remaining < n ∧ e = l.unexpectedEnd ∧ c' = c := by
  have hlength : (c.rest.take n).length < n ↔ c.remaining < n := by
    rw [List.length_take, Cursor.remaining]
    omega
  rw [take, List.splitAt_eq]
  dsimp only
  split
  · next hshort => simp [hlength.mp hshort, eq_comm]
  · next henough => simp [mt hlength.mpr henough]

theorem number_eq_error_iff {width : Nat} :
    number width l c = (.error e, c') ↔ c.remaining < width ∧ e = l.unexpectedEnd ∧ c' = c := by
  rw [number, map_eq_error_iff, take_eq_error_iff]

theorem finish_eq_error_iff {place : Section} : finish place c = (.error e, c')
    ↔ c.remaining ≠ 0 ∧ e = ⟨place, .trailingBytes c.position c.remaining⟩ ∧ c' = c := by
  obtain ⟨position, rest⟩ := c
  cases rest with
  | nil => simp [finish, Cursor.remaining]
  | cons b rest => simp [finish, Cursor.remaining, eq_comm]

end Read

namespace Layout

variable {layout item part : Layout} {c c₁ c' : Cursor} {e : FormatError} {l : Label}

/-! ## §2 Parts and refusals -/

/-- The read is of a **single piece** of known width: plain bytes, a digest or a number. -/
inductive Single : Layout → Label → Nat → Prop where
  | u8 (l : Label) : Single (.u8 l) l 1
  | u16 (l : Label) : Single (.u16 l) l 2
  | u32 (l : Label) : Single (.u32 l) l 4
  | take (l : Label) (n : Nat) : Single (.take l n) l n

/-- In reading a layout from one cursor a **part** of it is read from another, where the parts before
it have ended. -/
inductive Part : Layout → Cursor → Layout → Cursor → Prop where
  | flag (l : Label) (c : Cursor) : Part (.flag l) c (.u8 l) c
  | length (l : Label) (c : Cursor) : Part (.sized l) c (.u32 l) c
  | bytes {l : Label} {c c₁ : Cursor} {n : Nat} (hlength : read (.u32 l) c = (.ok (.number n), c₁)) :
    Part (.sized l) c (.take l n) c₁
  | text (l : Label) (c : Cursor) : Part (.text l) c (.sized l) c
  | presence (l : Label) (item : Layout) (c : Cursor) : Part (.option l item) c (.flag l) c
  | value {l : Label} {c c₁ : Cursor} (item : Layout)
    (hpresent : read (.flag l) c = (.ok (.flag true), c₁)) : Part (.option l item) c item c₁
  | count (l : Label) (item : Layout) (c : Cursor) : Part (.list l item) c (.u32 l) c
  | item {l : Label} {c c₁ c₂ : Cursor} {n k : Nat} {done : List Datum} (item : Layout)
    (hcount : read (.u32 l) c = (.ok (.number n), c₁)) (hahead : n ≤ c₁.remaining) (hk : k < n)
    (hdone : readEach (List.replicate k item) c₁ = (.ok done, c₂)) : Part (.list l item) c item c₂

/-- What the parts have taken is **refused**, at the cursor where they ended. A single piece is
refused where it starts. -/
inductive Refuses : Layout → Cursor → FormatError → Cursor → Prop where
  | short {layout : Layout} {l : Label} {width : Nat} {c : Cursor} (hsingle : layout.Single l width)
    (h : c.remaining < width) : Refuses layout c l.unexpectedEnd c
  | flag {l : Label} {c c₁ : Cursor} {n : Nat} (hn : read (.u8 l) c = (.ok (.number n), c₁))
    (h : 1 < n) : Refuses (.flag l) c l.invalidValue c₁
  | text {l : Label} {c c₁ : Cursor} {bytes : Bytes}
    (hbytes : read (.sized l) c = (.ok (.bytes bytes), c₁)) (h : bytes.toText? = none) :
    Refuses (.text l) c l.invalidValue c₁
  | count {l : Label} {c c₁ : Cursor} {n : Nat} (item : Layout)
    (hcount : read (.u32 l) c = (.ok (.number n), c₁)) (h : c₁.remaining < n) :
    Refuses (.list l item) c l.invalidLength c₁
  | finish (place : Section) {c : Cursor} (h : c.remaining ≠ 0) :
    Refuses (.finish place) c ⟨place, .trailingBytes c.position c.remaining⟩ c

/-- A read that fails **stops** at a cursor: there a part of it failed, or there it refused what its
parts had taken. -/
inductive Stops (layout : Layout) (c : Cursor) (e : FormatError) (c' : Cursor) : Prop where
  | part {part : Layout} {c₁ : Cursor} (hpart : layout.Part c part c₁)
    (hfails : part.read c₁ = (.error e, c'))
  | refused (h : layout.Refuses c e c')

/-! ## §3 What a layout reads

A layout is read by the reader of its name, and what was read is told by its kind. -/

theorem read_u8 (l : Label) : read (.u8 l) = do return .number (← Read.u8 l).toNat := rfl

theorem read_u16 (l : Label) : read (.u16 l) = do return .number (← Read.u16 l).toNat := rfl

theorem read_u32 (l : Label) : read (.u32 l) = do return .number (← Read.u32 l).toNat := rfl

theorem read_take (l : Label) (n : Nat) : read (.take l n) = do return .bytes (← Read.take l n) :=
  rfl

theorem read_flag (l : Label) : read (.flag l) = do return .flag (← Read.flag l) := rfl

theorem read_sized (l : Label) : read (.sized l) = do return .bytes (← Read.sized l) := rfl

theorem read_text (l : Label) : read (.text l) = do return .text (← Read.text l) := rfl

theorem read_option (l : Label) (item : Layout) :
    read (.option l item) = Read.option l item.read >>= fun
      | none => pure .absent
      | some d => pure (.present d) := rfl

theorem read_list (l : Label) (item : Layout) :
    read (.list l item) = do return .list (← Read.list l item.read) := rfl

theorem read_finish (place : Section) :
    read (.finish place) = Read.finish place >>= fun _ => pure .done := rfl

/-! ## §4 What a failing read leaves -/

private theorem read_u8_eq_ok_iff {n : Nat} :
    read (.u8 l) c = (.ok (.number n), c') ↔ ∃ b, Read.u8 l c = (.ok b, c') ∧ b.toNat = n := by
  simp only [read_u8, Read.map_eq_ok_iff, Datum.number.injEq]

private theorem read_u32_eq_ok_iff {n : Nat} :
    read (.u32 l) c = (.ok (.number n), c') ↔ ∃ m, Read.u32 l c = (.ok m, c') ∧ m.toNat = n := by
  simp only [read_u32, Read.map_eq_ok_iff, Datum.number.injEq]

/-- A single piece fails where it starts, for want of bytes. -/
theorem Single.read_eq_error_iff {width : Nat} (h : layout.Single l width) :
    layout.read c = (.error e, c') ↔ c.remaining < width ∧ e = l.unexpectedEnd ∧ c' = c := by
  cases h with
  | u8 l => simp only [read_u8, Read.u8, Read.map_eq_error_iff, Read.number_eq_error_iff]
  | u16 l => simp only [read_u16, Read.u16, Read.map_eq_error_iff, Read.number_eq_error_iff]
  | u32 l => simp only [read_u32, Read.u32, Read.map_eq_error_iff, Read.number_eq_error_iff]
  | take l n => simp only [read_take, Read.map_eq_error_iff, Read.take_eq_error_iff]

/-- Of several items the first one that fails is read where those before it have ended. -/
private theorem repeated_eq_error_iff {count : Nat} {done : List Datum} :
    Read.repeated item.read count done c = (.error e, c')
      ↔ ∃ k, k < count ∧ ∃ before c₁, readEach (List.replicate k item) c = (.ok before, c₁)
        ∧ item.read c₁ = (.error e, c') := by
  induction count generalizing done c with
  | zero =>
    constructor
    · intro h
      cases h
    · rintro ⟨k, hk, -⟩
      exact absurd hk (Nat.not_lt_zero k)
  | succ count ih =>
    have hbind : Read.repeated item.read (count + 1) done
      = item.read >>= fun d => Read.repeated item.read count (d :: done) := rfl
    have heach : ∀ k, readEach (List.replicate (k + 1) item)
      = item.read >>= fun d => (do return d :: (← readEach (List.replicate k item))) :=
        fun _ => rfl
    rw [hbind, Read.bind_eq_error_iff]
    constructor
    · rintro (hfirst | ⟨d, c₁, hd, hrest⟩)
      · exact ⟨0, Nat.succ_pos count, [], c, rfl, hfirst⟩
      · obtain ⟨k, hk, before, c₂, hbefore, hfails⟩ := ih.mp hrest
        refine ⟨k + 1, Nat.succ_lt_succ hk, d :: before, c₂, ?_, hfails⟩
        rw [heach]
        exact Read.bind_eq_ok_iff.mpr ⟨d, c₁, hd, Read.map_eq_ok_iff.mpr ⟨before, hbefore, rfl⟩⟩
    · rintro ⟨k, hk, before, c₂, hbefore, hfails⟩
      cases k with
      | zero =>
        obtain ⟨-, rfl⟩ := Read.pure_eq_ok_iff.mp hbefore
        exact .inl hfails
      | succ k =>
        rw [heach] at hbefore
        obtain ⟨d, c₁, hd, hrest⟩ := Read.bind_eq_ok_iff.mp hbefore
        obtain ⟨before, hbefore, -⟩ := Read.map_eq_ok_iff.mp hrest
        exact .inr ⟨d, c₁, hd, ih.mpr ⟨k, Nat.lt_of_succ_lt_succ hk, before, c₂, hbefore, hfails⟩⟩

/-- A tag is refused when it is neither zero nor one. -/
private theorem check_flag_eq_error_iff {b : UInt8} {m : Label} :
    (if b = 0 then return false else if b = 1 then return true else Read.fail m.invalidValue
      : Read Bool) c = (.error e, c') ↔ 1 < b.toNat ∧ e = m.invalidValue ∧ c' = c := by
  have hzero : b = 0 ↔ b.toNat = 0 := by rw [← UInt8.toNat_inj]; rfl
  have hone : b = 1 ↔ b.toNat = 1 := by rw [← UInt8.toNat_inj]; rfl
  split
  · next h =>
    rw [hzero] at h
    simp [h]
    exact fun h => nomatch h
  · next h0 =>
    split
    · next h =>
      rw [hone] at h
      simp [h]
      exact fun h => nomatch h
    · next h1 =>
      rw [hzero] at h0
      rw [hone] at h1
      have hlt : 1 < b.toNat := by omega
      simp [hlt, Read.fail_eq_error_iff]

private theorem read_flag_eq_error_iff : read (.flag l) c = (.error e, c')
    ↔ read (.u8 l) c = (.error e, c')
      ∨ ∃ n, read (.u8 l) c = (.ok (.number n), c') ∧ 1 < n ∧ e = l.invalidValue := by
  simp only [read_u8_eq_ok_iff]
  simp only [read_u8, read_flag, Read.map_eq_error_iff]
  simp only [Read.flag, Read.bind_eq_error_iff, check_flag_eq_error_iff]
  constructor
  · rintro (h | ⟨b, c₁, hb, hlt, rfl, rfl⟩)
    · exact .inl h
    · exact .inr ⟨_, ⟨b, hb, rfl⟩, hlt, rfl⟩
  · rintro (h | ⟨n, ⟨b, hb, rfl⟩, hlt, rfl⟩)
    · exact .inl h
    · exact .inr ⟨b, c', hb, hlt, rfl, rfl⟩

private theorem read_sized_eq_error_iff : read (.sized l) c = (.error e, c')
    ↔ read (.u32 l) c = (.error e, c') ∨ ∃ n c₁, read (.u32 l) c = (.ok (.number n), c₁)
      ∧ read (.take l n) c₁ = (.error e, c') := by
  simp only [read_u32_eq_ok_iff]
  simp only [read_u32, read_take, read_sized, Read.map_eq_error_iff]
  simp only [Read.sized, Read.bind_eq_error_iff]
  constructor
  · rintro (h | ⟨n, c₁, hn, htake⟩)
    · exact .inl h
    · exact .inr ⟨_, c₁, ⟨n, hn, rfl⟩, htake⟩
  · rintro (h | ⟨_, c₁, ⟨n, hn, rfl⟩, htake⟩)
    · exact .inl h
    · exact .inr ⟨n, c₁, hn, htake⟩

private theorem read_text_eq_error_iff : read (.text l) c = (.error e, c')
    ↔ read (.sized l) c = (.error e, c') ∨ ∃ bytes, read (.sized l) c = (.ok (.bytes bytes), c')
      ∧ bytes.toText? = none ∧ e = l.invalidValue := by
  simp only [read_sized, read_text, Read.map_eq_error_iff, Read.map_eq_ok_iff, Datum.bytes.injEq]
  simp only [Read.text, Read.bind_eq_error_iff]
  constructor
  · rintro (h | ⟨bytes, c₁, hbytes, hcheck⟩)
    · exact .inl h
    · cases htext : bytes.toText? with
      | some s =>
        rw [htext] at hcheck
        cases hcheck
      | none =>
        rw [htext] at hcheck
        obtain ⟨rfl, rfl⟩ := Read.fail_eq_error_iff.mp hcheck
        exact .inr ⟨_, ⟨bytes, hbytes, rfl⟩, htext, rfl⟩
  · rintro (h | ⟨_, ⟨bytes, hbytes, rfl⟩, htext, rfl⟩)
    · exact .inl h
    · refine .inr ⟨bytes, c', hbytes, ?_⟩
      rw [htext]
      rfl

private theorem read_option_eq_error_iff : read (.option l item) c = (.error e, c')
    ↔ read (.flag l) c = (.error e, c') ∨ ∃ c₁, read (.flag l) c = (.ok (.flag true), c₁)
      ∧ item.read c₁ = (.error e, c') := by
  simp only [read_flag, Read.map_eq_error_iff, Read.map_eq_ok_iff, Datum.flag.injEq]
  rw [read_option, Read.bind_eq_error_iff, Read.option, Read.bind_eq_error_iff]
  constructor
  · rintro ((h | ⟨present, c₁, hflag, hthen⟩) | ⟨value, c₁, -, hvalue⟩)
    · exact .inl h
    · cases present with
      | false => cases hthen
      | true => exact .inr ⟨c₁, ⟨true, hflag, rfl⟩, Read.map_eq_error_iff.mp hthen⟩
    · -- a value that was read is only given a name
      cases value <;> cases hvalue
  · rintro (h | ⟨c₁, ⟨_, hflag, rfl⟩, hfails⟩)
    · exact .inl (.inl h)
    · exact .inl (.inr ⟨true, c₁, hflag, Read.map_eq_error_iff.mpr hfails⟩)

private theorem read_list_eq_error_iff : read (.list l item) c = (.error e, c')
    ↔ read (.u32 l) c = (.error e, c') ∨ ∃ n c₁, read (.u32 l) c = (.ok (.number n), c₁)
      ∧ ((c₁.remaining < n ∧ e = l.invalidLength ∧ c' = c₁) ∨ (n ≤ c₁.remaining
        ∧ Read.repeated item.read n [] c₁ = (.error e, c'))) := by
  simp only [read_u32_eq_ok_iff]
  simp only [read_u32, read_list, Read.map_eq_error_iff]
  simp only [Read.list, Read.bind_eq_error_iff, Read.fewerThan_eq_ok_iff]
  constructor
  · rintro (h | ⟨n, c₁, hn, h | ⟨fewer, _, ⟨hfewer, rfl⟩, hthen⟩⟩)
    · exact .inl h
    · cases h
    · refine .inr ⟨_, c₁, ⟨n, hn, rfl⟩, ?_⟩
      cases fewer with
      | true => exact .inl ⟨of_decide_eq_true hfewer, Read.fail_eq_error_iff.mp hthen⟩
      | false => exact .inr ⟨Nat.le_of_not_lt (of_decide_eq_false hfewer), hthen⟩
  · rintro (h | ⟨_, c₁, ⟨n, hn, rfl⟩, ⟨hlt, hfails⟩ | ⟨hle, hthen⟩⟩)
    · exact .inl h
    · exact .inr ⟨n, c₁, hn, .inr ⟨true, c₁, ⟨decide_eq_true hlt, rfl⟩,
        Read.fail_eq_error_iff.mpr hfails⟩⟩
    · exact .inr ⟨n, c₁, hn, .inr ⟨false, c₁, ⟨decide_eq_false (Nat.not_lt.mpr hle), rfl⟩, hthen⟩⟩

/-- **A read fails exactly where it stops**, and leaves the cursor there. -/
theorem read_eq_error_iff : layout.read c = (.error e, c') ↔ layout.Stops c e c' := by
  constructor
  · intro h
    cases layout with
    | u8 l =>
      obtain ⟨hshort, rfl, rfl⟩ := (Single.u8 l).read_eq_error_iff.mp h
      exact .refused (.short (.u8 l) hshort)
    | u16 l =>
      obtain ⟨hshort, rfl, rfl⟩ := (Single.u16 l).read_eq_error_iff.mp h
      exact .refused (.short (.u16 l) hshort)
    | u32 l =>
      obtain ⟨hshort, rfl, rfl⟩ := (Single.u32 l).read_eq_error_iff.mp h
      exact .refused (.short (.u32 l) hshort)
    | take l n =>
      obtain ⟨hshort, rfl, rfl⟩ := (Single.take l n).read_eq_error_iff.mp h
      exact .refused (.short (.take l n) hshort)
    | flag l =>
      rcases read_flag_eq_error_iff.mp h with hpart | ⟨n, hn, hlt, rfl⟩
      · exact .part (.flag l c) hpart
      · exact .refused (.flag hn hlt)
    | sized l =>
      rcases read_sized_eq_error_iff.mp h with hpart | ⟨n, c₁, hn, hpart⟩
      · exact .part (.length l c) hpart
      · exact .part (.bytes hn) hpart
    | text l =>
      rcases read_text_eq_error_iff.mp h with hpart | ⟨bytes, hbytes, htext, rfl⟩
      · exact .part (.text l c) hpart
      · exact .refused (.text hbytes htext)
    | option l item =>
      rcases read_option_eq_error_iff.mp h with hpart | ⟨c₁, hpresent, hpart⟩
      · exact .part (.presence l item c) hpart
      · exact .part (.value item hpresent) hpart
    | list l item =>
      rcases read_list_eq_error_iff.mp h with hpart | ⟨n, c₁, hn, ⟨hlt, rfl, rfl⟩ | ⟨hle, hitems⟩⟩
      · exact .part (.count l item c) hpart
      · exact .refused (.count item hn hlt)
      · obtain ⟨k, hk, before, c₂, hbefore, hpart⟩ := repeated_eq_error_iff.mp hitems
        exact .part (.item item hn hle hk hbefore) hpart
    | finish place =>
      rw [read_finish, Read.bind_eq_error_iff] at h
      rcases h with h | ⟨_, _, -, h⟩
      · obtain ⟨hne, rfl, rfl⟩ := Read.finish_eq_error_iff.mp h
        exact .refused (.finish place hne)
      · cases h
  · intro h
    cases h with
    | part hpart hfails =>
      cases hpart with
      | flag l => exact read_flag_eq_error_iff.mpr (.inl hfails)
      | length l => exact read_sized_eq_error_iff.mpr (.inl hfails)
      | bytes hlength => exact read_sized_eq_error_iff.mpr (.inr ⟨_, _, hlength, hfails⟩)
      | text l => exact read_text_eq_error_iff.mpr (.inl hfails)
      | presence l item => exact read_option_eq_error_iff.mpr (.inl hfails)
      | value item hpresent => exact read_option_eq_error_iff.mpr (.inr ⟨_, hpresent, hfails⟩)
      | count l item => exact read_list_eq_error_iff.mpr (.inl hfails)
      | item item hcount hahead hk hdone =>
        exact read_list_eq_error_iff.mpr (.inr ⟨_, _, hcount,
          .inr ⟨hahead, repeated_eq_error_iff.mpr ⟨_, hk, _, _, hdone, hfails⟩⟩⟩)
    | refused hrefused =>
      cases hrefused with
      | short hsingle h => exact hsingle.read_eq_error_iff.mpr ⟨h, rfl, rfl⟩
      | flag hn h => exact read_flag_eq_error_iff.mpr (.inr ⟨_, hn, h, rfl⟩)
      | text hbytes h => exact read_text_eq_error_iff.mpr (.inr ⟨_, hbytes, h, rfl⟩)
      | count item hcount h =>
        exact read_list_eq_error_iff.mpr (.inr ⟨_, _, hcount, .inl ⟨h, rfl, rfl⟩⟩)
      | finish place h =>
        rw [read_finish, Read.bind_eq_error_iff]
        exact .inl (Read.finish_eq_error_iff.mpr ⟨h, rfl, rfl⟩)

/-! ## §5 Turns -/

/-- An operation that had its turn: where it started, what it answered, and where it left the
cursor. -/
structure Turn where
  layout : Layout
  before : Cursor
  outcome : Except FormatError Datum
  after : Cursor

/-- The turn of an operation at a cursor. -/
def turn (layout : Layout) (c : Cursor) : Turn :=
  ⟨layout, c, (layout.read c).1, (layout.read c).2⟩

/-- Operations in turn. Each starts **where the one before it left the cursor**, failed or not. -/
def turns : List Layout → Cursor → List Turn
  | [], _ => []
  | layout :: layouts, c => turn layout c :: turns layouts (turn layout c).after

/-- What a turn does in a byte string. -/
structure Turn.Safe (data : Bytes) (t : Turn) : Prop where
  /-- The position never decreases. -/
  forward : t.before.position ≤ t.after.position
  /-- It never exceeds the number of bytes. -/
  within : t.after.position ≤ data.length
  /-- Bytes that are behind and bytes that are ahead are all the bytes. -/
  sum_eq : t.after.position + t.after.remaining = data.length
  /-- The bytes ahead are those of the data from the position on. -/
  rest_eq : t.after.rest = data.drop t.after.position
  /-- Plain bytes, digests and numbers that are not to be had are not touched. -/
  single : ∀ l width, t.layout.Single l width → ∀ e, t.outcome = .error e → t.after = t.before
  /-- Where an operation fails, it failed there in one of its parts or refused what they took. -/
  stops : ∀ e c, (t.outcome = .error e ∧ t.after = c) ↔ t.layout.Stops t.before e c

end Layout

namespace Indexed

/-- Operations in turn over an offset, with what each answers and the offset after it. -/
def turns : List Layout → Memory → Nat → Option (List (Except FormatError Datum × Nat))
  | [], _, _ => some []
  | layout :: layouts, m, offset => do
    let (outcome, offset) ← read layout m offset
    let rest ← turns layouts m offset
    return (outcome, offset) :: rest

end Indexed

namespace Layout

/-- A turn at an offset ends at an offset that is not smaller, in memory as on a cursor. -/
private theorem exists_turn (layout : Layout) (m : Memory) {offset : Nat}
    (h : offset ≤ m.bytes.length) : ∃ next,
      (turn layout (Cursor.atOffset m.bytes offset)).after = Cursor.atOffset m.bytes next
        ∧ offset ≤ next ∧ next ≤ m.bytes.length
        ∧ Indexed.read layout m offset
          = some ((turn layout (Cursor.atOffset m.bytes offset)).outcome, next) := by
  obtain ⟨outcome, next, hindexed, hread, hle, hnext⟩ := Indexed.agrees_read layout m h
  refine ⟨next, congrArg Prod.snd hread, hle, hnext, ?_⟩
  rw [hindexed, ← show (turn layout (Cursor.atOffset m.bytes offset)).outcome = outcome from
    congrArg Prod.fst hread]

/-- A turn that starts in a byte string is safe there. -/
theorem turn_safe (layout : Layout) (m : Memory) {offset : Nat} (h : offset ≤ m.bytes.length) :
    (turn layout (Cursor.atOffset m.bytes offset)).Safe m.bytes := by
  obtain ⟨next, hafter, hle, hnext, -⟩ := exists_turn layout m h
  have hpair : ∀ e c, (turn layout (Cursor.atOffset m.bytes offset)).outcome = .error e
      ∧ (turn layout (Cursor.atOffset m.bytes offset)).after = c
      ↔ layout.read (Cursor.atOffset m.bytes offset) = (.error e, c) :=
    fun e c => (Prod.ext_iff (x := layout.read _) (y := (.error e, c))).symm
  constructor
  · rw [hafter]
    exact hle
  · rw [hafter]
    exact hnext
  · rw [hafter, Cursor.remaining, Cursor.atOffset, List.length_drop]
    exact Nat.add_sub_of_le hnext
  · rw [hafter]
    rfl
  · intro l width hsingle e he
    exact (hsingle.read_eq_error_iff.mp ((hpair e _).mp ⟨he, rfl⟩)).2.2
  · intro e c
    rw [hpair, read_eq_error_iff]
    rfl

/-- What one turn keeps, a row of turns keeps, from any offset. -/
private theorem turns_from (layouts : List Layout) (m : Memory) {offset : Nat}
    (h : offset ≤ m.bytes.length) :
    (offset :: (turns layouts (Cursor.atOffset m.bytes offset)).map (·.after.position)).Pairwise
        (· ≤ ·)
      ∧ (∀ t ∈ turns layouts (Cursor.atOffset m.bytes offset), t.Safe m.bytes)
      ∧ Indexed.turns layouts m offset
        = some ((turns layouts (Cursor.atOffset m.bytes offset)).map
          fun t => (t.outcome, t.after.position)) := by
  induction layouts generalizing offset with
  | nil => exact ⟨List.pairwise_singleton _ _, List.forall_mem_nil _, rfl⟩
  | cons layout layouts ih =>
    obtain ⟨next, hafter, hle, hnext, hindexed⟩ := exists_turn layout m h
    obtain ⟨hpositions, hsafe, hrest⟩ := ih hnext
    rw [turns, hafter]
    refine ⟨?_, ?_, ?_⟩
    · rw [List.map_cons, hafter]
      refine List.pairwise_cons.mpr ⟨fun position hposition => ?_, hpositions⟩
      -- the first position is not smaller, and the others are not smaller than that
      rcases List.mem_cons.mp hposition with rfl | hposition
      · exact hle
      · exact Nat.le_trans hle (List.rel_of_pairwise_cons hpositions hposition)
    · exact List.forall_mem_cons.mpr ⟨turn_safe layout m h, hsafe⟩
    · have hposition : (turn layout (Cursor.atOffset m.bytes offset)).after.position = next := by
        rw [hafter]
        rfl
      rw [Indexed.turns, hindexed, List.map_cons, hposition]
      simp [hrest]

/-- **No row of turns leaves the bytes.** Whatever the operations and the byte string, the position
never goes back from turn to turn, and every turn is safe. In memory no operation of the row traps
on a sum or a slice: each answers as on the cursor, and leaves the offset where the cursor is. -/
theorem turns_safe (layouts : List Layout) :
    (∀ data : Bytes,
      (0 :: (turns layouts (Cursor.start data)).map (·.after.position)).Pairwise (· ≤ ·)
        ∧ ∀ t ∈ turns layouts (Cursor.start data), t.Safe data)
      ∧ ∀ m : Memory, Indexed.turns layouts m 0
        = some ((turns layouts (Cursor.start m.bytes)).map
          fun t => (t.outcome, t.after.position)) := by
  refine ⟨fun data => ?_, fun m => ?_⟩
  · obtain ⟨hpositions, hsafe, -⟩ := turns_from layouts (Memory.ofBytes data) (Nat.zero_le _)
    exact ⟨hpositions, hsafe⟩
  · exact (turns_from layouts m (Nat.zero_le _)).2.2

/-- Where three bytes are announced and one is there, the length stays taken, and the byte is read
next. -/
theorem turns_safe_short :
    turn (.sized ⟨.node, "payload"⟩) (Cursor.start [3, 0, 0, 0, 7])
        ∈ turns [.sized ⟨.node, "payload"⟩, .u8 ⟨.node, "tag"⟩] (Cursor.start [3, 0, 0, 0, 7])
      ∧ (turn (.sized ⟨.node, "payload"⟩) (Cursor.start [3, 0, 0, 0, 7])).Safe [3, 0, 0, 0, 7]
      ∧ Indexed.turns [.sized ⟨.node, "payload"⟩, .u8 ⟨.node, "tag"⟩]
          ⟨[3, 0, 0, 0, 7], UInt64.size, by decide, by decide⟩ 0
        = some [(.error (Label.unexpectedEnd ⟨.node, "payload"⟩), 4), (.ok (.number 7), 5)] := by
  obtain ⟨hsafe, hmemory⟩ := turns_safe [.sized ⟨.node, "payload"⟩, .u8 ⟨.node, "tag"⟩]
  refine ⟨List.mem_cons_self, (hsafe [3, 0, 0, 0, 7]).2 _ List.mem_cons_self, ?_⟩
  rw [hmemory]
  rfl

end Layout

end HashTree
