import HashTree.Proofs.Bytes
import HashTree.Proofs.Wire.Output
import HashTree.Wire.Cursor

/-!
# Reading what was written

An output stands **between** two cursors when its bytes are the ones that lie between them. A reader
**mirrors** a writer when it moves from one cursor to another with a value exactly when what is
written of the value stands between the two. So the reader takes back whatever was written, with
any bytes behind it, and takes nothing else. Every field has a reader and a writer that mirror each
other, and options, lists and sequences of fields inherit that.
-/

namespace HashTree

open Outcome

/-! ## §1 Between two cursors -/

namespace Cursor

/-- Some bytes lead from one cursor to another. -/
structure Past (c : Cursor) (bytes : Bytes) (c' : Cursor) : Prop where
  rest_eq : c.rest = bytes ++ c'.rest
  position_eq : c'.position = c.position + bytes.length

variable {c c' : Cursor} {x y : Bytes}

theorem past_nil_iff : c.Past [] c' ↔ c = c' := by
  obtain ⟨position, rest⟩ := c
  obtain ⟨position', rest'⟩ := c'
  constructor
  · rintro ⟨hrest, hposition⟩
    simp_all
  · intro h
    cases h
    exact ⟨rfl, rfl⟩

theorem past_append_iff : c.Past (x ++ y) c' ↔ ∃ c₁, c.Past x c₁ ∧ c₁.Past y c' := by
  constructor
  · rintro ⟨hrest, hposition⟩
    rw [List.append_assoc] at hrest
    rw [List.length_append, ← Nat.add_assoc] at hposition
    exact ⟨⟨c.position + x.length, y ++ c'.rest⟩, ⟨hrest, rfl⟩, ⟨rfl, hposition⟩⟩
  · rintro ⟨c₁, ⟨hx, hxpos⟩, ⟨hy, hypos⟩⟩
    refine ⟨?_, ?_⟩
    · rw [hx, hy, List.append_assoc]
    · rw [hypos, hxpos, List.length_append, Nat.add_assoc]

/-- The cursor at an offset of a byte string. -/
def atOffset (bytes : Bytes) (offset : Nat) : Cursor := ⟨offset, bytes.drop offset⟩

/-- Bytes lead from where they start in a byte string to where they end. -/
theorem past_atOffset (x y z : Bytes) :
    (atOffset (x ++ y ++ z) x.length).Past y (atOffset (x ++ y ++ z) (x ++ y).length) := by
  refine ⟨?_, List.length_append⟩
  show (x ++ y ++ z).drop x.length = y ++ (x ++ y ++ z).drop (x ++ y).length
  rw [List.drop_left, List.append_assoc, List.drop_left]

end Cursor

namespace Output

variable {α : Type} {o p : Output} {c c' : Cursor} {l : Label} {n : Nat}

/-- The output did not fail, and its bytes lead from one cursor to the other. -/
def Between (o : Output) (c c' : Cursor) : Prop :=
  ∃ bytes, o.toExcept = .ok bytes ∧ c.Past bytes c'

theorem between_ofBytes_iff {bytes : Bytes} : (ofBytes bytes).Between c c' ↔ c.Past bytes c' := by
  simp [Between]

theorem between_empty_iff : empty.Between c c' ↔ c = c' := by
  simp [Between, Cursor.past_nil_iff]

/-- Joined outputs meet at a cursor. -/
theorem between_append_iff :
    (o ++ p).Between c c' ↔ ∃ c₁, o.Between c c₁ ∧ p.Between c₁ c' := by
  unfold Between
  constructor
  · rintro ⟨bytes, h, hpast⟩
    obtain ⟨x, y, hx, hy, rfl⟩ := toExcept_append_eq_ok_iff.1 h
    obtain ⟨c₁, hxpast, hypast⟩ := Cursor.past_append_iff.1 hpast
    exact ⟨c₁, ⟨x, hx, hxpast⟩, ⟨y, hy, hypast⟩⟩
  · rintro ⟨c₁, ⟨x, hx, hxpast⟩, ⟨y, hy, hypast⟩⟩
    exact ⟨x ++ y, toExcept_append_eq_ok_iff.2 ⟨x, y, hx, hy, rfl⟩,
      Cursor.past_append_iff.2 ⟨c₁, hxpast, hypast⟩⟩

/-- An index stands between two cursors when it fits its four bytes and these lead from one to the
other. -/
theorem between_index_iff :
    (index l n).Between c c' ↔ n < UInt32.size ∧ c.Past (Bytes.ofNatLE 4 n) c' := by
  unfold Between
  simp only [toExcept_index_eq_ok_iff]
  constructor
  · rintro ⟨_, ⟨hn, rfl⟩, hpast⟩
    exact ⟨hn, hpast⟩
  · rintro ⟨hn, hpast⟩
    exact ⟨_, ⟨hn, rfl⟩, hpast⟩

/-- What stands from the start of a byte string to its end is the whole of it. -/
theorem exists_between_start_iff {bytes : Bytes} :
    (∃ c', o.Between (Cursor.start bytes) c' ∧ c'.rest = []) ↔ o.toExcept = .ok bytes := by
  constructor
  · rintro ⟨c', ⟨x, hx, hpast⟩, hrest⟩
    have hbytes : bytes = x := by
      rw [← List.append_nil x, ← hrest]
      exact hpast.rest_eq
    rwa [hbytes]
  · intro h
    exact ⟨⟨bytes.length, []⟩, ⟨bytes, h, ⟨(List.append_nil bytes).symm, (Nat.zero_add _).symm⟩⟩, rfl⟩

end Output

/-! ## §2 Readers one after the other -/

namespace Read

variable {α β : Type} {c c' : Cursor} {l m : Label}

theorem bind_eq_ok_iff {r : Read α} {f : α → Read β} {b : β} :
    (r >>= f) c = (.ok b, c') ↔ ∃ a c₁, r c = (.ok a, c₁) ∧ f a c₁ = (.ok b, c') := by
  change Read.bind r f c = _ ↔ _
  unfold Read.bind
  obtain ⟨result, c₁⟩ := r c
  cases result with
  | error e => simp
  | ok a => simp

theorem pure_eq_ok_iff {a b : α} : (pure a : Read α) c = (.ok b, c') ↔ a = b ∧ c = c' := by
  change (Except.ok a, c) = _ ↔ _
  simp

@[simp]
theorem fail_ne_ok {e : FormatError} {a : α} : ¬ (fail e : Read α) c = (.ok a, c') :=
  fun h => nomatch h

/-- A reader that makes something of a byte string stops at some cursor. -/
theorem run_eq_ok_iff {r : Read α} {bytes : Bytes} {a : α} :
    r.run bytes = .ok a ↔ ∃ c', r (Cursor.start bytes) = (.ok a, c') := by
  unfold run
  obtain ⟨result, c'⟩ := r (Cursor.start bytes)
  simp

/-- The end of the bytes is where none are ahead. -/
theorem finish_eq_ok_iff {place : Section} {u : Unit} :
    finish place c = (.ok u, c') ↔ c.rest = [] ∧ c = c' := by
  unfold finish
  split <;> simp_all

/-- Bytes that are left at the end are counted, as are those before them. -/
theorem finish_of_ne_nil {place : Section} (h : c.rest ≠ []) :
    finish place c = (.error ⟨place, .trailingBytes c.position c.remaining⟩, c) := by
  unfold finish
  split
  · next hnil => exact absurd hnil h
  · rfl

/-! ## §3 Mirrors -/

/-- The reader takes exactly what the writer puts. -/
def Mirrors (read : Read α) (put : α → Output) : Prop :=
  ∀ {c c' : Cursor} {a : α}, read c = (.ok a, c') ↔ (put a).Between c c'

theorem take_eq_ok_iff {width : Nat} {bytes : Bytes} :
    take l width c = (.ok bytes, c') ↔ bytes.length = width ∧ c.Past bytes c' := by
  unfold take
  rw [List.splitAt_eq]
  dsimp only
  split
  · next hshort =>
    -- what is short of the width cannot start with so many bytes
    rw [List.length_take] at hshort
    simp only [Prod.mk.injEq, reduceCtorEq, false_and, false_iff]
    rintro ⟨hlength, hpast⟩
    rw [hpast.rest_eq, List.length_append] at hshort
    omega
  · next henough =>
    obtain ⟨position', rest'⟩ := c'
    simp only [Prod.mk.injEq, Except.ok.injEq, Cursor.mk.injEq]
    constructor
    · rintro ⟨rfl, rfl, rfl⟩
      have hlength : (c.rest.take width).length = width := by
        rw [List.length_take] at henough ⊢
        omega
      exact ⟨hlength, (List.take_append_drop _ _).symm, by rw [hlength]⟩
    · rintro ⟨hlength, hrest, hposition⟩
      obtain rfl : position' = c.position + bytes.length := hposition
      rw [hrest, List.take_left' hlength, List.drop_left' hlength, hlength]
      exact ⟨rfl, rfl, rfl⟩

theorem mirrors_take {width : Nat} : (take l width).Mirrors (Output.digest m width) := by
  intro c c' d
  rw [take_eq_ok_iff, Output.Between]
  simp only [Output.toExcept_digest_eq_ok_iff]
  constructor
  · rintro ⟨hlength, hpast⟩
    exact ⟨d, ⟨hlength, rfl⟩, hpast⟩
  · rintro ⟨_, ⟨hlength, rfl⟩, hpast⟩
    exact ⟨hlength, hpast⟩

/-- A number is read where its bytes are. -/
theorem number_eq_ok_iff {width n : Nat} :
    number width l c = (.ok n, c') ↔ n < 256 ^ width ∧ c.Past (Bytes.ofNatLE width n) c' := by
  unfold number
  simp only [bind_eq_ok_iff, pure_eq_ok_iff, take_eq_ok_iff]
  constructor
  · rintro ⟨bytes, _, ⟨hlength, hpast⟩, rfl, rfl⟩
    rw [← hlength, Bytes.ofNatLE_toNatLE]
    exact ⟨Bytes.toNatLE_lt bytes, hpast⟩
  · rintro ⟨hn, hpast⟩
    exact ⟨Bytes.ofNatLE width n, c', ⟨Bytes.length_ofNatLE width n, hpast⟩,
      Bytes.toNatLE_ofNatLE hn, rfl⟩

/-- A number that is read stands for a value, if every value is a number that fits. -/
private theorem mirrors_number_map {width : Nat} {value : Nat → α} {rank : α → Nat}
    (hvalue : ∀ a, value (rank a) = a) (hrank : ∀ n < 256 ^ width, rank (value n) = n)
    (hlt : ∀ a, rank a < 256 ^ width) :
    Mirrors (do return value (← number width l)) fun a => Output.number width (rank a) := by
  intro c c' a
  simp only [bind_eq_ok_iff, pure_eq_ok_iff, number_eq_ok_iff, Output.number,
    Output.between_ofBytes_iff]
  constructor
  · rintro ⟨n, _, ⟨hn, hpast⟩, rfl, rfl⟩
    rwa [hrank n hn]
  · intro hpast
    exact ⟨rank a, c', ⟨hlt a, hpast⟩, hvalue a, rfl⟩

theorem mirrors_u8 : (u8 l).Mirrors Output.u8 :=
  mirrors_number_map (fun _ => UInt8.ofNat_toNat) (fun _ hn => UInt8.toNat_ofNat_of_lt hn)
    UInt8.toNat_lt

theorem mirrors_u16 : (u16 l).Mirrors Output.u16 :=
  mirrors_number_map (fun _ => UInt16.ofNat_toNat) (fun _ hn => UInt16.toNat_ofNat_of_lt hn)
    UInt16.toNat_lt

theorem mirrors_u32 : (u32 l).Mirrors Output.u32 :=
  mirrors_number_map (fun _ => UInt32.ofNat_toNat) (fun _ hn => UInt32.toNat_ofNat_of_lt hn)
    UInt32.toNat_lt

/-- A length is a number of four bytes that is not written where it does not fit. -/
theorem u32_eq_ok_iff_index {n : UInt32} {length : Nat} (h : n.toNat = length) :
    u32 l c = (.ok n, c') ↔ (Output.index m length).Between c c' := by
  subst h
  rw [mirrors_u32, Output.between_index_iff, and_iff_right n.toNat_lt_size]
  exact Output.between_ofBytes_iff

theorem mirrors_flag : (flag l).Mirrors Output.flag := by
  intro c c' b
  unfold flag
  simp only [bind_eq_ok_iff, mirrors_u8 (l := l) (c := c), Output.flag]
  -- a tag that is neither of the two is refused
  constructor
  · rintro ⟨tag, c₁, htag, h⟩
    split at h
    · next hzero =>
      obtain ⟨rfl, rfl⟩ := pure_eq_ok_iff.1 h
      rwa [hzero] at htag
    · split at h
      · next hone =>
        obtain ⟨rfl, rfl⟩ := pure_eq_ok_iff.1 h
        rwa [hone] at htag
      · exact (fail_ne_ok h).elim
  · intro h
    refine ⟨_, c', h, ?_⟩
    cases b <;> rfl

theorem mirrors_sized : (sized l).Mirrors (Output.sized m) := by
  intro c c' bytes
  unfold sized Output.sized
  simp only [bind_eq_ok_iff, take_eq_ok_iff, Output.between_append_iff]
  constructor
  · rintro ⟨n, c₁, hn, hlength, hpast⟩
    exact ⟨c₁, (u32_eq_ok_iff_index hlength.symm).1 hn, Output.between_ofBytes_iff.2 hpast⟩
  · rintro ⟨c₁, hindex, hpast⟩
    have hlt := (Output.between_index_iff.1 hindex).1
    have hlength : (UInt32.ofNat bytes.length).toNat = bytes.length :=
      UInt32.toNat_ofNat_of_lt hlt
    exact ⟨_, c₁, (u32_eq_ok_iff_index hlength).2 hindex, hlength.symm,
      Output.between_ofBytes_iff.1 hpast⟩

theorem mirrors_text : (text l).Mirrors (Output.text m) := by
  intro c c' s
  unfold text Output.text
  simp only [bind_eq_ok_iff, mirrors_sized (l := l) (m := m) (c := c)]
  constructor
  · rintro ⟨bytes, c₁, hbytes, h⟩
    cases htext : bytes.toText? with
    | none =>
      rw [htext] at h
      exact (fail_ne_ok h).elim
    | some s' =>
      rw [htext] at h
      obtain ⟨rfl, rfl⟩ := pure_eq_ok_iff.1 h
      rwa [Bytes.toText?_eq_some_iff.1 htext] at hbytes
  · intro h
    refine ⟨_, c', h, ?_⟩
    rw [Bytes.toText?_eq_some_iff.2 rfl]
    rfl

/-! ## §4 Readers that take back an output -/

variable {item : Read α} {put : α → Output} {o p : Output} {a : α}

/-- The reader **takes back** an output: it moves over it with the value, wherever the output
stands. Of a mirror this is one half, for one value. -/
def TakesBack (r : Read α) (o : Output) (a : α) : Prop :=
  ∀ ⦃c c' : Cursor⦄, o.Between c c' → r c = (.ok a, c')

theorem Mirrors.takesBack (h : item.Mirrors put) (a : α) : item.TakesBack (put a) a :=
  fun _ _ hbetween => h.mpr hbetween

theorem TakesBack.bind {r : Read α} {f : α → Read β} {b : β} (h : r.TakesBack o a)
    (hf : (f a).TakesBack p b) : (r >>= f).TakesBack (o ++ p) b := by
  intro c c' hbetween
  obtain ⟨c₁, ho, hp⟩ := Output.between_append_iff.1 hbetween
  exact bind_eq_ok_iff.2 ⟨a, c₁, h ho, hf hp⟩

/-- What is made of a value is made of it after it was taken. -/
theorem TakesBack.map {r : Read α} (h : r.TakesBack o a) (f : α → β) :
    (do return f (← r)).TakesBack o (f a) :=
  fun _ _ hbetween => bind_eq_ok_iff.2 ⟨a, _, h hbetween, rfl⟩

theorem takesBack_absent : (Read.option l item).TakesBack (Output.flag false) none :=
  fun _ _ hbetween => bind_eq_ok_iff.2 ⟨false, _, mirrors_flag.2 hbetween, rfl⟩

theorem TakesBack.present (h : item.TakesBack o a) :
    (Read.option l item).TakesBack (Output.flag true ++ o) (some a) :=
  (mirrors_flag.takesBack true).bind (h.map some)

/-- Values are taken back one by one, behind those that are done. -/
theorem TakesBack.repeated {parts : List Output} {values : List α}
    (h : List.Forall₂ item.TakesBack parts values) (done : List α) :
    (Read.repeated item values.length done).TakesBack (Output.concat parts)
      (done.reverse ++ values) := by
  induction h generalizing done with
  | nil =>
    intro c c' hbetween
    obtain rfl := Output.between_empty_iff.1 hbetween
    rw [List.append_nil]
    rfl
  | @cons o a parts values ha _ ih =>
    have hnext := ih (a :: done)
    rw [List.reverse_cons, List.append_assoc] at hnext
    rw [Output.concat_cons]
    exact ha.bind hnext

theorem fewerThan_eq_ok_iff {n : Nat} {fewer : Bool} :
    fewerThan n c = (.ok fewer, c') ↔ decide (c.rest.length < n) = fewer ∧ c = c' := by
  have hlength : (c.rest.take n).length < n ↔ c.rest.length < n := by
    rw [List.length_take]
    omega
  simp only [fewerThan, hlength, Prod.mk.injEq, Except.ok.injEq]

/-- **The count of a list that was written is never refused**, as each of its items takes a byte of
those ahead. -/
theorem TakesBack.list {parts : List Output} {values : List α}
    (h : List.Forall₂ item.TakesBack parts values) (hsolid : ∀ o ∈ parts, o.Solid) :
    (Read.list l item).TakesBack (Output.index m values.length ++ Output.concat parts) values := by
  intro c c' hbetween
  obtain ⟨c₁, hindex, hitems⟩ := Output.between_append_iff.1 hbetween
  have hlength : (UInt32.ofNat values.length).toNat = values.length :=
    UInt32.toNat_ofNat_of_lt (Output.between_index_iff.1 hindex).1
  -- the items lie ahead, and with them as many bytes
  have hahead : ¬ c₁.rest.length < values.length := by
    obtain ⟨bytes, hbytes, hpast⟩ := hitems
    have hle := Output.length_le_of_toExcept_concat hsolid hbytes
    have hsame := h.length_eq
    rw [hpast.rest_eq, List.length_append]
    omega
  refine bind_eq_ok_iff.2 ⟨_, c₁, (u32_eq_ok_iff_index hlength).2 hindex, ?_⟩
  rw [hlength]
  refine bind_eq_ok_iff.2 ⟨false, c₁, fewerThan_eq_ok_iff.2 ⟨decide_eq_false hahead, rfl⟩, ?_⟩
  exact TakesBack.repeated h [] hitems

/-! ## §5 Options and lists -/

theorem Mirrors.option (h : item.Mirrors put) : (Read.option l item).Mirrors (Output.option put) := by
  intro c c' a
  unfold Read.option
  simp only [bind_eq_ok_iff, mirrors_flag (l := l) (c := c)]
  constructor
  · rintro ⟨present, c₁, hpresent, hrest⟩
    cases present with
    | false =>
      obtain ⟨rfl, rfl⟩ := pure_eq_ok_iff.1 hrest
      exact hpresent
    | true =>
      obtain ⟨b, c₂, hb, hpure⟩ := bind_eq_ok_iff.1 hrest
      obtain ⟨rfl, rfl⟩ := pure_eq_ok_iff.1 hpure
      exact Output.between_append_iff.2 ⟨c₁, hpresent, h.mp hb⟩
  · intro hbetween
    cases a with
    | none => exact ⟨false, c', hbetween, rfl⟩
    | some b =>
      obtain ⟨c₁, hflag, hb⟩ := Output.between_append_iff.1 hbetween
      exact ⟨true, c₁, hflag, bind_eq_ok_iff.2 ⟨b, c', h.mpr hb, rfl⟩⟩

/-- What is read one by one is what was written one by one. -/
theorem repeated_eq_ok_iff (h : item.Mirrors put) {count : Nat} {done items : List α} :
    repeated item count done c = (.ok items, c') ↔ ∃ later, items = done.reverse ++ later
      ∧ later.length = count ∧ (Output.concat (later.map put)).Between c c' := by
  induction count generalizing done c with
  | zero =>
    change (Except.ok done.reverse, c) = _ ↔ _
    simp [List.length_eq_zero_iff, Output.between_empty_iff, eq_comm]
  | succ count ih =>
    have hbind : repeated item (count + 1) done = item >>= fun a => repeated item count (a :: done) :=
      rfl
    simp only [hbind, bind_eq_ok_iff, ih]
    constructor
    · rintro ⟨a, c₁, ha, later, rfl, rfl, hlater⟩
      refine ⟨a :: later, by simp, rfl, ?_⟩
      rw [List.map_cons, Output.concat_cons, Output.between_append_iff]
      exact ⟨c₁, h.mp ha, hlater⟩
    · rintro ⟨later, rfl, hlength, hbetween⟩
      obtain ⟨a, later, rfl⟩ := List.exists_cons_of_length_eq_add_one hlength
      rw [List.map_cons, Output.concat_cons, Output.between_append_iff] at hbetween
      obtain ⟨c₁, ha, hlater⟩ := hbetween
      exact ⟨a, c₁, h.mpr ha, later, by simp, Nat.succ.inj hlength, hlater⟩

theorem Mirrors.list (h : item.Mirrors put) (hsolid : ∀ a, (put a).Solid) :
    (Read.list l item).Mirrors (Output.list m put) := by
  intro c c' items
  constructor
  · unfold Read.list
    simp only [bind_eq_ok_iff, fewerThan_eq_ok_iff]
    rintro ⟨count, c₁, hcount, fewer, _, ⟨-, rfl⟩, hrest⟩
    cases fewer with
    | true => exact (fail_ne_ok hrest).elim
    | false =>
      obtain ⟨later, rfl, hlength, hlater⟩ := (repeated_eq_ok_iff h).1 hrest
      exact Output.between_append_iff.2
        ⟨c₁, (u32_eq_ok_iff_index hlength.symm).1 hcount, hlater⟩
  · intro hbetween
    have hitems : List.Forall₂ item.TakesBack (items.map put) items := by
      rw [List.forall₂_map_left_iff, List.forall₂_same]
      exact fun a _ => h.takesBack a
    apply TakesBack.list hitems _ hbetween
    intro o ho
    obtain ⟨a, -, rfl⟩ := List.mem_map.mp ho
    exact hsolid a

end Read

end HashTree
