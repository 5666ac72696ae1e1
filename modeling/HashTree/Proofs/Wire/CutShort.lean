import HashTree.Proofs.Wire.Mirror

/-!
# Reading what was cut short

A reader that mirrors a writer takes back what was written. Here it gets **less than that**: some
bytes at the end are missing, wherever the cut goes. Then the first part that is not all there fails,
and it fails because the bytes end, or because fewer are left than a count announces. No other fault
is found before, since up to the cut everything is as it was written.
-/

namespace HashTree

/-- The faults of bytes that **end too early**: inside a field, or before as many items as a count
announces. -/
inductive FormatError.EndsEarly : FormatError → Prop where
  | unexpectedEnd (l : Label) : EndsEarly l.unexpectedEnd
  | invalidLength (l : Label) : EndsEarly l.invalidLength

namespace Bytes

/-- The first bytes, of which **some at the end are missing**. -/
structure CutFrom (part bytes : Bytes) : Prop where
  prefix_of : part <+: bytes
  ne : part ≠ bytes

variable {part x y : Bytes}

theorem CutFrom.length_lt (h : CutFrom part x) : part.length < x.length :=
  Nat.lt_of_le_of_ne h.prefix_of.length_le fun hlength => h.ne (h.prefix_of.eq_of_length hlength)

theorem not_cutFrom_nil : ¬ CutFrom part [] :=
  fun h => h.ne (List.prefix_nil.mp h.prefix_of)

theorem cutFrom_dropLast (h : x ≠ []) : CutFrom x.dropLast x := by
  refine ⟨x.dropLast_prefix, fun heq => ?_⟩
  have hlength := congrArg List.length heq
  have hpos := List.length_pos_iff.mpr h
  rw [List.length_dropLast] at hlength
  omega

/-- Joined bytes are cut within the first part or within the second. -/
theorem CutFrom.of_append (h : CutFrom part (x ++ y)) :
    CutFrom part x ∨ ∃ part', part = x ++ part' ∧ CutFrom part' y := by
  rcases List.prefix_or_prefix_of_prefix h.prefix_of (List.prefix_append x y) with hx | ⟨part', rfl⟩
  · by_cases heq : part = x
    · -- the cut goes between the two
      subst heq
      refine .inr ⟨[], (List.append_nil part).symm, List.nil_prefix, ?_⟩
      rintro rfl
      exact h.ne (List.append_nil part).symm
    · exact .inl ⟨hx, heq⟩
  · refine .inr ⟨part', rfl, (List.prefix_append_right_inj x).mp h.prefix_of, ?_⟩
    rintro rfl
    exact h.ne rfl

end Bytes

namespace Read

variable {α β : Type} {c c₁ : Cursor} {l m : Label} {r : Read α} {f : α → Read β} {a : α}
  {put : α → Output} {o : Output}

/-! ## §1 Readers that run out -/

/-- The reader fails as the bytes ahead end too early. -/
def RunsOut (r : Read α) (c : Cursor) : Prop :=
  ∃ e c', r c = (.error e, c') ∧ e.EndsEarly

theorem bind_of_ok (h : r c = (.ok a, c₁)) : (r >>= f) c = f a c₁ := by
  change Read.bind r f c = _
  rw [Read.bind, h]

theorem bind_of_error {e : FormatError} (h : r c = (.error e, c₁)) :
    (r >>= f) c = (.error e, c₁) := by
  change Read.bind r f c = _
  rw [Read.bind, h]

/-- What is read afterwards is not reached. -/
theorem RunsOut.bind (h : r.RunsOut c) : (r >>= f).RunsOut c := by
  obtain ⟨e, c', hr, he⟩ := h
  exact ⟨e, c', bind_of_error hr, he⟩

theorem RunsOut.of_ok (hr : r c = (.ok a, c₁)) (h : (f a).RunsOut c₁) : (r >>= f).RunsOut c := by
  unfold RunsOut at h ⊢
  rwa [bind_of_ok hr]

theorem RunsOut.run {bytes : Bytes} (h : r.RunsOut (Cursor.start bytes)) :
    ∃ e, r.run bytes = .error e ∧ e.EndsEarly := by
  obtain ⟨e, c', hr, he⟩ := h
  exact ⟨e, by rw [Read.run, hr], he⟩

/-- What was written is read with **any bytes behind it**. -/
theorem Mirrors.read (h : r.Mirrors put) {x : Bytes} (hx : (put a).toExcept = .ok x)
    (position : Nat) (more : Bytes) :
    r ⟨position, x ++ more⟩ = (.ok a, ⟨position + x.length, more⟩) :=
  h.mpr ⟨x, hx, rfl, rfl⟩

/-! ## §2 Readers that need all of an output -/

/-- The reader **needs all** that is put out: it runs out on every part that is cut off, wherever
that part stands. -/
def Needs (r : Read α) (o : Output) : Prop :=
  ∀ (position : Nat) (bytes part : Bytes), o.toExcept = .ok bytes → part.CutFrom bytes →
    r.RunsOut ⟨position, part⟩

/-- From nothing nothing can be cut off. -/
theorem needs_empty (r : Read α) : r.Needs Output.empty := by
  intro position bytes part hbytes hcut
  obtain rfl := Except.ok.inj hbytes
  exact absurd hcut Bytes.not_cutFrom_nil

theorem Needs.bind_left (h : r.Needs o) : (r >>= f).Needs o :=
  fun position bytes part hbytes hcut => (h position bytes part hbytes hcut).bind

/-- Of joined outputs that are cut the first is not all there, or it is read and the second is
cut. -/
theorem Needs.or_read (hmirrors : r.Mirrors put) (h : r.Needs (put a)) {x y part : Bytes}
    (hx : (put a).toExcept = .ok x) (hcut : part.CutFrom (x ++ y)) (position : Nat) :
    r.RunsOut ⟨position, part⟩ ∨ ∃ part', part'.CutFrom y
      ∧ r ⟨position, part⟩ = (.ok a, ⟨position + x.length, part'⟩) := by
  rcases hcut.of_append with hfirst | ⟨part', rfl, hsecond⟩
  · exact .inl (h position x part hx hfirst)
  · exact .inr ⟨part', hsecond, hmirrors.read hx position part'⟩

/-- **A chain needs all** of joined outputs if its links need theirs. -/
theorem Needs.bind (hmirrors : r.Mirrors put) (h : r.Needs (put a)) (hf : (f a).Needs o) :
    (r >>= f).Needs (put a ++ o) := by
  intro position bytes part hbytes hcut
  obtain ⟨x, y, hx, hy, rfl⟩ := Output.toExcept_append_eq_ok_iff.mp hbytes
  rcases h.or_read hmirrors hx hcut position with hout | ⟨part', hsecond, hread⟩
  · exact hout.bind
  · exact .of_ok hread (hf _ y part' hy hsecond)

/-! ## §3 Fields -/

/-- So many bytes are not to be had where fewer are. -/
private theorem take_runsOut {width : Nat} (h : c.rest.length < width) :
    (take l width).RunsOut c := by
  refine ⟨l.unexpectedEnd, c, ?_, .unexpectedEnd l⟩
  have hshort : (c.rest.take width).length < width := by
    rw [List.length_take]
    omega
  rw [take, List.splitAt_eq]
  exact if_pos hshort

theorem needs_take {bytes : Bytes} {width : Nat} (hwidth : bytes.length = width) :
    (take l width).Needs (.ofBytes bytes) := by
  intro position x part hx hcut
  obtain rfl := Except.ok.inj hx
  exact take_runsOut (hwidth ▸ hcut.length_lt)

theorem needs_digest {width : Nat} {d : Bytes} : (take l width).Needs (Output.digest m width d) := by
  intro position x part hx hcut
  obtain ⟨hwidth, rfl⟩ := Output.toExcept_digest_eq_ok_iff.mp hx
  exact needs_take hwidth position d part rfl hcut

theorem needs_number {width n : Nat} : (number width l).Needs (Output.number width n) :=
  (needs_take (Bytes.length_ofNatLE width n)).bind_left

theorem needs_u8 {n : UInt8} : (u8 l).Needs (Output.u8 n) := needs_number.bind_left

theorem needs_u16 {n : UInt16} : (u16 l).Needs (Output.u16 n) := needs_number.bind_left

theorem needs_u32 {n : UInt32} : (u32 l).Needs (Output.u32 n) := needs_number.bind_left

/-- A tag is a byte, and what it says comes later. -/
theorem needs_flag {b : Bool} : (flag l).Needs (Output.flag b) := needs_u8.bind_left

/-- A count is read as the number that was written, and then so many are read. -/
theorem Needs.counted {f : UInt32 → Read β} {n : Nat}
    (h : ∀ count : UInt32, count.toNat = n → (f count).Needs o) :
    (u32 l >>= f).Needs (Output.index m n ++ o) := by
  by_cases hn : n < UInt32.size
  · have hindex : Output.index m n = Output.u32 (UInt32.ofNat n) := by
      rw [Output.index, Label.checkIndex_eq_ok_iff.mpr ⟨rfl, hn⟩]
    rw [hindex]
    exact needs_u32.bind mirrors_u32 (h _ (UInt32.toNat_ofNat_of_lt hn))
  · -- a count that does not fit is not written
    intro position bytes part hbytes
    obtain ⟨x, y, hx, -⟩ := Output.toExcept_append_eq_ok_iff.mp hbytes
    exact absurd (Output.toExcept_index_eq_ok_iff.mp hx).1 hn

theorem needs_sized {bytes : Bytes} : (sized l).Needs (Output.sized m bytes) :=
  Needs.counted fun _ hcount => needs_take hcount.symm

/-- Whether the bytes are a text is asked when all of them are there. -/
theorem needs_text {s : String} : (text l).Needs (Output.text m s) := needs_sized.bind_left

/-! ## §4 Options and lists -/

variable {item : Read α}

theorem Needs.option (h : ∀ a, item.Needs (put a)) (value : Option α) :
    (Read.option l item).Needs (Output.option put value) := by
  cases value with
  | none =>
    -- nothing follows the flag, so a cut goes through it
    exact needs_flag.bind_left
  | some a => exact needs_flag.bind mirrors_flag (h a).bind_left

/-- Items are read one by one, so the first one that is not all there runs out. -/
theorem Needs.repeated (hmirrors : item.Mirrors put) (h : ∀ a, item.Needs (put a))
    (items done : List α) :
    (Read.repeated item items.length done).Needs (Output.concat (items.map put)) := by
  induction items generalizing done with
  | nil => exact needs_empty _
  | cons a items ih =>
    rw [List.map_cons, Output.concat_cons]
    exact (h a).bind hmirrors (ih (a :: done))

/-- A list is refused **for its count** where fewer bytes are left, and else for an item. -/
theorem Needs.list (hmirrors : item.Mirrors put) (h : ∀ a, item.Needs (put a)) (items : List α) :
    (Read.list l item).Needs (Output.list m put items) := by
  refine Needs.counted fun count hcount position bytes part hbytes hcut => ?_
  by_cases hfew : part.length < count.toNat
  · -- the count is refused before an item is read
    refine .of_ok (fewerThan_eq_ok_iff.mpr ⟨decide_eq_true hfew, rfl⟩) ?_
    exact ⟨_, _, rfl, .invalidLength l⟩
  · -- the count passes, as items may be longer than a byte, and then an item is cut
    refine .of_ok (fewerThan_eq_ok_iff.mpr ⟨decide_eq_false hfew, rfl⟩) ?_
    rw [hcount]
    exact Needs.repeated hmirrors h items [] position bytes part hbytes hcut

end Read

end HashTree
