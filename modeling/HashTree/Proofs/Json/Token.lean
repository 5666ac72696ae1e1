import HashTree.Json.Token
import HashTree.Proofs.Bytes
import Mathlib.Data.List.Chain
import Mathlib.Data.Nat.Init

/-!
# Reading the tokens that were written

A token is cut off the front of the text that starts with its spelling. Strings and marks end by
themselves, so this holds whatever follows them. A word or a number ends where the next character
can no longer stand in one, so two of them must not touch.
-/

namespace HashTree

namespace Json

/-! ## §1 Strings -/

/-- A character stands for itself, is escaped by a letter, or is escaped by its number. -/
theorem escapeChar_cases (c : Char) :
    (escapeChar c = [c] ∧ c ≠ '"' ∧ c ≠ '\\' ∧ 32 ≤ c.toNat)
      ∨ (∃ d, escapeChar c = ['\\', d] ∧ d ≠ 'u' ∧ escaped? d = some c)
      ∨ (c.toNat < 32 ∧ escapeChar c
        = ['\\', 'u', '0', '0', Nat.digitChar (c.toNat / 16), Nat.digitChar (c.toNat % 16)]) := by
  unfold escapeChar
  -- seven characters are escaped by a letter
  split
  · next h => exact .inr (.inl ⟨_, rfl, by decide, by rw [h]; rfl⟩)
  split
  · next h => exact .inr (.inl ⟨_, rfl, by decide, by rw [h]; rfl⟩)
  split
  · next h => exact .inr (.inl ⟨_, rfl, by decide, by rw [h]; rfl⟩)
  split
  · next h => exact .inr (.inl ⟨_, rfl, by decide, by rw [h]; rfl⟩)
  split
  · next h => exact .inr (.inl ⟨_, rfl, by decide, by rw [h]; rfl⟩)
  split
  · next h => exact .inr (.inl ⟨_, rfl, by decide, by rw [h]; rfl⟩)
  split
  · next h => exact .inr (.inl ⟨_, rfl, by decide, by rw [h]; rfl⟩)
  split
  · next h => exact .inr (.inr ⟨h, rfl⟩)
  · next hquote hbackslash _ _ _ _ _ hcontrol =>
    exact .inl ⟨rfl, hquote, hbackslash, Nat.le_of_not_lt hcontrol⟩

/-- The digits of numbers below sixteen are read as hexadecimal digits and stand for themselves. -/
theorem digitChar_spec {n : Nat} (h : n < 16) : Hex.value? (Nat.digitChar n) = some n
    ∧ Nat.digitChar n ≠ '"' ∧ Nat.digitChar n ≠ '\\' ∧ 32 ≤ (Nat.digitChar n).toNat := by
  have hall : ∀ n < 16, Hex.value? (Nat.digitChar n) = some n
    ∧ Nat.digitChar n ≠ '"' ∧ Nat.digitChar n ≠ '\\' ∧ 32 ≤ (Nat.digitChar n).toNat := by decide
  exact hall n h

theorem splitQuoted_plain {c : Char} (hquote : c ≠ '"') (hbackslash : c ≠ '\\')
    (hcontrol : 32 ≤ c.toNat) (rest inner : List Char) :
    splitQuoted (c :: rest) inner = splitQuoted rest (c :: inner) := by
  rw [splitQuoted.eq_def]
  dsimp only
  rw [if_neg hquote, if_neg (Nat.not_lt.mpr hcontrol), if_neg hbackslash]

theorem splitQuoted_backslash (d : Char) (rest inner : List Char) :
    splitQuoted ('\\' :: d :: rest) inner = splitQuoted rest (d :: '\\' :: inner) := by
  rw [splitQuoted.eq_def]
  dsimp only
  rw [if_neg (by decide), if_neg (by decide), if_pos rfl]

/-- An escape is passed over as a whole: a quote that it holds does not close the string. -/
theorem splitQuoted_escapeChar (c : Char) (rest inner : List Char) :
    splitQuoted (escapeChar c ++ rest) inner
      = splitQuoted rest ((escapeChar c).reverse ++ inner) := by
  rcases escapeChar_cases c with ⟨hc, hquote, hbackslash, hcontrol⟩ | ⟨d, hc, -, -⟩ | ⟨hlt, hc⟩
  · rw [hc]
    exact splitQuoted_plain hquote hbackslash hcontrol rest inner
  · rw [hc]
    exact splitQuoted_backslash d rest inner
  · obtain ⟨-, hhigh⟩ := digitChar_spec (n := c.toNat / 16) (by omega)
    obtain ⟨-, hlow⟩ := digitChar_spec (n := c.toNat % 16) (by omega)
    have hzero : ∀ rest inner, splitQuoted ('0' :: rest) inner = splitQuoted rest ('0' :: inner) :=
      splitQuoted_plain (by decide) (by decide) (by decide)
    rw [hc]
    simp only [List.cons_append, List.nil_append, splitQuoted_backslash, hzero,
      splitQuoted_plain hhigh.1 hhigh.2.1 hhigh.2.2, splitQuoted_plain hlow.1 hlow.2.1 hlow.2.2]
    rfl

/-- The closing quote is the first one that is not escaped. -/
theorem splitQuoted_flatMap_escapeChar (chars rest inner : List Char) :
    splitQuoted (chars.flatMap escapeChar ++ '"' :: rest) inner
      = some (inner.reverse ++ chars.flatMap escapeChar, rest) := by
  induction chars generalizing inner with
  | nil => simp [splitQuoted.eq_def]
  | cons c chars ih =>
    rw [List.flatMap_cons, List.append_assoc, splitQuoted_escapeChar, ih]
    simp

/-- The escape of a character is resolved to it. -/
theorem unescape_escapeChar (c : Char) (rest done : List Char) :
    unescape (escapeChar c ++ rest) none done = unescape rest none (c :: done) := by
  rcases escapeChar_cases c with ⟨hc, -, hbackslash, -⟩ | ⟨d, hc, hletter, hd⟩ | ⟨hlt, hc⟩
  · simp [hc, unescape, hbackslash]
  · simp [hc, unescape, hletter, hd]
  · obtain ⟨hhigh, -⟩ := digitChar_spec (n := c.toNat / 16) (by omega)
    obtain ⟨hlow, -⟩ := digitChar_spec (n := c.toNat % 16) (by omega)
    have hunit : unit? '0' '0' (Nat.digitChar (c.toNat / 16)) (Nat.digitChar (c.toNat % 16))
        = some c.toNat := by
      have hzero : Hex.value? '0' = some 0 := rfl
      rw [unit?, hhigh, hlow, hzero]
      simp
      omega
    -- a control character is no half of a surrogate pair
    have hchar : contribute none c.toNat = .char c := by
      have hhalf : ¬ (0xD800 ≤ c.toNat) := by omega
      have hlow : ¬ (0xDC00 ≤ c.toNat) := by omega
      simp [contribute, hhalf, hlow]
    simp [hc, unescape, hunit, hchar]

theorem unescape_flatMap_escapeChar (chars done : List Char) :
    unescape (chars.flatMap escapeChar) none done = some (String.ofList (done.reverse ++ chars)) := by
  induction chars generalizing done with
  | nil => simp [unescape]
  | cons c chars ih =>
    rw [List.flatMap_cons, unescape_escapeChar, ih]
    simp

/-! ## §2 Numbers -/

/-- Decimal digits, at least one. -/
def Digits (digits : List Nat) : Prop := digits ≠ [] ∧ ∀ d ∈ digits, d < 10

end Json

/-- The number is spelled as numbers are in a JSON text: no group of digits is empty, and no digit
follows a leading zero. -/
structure Numeral.Spelled (n : Numeral) : Prop where
  whole : Json.Digits n.whole
  leading : ∀ rest, n.whole = 0 :: rest → rest = []
  fraction : ∀ digits ∈ n.fraction, Json.Digits digits
  exponent : ∀ e ∈ n.exponent, Json.Digits e.2

/-! ### Natural numbers -/

namespace Numeral

theorem digitsOf_of_lt {n : Nat} (h : n < 10) : digitsOf n = [n] := by
  rw [digitsOf, Nat.toDigits_of_lt_base h, List.map_singleton,
    Nat.toNat_digitChar_sub_48_of_lt_ten h]

theorem digitsOf_of_le {n : Nat} (h : 10 ≤ n) : digitsOf n = digitsOf (n / 10) ++ [n % 10] := by
  have hlt : n % 10 < 10 := Nat.mod_lt n (by decide)
  rw [digitsOf, Nat.toDigits_of_base_le (by decide) h, List.map_append, List.map_singleton,
    Nat.toNat_digitChar_sub_48_of_lt_ten hlt, digitsOf]

/-- The digits of a number, the first of which is not zero unless the number is. -/
theorem digitsOf_spec (n : Nat) :
    Json.Digits (digitsOf n) ∧ (0 < n → ∀ rest, digitsOf n ≠ 0 :: rest) := by
  induction n using Nat.strong_induction_on with
  | _ n ih =>
    by_cases hn : n < 10
    · rw [digitsOf_of_lt hn]
      refine ⟨⟨List.cons_ne_nil _ _, by simpa using hn⟩, fun hpos rest heq => ?_⟩
      have hzero := (List.cons.inj heq).1
      omega
    · obtain ⟨⟨hne, hlt⟩, hleading⟩ := ih (n / 10) (by omega)
      rw [digitsOf_of_le (Nat.le_of_not_lt hn)]
      refine ⟨⟨by simp, fun d hd => ?_⟩, fun _ rest heq => ?_⟩
      · rcases List.mem_append.mp hd with hd | hd
        · exact hlt d hd
        · rw [List.mem_singleton.mp hd]
          exact Nat.mod_lt n (by decide)
      · -- the first digit is that of the number without its last digit
        obtain ⟨d, digits, hdigits⟩ := List.exists_cons_of_ne_nil hne
        rw [hdigits, List.cons_append] at heq
        rw [(List.cons.inj heq).1] at hdigits
        exact hleading (by omega) digits hdigits

theorem spelled_ofNat (n : Nat) : (ofNat n).Spelled where
  whole := (digitsOf_spec n).1
  leading := by
    intro rest hrest
    rcases Nat.eq_zero_or_pos n with rfl | hpos
    · exact (List.cons.inj ((digitsOf_of_lt (by decide)).symm.trans hrest)).2.symm
    · exact absurd hrest ((digitsOf_spec n).2 hpos rest)
  fraction := fun _ h => nomatch h
  exponent := fun _ h => nomatch h

/-- A natural number is the value of its digits. -/
theorem toNat?_ofNat (n : Nat) : (ofNat n).toNat? = some n := by
  have hvalue : valueOf (digitsOf n) = Nat.ofDigitChars 10 (Nat.toDigits 10 n) 0 := by
    rw [valueOf, digitsOf, List.foldl_map, Nat.ofDigitChars_eq_foldl]
    rfl
  rw [ofNat, toNat?]
  simp [hvalue]

end Numeral

namespace Json

theorem digit?_digitChar {d : Nat} (h : d < 10) : digit? (Nat.digitChar d) = some d := by
  have hall : ∀ d < 10, digit? (Nat.digitChar d) = some d := by decide
  exact hall d h

theorem inRun_digitChar {d : Nat} (h : d < 10) : inRun (Nat.digitChar d) = true := by
  have hall : ∀ d < 10, inRun (Nat.digitChar d) = true := by decide
  exact hall d h

/-- The run of digits ends where no digit follows. -/
theorem splitDigits_digitChars {digits : List Nat} {rest : List Char}
    (h : ∀ d ∈ digits, d < 10) (hrest : ∀ c ∈ rest.head?, digit? c = none) :
    splitDigits (digitChars digits ++ rest) = (digits, rest) := by
  induction digits with
  | nil =>
    cases rest with
    | nil => rfl
    | cons c rest =>
      have hc := hrest c rfl
      simp [digitChars, splitDigits, hc]
  | cons d digits ih =>
    obtain ⟨hd, hdigits⟩ := List.forall_mem_cons.mp h
    have hih := ih hdigits
    rw [digitChars] at hih
    simp [digitChars, splitDigits, digit?_digitChar hd, hih]

/-- The spelling of an exponent that may be absent. -/
private def exponentChars : Option (Bool × List Nat) → List Char
  | none => []
  | some (negative, digits) => 'e' :: (if negative then '-' else '+') :: digitChars digits

/-- The spelling of a fraction that may be absent. -/
private def fractionChars : Option (List Nat) → List Char
  | none => []
  | some digits => '.' :: digitChars digits

private theorem numeralChars_eq (n : Numeral) : numeralChars n
    = (if n.negative then ['-'] else []) ++ (digitChars n.whole
      ++ (fractionChars n.fraction ++ exponentChars n.exponent)) := by
  unfold numeralChars
  simp only [List.append_assoc]
  rcases n.fraction with - | digits <;> rcases n.exponent with - | ⟨negative, digits'⟩ <;> rfl

private theorem readExponent_exponentChars {e : Option (Bool × List Nat)}
    (h : ∀ p ∈ e, Digits p.2) : readExponent (exponentChars e) = some e := by
  rcases e with - | ⟨negative, digits⟩
  · rfl
  · obtain ⟨hne, hlt⟩ : Digits digits := h _ rfl
    have hend : ∀ c ∈ ([] : List Char).head?, digit? c = none := fun _ hc => nomatch hc
    have hsplit := splitDigits_digitChars hlt hend
    rw [List.append_nil] at hsplit
    obtain ⟨d, digits, rfl⟩ := List.exists_cons_of_ne_nil hne
    cases negative <;> simp [exponentChars, readExponent, hsplit]

private theorem readFraction_fractionChars {fraction : Option (List Nat)}
    {e : Option (Bool × List Nat)} (h : ∀ digits ∈ fraction, Digits digits) :
    readFraction (fractionChars fraction ++ exponentChars e) = some (fraction, exponentChars e) := by
  have hexponent : ∀ c ∈ (exponentChars e).head?, c = 'e' := by
    rcases e with - | ⟨negative, digits⟩ <;> simp [exponentChars]
  rcases fraction with - | digits
  · rcases e with - | ⟨negative, digits⟩ <;> rfl
  · obtain ⟨hne, hlt⟩ : Digits digits := h _ rfl
    have hsplit := splitDigits_digitChars hlt fun c hc => by rw [hexponent c hc]; rfl
    obtain ⟨d, digits, rfl⟩ := List.exists_cons_of_ne_nil hne
    simp [fractionChars, readFraction, hsplit]

/-- Reads a number behind its sign. -/
private def readUnsigned (negative : Bool) (run : List Char) : Option Numeral :=
  match splitDigits run with
  | ([], _) => none
  | (0 :: _ :: _, _) => none
  | (whole, rest) => do
    let (fraction, rest) ← readFraction rest
    let exponent ← readExponent rest
    return ⟨negative, whole, fraction, exponent⟩

private theorem readNumeral_of_ne {c : Char} (hc : c ≠ '-') (run : List Char) :
    readNumeral (c :: run) = readUnsigned false (c :: run) := by
  unfold readNumeral
  split
  · next heq =>
    split at heq
    · next hminus => exact absurd (List.cons.inj hminus).1 hc
    · cases heq
      rfl

private theorem readUnsigned_chars {negative : Bool} {whole : List Nat}
    {fraction : Option (List Nat)} {exponent : Option (Bool × List Nat)}
    (h : Numeral.Spelled ⟨negative, whole, fraction, exponent⟩) :
    readUnsigned negative (digitChars whole ++ (fractionChars fraction ++ exponentChars exponent))
      = some ⟨negative, whole, fraction, exponent⟩ := by
  obtain ⟨⟨hne, hlt⟩, hleading, hfraction, hexponent⟩ := h
  -- a fraction starts with a point and an exponent with a letter, so the whole part ends there
  have hend : ∀ c ∈ (fractionChars fraction ++ exponentChars exponent).head?,
      digit? c = none := by
    rcases fraction with - | digits <;> rcases exponent with - | ⟨negative, digits'⟩ <;>
      simp [fractionChars, exponentChars, digit?]
  unfold readUnsigned
  rw [splitDigits_digitChars hlt hend]
  split
  · next heq => exact absurd (Prod.mk.inj heq).1 hne
  · next heq => cases hleading _ (Prod.mk.inj heq).1
  · next heq =>
    cases heq
    rw [readFraction_fractionChars hfraction]
    simp [readExponent_exponentChars hexponent]

/-- A number that is spelled as it should be is read off its spelling. -/
theorem readNumeral_numeralChars {n : Numeral} (h : n.Spelled) :
    readNumeral (numeralChars n) = some n := by
  have hchars := readUnsigned_chars h
  obtain ⟨negative, whole, fraction, exponent⟩ := n
  rw [numeralChars_eq]
  cases negative with
  | true => exact hchars
  | false =>
    obtain ⟨d, rest, rfl⟩ := List.exists_cons_of_ne_nil h.whole.1
    have hsign : Nat.digitChar d ≠ '-' := by
      have hall : ∀ d < 10, Nat.digitChar d ≠ '-' := by decide
      exact hall d (h.whole.2 d List.mem_cons_self)
    exact (readNumeral_of_ne hsign _).trans hchars

/-! ## §3 Runs -/

/-- A character of a word or a number starts nothing else. -/
theorem inRun_spec {c : Char} (h : inRun c = true) :
    isSpace c = false ∧ mark? c = none ∧ c ≠ '"' := by
  refine ⟨?_, ?_, ?_⟩
  · by_contra hspace
    rw [Bool.not_eq_false, isSpace] at hspace
    simp only [Bool.or_eq_true, beq_iff_eq] at hspace
    rcases hspace with ((rfl | rfl) | rfl) | rfl <;> cases h
  · unfold mark?
    -- each of the six marks would have to stand in a run
    repeat' split
    all_goals first | rfl | (next hmark => rw [hmark] at h; cases h)
  · rintro rfl
    cases h

/-- Words and numbers: the tokens that end where the next character can no longer belong to them. -/
def Token.isRun : Token → Bool
  | .null | .bool _ | .number _ => true
  | _ => false

/-- A number is spelled as it should be; other tokens have a single spelling. -/
def Token.Legible : Token → Prop
  | .number n => n.Spelled
  | _ => True

private theorem inRun_numeralChars {n : Numeral} (h : n.Spelled) :
    ∀ c ∈ numeralChars n, inRun c = true := by
  have hdigits : ∀ digits, (∀ d ∈ digits, d < 10) → ∀ c ∈ digitChars digits, inRun c = true := by
    intro digits hlt c hc
    obtain ⟨d, hd, rfl⟩ := List.mem_map.mp hc
    exact inRun_digitChar (hlt d hd)
  -- the sign, the whole part, the fraction and the exponent are looked at one by one
  intro c hc
  simp only [numeralChars_eq, List.mem_append] at hc
  rcases hc with hsign | hwhole | hfraction | hexponent
  · cases hnegative : n.negative with
    | false => simp [hnegative] at hsign
    | true =>
      obtain rfl : c = '-' := by simpa [hnegative] using hsign
      rfl
  · exact hdigits _ h.whole.2 c hwhole
  · cases hn : n.fraction with
    | none => simp [hn, fractionChars] at hfraction
    | some digits =>
      rw [hn, fractionChars, List.mem_cons] at hfraction
      rcases hfraction with rfl | hc
      · rfl
      · exact hdigits _ (h.fraction digits hn).2 c hc
  · cases hn : n.exponent with
    | none => simp [hn, exponentChars] at hexponent
    | some e =>
      obtain ⟨negative, digits⟩ := e
      rw [hn, exponentChars, List.mem_cons, List.mem_cons] at hexponent
      rcases hexponent with rfl | rfl | hc
      · rfl
      · cases negative <;> rfl
      · exact hdigits _ (h.exponent _ hn).2 c hc

/-- A word or number consists of characters of runs, and is read off them. -/
theorem Token.isRun_spec {t : Token} (hrun : t.isRun = true) (h : t.Legible) :
    (∀ c ∈ t.chars, inRun c = true) ∧ readRun t.chars = some t := by
  cases t with
  | null => exact ⟨List.all_eq_true.mp rfl, rfl⟩
  | bool b => cases b <;> exact ⟨List.all_eq_true.mp rfl, rfl⟩
  | number n =>
    refine ⟨inRun_numeralChars h, ?_⟩
    have hnumeral := readNumeral_numeralChars h
    -- none of the three words is a number
    have hword : ∀ word, readNumeral word = none → numeralChars n ≠ word := by
      rintro word hword rfl
      rw [hnumeral] at hword
      cases hword
    rw [Token.chars, readRun, if_neg (hword _ rfl), if_neg (hword _ rfl), if_neg (hword _ rfl),
      hnumeral]
    rfl
  | _ => cases hrun

/-! ## §4 Texts -/

/-- No word or number goes on here. -/
def Stops (rest : List Char) : Prop := ∀ c ∈ rest.head?, inRun c = false

private theorem takeWhile_inRun {chars rest : List Char} (h : ∀ c ∈ chars, inRun c = true)
    (hstops : Stops rest) : (chars ++ rest).takeWhile inRun = chars
      ∧ (chars ++ rest).dropWhile inRun = rest := by
  rw [List.takeWhile_append_of_pos h, List.dropWhile_append_of_pos h]
  cases rest with
  | nil => simp
  | cons c rest =>
    have hc := hstops c rfl
    simp [hc]

/-- **A token is cut off** the text that starts with its spelling. -/
theorem splitToken_chars {t : Token} {rest : List Char} (h : t.Legible)
    (hstops : t.isRun = true → Stops rest) : ∃ c cs, t.chars = c :: cs ∧ isSpace c = false
      ∧ splitToken c (cs ++ rest) = some (t, rest) := by
  cases hrun : t.isRun with
  | true =>
    obtain ⟨hchars, hread⟩ := Token.isRun_spec hrun h
    have hne : t.chars ≠ [] := by
      intro hnil
      rw [hnil] at hread
      cases hread
    obtain ⟨c, cs, hcons⟩ := List.exists_cons_of_ne_nil hne
    rw [hcons] at hchars hread
    obtain ⟨hc, hcs⟩ := List.forall_mem_cons.mp hchars
    -- the first character rules out marks and strings
    obtain ⟨hspace, hmark, hquote⟩ := inRun_spec hc
    obtain ⟨htake, hdrop⟩ := takeWhile_inRun hcs (hstops hrun)
    refine ⟨c, cs, hcons, hspace, ?_⟩
    rw [splitToken, hmark]
    dsimp only
    rw [if_neg hquote, if_pos hc, htake, hdrop, hread]
    rfl
  | false =>
    cases t with
    | string s =>
      refine ⟨'"', s.toList.flatMap escapeChar ++ ['"'], rfl, rfl, ?_⟩
      have hquoted := splitQuoted_flatMap_escapeChar s.toList rest []
      have hresolved := unescape_flatMap_escapeChar s.toList []
      simp only [List.reverse_nil, List.nil_append, String.ofList_toList] at hquoted hresolved
      rw [List.append_assoc, List.singleton_append, splitToken]
      simp [mark?, hquoted, hresolved]
    | null | bool | number => cases hrun
    | _ => exact ⟨_, _, rfl, rfl, rfl⟩

theorem tokens?_chars {t : Token} {rest : List Char} (h : t.Legible)
    (hstops : t.isRun = true → Stops rest) (done : List Token) :
    tokens? (t.chars ++ rest) done = tokens? rest (t :: done) := by
  obtain ⟨c, cs, hcons, hspace, hsplit⟩ := splitToken_chars h hstops
  rw [hcons, List.cons_append, tokens?, hspace]
  simp only [Bool.false_eq_true, if_false]
  split
  · next hnone =>
    rw [hsplit] at hnone
    cases hnone
  · next token rest' hsome =>
    rw [hsplit] at hsome
    cases hsome
    rfl

/-- Two tokens may touch unless both are words or numbers. -/
def MayTouch (t u : Token) : Prop := ¬ (t.isRun = true ∧ u.isRun = true)

/-- Marks and strings start with a character that ends every run. -/
private theorem stops_chars {t : Token} (ht : t.isRun = false) (rest : List Char) :
    Stops (t.chars ++ rest) := by
  intro c hc
  cases t with
  | null | bool | number => cases ht
  | _ =>
    cases hc
    rfl

/-- **The tokens that were written are read back.** -/
theorem tokens?_flatMap_chars {tokens : List Token} (hlegible : ∀ t ∈ tokens, t.Legible)
    (htouch : tokens.IsChain MayTouch) (done : List Token) :
    tokens? (tokens.flatMap Token.chars) done = some (done.reverse ++ tokens) := by
  induction tokens generalizing done with
  | nil => simp [tokens?]
  | cons t tokens ih =>
    obtain ⟨ht, htokens⟩ := List.forall_mem_cons.mp hlegible
    have hstops : t.isRun = true → Stops (tokens.flatMap Token.chars) := by
      intro hrun
      cases tokens with
      | nil =>
        intro c hc
        cases hc
      | cons u tokens =>
        -- what touches a word or number is a mark or a string
        have hu : u.isRun = false := by
          by_contra hu
          exact (List.isChain_cons_cons.mp htouch).1 ⟨hrun, Bool.not_eq_false _ ▸ hu⟩
        exact stops_chars hu _
    rw [List.flatMap_cons, tokens?_chars ht hstops, ih htokens htouch.tail]
    simp

end Json

end HashTree
