import TreeDelta.Expression.Token
import TreeDelta.Proofs.Outcome

/-!
# What a quoted text spells

A text between quotes is read in three steps: the closing quote is found, what stands before it is
read as code units, and surrogates are joined to characters. Each step has a grammar of its own,
which says what the step gives without saying how, and each reader agrees with its grammar. A text
between apostrophes is respelled for double quotes first, which changes the grammar in two places
only: an apostrophe may be escaped, and a double quote need not be.

## Main definitions

* `Token.Span`: a text that a quote does not close.
* `JsonString.Spelled`: the code units that the text between two quotes spells.
* `JsonString.Joined`: the characters that code units stand for.
* `JsonString.Denoted`: the string that a text in quotes stands for.

## Main results

* `Token.quotedSpan?_eq_some_iff`: the closing quote is the first one that no backslash takes along.
* `JsonString.scan_eq_ok_iff`, `JsonString.joinUnits_eq_iff`: the readers agree with the grammars.
* `JsonString.decode_eq_ok_iff`: the string that a text in double quotes stands for.
* `JsonString.decode_respell_eq_ok_iff`: the string that a text between apostrophes stands for.
-/

namespace TreeDelta

/-! ### The closing quote -/

namespace Token

variable {quote : Char} {w w' cs rest rest' : List Char}

/-- A text that a quote does not close: the quote and the backslash occur in it after a backslash
only, which takes the character after it along, but no line feed. -/
inductive Span (quote : Char) : List Char → Prop where
  /-- The empty text. -/
  | nil : Span quote []
  /-- A character other than the quote and the backslash. -/
  | plain {c : Char} {w : List Char} (hq : c ≠ quote) (hb : c ≠ '\\') (rest : Span quote w) :
      Span quote (c :: w)
  /-- A backslash and the character it takes along. -/
  | escape {c : Char} {w : List Char} (line : c ≠ '\n') (rest : Span quote w) :
      Span quote ('\\' :: c :: w)

/-- What a quote does not close ends at the next quote. -/
theorem Span.quotedSpan?_eq (h : Span quote w) (hb : quote ≠ '\\') (rest : List Char) :
    quotedSpan? quote (w ++ quote :: rest) = some (w ++ [quote]) := by
  induction h with
  | nil => rw [List.nil_append, quotedSpan?] <;> simp [hb]
  | plain hq hb _ ih =>
      rw [List.cons_append, quotedSpan?, if_neg (by simp [hq]), ih]
      · rfl
      all_goals simp [hb]
  | escape line _ ih =>
      rw [List.cons_append, List.cons_append, quotedSpan?, if_neg (by simp [line]), ih]
      rfl

/-- **The closing quote** is the first one that no backslash takes along. What is behind it does not
matter. -/
theorem quotedSpan?_eq_some_iff (hb : quote ≠ '\\') :
    quotedSpan? quote cs = some w' ↔
      ∃ w rest, cs = w ++ quote :: rest ∧ w' = w ++ [quote] ∧ Span quote w := by
  constructor
  · intro h
    fun_induction quotedSpan? quote cs generalizing w' with
    | case1 | case2 | case3 => exact absurd h (by simp)
    | case4 c cs line ih =>
        obtain ⟨v, hv, rfl⟩ := Option.map_eq_some_iff.mp h
        obtain ⟨w, rest, rfl, rfl, span⟩ := ih hv
        exact ⟨'\\' :: c :: w, rest, rfl, rfl, .escape (by simpa using line) span⟩
    | case5 c cs hlast hescape hq =>
        obtain rfl := eq_of_beq hq
        exact ⟨[], cs, rfl, (Option.some.inj h).symm, .nil⟩
    | case6 c cs hlast hescape hq ih =>
        obtain ⟨v, hv, rfl⟩ := Option.map_eq_some_iff.mp h
        obtain ⟨w, rest, rfl, rfl, span⟩ := ih hv
        have plain : c ≠ '\\' := by
          rintro rfl
          cases w <;> exact hescape _ _ rfl rfl
        exact ⟨c :: w, rest, rfl, rfl, .plain (by simpa using hq) plain span⟩
  · rintro ⟨w, rest, rfl, rfl, span⟩
    exact span.quotedSpan?_eq hb rest

/-- A text has one closing quote: it can be cut in one way only into what the quote closes, the
quote and a rest. -/
theorem Span.unique (hb : quote ≠ '\\') (h : Span quote w) (h' : Span quote w')
    (he : w ++ quote :: rest = w' ++ quote :: rest') : w = w' := by
  have found := h.quotedSpan?_eq hb rest
  rw [he, h'.quotedSpan?_eq hb rest', Option.some.injEq] at found
  exact (List.append_cancel_right found).symm

end Token

namespace JsonString

variable {quote : Char} {w cs : List Char} {us : List Nat}

/-! ### Code units -/

/-- The escapes by a letter, and the code units they stand for. It is the table of what is read;
less of it is used in writing. -/
def letters : List (Char × Nat) :=
  [('"', 0x22), ('\\', 0x5c), ('/', 0x2f), ('b', 0x8), ('f', 0xc), ('n', 0xa), ('r', 0xd),
    ('t', 0x9)]

/-- A hexadecimal digit and its value; the letters come in both cases. -/
def IsHex (c : Char) (n : Nat) : Prop := n < 16 ∧ (c = n.digitChar ∨ c = n.digitChar.toUpper)

/-- Four hexadecimal digits and their value. -/
def IsHexUnit (a b c d : Char) (n : Nat) : Prop :=
  ∃ i j k l, IsHex a i ∧ IsHex b j ∧ IsHex c k ∧ IsHex d l ∧
    n = i * 0x1000 + j * 0x100 + k * 0x10 + l

/-- The code units that the text between two quotes spells. A character beyond the basic plane that
is not escaped counts as one unit. -/
inductive Spelled (quote : Char) : List Char → List Nat → Prop where
  /-- The empty text. -/
  | nil : Spelled quote [] []
  /-- A character other than the quote, the backslash and the control characters. -/
  | plain {c : Char} {w : List Char} {us : List Nat} (hq : c ≠ quote) (hb : c ≠ '\\')
      (control : 0x20 ≤ c.toNat) (rest : Spelled quote w us) :
      Spelled quote (c :: w) (c.toNat :: us)
  /-- An escape by a letter. -/
  | letter {e : Char} {n : Nat} {w : List Char} {us : List Nat} (he : (e, n) ∈ letters)
      (rest : Spelled quote w us) : Spelled quote ('\\' :: e :: w) (n :: us)
  /-- An escaped apostrophe between apostrophes. -/
  | apostrophe {w : List Char} {us : List Nat} (hq : quote = '\x27') (rest : Spelled quote w us) :
      Spelled quote ('\\' :: '\x27' :: w) (0x27 :: us)
  /-- An escape by four hexadecimal digits. -/
  | unit {a b c d : Char} {n : Nat} {w : List Char} {us : List Nat} (hn : IsHexUnit a b c d n)
      (rest : Spelled quote w us) :
      Spelled quote ('\\' :: 'u' :: a :: b :: c :: d :: w) (n :: us)

/-- The letters that may follow a backslash. -/
theorem letterUnit?_eq_some_iff {e : Char} {n : Nat} :
    letterUnit? e = some n ↔ (e, n) ∈ letters := by
  constructor
  · intro h
    unfold letterUnit? at h
    split at h
    · next he =>
        simp only [Bool.or_eq_true, beq_iff_eq] at he
        obtain rfl := Option.some.inj h
        rcases he with (rfl | rfl) | rfl <;> decide
    repeat' split at h
    all_goals
      first
        | next he =>
            obtain rfl := eq_of_beq he
            obtain rfl := Option.some.inj h
            decide
        | contradiction
  · have table : ∀ p ∈ letters, letterUnit? p.1 = some p.2 := by decide
    exact table (e, n)

/-- The hexadecimal digits. -/
theorem hexDigit?_eq_some_iff {c : Char} {n : Nat} : hexDigit? c = some n ↔ IsHex c n := by
  have table : ∀ m ∈ List.range 0x80, (hexDigit? (Char.ofNat m)).all (fun n =>
      n < 16 && (Char.ofNat m == n.digitChar || Char.ofNat m == n.digitChar.toUpper)) = true := by
    decide +kernel
  have digits : ∀ n < 16, hexDigit? n.digitChar = some n ∧
      hexDigit? n.digitChar.toUpper = some n := by
    decide
  constructor
  · intro h
    have low : c.toNat < 0x80 := by
      simp only [hexDigit?, Bool.and_eq_true, decide_eq_true_eq] at h
      repeat' split at h
      all_goals first | omega | exact absurd h (by simp)
    have known := table c.toNat (List.mem_range.mpr low)
    rw [Char.ofNat_toNat, h] at known
    simpa [IsHex] using known
  · rintro ⟨hn, rfl | rfl⟩
    · exact (digits n hn).1
    · exact (digits n hn).2

/-- Four hexadecimal digits. -/
theorem hexUnit?_eq_some_iff {a b c d : Char} {n : Nat} :
    hexUnit? a b c d = some n ↔ IsHexUnit a b c d n := by
  simp only [hexUnit?, IsHexUnit, ← hexDigit?_eq_some_iff, Option.bind_eq_bind,
    Option.bind_eq_some_iff, Option.pure_def, Option.some.injEq]
  constructor
  · rintro ⟨i, hi, j, hj, k, hk, l, hl, rfl⟩
    exact ⟨i, j, k, l, hi, hj, hk, hl, by omega⟩
  · rintro ⟨i, j, k, l, hi, hj, hk, hl, rfl⟩
    exact ⟨i, hi, j, hj, k, hk, l, hl, by omega⟩

/-- A hexadecimal digit is neither a quote nor a backslash, so it never ends a text. -/
theorem IsHex.plain {c : Char} {n : Nat} (h : IsHex c n) : c ≠ '"' ∧ c ≠ '\x27' ∧ c ≠ '\\' := by
  refine ⟨?_, ?_, ?_⟩ <;>
    (rintro rfl; exact absurd (hexDigit?_eq_some_iff.mpr h) (by simp [hexDigit?]))

/-- What a text spells is not closed by its quote. The converse fails, for instance where an escape
means nothing. -/
theorem Spelled.span (h : Spelled quote w us) (hq : quote = '"' ∨ quote = '\x27') :
    Token.Span quote w := by
  induction h with
  | nil => exact .nil
  | plain hq hb _ _ ih => exact .plain hq hb ih
  | letter he _ ih => exact .escape (by rintro rfl; exact absurd he (by simp [letters])) ih
  | apostrophe _ _ ih => exact .escape (by decide) ih
  | unit hn _ ih =>
      obtain ⟨_, _, _, _, ha, hb, hc, hd, -⟩ := hn
      have other : ∀ {c : Char} {n : Nat}, IsHex c n → c ≠ quote := by
        intro c n hx
        rcases hq with rfl | rfl
        · exact hx.plain.1
        · exact hx.plain.2.1
      exact .escape (by decide) (.plain (other ha) ha.plain.2.2 (.plain (other hb) hb.plain.2.2
        (.plain (other hc) hc.plain.2.2 (.plain (other hd) hd.plain.2.2 ih))))

/-! ### Reading code units -/

/-- A backslash with a letter after it is read as what the letter stands for. -/
theorem scan_letter (start pos : Nat) {e : Char} {n : Nat} (he : (e, n) ∈ letters)
    (tail : List Char) :
    scan start pos ('\\' :: e :: tail) = (scan start (pos + 2) tail).map (consUnit n) := by
  have unit := letterUnit?_eq_some_iff.mpr he
  have hu : e ≠ 'u' := by rintro rfl; exact absurd he (by simp [letters])
  simp only [scan, beq_iff_eq, hu, unit, if_false, false_implies, implies_true]

/-- A character that is neither a quote nor a backslash is read as itself, unless it is a control
character. -/
theorem scan_plain (start pos : Nat) {c : Char} (hq : c ≠ '"') (hb : c ≠ '\\')
    (tail : List Char) :
    scan start pos (c :: tail) =
      if c.toNat < 0x20 then .error ⟨.control, pos⟩
      else (scan start (pos + 1) tail).map (consUnit c.toNat) := by
  rw [scan] <;> simp [hq, hb]

/-- What a text spells is read, up to the closing quote, wherever the text stands. -/
theorem Spelled.scan_eq (h : Spelled '"' w us) (start pos : Nat) (rest : List Char) :
    scan start pos (w ++ '"' :: rest) = .ok (us, rest) := by
  induction h generalizing pos with
  | nil => rw [List.nil_append, scan]
  | plain hq hb control _ ih =>
      rw [List.cons_append, scan_plain start pos hq hb, if_neg (Nat.not_lt.mpr control), ih]
      rfl
  | letter he _ ih =>
      rw [List.cons_append, List.cons_append, scan_letter start pos he, ih]
      rfl
  | apostrophe hq => exact absurd hq (by decide)
  | unit hn _ ih =>
      simp only [List.cons_append, scan, hexUnit?_eq_some_iff.mpr hn, ih]
      rfl

/-- **Code units are read** as they are spelled, up to the closing quote. What is read is what the
grammar says, and nothing else is read. -/
theorem scan_eq_ok_iff {start pos : Nat} {rest : List Char} :
    scan start pos cs = .ok (us, rest) ↔ ∃ w, cs = w ++ '"' :: rest ∧ Spelled '"' w us := by
  constructor
  · intro h
    fun_induction scan start pos cs generalizing us with
    | case2 =>
        obtain ⟨rfl, rfl⟩ := Prod.mk.inj (Except.ok.inj h)
        exact ⟨[], rfl, .nil⟩
    | case4 pos a b c d cs n hn ih =>
        obtain ⟨⟨vs, _⟩, hvs, he⟩ := map_eq_ok_iff.mp h
        obtain ⟨rfl, rfl⟩ := Prod.mk.inj he
        obtain ⟨w, rfl, spelled⟩ := ih hvs
        exact ⟨_, rfl, .unit (hexUnit?_eq_some_iff.mp hn) spelled⟩
    | case7 pos e cs _ _ n hn ih =>
        obtain ⟨⟨vs, _⟩, hvs, he⟩ := map_eq_ok_iff.mp h
        obtain ⟨rfl, rfl⟩ := Prod.mk.inj he
        obtain ⟨w, rfl, spelled⟩ := ih hvs
        exact ⟨_, rfl, .letter (letterUnit?_eq_some_iff.mp hn) spelled⟩
    | case10 pos c cs hq hlast _ hescape control ih =>
        obtain ⟨⟨vs, _⟩, hvs, he⟩ := map_eq_ok_iff.mp h
        obtain ⟨rfl, rfl⟩ := Prod.mk.inj he
        obtain ⟨w, rfl, spelled⟩ := ih hvs
        have hb : c ≠ '\\' := by
          rintro rfl
          cases w <;> exact hescape _ _ rfl rfl
        exact ⟨_, rfl, .plain hq hb (Nat.le_of_not_lt control) spelled⟩
    | _ => exact absurd h (by simp)
  · rintro ⟨w, rfl, h⟩
    exact h.scan_eq start pos rest

/-! ### Characters -/

/-- A high surrogate with a low one after it. Two such units stand for one character. -/
def IsPair (m n : Nat) : Prop := (0xd800 ≤ m ∧ m < 0xdc00) ∧ 0xdc00 ≤ n ∧ n < 0xe000

/-- The characters that code units stand for. A code point stands for its character, and so do the
two surrogates of a character beyond the basic plane; a surrogate without its partner stands for
none and is replaced. -/
inductive Joined : List Nat → List Char → Prop where
  /-- No code units. -/
  | nil : Joined [] []
  /-- The code point of a character. -/
  | char {us : List Nat} {s : List Char} (c : Char) (rest : Joined us s) :
      Joined (c.toNat :: us) (c :: s)
  /-- The two surrogates of a character. -/
  | pair {us : List Nat} {s : List Char} {c : Char} (beyond : 0x10000 ≤ c.toNat)
      (rest : Joined us s) :
      Joined ((surrogates c.toNat).1 :: (surrogates c.toNat).2 :: us) (c :: s)
  /-- A code unit that is no code point. -/
  | lone {n : Nat} {us : List Nat} {s : List Char} (invalid : ¬ n.isValidChar)
      (alone : ∀ m ∈ us.head?, ¬ IsPair n m) (rest : Joined us s) :
      Joined (n :: us) ('\ufffd' :: s)

/-- The code points of characters are not all numbers: the surrogates are left out, and what is too
large. -/
theorem isValidChar_toNat (c : Char) :
    c.toNat < 0xd800 ∨ 0xdfff < c.toNat ∧ c.toNat < 0x110000 :=
  c.valid

/-- The code point of a character stands for the character. -/
theorem unitChar_toNat (c : Char) : unitChar c.toNat = c := by
  rw [unitChar, if_pos (isValidChar_toNat c), Char.ofNat_toNat]

/-- A code point is that of the character it stands for. -/
theorem toNat_unitChar {n : Nat} (valid : n.isValidChar) : (unitChar n).toNat = n := by
  rw [unitChar, if_pos valid, Char.ofNat, dif_pos valid]
  rfl

/-- The surrogates of a character beyond the basic plane are a pair. -/
theorem isPair_surrogates {c : Char} (beyond : 0x10000 ≤ c.toNat) :
    IsPair (surrogates c.toNat).1 (surrogates c.toNat).2 := by
  have bound := isValidChar_toNat c
  simp only [IsPair, surrogates]
  omega

/-- The surrogates of a character are joined to the character. -/
theorem joinUnits_surrogates {c : Char} (beyond : 0x10000 ≤ c.toNat) :
    joinUnits ((surrogates c.toNat).1 :: (surrogates c.toNat).2 :: us) = c :: joinUnits us := by
  have pair := isPair_surrogates beyond
  have point : 0x10000 + ((surrogates c.toNat).1 - 0xd800) * 0x400 +
      ((surrogates c.toNat).2 - 0xdc00) = c.toNat := by
    simp only [surrogates]
    omega
  rw [joinUnits, if_pos (by simpa [IsPair, and_assoc] using pair), point, Char.ofNat_toNat]

/-- Every pair is the surrogates of a character, which lies beyond the basic plane. -/
theorem exists_surrogates {m n : Nat} (h : IsPair m n) :
    ∃ c : Char, 0x10000 ≤ c.toNat ∧ (surrogates c.toNat).1 = m ∧ (surrogates c.toNat).2 = n := by
  obtain ⟨high, low⟩ := h
  have valid : (0x10000 + (m - 0xd800) * 0x400 + (n - 0xdc00)).isValidChar := by
    simp only [Nat.isValidChar]
    omega
  refine ⟨unitChar (0x10000 + (m - 0xd800) * 0x400 + (n - 0xdc00)), ?_⟩
  rw [toNat_unitChar valid, surrogates]
  omega

/-- A code unit that is not part of a pair stands for itself, or for the replacement of a
surrogate. -/
theorem joinUnits_cons {n : Nat} (alone : ∀ m ∈ us.head?, ¬ IsPair n m) :
    joinUnits (n :: us) = unitChar n :: joinUnits us := by
  cases us with
  | nil => rfl
  | cons m us =>
      have apart := alone m rfl
      rw [joinUnits, if_neg]
      simpa [IsPair, and_assoc] using apart

/-- A code unit that is not part of a pair is joined alone. -/
theorem Joined.cons {n : Nat} {s : List Char} (rest : Joined us s)
    (alone : ∀ m ∈ us.head?, ¬ IsPair n m) : Joined (n :: us) (unitChar n :: s) := by
  by_cases valid : n.isValidChar
  · have joined := Joined.char (unitChar n) rest
    rwa [toNat_unitChar valid] at joined
  · rw [unitChar, if_neg valid]
    exact .lone valid alone rest

/-- **Code units are joined** to the characters they stand for, and to these only. -/
theorem joinUnits_eq_iff {s : List Char} : joinUnits us = s ↔ Joined us s := by
  constructor
  · rintro rfl
    fun_induction joinUnits us with
    | case1 => exact .nil
    | case2 n => exact Joined.nil.cons (by simp)
    | case3 m n us pair ih =>
        obtain ⟨c, beyond, hm, hn⟩ := exists_surrogates (m := m) (n := n)
          (by simpa [IsPair, and_assoc] using pair)
        have joined := Joined.pair beyond ih
        rwa [← joinUnits_surrogates beyond, hm, hn, joinUnits, if_pos pair] at joined
    | case4 m n us apart ih =>
        refine ih.cons fun k hk hp => apart ?_
        obtain rfl := Option.some.inj hk
        simpa [IsPair, and_assoc] using hp
  · intro h
    induction h with
    | nil => rfl
    | @char us s c rest ih =>
        have point : ∀ m ∈ us.head?, ¬ IsPair c.toNat m := by
          rintro m - ⟨high, -⟩
          have valid := isValidChar_toNat c
          omega
        rw [joinUnits_cons point, unitChar_toNat, ih]
    | pair beyond rest ih => rw [joinUnits_surrogates beyond, ih]
    | lone invalid alone rest ih => rw [joinUnits_cons alone, unitChar, if_neg invalid, ih]

/-! ### Strings -/

/-- The string that the text between two quotes stands for: the text spells code units, and these
are joined to characters. -/
def Denoted (quote : Char) (w : List Char) (s : String) : Prop :=
  ∃ us, Spelled quote w us ∧ Joined us s.toList

variable {s : String}

/-- **A JSON string is read** as what stands before its closing quote, and it is read when that
stands for anything. -/
theorem decode_eq_ok_iff :
    decode cs = .ok s ↔ ∃ w rest, cs = w ++ '"' :: rest ∧ Denoted '"' w s := by
  rw [decode, map_eq_ok_iff]
  constructor
  · rintro ⟨⟨us, rest⟩, hscan, hs⟩
    obtain ⟨w, rfl, spelled⟩ := scan_eq_ok_iff.mp hscan
    refine ⟨w, rest, rfl, us, spelled, joinUnits_eq_iff.mp ?_⟩
    rw [← hs, String.toList_ofList]
  · rintro ⟨w, rest, rfl, us, spelled, joined⟩
    refine ⟨(us, rest), scan_eq_ok_iff.mpr ⟨w, rfl, spelled⟩, ?_⟩
    rw [joinUnits_eq_iff.mpr joined, String.ofList_toList]

/-- A text with one closing quote is read whole. -/
theorem decode_span_eq_ok_iff (span : Token.Span '"' w) :
    decode (w ++ ['"']) = .ok s ↔ Denoted '"' w s := by
  rw [decode_eq_ok_iff]
  constructor
  · rintro ⟨v, rest, he, us, spelled, joined⟩
    obtain rfl := span.unique (by decide) (spelled.span (.inl rfl)) he
    exact ⟨us, spelled, joined⟩
  · exact fun h => ⟨w, [], rfl, h⟩

end JsonString

/-! ### Respelling -/

namespace Token

variable {c : Char} {v w : List Char}

/-- A character that is neither a backslash nor a double quote stays. -/
theorem respell_plain (hb : c ≠ '\\') (hq : c ≠ '"') (w : List Char) :
    respell (c :: w) = c :: respell w := by
  rw [respell, if_neg (by simp [hq])] <;> simp [hb]

/-- An escape of anything but an apostrophe stays. -/
theorem respell_escape (hc : c ≠ '\x27') (w : List Char) :
    respell ('\\' :: c :: w) = '\\' :: c :: respell w := by
  rw [respell]
  simp [hc]

/-- Only nothing is respelled as nothing: every character leaves one behind at least. -/
theorem respell_eq_nil (h : respell w = []) : w = [] := by
  revert h
  fun_cases respell w with
  | case1 => exact fun _ => rfl
  | _ => exact fun h => absurd h (by simp)

/-- A respelled text is not closed by a double quote. -/
theorem Span.respell (h : Span '\x27' w) : Span '"' (respell w) := by
  induction h with
  | nil => exact .nil
  | @plain c w _ hb _ ih =>
      by_cases hq : c = '"'
      · subst hq
        exact .escape (by decide) ih
      · rw [respell_plain hb hq]
        exact .plain hq hb ih
  | @escape c w line _ ih =>
      by_cases hc : c = '\x27'
      · subst hc
        exact .plain (by decide) (by decide) ih
      · rw [respell_escape hc]
        exact .escape line ih

/-- Where a character of a respelled text comes from: from itself, or from an escaped apostrophe.
What is behind it comes from what is behind that. -/
theorem Span.of_respell_cons (h : Span '\x27' w) (he : Token.respell w = c :: v) (hb : c ≠ '\\') :
    ∃ w', Span '\x27' w' ∧ Token.respell w' = v ∧
      (w = c :: w' ∧ c ≠ '\x27' ∨ w = '\\' :: '\x27' :: w' ∧ c = '\x27') := by
  cases h with
  | nil => exact absurd he (by simp [Token.respell])
  | @plain d w hd hdb rest =>
      by_cases hq : d = '"'
      · subst hq
        exact absurd (List.cons.inj he).1.symm hb
      · rw [respell_plain hdb hq] at he
        obtain ⟨rfl, rfl⟩ := List.cons.inj he
        exact ⟨w, rest, rfl, .inl ⟨rfl, hd⟩⟩
  | @escape d w line rest =>
      by_cases hd : d = '\x27'
      · subst hd
        obtain ⟨rfl, rfl⟩ := List.cons.inj he
        exact ⟨w, rest, rfl, .inr ⟨rfl, rfl⟩⟩
      · rw [respell_escape hd] at he
        exact absurd (List.cons.inj he).1.symm hb

/-- Where an escape of a respelled text comes from: from the same escape, or from a double quote
that had to be escaped. -/
theorem Span.of_respell_escape (h : Span '\x27' w) (he : Token.respell w = '\\' :: c :: v) :
    ∃ w', Span '\x27' w' ∧ Token.respell w' = v ∧
      (w = '\\' :: c :: w' ∨ w = '"' :: w' ∧ c = '"') := by
  cases h with
  | nil => exact absurd he (by simp [Token.respell])
  | @plain d w hd hdb rest =>
      by_cases hq : d = '"'
      · subst hq
        obtain ⟨-, he⟩ := List.cons.inj he
        obtain ⟨rfl, rfl⟩ := List.cons.inj he
        exact ⟨w, rest, rfl, .inr ⟨rfl, rfl⟩⟩
      · rw [respell_plain hdb hq] at he
        exact absurd (List.cons.inj he).1 hdb
  | @escape d w line rest =>
      by_cases hd : d = '\x27'
      · subst hd
        exact absurd (List.cons.inj he).1 (by decide)
      · rw [respell_escape hd] at he
        obtain ⟨-, he⟩ := List.cons.inj he
        obtain ⟨rfl, rfl⟩ := List.cons.inj he
        exact ⟨w, rest, rfl, .inl rfl⟩

end Token

namespace JsonString

/-- What a text between apostrophes spells, its respelled form spells between double quotes.
Respelling changes which quote is escaped, and nothing else. -/
theorem Spelled.respell (h : Spelled '\x27' w us) : Spelled '"' (Token.respell w) us := by
  induction h with
  | nil => exact .nil
  | @plain c w us _ hb control _ ih =>
      by_cases hq : c = '"'
      · subst hq
        exact .letter (by simp [letters]) ih
      · rw [Token.respell_plain hb hq]
        exact .plain hq hb control ih
  | @letter e n w us he _ ih =>
      rw [Token.respell_escape (by rintro rfl; exact absurd he (by simp [letters]))]
      exact .letter he ih
  | apostrophe _ _ ih => exact .plain (c := '\x27') (by decide) (by decide) (by decide) ih
  | unit hn _ ih =>
      have digits := hn
      obtain ⟨_, _, _, _, ha, hb, hc, hd, -⟩ := digits
      rw [Token.respell_escape (by decide), Token.respell_plain ha.plain.2.2 ha.plain.1,
        Token.respell_plain hb.plain.2.2 hb.plain.1, Token.respell_plain hc.plain.2.2 hc.plain.1,
        Token.respell_plain hd.plain.2.2 hd.plain.1]
      exact .unit hn ih

/-- A hexadecimal digit of a respelled text stands in the text. -/
theorem IsHex.of_respell {c : Char} {n : Nat} {v : List Char} (hx : IsHex c n)
    (h : Token.Span '\x27' w) (he : Token.respell w = c :: v) :
    ∃ w', w = c :: w' ∧ Token.Span '\x27' w' ∧ Token.respell w' = v := by
  obtain ⟨w', span, rfl, ⟨rfl, -⟩ | ⟨-, hc⟩⟩ := h.of_respell_cons he hx.plain.2.2
  · exact ⟨w', rfl, span, rfl⟩
  · exact absurd hc hx.plain.2.1

/-- What a respelled text spells between double quotes, the text spells between apostrophes. The
induction is on what is spelled, and the text is followed back along it. -/
theorem Spelled.of_respell {v : List Char} (h : Spelled '"' v us) (span : Token.Span '\x27' w)
    (he : Token.respell w = v) : Spelled '\x27' w us := by
  -- over the respelled text, since an escape of four digits reaches far into it
  induction h generalizing w with
  | nil =>
      obtain rfl := Token.respell_eq_nil he
      exact .nil
  | plain _ hb control _ ih =>
      obtain ⟨w', span', he', ⟨rfl, hc⟩ | ⟨rfl, rfl⟩⟩ := span.of_respell_cons he hb
      · exact .plain hc hb control (ih span' he')
      · exact .apostrophe rfl (ih span' he')
  | @letter e n v us hl _ ih =>
      obtain ⟨w', span', he', rfl | ⟨rfl, rfl⟩⟩ := span.of_respell_escape he
      · exact .letter hl (ih span' he')
      · obtain rfl : n = 0x22 := by simpa [letters] using hl
        exact .plain (c := '"') (by decide) (by decide) (by decide) (ih span' he')
  | apostrophe hq => exact absurd hq (by decide)
  | unit hn _ ih =>
      obtain ⟨w₀, span₀, he₀, rfl | ⟨-, hu⟩⟩ := span.of_respell_escape he
      · have digits := hn
        obtain ⟨_, _, _, _, ha, hb, hc, hd, -⟩ := digits
        obtain ⟨w₁, rfl, span₁, he₁⟩ := ha.of_respell span₀ he₀
        obtain ⟨w₂, rfl, span₂, he₂⟩ := hb.of_respell span₁ he₁
        obtain ⟨w₃, rfl, span₃, he₃⟩ := hc.of_respell span₂ he₂
        obtain ⟨w₄, rfl, span₄, he₄⟩ := hd.of_respell span₃ he₃
        exact .unit hn (ih span₄ he₄)
      · exact absurd hu (by decide)

/-- **A text between apostrophes is read** by way of its respelled form, as what it stands for
itself. -/
theorem decode_respell_eq_ok_iff (span : Token.Span '\x27' w) :
    decode (Token.respell w ++ ['"']) = .ok s ↔ Denoted '\x27' w s := by
  rw [decode_span_eq_ok_iff span.respell]
  constructor
  · rintro ⟨us, spelled, joined⟩
    exact ⟨us, spelled.of_respell span rfl, joined⟩
  · rintro ⟨us, spelled, joined⟩
    exact ⟨us, spelled.respell, joined⟩

end JsonString

end TreeDelta
