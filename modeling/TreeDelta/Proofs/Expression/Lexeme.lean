import TreeDelta.Proofs.Outcome
import TreeDelta.Proofs.Text.Spelling

/-!
# Tokens of a text

A text is cut into lexemes from left to right: texts in quotes, runs of digits, identifiers,
punctuation and runs of white space. No lexeme could be longer where it stands, which for most
classes is a condition on the character after it. The scanner agrees with this description.

## Main definitions

* `TokenKind.quote?`: the quote that tokens of a class stand between.
* `Token.IsLexeme`: the texts of the tokens of a class, and white space.
* `Token.Stops`: what may follow a lexeme of a class.
* `Token.Lexed`: the tokens of a text, which starts at a position.

## Main results

* `Token.lexeme?_eq_some_iff`: the lexeme at the start of a text.
* `Token.scanFrom_eq_ok_iff`: the scanner gives the tokens of the text.
-/

namespace TreeDelta

/-- The quote that tokens of a class stand between. -/
def TokenKind.quote? : TokenKind → Option Char
  | singleQuoted => some '\x27'
  | doubleQuoted => some '"'
  | _ => none

/-- Tokens in quotes stand between apostrophes or double quotes. -/
theorem TokenKind.quote?_eq_some {k : TokenKind} {quote : Char} (h : k.quote? = some quote) :
    k = .doubleQuoted ∧ quote = '"' ∨ k = .singleQuoted ∧ quote = '\x27' := by
  cases k with
  | doubleQuoted => exact .inl ⟨rfl, (Option.some.inj h).symm⟩
  | singleQuoted => exact .inr ⟨rfl, (Option.some.inj h).symm⟩
  | _ => exact absurd h (by simp [quote?])

namespace Token

variable {p : Char → Bool} {c : Char} {k : TokenKind} {w rest cs : List Char} {n : Nat}
  {ts : List Token}

/-! ### Grammar -/

/-- The tokens of a single character. -/
def punctuation : List (Char × TokenKind) :=
  [('$', .root), ('[', .openBracket), (']', .closeBracket), ('.', .dot), (',', .comma),
    ('*', .star)]

/-- The texts of the tokens of a class; white space has no class. A text may be a lexeme without
being all that the scanner would take: see `Stops`. -/
inductive IsLexeme : Option TokenKind → List Char → Prop where
  /-- A text in quotes. -/
  | quoted {k : TokenKind} {quote : Char} {w : List Char} (kind : k.quote? = some quote)
      (span : Span quote w) : IsLexeme (some k) (quote :: (w ++ [quote]))
  /-- A run of digits. -/
  | integer {c : Char} {w : List Char} (digits : ∀ d ∈ c :: w, Text.isDigit d = true) :
      IsLexeme (some .integer) (c :: w)
  /-- An identifier. -/
  | name {c : Char} {w : List Char} (start : isIdentifierStart c = true)
      (rest : ∀ d ∈ w, isIdentifierRest d = true) : IsLexeme (some .name) (c :: w)
  /-- A single character. -/
  | punctuation {c : Char} {k : TokenKind} (kind : (c, k) ∈ punctuation) : IsLexeme (some k) [c]
  /-- A run of white space. -/
  | blank {c : Char} {w : List Char} (blanks : ∀ d ∈ c :: w, Text.isBlank d = true) :
      IsLexeme none (c :: w)

/-- A text that does not start with a character of some class. The empty text is one. -/
def Ends (p : Char → Bool) (rest : List Char) : Prop := ∀ c ∈ rest.head?, p c = false

/-- What may follow a lexeme of a class: nothing that makes a run longer. After quotes and
punctuation anything may follow. -/
def Stops : Option TokenKind → List Char → Prop
  | some .integer => Ends Text.isDigit
  | some .name => Ends isIdentifierRest
  | some _ => fun _ => True
  | none => Ends Text.isBlank

/-- The tokens of a text that starts at a position: the text is cut into lexemes, each as long as it
can be. -/
inductive Lexed : Nat → List Char → List Token → Prop where
  /-- The empty text. -/
  | nil {n : Nat} : Lexed n [] []
  /-- A token, and what follows it. -/
  | token {n : Nat} {k : TokenKind} {w rest : List Char} {ts : List Token}
      (lexeme : IsLexeme (some k) w) (stops : Stops (some k) rest)
      (after : Lexed (n + w.length) rest ts) : Lexed n (w ++ rest) (⟨k, w, n⟩ :: ts)
  /-- White space, which is dropped, and what follows it. -/
  | blank {n : Nat} {w rest : List Char} {ts : List Token} (lexeme : IsLexeme none w)
      (stops : Stops none rest) (after : Lexed (n + w.length) rest ts) : Lexed n (w ++ rest) ts

/-! ### Runs of a class -/

/-- A text that starts with a character of another class. -/
theorem ends_cons (h : p c = false) (rest : List Char) : Ends p (c :: rest) := by
  rintro d ⟨⟩
  exact h

/-- A run of characters of a class ends where the text after it starts with another one. -/
theorem takeWhile_append_of_ends (hw : ∀ c ∈ w, p c = true) (hrest : Ends p rest) :
    (w ++ rest).takeWhile p = w := by
  have stop : rest.takeWhile p = [] := by
    cases rest with
    | nil => rfl
    | cons c cs => rw [List.takeWhile_cons, hrest c rfl]; rfl
  rw [List.takeWhile_append_of_pos hw, stop, List.append_nil]

/-- Every text starts with a run of characters of a class, which may be empty, and behind the run
another class begins. -/
theorem exists_run (p : Char → Bool) (cs : List Char) :
    ∃ rest, cs = cs.takeWhile p ++ rest ∧ (∀ c ∈ cs.takeWhile p, p c = true) ∧ Ends p rest := by
  refine ⟨cs.dropWhile p, List.takeWhile_append_dropWhile.symm,
    List.all_eq_true.mp List.all_takeWhile, fun c hc => ?_⟩
  have stop := List.head?_dropWhile_not p cs
  rwa [hc] at stop

/-! ### One lexeme -/

/-- The classes of punctuation. -/
theorem punctuation?_eq_some_iff : punctuation? c = some k ↔ (c, k) ∈ punctuation := by
  constructor
  · intro h
    unfold punctuation? at h
    repeat' split at h
    all_goals
      first
        | next hc =>
            obtain rfl := eq_of_beq hc
            obtain rfl := Option.some.inj h
            decide
        | contradiction
  · have table : ∀ e ∈ punctuation, punctuation? e.1 = some e.2 := by decide
    exact table (c, k)

/-- The digits lie between `0` and `9`. -/
theorem bounds_of_isDigit (h : Text.isDigit c = true) : 0x30 ≤ c.toNat ∧ c.toNat ≤ 0x39 := by
  simp only [Text.isDigit, Bool.and_eq_true, decide_eq_true_eq] at h
  exact h

/-- Letters and the underscore lie between `A` and `z`. -/
theorem bounds_of_isIdentifierStart (h : isIdentifierStart c = true) :
    0x41 ≤ c.toNat ∧ c.toNat ≤ 0x7a := by
  simp only [isIdentifierStart, Bool.or_eq_true, Bool.and_eq_true, decide_eq_true_eq,
    beq_iff_eq] at h
  rcases h with (⟨low, high⟩ | ⟨low, high⟩) | rfl
  · have low : 0x61 ≤ c.toNat := low
    exact ⟨by omega, high⟩
  · have high : c.toNat ≤ 0x5a := high
    exact ⟨low, by omega⟩
  · decide

/-- No visible character of ASCII is white space. So white space starts no token, whichever class is
asked about. -/
theorem bounds_of_isBlank (h : Text.isBlank c = true) : c.toNat ≤ 0x20 ∨ 0x7f < c.toNat := by
  simp only [Text.isBlank, Text.inRanges, Text.blankRanges, List.any_cons, List.any_nil,
    Bool.or_eq_true, Bool.and_eq_true, decide_eq_true_eq, Bool.or_false] at h
  omega

/-- A digit starts a run of digits. -/
theorem lexeme?_digit (hc : Text.isDigit c = true) (cs : List Char) :
    lexeme? (c :: cs) = some (some .integer, c :: cs.takeWhile Text.isDigit) := by
  have single : c ≠ '\x27' := by rintro rfl; exact absurd hc (by decide)
  have double : c ≠ '"' := by rintro rfl; exact absurd hc (by decide)
  rw [lexeme?, if_neg (by simp [single]), if_neg (by simp [double]), if_pos hc]

/-- A letter or underscore starts an identifier. -/
theorem lexeme?_identifier (hc : isIdentifierStart c = true) (cs : List Char) :
    lexeme? (c :: cs) = some (some .name, c :: cs.takeWhile isIdentifierRest) := by
  have single : c ≠ '\x27' := by rintro rfl; exact absurd hc (by decide)
  have double : c ≠ '"' := by rintro rfl; exact absurd hc (by decide)
  have digit : ¬ Text.isDigit c = true := fun h => by
    have := bounds_of_isDigit h
    have := bounds_of_isIdentifierStart hc
    omega
  rw [lexeme?, if_neg (by simp [single]), if_neg (by simp [double]), if_neg digit, if_pos hc]

/-- White space starts a run of white space. -/
theorem lexeme?_blank (hc : Text.isBlank c = true) (cs : List Char) :
    lexeme? (c :: cs) = some (none, c :: cs.takeWhile Text.isBlank) := by
  have bounds := bounds_of_isBlank hc
  have single : c ≠ '\x27' := by rintro rfl; exact absurd hc (by decide)
  have double : c ≠ '"' := by rintro rfl; exact absurd hc (by decide)
  have digit : ¬ Text.isDigit c = true := fun h => by
    have := bounds_of_isDigit h
    omega
  have letter : ¬ isIdentifierStart c = true := fun h => by
    have := bounds_of_isIdentifierStart h
    omega
  have visible : ∀ e ∈ punctuation, Text.isBlank e.1 = false := by decide
  have other : punctuation? c = none := by
    refine Option.eq_none_iff_forall_not_mem.mpr fun k hk => ?_
    exact absurd (hc.symm.trans (visible _ (punctuation?_eq_some_iff.mp hk))) (by simp)
  rw [lexeme?, if_neg (by simp [single]), if_neg (by simp [double]), if_neg digit,
    if_neg letter, other]
  simp only [hc, if_true]

/-- A text in quotes starts with its quote and goes on up to the closing one. Without a closing one
there is no lexeme. -/
theorem lexeme?_quote {quote : Char} (kind : k.quote? = some quote) (cs : List Char) :
    lexeme? (quote :: cs) = (quotedSpan? quote cs).map fun w => (some k, quote :: w) := by
  rcases TokenKind.quote?_eq_some kind with ⟨rfl, rfl⟩ | ⟨rfl, rfl⟩ <;> rfl

/-- A text in quotes is as long as it can be: the first closing quote ends it, and anything may
follow. -/
theorem exists_quoted {quote : Char} (kind : k.quote? = some quote)
    (h : quotedSpan? quote cs = some w) :
    ∃ rest, quote :: cs = quote :: w ++ rest ∧ IsLexeme (some k) (quote :: w) ∧
      Stops (some k) rest := by
  rcases TokenKind.quote?_eq_some kind with ⟨rfl, rfl⟩ | ⟨rfl, rfl⟩
  all_goals
    obtain ⟨u, rest, rfl, rfl, span⟩ := (quotedSpan?_eq_some_iff (by decide)).mp h
    exact ⟨rest, by simp, .quoted kind span, trivial⟩

/-- A token of a single character is that character. -/
theorem lexeme?_punctuation (kind : (c, k) ∈ punctuation) (cs : List Char) :
    lexeme? (c :: cs) = some (some k, [c]) := by
  simp only [punctuation, List.mem_cons, List.not_mem_nil, or_false, Prod.mk.injEq] at kind
  rcases kind with ⟨rfl, rfl⟩ | ⟨rfl, rfl⟩ | ⟨rfl, rfl⟩ | ⟨rfl, rfl⟩ | ⟨rfl, rfl⟩ | ⟨rfl, rfl⟩ <;>
    rfl

/-- Any text may follow a token of a single character. -/
theorem stops_punctuation (kind : (c, k) ∈ punctuation) (rest : List Char) :
    Stops (some k) rest := by
  have single : ∀ e ∈ punctuation, e.2 ≠ .integer ∧ e.2 ≠ .name := by decide
  obtain ⟨integer, name⟩ := single (c, k) kind
  cases k with
  | integer => exact absurd rfl integer
  | name => exact absurd rfl name
  | _ => trivial

/-- **The lexeme at the start of a text** is as long as it can be. Classes start with different
characters, so no two of them compete. -/
theorem lexeme?_eq_some_iff {k : Option TokenKind} :
    lexeme? cs = some (k, w) ↔ ∃ rest, cs = w ++ rest ∧ IsLexeme k w ∧ Stops k rest := by
  constructor
  · intro h
    unfold lexeme? at h
    split at h
    · exact absurd h (by simp)
    · next c cs =>
        split at h
        · next hc =>
            obtain rfl := eq_of_beq hc
            obtain ⟨v, hv, he⟩ := Option.map_eq_some_iff.mp h
            obtain ⟨rfl, rfl⟩ := Prod.mk.inj he
            exact exists_quoted rfl hv
        split at h
        · next hc =>
            obtain rfl := eq_of_beq hc
            obtain ⟨v, hv, he⟩ := Option.map_eq_some_iff.mp h
            obtain ⟨rfl, rfl⟩ := Prod.mk.inj he
            exact exists_quoted rfl hv
        split at h
        · next hc =>
            obtain ⟨rfl, rfl⟩ := Prod.mk.inj (Option.some.inj h)
            obtain ⟨rest, hcs, run, stops⟩ := exists_run Text.isDigit cs
            exact ⟨rest, congrArg (c :: ·) hcs, .integer (List.forall_mem_cons.mpr ⟨hc, run⟩),
              stops⟩
        split at h
        · next hc =>
            obtain ⟨rfl, rfl⟩ := Prod.mk.inj (Option.some.inj h)
            obtain ⟨rest, hcs, run, stops⟩ := exists_run isIdentifierRest cs
            exact ⟨rest, congrArg (c :: ·) hcs, .name hc run, stops⟩
        split at h
        · next k' hk =>
            obtain ⟨rfl, rfl⟩ := Prod.mk.inj (Option.some.inj h)
            have kind := punctuation?_eq_some_iff.mp hk
            exact ⟨cs, rfl, .punctuation kind, stops_punctuation kind cs⟩
        split at h
        · next hc =>
            obtain ⟨rfl, rfl⟩ := Prod.mk.inj (Option.some.inj h)
            obtain ⟨rest, hcs, run, stops⟩ := exists_run Text.isBlank cs
            exact ⟨rest, congrArg (c :: ·) hcs, .blank (List.forall_mem_cons.mpr ⟨hc, run⟩),
              stops⟩
        · exact absurd h (by simp)
  · rintro ⟨rest, rfl, lexeme, stops⟩
    cases lexeme with
    | @quoted k quote w kind span =>
        have hb : quote ≠ '\\' := by
          rcases TokenKind.quote?_eq_some kind with ⟨-, rfl⟩ | ⟨-, rfl⟩ <;> decide
        rw [List.cons_append, List.append_assoc, List.singleton_append, lexeme?_quote kind,
          span.quotedSpan?_eq hb]
        rfl
    | integer digits =>
        obtain ⟨hc, run⟩ := List.forall_mem_cons.mp digits
        rw [List.cons_append, lexeme?_digit hc, takeWhile_append_of_ends run stops]
    | name start others =>
        rw [List.cons_append, lexeme?_identifier start, takeWhile_append_of_ends others stops]
    | punctuation kind =>
        exact lexeme?_punctuation kind rest
    | blank blanks =>
        obtain ⟨hc, run⟩ := List.forall_mem_cons.mp blanks
        rw [List.cons_append, lexeme?_blank hc, takeWhile_append_of_ends run stops]

/-! ### All tokens -/

/-- The scanner takes the lexeme at the start of a text off and goes on behind it, at the position
where it ends. -/
theorem scanFrom_append {k : Option TokenKind} (n : Nat) (lexeme : IsLexeme k w)
    (stops : Stops k rest) :
    scanFrom n (w ++ rest) = (scanFrom (n + w.length) rest).map (consLexeme k w n) := by
  have found := lexeme?_eq_some_iff.mpr ⟨rest, rfl, lexeme, stops⟩
  obtain ⟨c, cs, rfl⟩ := List.exists_cons_of_ne_nil (lexeme?_ne_nil found)
  rw [List.cons_append] at found ⊢
  rw [scanFrom]
  split
  · next he => exact absurd (found.symm.trans he) (by simp)
  · next k' w' he =>
      obtain ⟨rfl, rfl⟩ := Prod.mk.inj (Option.some.inj (found.symm.trans he))
      rw [← List.cons_append, List.drop_left]

/-- **The scanner gives the tokens of a text.** A text that cannot be cut into lexemes has none. -/
theorem scanFrom_eq_ok_iff : scanFrom n cs = .ok ts ↔ Lexed n cs ts := by
  constructor
  · intro h
    fun_induction scanFrom n cs generalizing ts with
    | case1 =>
        obtain rfl := Except.ok.inj h
        exact .nil
    | case2 => exact absurd h (by simp)
    | case3 n c cs kind text hl ih =>
        obtain ⟨us, hus, rfl⟩ := map_eq_ok_iff.mp h
        obtain ⟨rest, hcs, lexeme, stops⟩ := lexeme?_eq_some_iff.mp hl
        rw [hcs, List.drop_left] at ih hus
        rw [hcs]
        cases kind with
        | none => exact .blank lexeme stops (ih hus)
        | some k => exact .token lexeme stops (ih hus)
  · intro h
    induction h with
    | nil => rw [scanFrom]
    | token lexeme stops _ ih =>
        rw [scanFrom_append _ lexeme stops, ih]
        rfl
    | blank lexeme stops _ ih =>
        rw [scanFrom_append _ lexeme stops, ih]
        rfl

/-- A text is cut into tokens in one way only. -/
theorem Lexed.unique {us : List Token} (h : Lexed n cs ts) (h' : Lexed n cs us) : ts = us :=
  Except.ok.inj ((scanFrom_eq_ok_iff.mpr h).symm.trans (scanFrom_eq_ok_iff.mpr h'))

end Token

end TreeDelta
