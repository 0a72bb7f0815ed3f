import TreeDelta.Proofs.Expression.Lexeme
import TreeDelta.Proofs.Text.Numeral

/-!
# Literals of path expressions

A literal of a path expression is a single token: a run of digits, an identifier or a text in
quotes. What a token stands for is said by a grammar, which reading agrees with on the tokens that a
text is cut into, because these end at their closing quotes.

The grammar knows no limit of digits. A limit changes what reading does with a number that is too
long, and nothing else, so it is enough to know which tokens fit it.

## Main definitions

* `Token.Denotes`: the component that a token stands for as a literal.
* `Token.Closed`: a token in quotes ends at its closing quote.
* `Token.Fits`: a token that is no number with more digits than a limit.

## Main results

* `Token.component_eq_ok_iff`: a literal is read as what it stands for.
* `Token.component_of_fits`, `Token.component_of_long`: what a limit does.
* `Token.Lexed.closed`: the tokens of a text are closed.
-/

namespace TreeDelta

/-- Whether a token of a class can be a literal. Punctuation never stands for a component. -/
def TokenKind.isLiteral : TokenKind → Bool
  | singleQuoted | doubleQuoted | integer | name => true
  | _ => false

namespace Token

variable {t : Token} {c : Component} {limit : Nat}

/-! ### Literals -/

/-- The component that a token stands for as a literal. Every run of digits stands for an index
here, however long it is. -/
inductive Denotes : Token → Component → Prop where
  /-- A run of digits is the index they write. -/
  | integer {t : Token} (kind : t.kind = .integer) :
      Denotes t (.index (Nat.ofDigitChars 10 t.text 0))
  /-- An identifier is the property of that name. -/
  | name {t : Token} (kind : t.kind = .name) : Denotes t (.property (String.ofList t.text))
  /-- A text in quotes is the property named by the string it stands for. -/
  | quoted {t : Token} {quote : Char} {w : List Char} {s : String}
      (kind : t.kind.quote? = some quote) (text : t.text = quote :: (w ++ [quote]))
      (body : JsonString.Denoted quote w s) : Denotes t (.property s)

/-- A token in quotes ends at its closing quote. Other tokens are closed anyway. -/
def Closed (t : Token) : Prop :=
  ∀ quote, t.kind.quote? = some quote → ∃ w, t.text = quote :: (w ++ [quote]) ∧ Span quote w

/-- Only literals stand for something: punctuation and wildcards have no component. -/
theorem Denotes.isLiteral (h : t.Denotes c) : t.kind.isLiteral = true := by
  cases h with
  | integer kind => rw [kind]; rfl
  | name kind => rw [kind]; rfl
  | quoted kind =>
      cases hk : t.kind <;> first | rfl | exact absurd kind (by simp [hk, TokenKind.quote?])

/-- What stands for something ends at its closing quote. -/
theorem Denotes.closed (h : t.Denotes c) : t.Closed := by
  intro quote kind
  cases h with
  | integer kind' => exact absurd kind (by simp [kind', TokenKind.quote?])
  | name kind' => exact absurd kind (by simp [kind', TokenKind.quote?])
  | quoted kind' text body =>
      obtain rfl := Option.some.inj (kind.symm.trans kind')
      obtain ⟨us, spelled, -⟩ := body
      exact ⟨_, text, spelled.span ((TokenKind.quote?_eq_some kind).imp And.right And.right)⟩

/-- What a run of digits stands for: the index that it is the decimal of, with leading zeros or
not. -/
theorem denotes_integer (kind : t.kind = .integer) :
    t.Denotes c ↔ .index (Nat.ofDigitChars 10 t.text 0) = c := by
  constructor
  · rintro (_ | kind' | ⟨kind', -, -⟩)
    · rfl
    · exact absurd (kind.symm.trans kind') (by simp)
    · exact absurd kind' (by simp [kind, TokenKind.quote?])
  · rintro rfl
    exact .integer kind

/-- What an identifier stands for: the property with its characters, as nothing in it is escaped. -/
theorem denotes_name (kind : t.kind = .name) :
    t.Denotes c ↔ .property (String.ofList t.text) = c := by
  constructor
  · rintro (kind' | _ | ⟨kind', -, -⟩)
    · exact absurd (kind.symm.trans kind') (by simp)
    · rfl
    · exact absurd kind' (by simp [kind, TokenKind.quote?])
  · rintro rfl
    exact .name kind

/-- What a text in quotes stands for: the property whose name is the string that the body
denotes. -/
theorem denotes_quoted {quote : Char} {w : List Char} (kind : t.kind.quote? = some quote)
    (text : t.text = quote :: (w ++ [quote])) :
    t.Denotes c ↔ ∃ s, JsonString.Denoted quote w s ∧ .property s = c := by
  constructor
  · rintro (kind' | kind' | ⟨kind', text', body⟩)
    · exact absurd kind (by simp [kind', TokenKind.quote?])
    · exact absurd kind (by simp [kind', TokenKind.quote?])
    · obtain rfl := Option.some.inj (kind.symm.trans kind')
      obtain rfl := List.append_cancel_right (List.cons.inj (text.symm.trans text')).2
      exact ⟨_, body, rfl⟩
  · rintro ⟨s, body, rfl⟩
    exact .quoted kind text body

/-- **A literal is read** as what it stands for, and it is read when it stands for anything. The
limit of digits is left aside. -/
theorem component_eq_ok_iff (closed : t.Closed) (literal : t.kind.isLiteral = true) :
    t.component = .ok c ↔ t.Denotes c := by
  cases kind : t.kind with
  | integer =>
      rw [denotes_integer kind, component, kind, ← Text.digitsValue_eq_ofDigitChars]
      simp only [if_pos (Text.readable_zero t.text), Except.ok.injEq]
  | name =>
      rw [denotes_name kind, component, kind]
      simp only [Except.ok.injEq]
  | doubleQuoted =>
      have quote : t.kind.quote? = some '"' := by rw [kind]; rfl
      obtain ⟨w, text, span⟩ := closed '"' quote
      rw [denotes_quoted quote text, component, kind, text, List.tail_cons]
      simp only [mapError_eq_ok_iff, map_eq_ok_iff, JsonString.decode_span_eq_ok_iff span]
  | singleQuoted =>
      have quote : t.kind.quote? = some '\x27' := by rw [kind]; rfl
      obtain ⟨w, text, span⟩ := closed '\x27' quote
      rw [denotes_quoted quote text, component, kind, text, List.tail_cons, List.dropLast_concat]
      simp only [mapError_eq_ok_iff, map_eq_ok_iff, JsonString.decode_respell_eq_ok_iff span]
  | _ => exact absurd literal (by simp [kind, TokenKind.isLiteral])

/-! ### The limit of digits -/

/-- A token fits a limit of digits when it is no number that is longer. Texts in quotes and
identifiers fit every limit, whatever digits they hold. -/
def Fits (limit : Nat) (t : Token) : Prop := t.kind = .integer → Text.Readable limit t.text

instance (limit : Nat) (t : Token) : Decidable (t.Fits limit) :=
  inferInstanceAs (Decidable (_ → _))

/-- Without a limit every token fits. -/
theorem fits_zero (t : Token) : t.Fits 0 := fun _ => Text.readable_zero t.text

/-- Only numbers are too long. -/
theorem kind_of_long (long : ¬ t.Fits limit) : t.kind = .integer := (Classical.not_imp.mp long).1

/-- A token that fits stands for what it stands for without a limit. So a limit never changes what
is read, but may keep it from being read. -/
theorem component_of_fits (fits : t.Fits limit) : t.component limit = t.component := by
  cases kind : t.kind with
  | integer =>
      simp only [component, kind, if_pos (fits kind), if_pos (Text.readable_zero t.text)]
  | _ => simp only [component, kind]

/-- A number that is too long stands for nothing. The fault tells how many digits it has and how
many it may have. -/
theorem component_of_long (long : ¬ t.Fits limit) :
    t.component limit = .error (.digits t.text.length limit) := by
  obtain ⟨kind, unreadable⟩ := Classical.not_imp.mp long
  simp only [component, kind, if_neg unreadable]

/-- A token that stands for nothing without a limit is no number, so it fits every limit. -/
theorem fits_of_component_eq_error {fault : LiteralFault} (h : t.component = .error fault) :
    t.Fits limit := by
  intro kind
  simp [component, kind, Text.readable_zero] at h

/-- Without a limit only the texts in quotes can stand for nothing. -/
theorem exists_string_of_component_eq_error {fault : LiteralFault}
    (h : t.component = .error fault) : ∃ bad, fault = .string bad := by
  cases kind : t.kind with
  | integer => simp [component, kind, Text.readable_zero] at h
  | doubleQuoted | singleQuoted =>
      simp only [component, kind] at h
      exact exists_of_mapError_eq_error h
  | _ => simp [component, kind] at h

/-! ### Tokens of a text -/

/-- A lexeme in quotes is closed, as the class of such a lexeme requires both quotes. -/
theorem IsLexeme.closed {k : TokenKind} {w : List Char} (h : IsLexeme (some k) w) (n : Nat) :
    Closed ⟨k, w, n⟩ := by
  intro quote kind
  cases h with
  | quoted kind' span =>
      obtain rfl := Option.some.inj (kind.symm.trans kind')
      exact ⟨_, rfl, span⟩
  | integer | name => exact absurd kind (by simp [TokenKind.quote?])
  | punctuation known =>
      have bare : ∀ e ∈ Token.punctuation, e.2.quote? = none := by decide
      exact absurd (kind.symm.trans (bare _ known)) (by simp)

/-- **The tokens of a text are closed.** -/
theorem Lexed.closed {n : Nat} {cs : List Char} {ts : List Token} (h : Lexed n cs ts) :
    ∀ t ∈ ts, t.Closed := by
  induction h with
  | nil => simp
  | token lexeme _ _ ih => exact List.forall_mem_cons.mpr ⟨lexeme.closed _, ih⟩
  | blank _ _ _ ih => exact ih

end Token

end TreeDelta
