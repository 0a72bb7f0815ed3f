import TreeDelta.Proofs.Expression.Grammar

/-!
# Errors point at the first offending token

Reading goes from phase to phase, one token at a time, and what follows is read from the phase that
was reached, whatever came before (`Expression.goes_or_refuses`). Every phase that occurs can be
continued to the end of an expression, with a few tokens at most (`Expression.exists_read_ending`).
So the tokens before the one that a phase refuses can be continued, and with it they cannot: the
error is neither early nor late.

All this holds with any limit of digits, because the phases do not depend on it: a limit only makes
a phase refuse a number that it would go on with (`Expression.refuses_of_long`). What reading does
without a limit and with one is therefore told apart by the first number that is too long.

## Main definitions

* `Expression.Accepts`, `Expression.Viable`: tokens that are an expression, or can be continued to
  one.
* `Expression.Goes`, `Expression.Refuses`: what reading some tokens, or one, does in a phase.
* `Expression.Offends`, `Expression.Overruns`: the two reasons why a token is refused.
* `Expression.Located`: what an error tells about the tokens of a text.

## Main results

* `Expression.goes_or_stops`: reading takes all tokens, or refuses one after taking those before it.
* `Expression.read_of_fits`: a limit that all tokens fit makes no difference.
* `Expression.errors_located`: errors of paths and of patterns point at the first offending token.
-/

namespace TreeDelta

/-- The phases that occur in a dialect: an identifier in brackets is read in patterns only. -/
def Phase.Occurs (d : Dialect) : Phase → Prop
  | afterName _ => d = .wild
  | _ => True

namespace Expression

variable {d : Dialect} {limit : Nat} {phase next last : Phase} {t : Token} {ts us : List Token}
  {cause : ParseCause} {text : String}

/-- Tokens that are read as an expression, with a limit of digits. They need not come from a
text. -/
def Accepts (d : Dialect) (limit : Nat) (ts : List Token) : Prop :=
  ∃ m, read d .start ts limit = .ok m

/-- Tokens that can be continued to an expression, by texts that are tokens. -/
def Viable (d : Dialect) (limit : Nat) (ts : List Token) : Prop :=
  ∃ us, (∀ u ∈ us, Token.IsLexeme (some u.kind) u.text) ∧ Accepts d limit (ts ++ us)

/-! ### From phase to phase -/

/-- Reading some tokens goes from one phase to another: whatever follows is read from there, and
selectors are put in front of it. This is so with every limit that the tokens fit, and the selectors
are the same. -/
def Goes (d : Dialect) (phase : Phase) (ts : List Token) (next : Phase) : Prop :=
  ∃ f : Pattern → Pattern, ∀ limit, (∀ t ∈ ts, t.Fits limit) → ∀ us,
    read d phase (ts ++ us) limit = (read d next us limit).map f

/-- A phase refuses a token, whatever follows it. The error is always the same, so it does not
depend on what follows either. -/
def Refuses (d : Dialect) (limit : Nat) (phase : Phase) (t : Token) (cause : ParseCause) : Prop :=
  ∀ us, read d phase (t :: us) limit = .error cause

/-- A phase refuses a token with any limit, because the token may not come next or is a text in
quotes that is no string. -/
structure Offends (d : Dialect) (phase : Phase) (t : Token) (cause : ParseCause) : Prop where
  /-- The token is refused. -/
  refuses : ∀ limit, Refuses d limit phase t cause
  /-- The error is that of the phase, or that of the text in quotes. -/
  own : cause = phase.tokenCause d t ∨ ∃ fault, cause = .badString (String.ofList t.text) fault

/-- Reading no tokens stays in the phase. -/
theorem Goes.nil (d : Dialect) (phase : Phase) : Goes d phase [] phase :=
  ⟨id, fun limit _ us => by rw [List.nil_append]; cases read d phase us limit <;> rfl⟩

/-- Reading goes on from where it is: two stretches behind each other are one. -/
theorem Goes.append (h : Goes d phase ts next) (h' : Goes d next us last) :
    Goes d phase (ts ++ us) last := by
  obtain ⟨f, hf⟩ := h
  obtain ⟨g, hg⟩ := h'
  refine ⟨f ∘ g, fun limit fits vs => ?_⟩
  obtain ⟨first, second⟩ := List.forall_mem_append.mp fits
  rw [List.append_assoc, hf limit first, hg limit second]
  cases read d last vs limit <;> rfl

/-- A token that completes no selector. -/
theorem Goes.step (h : ∀ limit, t.Fits limit → ∀ us,
    read d phase (t :: us) limit = read d next us limit) : Goes d phase [t] next := by
  refine ⟨id, fun limit fits us => ?_⟩
  rw [List.singleton_append, h limit (fits t List.mem_cons_self) us]
  cases read d next us limit <;> rfl

/-- A token that completes a selector. -/
theorem Goes.complete {s : Selector}
    (h : ∀ limit us, read d phase (t :: us) limit = (read d next us limit).map (s :: ·)) :
    Goes d phase [t] next :=
  ⟨(s :: ·), fun limit _ => h limit⟩

/-- What a phase does with a token: it goes on to another phase, or refuses the token because it may
not come next or cannot be read. -/
def Decides (d : Dialect) (phase : Phase) (t : Token) : Prop :=
  (∃ next, next.Occurs d ∧ Goes d phase [t] next) ∨ ∃ cause, Offends d phase t cause

/-- A token that may not come next is refused. -/
theorem Decides.refuse
    (h : ∀ limit us, read d phase (t :: us) limit = .error (phase.tokenCause d t)) :
    Decides d phase t :=
  .inr ⟨_, h, .inl rfl⟩

/-- A token that completes no selector goes on. -/
theorem Decides.step (next : Phase) (occurs : next.Occurs d)
    (h : ∀ limit us, read d phase (t :: us) limit = read d next us limit) : Decides d phase t :=
  .inl ⟨next, occurs, .step fun limit _ => h limit⟩

/-- A token that completes a selector goes on to the next segment. -/
theorem Decides.complete {s : Selector}
    (h : ∀ limit us, read d phase (t :: us) limit = (read d .between us limit).map (s :: ·)) :
    Decides d phase t :=
  .inl ⟨.between, trivial, .complete h⟩

/-- A literal that may come next goes on, unless it is a text in quotes that cannot be read. Whether
a number is too long is left open here: it goes on with every limit that it fits. -/
theorem Decides.literal (after : Component → Phase) (occurs : ∀ c, (after c).Occurs d)
    (h : ∀ limit us, read d phase (t :: us) limit =
      Expression.literal t limit >>= fun c => read d (after c) us limit) : Decides d phase t := by
  cases ht : t.component with
  | ok c =>
      refine .inl ⟨after c, occurs c, .step fun limit fits us => ?_⟩
      rw [h, Expression.literal, Token.component_of_fits fits, ht]
      rfl
  | error fault =>
      obtain ⟨bad, rfl⟩ := Token.exists_string_of_component_eq_error ht
      refine .inr ⟨.badString (String.ofList t.text) bad, fun limit us => ?_, .inr ⟨bad, rfl⟩⟩
      rw [h, Expression.literal, Token.component_of_fits (Token.fits_of_component_eq_error ht), ht]
      rfl

/-- **One token**: a phase goes on to another one with it, or refuses it. This is the only place
where the phases and classes of tokens are gone through. -/
theorem goes_or_refuses (occurs : phase.Occurs d) (t : Token) : Decides d phase t := by
  cases phase with
  | start =>
      cases kind : t.kind with
      | root => exact .step .between trivial fun limit us => by simp [read, kind]
      | _ => exact .refuse fun limit us => by simp [read, kind]
  | between =>
      cases kind : t.kind with
      | dot => exact .step .afterDot trivial fun limit us => by simp [read, kind]
      | openBracket => exact .step .afterBracket trivial fun limit us => by simp [read, kind]
      | _ => exact .refuse fun limit us => by simp [read, kind]
  | afterDot =>
      cases kind : t.kind with
      | name =>
          have ht : ∀ limit, literal t limit = .ok (.property (String.ofList t.text)) := by
            intro limit
            simp only [literal, Token.component, kind, mapError_ok]
          exact .complete fun limit us => by simp only [read, kind, ht]; rfl
      | star =>
          cases d with
          | literal => exact .refuse fun limit us => by simp [read, kind]
          | wild => exact .complete (s := .anyProperty) fun limit us => by simp [read, kind]
      | _ => exact .refuse fun limit us => by simp [read, kind]
  | afterBracket =>
      cases kind : t.kind with
      | integer | doubleQuoted | singleQuoted =>
          exact .literal .afterLiteral (fun _ => trivial) fun limit us => by
            simp only [read, kind]
      | name =>
          cases d with
          | literal => exact .refuse fun limit us => by simp [read, kind]
          | wild =>
              exact .step (.afterName (String.ofList t.text)) rfl fun limit us => by
                simp [read, kind]
      | star =>
          cases d with
          | literal => exact .refuse fun limit us => by simp [read, kind]
          | wild => exact .step .afterStar trivial fun limit us => by simp [read, kind]
      | _ => exact .refuse fun limit us => by simp [read, kind]
  | afterLiteral c =>
      cases kind : t.kind with
      | closeBracket => exact .complete (s := .ofComponent c) fun limit us => by simp [read, kind]
      | comma =>
          cases d with
          | literal => exact .refuse fun limit us => by simp [read, kind]
          | wild => exact .step (.afterComma c []) trivial fun limit us => by simp [read, kind]
      | _ => exact .refuse fun limit us => by simp [read, kind]
  | afterName name =>
      obtain rfl : d = .wild := occurs
      cases kind : t.kind with
      | comma =>
          exact .step (.afterComma (.property name) []) trivial fun limit us => by
            simp [read, kind]
      | _ => exact .refuse fun limit us => by simp [read, kind]
  | afterStar =>
      cases kind : t.kind with
      | closeBracket => exact .complete (s := .anyIndex) fun limit us => by simp [read, kind]
      | _ => exact .refuse fun limit us => by simp [read, kind]
  | afterComma first others =>
      have occurs : ∀ c, (Phase.addMember first others c).Occurs d := by
        cases others <;> exact fun _ => trivial
      cases kind : t.kind with
      | integer | doubleQuoted | singleQuoted | name =>
          exact .literal (Phase.addMember first others) occurs fun limit us => by
            simp only [read, kind]
      | _ => exact .refuse fun limit us => by simp [read, kind]
  | afterMember first second others =>
      cases kind : t.kind with
      | closeBracket =>
          exact .complete (s := .union first second others) fun limit us => by simp [read, kind]
      | comma =>
          exact .step (.afterComma first (second :: others)) trivial fun limit us => by
            simp [read, kind]
      | _ => exact .refuse fun limit us => by simp [read, kind]

/-! ### To the end of an expression -/

/-- A token of a single character, as a continuation. -/
def mark (c : Char) (k : TokenKind) : Token := ⟨k, [c], 0⟩

/-- The number zero, as a continuation. -/
def zero : Token := ⟨.integer, ['0'], 0⟩

/-- What is written to end an expression from a phase on. Any ending would do; these are as short as
they can be. -/
def ending : Phase → List Token
  | .start => [mark '$' .root]
  | .between => []
  | .afterDot => [⟨.name, ['a'], 0⟩]
  | .afterBracket | .afterComma _ _ => [zero, mark ']' .closeBracket]
  | .afterLiteral _ | .afterStar | .afterMember _ _ _ => [mark ']' .closeBracket]
  | .afterName _ => [mark ',' .comma, zero, mark ']' .closeBracket]

/-- The tokens of an ending are texts of their classes. -/
theorem isLexeme_of_mem_ending (phase : Phase) :
    ∀ u ∈ ending phase, Token.IsLexeme (some u.kind) u.text := by
  have root : Token.IsLexeme (some .root) ['$'] := .punctuation (by decide)
  have close : Token.IsLexeme (some .closeBracket) [']'] := .punctuation (by decide)
  have comma : Token.IsLexeme (some .comma) [','] := .punctuation (by decide)
  have number : Token.IsLexeme (some .integer) ['0'] := .integer (List.all_eq_true.mp rfl)
  have letter : Token.IsLexeme (some .name) ['a'] := .name (by decide) (List.all_eq_true.mp rfl)
  cases phase <;> simp [ending, mark, zero, root, close, comma, number, letter]

/-- **Every phase can be ended**, so what leads to a phase is the start of an expression. -/
theorem exists_read_ending (occurs : phase.Occurs d) :
    ∃ m, read d phase (ending phase) = .ok m := by
  have number : literal zero = .ok (.index 0) := rfl
  cases phase with
  | start | between => exact ⟨_, rfl⟩
  | afterDot => exact ⟨_, rfl⟩
  | afterBracket => exact ⟨_, rfl⟩
  | afterLiteral c => exact ⟨_, rfl⟩
  | afterStar => exact ⟨_, rfl⟩
  | afterName name =>
      obtain rfl : d = .wild := occurs
      exact ⟨_, rfl⟩
  | afterComma first others => cases others <;> exact ⟨_, rfl⟩
  | afterMember first second others => exact ⟨_, rfl⟩

/-! ### Where reading stops -/

/-- A phase goes on with a number, but the number has more digits than the limit. -/
structure Overruns (d : Dialect) (limit : Nat) (phase : Phase) (t : Token) (cause : ParseCause) :
    Prop where
  /-- The number is too long. -/
  long : ¬ t.Fits limit
  /-- A number may come next. -/
  goes : ∃ next, next.Occurs d ∧ Goes d phase [t] next
  /-- The error tells how many digits there are. -/
  own : cause = .longNumber t.text.length limit

/-- A number that is too long is refused where the phase would go on with it. The error is the
interpreter's own. -/
theorem refuses_of_long (h : Overruns d limit phase t cause) : Refuses d limit phase t cause := by
  obtain ⟨long, ⟨next, occurs, f, hf⟩, rfl⟩ := h
  have kind := Token.kind_of_long long
  have refused : literal t limit = .error (.longNumber t.text.length limit) := by
    rw [literal, Token.component_of_long long]
    rfl
  -- without a limit the number is taken, so that the phase is one of those that literals follow
  obtain ⟨m, hm⟩ := exists_read_ending occurs
  have taken : read d phase (t :: ending next) = .ok (f m) := by
    have here := hf 0 (fun u _ => u.fits_zero) (ending next)
    rw [hm] at here
    exact here
  cases phase with
  | afterBracket | afterComma => intro us; simp only [read, kind, refused]; rfl
  | _ => exact absurd taken (by simp [read, kind])

/-- **Reading takes all tokens, or refuses one** after taking those before it. Only numbers that are
taken have to fit the limit. -/
theorem goes_or_stops (limit : Nat) (occurs : phase.Occurs d) (ts : List Token) :
    ((∀ t ∈ ts, t.Fits limit) ∧ ∃ last, last.Occurs d ∧ Goes d phase ts last) ∨
      ∃ pre t post last cause, ts = pre ++ t :: post ∧ (∀ u ∈ pre, u.Fits limit) ∧
        last.Occurs d ∧ Goes d phase pre last ∧
        (Offends d last t cause ∨ Overruns d limit last t cause) := by
  induction ts generalizing phase with
  | nil => exact .inl ⟨by simp, phase, occurs, .nil d phase⟩
  | cons t ts ih =>
      rcases goes_or_refuses occurs t with ⟨next, there, goes⟩ | ⟨cause, offends⟩
      · by_cases fits : t.Fits limit
        · rcases ih there with ⟨all, last, there, rest⟩ |
            ⟨pre, u, post, last, cause, rfl, all, there, rest, why⟩
          · exact .inl ⟨List.forall_mem_cons.mpr ⟨fits, all⟩, last, there, goes.append rest⟩
          · exact .inr ⟨t :: pre, u, post, last, cause, rfl, List.forall_mem_cons.mpr ⟨fits, all⟩,
              there, goes.append rest, why⟩
        · exact .inr ⟨[], t, ts, phase, _, rfl, by simp, occurs, .nil d phase,
            .inr ⟨fits, ⟨next, there, goes⟩, rfl⟩⟩
      · exact .inr ⟨[], t, ts, phase, cause, rfl, by simp, occurs, .nil d phase, .inl offends⟩

/-- Reading ends with the error of the phase at a token that it refuses, once the tokens before it
were taken. -/
theorem Goes.read_refused (h : Goes d phase ts last) (fits : ∀ t ∈ ts, t.Fits limit)
    (refuses : Refuses d limit last t cause) (us : List Token) :
    read d phase (ts ++ t :: us) limit = .error cause := by
  obtain ⟨f, hf⟩ := h
  rw [hf limit fits, refuses]
  rfl

/-- Reading no tokens does not depend on the limit. -/
theorem read_nil (d : Dialect) (phase : Phase) (limit : Nat) :
    read d phase [] limit = read d phase [] := by
  cases phase <;> rfl

/-- **A limit that all tokens fit makes no difference.** What is refused is refused with any limit,
and what is taken is taken with every limit that it fits. -/
theorem read_of_fits (occurs : phase.Occurs d) (fits : ∀ t ∈ ts, t.Fits limit) :
    read d phase ts limit = read d phase ts := by
  rcases goes_or_stops limit occurs ts with
    ⟨-, last, -, f, hf⟩ | ⟨pre, t, post, last, cause, rfl, all, -, goes, offends | overruns⟩
  · have here := hf limit fits []
    have free := hf 0 (fun u _ => u.fits_zero) []
    rw [List.append_nil] at here free
    rw [here, free, read_nil]
  · rw [goes.read_refused all (offends.refuses limit),
      goes.read_refused (fun u _ => u.fits_zero) (offends.refuses 0)]
  · exact absurd (fits t (by simp)) overruns.long

/-- The tokens of an ending fit every limit. -/
theorem fits_of_mem_ending (phase : Phase) (limit : Nat) :
    ∀ u ∈ ending phase, u.Fits limit := by
  have number : Text.Readable limit ['0'] := by simp [Text.Readable]; omega
  cases phase <;> simp [ending, mark, zero, Token.Fits, number]

/-- Tokens that are taken can be continued, by the ending of the phase that they lead to. -/
theorem Goes.viable (h : Goes d .start ts last) (fits : ∀ t ∈ ts, t.Fits limit)
    (occurs : last.Occurs d) : Viable d limit ts := by
  obtain ⟨f, hf⟩ := h
  obtain ⟨m, hm⟩ := exists_read_ending occurs
  have ended : read d last (ending last) limit = .ok m :=
    (read_of_fits occurs (fits_of_mem_ending last limit)).trans hm
  exact ⟨ending last, isLexeme_of_mem_ending last, f m, by rw [hf limit fits, ended]; rfl⟩

/-! ### Errors -/

/-- What an error of a text tells about its tokens: an unexpected token is the first one that makes
them no start of an expression, and at an unexpected end they are one. -/
structure Located (d : Dialect) (limit : Nat) (text : String) (cause : ParseCause) : Prop where
  /-- The tokens before an unexpected one can be continued, and with it they cannot. -/
  token : ∀ word position expected, cause = .unexpectedToken word position expected →
    ∃ pre t post, Token.scan text.toList = .ok (pre ++ t :: post) ∧ String.ofList t.text = word ∧
      t.position = position ∧ Viable d limit pre ∧ ∀ us, ¬Accepts d limit (pre ++ t :: us)
  /-- The tokens before an unexpected end can be continued. -/
  atEnd : ∀ expected, cause = .unexpectedEnd expected →
    ∃ ts, Token.scan text.toList = .ok ts ∧ Viable d limit ts

/-- The error of a phase at an unexpected token tells its text and place. -/
theorem unexpected_of_tokenCause {word : String} {position : Nat} {expected : List TokenKind}
    (h : phase.tokenCause d t = .unexpectedToken word position expected) :
    String.ofList t.text = word ∧ t.position = position := by
  cases phase <;> simp_all [Phase.tokenCause]

/-- The errors of the end of a text are not those of a token. -/
theorem endCause_ne (d : Dialect) (phase : Phase) (word : String) (position : Nat)
    (expected : List TokenKind) : phase.endCause d ≠ .unexpectedToken word position expected := by
  cases phase <;> simp [Phase.endCause]

/-- The errors of a token are not those of the end of a text. -/
theorem tokenCause_ne (d : Dialect) (phase : Phase) (t : Token) (expected : List TokenKind) :
    phase.tokenCause d t ≠ .unexpectedEnd expected := by
  cases phase <;> simp [Phase.tokenCause]

/-- An error at the end of the tokens is that of the phase. -/
theorem read_nil_eq_error (h : read d phase [] = .error cause) : cause = phase.endCause d := by
  cases phase <;> simp_all [read]

/-- **An error of reading is located.** The tokens before the offending one were taken, so they can
be continued; and with it nothing is read, whatever follows. -/
theorem located_of_read (scanned : Token.scan text.toList = .ok ts)
    (h : read d .start ts limit = .error cause) : Located d limit text cause := by
  have start : Phase.start.Occurs d := trivial
  rcases goes_or_stops limit start ts with
    ⟨fits, last, occurs, goes⟩ | ⟨pre, t, post, last, cause', rfl, fits, occurs, goes, why⟩
  · obtain ⟨f, hf⟩ := id goes
    rw [← List.append_nil ts, hf limit fits, map_eq_error_iff, read_nil] at h
    obtain rfl := read_nil_eq_error h
    exact ⟨fun word position expected he => absurd he (endCause_ne d last word position expected),
      fun _ _ => ⟨ts, scanned, goes.viable fits occurs⟩⟩
  · have refuses : Refuses d limit last t cause' :=
      why.elim (fun offends => offends.refuses limit) refuses_of_long
    obtain rfl := Except.error.inj ((goes.read_refused fits refuses post).symm.trans h)
    refine ⟨fun word position expected he => ?_, fun expected he => ?_⟩
    · rcases why with ⟨-, own | ⟨fault, bad⟩⟩ | ⟨-, -, long⟩
      · obtain ⟨hword, hposition⟩ := unexpected_of_tokenCause (own.symm.trans he)
        refine ⟨pre, t, post, scanned, hword, hposition, goes.viable fits occurs, ?_⟩
        rintro us ⟨m, hm⟩
        exact absurd ((goes.read_refused fits refuses us).symm.trans hm) (by simp)
      · exact absurd (bad.symm.trans he) (by simp)
      · exact absurd (long.symm.trans he) (by simp)
    · rcases why with ⟨-, own | ⟨fault, bad⟩⟩ | ⟨-, -, long⟩
      · exact absurd (own.symm.trans he) (tokenCause_ne d last t expected)
      · exact absurd (bad.symm.trans he) (by simp)
      · exact absurd (long.symm.trans he) (by simp)

/-- An error of a text is located, whichever way the text is read. -/
theorem located_of_parse (h : parse d text limit = .error ⟨text, cause⟩) :
    Located d limit text cause := by
  rw [parse] at h
  cases scanned : Token.scan text.toList with
  | error stray =>
      obtain rfl : ParseCause.strayCharacter stray.char stray.position = cause := by
        simpa [scanned] using h
      exact ⟨fun _ _ _ he => absurd he (by simp), fun _ he => absurd he (by simp)⟩
  | ok ts =>
      rw [scanned] at h
      cases hread : read d .start ts limit with
      | ok m => simp [hread, mapError_ok] at h
      | error cause' =>
          obtain rfl : cause' = cause := by simpa [hread, mapError_error] using h
          exact located_of_read scanned hread

/-- **Errors point at the first offending token**: when a path or a pattern has an unexpected token,
the tokens before it can be continued to an expression of the same dialect, and no expression starts
with them and it; when the end is unexpected, all tokens can be continued to an expression. This is
so whatever the limit of digits. -/
theorem errors_located (limit : Nat) (text : String) (cause : ParseCause) :
    (Path.parse text limit = .error ⟨text, cause⟩ → Located .literal limit text cause) ∧
      (Pattern.parse text limit = .error ⟨text, cause⟩ → Located .wild limit text cause) :=
  ⟨fun h => located_of_parse (map_eq_error_iff.mp h), located_of_parse⟩

/-- A comma after a star, and a path that ends in its brackets. The first error points at the comma,
and the second one at the end. -/
theorem errors_located_brackets :
    Pattern.parse "$[*,0]" = .error ⟨"$[*,0]", .unexpectedToken "," 3 [.closeBracket]⟩ ∧
      Located .wild 0 "$[*,0]" (.unexpectedToken "," 3 [.closeBracket]) ∧
      Path.parse "$.a[0" = .error ⟨"$.a[0", .unexpectedEnd [.closeBracket]⟩ ∧
      Located .literal 0 "$.a[0" (.unexpectedEnd [.closeBracket]) := by
  have starred : Token.scan "$[*,0]".toList = .ok [⟨.root, ['$'], 0⟩, ⟨.openBracket, ['['], 1⟩,
      ⟨.star, ['*'], 2⟩, ⟨.comma, [','], 3⟩, ⟨.integer, ['0'], 4⟩, ⟨.closeBracket, [']'], 5⟩] := by
    cbv
  have unended : Token.scan "$.a[0".toList = .ok [⟨.root, ['$'], 0⟩, ⟨.dot, ['.'], 1⟩,
      ⟨.name, ['a'], 2⟩, ⟨.openBracket, ['['], 3⟩, ⟨.integer, ['0'], 4⟩] := by
    cbv
  have pattern : Pattern.parse "$[*,0]" =
      .error ⟨"$[*,0]", .unexpectedToken "," 3 [.closeBracket]⟩ := by
    rw [Pattern.parse, parse, starred]
    rfl
  have path : Path.parse "$.a[0" = .error ⟨"$.a[0", .unexpectedEnd [.closeBracket]⟩ := by
    rw [Path.parse, parse, unended]
    rfl
  exact ⟨pattern, (errors_located _ _ _).2 pattern, path, (errors_located _ _ _).1 path⟩

end Expression

end TreeDelta
