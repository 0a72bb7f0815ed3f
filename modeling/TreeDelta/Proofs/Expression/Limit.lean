import TreeDelta.Proofs.Expression.Render
import TreeDelta.Proofs.Expression.Viable

/-!
# Reading with a limit of digits

A text that spells a path or a pattern is read as that, and a text that spells none is answered with
the declared error, unless a number in it is too long. Such a number ends the reading with an error
of the interpreter's own as soon as it is reached, also in a text that would turn out to spell
nothing later on. It is reached when the tokens before it fit the limit, and the tokens up to it
start some expression (`Expression.Overlong`).

So the limit is the one place where reading departs from the grammar. Nothing departs from it
without a limit, and the limit that the interpreter has by default is exceeded by a path of a single
index already (`Expression.not_parse_exact`).

## Main definitions

* `Expression.Within`: a text without numbers that are too long.
* `Expression.Overlong`: a text that is an expression up to a number that is too long.
* `Expression.ReadExactly`: what reading gives, in terms of the grammar and the limit.

## Main results

* `Expression.parse_of_within`: a limit that the numbers of a text keep makes no difference.
* `Expression.read_overlong`: a number that is too long and may stand where it stands ends the
  reading.
* `Expression.parse_exact`: paths and patterns are read from the texts that spell them within the
  limit, and the error is the declared one unless the text is overlong.
-/

namespace TreeDelta

namespace Expression

variable {d : Dialect} {limit : Nat} {phase : Phase} {t : Token} {ts us pre post : List Token}
  {m : Pattern} {p : Path} {cause : ParseCause} {text : String}

/-! ### Texts and limits -/

/-- A text is within a limit when none of its numbers has more digits. A text that cannot be cut
into tokens is within every limit. -/
def Within (limit : Nat) (text : String) : Prop :=
  ∀ ts, Token.Lexed 0 text.toList ts → ∀ t ∈ ts, t.Fits limit

/-- A text is overlong when its tokens up to the first number that is too long can be continued to
an expression: the number stands where a number may stand, and nothing is wrong before it. What
follows the number in the text does not matter. -/
def Overlong (d : Dialect) (limit : Nat) (text : String) : Prop :=
  ∃ pre t post, Token.Lexed 0 text.toList (pre ++ t :: post) ∧ (∀ u ∈ pre, u.Fits limit) ∧
    ¬ t.Fits limit ∧ ∃ us m, Sentence d (pre ++ t :: us) m

/-- A text is within a limit when the tokens that it is cut into fit it. -/
theorem within_iff (lexed : Token.Lexed 0 text.toList ts) :
    Within limit text ↔ ∀ t ∈ ts, t.Fits limit :=
  ⟨fun h => h ts lexed, fun h _ other => other.unique lexed ▸ h⟩

/-- Without a limit every text is within it. -/
theorem within_zero (text : String) : Within 0 text := fun _ _ t _ => t.fits_zero

/-- Without a limit no text is overlong. -/
theorem not_overlong_zero (d : Dialect) (text : String) : ¬ Overlong d 0 text := by
  rintro ⟨_, t, _, _, _, long, _⟩
  exact long t.fits_zero

/-- A text that is within a limit is not overlong, in any dialect. -/
theorem Within.not_overlong (h : Within limit text) : ¬ Overlong d limit text := by
  rintro ⟨pre, t, post, lexed, _, long, _⟩
  exact long (h _ lexed t (by simp))

/-- **A limit that the numbers of a text keep makes no difference**: what is read without a limit,
such as a canonical text, is read with it. -/
theorem parse_of_within (h : Within limit text) : parse d text limit = parse d text := by
  simp only [parse, Token.scan]
  cases hscan : Token.scanFrom 0 text.toList with
  | error stray => rfl
  | ok ts =>
      have fits := (within_iff (Token.scanFrom_eq_ok_iff.mp hscan)).mp h
      have start : Phase.start.Occurs d := trivial
      simp only [read_of_fits start fits]

/-! ### Reading tokens -/

/-- Whatever starts something that is read is taken: reading goes on from some phase behind it. -/
theorem goes_of_read_ok (occurs : phase.Occurs d) (h : read d phase (ts ++ us) = .ok m) :
    ∃ last, last.Occurs d ∧ Goes d phase ts last := by
  rcases goes_or_stops 0 occurs ts with
    ⟨-, goes⟩ | ⟨pre, t, post, last, cause, rfl, fits, -, goes, offends | overruns⟩
  · exact goes
  · rw [List.append_assoc, List.cons_append,
      goes.read_refused fits (offends.refuses 0)] at h
    exact absurd h (by simp)
  · exact absurd t.fits_zero overruns.long

/-- **A number that is too long ends the reading** when the tokens before it fit the limit, and the
tokens up to it start an expression, whatever follows it. -/
theorem read_overlong (fits : ∀ u ∈ pre, u.Fits limit) (long : ¬ t.Fits limit)
    (h : Sentence d (pre ++ t :: us) m) (post : List Token) :
    read d .start (pre ++ t :: post) limit = .error (.longNumber t.text.length limit) := by
  have start : Phase.start.Occurs d := trivial
  have free := read_of_sentence h
  obtain ⟨last, there, goes⟩ := goes_of_read_ok start free
  rcases goes_or_refuses there t with next | ⟨cause, offends⟩
  · exact goes.read_refused fits (refuses_of_long ⟨long, next, rfl⟩) post
  · rw [goes.read_refused (fun u _ => u.fits_zero) (offends.refuses 0)] at free
    exact absurd free (by simp)

/-- The errors of a phase are declared. Only a number can end reading in another way, and it does so
as a token. -/
theorem isDeclared_endCause (d : Dialect) (phase : Phase) :
    (phase.endCause d).isDeclared = true := by
  cases phase <;> rfl

/-- The errors of a phase at a token are declared. -/
theorem isDeclared_tokenCause (d : Dialect) (t : Token) (phase : Phase) :
    (phase.tokenCause d t).isDeclared = true := by
  cases phase <;> rfl

/-- A token that may not come next, or is no string, is refused with the declared error. -/
theorem Offends.isDeclared (h : Offends d phase t cause) : cause.isDeclared = true := by
  obtain ⟨-, rfl | ⟨fault, rfl⟩⟩ := h
  · exact isDeclared_tokenCause d t phase
  · rfl

/-- **The three ways in which reading ends**: with an expression, if all numbers fit the limit; with
the declared error, if the tokens spell no expression; and at a number that is too long. -/
theorem read_ends (limit : Nat) (closed : ∀ t ∈ ts, t.Closed) :
    ((∀ t ∈ ts, t.Fits limit) ∧ ∃ m, Sentence d ts m ∧ read d .start ts limit = .ok m) ∨
      ((∀ m, ¬ Sentence d ts m) ∧
        ∃ cause, cause.isDeclared = true ∧ read d .start ts limit = .error cause) ∨
      ∃ pre t post, ts = pre ++ t :: post ∧ (∀ u ∈ pre, u.Fits limit) ∧ ¬ t.Fits limit ∧
        ∃ us m, Sentence d (pre ++ t :: us) m := by
  have start : Phase.start.Occurs d := trivial
  rcases goes_or_stops limit start ts with
    ⟨fits, last, -, f, hf⟩ | ⟨pre, t, post, last, cause, rfl, fits, -, goes, offends | overruns⟩
  · have free := read_of_fits start fits
    cases h : read d .start ts with
    | ok m => exact .inl ⟨fits, m, (read_start_eq_ok_iff closed).mp h, free.trans h⟩
    | error cause =>
        have none : ∀ m, ¬ Sentence d ts m := fun m hm =>
          absurd ((read_of_sentence hm).symm.trans h) (by simp)
        have here := hf 0 (fun u _ => u.fits_zero) []
        rw [List.append_nil, h, eq_comm, map_eq_error_iff] at here
        obtain rfl := read_nil_eq_error here
        exact .inr (.inl ⟨none, _, isDeclared_endCause d last, free.trans h⟩)
  · have none : ∀ m, ¬ Sentence d (pre ++ t :: post) m := by
      intro m hm
      have refused := goes.read_refused (fun u _ => u.fits_zero) (offends.refuses 0) post
      exact absurd ((read_of_sentence hm).symm.trans refused) (by simp)
    exact .inr (.inl ⟨none, cause, offends.isDeclared,
      goes.read_refused fits (offends.refuses limit) post⟩)
  · obtain ⟨next, there, further⟩ := overruns.goes
    obtain ⟨us, lexemes, m, hm⟩ :=
      (goes.append further).viable (fun u _ => u.fits_zero) there
    rw [List.append_assoc, List.singleton_append] at hm
    have all : ∀ u ∈ pre ++ t :: us, u.Closed := by
      intro u hu
      rcases List.mem_append.mp hu with hu | hu
      · exact closed u (List.mem_append_left _ hu)
      · rcases List.mem_cons.mp hu with rfl | hu
        · exact closed u (by simp)
        · exact (lexemes u hu).closed u.position
    exact .inr (.inr ⟨pre, t, post, rfl, fits, overruns.long, us, m,
      (read_start_eq_ok_iff all).mp hm⟩)

/-! ### Reading texts -/

/-- What reading a text gives, in terms of the grammar and of a limit of digits. The three cases
exclude each other, and one of them holds. -/
structure ReadExactly {α : Type} (d : Dialect) (limit : Nat) (text : String) (pattern : α → Pattern)
    (result : Except ParseError α) : Prop where
  /-- A value is read when the text spells its pattern, and no number in the text is too long. -/
  ok : ∀ a, result = .ok a ↔ Spells d text (pattern a) ∧ Within limit text
  /-- The declared error is the answer to a text that spells nothing, unless the text is overlong.
  The error tells the text. -/
  declared : (∃ cause, result = .error ⟨text, cause⟩ ∧ cause.isDeclared = true) ↔
    (∀ m, ¬ Spells d text m) ∧ ¬ Overlong d limit text
  /-- The interpreter's own error is the answer to a text that is overlong. -/
  undeclared : (∃ digits, result = .error ⟨text, .longNumber digits limit⟩) ↔
    Overlong d limit text

/-- A text that keeps to the limit and spells one value only is read exactly by giving this
value. -/
theorem ReadExactly.of_spelled {α : Type} {pattern : α → Pattern} {a : α}
    (within : Within limit text) (spells : ∀ b, Spells d text (pattern b) ↔ b = a) :
    ReadExactly d limit text pattern (.ok a) := by
  have spelled : Spells d text (pattern a) := (spells a).mpr rfl
  have overlong : ¬ Overlong d limit text := within.not_overlong
  refine ⟨fun b => ?_, iff_of_false (by simp) fun h => h.1 _ spelled,
    iff_of_false (by simp) overlong⟩
  rw [Except.ok.injEq, spells, and_iff_left within, eq_comm]

/-- A text that spells nothing and is not overlong is read exactly by giving a declared error. -/
theorem ReadExactly.of_unspelled {α : Type} {pattern : α → Pattern} (none : ∀ m, ¬ Spells d text m)
    (overlong : ¬ Overlong d limit text) (known : cause.isDeclared = true) :
    ReadExactly d limit text pattern (.error ⟨text, cause⟩) := by
  refine ⟨fun a => iff_of_false (by simp) fun h => none _ h.1,
    iff_of_true ⟨cause, rfl, known⟩ ⟨none, overlong⟩, iff_of_false ?_ overlong⟩
  rintro ⟨digits, same⟩
  obtain rfl := (ParseError.mk.inj (Except.error.inj same)).2
  exact absurd known (by simp [ParseCause.isDeclared])

/-- A text that is overlong is read exactly by giving the error of the interpreter. -/
theorem ReadExactly.of_overlong {α : Type} {pattern : α → Pattern} {digits : Nat}
    (overlong : Overlong d limit text) :
    ReadExactly d limit text pattern (.error ⟨text, .longNumber digits limit⟩) := by
  have outside : ¬ Within limit text := fun h => h.not_overlong overlong
  refine ⟨fun a => iff_of_false (by simp) fun h => outside h.2,
    iff_of_false ?_ fun h => h.2 overlong, iff_of_true ⟨digits, rfl⟩ overlong⟩
  rintro ⟨cause, same, known⟩
  obtain rfl := (ParseError.mk.inj (Except.error.inj same)).2
  exact absurd known (by simp [ParseCause.isDeclared])

/-- Patterns are read exactly, in both dialects. The text is cut into tokens first, and then it is
one of the three ways in which reading ends. -/
theorem readExactly_parse (d : Dialect) (limit : Nat) (text : String) :
    ReadExactly d limit text id (parse d text limit) := by
  simp only [parse, Token.scan]
  cases hscan : Token.scanFrom 0 text.toList with
  | error stray =>
      -- no tokens, so that the text spells nothing, and no number in it is reached
      have none : ∀ ts, ¬ Token.Lexed 0 text.toList ts := fun ts lexed =>
        absurd (hscan.symm.trans (Token.scanFrom_eq_ok_iff.mpr lexed)) (by simp)
      refine .of_unspelled ?_ ?_ rfl
      · rintro m ⟨ts, lexed, -⟩
        exact none ts lexed
      · rintro ⟨_, _, _, lexed, -⟩
        exact none _ lexed
  | ok ts =>
      have lexed := Token.scanFrom_eq_ok_iff.mp hscan
      have unique : ∀ {us}, Token.Lexed 0 text.toList us → us = ts := fun other =>
        other.unique lexed
      have spells : ∀ m, Spells d text m ↔ Sentence d ts m := by
        refine fun m => ⟨?_, fun hm => ⟨ts, lexed, hm⟩⟩
        rintro ⟨us, other, hm⟩
        exact unique other ▸ hm
      simp only
      rcases read_ends (d := d) limit lexed.closed with
        ⟨fits, m, hm, h⟩ | ⟨none, cause, known, h⟩ | ⟨pre, t, post, rfl, fits, long, us, m, hm⟩
      · rw [h, mapError_ok]
        refine .of_spelled ((within_iff lexed).mpr fits) fun n => (spells n).trans ⟨?_, ?_⟩
        · exact fun hn => Except.ok.inj ((read_of_sentence hn).symm.trans (read_of_sentence hm))
        · exact fun same => same ▸ hm
      · rw [h, mapError_error]
        refine .of_unspelled (fun m hm => none m ((spells m).mp hm)) ?_ known
        rintro ⟨pre, t, post, other, fits, long, us, m, hm⟩
        obtain rfl := unique other
        obtain rfl := Except.error.inj ((read_overlong fits long hm post).symm.trans h)
        exact absurd known (by simp [ParseCause.isDeclared])
      · rw [read_overlong fits long hm post, mapError_error]
        exact .of_overlong ⟨pre, t, post, lexed, fits, long, us, m, hm⟩

/-- Paths are read exactly: they are read as their patterns in the dialect of literals. -/
theorem ReadExactly.path (h : ReadExactly .literal limit text id (parse .literal text limit)) :
    ReadExactly .literal limit text Pattern.ofPath (Path.parse text limit) := by
  refine ⟨fun p => ?_, ?_, ?_⟩
  · rw [Path.parse, map_eq_ok_iff]
    constructor
    · rintro ⟨m, hm, rfl⟩
      obtain ⟨spells, within⟩ := (h.ok m).mp hm
      obtain ⟨_, _, _, _, _, _, segments⟩ := id spells
      obtain ⟨p, rfl⟩ := exists_path_of_segments segments
      rw [filterMap_ofPath]
      exact ⟨spells, within⟩
    · exact fun hp => ⟨_, (h.ok _).mpr hp, filterMap_ofPath p⟩
  · simp only [← h.declared, Path.parse, map_eq_error_iff]
  · simp only [← h.undeclared, Path.parse, map_eq_error_iff]

/-- **Reading accepts exactly the grammar, up to the limit of digits.** A text is read as a path
when it spells the path in the dialect of literals, and as a pattern when it spells the pattern in
the dialect with wildcards and unions, as long as no number in it is too long. Every other text is
an error that tells the text: the declared one, unless the reading comes upon a number that is too
long. Without a limit no number is. -/
theorem parse_exact (limit : Nat) (text : String) :
    ReadExactly .literal limit text Pattern.ofPath (Path.parse text limit) ∧
      ReadExactly .wild limit text id (Pattern.parse text limit) ∧
      Within 0 text ∧ ∀ d, ¬ Overlong d 0 text :=
  ⟨(readExactly_parse .literal limit text).path, readExactly_parse .wild limit text,
    within_zero text, fun d => not_overlong_zero d text⟩

/-! ### Numerals beyond the limit -/

/-- The path to a single index, written with some digits. It is the shortest expression with that
number in it. -/
def numeralText (w : List Char) : String := String.ofList ('$' :: '[' :: (w ++ [']']))

/-- The text of an index is cut into its digits, the brackets around them and the dollar sign. -/
theorem lexed_numeralText {w : List Char} (nonempty : w ≠ [])
    (digits : ∀ c ∈ w, Text.isDigit c = true) :
    ∃ root left right, root.kind = .root ∧ left.kind = .openBracket ∧
      right.kind = .closeBracket ∧
      Token.Lexed 0 (numeralText w).toList [root, left, ⟨.integer, w, 2⟩, right] := by
  have lexeme : Token.IsLexeme (some .integer) w := by
    cases w with
    | nil => exact absurd rfl nonempty
    | cons c cs => exact .integer digits
  have number := Token.Cut.lexeme 2 lexeme (Token.ends_cons (c := ']') rfl [])
  obtain ⟨left, right, hl, hr, cut⟩ := number.brackets
  have dollar := Token.Cut.punctuation (c := '$') 0 rfl ('[' :: (w ++ [']']) ++ [])
  rw [numeralText, String.toList_ofList]
  exact ⟨_, left, right, rfl, hl, hr, (dollar.append cut).lexed⟩

/-- The text of an index spells the path to it, in every dialect. -/
theorem spells_numeralText {w : List Char} (d : Dialect) (nonempty : w ≠ [])
    (digits : ∀ c ∈ w, Text.isDigit c = true) :
    Spells d (numeralText w) (Pattern.ofPath [.index (Nat.ofDigitChars 10 w 0)]) := by
  obtain ⟨root, left, right, hroot, hl, hr, lexed⟩ := lexed_numeralText nonempty digits
  have segment : Segment d [left, ⟨.integer, w, 2⟩, right]
      (.ofComponent (.index (Nat.ofDigitChars 10 w 0))) := .literal hl (by simp) (.integer rfl) hr
  exact ⟨_, lexed, root, _, rfl, hroot, .cons segment .nil⟩

/-- **The text of an index is overlong** exactly when its digits are more than the limit: the number
is the only one, and the text is an expression with any digits. -/
theorem overlong_numeralText_iff {w : List Char} (d : Dialect) (nonempty : w ≠ [])
    (digits : ∀ c ∈ w, Text.isDigit c = true) :
    Overlong d limit (numeralText w) ↔ ¬ Text.Readable limit w := by
  obtain ⟨root, left, right, hroot, hl, hr, lexed⟩ := lexed_numeralText nonempty digits
  have fits : ∀ u ∈ [root, left], u.Fits limit := by
    simp [Token.Fits, hroot, hl]
  constructor
  · intro overlong readable
    have within : Within limit (numeralText w) :=
      (within_iff lexed).mpr (by simp [Token.Fits, hroot, hl, hr, readable])
    exact within.not_overlong overlong
  · intro unreadable
    obtain ⟨ts, other, sentence⟩ := spells_numeralText d nonempty digits
    obtain rfl := other.unique lexed
    exact ⟨[root, left], _, [right], lexed, fits, fun h => unreadable (h rfl), _, _, sentence⟩

/-- **The limit of the interpreter is exceeded** by the path to an index of one digit more: it is in
the grammar, and reading it ends with an error that is not the declared one. -/
theorem not_parse_exact :
    let text := numeralText (List.replicate (Text.standardDigitLimit + 1) '1')
    (∃ p, Spells .literal text (Pattern.ofPath p)) ∧
      (∃ digits, Path.parse text Text.standardDigitLimit =
        .error ⟨text, .longNumber digits Text.standardDigitLimit⟩) ∧
      ∃ digits, Pattern.parse text Text.standardDigitLimit =
        .error ⟨text, .longNumber digits Text.standardDigitLimit⟩ := by
  have digits : ∀ c ∈ List.replicate (Text.standardDigitLimit + 1) '1', Text.isDigit c = true := by
    intro c hc
    obtain rfl := List.eq_of_mem_replicate hc
    rfl
  have nonempty : List.replicate (Text.standardDigitLimit + 1) '1' ≠ [] := by
    rw [List.replicate_succ]
    exact List.cons_ne_nil _ _
  have unreadable : ¬ Text.Readable Text.standardDigitLimit
      (List.replicate (Text.standardDigitLimit + 1) '1') := by
    rw [Text.Readable, List.length_replicate, Text.standardDigitLimit]
    omega
  have overlong : ∀ d, Overlong d Text.standardDigitLimit (numeralText _) := fun d =>
    (overlong_numeralText_iff d nonempty digits).mpr unreadable
  exact ⟨⟨_, spells_numeralText .literal nonempty digits⟩,
    (readExactly_parse .literal _ _).path.undeclared.mpr (overlong .literal),
    (readExactly_parse .wild _ _).undeclared.mpr (overlong .wild)⟩

end Expression

end TreeDelta
