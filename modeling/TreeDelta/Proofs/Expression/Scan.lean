import Mathlib.Data.List.Basic
import TreeDelta.Proofs.Expression.Lexeme

/-!
# Scanning loses nothing

The tokens of a text lie in it from left to right, and what no token covers is white space
(`Token.Covering`). Where one token ends and the next one begins does not depend on the white space
between them: the texts of the tokens, with single spaces between them, are cut into the same tokens
again (`Token.exists_lexed_spaced`). A scan that stops has taken the text before the stray character
apart, and nothing that the grammar knows starts at that character.

## Main definitions

* `Token.Covering`: tokens that lie in a text one after the other and leave out white space only.
* `Token.spaced`: the texts of some tokens with single spaces between them.

## Main results

* `Token.Lexed.covering`: the tokens of a text cover it.
* `Token.exists_lexed_spaced`: the spaced texts of tokens are cut into the same tokens.
* `Token.lexed_of_scanFrom_eq_error`: what a scan that stops has taken apart.
* `Token.scan_loses_nothing`: scanning, whether it ends or stops.
-/

namespace TreeDelta.Token

variable {c : Char} {k : TokenKind} {p : Char → Bool} {w v rest cs : List Char} {n i : Nat}
  {t u : Token} {ts : List Token} {stray : Stray}

/-! ### Tokens that cover a text -/

/-- A token stands over a position: the position lies between the first character of the token and
the end of its text. -/
def Over (t : Token) (i : Nat) : Prop := t.position ≤ i ∧ i < t.position + t.text.length

/-- Tokens lie one after the other in a text that starts at a position, and leave out white space
only. -/
structure Covering (n : Nat) (cs : List Char) (ts : List Token) : Prop where
  /-- Positions increase, and a token ends before the next one begins. -/
  ordered : ts.Pairwise fun t u =>
    t.position < u.position ∧ t.position + t.text.length ≤ u.position
  /-- The text of a token stands at its position. -/
  placed : ∀ t ∈ ts, n ≤ t.position ∧ t.text <+: cs.drop (t.position - n)
  /-- A character that no token stands over is white space. -/
  gaps : ∀ i c, cs[i]? = some c → (∀ t ∈ ts, ¬ t.Over (n + i)) → Text.isBlank c = true

/-- The tokens behind the start of a text stand where they stand in the whole text. -/
theorem Covering.placed_append (h : Covering (n + w.length) rest ts) (ht : t ∈ ts) :
    n + w.length ≤ t.position ∧ t.text <+: (w ++ rest).drop (t.position - n) := by
  obtain ⟨low, start⟩ := h.placed t ht
  obtain ⟨d, hd⟩ := Nat.exists_eq_add_of_le low
  have near : t.position - (n + w.length) = d := by omega
  have far : t.position - n = w.length + d := by omega
  rw [near] at start
  rw [far, List.drop_length_add_append]
  exact ⟨low, start⟩

/-- A character behind the start of a text that no token stands over is white space. -/
theorem Covering.gaps_append (h : Covering (n + w.length) rest ts) (hi : w.length ≤ i)
    (hc : (w ++ rest)[i]? = some c) (free : ∀ t ∈ ts, ¬ t.Over (n + i)) :
    Text.isBlank c = true := by
  rw [List.getElem?_append_right hi] at hc
  refine h.gaps (i - w.length) c hc fun t ht => ?_
  have same : n + w.length + (i - w.length) = n + i := by omega
  rw [same]
  exact free t ht

/-- A token before the tokens that cover what follows it. The token is not empty, so positions
increase. -/
theorem Covering.token (nonempty : w ≠ []) (h : Covering (n + w.length) rest ts) :
    Covering n (w ++ rest) (⟨k, w, n⟩ :: ts) where
  ordered := by
    have long := List.length_pos_iff.mpr nonempty
    refine List.pairwise_cons.mpr ⟨fun u hu => ?_, h.ordered⟩
    have := (h.placed u hu).1
    exact ⟨Nat.lt_of_lt_of_le (Nat.lt_add_of_pos_right long) this, this⟩
  placed := by
    refine List.forall_mem_cons.mpr ⟨⟨Nat.le_refl n, ?_⟩, fun t ht => ?_⟩
    · rw [Nat.sub_self, List.drop_zero]
      exact List.prefix_append w rest
    · obtain ⟨low, start⟩ := h.placed_append ht
      exact ⟨by omega, start⟩
  gaps i c hc free := by
    obtain ⟨outside, others⟩ := List.forall_mem_cons.mp free
    have behind : w.length ≤ i := Nat.le_of_not_lt fun inside =>
      outside ⟨Nat.le_add_right n i, Nat.add_lt_add_left inside n⟩
    exact h.gaps_append behind hc others

/-- White space before the tokens that cover what follows it. -/
theorem Covering.blank (blanks : ∀ c ∈ w, Text.isBlank c = true)
    (h : Covering (n + w.length) rest ts) : Covering n (w ++ rest) ts where
  ordered := h.ordered
  placed t ht := by
    obtain ⟨low, start⟩ := h.placed_append ht
    exact ⟨by omega, start⟩
  gaps i c hc free := by
    rcases Nat.lt_or_ge i w.length with inside | behind
    · rw [List.getElem?_append_left inside] at hc
      exact blanks c (List.mem_of_getElem? hc)
    · exact h.gaps_append behind hc free

/-- A lexeme is not empty. -/
theorem IsLexeme.ne_nil {k : Option TokenKind} (h : IsLexeme k w) : w ≠ [] := by
  cases h <;> exact List.cons_ne_nil _ _

/-- White space is made of white space. -/
theorem IsLexeme.blanks (h : IsLexeme none w) : ∀ c ∈ w, Text.isBlank c = true := by
  cases h with
  | blank blanks => exact blanks

/-- **The tokens of a text cover it.** By induction on how the text is cut. -/
theorem Lexed.covering (h : Lexed n cs ts) : Covering n cs ts := by
  induction h with
  | nil => exact ⟨.nil, by simp, by simp⟩
  | token lexeme _ _ ih => exact ih.token lexeme.ne_nil
  | blank lexeme _ _ ih => exact ih.blank lexeme.blanks

/-! ### Spaces between tokens -/

/-- The texts of some tokens with single spaces between them. Where they stood before is
forgotten. -/
def spaced (ts : List Token) : List Char := [' '].intercalate (ts.map text)

/-- What a token is, wherever it stands: its class and its text. -/
def form (t : Token) : TokenKind × List Char := (t.kind, t.text)

/-- The tokens of a text are lexemes of their classes. -/
theorem Lexed.isLexeme (h : Lexed n cs ts) : ∀ t ∈ ts, IsLexeme (some t.kind) t.text := by
  induction h with
  | nil => simp
  | token lexeme _ _ ih => exact List.forall_mem_cons.mpr ⟨lexeme, ih⟩
  | blank _ _ _ ih => exact ih

/-- A space makes no token longer. -/
theorem stops_space (k : TokenKind) (rest : List Char) : Stops (some k) (' ' :: rest) := by
  cases k with
  | integer | name => exact ends_cons (by decide) rest
  | _ => trivial

/-- A token starts with no white space. -/
theorem IsLexeme.ends_blank (h : IsLexeme (some k) w) (rest : List Char) :
    Ends Text.isBlank (w ++ rest) := by
  cases h with
  | quoted kind =>
      refine ends_cons ?_ _
      rcases TokenKind.quote?_eq_some kind with ⟨-, rfl⟩ | ⟨-, rfl⟩ <;> decide
  | @integer c _ digits =>
      refine ends_cons (Bool.eq_false_iff.mpr fun blank => ?_) _
      have := bounds_of_isDigit (digits c List.mem_cons_self)
      have := bounds_of_isBlank blank
      omega
  | name start =>
      refine ends_cons (Bool.eq_false_iff.mpr fun blank => ?_) _
      have := bounds_of_isIdentifierStart start
      have := bounds_of_isBlank blank
      omega
  | @punctuation c k kind =>
      have visible : ∀ e ∈ Token.punctuation, Text.isBlank e.1 = false := by decide
      exact ends_cons (visible (c, k) kind) _

/-- **Boundaries do not depend on the spacing**: the texts of tokens, with single spaces between
them, are cut into the same tokens. Only their positions change. -/
theorem exists_lexed_spaced (lexemes : ∀ t ∈ ts, IsLexeme (some t.kind) t.text) (n : Nat) :
    ∃ us, Lexed n (spaced ts) us ∧ us.map form = ts.map form := by
  induction ts generalizing n with
  | nil => exact ⟨[], .nil, rfl⟩
  | cons t ts ih =>
      obtain ⟨first, others⟩ := List.forall_mem_cons.mp lexemes
      cases ts with
      | nil =>
          have alone : spaced [t] = t.text ++ [] := by simp [spaced]
          have stops : Stops (some t.kind) [] := by
            cases t.kind with
            | integer | name => exact fun _ hc => absurd hc (by simp)
            | _ => trivial
          rw [alone]
          exact ⟨[⟨t.kind, t.text, n⟩], .token first stops .nil, rfl⟩
      | cons u ts =>
          have next := others u List.mem_cons_self
          -- the space is white space of its own, because a token comes next
          obtain ⟨us, lexed, forms⟩ := ih others (n + t.text.length + 1)
          have starts : ∃ rest, spaced (u :: ts) = u.text ++ rest := by
            cases ts with
            | nil => exact ⟨[], by simp [spaced]⟩
            | cons x xs => exact ⟨' ' :: spaced (x :: xs), by simp [spaced]⟩
          obtain ⟨rest, hrest⟩ := starts
          have gap : Lexed (n + t.text.length) ([' '] ++ spaced (u :: ts)) us :=
            .blank (.blank (List.forall_mem_singleton.mpr (by decide)))
              (hrest ▸ next.ends_blank rest) lexed
          have split : spaced (t :: u :: ts) = t.text ++ (' ' :: spaced (u :: ts)) := by
            simp [spaced]
          rw [split]
          refine ⟨⟨t.kind, t.text, n⟩ :: us, .token first (stops_space _ _) gap, ?_⟩
          rw [List.map_cons, forms, List.map_cons]
          rfl

/-! ### Scans that stop -/

/-- What may follow a lexeme may follow it when less comes after. -/
theorem Stops.of_append {k : Option TokenKind} (h : Stops k (v ++ rest)) : Stops k v := by
  have ends : ∀ {p : Char → Bool}, Ends p (v ++ rest) → Ends p v := by
    intro p h c hc
    refine h c ?_
    cases v with
    | nil => exact absurd hc (by simp)
    | cons d v => exact hc
  match k, h with
  | some .integer, h | some .name, h | none, h => exact ends h
  | some .singleQuoted, _ | some .doubleQuoted, _ | some .root, _ | some .openBracket, _
  | some .closeBracket, _ | some .dot, _ | some .comma, _ | some .star, _ => trivial

/-- Where a text in the grammar starts, the scanner finds a lexeme. It may find a longer one. -/
theorem IsLexeme.isSome_lexeme? {k : Option TokenKind} (h : IsLexeme k w) (rest : List Char) :
    (lexeme? (w ++ rest)).isSome = true := by
  cases h with
  | @quoted k quote v kind span =>
      have stops : Stops (some k) rest := by
        rcases TokenKind.quote?_eq_some kind with ⟨rfl, -⟩ | ⟨rfl, -⟩ <;> trivial
      rw [lexeme?_eq_some_iff.mpr ⟨rest, rfl, .quoted kind span, stops⟩]
      rfl
  | @integer c _ digits =>
      rw [List.cons_append, lexeme?_digit (digits c List.mem_cons_self)]
      rfl
  | name start =>
      rw [List.cons_append, lexeme?_identifier start]
      rfl
  | punctuation kind =>
      rw [List.cons_append, lexeme?_punctuation kind]
      rfl
  | @blank c _ blanks =>
      rw [List.cons_append, lexeme?_blank (blanks c List.mem_cons_self)]
      rfl

/-- **A scan that stops** has taken the text before the stray character apart, and finds no lexeme
at that character. -/
theorem lexed_of_scanFrom_eq_error (h : scanFrom n cs = .error stray) :
    ∃ w rest ts, cs = w ++ stray.char :: rest ∧ stray.position = n + w.length ∧ Lexed n w ts ∧
      lexeme? (stray.char :: rest) = none := by
  fun_induction scanFrom n cs with
  | case1 => exact absurd h (by simp)
  | case2 n c rest hl =>
      obtain rfl := Except.error.inj h
      exact ⟨[], rest, [], rfl, rfl, .nil, hl⟩
  | case3 n c cs kind text hl ih =>
      obtain ⟨rest, hcs, lexeme, stops⟩ := lexeme?_eq_some_iff.mp hl
      rw [hcs, List.drop_left] at ih h
      obtain ⟨w, after, ts, rfl, hpos, lexed, none⟩ := ih (map_eq_error_iff.mp h)
      have position : stray.position = n + (text ++ w).length := by
        rw [hpos, List.length_append, Nat.add_assoc]
      refine ⟨text ++ w, after, consLexeme kind text n ts, ?_, position, ?_, none⟩
      · rw [hcs, List.append_assoc]
      · cases kind with
        | none => exact .blank lexeme stops.of_append lexed
        | some k => exact .token lexeme stops.of_append lexed

/-! ### Scans -/

/-- **Scanning loses nothing**: the tokens of a text lie in it one after the other, only white space
is left out, and their texts with single spaces between them are cut into the same tokens. Where
scanning stops, the text before the stray character can be scanned, and no token and no white space
starts at that character. -/
theorem scan_loses_nothing (cs : List Char) :
    (∀ ts, scan cs = .ok ts →
      Covering 0 cs ts ∧ ∃ us, scan (spaced ts) = .ok us ∧ us.map form = ts.map form) ∧
    ∀ stray, scan cs = .error stray →
      cs[stray.position]? = some stray.char ∧ (∃ ts, scan (cs.take stray.position) = .ok ts) ∧
        ∀ k w, w <+: cs.drop stray.position → ¬ IsLexeme k w := by
  constructor
  · intro ts h
    have lexed : Lexed 0 cs ts := scanFrom_eq_ok_iff.mp h
    obtain ⟨us, again, forms⟩ := exists_lexed_spaced lexed.isLexeme 0
    exact ⟨lexed.covering, us, scanFrom_eq_ok_iff.mpr again, forms⟩
  · intro stray h
    obtain ⟨w, rest, ts, rfl, position, lexed, none⟩ := lexed_of_scanFrom_eq_error h
    rw [Nat.zero_add] at position
    rw [position]
    refine ⟨by simp, ⟨ts, ?_⟩, ?_⟩
    · rw [List.take_left]
      exact scanFrom_eq_ok_iff.mpr lexed
    · rintro k v ⟨after, hv⟩ lexeme
      have found := lexeme.isSome_lexeme? after
      rw [hv, List.drop_left, none] at found
      exact absurd found (by simp)

/-- A text in quotes with a space and an escaped quote in it, and a number that a letter follows at
once; a quote that is not closed. These are the places where cutting could go wrong. -/
theorem scan_loses_nothing_quotes :
    (Covering 0 "['a \\' b']\t7x".toList [⟨.openBracket, ['['], 0⟩,
        ⟨.singleQuoted, "'a \\' b'".toList, 1⟩, ⟨.closeBracket, [']'], 9⟩, ⟨.integer, ['7'], 11⟩,
        ⟨.name, ['x'], 12⟩]) ∧
      ∀ k w, w <+: "\"b".toList → ¬ IsLexeme k w := by
  have tokens : scan "['a \\' b']\t7x".toList = .ok [⟨.openBracket, ['['], 0⟩,
      ⟨.singleQuoted, "'a \\' b'".toList, 1⟩, ⟨.closeBracket, [']'], 9⟩, ⟨.integer, ['7'], 11⟩,
      ⟨.name, ['x'], 12⟩] := by
    cbv
  have unclosed : scan "$ \"b".toList = .error ⟨'"', 2⟩ := by cbv
  exact ⟨((scan_loses_nothing _).1 _ tokens).1, ((scan_loses_nothing _).2 _ unclosed).2.2⟩

end TreeDelta.Token
