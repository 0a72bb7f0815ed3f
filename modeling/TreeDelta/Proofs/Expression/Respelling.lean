import TreeDelta.Proofs.Expression.Limit

/-!
# Strings between apostrophes

What stands between double quotes can be respelled for apostrophes: every apostrophe is escaped, and
a double quote may lose the backslash that it had, which is decided at each place anew. Backslashes
are paired off from the left in both spellings, by the scanner as by the reader of strings, so a
respelled body stands for the same string (`JsonString.Denoted.respelled`) and is closed by the
apostrophe behind it.

## Main definitions

* `JsonString.Respelled`: the bodies between apostrophes for a body between double quotes.

## Main results

* `JsonString.Denoted.respelled`: a respelled body stands for the same string.
* `Path.parse_quoted`: a text in quotes, in brackets, is read as a path.
* `Path.parse_respelled`: both spellings of a string are read as the path to its property.
-/

namespace TreeDelta

namespace JsonString

variable {w v : List Char} {us : List Nat} {s : String} {c : Char}

/-! ### Respelled bodies -/

/-- The bodies between apostrophes for a body between double quotes. An escape is two characters, so
a backslash that is escaped itself takes no quote along. -/
inductive Respelled : List Char → List Char → Prop where
  /-- The empty body. -/
  | nil : Respelled [] []
  /-- An apostrophe is escaped. -/
  | apostrophe {w v : List Char} (rest : Respelled w v) :
      Respelled ('\x27' :: w) ('\\' :: '\x27' :: v)
  /-- A double quote may lose its backslash. -/
  | bare {w v : List Char} (rest : Respelled w v) : Respelled ('\\' :: '"' :: w) ('"' :: v)
  /-- An escape, that of a double quote among them, may stay. -/
  | escape {c : Char} {w v : List Char} (rest : Respelled w v) :
      Respelled ('\\' :: c :: w) ('\\' :: c :: v)
  /-- Every other character stays. -/
  | plain {c : Char} {w v : List Char} (hq : c ≠ '\x27') (hb : c ≠ '\\') (rest : Respelled w v) :
      Respelled (c :: w) (c :: v)

/-- A character that is neither an apostrophe nor a backslash stays, and what follows it is
respelled. -/
theorem Respelled.of_plain (h : Respelled (c :: w) v) (hq : c ≠ '\x27') (hb : c ≠ '\\') :
    ∃ v', v = c :: v' ∧ Respelled w v' := by
  cases h with
  | apostrophe => exact absurd rfl hq
  | bare | escape => exact absurd rfl hb
  | plain _ _ rest => exact ⟨_, rfl, rest⟩

/-- An escape stays, or is that of a double quote and loses its backslash. -/
theorem Respelled.of_escape (h : Respelled ('\\' :: c :: w) v) :
    ∃ v', Respelled w v' ∧ (v = '\\' :: c :: v' ∨ c = '"' ∧ v = '"' :: v') := by
  cases h with
  | bare rest => exact ⟨_, rest, .inr ⟨rfl, rfl⟩⟩
  | escape rest => exact ⟨_, rest, .inl rfl⟩
  | plain _ hb => exact absurd rfl hb

/-- A respelled body spells the same code units between apostrophes. By induction on the body: what
its first character may become depends on what is spelled there. -/
theorem Spelled.respelled (spelled : Spelled '"' w us) (h : Respelled w v) :
    Spelled '\x27' v us := by
  induction spelled generalizing v with
  | nil =>
      cases h
      exact .nil
  | @plain c w us _ hb control _ ih =>
      by_cases hq : c = '\x27'
      · subst hq
        cases h with
        | apostrophe rest => exact .apostrophe rfl (ih rest)
        | plain hq => exact absurd rfl hq
      · obtain ⟨v, rfl, rest⟩ := h.of_plain hq hb
        exact .plain hq hb control (ih rest)
  | letter he _ ih =>
      obtain ⟨v, rest, rfl | ⟨rfl, rfl⟩⟩ := h.of_escape
      · exact .letter he (ih rest)
      · obtain rfl : _ = 0x22 := by simpa [letters] using he
        exact .plain (c := '"') (by decide) (by decide) (by decide) (ih rest)
  | apostrophe hq => exact absurd hq (by decide)
  | unit hn _ ih =>
      obtain ⟨v₀, r₀, rfl | ⟨hu, -⟩⟩ := h.of_escape
      · have digits := hn
        obtain ⟨_, _, _, _, ha, hb, hc, hd, -⟩ := digits
        obtain ⟨v₁, rfl, r₁⟩ := r₀.of_plain ha.plain.2.1 ha.plain.2.2
        obtain ⟨v₂, rfl, r₂⟩ := r₁.of_plain hb.plain.2.1 hb.plain.2.2
        obtain ⟨v₃, rfl, r₃⟩ := r₂.of_plain hc.plain.2.1 hc.plain.2.2
        obtain ⟨v₄, rfl, r₄⟩ := r₃.of_plain hd.plain.2.1 hd.plain.2.2
        exact .unit hn (ih r₄)
      · exact absurd hu (by decide)

/-- **A respelled body stands for the same string**, as code units are joined in the same way
between both kinds of quotes. -/
theorem Denoted.respelled (denoted : Denoted '"' w s) (h : Respelled w v) : Denoted '\x27' v s := by
  obtain ⟨us, spelled, joined⟩ := denoted
  exact ⟨us, spelled.respelled h, joined⟩

end JsonString

namespace Path

open Token Expression JsonString

/-- **A text in quotes, in brackets, is read as a path**: it is one token, which ends at the quote
behind the body, and stands for the property that the body does. There is no number in it, so it is
within every limit of digits. -/
theorem parse_quoted {k : TokenKind} {quote : Char} {w : List Char} {s : String} (limit : Nat)
    (kind : k.quote? = some quote) (body : Denoted quote w s) :
    Path.parse (String.ofList ('$' :: '[' :: (quote :: (w ++ [quote]) ++ [']']))) limit =
      .ok [.property s] := by
  have span : Span quote w := by
    obtain ⟨us, spelled, -⟩ := body
    exact spelled.span ((TokenKind.quote?_eq_some kind).imp And.right And.right)
  have stops : Stops (some k) [']'] := by
    rcases TokenKind.quote?_eq_some kind with ⟨rfl, -⟩ | ⟨rfl, -⟩ <;> trivial
  have name : k ≠ .name := by
    rintro rfl
    exact absurd kind (by simp [TokenKind.quote?])
  have integer : k ≠ .integer := by
    rintro rfl
    exact absurd kind (by simp [TokenKind.quote?])
  have token : Cut 2 (quote :: (w ++ [quote])) [⟨k, quote :: (w ++ [quote]), 2⟩] [']'] :=
    Cut.lexeme 2 (.quoted kind span) stops
  obtain ⟨left, right, hl, hr, cut⟩ := token.brackets
  have dollar := Cut.punctuation (c := '$') 0 rfl ('[' :: (quote :: (w ++ [quote]) ++ [']']) ++ [])
  have segment : Segment .literal (left :: ([⟨k, quote :: (w ++ [quote]), 2⟩] ++ [right]))
      (.ofComponent (.property s)) := .literal hl name (.quoted kind rfl body) hr
  have segments := Segments.cons segment .nil
  rw [List.append_nil] at segments
  have lexed := (dollar.append cut).lexed
  rw [List.singleton_append, ← String.toList_ofList (l := '$' :: _)] at lexed
  have within : Within limit (String.ofList ('$' :: _)) :=
    (within_iff lexed).mpr (by simp [Fits, hl, hr, integer])
  exact ((readExactly_parse .literal limit _).path.ok _).mpr
    ⟨⟨_, lexed, _, _, rfl, rfl, segments⟩, within⟩

/-- **Both spellings of a string are read as one path**: a string between apostrophes, respelled
from the body of its canonical text in any way, is read as the path to its property, as the
canonical text is. This is so whatever the limit of digits. -/
theorem parse_respelled {s : String} {v : List Char} (limit : Nat)
    (h : Respelled (encodeBody s.toList) v) :
    Path.parse ("$['" ++ String.ofList v ++ "']") limit = .ok [.property s] ∧
      Path.parse ("$[" ++ encode s ++ "]") limit = .ok [.property s] := by
  have canonical := denoted_encodeBody s
  have single := parse_quoted (k := .singleQuoted) limit rfl (canonical.respelled h)
  have double := parse_quoted (k := .doubleQuoted) limit rfl canonical
  constructor
  · rw [← single]
    congr 1
    simp [← String.toList_inj]
  · rw [← double]
    congr 1
    simp [← String.toList_inj, toList_encode]

/-- A string with a backslash, both kinds of quotes and a line feed. Of its two double quotes, only
the first one keeps its backslash. -/
theorem parse_respelled_quotes :
    let s := "\\\"'\n\""
    let v := "\\\\\\\"\\'\\n\"".toList
    Respelled (encodeBody s.toList) v ∧
      Path.parse ("$['" ++ String.ofList v ++ "']") = .ok [.property s] ∧
      Path.parse ("$[" ++ encode s ++ "]") = .ok [.property s] := by
  have respelled : Respelled (encodeBody "\\\"'\n\"".toList) "\\\\\\\"\\'\\n\"".toList :=
    .escape (.escape (.apostrophe (.escape (.bare .nil))))
  exact ⟨respelled, parse_respelled 0 respelled⟩

end Path

end TreeDelta
