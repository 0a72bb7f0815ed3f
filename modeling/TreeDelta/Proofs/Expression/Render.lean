import TreeDelta.Proofs.Expression.Grammar
import TreeDelta.Proofs.Text.JsonString

/-!
# Canonical texts are read back

The canonical text of a pattern is cut into tokens one selector after the other, and the tokens of
each selector spell the selector. A token of several characters ends where its text ends, because
a dot, a bracket or a comma comes next. A path is the pattern of its components.

## Main definitions

* `Token.Cut`: a text that is cut into tokens in front of another text.

## Main results

* `Pattern.exists_segments`: the canonical text of a pattern is cut into tokens that spell it.
* `Pattern.spells_render`: the canonical text of a pattern spells the pattern.
* `Path.parse_render`, `Path.render_inj`: the canonical text of a path is read back, so different
  paths have different ones.
* `Pattern.text_faithful`: the same for patterns.
-/

namespace TreeDelta

namespace Token

/-! ### Lexemes -/

/-- A number is a run of digits. -/
theorem isLexeme_toDigits (n : Nat) : IsLexeme (some .integer) (Nat.toDigits 10 n) := by
  cases hd : Nat.toDigits 10 n with
  | nil => exact absurd hd Nat.toDigits_ne_nil
  | cons c cs => exact .integer fun d hm => Text.isDigit_of_mem_toDigits (hd ▸ hm)

/-- An identifier is a name. -/
theorem isLexeme_name {s : String} (hs : isIdentifier s = true) :
    IsLexeme (some .name) s.toList := by
  rw [isIdentifier] at hs
  split at hs
  · exact absurd hs (by simp)
  · next c cs hcs =>
      simp only [Bool.and_eq_true, List.all_eq_true] at hs
      rw [hcs]
      exact .name hs.1 hs.2

/-- A written string is a text in quotes. -/
theorem isLexeme_encode (s : String) :
    IsLexeme (some .doubleQuoted) (JsonString.encode s).toList := by
  rw [JsonString.toList_encode]
  exact .quoted rfl (JsonString.span_encodeBody s.toList)

/-! ### Texts that are cut -/

variable {n : Nat} {w v rest : List Char} {ts us : List Token}

/-- A text at a position that is cut into tokens, in front of another text. What is behind matters,
as it may make the last token longer. -/
def Cut (n : Nat) (w : List Char) (ts : List Token) (rest : List Char) : Prop :=
  ∀ us, Lexed (n + w.length) rest us → Lexed n (w ++ rest) (ts ++ us)

/-- No text is cut into no tokens. -/
theorem Cut.nil (n : Nat) (rest : List Char) : Cut n [] [] rest := fun _ h => h

/-- A lexeme is one token. -/
theorem Cut.lexeme {k : TokenKind} (n : Nat) (h : IsLexeme (some k) w)
    (stops : Stops (some k) rest) : Cut n w [⟨k, w, n⟩] rest :=
  fun _ after => .token h stops after

/-- A token of a single character is cut off in front of every text. -/
theorem Cut.punctuation {c : Char} {k : TokenKind} (n : Nat) (kind : punctuation? c = some k)
    (rest : List Char) : Cut n [c] [⟨k, [c], n⟩] rest :=
  have known := punctuation?_eq_some_iff.mp kind
  Cut.lexeme n (.punctuation known) (stops_punctuation known rest)

/-- Texts are cut one after the other. The first one is cut in front of the second one and all that
follows. -/
theorem Cut.append (h : Cut n w ts (v ++ rest)) (h' : Cut (n + w.length) v us rest) :
    Cut n (w ++ v) (ts ++ us) rest := by
  intro xs after
  rw [List.length_append, ← Nat.add_assoc] at after
  rw [List.append_assoc, List.append_assoc]
  exact h _ (h' xs after)

/-- A whole text that is cut. -/
theorem Cut.lexed (h : Cut n w ts []) : Lexed n w ts := by
  have whole := h [] .nil
  rwa [List.append_nil, List.append_nil] at whole

/-- Brackets around a text that is cut. Nothing is asked of what comes behind, since brackets end by
themselves. -/
theorem Cut.brackets (h : Cut (n + 1) w ts (']' :: rest)) :
    ∃ left right, left.kind = .openBracket ∧ right.kind = .closeBracket ∧
      Cut n ('[' :: (w ++ [']'])) (left :: (ts ++ [right])) rest := by
  have left := Cut.punctuation (c := '[') n rfl (w ++ [']'] ++ rest)
  have right := Cut.punctuation (c := ']') (n + 1 + w.length) rfl rest
  exact ⟨_, _, rfl, rfl, left.append (h.append right)⟩

end Token

open Token Expression

/-! ### Components -/

namespace Component

/-- A literal inside brackets is one token, which stands for the component. Of what follows it is
only asked that it does not go on with a digit. -/
theorem exists_literal (c : Component) (n : Nat) {rest : List Char}
    (h : Ends Text.isDigit rest) :
    ∃ t, Cut n (Selector.renderMember c).toList [t] rest ∧ t.Denotes c ∧ t.kind ≠ .name := by
  cases c with
  | index i =>
      have text : (Selector.renderMember (.index i)).toList = Nat.toDigits 10 i := by
        rw [Selector.renderMember, Nat.toString_eq_repr, Nat.toList_repr]
      have token := Denotes.integer (t := ⟨.integer, Nat.toDigits 10 i, n⟩) rfl
      rw [Nat.ofDigitChars_ten_toDigits] at token
      rw [text]
      exact ⟨_, Cut.lexeme n (isLexeme_toDigits i) h, token, by simp⟩
  | property name =>
      have token : Denotes ⟨.doubleQuoted, (JsonString.encode name).toList, n⟩ (.property name) :=
        .quoted rfl (JsonString.toList_encode name) (JsonString.denoted_encodeBody name)
      exact ⟨_, Cut.lexeme n (isLexeme_encode name) trivial, token, by simp⟩

/-- A component is written as a literal in brackets, unless it is an identifier after a dot. These
two cases are all that reading has to deal with. -/
theorem render_eq (c : Component) :
    (∃ name, c = property name ∧ isIdentifier name = true ∧ c.render.toList = '.' :: name.toList) ∨
      c.render.toList = '[' :: ((Selector.renderMember c).toList ++ [']']) := by
  cases c with
  | index i => exact .inr (by simp [render, Selector.renderMember])
  | property name =>
      by_cases hname : isIdentifier name = true
      · exact .inl ⟨name, rfl, hname, by simp [render, hname]⟩
      · exact .inr (by simp [render, hname, Selector.renderMember])

/-- **The canonical text of a component** is cut into tokens that spell it, in every dialect. -/
theorem exists_segment (d : Dialect) (c : Component) (n : Nat) {rest : List Char}
    (h : Ends isIdentifierRest rest) :
    ∃ ts, Cut n c.render.toList ts rest ∧ Segment d ts (.ofComponent c) := by
  rcases c.render_eq with ⟨name, rfl, hname, text⟩ | text
  · have dot := Cut.punctuation (c := '.') n rfl (name.toList ++ rest)
    have token := Denotes.name (t := ⟨.name, name.toList, n + 1⟩) rfl
    rw [String.ofList_toList] at token
    rw [text]
    exact ⟨_, dot.append (Cut.lexeme (n + 1) (isLexeme_name hname) h), .name rfl rfl token⟩
  · obtain ⟨t, cut, ht, kind⟩ := c.exists_literal (n + 1) (ends_cons (c := ']') rfl rest)
    obtain ⟨left, right, hl, hr, cut⟩ := cut.brackets
    rw [text]
    exact ⟨_, cut, .literal hl kind ht hr⟩

end Component

/-! ### Selectors -/

namespace Selector

/-- The canonical text of the members of a union. -/
def memberText (cs : List Component) : List Char := (",".intercalate (cs.map renderMember)).toList

/-- The members of a union are written one after the other, with commas between them. -/
theorem memberText_cons (c b : Component) (cs : List Component) :
    memberText (c :: b :: cs) = (renderMember c).toList ++ ',' :: memberText (b :: cs) := by
  simp [memberText, String.intercalate_cons_cons]

/-- **The members of a union** are cut into tokens that spell them, up to the closing bracket. A
comma behind a member ends it, whatever it is. -/
theorem exists_members (c : Component) (cs : List Component) (n : Nat) (rest : List Char) :
    ∃ ts, Cut n (memberText (c :: cs)) ts (']' :: rest) ∧ Members ts (c :: cs) := by
  induction cs generalizing c n with
  | nil =>
      obtain ⟨t, cut, ht, -⟩ := c.exists_literal n (ends_cons (c := ']') rfl rest)
      have text : memberText [c] = (renderMember c).toList := by simp [memberText]
      rw [text]
      exact ⟨[t], cut, .last ht⟩
  | cons b cs ih =>
      obtain ⟨t, cut, ht, -⟩ := c.exists_literal n
        (ends_cons (c := ',') rfl (memberText (b :: cs) ++ ']' :: rest))
      obtain ⟨ts, others, members⟩ := ih b (n + (renderMember c).toList.length + 1)
      have between := Cut.punctuation (c := ',') (n + (renderMember c).toList.length) rfl
        (memberText (b :: cs) ++ ']' :: rest)
      rw [memberText_cons]
      exact ⟨_, cut.append (between.append others), .cons ht rfl members⟩

/-- The selectors of a dialect: only literals are selectors in every dialect. Texts of other
selectors cannot be read as paths. -/
def IsOf (d : Dialect) (s : Selector) : Prop := d = .wild ∨ ∃ c, ofComponent c = s

/-- A literal selector is written as its component. -/
theorem render_ofComponent (c : Component) : (ofComponent c).render = c.render := by
  cases c <;> rfl

/-- **The canonical text of a selector** is cut into tokens that spell it, if the dialect has the
selector. -/
theorem exists_segment {d : Dialect} {s : Selector} (hs : s.IsOf d) (n : Nat) {rest : List Char}
    (h : Ends isIdentifierRest rest) :
    ∃ ts, Cut n s.render.toList ts rest ∧ Segment d ts s := by
  obtain wild | ⟨c, rfl⟩ := hs
  · cases s with
    | index i => exact (Component.index i).exists_segment d n h
    | property name => exact (Component.property name).exists_segment d n h
    | union a b others =>
        obtain ⟨ts, cut, members⟩ := exists_members a (b :: others) (n + 1) rest
        obtain ⟨left, right, hl, hr, cut⟩ := cut.brackets
        have text : (union a b others).render.toList =
            '[' :: (memberText (a :: b :: others) ++ [']']) := by
          simp [render, memberText]
        rw [text]
        exact ⟨_, cut, .union wild hl members hr⟩
    | anyIndex =>
        have star := Cut.punctuation (c := '*') (n + 1) rfl (']' :: rest)
        obtain ⟨left, right, hl, hr, cut⟩ := star.brackets
        exact ⟨_, cut, .anyIndex wild hl rfl hr⟩
    | anyProperty =>
        have dot := Cut.punctuation (c := '.') n rfl (['*'] ++ rest)
        have star := Cut.punctuation (c := '*') (n + 1) rfl rest
        exact ⟨_, dot.append star, .anyProperty wild rfl rfl⟩
  · rw [render_ofComponent]
    exact c.exists_segment d n h

/-- The canonical text of a selector starts with a dot or a bracket. -/
theorem render_starts (s : Selector) :
    ∃ d cs, s.render.toList = d :: cs ∧ isIdentifierRest d = false := by
  have component : ∀ c : Component,
      ∃ d cs, c.render.toList = d :: cs ∧ isIdentifierRest d = false := by
    intro c
    rcases c.render_eq with ⟨name, -, -, text⟩ | text
    · exact ⟨_, _, text, rfl⟩
    · exact ⟨_, _, text, rfl⟩
  cases s with
  | index i => exact component (.index i)
  | property name => exact component (.property name)
  | union a b others => exact ⟨'[', memberText (a :: b :: others) ++ [']'],
      by simp [render, memberText], rfl⟩
  | anyIndex => exact ⟨_, _, rfl, rfl⟩
  | anyProperty => exact ⟨_, _, rfl, rfl⟩

end Selector

/-! ### Patterns -/

namespace Pattern

/-- The canonical text of the selectors of a pattern. -/
def body (m : Pattern) : List Char := m.flatMap fun s => s.render.toList

/-- The canonical text of a pattern is a dollar sign and the texts of its selectors. -/
theorem toList_render (m : Pattern) : m.render.toList = '$' :: body m := by
  rw [render, String.toList_append, String.toList_join, List.flatMap_map]
  rfl

/-- What follows a selector in a pattern does not prolong an identifier: it is a dot, a bracket or
the end. -/
theorem ends_body (m : Pattern) : Ends isIdentifierRest (body m) := by
  cases m with
  | nil => rintro d ⟨⟩
  | cons s m =>
      obtain ⟨d, cs, hs, hd⟩ := s.render_starts
      rw [body, List.flatMap_cons, hs]
      exact ends_cons hd _

/-- **The canonical text of the selectors of a pattern** is cut into tokens that spell them. -/
theorem exists_segments {d : Dialect} {m : Pattern} (hm : ∀ s ∈ m, s.IsOf d) (n : Nat) :
    ∃ ts, Cut n (body m) ts [] ∧ Segments d ts m := by
  induction m generalizing n with
  | nil => exact ⟨[], Cut.nil n [], .nil⟩
  | cons s m ih =>
      obtain ⟨hs, hm⟩ := List.forall_mem_cons.mp hm
      obtain ⟨us, rest, segments⟩ := ih hm (n + s.render.toList.length)
      obtain ⟨ts, cut, segment⟩ := Selector.exists_segment hs n (ends_body m)
      rw [← List.append_nil (body m)] at cut
      exact ⟨ts ++ us, cut.append rest, .cons segment segments⟩

/-- **The canonical text of a pattern spells the pattern**, in every dialect that has its
selectors. -/
theorem spells_render {d : Dialect} {m : Pattern} (hm : ∀ s ∈ m, s.IsOf d) :
    Spells d m.render m := by
  have dollar := Cut.punctuation (c := '$') 0 rfl (body m ++ [])
  obtain ⟨ts, cut, segments⟩ := exists_segments hm 1
  have lexed := (dollar.append cut).lexed
  rw [List.singleton_append, ← toList_render] at lexed
  exact ⟨_, lexed, _, _, rfl, rfl, segments⟩

/-- **Pattern strings are faithful**: the canonical text of a pattern is read back as the pattern,
so different patterns have different canonical texts. Numbers are read whatever their length. -/
theorem text_faithful :
    (∀ m : Pattern, Pattern.parse m.render = .ok m) ∧
      ∀ m n : Pattern, m.render = n.render ↔ m = n := by
  have parse_render : ∀ m : Pattern, Pattern.parse m.render = .ok m := fun m =>
    parse_eq_ok_iff.mpr (spells_render fun _ _ => .inl rfl)
  refine ⟨parse_render, fun m n => ⟨fun h => ?_, fun h => h ▸ rfl⟩⟩
  have same := parse_render m
  rw [h, parse_render n] at same
  exact (Except.ok.inj same).symm

end Pattern

/-! ### Paths -/

namespace Path

/-- The canonical text of a path is that of its pattern. -/
theorem render_ofPath (p : Path) : (Pattern.ofPath p).render = p.render := by
  rw [Pattern.render, Pattern.ofPath, List.map_map, render]
  congr 2
  exact List.map_congr_left fun c _ => Selector.render_ofComponent c

/-- **The canonical text of a path is read back**, with numbers of any length. -/
theorem parse_render (p : Path) : Path.parse p.render = .ok p := by
  rw [parsePath_eq_ok_iff, ← render_ofPath]
  refine Pattern.spells_render fun s hs => ?_
  obtain ⟨c, -, rfl⟩ := List.mem_map.mp hs
  exact .inr ⟨c, rfl⟩

/-- Different paths have different canonical texts. -/
theorem render_inj {p q : Path} : p.render = q.render ↔ p = q := by
  constructor
  · intro h
    have same : Path.parse p.render = Path.parse q.render := by rw [h]
    rw [parse_render, parse_render] at same
    exact Except.ok.inj same
  · exact fun h => h ▸ rfl

end Path

end TreeDelta
