import TreeDelta.Expression.Parse
import TreeDelta.Proofs.Expression.Literal

/-!
# The grammar of path expressions

A path expression is a dollar sign and any number of segments, and each segment spells one selector:
a dot with an identifier, or brackets around a number or a text in quotes. Patterns have three more
segments: a dot or brackets with a star, and brackets around two or more literals with commas
between them, where a literal may be an identifier, too.

Reading takes one token at a time, so it agrees with the grammar by what has led to each phase: the
tokens of a segment that is not finished yet. The grammar knows no limit of digits, so it is what is
read without one; `TreeDelta.Proofs.Expression.Limit` says what is read with one.

## Main definitions

* `Expression.Segment`, `Expression.Members`: the tokens that spell a selector, and those that spell
  the members of a union.
* `Expression.Sentence`, `Expression.Spells`: the tokens that spell a pattern, and the texts.
* `Expression.Leads`: the tokens of an unfinished segment that lead to a phase.

## Main results

* `Expression.read_segment`: the tokens of a segment are read as the selector.
* `Expression.segments_of_read`: whatever is read is spelled by segments.
* `Expression.parse_eq_ok_iff`, `Expression.parsePath_eq_ok_iff`: a text is read as a pattern, or as
  a path, exactly when it spells the pattern, or that of the path.
-/

namespace TreeDelta

namespace Expression

/-! ### Grammar -/

/-- The tokens that spell the members of a union: literals with commas between them. There is one
member at least, and no comma at either end. -/
inductive Members : List Token → List Component → Prop where
  /-- The last member. -/
  | last {t : Token} {c : Component} (ht : t.Denotes c) : Members [t] [c]
  /-- A member and a comma before other members. -/
  | cons {t comma : Token} {ts : List Token} {c : Component} {cs : List Component}
      (ht : t.Denotes c) (hcomma : comma.kind = .comma) (rest : Members ts cs) :
      Members (t :: comma :: ts) (c :: cs)

/-- The tokens that spell a selector. Only literals spell one in every dialect; wildcards and unions
are selectors of the larger dialect. -/
inductive Segment (d : Dialect) : List Token → Selector → Prop where
  /-- A dot and an identifier. -/
  | name {dot t : Token} {c : Component} (hdot : dot.kind = .dot) (kind : t.kind = .name)
      (ht : t.Denotes c) : Segment d [dot, t] (.ofComponent c)
  /-- A number or a text in quotes, in brackets. -/
  | literal {left t right : Token} {c : Component} (hl : left.kind = .openBracket)
      (kind : t.kind ≠ .name) (ht : t.Denotes c) (hr : right.kind = .closeBracket) :
      Segment d [left, t, right] (.ofComponent c)
  /-- A dot and a star. -/
  | anyProperty {dot star : Token} (wild : d = .wild) (hdot : dot.kind = .dot)
      (hstar : star.kind = .star) : Segment d [dot, star] .anyProperty
  /-- A star in brackets. -/
  | anyIndex {left star right : Token} (wild : d = .wild) (hl : left.kind = .openBracket)
      (hstar : star.kind = .star) (hr : right.kind = .closeBracket) :
      Segment d [left, star, right] .anyIndex
  /-- Two or more literals in brackets. -/
  | union {left right : Token} {ts : List Token} {a b : Component} {others : List Component}
      (wild : d = .wild) (hl : left.kind = .openBracket) (members : Members ts (a :: b :: others))
      (hr : right.kind = .closeBracket) :
      Segment d (left :: (ts ++ [right])) (.union a b others)

/-- The tokens that spell the selectors of a pattern, one segment after the other. -/
inductive Segments (d : Dialect) : List Token → Pattern → Prop where
  /-- No tokens and no selectors. -/
  | nil : Segments d [] []
  /-- A segment before other segments. -/
  | cons {ts us : List Token} {s : Selector} {m : Pattern} (segment : Segment d ts s)
      (rest : Segments d us m) : Segments d (ts ++ us) (s :: m)

/-- The tokens that spell a pattern: a dollar sign and the segments. The dollar sign alone spells
the pattern of the root. -/
def Sentence (d : Dialect) (ts : List Token) (m : Pattern) : Prop :=
  ∃ root rest, ts = root :: rest ∧ root.kind = .root ∧ Segments d rest m

/-- A text spells a pattern when it is cut into tokens that do. Neither the scanner nor the reader
is mentioned here: this is the grammar that both are measured by. -/
def Spells (d : Dialect) (text : String) (m : Pattern) : Prop :=
  ∃ ts, Token.Lexed 0 text.toList ts ∧ Sentence d ts m

variable {d : Dialect} {t : Token} {ts us : List Token} {c : Component} {cs : List Component}
  {s : Selector} {m : Pattern}

/-! ### Literals -/

/-- A closed literal is read as what it stands for. Tokens that come from a text are closed
(`Token.Lexed.closed`). -/
theorem literal_eq_ok_iff (closed : t.Closed) (kind : t.kind.isLiteral = true) :
    literal t = .ok c ↔ t.Denotes c := by
  rw [literal, mapError_eq_ok_iff, Token.component_eq_ok_iff closed kind]

/-- What stands for something is read. -/
theorem literal_of_denotes (h : t.Denotes c) : literal t = .ok c :=
  (literal_eq_ok_iff h.closed h.isLiteral).mpr h

/-! ### Whatever is spelled is read -/

/-- A literal that is no identifier is read after an opening bracket. -/
theorem read_bracket_literal (ht : t.Denotes c) (kind : t.kind ≠ .name) :
    read d .afterBracket (t :: ts) = read d (.afterLiteral c) ts := by
  cases hk : t.kind with
  | integer | doubleQuoted | singleQuoted =>
      simp only [read, hk, literal_of_denotes ht]
      rfl
  | name => exact absurd hk kind
  | _ => exact absurd ht.isLiteral (by simp [hk, TokenKind.isLiteral])

/-- The first member of a union is read up to its comma. -/
theorem read_first_member (ht : t.Denotes c) {comma : Token} (hcomma : comma.kind = .comma) :
    read .wild .afterBracket (t :: comma :: ts) = read .wild (.afterComma c []) ts := by
  by_cases kind : t.kind = .name
  · obtain rfl := (Token.denotes_name kind).mp ht
    simp [read, kind, hcomma]
  · rw [read_bracket_literal ht kind]
    simp [read, hcomma]

/-- Another member of a union is read after a comma. The phase after it depends on whether it is the
second one. -/
theorem read_next_member (ht : t.Denotes c) (first : Component) (others : List Component) :
    read d (.afterComma first others) (t :: ts) = read d (Phase.addMember first others c) ts := by
  cases hk : t.kind with
  | integer | doubleQuoted | singleQuoted | name =>
      simp only [read, hk, literal_of_denotes ht]
      rfl
  | _ => exact absurd ht.isLiteral (by simp [hk, TokenKind.isLiteral])

/-- The members of a union are read up to the closing bracket. The induction is on the members;
`split` says which of them comes second, counting those read before. -/
theorem read_members (h : Members ts cs) {right : Token} (hr : right.kind = .closeBracket)
    {first b : Component} {others more : List Component} (split : others ++ cs = b :: more) :
    read d (.afterComma first others) (ts ++ right :: us) =
      (read d .between us).map (.union first b more :: ·) := by
  induction h generalizing others with
  | @last t c ht =>
      rw [List.singleton_append, read_next_member ht]
      cases others with
      | nil =>
          obtain ⟨rfl, rfl⟩ := List.cons.inj split
          simp [Phase.addMember, read, hr]
      | cons o others =>
          obtain ⟨rfl, rfl⟩ := List.cons.inj split
          simp [Phase.addMember, read, hr]
  | @cons t comma ts c cs ht hcomma _ ih =>
      have goes : read d (Phase.addMember first others c) (comma :: (ts ++ right :: us)) =
          read d (.afterComma first (others ++ [c])) (ts ++ right :: us) := by
        cases others <;> simp [Phase.addMember, read, hcomma]
      rw [List.cons_append, List.cons_append, read_next_member ht, goes]
      exact ih (by rw [List.append_assoc]; exact split)

/-- **The tokens of a segment are read** as the selector that they spell, whatever comes behind
them. -/
theorem read_segment (h : Segment d ts s) (us : List Token) :
    read d .between (ts ++ us) = (read d .between us).map (s :: ·) := by
  cases h with
  | name hdot kind ht =>
      simp [read, hdot, kind, literal_of_denotes ht, bind, Except.bind]
  | @literal left t right c hl kind ht hr =>
      have opened : read d .between ([left, t, right] ++ us) =
          read d .afterBracket (t :: right :: us) := by
        simp [read, hl]
      rw [opened, read_bracket_literal ht kind]
      simp [read, hr]
  | anyProperty wild hdot hstar =>
      subst wild
      simp [read, hdot, hstar]
  | anyIndex wild hl hstar hr =>
      subst wild
      simp [read, hl, hstar, hr]
  | @union left right ts a b others wild hl members hr =>
      subst wild
      cases members with
      | @cons t comma ts a cs ht hcomma rest =>
          have opened : read .wild .between (left :: (t :: comma :: ts ++ [right]) ++ us) =
              read .wild .afterBracket (t :: comma :: (ts ++ right :: us)) := by
            simp [read, hl]
          rw [opened, read_first_member ht hcomma]
          exact read_members rest hr rfl

/-- Segments are read as the selectors that they spell. -/
theorem read_segments (h : Segments d ts m) : read d .between ts = .ok m := by
  induction h with
  | nil => rfl
  | cons segment _ ih =>
      rw [read_segment segment, ih]
      rfl

/-! ### Whatever is read is spelled -/

/-- The tokens of an unfinished segment that lead to a phase. This is what a phase remembers of
them, and it is the invariant of reading from the left. -/
inductive Leads (d : Dialect) : List Token → Phase → Prop where
  /-- Nothing leads from segment to segment. -/
  | between : Leads d [] .between
  /-- A dot. -/
  | dot {dot : Token} (hdot : dot.kind = .dot) : Leads d [dot] .afterDot
  /-- An opening bracket. -/
  | bracket {left : Token} (hl : left.kind = .openBracket) : Leads d [left] .afterBracket
  /-- A number or a text in quotes after a bracket. -/
  | literal {left t : Token} {c : Component} (hl : left.kind = .openBracket)
      (kind : t.kind ≠ .name) (ht : t.Denotes c) : Leads d [left, t] (.afterLiteral c)
  /-- An identifier after a bracket. -/
  | name {left t : Token} (wild : d = .wild) (hl : left.kind = .openBracket)
      (kind : t.kind = .name) : Leads d [left, t] (.afterName (String.ofList t.text))
  /-- A star after a bracket. -/
  | star {left star : Token} (wild : d = .wild) (hl : left.kind = .openBracket)
      (hstar : star.kind = .star) : Leads d [left, star] .afterStar
  /-- Members of a union, and a comma. -/
  | comma {left comma : Token} {ts : List Token} {first : Component} {others : List Component}
      (wild : d = .wild) (hl : left.kind = .openBracket) (members : Members ts (first :: others))
      (hcomma : comma.kind = .comma) :
      Leads d (left :: (ts ++ [comma])) (.afterComma first others)
  /-- Two or more members of a union. -/
  | member {left : Token} {ts : List Token} {first second : Component} {others : List Component}
      (wild : d = .wild) (hl : left.kind = .openBracket)
      (members : Members ts (first :: second :: others)) :
      Leads d (left :: ts) (.afterMember first second others)

/-- Members go on with a comma and another member. They are built from the front, but read towards
the end. -/
theorem Members.concat {comma : Token} (h : Members ts cs) (hcomma : comma.kind = .comma)
    (ht : t.Denotes c) : Members (ts ++ [comma, t]) (cs ++ [c]) := by
  induction h with
  | last hs => exact .cons hs hcomma (.last ht)
  | cons hs hcomma' _ ih => exact .cons hs hcomma' ih

/-- Another member after a comma leads to the phase after it, which is the same for the second
member and all later ones. -/
theorem Leads.addMember {pre : List Token} {first : Component} {others : List Component}
    (h : Leads d pre (.afterComma first others)) (ht : t.Denotes c) :
    Leads d (pre ++ [t]) (Phase.addMember first others c) := by
  cases h with
  | @comma left comma ts _ _ wild hl members hcomma =>
      have more := members.concat hcomma ht
      rw [List.cons_append, List.append_assoc, List.singleton_append]
      cases others with
      | nil => exact .member wild hl more
      | cons second others => exact .member wild hl more

/-- **One token** that is read goes on with a segment or ends it. All of the reader is looked at
here, one case for each phase and class of tokens. -/
theorem leads_or_segment {pre : List Token} {phase : Phase} (leads : Leads d pre phase)
    (closed : t.Closed) (h : read d phase (t :: ts) = .ok m) :
    (∃ next, Leads d (pre ++ [t]) next ∧ read d next ts = .ok m) ∨
      ∃ s, Segment d (pre ++ [t]) s ∧ ∃ rest, read d .between ts = .ok rest ∧ s :: rest = m := by
  have denotes : ∀ {c : Component}, t.kind.isLiteral = true → literal t = .ok c → t.Denotes c :=
    fun kind hc => (literal_eq_ok_iff closed kind).mp hc
  -- the tokens that may come next in each phase; every other token is an error
  cases leads with
  | between =>
      cases kind : t.kind with
      | dot => exact .inl ⟨_, .dot kind, by simpa [read, kind] using h⟩
      | openBracket => exact .inl ⟨_, .bracket kind, by simpa [read, kind] using h⟩
      | _ => simp [read, kind] at h
  | dot hdot =>
      cases kind : t.kind with
      | name =>
          simp only [read, kind, bind_eq_ok_iff, map_eq_ok_iff] at h
          obtain ⟨c, hc, h⟩ := h
          exact .inr ⟨_, .name hdot kind (denotes (by rw [kind]; rfl) hc), h⟩
      | star =>
          cases d with
          | literal => simp [read, kind] at h
          | wild =>
              simp only [read, kind, map_eq_ok_iff] at h
              exact .inr ⟨_, .anyProperty rfl hdot kind, h⟩
      | _ => simp [read, kind] at h
  | bracket hl =>
      cases kind : t.kind with
      | integer | doubleQuoted | singleQuoted =>
          simp only [read, kind, bind_eq_ok_iff] at h
          obtain ⟨c, hc, h⟩ := h
          exact .inl ⟨_, .literal hl (by simp [kind]) (denotes (by rw [kind]; rfl) hc), h⟩
      | name =>
          cases d with
          | literal => simp [read, kind] at h
          | wild => exact .inl ⟨_, .name rfl hl kind, by simpa [read, kind] using h⟩
      | star =>
          cases d with
          | literal => simp [read, kind] at h
          | wild => exact .inl ⟨_, .star rfl hl kind, by simpa [read, kind] using h⟩
      | _ => simp [read, kind] at h
  | literal hl other ht =>
      cases kind : t.kind with
      | closeBracket =>
          simp only [read, kind, map_eq_ok_iff] at h
          exact .inr ⟨_, .literal hl other ht kind, h⟩
      | comma =>
          cases d with
          | literal => simp [read, kind] at h
          | wild => exact .inl ⟨_, .comma rfl hl (.last ht) kind, by simpa [read, kind] using h⟩
      | _ => simp [read, kind] at h
  | name wild hl hname =>
      subst wild
      cases kind : t.kind with
      | comma =>
          exact .inl ⟨_, .comma rfl hl (.last (.name hname)) kind, by simpa [read, kind] using h⟩
      | _ => simp [read, kind] at h
  | star wild hl hstar =>
      cases kind : t.kind with
      | closeBracket =>
          simp only [read, kind, map_eq_ok_iff] at h
          exact .inr ⟨_, .anyIndex wild hl hstar kind, h⟩
      | _ => simp [read, kind] at h
  | comma wild hl members hcomma =>
      cases kind : t.kind with
      | integer | doubleQuoted | singleQuoted | name =>
          simp only [read, kind, bind_eq_ok_iff] at h
          obtain ⟨c, hc, h⟩ := h
          have ht := denotes (by rw [kind]; rfl) hc
          exact .inl ⟨_, .addMember (.comma wild hl members hcomma) ht, h⟩
      | _ => simp [read, kind] at h
  | member wild hl members =>
      cases kind : t.kind with
      | closeBracket =>
          simp only [read, kind, map_eq_ok_iff] at h
          exact .inr ⟨_, .union wild hl members kind, h⟩
      | comma => exact .inl ⟨_, .comma wild hl members kind, by simpa [read, kind] using h⟩
      | _ => simp [read, kind] at h

/-- **Whatever is read is spelled**: what has led to a phase and the tokens read from there are
segments. By induction on the tokens, one of which is taken at a time. -/
theorem segments_of_read {pre : List Token} {phase : Phase} (closed : ∀ t ∈ ts, t.Closed)
    (leads : Leads d pre phase) (h : read d phase ts = .ok m) : Segments d (pre ++ ts) m := by
  induction ts generalizing pre phase m with
  | nil =>
      cases leads with
      | between =>
          obtain rfl := Except.ok.inj h
          exact .nil
      | _ => simp [read] at h
  | cons t ts ih =>
      obtain ⟨own, closed⟩ := List.forall_mem_cons.mp closed
      rw [List.append_cons]
      rcases leads_or_segment leads own h with ⟨next, leads, h⟩ | ⟨s, segment, rest, hrest, rfl⟩
      · exact ih closed leads h
      · exact .cons segment (ih closed .between hrest)

/-! ### Whole texts -/

/-- Tokens that spell a pattern are read as it. -/
theorem read_of_sentence (h : Sentence d ts m) : read d .start ts = .ok m := by
  obtain ⟨root, rest, rfl, kind, segments⟩ := h
  simpa [read, kind] using read_segments segments

/-- Closed tokens are read as the pattern that they spell, and they are read when they spell one. -/
theorem read_start_eq_ok_iff (closed : ∀ t ∈ ts, t.Closed) :
    read d .start ts = .ok m ↔ Sentence d ts m := by
  refine ⟨fun h => ?_, read_of_sentence⟩
  cases ts with
  | nil => simp [read] at h
  | cons t ts =>
      cases kind : t.kind with
      | root =>
          obtain ⟨-, closed⟩ := List.forall_mem_cons.mp closed
          have rest : read d .between ts = .ok m := by simpa [read, kind] using h
          exact ⟨t, ts, rfl, kind, segments_of_read closed .between rest⟩
      | _ => simp [read, kind] at h

/-- **A text is read as a pattern** exactly when it spells the pattern. This is without a limit of
digits. -/
theorem parse_eq_ok_iff {text : String} : parse d text = .ok m ↔ Spells d text m := by
  simp only [parse, Spells, ← Token.scanFrom_eq_ok_iff, Token.scan]
  cases hscan : Token.scanFrom 0 text.toList with
  | error stray => simp
  | ok ts =>
      have closed := (Token.scanFrom_eq_ok_iff.mp hscan).closed
      simp [mapError_eq_ok_iff, read_start_eq_ok_iff closed]

/-- Without wildcards and unions, a pattern is that of a path, as each of its selectors is the one
of a component. -/
theorem exists_path_of_segments (h : Segments .literal ts m) : ∃ p, Pattern.ofPath p = m := by
  induction h with
  | nil => exact ⟨[], rfl⟩
  | cons segment _ ih =>
      obtain ⟨p, rfl⟩ := ih
      cases segment with
      | @name dot t c => exact ⟨c :: p, rfl⟩
      | @literal left t right c => exact ⟨c :: p, rfl⟩
      | anyProperty wild | anyIndex wild | union wild => exact absurd wild (by decide)

/-- The components of the pattern of a path are those of the path. -/
theorem filterMap_ofPath (p : Path) : (Pattern.ofPath p).filterMap Selector.component? = p := by
  rw [Pattern.ofPath, List.filterMap_map]
  have literal : Selector.component? ∘ Selector.ofComponent = some := by
    funext c
    cases c <;> rfl
  rw [literal, List.filterMap_some]

/-- A text is read as a path exactly when it spells the pattern of the path. This is without a limit
of digits. -/
theorem parsePath_eq_ok_iff {text : String} {p : Path} :
    Path.parse text = .ok p ↔ Spells .literal text (Pattern.ofPath p) := by
  rw [Path.parse, map_eq_ok_iff]
  constructor
  · rintro ⟨m, hm, rfl⟩
    obtain ⟨_, _, _, _, _, _, segments⟩ := parse_eq_ok_iff.mp hm
    obtain ⟨p, rfl⟩ := exists_path_of_segments segments
    rw [filterMap_ofPath]
    exact parse_eq_ok_iff.mp hm
  · exact fun h => ⟨_, parse_eq_ok_iff.mpr h, filterMap_ofPath p⟩

end Expression

end TreeDelta
