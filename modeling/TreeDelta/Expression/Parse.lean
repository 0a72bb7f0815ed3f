import TreeDelta.Expression.Token
import TreeDelta.Pattern.Basic

/-!
# Reading path expressions

A path expression is read token by token. What has been read so far is one of a few phases, and
each phase says which tokens may come next. Paths and patterns share the phases: a pattern may
also use the wildcards and the unions.

A text that is no path expression is answered with the one error that is declared for it. There is
one exception: the number of digits that are read as a number is limited by the interpreter, and a
longer number in brackets ends the reading with an error of the interpreter's own. The functions
here take the limit as their last argument and have none by default.

## Main definitions

* `Dialect`: whether wildcards and unions are allowed.
* `Phase`, `Phase.expected`: what has been read, and what a message offers as the next token.
* `Expression.read`: the selectors that a list of tokens spells out.
* `Path.parse`, `Pattern.parse`: paths and patterns from their texts.
* `ParseError`: why a text is no path or no pattern.
-/

namespace TreeDelta

/-- What a path expression may use. Paths are read in the smaller dialect and patterns in the larger
one. -/
inductive Dialect where
  /-- Only literal components. -/
  | literal
  /-- Wildcards and unions, too. -/
  | wild
  deriving DecidableEq, Repr

/-- Why a text is no path expression. -/
inductive ParseCause where
  /-- A character that starts no token. -/
  | strayCharacter (char : Char) (position : Nat)
  /-- The text ends where another token has to come. -/
  | unexpectedEnd (expected : List TokenKind)
  /-- A token that may not stand where it stands. -/
  | unexpectedToken (text : String) (position : Nat) (expected : List TokenKind)
  /-- A quoted text that cannot be read. -/
  | badString (text : String) (fault : JsonString.Fault)
  /-- An identifier in brackets that is no member of a union. -/
  | loneName (name : String)
  /-- A number with more digits than are read. This error is the interpreter's own. -/
  | longNumber (digits limit : Nat)
  deriving DecidableEq, Repr

/-- Whether an error is the one that is declared for texts that are no path expressions. Callers
that handle this one do not handle the interpreter's own. -/
def ParseCause.isDeclared : ParseCause → Bool
  | longNumber _ _ => false
  | _ => true

/-- The error of a literal token with a text. -/
def ParseCause.ofLiteral (text : String) : Token.LiteralFault → ParseCause
  | .string fault => badString text fault
  | .digits count limit => longNumber count limit

/-- A text that is no path expression, and the cause. The message shows both. -/
structure ParseError where
  /-- The whole text. -/
  text : String
  /-- What is wrong with it. -/
  cause : ParseCause
  deriving DecidableEq, Repr

/-- The words for the classes of tokens that may come next. -/
def expectedText (expected : List TokenKind) : String :=
  ", ".intercalate (expected.map TokenKind.word)

/-- The wording of an error. Positions are counted in characters from zero; the error of a lone
identifier names none. -/
def ParseError.message (e : ParseError) : String :=
  let whole := Text.quoted e.text
  match e.cause with
  | .strayCharacter c position =>
    "Unexpected character " ++ Text.quoted c.toString ++ " at position " ++ toString position
      ++ " in " ++ whole
  | .unexpectedEnd expected =>
    "Unexpected end of " ++ whole ++ ", expected one of " ++ expectedText expected
  | .unexpectedToken text position expected =>
    "Unexpected " ++ Text.quoted text ++ " at position " ++ toString position
      ++ " in " ++ whole ++ ", expected one of " ++ expectedText expected
  | .badString text fault =>
    "Invalid string " ++ text ++ " in " ++ whole ++ ": " ++ fault.message
  | .loneName name =>
    "Unexpected " ++ Text.quoted name ++ " in " ++ whole
      ++ ", identifiers in brackets are only allowed in unions"
  | .longNumber digits limit =>
    "Exceeds the limit (" ++ toString limit ++ " digits) for integer string conversion: value has "
      ++ toString digits ++ " digits; use sys.set_int_max_str_digits() to increase the limit"

/-! ### Phases -/

/-- What has been read of a path expression, as far as it matters for what may come next. Reading is
an automaton over these phases, one step for every token. -/
inductive Phase where
  /-- Nothing. -/
  | start
  /-- The root and some whole components. -/
  | between
  /-- A dot. -/
  | afterDot
  /-- An opening bracket. -/
  | afterBracket
  /-- An opening bracket and a literal. -/
  | afterLiteral (c : Component)
  /-- An opening bracket and an identifier. -/
  | afterName (name : String)
  /-- An opening bracket and a star. -/
  | afterStar
  /-- An opening bracket and the start of a union, which ends in a comma. -/
  | afterComma (first : Component) (others : List Component)
  /-- An opening bracket and two or more members of a union. -/
  | afterMember (first second : Component) (others : List Component)
  deriving DecidableEq, Repr

namespace Phase

/-- The classes of tokens that a message offers as the next token. Behind a literal in brackets only
the closing bracket is offered, although unions go on with a comma there. -/
def expected (d : Dialect) : Phase → List TokenKind
  | start => [.root]
  | between => [.dot, .openBracket]
  | afterDot => match d with
    | .literal => [.name]
    | .wild => [.name, .star]
  | afterBracket => match d with
    | .literal => [.integer, .doubleQuoted, .singleQuoted]
    | .wild => [.integer, .doubleQuoted, .singleQuoted, .name, .star]
  | afterComma _ _ => [.integer, .doubleQuoted, .singleQuoted, .name]
  | afterLiteral _ | afterName _ | afterStar | afterMember _ _ _ => [.closeBracket]

/-- The error of a phase that another token has to follow, at the end of the tokens. An identifier
in brackets is complained about itself, whatever is missing. -/
def endCause (d : Dialect) : Phase → ParseCause
  | afterName name => .loneName name
  | phase => .unexpectedEnd (phase.expected d)

/-- The error of a phase at a token that may not follow. Again a lone identifier in brackets takes
the blame. -/
def tokenCause (d : Dialect) (t : Token) : Phase → ParseCause
  | afterName name => .loneName name
  | phase => .unexpectedToken (String.ofList t.text) t.position (phase.expected d)

/-- The phase after another member of a union. The first two members are kept apart, since every
union has them. -/
def addMember (first : Component) (others : List Component) (c : Component) : Phase :=
  match others with
  | [] => afterMember first c []
  | second :: more => afterMember first second (more ++ [c])

end Phase

namespace Expression

/-- The component that a literal token stands for, or the error of a text in quotes that is no
string or of a number that is too long. -/
def literal (t : Token) (limit : Nat := 0) : Except ParseCause Component :=
  (t.component limit).mapError (.ofLiteral (String.ofList t.text))

/-- The selectors that the tokens after a phase spell out. The first token that may not come next,
or stands for nothing, ends the reading, whatever follows it. -/
def read (d : Dialect) : Phase → List Token → (limit : Nat := 0) → Except ParseCause Pattern
  | .between, [], _ => .ok []
  | phase, [], _ => .error (phase.endCause d)
  | phase, t :: ts, limit =>
    match phase, t.kind, d with
    | .start, .root, _ => read d .between ts limit
    | .between, .dot, _ => read d .afterDot ts limit
    | .between, .openBracket, _ => read d .afterBracket ts limit
    | .afterDot, .name, _ => do
      let c ← literal t limit
      (read d .between ts limit).map (.ofComponent c :: ·)
    | .afterDot, .star, .wild => (read d .between ts limit).map (.anyProperty :: ·)
    | .afterBracket, .integer, _ | .afterBracket, .doubleQuoted, _
    | .afterBracket, .singleQuoted, _ => do
      let c ← literal t limit
      read d (.afterLiteral c) ts limit
    | .afterBracket, .name, .wild => read d (.afterName (String.ofList t.text)) ts limit
    | .afterBracket, .star, .wild => read d .afterStar ts limit
    | .afterLiteral c, .closeBracket, _ => (read d .between ts limit).map (.ofComponent c :: ·)
    | .afterLiteral c, .comma, .wild => read d (.afterComma c []) ts limit
    | .afterName name, .comma, .wild => read d (.afterComma (.property name) []) ts limit
    | .afterStar, .closeBracket, _ => (read d .between ts limit).map (.anyIndex :: ·)
    | .afterComma first others, .integer, _ | .afterComma first others, .doubleQuoted, _
    | .afterComma first others, .singleQuoted, _ | .afterComma first others, .name, _ => do
      let c ← literal t limit
      read d (Phase.addMember first others c) ts limit
    | .afterMember first second others, .closeBracket, _ =>
      (read d .between ts limit).map (.union first second others :: ·)
    | .afterMember first second others, .comma, _ =>
      read d (.afterComma first (second :: others)) ts limit
    | phase, _, _ => .error (phase.tokenCause d t)

/-- Reads a whole text. It is cut into tokens before any of them is read, so a character that
starts no token is found first, wherever it stands. -/
def parse (d : Dialect) (text : String) (limit : Nat := 0) : Except ParseError Pattern :=
  match Token.scan text.toList with
  | .error stray => .error ⟨text, .strayCharacter stray.char stray.position⟩
  | .ok tokens => (read d .start tokens limit).mapError (ParseError.mk text)

end Expression

/-- The component a literal selector names; the other selectors name none. -/
def Selector.component? : Selector → Option Component
  | .index i => some (.index i)
  | .property name => some (.property name)
  | _ => none

/-- The pattern that a text spells out, if no number in it has more digits than the limit. Every
path expression spells a pattern, too. -/
def Pattern.parse (text : String) (limit : Nat := 0) : Except ParseError Pattern :=
  Expression.parse .wild text limit

/-- The path that a text spells out, if no number in it has more digits than the limit. Without
wildcards and unions every selector is a literal, so no component is lost. -/
def Path.parse (text : String) (limit : Nat := 0) : Except ParseError Path :=
  (Expression.parse .literal text limit).map (List.filterMap Selector.component?)

end TreeDelta
