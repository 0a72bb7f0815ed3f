import TreeDelta.Text.Blank
import TreeDelta.Path.Basic

/-!
# Tokens of path expressions

A path expression is cut into tokens from left to right; each token is the longest text of its
class at its place, and white space between tokens is dropped.

## Main definitions

* `TokenKind`, `Token`: a class of tokens, and a token with its text and place.
* `Token.lexeme?`: the token or white space at the start of a text.
* `Token.scan`: the tokens of a text, or the place of the first character that starts none.
* `Token.component`: what a literal token stands for, or why it stands for nothing.
-/

namespace TreeDelta

/-- The classes of tokens. -/
inductive TokenKind where
  /-- A text between apostrophes. -/
  | singleQuoted
  /-- A text between double quotes. -/
  | doubleQuoted
  /-- A run of digits. -/
  | integer
  /-- An identifier. -/
  | name
  /-- The dollar sign of the root. -/
  | root
  /-- An opening bracket. -/
  | openBracket
  /-- A closing bracket. -/
  | closeBracket
  /-- A dot. -/
  | dot
  /-- A comma. -/
  | comma
  /-- The star of the wildcards. -/
  | star
  deriving DecidableEq, Repr

/-- The word for a class of tokens in messages. Punctuation stands for itself. -/
def TokenKind.word : TokenKind → String
  | singleQuoted => "qstring"
  | doubleQuoted => "qqstring"
  | integer => "integer"
  | name => "property"
  | root => "$"
  | openBracket => "["
  | closeBracket => "]"
  | dot => "."
  | comma => ","
  | star => "*"

/-- A token of a path expression. Its position is for messages; what it stands for depends on its
class and text. -/
structure Token where
  /-- Its class. -/
  kind : TokenKind
  /-- Its text, quotes included. -/
  text : List Char
  /-- The place of its first character. -/
  position : Nat
  deriving DecidableEq, Repr

namespace Token

/-! ### One token -/

/-- The class of a token that is a single character. -/
def punctuation? (c : Char) : Option TokenKind :=
  if c == '$' then some .root
  else if c == '[' then some .openBracket
  else if c == ']' then some .closeBracket
  else if c == '.' then some .dot
  else if c == ',' then some .comma
  else if c == '*' then some .star
  else none

/-- The text up to and with the closing quote. A backslash takes the character after it along, which
may be anything but a line feed. Whether the escapes mean anything is looked at later. -/
def quotedSpan? (quote : Char) : List Char → Option (List Char)
  | [] => none
  | ['\\'] => none
  | '\\' :: c :: cs => if c == '\n' then none else (quotedSpan? quote cs).map ('\\' :: c :: ·)
  | c :: cs => if c == quote then some [c] else (quotedSpan? quote cs).map (c :: ·)

/-- The token at the start of a text with its class, or white space, which has none. Numbers,
identifiers and white space reach as far as they can. -/
def lexeme? : List Char → Option (Option TokenKind × List Char)
  | [] => none
  | c :: cs =>
    if c == '\x27' then (quotedSpan? c cs).map fun w => (some .singleQuoted, c :: w)
    else if c == '"' then (quotedSpan? c cs).map fun w => (some .doubleQuoted, c :: w)
    else if Text.isDigit c then some (some .integer, c :: cs.takeWhile Text.isDigit)
    else if isIdentifierStart c then some (some .name, c :: cs.takeWhile isIdentifierRest)
    else match punctuation? c with
      | some k => some (some k, [c])
      | none => if Text.isBlank c then some (none, c :: cs.takeWhile Text.isBlank) else none

/-- A lexeme is not empty. -/
theorem lexeme?_ne_nil {cs w : List Char} {k : Option TokenKind}
    (h : lexeme? cs = some (k, w)) : w ≠ [] := by
  cases cs with
  | nil => simp [lexeme?] at h
  | cons c cs =>
    simp only [lexeme?] at h
    split at h
    · obtain ⟨_, _, h⟩ := Option.map_eq_some_iff.1 h; grind
    split at h
    · obtain ⟨_, _, h⟩ := Option.map_eq_some_iff.1 h; grind
    split at h
    · grind
    split at h
    · grind
    split at h
    · grind
    split at h <;> grind

/-! ### All tokens -/

/-- A character that starts no token, and its place. An opening quote that is never closed is
one. -/
structure Stray where
  /-- The character. -/
  char : Char
  /-- Its place in the text. -/
  position : Nat
  deriving DecidableEq, Repr

/-- Puts a token in front, unless the lexeme was white space. -/
def consLexeme (kind : Option TokenKind) (text : List Char) (position : Nat)
    (rest : List Token) : List Token :=
  match kind with
  | some k => ⟨k, text, position⟩ :: rest
  | none => rest

/-- The tokens of a text that starts at a position. Every lexeme takes away one character at least,
so the scan comes to an end. -/
def scanFrom (position : Nat) (cs : List Char) : Except Stray (List Token) :=
  match cs with
  | [] => .ok []
  | c :: rest =>
    match _h : lexeme? (c :: rest) with
    | none => .error ⟨c, position⟩
    | some (kind, text) =>
      (scanFrom (position + text.length) ((c :: rest).drop text.length)).map
        (consLexeme kind text position)
  termination_by cs.length
  decreasing_by
    have := List.length_pos_iff.2 (lexeme?_ne_nil _h)
    simp only [List.length_drop, List.length_cons]
    omega

/-- The tokens of a text, in order, without the white space between them. -/
def scan (cs : List Char) : Except Stray (List Token) := scanFrom 0 cs

/-! ### Literals -/

/-- Respells the text between apostrophes as the text between double quotes: an escaped apostrophe
loses its backslash, and a double quote gets one. -/
def respell : List Char → List Char
  | [] => []
  | '\\' :: '\x27' :: cs => '\x27' :: respell cs
  | '\\' :: c :: cs => '\\' :: c :: respell cs
  | c :: cs => if c == '"' then '\\' :: '"' :: respell cs else c :: respell cs

/-- Why a literal token stands for no component. -/
inductive LiteralFault where
  /-- It is a text in quotes that is no string. -/
  | string (fault : JsonString.Fault)
  /-- It is a number with more digits than are read. -/
  | digits (count limit : Nat)
  deriving DecidableEq, Repr

/-- The component that a literal token stands for. Numbers are read with a limit of digits, and
without one if the limit is zero; texts in quotes and identifiers may have any length. -/
def component (t : Token) (limit : Nat := 0) : Except LiteralFault Component :=
  match t.kind with
  | .integer =>
    if Text.Readable limit t.text then .ok (.index (Text.digitsValue t.text))
    else .error (.digits t.text.length limit)
  | .doubleQuoted => ((JsonString.decode t.text.tail).map .property).mapError .string
  | .singleQuoted =>
    ((JsonString.decode (respell t.text.tail.dropLast ++ ['"'])).map .property).mapError .string
  | _ => .ok (.property (String.ofList t.text))

end Token

end TreeDelta
