import TreeDelta.Text.Quoted

/-!
# JSON strings

Writing and reading of the text between the quotes of a JSON string. Writing comes in two widths:
plain, where only quotes, backslashes and control characters are escaped, and ASCII, where every
character outside the printable ASCII range is. Reading accepts every escape of JSON, joins
surrogate pairs, and refuses control characters.

## Main definitions

* `JsonString.encode`, `JsonString.encodeAscii`: a string in double quotes.
* `JsonString.scan`: reads up to the closing quote.
* `JsonString.decode`: reads a text that holds one whole JSON string.
-/

namespace TreeDelta.JsonString

/-! ### Writing -/

/-- The escape of a code unit by its four hexadecimal digits, in lower case. -/
def unitEscape (n : Nat) : List Char := '\\' :: 'u' :: Text.hex 4 n

/-- The escape by a letter, for the characters that have one. A slash has one for reading only, so
it is not here. -/
def letterEscape? (c : Char) : Option Char :=
  if c == '"' then some '"'
  else if c == '\\' then some '\\'
  else if c == '\n' then some 'n'
  else if c == '\r' then some 'r'
  else if c == '\t' then some 't'
  else if c == '\x0c' then some 'f'
  else if c == '\x08' then some 'b'
  else none

/-- A character inside a plain JSON string. Only the quote, the backslash and control characters are
escaped; all other characters stand for themselves. -/
def encodeChar (c : Char) : List Char :=
  match letterEscape? c with
  | some e => ['\\', e]
  | none => if c.toNat < 0x20 then unitEscape c.toNat else [c]

/-- The two surrogates of a character beyond the basic plane, the high one first. Texts of ASCII
characters escape such a character by both of them. -/
def surrogates (n : Nat) : Nat × Nat :=
  (0xd800 + (n - 0x10000) / 0x400, 0xdc00 + (n - 0x10000) % 0x400)

/-- A character inside an ASCII JSON string. What is not printable ASCII is escaped, `0x7f`
included. -/
def encodeAsciiChar (c : Char) : List Char :=
  match letterEscape? c with
  | some e => ['\\', e]
  | none =>
    let n := c.toNat
    if 0x20 ≤ n && n < 0x7f then [c]
    else if n < 0x10000 then unitEscape n
    else unitEscape (surrogates n).1 ++ unitEscape (surrogates n).2

/-- The body of a plain JSON string. -/
def encodeBody (cs : List Char) : List Char := cs.flatMap encodeChar

/-- A string as a JSON string that keeps characters beyond ASCII. Properties that are no identifiers
are written this way inside paths. -/
def encode (s : String) : String := String.ofList ('"' :: encodeBody s.toList ++ ['"'])

/-- A string as a JSON string of ASCII characters, as values are written into documents. -/
def encodeAscii (s : String) : String :=
  String.ofList ('"' :: s.toList.flatMap encodeAsciiChar ++ ['"'])

/-! ### Reading -/

/-- Why a JSON string cannot be read. -/
inductive Cause where
  /-- A backslash before a character that is no escape. -/
  | badEscape
  /-- A `\u` without four hexadecimal digits. -/
  | badUnit
  /-- A control character that is not escaped. -/
  | control
  /-- No closing quote. -/
  | unterminated
  deriving DecidableEq, Repr

/-- A cause together with the position it is reported at. Which position that is depends on the
cause: the opening quote, the backslash, the letter behind it, or the character itself. -/
structure Fault where
  /-- What is wrong. -/
  cause : Cause
  /-- Where, counted in characters from the start of the text. -/
  position : Nat
  deriving DecidableEq, Repr

/-- The wording of a cause. -/
def Cause.message : Cause → String
  | .badEscape => "Invalid \\escape"
  | .badUnit => "Invalid \\uXXXX escape"
  | .control => "Invalid control character at"
  | .unterminated => "Unterminated string starting at"

/-- The wording of a fault in a text of one line. The column counts from one and the position from
zero. -/
def Fault.message (f : Fault) : String :=
  f.cause.message ++ ": line 1 column " ++ toString (f.position + 1)
    ++ " (char " ++ toString f.position ++ ")"

/-- The value of a hexadecimal digit. -/
def hexDigit? (c : Char) : Option Nat :=
  let n := c.toNat
  if 0x30 ≤ n && n ≤ 0x39 then some (n - 0x30)
  else if 0x61 ≤ n && n ≤ 0x66 then some (n - 0x57)
  else if 0x41 ≤ n && n ≤ 0x46 then some (n - 0x37)
  else none

/-- The value of four hexadecimal digits, of either case. One character that is no such digit spoils
all four. -/
def hexUnit? (a b c d : Char) : Option Nat := do
  let a ← hexDigit? a
  let b ← hexDigit? b
  let c ← hexDigit? c
  let d ← hexDigit? d
  return ((a * 16 + b) * 16 + c) * 16 + d

/-- The code unit that an escape by a letter stands for. Besides the letters there are the quote,
the backslash and the slash, which stand for themselves. -/
def letterUnit? (c : Char) : Option Nat :=
  if c == '"' || c == '\\' || c == '/' then some c.toNat
  else if c == 'b' then some 0x8
  else if c == 'f' then some 0xc
  else if c == 'n' then some 0xa
  else if c == 'r' then some 0xd
  else if c == 't' then some 0x9
  else none

/-- Puts a code unit in front of what was read. -/
def consUnit (n : Nat) (r : List Nat × List Char) : List Nat × List Char := (n :: r.1, r.2)

/-- Reads the body of a JSON string up to its closing quote, and gives its code units and the text
after the quote. `start` is the position of the opening quote and `position` that of the text. -/
def scan (start : Nat) : (position : Nat) → List Char → Except Fault (List Nat × List Char)
  | _, [] => .error ⟨.unterminated, start⟩
  | _, '"' :: cs => .ok ([], cs)
  | _, ['\\'] => .error ⟨.unterminated, start⟩
  | pos, '\\' :: 'u' :: a :: b :: c :: d :: cs =>
    match hexUnit? a b c d with
    | some n => (scan start (pos + 6) cs).map (consUnit n)
    | none => .error ⟨.badUnit, pos + 1⟩
  | pos, '\\' :: c :: cs =>
    if c == 'u' then .error ⟨.badUnit, pos + 1⟩
    else match letterUnit? c with
      | some n => (scan start (pos + 2) cs).map (consUnit n)
      | none => .error ⟨.badEscape, pos⟩
  | pos, c :: cs =>
    if c.toNat < 0x20 then .error ⟨.control, pos⟩
    else (scan start (pos + 1) cs).map (consUnit c.toNat)

/-- The character of a code unit; a surrogate that has lost its partner is replaced, since no
character has its number. -/
def unitChar (n : Nat) : Char :=
  if n.isValidChar then Char.ofNat n else '\ufffd'

/-- Joins every high surrogate with a low one right after it to one character. What is left without
a partner is replaced on its own. -/
def joinUnits : List Nat → List Char
  | [] => []
  | [n] => [unitChar n]
  | m :: n :: rest =>
    if 0xd800 ≤ m && m < 0xdc00 && 0xdc00 ≤ n && n < 0xe000 then
      Char.ofNat (0x10000 + (m - 0xd800) * 0x400 + (n - 0xdc00)) :: joinUnits rest
    else unitChar m :: joinUnits (n :: rest)

/-- Reads a JSON string from a text after its opening quote, which is at position zero. What
follows the closing quote is not looked at. -/
def decode (cs : List Char) : Except Fault String :=
  (scan 0 1 cs).map fun r => String.ofList (joinUnits r.1)

end TreeDelta.JsonString
