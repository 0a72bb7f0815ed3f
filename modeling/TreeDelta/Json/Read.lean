import TreeDelta.Value.Basic

/-!
# Reading JSON

A JSON document becomes a value: whole numbers are integers of any size, numbers with a point or an
exponent are doubles, and of several members with one name the last one counts, at the place of the
first. The words `NaN`, `Infinity` and `-Infinity` are numbers.

## Main definitions

* `Json.number?`: the number at the start of a text.
* `Json.read?`: the value of a whole document.
-/

namespace TreeDelta.Json

/-! ### Numbers -/

/-- The whole part at the start of a text; a zero stands alone, so that digits behind it are no part
of the number. -/
def wholePart (cs : List Char) : List Char :=
  match cs with
  | '0' :: _ => ['0']
  | _ => cs.takeWhile Text.isDigit

/-- The digits after a point at the start of a text, and the rest. Without a digit after it, the
point is no part of the number. -/
def fractionPart? : List Char → Option (List Char × List Char)
  | '.' :: cs =>
    let digits := cs.takeWhile Text.isDigit
    if digits.isEmpty then none else some (digits, cs.drop digits.length)
  | _ => none

/-- The exponent at the start of a text, and the rest. Without a digit in it, the mark is no part
of the number. -/
def exponentPart? : List Char → Option (Int × List Char)
  | e :: cs =>
    if e != 'e' && e != 'E' then none
    else
      let (negative, cs) := match cs with
        | '-' :: cs => (true, cs)
        | '+' :: cs => (false, cs)
        | cs => (false, cs)
      let digits := cs.takeWhile Text.isDigit
      if digits.isEmpty then none
      else
        let n : Int := Text.digitsValue digits
        some (if negative then -n else n, cs.drop digits.length)
  | [] => none

/-- The number at the start of a text, given its sign. It is an integer when there is neither a
point nor an exponent. Integers are read whatever their length: the guard of the interpreter against
long runs of digits (`Text.Readable`) is left out here. -/
def unsigned? (negative : Bool) (cs : List Char) : Option (Value × List Char) :=
  let whole := wholePart cs
  let rest := cs.drop whole.length
  if whole.isEmpty then none
  else
    let fraction := fractionPart? rest
    let rest := (fraction.map Prod.snd).getD rest
    let exponent := exponentPart? rest
    let rest := (exponent.map Prod.snd).getD rest
    match fraction, exponent with
    | none, none =>
      let n : Int := Text.digitsValue whole
      some (.int (if negative then -n else n), rest)
    | _, _ =>
      let places := (fraction.map Prod.fst).getD []
      let power := (exponent.map Prod.fst).getD 0
      let digits := Text.digitsValue (whole ++ places)
      some (.float (.ofDecimal negative digits (power - places.length)), rest)

/-- The number at the start of a text. There is no plus sign in front of a number. -/
def number? : List Char → Option (Value × List Char)
  | '-' :: cs => unsigned? true cs
  | cs => unsigned? false cs

/-! ### Documents -/

/-- Whether a character is white space in a document, which only these four are. -/
def isSpace (c : Char) : Bool := c == ' ' || c == '\t' || c == '\n' || c == '\r'

/-- The text without the white space at its start. -/
def skip (cs : List Char) : List Char := cs.dropWhile isSpace

/-- The rest of a text after the given start, if the text starts with that. -/
def after? : (start : List Char) → List Char → Option (List Char)
  | [], cs => some cs
  | c :: start, d :: cs => if c == d then after? start cs else none
  | _ :: _, [] => none

/-- The words that stand for a value. -/
def words : List (String × Value) :=
  [("null", .null), ("true", .bool true), ("false", .bool false), ("NaN", .float (.nan 0)),
    ("Infinity", .float (.infinite false)), ("-Infinity", .float (.infinite true))]

/-- The word at the start of a text, with the value that it stands for. No word is the start of
another one. -/
def word? (cs : List Char) : Option (Value × List Char) :=
  words.findSome? fun (w, v) => (after? w.toList cs).map fun rest => (v, rest)

/-- The string at the start of a text. The reasons why there is none are not told, as a document
that cannot be read is one fault whatever is wrong with it. -/
def string? : List Char → Option (String × List Char)
  | '"' :: cs =>
    match JsonString.scan 0 1 cs with
    | .ok (units, rest) => some (String.ofList (JsonString.joinUnits units), rest)
    | .error _ => none
  | _ => none

mutual

/-- The value at the start of a text; `fuel` bounds the number of steps. There is always enough of
it (`Json.read?`). -/
def value? : (fuel : Nat) → List Char → Option (Value × List Char)
  | 0, _ => none
  | fuel + 1, cs =>
    match cs with
    | '"' :: _ => (string? cs).map fun (s, rest) => (.str s, rest)
    | '[' :: cs =>
      match skip cs with
      | ']' :: rest => some (.list [], rest)
      | cs => (items? fuel cs).map fun (vs, rest) => (.list vs, rest)
    | '\x7b' :: cs =>
      match skip cs with
      | '\x7d' :: rest => some (.dict [], rest)
      | cs => (members? fuel [] cs).map fun (es, rest) => (.dict es, rest)
    | cs => (word? cs).orElse fun _ => number? cs

/-- The items of a list up to its closing bracket, of which there is one at least. -/
def items? : (fuel : Nat) → List Char → Option (List Value × List Char)
  | 0, _ => none
  | fuel + 1, cs => do
    let (v, rest) ← value? fuel cs
    match skip rest with
    | ',' :: rest =>
      let (vs, rest) ← items? fuel (skip rest)
      some (v :: vs, rest)
    | ']' :: rest => some ([v], rest)
    | _ => none

/-- The members of a dictionary up to its closing brace, after those read before. Of two members
with one name the later one gives the value, at the place of the first. -/
def members? : (fuel : Nat) → List (Value × Value) → List Char →
    Option (List (Value × Value) × List Char)
  | 0, _, _ => none
  | fuel + 1, es, cs => do
    let (k, rest) ← string? cs
    let rest ← after? [':'] (skip rest)
    let (v, rest) ← value? fuel (skip rest)
    let es := Value.insert k v es
    match skip rest with
    | ',' :: rest => members? fuel es (skip rest)
    | '\x7d' :: rest => some (es, rest)
    | _ => none

end

/-- The value of a whole document. Every step reads at least one character, so twice the length
of the text bounds their number. -/
def read? (text : String) : Option Value := do
  let cs := text.toList
  let (v, rest) ← value? (2 * cs.length + 2) (skip cs)
  if (skip rest).isEmpty then some v else none

end TreeDelta.Json
