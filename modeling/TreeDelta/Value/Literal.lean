import TreeDelta.Value.Basic

/-!
# Written values

The literal of a value is its text inside messages and printed reports; the display of a value is
its literal, except that texts, paths and patterns stand without quotes.

## Main definitions

* `Value.literal`: the text that shows a value with its type.
* `Value.display`: the text that shows a value to a reader.
-/

namespace TreeDelta.Value

/-- The text of a complex number: a real part of plus zero is left out, and with a real part the
whole stands in parentheses. -/
def complexText (re im : Binary64) : String :=
  if re == .finite false 0 then im.text false ++ "j"
  else
    let gap := if im.isNegative then "" else "+"
    "(" ++ re.text false ++ gap ++ im.text false ++ "j)"

/-- Texts joined by a comma and a space. -/
def commaJoin (texts : List String) : String := ", ".intercalate texts

/-- The text of a truth value. -/
def boolText (b : Bool) : String := if b then "True" else "False"

mutual

/-- The text that shows a value with its type, as the language would write it. Containers are shown
with everything that is in them. -/
def literal : Value → String
  | missing => "Missing"
  | null => "None"
  | bool b => boolText b
  | int n => toString n
  | float x => x.text true
  | complex re im => complexText re im
  | str s => Text.quoted s
  | bytes bs => Text.quotedBytes bs
  | list items => "[" ++ commaJoin (literals items) ++ "]"
  | dict entries => "\x7b" ++ commaJoin (entryLiterals entries) ++ "\x7d"
  | tuple [] => "()"
  | tuple [v] => "(" ++ literal v ++ ",)"
  | tuple items => "(" ++ commaJoin (literals items) ++ ")"
  | set [] => "set()"
  | set items => "\x7b" ++ commaJoin (literals items) ++ "\x7d"
  | function _ => "<function>"
  | object _ className _ => "<" ++ className ++ " object>"
  | hooked _ _ => "<WithToJson object>"
  | path p => p.literal
  | pattern m => m.literal

/-- The literals of a list of values. -/
def literals : List Value → List String
  | [] => []
  | v :: vs => literal v :: literals vs

/-- The literals of the entries of a dictionary. -/
def entryLiterals : List (Value × Value) → List String
  | [] => []
  | (k, v) :: es => (literal k ++ ": " ++ literal v) :: entryLiterals es

end

/-- The text that shows a value to a reader. It is the literal, except that a text, a path or a
pattern is shown as what it says, without quotes. -/
def display : Value → String
  | str s => s
  | path p => p.render
  | pattern m => m.render
  | v => v.literal

end TreeDelta.Value
