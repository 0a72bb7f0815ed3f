import TreeDelta.Value.Basic

/-!
# Writing JSON

A value is written as JSON in ASCII characters, on one line or indented. Tuples are written as
lists, and keys that are numbers, truth values or null as strings. A value that JSON has no form
for cannot be written.

## Main definitions

* `Json.Style`: one line, or indented by two.
* `Json.write?`: the text of a value.
-/

namespace TreeDelta.Json

/-- How a document is laid out. -/
inductive Style where
  /-- On one line, with a space after commas and colons. -/
  | line
  /-- Every item on a line of its own, two more columns to the right for each level. -/
  | indented
  deriving DecidableEq, Repr

/-- What stands between a bracket or comma and an item at a level of nesting. -/
def Style.lineBreak (level : Nat) : Style → String
  | line => ""
  | indented => "\n" ++ String.ofList (List.replicate (2 * level) ' ')

/-- What stands between two items at a level of nesting. -/
def Style.separator (level : Nat) : Style → String
  | line => ", "
  | indented => "," ++ Style.indented.lineBreak level

/-- Items between brackets; `level` is the level of the items. -/
def Style.enclose (s : Style) (level : Nat) (opening closing : String) : List String → String
  | [] => opening ++ closing
  | items =>
    opening ++ s.lineBreak level ++ (s.separator level).intercalate items
      ++ s.lineBreak (level - 1) ++ closing

/-- The text of a double, with words for what is no finite number. Reading knows these words,
too. -/
def floatText : Binary64 → String
  | .nan _ => "NaN"
  | .infinite s => if s then "-Infinity" else "Infinity"
  | x => x.text true

/-- The text of a key, without quotes; keys of other types cannot be written. -/
def keyText? : Value → Option String
  | .str s => some s
  | .float x => some (floatText x)
  | .int n => some (toString n)
  | .bool b => some (if b then "true" else "false")
  | .null => some "null"
  | _ => none

mutual

/-- The text of a value at a level of nesting. Tuples are written as lists; what has no form of its
own has no text. -/
def writeAt? (s : Style) (level : Nat) : Value → Option String
  | .null => some "null"
  | .bool b => some (if b then "true" else "false")
  | .int n => some (toString n)
  | .float x => some (floatText x)
  | .str t => some (JsonString.encodeAscii t)
  | .list items => (writeItems? s (level + 1) items).map (s.enclose (level + 1) "[" "]")
  | .tuple items => (writeItems? s (level + 1) items).map (s.enclose (level + 1) "[" "]")
  | .dict entries =>
    (writeEntries? s (level + 1) entries).map (s.enclose (level + 1) "\x7b" "\x7d")
  | _ => none

/-- The texts of a list of values. -/
def writeItems? (s : Style) (level : Nat) : List Value → Option (List String)
  | [] => some []
  | v :: vs => do
    let first ← writeAt? s level v
    let rest ← writeItems? s level vs
    return first :: rest

/-- The texts of the entries of a dictionary, each with its key as a string. Keys that become the
same string are all written. -/
def writeEntries? (s : Style) (level : Nat) : List (Value × Value) → Option (List String)
  | [] => some []
  | (k, v) :: es => do
    let key ← keyText? k
    let first ← writeAt? s level v
    let rest ← writeEntries? s level es
    return (JsonString.encodeAscii key ++ ": " ++ first) :: rest

end

/-- The text of a value, unless it holds something that JSON has no form for. -/
def write? (s : Style) (v : Value) : Option String := writeAt? s 0 v

end TreeDelta.Json
