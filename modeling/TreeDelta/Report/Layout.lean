import TreeDelta.Text.Blank
import TreeDelta.Text.Line
import TreeDelta.Value.Literal
import TreeDelta.Value.Order

/-!
# Values within a page

The literal of a value is laid out within eighty columns. What fits stays on one line; otherwise
every item of a container goes to a line of its own, a long string is cut between words, and a
long byte string between groups of four. The entries of a dictionary are sorted by their keys.

## Main definitions

* `Value.flat`: the literal on one line, with sorted dictionaries.
* `Value.layout`: the literal within a page.
-/

namespace TreeDelta

/-- The number of columns of a page. -/
def pageWidth : Nat := 80

/-- A text of `n` spaces. -/
def spaces (n : Nat) : String := String.ofList (List.replicate n ' ')

namespace Value

/-! ### On one line -/

mutual

/-- The literal of a value on one line, with the entries of dictionaries sorted by their keys. Sets
and scalars are as they would be written anywhere. -/
def flat : Value → String
  | list items => "[" ++ commaJoin (flats items) ++ "]"
  | tuple [] => "()"
  | tuple [v] => "(" ++ flat v ++ ",)"
  | tuple items => "(" ++ commaJoin (flats items) ++ ")"
  | dict entries =>
    "\x7b" ++ commaJoin ((sortEntries (flatEntries entries)).map Prod.snd) ++ "\x7d"
  | v => v.literal

/-- The same for the items of a list. -/
def flats : List Value → List String
  | [] => []
  | v :: vs => flat v :: flats vs

/-- The same for the entries of a dictionary, each with its key. -/
def flatEntries : List (Value × Value) → List (Value × String)
  | [] => []
  | (k, v) :: es => (k, flat k ++ ": " ++ flat v) :: flatEntries es

end

/-! ### Cutting texts -/

/-- Where a value is laid out: the columns before it, the columns to keep free after it, and
whether it is the whole value. -/
structure Place where
  /-- The columns before the value. -/
  indent : Nat
  /-- The columns to keep free after it on its last line. -/
  reserve : Nat
  /-- Whether the value is not part of another one. -/
  isWhole : Bool

/-- Cuts a text behind every run of white space. Put together again, the words are the text. -/
def words : List Char → List (List Char)
  | [] => []
  | [c] => [[c]]
  | c :: d :: cs =>
    if Text.isBlank c && !Text.isBlank d then [c] :: words (d :: cs)
    else Text.consChar c (words (d :: cs))

/-- Fills lines with parts, where `quote` writes a line and `room` is the room for it, less
`reserve` columns on the line that takes the last part. `current` is the line so far. A part that
has no room on a line of its own gets one all the same. -/
def fill {α : Type} (quote : List α → String) (room reserve : Nat) (current : List α) :
    List (List α) → List String
  | [] => if current.isEmpty then [] else [quote current]
  | part :: parts =>
    let candidate := current ++ part
    let reserved := if parts.isEmpty then reserve else 0
    if room < (quote candidate).length + reserved then
      if current.isEmpty then fill quote room reserve part parts
      else quote current :: fill quote room reserve part parts
    else fill quote room reserve candidate parts

/-- The written lines of the lines of a string. A line that is too long is cut between words; the
last one keeps `reserve` columns free. -/
def stringLines (room reserve : Nat) : List (List Char) → List String
  | [] => []
  | line :: lines =>
    let reserved := if lines.isEmpty then reserve else 0
    let quote := fun cs => Text.quoted (String.ofList cs)
    let whole := quote line
    let written :=
      if whole.length + reserved ≤ room then [whole] else fill quote room reserved [] (words line)
    written ++ stringLines room reserve lines

/-- Groups of four; the last one may be shorter. Byte strings are cut between such groups only. -/
def groupsOfFour {α : Type} : List α → List (List α)
  | a :: b :: c :: d :: rest => [a, b, c, d] :: groupsOfFour rest
  | [] => []
  | rest => [rest]

/-- The written lines of a byte string. Only a last group of fewer than four bytes keeps the
reserved columns free. -/
def bytesLines (room reserve : Nat) (bs : List UInt8) : List String :=
  let reserved := if bs.length % 4 == 0 then 0 else reserve
  fill Text.quotedBytes room reserved [] (groupsOfFour bs)

/-- Lines below each other at a column. -/
def stack (indent : Nat) (lines : List String) : String :=
  ("\n" ++ spaces indent).intercalate lines

/-- Lines below each other; those of a whole value stand in parentheses. Inside of a container,
brackets and commas hold the lines together without them. -/
def stackAt (place : Place) (lines : List String) : String :=
  if place.isWhole then "(" ++ stack (place.indent + 1) lines ++ ")"
  else stack place.indent lines

/-- A string that is too long for its line. It is cut behind its line breaks first, and between
words where a line is still too long. -/
def layoutString (place : Place) (s : String) : String :=
  let extra := if place.isWhole then 1 else 0
  let room := pageWidth - (place.indent + extra)
  match stringLines room (place.reserve + extra) (Text.linesOf s.toList) with
  | [] => Text.quoted s
  | [line] => line
  | lines => stackAt place lines

/-- A byte string that is too long for its line. -/
def layoutBytes (place : Place) (bs : List UInt8) : String :=
  if bs.length ≤ 4 then Text.quotedBytes bs
  else
    let extra := if place.isWhole then 1 else 0
    let room := pageWidth - (place.indent + extra)
    stackAt place (bytesLines room (place.reserve + extra) bs)

/-! ### Laying out -/

/-- An item of a container: a label in front, and the text at a place. The place is only known once
the items before it are written. -/
abbrev Item := String × (Place → String)

/-- The lines of the items of a container; all but the last one reserve a column for a comma. The
last one reserves what is to follow the whole container. -/
def itemLines (indent reserve : Nat) : List Item → List String
  | [] => []
  | [(label, text)] => [label ++ text ⟨indent + label.length, reserve, false⟩]
  | (label, text) :: items =>
    (label ++ text ⟨indent + label.length, 1, false⟩ ++ ",") :: itemLines indent reserve items

/-- The items of a container below each other between brackets, one column to the right of the
opening one. -/
def enclose (opening closing : String) (items : List Item) (place : Place) : String :=
  let indent := place.indent + 1
  opening ++ stack indent (itemLines indent (place.reserve + closing.length) items) ++ closing

/-- Whether a text fits into the rest of the line at a place, with the reserved columns behind
it. -/
def Place.fits (place : Place) (text : String) : Bool :=
  text.length + place.indent + place.reserve ≤ pageWidth

/-- The text on one line where it fits, and another layout where it does not. -/
def fitOr (short : String) (long : Place → String) (place : Place) : String :=
  if place.fits short then short else long place

mutual

/-- The literal of a value at a place of a page: on one line where it fits, and otherwise with its
items below each other, each of them laid out in the same way. -/
def layoutAt : Value → Place → String
  | list items => fitOr (list items).flat (enclose "[" "]" (layoutItems items))
  | tuple [v] => fitOr (tuple [v]).flat (enclose "(" ",)" [("", layoutAt v)])
  | tuple items => fitOr (tuple items).flat (enclose "(" ")" (layoutItems items))
  | dict entries =>
    fitOr (dict entries).flat
      (enclose "\x7b" "\x7d" ((sortEntries (layoutEntries entries)).map Prod.snd))
  | set [] => fun _ => "set()"
  | set items =>
    fitOr (set items).flat
      (enclose "\x7b" "\x7d" ((sortEntries (layoutKeyed items)).map Prod.snd))
  | str s => fitOr (Text.quoted s) fun place => layoutString place s
  | bytes bs => fitOr (Text.quotedBytes bs) fun place => layoutBytes place bs
  | v => fun _ => v.literal

/-- The layouts of the items of a list. -/
def layoutItems : List Value → List Item
  | [] => []
  | v :: vs => ("", layoutAt v) :: layoutItems vs

/-- The layouts of the items of a set, each with the item as its key. -/
def layoutKeyed : List Value → List (Value × Item)
  | [] => []
  | v :: vs => (v, ("", layoutAt v)) :: layoutKeyed vs

/-- The layouts of the entries of a dictionary, each with its key. -/
def layoutEntries : List (Value × Value) → List (Value × Item)
  | [] => []
  | (k, v) :: es => (k, (flat k ++ ": ", layoutAt v)) :: layoutEntries es

end

/-- The literal of a value on a page of its own, from the first column on. -/
def layout (v : Value) : String := v.layoutAt ⟨0, 0, true⟩

end Value

end TreeDelta
