import TreeDelta.Diff.Change
import TreeDelta.Report.Layout
import TreeDelta.Tree.Search

/-!
# Printed reports

Values, changes and nodes are printed for a terminal. Every line of a value starts with a mark that
tells old from new; a list that is short enough stays on one line, and other containers are
printed item by item, one step further in for each level.

## Main definitions

* `Palette`: the marks, with or without colours.
* `Report.value`, `Report.item`, `Report.entries`, `Report.lines`: values.
* `Report.change`, `Report.changeset`, `Report.nodes`: changes and nodes.
-/

namespace TreeDelta

/-! ### Marks -/

/-- The marks in front of the lines of a report. -/
structure Palette where
  /-- In front of old values. -/
  remove : String
  /-- In front of new values. -/
  add : String
  /-- In front of headers. -/
  info : String
  /-- Behind headers and changes. -/
  reset : String
  deriving DecidableEq, Repr

/-- The escape sequence that sets a rendition of the terminal. -/
def escapeSequence (code : String) : String := "\x1b[" ++ code ++ "m"

/-- Marks without colours. Each of them takes the same columns as the coloured one does on the
terminal. -/
def Palette.plain : Palette := ⟨"-  ", "+  ", "## ", ""⟩

/-- Red for old values, green for new ones, and bright blue for headers. The plain marks stand
behind the escape sequences. -/
def Palette.coloured : Palette :=
  ⟨escapeSequence "31" ++ Palette.plain.remove, escapeSequence "32" ++ Palette.plain.add,
    escapeSequence "34" ++ escapeSequence "1" ++ Palette.plain.info, escapeSequence "0"⟩

/-- The marks with or without colours. -/
def Palette.ofColour (colour : Bool) : Palette := if colour then coloured else plain

namespace Report

/-- What is put in front for each level of nesting. It goes behind the mark, so that marks stay in
the first columns. -/
def step : String := "  "

/-- A list on one line is shorter than this, its mark included. What is counted are characters,
those of escape sequences among them. -/
def lineWidth : Nat := 78

/-! ### Values -/

/-- The text of a value: a string as it is, and the literal of anything else. -/
def text : Value → String
  | .str s => s
  | v => v.layout

/-- A text, with a mark in front of every line. Lines keep their line breaks, and a line feed ends
the text if none does. -/
def lines (mark s : String) : String :=
  String.join ((Text.lines s).map fun line => mark ++ line)
    ++ (if s.toList.getLast? == some '\n' then "" else "\n")

/-- A key on a line of its own. -/
def keyLine (mark key : String) : String := mark ++ key ++ ":\n"

/-- A value without items below its key: on the same line, or line by line if it has many. Other
line breaks than a line feed do not move it to lines of its own. -/
def field (mark key s : String) : String :=
  if s.toList.contains '\n' then
    keyLine mark key
      ++ String.join ((Text.lines s).map fun line => mark ++ step ++ Text.dropBreak line ++ "\n")
  else mark ++ key ++ ": " ++ s ++ "\n"

/-- Whether a text shows an escaped line feed: a backslash and the letter after it. A list with such
an item is never printed on one line. -/
def hasEscapedFeed : List Char → Bool
  | [] => false
  | c :: cs => (c == '\\' && cs.head? == some 'n') || hasEscapedFeed cs

/-- Whether a list that is written as `s` is printed on one line: it has the room for it, and no
item with a line feed. -/
def isShort (mark s : String) : Bool :=
  s.length + mark.length < lineWidth && !hasEscapedFeed s.toList

mutual

/-- A value below its key: the entries of a dictionary and the items of a list each below their own
keys, one step further to the right, and other values as fields. -/
def item (mark key : String) : Value → String
  | .dict es => keyLine mark key ++ entries (mark ++ step) es
  | .list vs =>
    keyLine mark key
      ++ (if isShort (mark ++ step) (Value.list vs).layout
          then mark ++ step ++ (Value.list vs).layout ++ "\n"
          else items (mark ++ step) 0 vs)
  | v => field mark key (text v)

/-- The entries of a dictionary. -/
def entries (mark : String) : List (Value × Value) → String
  | [] => ""
  | (k, v) :: es => item mark k.display v ++ entries mark es

/-- The items of a list, with indices from `i` on, which are written in brackets like components of
a path. -/
def items (mark : String) (i : Nat) : List Value → String
  | [] => ""
  | v :: vs => item mark ("[" ++ toString i ++ "]") v ++ items mark (i + 1) vs

end

/-- The entries of a dictionary but those under some keys. Keys are compared loosely, as the keys of
a dictionary are. -/
def entriesWithout (mark : String) (keys : List Value) (es : List (Value × Value)) : String :=
  entries mark (es.filter fun e => !keys.any fun k => k.same e.1)

/-- A list, on one line if it is short enough. -/
def list (mark : String) (vs : List Value) : String :=
  let s := (Value.list vs).layout
  if isShort mark s then mark ++ s ++ "\n" else items mark 0 vs

/-- A value below a header. Empty containers are written like scalars, by their literals; an empty
text has no lines at all. -/
def value (mark : String) : Value → String
  | .dict (e :: es) => entries mark (e :: es)
  | .list (v :: vs) => list mark (v :: vs)
  | v => lines mark (text v)

/-! ### Changes and nodes -/

/-- The header of a change. -/
def header (p : Palette) (what : String) (path : Path) : String :=
  p.info ++ what ++ " " ++ path.render ++ ":" ++ p.reset ++ "\n"

/-- The words for a replaced value, which tell when its type has changed. -/
def replacedWords (old new : Value) : String :=
  if old.typeName == new.typeName then "replaced"
  else "replaced (type changed from " ++ old.typeName ++ " to " ++ new.typeName ++ ")"

/-- The header and the values of a change, the old value before the new one, each with its own
mark. -/
def changeBody (p : Palette) (c : Change) : String :=
  match c.op with
  | .add => header p "added" c.path ++ value p.add c.new
  | .remove => header p "deleted" c.path ++ value p.remove c.old
  | .replace =>
    header p (replacedWords c.old c.new) c.path ++ value p.remove c.old ++ value p.add c.new

/-- A change, with an empty line behind it. -/
def change (p : Palette) (c : Change) : String := changeBody p c ++ "\n" ++ p.reset

/-- One of the two documents of a changeset. -/
structure Document where
  /-- Its name. -/
  name : String
  /-- The time of its last change, if it is known. -/
  time? : Option String

/-- The time of a document in words. -/
def Document.timeText (d : Document) : String := d.time?.getD "(no timestamp)"

/-- The name of the program in reports. -/
def programName : String := "pathdiff"

/-- The lines above the changes between two documents. -/
def changesetHeader (before after : Document) : String :=
  programName ++ " " ++ before.name ++ " " ++ after.name ++ "\n"
    ++ "--- " ++ before.name ++ "  " ++ before.timeText ++ "\n"
    ++ "+++ " ++ after.name ++ "  " ++ after.timeText ++ "\n"

/-- The changes between two documents; nothing if there are none. -/
def changeset (p : Palette) (before after : Document) (changes : List Change) : String :=
  if changes.isEmpty then ""
  else changesetHeader before after ++ String.join (changes.map (change p))

/-- Nodes as values below their paths, without any marks. -/
def nodes (ns : List Node) : String :=
  String.join (ns.map fun n => item "" n.path.render n.value)

end Report

end TreeDelta
