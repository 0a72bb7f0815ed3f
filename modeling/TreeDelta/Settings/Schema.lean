import TreeDelta.Expression.Parse
import TreeDelta.Value.Equality

/-!
# The options in settings

Every command has sections of settings, from the general one to its own, and every section declares
options. An option checks the values it is given. Most of a check is done by the library that
options are declared with, which is a parameter (`Settings.Checks`); that a text is a pattern is
checked here.

## Main definitions

* `Command`: the three commands, their names and sections.
* `Settings.Section`: the sections and the options each declares.
* `Settings.Checks`: the checks of the library.
* `Settings.OptionKind.check`: the value that an option takes on, if any.
-/

namespace TreeDelta

namespace Settings

/-! ### Kinds of options -/

/-- What an option holds. The kind decides the default and the check. -/
inductive OptionKind where
  /-- The name of a log level. -/
  | level
  /-- A truth value. -/
  | switch
  /-- A list of patterns. -/
  | patterns
  deriving DecidableEq, Repr

/-- The levels of log records. A record is shown when it is at least as serious as the level that is
set. -/
inductive Level where
  /-- For finding faults in the program. -/
  | debug
  /-- For information. -/
  | info
  /-- For warnings. -/
  | warn
  /-- For errors. -/
  | error
  /-- For errors that end everything. -/
  | critical
  deriving DecidableEq, Repr

namespace Level

/-- All levels, from the most to the least talkative. Options are given one of their names. -/
def all : List Level := [debug, info, warn, error, critical]

/-- The name of a level. -/
def name : Level → String
  | debug => "DEBUG"
  | info => "INFO"
  | warn => "WARN"
  | error => "ERROR"
  | critical => "CRITICAL"

/-- The place of a level among all levels. -/
def rank : Level → Nat
  | debug => 0
  | info => 1
  | warn => 2
  | error => 3
  | critical => 4

/-- The level with a name. -/
def ofName? (name : String) : Option Level := all.find? fun l => l.name == name

end Level

/-- The level that holds unless another one is set. -/
def defaultLevel : Level := .info

/-- The value of an option that was not set. -/
def OptionKind.default : OptionKind → Value
  | level => .str defaultLevel.name
  | switch => .bool false
  | patterns => .list []

/-! ### Checks -/

/-- The checks of the library that options are declared with: each gives what is stored when an
option is set to a value, and nothing when the value is refused. What they accept is up to the
library. -/
structure Checks where
  /-- One of some names. -/
  oneOf : List String → Value → Option Value
  /-- A truth value. -/
  switch : Value → Option Value
  /-- A list of texts. -/
  texts : Value → Option (List String)

/-- Why an option refuses a value, either by the checks of the library or by those that are made
here. -/
inductive OptionFault where
  /-- The library refuses the value. -/
  | type
  /-- A text that is no pattern. -/
  | pattern (error : ParseError)
  /-- A pattern with a number that is too long. The error is the one of the interpreter, which an
  option passes on as it is. -/
  | number (error : ParseError)
  deriving DecidableEq, Repr

/-- The refusal of a text that cannot be read as a pattern. Only the declared error is turned into a
refusal of the option. -/
def OptionFault.ofParseError (e : ParseError) : OptionFault :=
  if e.cause.isDeclared then pattern e else number e

/-- The message of a refusal, where it has one of its own. It quotes the text and goes on with the
error of reading it. -/
def OptionFault.message? : OptionFault → Option String
  | pattern e => some ("invalid path pattern " ++ Text.quoted e.text ++ ": " ++ e.message)
  | type | number _ => none

/-- The value that an option takes on when it is set to a value: the library checks the value, and
texts of patterns are read besides, in order. -/
def OptionKind.check (lib : Checks) : OptionKind → Value → Except OptionFault Value
  | level, v => ((lib.oneOf (Level.all.map Level.name) v).map .ok).getD (.error .type)
  | switch, v => ((lib.switch v).map .ok).getD (.error .type)
  | patterns, v =>
    match lib.texts v with
    | none => .error .type
    | some texts => do
      discard (texts.mapM fun t =>
        (Pattern.parse t Text.standardDigitLimit).mapError .ofParseError)
      return .list (texts.map .str)

/-! ### Sections -/

/-- The sections of the settings, which build on one another: every command has its own, and all
share the general ones. -/
inductive Section where
  /-- The root of all sections, which declares nothing. -/
  | base
  /-- What all commands share. -/
  | shared
  /-- The settings of comparing. -/
  | diff
  /-- The settings of finding. -/
  | find
  /-- The settings of projecting. -/
  | project
  deriving DecidableEq, Repr

namespace Section

/-- The name of a section in a settings file. -/
def name : Section → String
  | base => "PathdiffConfigurable"
  | shared => "Global"
  | diff => "Diff"
  | find => "Find"
  | project => "Project"

/-- The options that a section declares, sorted by name. -/
def options : Section → List (String × OptionKind)
  | base => []
  | shared => [("log_level", .level)]
  | diff => [("ignore", .patterns), ("include_objects", .switch)]
  | find => [("first", .switch)]
  | project => [("exclude", .patterns), ("include", .patterns)]

/-- The sections that a section builds on, from the root to itself. Options of later sections take
the place of those of earlier ones. -/
def lineage : Section → List Section
  | base => [base]
  | shared => [base, shared]
  | diff => [base, shared, diff]
  | find => [base, shared, find]
  | project => [base, shared, project]

/-- The options of a section with the values they have unless set. -/
def defaults (s : Section) : List (String × Value) :=
  s.options.map fun (name, kind) => (name, kind.default)

/-- What an option of a section, or of one it builds on, holds. Names that none of them declares are
no options, but may stand in settings. -/
def kind? (s : Section) (name : String) : Option OptionKind :=
  s.lineage.findSome? fun t => t.options.lookup name

/-- Sets an option among the values of a section; other names are set unchecked. A value that is
refused leaves no trace. -/
def set (s : Section) (lib : Checks) (values : List (String × Value)) (name : String)
    (value : Value) : Except OptionFault (List (String × Value)) := do
  let value ← match s.kind? name with
    | some kind => kind.check lib value
    | none => .ok value
  return values.map fun (n, v) => if n == name then (n, value) else (n, v)

end Section

end Settings

/-! ### Commands -/

/-- The commands of the program. Each has a word that chooses it and a section with its options. -/
inductive Command where
  /-- Compares two documents. -/
  | diff
  /-- Finds the values at a pattern. -/
  | find
  /-- Keeps or drops parts of a document. -/
  | project
  deriving DecidableEq, Repr

namespace Command

/-- All commands. -/
def all : List Command := [diff, find, project]

/-- The word that chooses a command. -/
def word : Command → String
  | diff => "diff"
  | find => "find"
  | project => "project"

/-- The name of a command in its settings and messages, which is its own and that of the whole
program. -/
def program (c : Command) : String := "pathdiff-" ++ c.word

/-- The section of a command. -/
def settingsSection : Command → Settings.Section
  | diff => .diff
  | find => .find
  | project => .project

/-- The command with a name. -/
def ofProgram? (name : String) : Option Command := all.find? fun c => c.program == name

/-- The message about a name that no command has. -/
def unknownMessage (name : String) : String :=
  "Config for entrypoint name " ++ Text.quoted name ++ " is not defined! Accepted values are ["
    ++ ", ".intercalate (all.map fun c => Text.quoted c.program) ++ "]."

end Command

end TreeDelta
