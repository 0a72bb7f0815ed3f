import TreeDelta.CommandLine.Argument
import TreeDelta.CommandLine.World
import TreeDelta.Diff.Patch
import TreeDelta.Projection.Basic
import TreeDelta.Report.Print
import TreeDelta.Settings.Document

/-!
# Running a command

A run reads its arguments and files and gives back what it prints, logs and writes, together with
how it ends: with an exit code, with a last text, or with a fault that no command handles. The
library that loads settings files is a parameter of the run.

## Main definitions

* `Session`: what was printed, logged and written so far.
* `RunFault`, `Stop`: how a run ends.
* `CommandLine.run`: a run with the given arguments.
-/

namespace TreeDelta

/-! ### Sessions -/

/-- What a run has done so far. All of it can be seen from outside, so a fault later on does not
take it back. -/
structure Session where
  /-- What was printed. -/
  stdout : String := ""
  /-- What was printed beside it. -/
  stderr : String := ""
  /-- The log records that passed the level. -/
  log : List (Settings.Level × String) := []
  /-- The level that log records have to reach. -/
  level : Settings.Level := Settings.defaultLevel
  /-- The files written, by name. -/
  written : List (String × String) := []

/-- A fault that no command handles. It ends the run wherever it comes from, and is shown by whoever
runs the program. -/
inductive RunFault where
  /-- The settings cannot be read. -/
  | settings (fault : Settings.Fault)
  /-- The settings use a name that is reserved. -/
  | reservedName
  /-- An argument is to be added to something that is no list. -/
  | notList
  /-- There is no name for a log level. -/
  | levelType
  /-- There is no name for the file of a command. -/
  | fileType
  /-- There is no name for a document to compare. -/
  | documentType
  /-- The settings hold something that cannot be read as patterns. -/
  | patternType
  /-- A pattern has a number that is too long. Commands handle the declared error only. -/
  | number (error : ParseError)
  /-- The settings hold something else than a truth value for the colours. -/
  | colour (hashable : Bool)
  /-- The settings hold something else than a name for the output. -/
  | outputType (isInteger : Bool)
  /-- A file cannot be read or written. -/
  | file (fault : FileFault)
  /-- A document is no JSON. -/
  | malformed
  /-- Documents cannot be compared. -/
  | diff (fault : Diff.Unsupported)
  /-- A document cannot be projected. -/
  | projection (fault : ProjectionFault)
  /-- A result has no JSON form. -/
  | unwritable
  deriving DecidableEq, Repr

/-- How a run ends, if not by itself with everything done. -/
inductive Stop where
  /-- With an exit code. -/
  | code (n : Nat)
  /-- With a last text, which also marks a failure. -/
  | text (s : String)
  /-- With a fault. -/
  | fault (f : RunFault)
  deriving Repr

/-- A step of a run: it may add to what was done, and may end the run. -/
abbrev Run := ExceptT Stop (StateM Session)

namespace CommandLine

/-- Prints a text. -/
def print (s : String) : Run Unit := modify fun t => { t with stdout := t.stdout ++ s }

/-- Prints a text beside the output, where settings and complaints go. -/
def printError (s : String) : Run Unit := modify fun t => { t with stderr := t.stderr ++ s }

/-- Logs a text, if its level is at least the one that is set at that moment. -/
def log (level : Settings.Level) (s : String) : Run Unit :=
  modify fun t =>
    if t.level.rank ≤ level.rank then { t with log := t.log ++ [(level, s)] } else t

/-- Ends a run with an exit code. -/
def exit {α : Type} (n : Nat) : Run α := throw (.code n)

/-- Ends a run with a fault. -/
def fail {α : Type} (f : RunFault) : Run α := throw (.fault f)

/-- Ends a run with a fault if there is one. -/
def orFail {ε α : Type} (f : ε → RunFault) : Except ε α → Run α
  | .ok a => return a
  | .error e => fail (f e)

/-! ### Texts -/

/-- The version of the program. -/
def version : String := "0.1.0"

/-- The usage of the program. -/
def usage : String :=
  "Usage: pathdiff [OPTIONS]\n\n"
    ++ "OPTIONS: -h, --version, --config, COMMANDS\x7b"
    ++ ", ".intercalate (Command.all.map Command.word) ++ "\x7d\n\n"
    ++ "Examples: pathdiff --version\n"
    ++ "          pathdiff diff -h\n"
    ++ "          pathdiff diff before.json after.json\n"
    ++ "          pathdiff find '$.items[*].name' data.json\n"
    ++ "          pathdiff project data.json --exclude '$.*.secret'\n"

/-- The usage of a command: its options and places, in order. -/
def commandUsage (c : Command) : String :=
  "usage: " ++ c.program
    ++ String.join ((Argument.flags c).map fun f => " [" ++ f.name ++ "]")
    ++ String.join ((Argument.places c).map fun p => " " ++ p) ++ "\n"

/-! ### Values of a run -/

/-- The values that a command runs with, by name. -/
abbrev Values := List (String × Value)

/-- The value with a name; null if there is none, as for an option that a command does not have. -/
def value (vs : Values) (name : String) : Value := (vs.lookup name).getD .null

/-- The values with one of them set. -/
def setValue (vs : Values) (name : String) (v : Value) : Values :=
  (name, v) :: vs.filter fun e => e.1 != name

/-- The name that settings may not use for an option, because it already names something else where
the values are set. -/
def reservedName : String := "self"

/-- The values before any argument is read: those of the settings, and the defaults. Settings that
cannot be read are passed over, if the fault is one that commands go on after. -/
def initialValues (loader : Settings.Loader) (w : World) (c : Command) : Run Values :=
  match Settings.resolve loader false w.settingsTexts c with
  | .ok (.dict es) => do
    if (Value.lookup reservedName es).isSome then fail .reservedName
    return es.foldl
      (fun vs e => match e.1 with
        | .str name => setValue vs name e.2
        | _ => vs)
      (Argument.defaults c)
  | .ok _ => return Argument.defaults c
  | .error f => do
    if f.isPassedOver then return Argument.defaults c
    fail (.settings f)

/-- Prints the settings of a command with their values as JSON texts. Nulls are shown here and take
no value away. -/
def printSettings (loader : Settings.Loader) (w : World) (c : Command) : Run Unit := do
  let options ← orFail .settings (Settings.resolve loader true w.settingsTexts c)
  match Settings.printable options with
  | some shown => printError (Report.entries "" [(.str c.settingsSection.name, shown)])
  | none => fail .unwritable

/-- Does what an argument asks for: it ends the run, sets the level, or changes the values that the
command will run with. -/
def handle (loader : Settings.Loader) (w : World) (c : Command) (vs : Values) :
    Argument.Event → Run Values
  | .help => do
    print (commandUsage c)
    exit 0
  | .version => do
    print (c.program ++ " " ++ version ++ "\n")
    exit 0
  | .settings => do
    printSettings loader w c
    exit 1
  | .level (some l) => do
    modify fun t => { t with level := l }
    return setValue vs "log_level" (.str l.name)
  | .level none => fail .levelType
  | .switch target b => return setValue vs target (.bool b)
  | .append target v =>
    match value vs target with
    | .list items => return setValue vs target (.list (items ++ [v]))
    | .null => return setValue vs target (.list [v])
    | _ => fail .notList
  | .store target v => return setValue vs target v
  | .misuse => exit 2

/-! ### Files -/

/-- Ends a run if there is nothing with a name. Whether it is a file is looked at when it is
read. -/
def needFile (w : World) (name : String) : Run Unit := do
  if !w.isThere name then
    print ("Missing file " ++ name ++ "\n")
    exit 1

/-- The name of the file of a command, which has to be there. -/
def fileName (w : World) : Value → Run String
  | .str name => do
    needFile w name
    return name
  | _ => fail .fileType

/-- The name of a document to compare, which has to be there if it is a name at all. -/
def documentName? (w : World) : Value → Run (Option String)
  | .str name => do
    needFile w name
    return some name
  | _ => return none

/-- What a document that is not there is read as. Only the null device stands for such a
document. -/
inductive Absent where
  /-- An empty dictionary. -/
  | empty
  /-- A null. -/
  | none
  deriving DecidableEq, Repr

/-- The value of the document that is not there. -/
def Absent.value : Absent → Value
  | empty => .dict []
  | none => .null

/-- What a word says about documents that are not there. -/
def Absent.ofValue? (v : Value) : Option Absent :=
  match v with
  | .str "empty" => some empty
  | .str "none" => some none
  | _ => .none

/-- The message about a word that says nothing about documents that are not there. -/
def Absent.unknownMessage (v : Value) : String :=
  "Not valid value for `on_null`: " ++ v.literal ++ ". Valid values are \"empty\" or \"none\""

/-- Reads a document. A file that is not there and a text that is no document are faults. -/
def readDocument (w : World) (name : String) : Run Value := do
  if name == World.nullDevice then return Absent.empty.value
  let text ← orFail .file (w.read name)
  match Json.read? text with
  | some v => return v
  | none => fail .malformed

/-- Reads a document to compare. Settings may have put something in its place that is no name. -/
def readNamed (w : World) : Option String → Run Value
  | some name => readDocument w name
  | none => fail .documentType

/-- Writes a value as an indented document. The file is opened before the value is looked at, so its
fault comes first; what is written to the null device is gone. -/
def writeDocument (w : World) (name : String) (v : Value) : Run Unit := do
  match w.writeFault? name with
  | some fault => fail (.file fault)
  | none =>
    match Json.write? .indented v with
    | some text =>
      if name != World.nullDevice then
        modify fun t => { t with written := t.written.filter (·.1 != name) ++ [(name, text)] }
    | none => fail .unwritable

/-- Writes a value to the output that is asked for, and does something else if none is. -/
def writeOr (w : World) (output v : Value) (otherwise : Run Unit) : Run Unit :=
  if !output.isTruthy then otherwise
  else match output with
    | .str name => writeDocument w name v
    | .int _ | .bool _ => fail (.outputType true)
    | _ => fail (.outputType false)

/-! ### Patterns -/

/-- The values that a value holds when it is read as a list: a text holds its characters, and a
dictionary its keys. -/
def listValue : Value → Run (List Value)
  | .list items => return items
  | .str s => return s.toList.map fun c => .str c.toString
  | .dict es => return es.map Prod.fst
  | _ => fail .patternType

/-- The pattern of a value: an empty container reads like an empty text. A text that is no pattern
is logged and ends the run, but a number that is too long ends it as a fault. -/
def patternValue (complaint : String) (v : Value) : Run Pattern := do
  let refuse (message : String) : Run Pattern := do
    log .error (complaint ++ message)
    exit 1
  match v with
  | .str s =>
    match Pattern.parse s Text.standardDigitLimit with
    | .ok m => return m
    | .error e => if e.cause.isDeclared then refuse e.message else fail (.number e)
  | .list [] | .dict [] =>
    refuse ("Unexpected end of " ++ v.literal ++ ", expected one of "
      ++ expectedText (Phase.start.expected .wild))
  | _ => fail .patternType

/-- The patterns of a value, read in order, so that the first one that is none ends the run. -/
def patternValues (complaint : String) (v : Value) : Run (List Pattern) := do
  (← listValue v).mapM (patternValue complaint)

/-- What is logged about a text that is no pattern. -/
def patternComplaint : String := "Invalid pattern: "

/-! ### Commands -/

/-- Whether a value can be looked up in a table of marks at all. Lists and dictionaries cannot,
which is another fault than not being found. -/
def isKey : Value → Bool
  | .list _ | .dict _ => false
  | _ => true

/-- The marks that a value asks for. Only numbers equal to one and zero stand for truth values. -/
def palette (v : Value) : Run Palette :=
  if v.same (.bool true) then return .coloured
  else if v.same (.bool false) then return .plain
  else fail (.colour (isKey v))

/-- Prints the changes between two documents. The marks are only looked up when there are changes to
print, and behind the header. -/
def printChanges (before after : Report.Document) (colour : Value) (changes : List Change) :
    Run Unit := do
  if changes.isEmpty then return
  print (Report.changesetHeader before after)
  let marks ← palette colour
  print (String.join (changes.map (Report.change marks)))

/-- A file as one of the documents of a report. -/
def reportDocument (w : World) (name : String) : Report.Document :=
  ⟨name, (w.time? name).map Timestamp.text⟩

/-- Compares two documents. Both have to be there before anything is read, and patterns are read
before documents. -/
def runDiff (w : World) (vs : Values) : Run Unit := do
  let before? ← documentName? w (value vs "before")
  let after? ← documentName? w (value vs "after")
  let ignored := value vs "ignore"
  let patterns ← if ignored.isTruthy then patternValues "Invalid ignore pattern: " ignored
    else pure []
  let base : Diff.Config := { includeContainers := (value vs "include_objects").isTruthy }
  let cfg := base.ignoring patterns
  let a ← readNamed w before?
  let b ← readNamed w after?
  let old ← orFail .diff (Diff.leaves cfg a)
  log .debug ("Collected " ++ toString (Diff.collect old).length ++ " leaves of the base value")
  let new ← orFail .diff (Diff.leaves cfg b)
  let changes := Diff.changesOf cfg old new
  log .debug ("Found " ++ toString changes.length ++ " changes")
  writeOr w (value vs "out") (.list (changes.map Change.toValue))
    (printChanges (reportDocument w (before?.getD "")) (reportDocument w (after?.getD ""))
      (value vs "use_color") changes)

/-- Finds the values at a pattern, and prints them below their paths. -/
def runFind (w : World) (vs : Values) : Run Unit := do
  let file ← fileName w (value vs "file")
  let m ← patternValue patternComplaint (value vs "pattern")
  let v ← readDocument w file
  let nodes := if (value vs "first").isTruthy then (m.searchFirst? v).toList else m.search v
  print (Report.nodes nodes)

/-- Keeps or drops parts of a document, and writes or prints what is left. -/
def runProject (w : World) (vs : Values) : Run Unit := do
  let file ← fileName w (value vs "file")
  let includes ← patternValues patternComplaint (value vs "include")
  let excludes ← patternValues patternComplaint (value vs "exclude")
  let v ← readDocument w file
  let result ← orFail .projection (Projection.map ⟨includes, excludes⟩ v)
  writeOr w (value vs "out") result (do
    match Json.write? .indented result with
    | some text => print (text ++ "\n")
    | none => fail .unwritable)

/-- Runs a command with its arguments. Arguments are handled in order, on top of the settings. -/
def runCommand (loader : Settings.Loader) (w : World) (c : Command) (args : List String) :
    Run Unit := do
  let initial ← initialValues loader w c
  let vs ← (Argument.events c args).foldlM (handle loader w c) initial
  match c with
  | .diff => runDiff w vs
  | .find => runFind w vs
  | .project => runProject w vs

/-- Prints the settings of all commands. -/
def printAllSettings (loader : Settings.Loader) (w : World) : Run Unit := do
  printError "All available config options, and their current values:\n\n"
  Command.all.forM fun c => do
    printSettings loader w c
    printError "\n"

/-- Runs the program with its arguments: the first one chooses the command, and without a command it
asks for the version, the usage or the settings. -/
def dispatch (loader : Settings.Loader) (w : World) : List String → Run Unit
  | [] => throw (.text ("Option missing.\n\n" ++ usage))
  | word :: args =>
    match Command.all.find? fun c => c.word == word with
    | some c => runCommand loader w c args
    | none =>
      if word == "--version" then throw (.text version)
      else if word == "-h" || word == "--help" then throw (.text usage)
      else if word == "--config" then do
        printAllSettings loader w
        exit 1
      else throw (.text ("Unrecognized command '" ++ word ++ "'\n\n" ++ usage ++ "."))

/-- A run with the given arguments: how it ends, and what it has done. What was done before a fault
is kept. -/
def run (loader : Settings.Loader) (w : World) (args : List String) : Stop × Session :=
  match (dispatch loader w args).run.run {} with
  | (.ok (), session) => (.code 0, session)
  | (.error stop, session) => (stop, session)

end CommandLine

end TreeDelta
