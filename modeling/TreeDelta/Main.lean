import TreeDelta.CommandLine.Run

/-!
# The program

The outer layer of the program: it looks at the files that the arguments name, runs the command on
what it saw, and then prints and writes what the run gave back. All decisions are made by
`CommandLine.run`, which settings files are loaded for by `Settings.objectLoader` here.

## Main definitions

* `snapshot`: the files and directories that a run with some arguments can reach.
* `main`: the program.
-/

namespace TreeDelta

/-! ### Looking at files -/

/-- What an action gives, or nothing if it fails. -/
def attempt? {α : Type} (action : IO α) : IO (Option α) := do
  try
    return some (← action)
  catch _ =>
    return none

/-- The file with a name, unless there is none, or it cannot be read. -/
def fileEntry? (name : String) : IO (Option FileEntry) := attempt? do
  let info ← (← IO.FS.realPath name).metadata
  let text ← IO.FS.readFile name
  return ⟨text, ⟨info.modified.sec * 1000000 + info.modified.nsec.toNat / 1000⟩⟩

/-- Whether a name is that of a directory. -/
def isDirectory (name : String) : IO Bool := do
  match ← attempt? (IO.FS.realPath name) with
  | some path => path.isDir
  | none => return false

/-- The name of the directory that holds a file. -/
def parentName (name : String) : String :=
  let kept := (World.steps name).dropLast
  if kept == [""] then "/" else "/".intercalate kept

/-- The directories of settings files besides the current one, the most important one first. These
are the places where they usually are. -/
def settingsDirectories : IO (List String) := do
  let own ← match ← IO.getEnv "JUPYTER_CONFIG_DIR" with
    | some dir => pure [dir]
    | none => match ← IO.getEnv "HOME" with
      | some home => pure [home ++ "/.jupyter"]
      | none => pure []
  return own ++ ["/usr/local/etc/jupyter", "/etc/jupyter"]

/-- The names of files that an argument may mean: itself, or what stands behind its equals sign. -/
def fileNames (arg : String) : List String :=
  match Argument.splitEquals arg with
  | (_, some value) => [arg, value]
  | (_, none) => [arg]

/-- The files and directories that a run with some arguments can reach. They are read before the
run, which then needs no input or output. -/
def snapshot (args : List String) : IO World := do
  let places := "" :: (← settingsDirectories)
  let settings := places.map fun dir =>
    if dir.isEmpty then World.settingsName else dir ++ "/" ++ World.settingsName
  let names := args.flatMap fileNames
  let files ← (names ++ settings).filterMapM fun name => do
    return (← fileEntry? name).map fun entry => (name, entry)
  let directories ← (names ++ names.map parentName).filterM isDirectory
  return ⟨files, directories, places⟩

/-! ### Ending -/

/-- What is said about a fault that ends the program. -/
def RunFault.text : RunFault → String
  | settings _ => "The settings cannot be read."
  | reservedName => "The settings use a reserved name."
  | notList => "The settings hold no list where arguments are added."
  | levelType => "There is no name for a log level."
  | fileType | documentType => "There is no name for a file."
  | patternType => "The settings hold something that is no pattern."
  | number e => e.message
  | colour _ => "The settings hold no truth value for the colours."
  | outputType _ => "The settings hold no name for the output."
  | file .notFound => "No such file or directory."
  | file .isDirectory => "Is a directory."
  | file .notDirectory => "Not a directory."
  | malformed => "A document is no JSON."
  | diff e => e.message
  | projection (.clone e) => e.message
  | projection (.edit e) => e.message
  | unwritable => "The result has no JSON form."

/-- Prints how a run ended, and gives its exit code. A last text and a fault both count as
failures. -/
def finish : Stop → IO UInt32
  | .code n => return n.toUInt32
  | .text s => do
    IO.eprintln s
    return 1
  | .fault f => do
    IO.eprintln f.text
    return 1

end TreeDelta

/-- Runs the program with its arguments: the files are read first, then the run is computed, and
what it printed and wrote is carried out at last. -/
def main (args : List String) : IO UInt32 := do
  let world ← TreeDelta.snapshot args
  let (stop, session) := TreeDelta.CommandLine.run TreeDelta.Settings.objectLoader world args
  IO.print session.stdout
  IO.eprint session.stderr
  session.log.forM fun (level, text) => IO.eprintln ("[" ++ level.name ++ "] " ++ text)
  session.written.forM fun (name, text) => IO.FS.writeFile name text
  TreeDelta.finish stop
