import TreeDelta.Report.Timestamp

/-!
# Files

What a run can see of the files around it: the texts and times of files, and which directories
there are. The null device is a file that is always there.

## Main definitions

* `World`: the files and directories.
* `World.isThere`, `World.read`, `World.writeFault?`: looking at a file.
* `World.settingsTexts`: the settings files, from the least to the most important one.
-/

namespace TreeDelta

/-- A file, as far as a run can see it. -/
structure FileEntry where
  /-- Its text. -/
  text : String
  /-- The time of its last change. -/
  time : Timestamp
  deriving Repr

/-- The files and directories that a run can see. A run does not change them: what it writes is told
apart from them. -/
structure World where
  /-- The files by name. -/
  files : List (String × FileEntry)
  /-- The directories by name, besides the current one and those that hold a file. -/
  directories : List String
  /-- The directories of settings files, the most important one first. -/
  settingsDirectories : List String
  deriving Repr

/-- Why a file cannot be read or written. Each of these has an error of its own. -/
inductive FileFault where
  /-- There is no such file, or no such directory for it. -/
  | notFound
  /-- It is a directory. -/
  | isDirectory
  /-- It lies in something that is no directory. -/
  | notDirectory
  deriving DecidableEq, Repr

namespace World

/-- The name of the null device, which stands for a document that is not there. -/
def nullDevice : String := "/dev/null"

/-- A name as the names of the directories to pass and a last name; an absolute name starts with an
empty one. -/
def steps (name : String) : List String :=
  let parts := (name.toList.splitOnP (· == '/')).map String.ofList
  let kept := parts.filter fun s => s != "" && s != "."
  if name.startsWith "/" then "" :: kept else kept

/-- The file with a name. Names that lead the same way mean the same file, but no file has a name
that ends in a slash. -/
def file? (w : World) (name : String) : Option FileEntry :=
  if name.endsWith "/" then none
  else (w.files.find? fun (n, _) => steps n == steps name).map Prod.snd

/-- Whether a list of names is a directory: the current one, the root, one that is listed, or one
that holds a file. -/
def isDirectorySteps (w : World) (dir : List String) : Bool :=
  dir.isEmpty || dir == [""] || w.directories.any (fun d => steps d == dir)
    || w.files.any (fun (n, _) => dir.isPrefixOf (steps n).dropLast)

/-- Whether a name is that of a directory. -/
def isDirectory (w : World) (name : String) : Bool :=
  name != "" && w.isDirectorySteps (steps name)

/-- Whether there is something with a name. -/
def isThere (w : World) (name : String) : Bool :=
  name == nullDevice || (w.file? name).isSome || w.isDirectory name

/-- The text of a file. -/
def read (w : World) (name : String) : Except FileFault String :=
  match w.file? name with
  | some f => .ok f.text
  | none => .error (if w.isDirectory name then .isDirectory else .notFound)

/-- The time of the last change of a file. -/
def time? (w : World) (name : String) : Option Timestamp := (w.file? name).map FileEntry.time

/-- Why a file cannot be written, if it cannot. The file itself need not be there, but its directory
does. -/
def writeFault? (w : World) (name : String) : Option FileFault :=
  if name == nullDevice then none
  else if w.isDirectory name then some .isDirectory
  else
    let dir := (steps name).dropLast
    if w.isDirectorySteps dir then
      if name.endsWith "/" then some .isDirectory else none
    else if w.files.any fun (n, _) => (steps n).isPrefixOf dir then some .notDirectory
    else some .notFound

/-- The name of a settings file. -/
def settingsName : String := "pathdiff_config.json"

/-- The texts of the settings files that are there, from the least to the most important one. A
directory without one is passed over. -/
def settingsTexts (w : World) : List String :=
  w.settingsDirectories.reverse.filterMap fun dir =>
    (w.file? (if dir.isEmpty then settingsName else dir ++ "/" ++ settingsName)).map FileEntry.text

end World

end TreeDelta
