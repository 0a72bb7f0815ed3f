import TreeDelta.Json.Read
import TreeDelta.Json.Write
import TreeDelta.Settings.Merge
import TreeDelta.Settings.Schema

/-!
# Settings files

Settings come from files, from the least to the most important one. A library loads the files: it
gives the sections of a file as a dictionary, or a fault. What else the library does, such as
looking at a version, is its own matter, so it is a parameter here, and what is relied on is said
where something is proved about it.

## Main definitions

* `Settings.Loader`: what loads a settings file.
* `Settings.load`: the sections of all files, merged.
* `Settings.resolve`: the options of a command with their values.
* `Settings.printable`: settings with their values as JSON texts.
-/

namespace TreeDelta.Settings

/-! ### Loading -/

/-- Why a file cannot be loaded: the error of the library that loads it. Of such an error only its
name is told, and whether commands handle it. -/
structure LoadFault where
  /-- The name of the error. -/
  name : String
  /-- Whether the error says that a value is wrong. Commands pass over such errors. -/
  isValueError : Bool
  deriving DecidableEq, Repr

/-- What loads a settings file: from the text of the file it gives the entries of a dictionary,
whose values are the sections. -/
abbrev Loader := String → Except LoadFault (List (Value × Value))

/-- The loader of files that hold a JSON object: the members of the object are the sections. It
gives what a library gives for files without anything that the library looks at itself. -/
def objectLoader : Loader := fun text =>
  match Json.read? text with
  | some (.dict es) => .ok es
  | some _ => .error ⟨"TypeError", false⟩
  | none => .error ⟨"JSONDecodeError", true⟩

/-- Why there are no settings: either the library cannot load a file, or what it loads cannot be
merged. -/
inductive Fault where
  /-- A file cannot be loaded. -/
  | document (fault : LoadFault)
  /-- Settings cannot be merged. -/
  | merge (fault : MergeFault)
  deriving DecidableEq, Repr

/-- Whether a command goes on without settings after a fault. Faults that say that a value is wrong
are passed over, wherever they come from; other faults are not. -/
def Fault.isPassedOver : Fault → Bool
  | document fault => fault.isValueError
  | merge .byte => true
  | merge _ => false

/-! ### Merging -/

/-- The sections of files, merged from the least to the most important one. The first file that
cannot be loaded, or cannot be merged, ends the loading. Files are merged while they are loaded, so
the fault of an earlier file comes first, whatever its kind. -/
def load (loader : Loader) (keepNull : Bool) (documents : List String) : Except Fault Value :=
  documents.foldlM
    (fun settings text => do
      let es ← (loader text).mapError .document
      (merge keepNull settings (.dict es)).mapError .merge)
    (.dict [])

/-- Merges the options of one section, first their defaults and then what the settings say. A
section that the settings lack adds its defaults only. -/
def addSection (keepNull : Bool) (settings options : Value) (s : Section) :
    Except MergeFault Value := do
  let options ← merge keepNull options (.ofFields s.defaults)
  match settings with
  | .dict es =>
    match Value.lookup s.name es with
    | some v => merge keepNull options v
    | none => return options
  | _ => return options

/-- The options of a command with their values: for every section from the general one to its own,
the defaults and then the settings. With `keepNull` a null is a value like others, and otherwise it
takes a value away. -/
def resolve (loader : Loader) (keepNull : Bool) (documents : List String) (c : Command) :
    Except Fault Value := do
  let settings ← load loader keepNull documents
  (c.settingsSection.lineage.foldlM (addSection keepNull settings) (.dict [])).mapError .merge

/-! ### Printing -/

mutual

/-- The settings with the JSON text of every value; a section without values is shown as an empty
dictionary. Without a JSON text of some value there is none. -/
def printableEntries : List (Value × Value) → Option (List (Value × Value))
  | [] => some []
  | (k, v) :: es => do
    let v ← printableValue v
    let es ← printableEntries es
    return (k, v) :: es

/-- The JSON text of a value, or a section with the texts of its values. Only values that are no
dictionaries have a text. -/
def printableValue : Value → Option Value
  | .dict [] => some (.str "\x7b\x7d")
  | .dict es => (printableEntries es).map .dict
  | v => (Json.write? .line v).map .str

end

/-- Settings to be printed: every value as its JSON text. -/
def printable : Value → Option Value
  | .dict es => (printableEntries es).map .dict
  | _ => none

end TreeDelta.Settings
