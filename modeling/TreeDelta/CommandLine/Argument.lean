import TreeDelta.Settings.Schema

/-!
# Arguments of a command

Arguments are read in two passes. The first one tells options from plain arguments: an option may
be shortened to a unique beginning and may carry its value behind an equals sign, and after a
separator `--` there are no more options. The second one hands the arguments out: an option takes
the argument behind it if it needs a value, and the others fill the places of the command in order.

## Main definitions

* `Argument.Flag`, `Argument.Effect`: an option, and what it does.
* `Argument.words?`: what every argument is, unless one is ambiguous.
* `Argument.events`: what the arguments ask for, in order, up to the first misuse.
-/

namespace TreeDelta.Argument

/-! ### Options -/

/-- What an option does. Some end the run, some leave a mark on it, and the others set one of the
values that a command runs with. -/
inductive Effect where
  /-- Prints the usage. -/
  | help
  /-- Prints the version. -/
  | version
  /-- Prints the settings. -/
  | settings
  /-- Sets the log level. -/
  | level
  /-- Sets a value to true or false. -/
  | switch (target : String) (value : Bool)
  /-- Adds its argument to a list. -/
  | append (target : String)
  /-- Stores its argument. -/
  | store (target : String)
  deriving DecidableEq, Repr

/-- Whether an option takes an argument. -/
def Effect.takesArgument : Effect → Bool
  | level | append _ | store _ => true
  | _ => false

/-- An option of a command. An option with two names is two of these. -/
structure Flag where
  /-- Its name, with the dashes. -/
  name : String
  /-- What it does. -/
  effect : Effect
  deriving DecidableEq, Repr

/-- The options that all commands have. They stand before those of a command. -/
def shared : List Flag :=
  [⟨"-h", .help⟩, ⟨"--help", .help⟩, ⟨"--version", .version⟩, ⟨"--config", .settings⟩,
    ⟨"--log-level", .level⟩]

/-- The option that stores the name of the output. -/
def output : Flag := ⟨"--out", .store "out"⟩

/-- The option against colours. -/
def noColour : Flag := ⟨"--no-color", .switch "use_color" false⟩

/-- The options of a command, in the order in which its usage lists them. -/
def flags : Command → List Flag
  | .diff => shared ++ [⟨"--include-objects", .switch "include_objects" true⟩,
      ⟨"--ignore", .append "ignore"⟩, noColour, output]
  | .find => shared ++ [noColour, ⟨"--first", .switch "first" true⟩]
  | .project => shared ++ [⟨"--include", .append "include"⟩, ⟨"--exclude", .append "exclude"⟩,
      output]

/-- The places that plain arguments fill, in order. All of them have to be filled. -/
def places : Command → List String
  | .diff => ["before", "after"]
  | .find => ["pattern", "file"]
  | .project => ["file"]

/-- The values before any argument is read, where the settings say nothing. Settings may set each of
them, also those that no section declares. -/
def defaults : Command → List (String × Value)
  | .diff => [("include_objects", .bool false), ("ignore", .list []), ("use_color", .bool true),
      ("out", .null)]
  | .find => [("use_color", .bool true), ("first", .bool false)]
  | .project => [("include", .list []), ("exclude", .list []), ("out", .null)]

/-! ### Words -/

/-- What an argument is, judged by its own text and by whether a separator came before. -/
inductive Word where
  /-- A plain argument. -/
  | plain (s : String)
  /-- The separator. -/
  | separator
  /-- An option, perhaps with the value behind its equals sign. -/
  | option (effect : Effect) (value? : Option String)
  /-- The option of the usage with more letters behind it. -/
  | helpLetters (letters : List Char)
  /-- What looks like an option but is none. -/
  | unknown
  deriving DecidableEq, Repr

/-- A text before and after its first equals sign, which belongs to neither part. -/
def splitEquals (s : String) : String × Option String :=
  let cs := s.toList
  let name := cs.takeWhile (· != '=')
  (String.ofList name,
    if name.length < cs.length then some (String.ofList (cs.drop (name.length + 1))) else none)

/-- Whether the text after a minus sign is a number, with or without a point and perhaps with a
line feed at its end. -/
def isNumber (cs : List Char) : Bool :=
  let number := if cs.getLast? == some '\n' then cs.dropLast else cs
  match number.dropWhile Text.isDecimalDigit with
  | [] => !number.isEmpty
  | '.' :: digits => !digits.isEmpty && digits.all Text.isDecimalDigit
  | _ => false

/-- What an argument is that starts with a dash and is no option by its whole name: the beginning of
a single option, a plain argument if it is a number or has a space in it, or an option that there is
not. -/
def abbreviated? (c : Command) (s : String) : Option Word :=
  let (name, value?) := splitEquals s
  match s.toList with
  | '-' :: '-' :: _ =>
    match (flags c).filter fun f => name.toList.isPrefixOf f.name.toList with
    | [] => some (if s.toList.contains ' ' then .plain s else .unknown)
    | [f] => some (.option f.effect value?)
    | _ => none
  | '-' :: 'h' :: letters => some (.helpLetters letters)
  | '-' :: cs =>
    some (if isNumber cs || cs.contains ' ' then .plain s else .unknown)
  | _ => some (.plain s)

/-- What an argument is, unless it is the ambiguous beginning of several options. -/
def word? (c : Command) (s : String) : Option Word :=
  if s.toList.head? != some '-' || s == "-" then some (.plain s)
  else match (flags c).find? fun f => f.name == s with
    | some f => some (.option f.effect none)
    | none =>
      match splitEquals s with
      | (name, some value) =>
        match (flags c).find? fun f => f.name == name with
        | some f => some (.option f.effect (some value))
        | none => abbreviated? c s
      | (_, none) => abbreviated? c s

/-- The argument that separates options from plain arguments. Behind it a dash has no meaning. -/
def separator : String := "--"

/-- What the arguments are; behind the separator all are plain. -/
def words? (c : Command) : List String → Option (List Word)
  | [] => some []
  | s :: rest =>
    if s == separator then some (.separator :: rest.map .plain)
    else do
      let word ← word? c s
      let words ← words? c rest
      return word :: words

/-! ### Events -/

/-- What an argument asks for, once it is clear which option or place it belongs to. -/
inductive Event where
  /-- To print the usage. -/
  | help
  /-- To print the version. -/
  | version
  /-- To print the settings. -/
  | settings
  /-- To set the log level; there is none if the separator stands in its place. -/
  | level (level? : Option Settings.Level)
  /-- To set a value to true or false. -/
  | switch (target : String) (value : Bool)
  /-- To add a value to a list. -/
  | append (target : String) (value : Value)
  /-- To store a value. -/
  | store (target : String) (value : Value)
  /-- Nothing: the arguments are not those of the command. -/
  | misuse

/-- What an option asks for without an argument. An option that takes one is misused. -/
def Effect.alone : Effect → Event
  | help => .help
  | version => .version
  | settings => .settings
  | switch target value => .switch target value
  | _ => .misuse

/-- The value of an argument. The separator is taken away also where it is an argument itself,
which leaves an empty list. -/
def argumentValue (s : String) : Value := if s == separator then .list [] else .str s

/-- What an option asks for with an argument. An option that takes none is misused, and so is the
level with a name that no level has. -/
def Effect.withArgument : Effect → String → Event
  | level, s =>
    if s == separator then .level none
    else match Settings.Level.ofName? s with
      | some l => .level (some l)
      | none => .misuse
  | append target, s => .append target (argumentValue s)
  | store target, s => .store target (argumentValue s)
  | _, _ => .misuse

/-- What the letters behind the option of the usage ask for: each of them has to be that option
again. -/
def lettersEvent (letters : List Char) : Event :=
  if letters.all (· == 'h') then .help else .misuse

/-- What the word before was, as far as it matters to the next one. -/
inductive Before where
  /-- An argument that filled a place; a separator behind it goes with it. -/
  | place
  /-- A separator, which goes with the argument behind it. -/
  | separator
  /-- Anything else. -/
  | other
  deriving DecidableEq, Repr

/-- The value that an argument puts into a place, given what the word before was. Only one separator
is taken away: the one that goes with the argument, or else the argument itself. -/
def placeValue (before : Before) (s : String) : Value :=
  if before == .separator then .str s else argumentValue s

/-- What words ask for, in order. `openPlaces` are those not filled yet, `stray` tells that an
argument was left over, and `before` what the word before was. -/
def handOut (openPlaces : List String) (stray : Bool) (before : Before) : List Word → List Event
  | [] => if stray || !openPlaces.isEmpty then [.misuse] else []
  | .plain s :: ws =>
    match openPlaces with
    | place :: places =>
      .store place (placeValue before s) :: handOut places stray .place ws
    | [] => handOut [] true .other ws
  | .separator :: ws =>
    if before = .place then handOut openPlaces stray .other ws
    else handOut openPlaces (stray || ws.isEmpty) .separator ws
  | .option effect (some value) :: ws =>
    (if effect.takesArgument then effect.withArgument value else .misuse)
      :: handOut openPlaces stray .other ws
  | .option effect none :: ws =>
    if effect.takesArgument then
      match ws with
      | .plain s :: ws => effect.withArgument s :: handOut openPlaces stray .other ws
      | _ => [.misuse]
    else effect.alone :: handOut openPlaces stray .other ws
  | .helpLetters letters :: ws => lettersEvent letters :: handOut openPlaces stray .other ws
  | .unknown :: ws => handOut openPlaces true .other ws

/-- What the arguments of a command ask for, in order. An ambiguous one makes all of them a
misuse. -/
def events (c : Command) (args : List String) : List Event :=
  match words? c args with
  | some words => handOut (places c) false .other words
  | none => [.misuse]

end TreeDelta.Argument
