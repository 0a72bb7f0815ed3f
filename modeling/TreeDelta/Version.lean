import TreeDelta.Diff.Patch
import TreeDelta.Projection.Clone

/-!
# Versions

A version is a current tree, perhaps with its previous tree. What has changed is computed at the
first question and kept. The old values at some patterns can be collected into a tree of their
own; the containers among them are the same ones that the kept changes show, and those that were
claimed as atomic values still belong to the trees, so an edit of one of the trees shows in all.

## Main definitions

* `Version`: the trees, the options, and what was computed.
* `Version.readChanges`, `Version.readPaths`, `Version.readOldValues`, `Version.touches`,
  `Version.toValue`: the questions, each with the version after it.
* `Version.setCurrent`, `Version.setPrevious`: edits of the trees, which keep what was computed.
* `Version.map`: a part of both trees as a version of its own.
-/

namespace TreeDelta

/-! ### Shared values -/

/-- A value of a kept change, and where else the same value stands. Only containers are tracked:
other values never change. -/
structure SharedValue where
  /-- The value as it is now. -/
  value : Value
  /-- Its place in the tree that it was found in. -/
  treePlace? : Option Path
  /-- Its place in the tree of old values. -/
  oldPlace? : Option Path
  deriving Repr

/-- A kept change. Its values are those of the moment when changes were first asked for, except
where a container is shared and was edited since. -/
structure KeptChange where
  /-- Where the values differ. -/
  path : Path
  /-- The old value, if there is one. -/
  old? : Option SharedValue
  /-- The new value, if there is one. -/
  new? : Option SharedValue
  deriving Repr

/-- The value at a path, where an index of a dictionary stands for its numeral. This is how an edit
goes down, so it finds what an edit would change. -/
def Path.reach? : Path → Value → Option Value
  | [], v => some v
  | c :: p, v =>
    match v.editChild? c with
    | some w => Path.reach? p w
    | none => none

/-- Whether a place is, or lies below, another place. Places are compared by the texts of their
components. -/
def Path.isAtOrBelow (p place : Path) : Bool := place.texts.isPrefixOf p.texts

/-- What becomes of a value at a place of a tree after an edit. An edit at the place or above it
takes the value out of the tree; any other edit may show in it. -/
def Path.follow (edit place : Path) (tree value : Value) : Value × Option Path :=
  if place.isAtOrBelow edit then (value, none)
  else match place.reach? tree with
    | some v => (v, some place)
    | none => (value, none)

namespace SharedValue

/-- The value after an edit of the tree that it was found in. A value that stands nowhere in it
stays as it is. -/
def followTree (s : SharedValue) (edit : Path) (tree : Value) : SharedValue :=
  match s.treePlace? with
  | none => s
  | some place =>
    let (value, place?) := edit.follow place tree s.value
    { s with value := value, treePlace? := place? }

/-- The value after an edit of the tree of old values. A value that stands nowhere in it stays as it
is. -/
def followOld (s : SharedValue) (edit : Path) (values : Value) : SharedValue :=
  match s.oldPlace? with
  | none => s
  | some place =>
    let (value, place?) := edit.follow place values s.value
    { s with value := value, oldPlace? := place? }

/-- The value of a change at a path: a container that counts as atomic stands in its tree, too. -/
def ofLeaf (cfg : Diff.Config) (tree : Value) (p : Path) (v : Value) : SharedValue :=
  let claimed := match cfg.isAtomic?, p.find? tree with
    | some atomic, some w => w.isContainer && atomic w p
    | _, _ => false
  ⟨v, if claimed then some p else none, none⟩

end SharedValue

namespace KeptChange

/-- The change as it is now. -/
def toChange (c : KeptChange) : Change :=
  ⟨c.path, c.old?.map SharedValue.value, c.new?.map SharedValue.value, false⟩

/-- A change between two trees, to be kept. Its old value may stand in the previous tree and its new
value in the current one. -/
def ofChange (cfg : Diff.Config) (before after : Value) (c : Change) : KeptChange :=
  ⟨c.path, c.old?.map (SharedValue.ofLeaf cfg before c.path),
    c.new?.map (SharedValue.ofLeaf cfg after c.path)⟩

/-- The change after its old value was written to the tree of old values. From then on a container
stands there, too, and is changed by what is written below it. -/
def place (c : KeptChange) : KeptChange :=
  { c with old? := c.old?.map fun s =>
      if s.value.isContainer then { s with oldPlace? := some c.path } else s }

/-- Writes the old value to where it stands in the previous tree, so that an edit of it by other
ways shows there. -/
def restore (tree : Value) (c : KeptChange) : Value :=
  match c.old? with
  | some ⟨value, some place, _⟩ => (place.assign tree value).toOption.getD tree
  | _ => tree

/-- Writes the old value to where it stands in the tree of old values, so that an edit of it by
other ways shows there. -/
def restoreOld (values : Value) (c : KeptChange) : Value :=
  match c.old? with
  | some ⟨value, some _, some place⟩ => (place.assign values value).toOption.getD values
  | _ => values

end KeptChange

/-! ### Versions -/

/-- A tree, perhaps with its previous version, and what was computed about them. Answers are
computed at the first question and kept, whatever becomes of the trees. -/
structure Version where
  /-- The current tree. -/
  current : Value
  /-- The previous tree; null if there is none. -/
  previous : Value
  /-- The options of the diff. -/
  config : Diff.Config
  /-- The patterns whose old values are collected. -/
  oldPatterns : List Pattern
  /-- The changes, once they were asked for. -/
  changes? : Option (List KeptChange) := none
  /-- The paths, once they were asked for. -/
  paths? : Option (List Path) := none
  /-- The tree of old values, once it was asked for; there may be none. -/
  oldValues? : Option (Option Value) := none

/-- Why a question has no answer: a tree cannot be walked, or an old value cannot be written. -/
inductive VersionFault where
  /-- A tree that a diff does not support. -/
  | diff (fault : Diff.Unsupported)
  /-- An old value that cannot be written. -/
  | edit (fault : EditFault)
  deriving DecidableEq, Repr

namespace Version

/-- Whether there is a previous tree. A null is the only value that stands for none. -/
def hasPrevious (v : Version) : Bool :=
  match v.previous with
  | .null => false
  | _ => true

/-! ### Changes and paths -/

/-- The changes, computed at the first question. The trees of that moment count; later edits make no
new changes. -/
def readChanges (v : Version) : Except Diff.Unsupported (List KeptChange × Version) :=
  match v.changes? with
  | some changes => .ok (changes, v)
  | none =>
    (Diff.changeset v.config v.previous v.current).map fun changes =>
      let kept := changes.map (KeptChange.ofChange v.config v.previous v.current)
      (kept, { v with changes? := some kept })

/-- The changed paths, in the order of the changes; without a previous tree there are none to speak
of. -/
def readChangedPaths (v : Version) :
    Except Diff.Unsupported (Option (List Path) × Version) :=
  if v.hasPrevious then
    v.readChanges.map fun (changes, v) => (some (changes.map KeptChange.path), v)
  else .ok (none, v)

/-- The changed paths, or all paths of the current tree if there is no previous one. They are kept
apart from the changes. -/
def readPaths (v : Version) : Except Diff.Unsupported (List Path × Version) :=
  match v.paths? with
  | some paths => .ok (paths, v)
  | none => do
    let (changed, v) ← v.readChangedPaths
    let paths ← match changed with
      | some paths => .ok paths
      | none => Diff.allPaths v.config v.current
    return (paths, { v with paths? := some paths })

/-! ### Old values -/

/-- The collection of old values so far: their tree, and what its growth shows in. -/
structure Collection where
  /-- The tree of old values. -/
  values : Value
  /-- The kept changes. -/
  changes : List KeptChange
  /-- The previous tree. -/
  previous : Value

/-- Writes the old value of the change at a path. A value at the root is not collected. What is
written below a container that was collected before shows in that one, wherever it stands. -/
def Collection.add (c : Collection) (p : Path) : Except EditFault Collection :=
  if p.isEmpty then .ok c
  else do
    let old := (c.changes.find? fun k => k.path == p).bind KeptChange.old?
    let values ← p.set c.values ((old.map SharedValue.value).getD .missing)
    let changes := c.changes.map fun k =>
      if k.path == p then k.place
      else { k with old? := k.old?.map fun s => s.followOld p values }
    return ⟨values, changes, changes.foldl KeptChange.restore c.previous⟩

/-- Writes the old values at some paths, up to the first one that cannot be written. -/
def Collection.addAll (c : Collection) : List Path → Collection × Option EditFault
  | [] => (c, none)
  | p :: ps =>
    match c.add p with
    | .ok c => c.addAll ps
    | .error fault => (c, some fault)

/-- The change without a place in a tree of old values, as before any was collected. -/
def KeptChange.displace (k : KeptChange) : KeptChange :=
  { k with old? := k.old?.map fun s => { s with oldPlace? := none } }

/-- The empty tree of old values: a list if the previous tree is one, and else a dictionary. -/
def emptyOldValues (v : Version) : Value :=
  match v.previous with
  | .list _ => .list []
  | _ => .dict []

/-- The tree of the old values of the changes that some pattern matches, computed at the first
question. There is none without a previous tree or without such a change. -/
def readOldValues (v : Version) : Except VersionFault (Option Value) × Version :=
  if !v.hasPrevious || v.oldPatterns.isEmpty then (.ok none, v)
  else match v.oldValues? with
    | some values => (.ok values, v)
    | none =>
      match v.readChanges with
      | .error fault => (.error (.diff fault), v)
      | .ok (changes, v) =>
        let paths := (changes.map KeptChange.path).filter fun p =>
          v.oldPatterns.any fun m => m.accepts p
        if paths.isEmpty then (.ok none, { v with oldValues? := some none })
        else
          match Collection.addAll ⟨v.emptyOldValues, changes, v.previous⟩ paths with
          | (c, none) =>
            (.ok (some c.values),
              { v with previous := c.previous, changes? := some c.changes,
                       oldValues? := some (some c.values) })
          | (c, some fault) =>
            (.error (.edit fault),
              { v with previous := c.previous,
                       changes? := some (c.changes.map KeptChange.displace) })

/-! ### Patterns -/

/-- Whether one of some patterns touches the version: a changed path lies in it, or, without a
previous tree, it finds anything. -/
def touches (v : Version) (patterns : List Pattern) : Except Diff.Unsupported (Bool × Version) :=
  if v.hasPrevious then
    v.readChanges.map fun (changes, v) =>
      (patterns.any fun m => changes.any fun k => m.covers k.path, v)
  else .ok (patterns.any fun m => (m.searchFirst? v.current).isSome, v)

/-! ### As a value -/

/-- The version as a dictionary: the current tree, the changed paths and the old values. -/
def toValue (v : Version) : Except VersionFault Value × Version :=
  match v.readChangedPaths with
  | .error fault => (.error (.diff fault), v)
  | .ok (changed, v) =>
    let paths := match changed with
      | some ps => Value.list (ps.map fun p => .str p.render)
      | none => .null
    let (old, v) := v.readOldValues
    (old.map fun values =>
      .ofFields [("current", v.current), ("changed_paths", paths),
        ("previous", values.getD .null)], v)

/-! ### Edits and parts -/

/-- Whether an edit happens inside a tree, and does not put another tree in its place. -/
def editsInside (p : Path) (tree : Value) : Bool := p.keepsRoot && tree.isContainer

/-- Writes a value into the current tree; what was computed is kept. Only containers that stand in
the tree as well as in a change follow the edit. -/
def setCurrent (v : Version) (p : Path) (value : Value) : Except EditFault Version :=
  (p.set v.current value).map fun tree =>
    let inside := editsInside p v.current
    let follow (s : SharedValue) : SharedValue :=
      if inside then s.followTree p tree else { s with treePlace? := none }
    { v with
      current := tree
      changes? := v.changes?.map (List.map fun k => { k with new? := k.new?.map follow }) }

/-- Writes a value into the previous tree; what was computed is kept. Through shared containers such
an edit can show in the changes and in the tree of old values. -/
def setPrevious (v : Version) (p : Path) (value : Value) : Except EditFault Version :=
  (p.set v.previous value).map fun tree =>
    let inside := editsInside p v.previous
    let follow (s : SharedValue) : SharedValue :=
      if inside then s.followTree p tree else { s with treePlace? := none }
    let changes? := v.changes?.map (List.map fun k => { k with old? := k.old?.map follow })
    { v with
      previous := tree
      changes? := changes?
      oldValues? := v.oldValues?.map fun values =>
        values.map fun t => (changes?.getD []).foldl KeptChange.restoreOld t }

/-- The version of the values at a path, null where there is none. It is a new version, of which
nothing was asked yet. -/
def map (v : Version) (p : Path) (config : Diff.Config) (oldPatterns : List Pattern) : Version :=
  { current := p.get v.current .null
    previous := if v.hasPrevious then p.get v.previous .null else .null
    config := config
    oldPatterns := oldPatterns }

end Version

end TreeDelta
