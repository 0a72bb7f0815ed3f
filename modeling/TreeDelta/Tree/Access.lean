import TreeDelta.Value.Literal

/-!
# Reading and editing a tree

Reading is strict: an index steps only into lists and a property only into dictionaries. Editing is
lenient for dictionaries, where an index stands for the key with its numeral. A write makes the
containers it needs, a list for an index and a dictionary for a property; it fails at a scalar in
the way and at a property of a list. A deletion never fails and makes nothing: what is not there
stays away, and holes at the end of a list are cut off.

## Main definitions

* `Value.child?`, `Path.find?`, `Path.get`: reading.
* `Path.assign`, `Path.erase`: writing and deleting.
* `Path.set`: writing, where writing `missing` is deleting.
* `Path.writeInPlace`: a write that edits the tree it is given, also when it fails on the way.
* `EditFault`: why a write fails.
-/

namespace TreeDelta

/-! ### Reading -/

/-- The value one step down. Reading keeps kinds apart: an index leads into lists only and a
property into dictionaries only. -/
def Value.child? : Value → Component → Option Value
  | .list items, .index i => items[i]?
  | .dict entries, .property name => Value.lookup name entries
  | _, _ => none

/-- The value at a path, whatever it is. Where a step leads nowhere, there is no value. -/
def Path.find? : Path → Value → Option Value
  | [], v => some v
  | c :: p, v =>
    match v.child? c with
    | some w => Path.find? p w
    | none => none

/-- The value at a path, or the default where there is none or it is missing. A null is a value that
is there. -/
def Path.get (p : Path) (root default : Value) : Value :=
  match p.find? root with
  | some v => if v.isMissing then default else v
  | none => default

/-! ### Steps of an edit -/

/-- Why a value cannot be written. Every fault carries the whole path of the write, which the
wording names. -/
inductive EditFault where
  /-- The root is no container. -/
  | rootType (path : Path) (typeName : String)
  /-- The value at a path on the way is no container. -/
  | valueType (path place : Path) (typeName : String)
  /-- A property of a list. -/
  | listProperty (path : Path) (name : String)
  deriving DecidableEq, Repr

/-- The wording of a fault. A fault on the way names the place where the write stopped, too, unless
that is the root. -/
def EditFault.message : EditFault → String
  | rootType path typeName =>
    "Cannot set " ++ path.render ++ ": root is a " ++ typeName ++ ", not a container"
  | valueType path place typeName =>
    "Cannot set " ++ path.render ++ ": value at " ++ place.render ++ " is a " ++ typeName
      ++ ", not a container"
  | listProperty path name =>
    "Cannot set " ++ path.render ++ ": property " ++ Text.quoted name ++ " of a list"

namespace Value

/-- The list with a value at an index; the places up to it that are not there become holes. -/
def putItem : Nat → Value → List Value → List Value
  | 0, v, [] => [v]
  | 0, v, _ :: items => v :: items
  | i + 1, v, [] => missing :: putItem i v []
  | i + 1, v, w :: items => w :: putItem i v items

/-- The list without the holes at its end. A list of nothing but holes becomes empty. -/
def trimHoles : List Value → List Value
  | [] => []
  | v :: items =>
    match trimHoles items with
    | [] => if v.isMissing then [] else [v]
    | kept => v :: kept

/-- The container with one place removed: a hole in a list, cut off at its end, and no entry in a
dictionary. -/
def eraseChild : Value → Component → Value
  | list items, .index i =>
    if i < items.length then list (trimHoles (items.set i missing)) else list items
  | dict entries, c => dict (erase c.text entries)
  | v, _ => v

/-- The new container that a component steps into: a list for an index and a dictionary for a
property. The kind of the component decides, not its text. -/
def emptyFor : Component → Value
  | .index _ => list []
  | .property _ => dict []

/-- Whether a value gives way to a new container. Both what is missing and what is null do. -/
def isVacant : Value → Bool
  | missing | null => true
  | _ => false

end Value

/-! ### Edits -/

/-- The value at one step of an edit: an index of a dictionary stands for its numeral. Unlike
reading, editing follows such an index. -/
def Value.editChild? : Value → Component → Option Value
  | .list items, .index i => items[i]?
  | .dict entries, c => Value.lookup c.text entries
  | _, _ => none

/-- The container with a value put at one place; other values stay as they are. -/
def Value.putChild : Value → Component → Value → Value
  | .list items, .index i, v => .list (Value.putItem i v items)
  | .dict entries, c, v => .dict (Value.insert c.text v entries)
  | w, _, _ => w

/-- Whether a write can step from a value: in a dictionary an index stands for its numeral. -/
def Value.admits : Value → Component → Bool
  | .list _, .index _ => true
  | .dict _, _ => true
  | _, _ => false

/-- The container that a write steps into: the value at hand, or a new container in place of a
vacant value. `path` is the whole path of the write and `place` is where the value stands. -/
def Value.openFor (path place : Path) (c : Component) (v : Value) : Except EditFault Value :=
  let container := if v.isVacant then Value.emptyFor c else v
  match container, c with
  | .list _, .property name => .error (.listProperty path name)
  | .list items, .index _ => .ok (.list items)
  | .dict entries, _ => .ok (.dict entries)
  | w, _ =>
    if place.isEmpty then .error (.rootType path w.typeName)
    else .error (.valueType path place w.typeName)

namespace Path

/-- Writes a value below the place reached so far; `path` is the whole path, for the faults. On the
way down containers are opened, and on the way back up each takes in the child that was written. -/
def assignFrom (path place : Path) : Path → Value → Value → Except EditFault Value
  | [], _, value => .ok value
  | c :: rest, current, value => do
    let container ← current.openFor path place c
    let child := (container.editChild? c).getD .missing
    let child ← assignFrom path (place ++ [c]) rest child value
    return container.putChild c child

/-- The tree with a value written at a path. At the root the value itself is the tree. -/
def assign (p : Path) (tree value : Value) : Except EditFault Value :=
  p.assignFrom root p tree value

/-- The tree with the value at a path deleted. Where the way to it is not there, or leads through no
container, nothing is changed; deleting never fails. -/
def erase : Path → Value → Value
  | [], _ => .missing
  | [c], tree => tree.eraseChild c
  | c :: rest, tree =>
    match tree.editChild? c with
    | some child =>
      if child.isContainer then tree.putChild c (erase rest child) else tree
    | none => tree

/-- The tree with a value written at a path; writing `missing` deletes. This is what is returned;
what becomes of the tree that was given is `Path.writeInPlace`. -/
def set (p : Path) (tree value : Value) : Except EditFault Value :=
  if value.isMissing then .ok (p.erase tree) else p.assign tree value

/-! ### Writes in place -/

/-- A write below a container, in place: why it is stopped, if it is, and what has become of the
container. A new container stands in the tree before the write goes on in it. -/
def fill (path place : Path) : Path → Value → Value → Option EditFault × Value
  | [], current, _ => (none, current)
  | [c], current, value =>
    if current.admits c then (none, current.putChild c value)
    else (some (.listProperty path c.text), current)
  | c :: d :: rest, current, value =>
    if current.admits c then
      let child := (current.editChild? c).getD .missing
      if child.isVacant then
        let grown := current.putChild c (.emptyFor d)
        let (stopped?, child) := fill path (place ++ [c]) (d :: rest) (.emptyFor d) value
        (stopped?, grown.putChild c child)
      else if child.isContainer then
        let (stopped?, child) := fill path (place ++ [c]) (d :: rest) child value
        (stopped?, current.putChild c child)
      else (some (.valueType path (place ++ [c]) child.typeName), current)
    else (some (.listProperty path c.text), current)

/-- The tree that a write in place gives, or the fault that has stopped it. The part of the write
that was done before a fault is not undone by this. -/
def filled : Option EditFault × Value → Except EditFault Value
  | (some fault, _) => .error fault
  | (none, tree) => .ok tree

/-- A write in place: the tree that it gives, or a fault, and what has become of the tree that was
given. A vacant tree gives way to a new container, and is itself what it was. Whoever holds on to
the tree sees what has become of it, also after a fault. -/
def writeInPlace (p : Path) (tree value : Value) : Except EditFault Value × Value :=
  match p with
  | [] => (.ok value, tree)
  | c :: _ =>
    if tree.isVacant then (filled (fill p root p (.emptyFor c) value), tree)
    else if tree.isContainer then
      let outcome := fill p root p tree value
      (filled outcome, outcome.2)
    else (.error (.rootType p tree.typeName), tree)

/-- Whether an edit of a container keeps the container it was given. Only an edit of the root puts
another value in its place. -/
def keepsRoot (p : Path) : Bool := !p.isEmpty

end Path

end TreeDelta
