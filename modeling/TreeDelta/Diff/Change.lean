import TreeDelta.Value.Equality
import TreeDelta.Value.Literal

/-!
# Changes

A change says what became of the value at one path. An old or a new value that is not there is
different from one that is missing or null.

## Main definitions

* `Change`, `ChangeOp`: a change, and whether it adds, removes or replaces.
* `Change.reversed`: the change that undoes a change.
* `Change.ofFields`, `Change.toValue`: a change from and as named fields.
-/

namespace TreeDelta

/-- What a change does. -/
inductive ChangeOp where
  /-- A value appears. -/
  | add
  /-- A value disappears. -/
  | remove
  /-- A value gives way to another one. -/
  | replace
  deriving DecidableEq, Repr

/-- The word for what a change does. -/
def ChangeOp.word : ChangeOp → String
  | add => "add"
  | remove => "remove"
  | replace => "replace"

/-- A difference at one path, with the values that it goes from and to. A side that is absent is not
the same as one whose value is null. -/
structure Change where
  /-- Where the values differ. -/
  path : Path
  /-- The old value, if there is one. -/
  old? : Option Value
  /-- The new value, if there is one. -/
  new? : Option Value
  /-- Whether the new value is listed before the old one. -/
  newFirst : Bool := false
  deriving Repr, Inhabited

/-- Whether two optional values are both absent, or both there and equal in the loose sense. -/
def sameOptional : Option Value → Option Value → Bool
  | none, none => true
  | some a, some b => a.same b
  | _, _ => false

namespace Change

/-- The old value, or `missing` where the change has none. -/
def old (c : Change) : Value := c.old?.getD .missing

/-- The new value, or `missing` where the change has none. -/
def new (c : Change) : Value := c.new?.getD .missing

/-- What a change does, which depends only on which of its values are there. A change without values
counts as a removal. -/
def op (c : Change) : ChangeOp :=
  match c.old?, c.new? with
  | some _, some _ => .replace
  | none, some _ => .add
  | _, none => .remove

/-- The change that undoes a change: its values trade places. They are listed in the other order,
too, so the new value of the reversed change comes first. -/
def reversed (c : Change) : Change := ⟨c.path, c.new?, c.old?, true⟩

/-- Two changes are the same when their paths name the same place and their values are equal. The
order in which the values are listed does not matter. -/
def same (c d : Change) : Bool :=
  c.path.same d.path && sameOptional c.old? d.old? && sameOptional c.new? d.new?

/-- The name of the field that holds the old value. -/
def oldField : String := "old_value"

/-- The name of the field that holds the new value. -/
def newField : String := "new_value"

/-- The change with one more field, or the name of a field that no change has. A field that is set
twice keeps its place and takes the later value. -/
def setField (c : Change) (name : String) (value : Value) : Except String Change :=
  if name == oldField then .ok { c with old? := some value }
  else if name == newField then
    .ok { c with new? := some value, newFirst := c.newFirst || c.old?.isNone }
  else .error name

/-- The change at a path with the given fields, which are listed in this order. Values need not
differ, and none has to be there. -/
def ofFields (path : Path) (fields : List (String × Value)) : Except String Change :=
  fields.foldlM (fun c (name, value) => c.setField name value) ⟨path, none, none, false⟩

/-- The message about a field that no change has. -/
def fieldMessage (name : String) : String := "Unexpected Change field " ++ Text.quoted name

/-- The named values of a change in the order they are listed. -/
def fields (c : Change) : List (String × Value) :=
  let old := (c.old?.map fun v => (oldField, v)).toList
  let new := (c.new?.map fun v => (newField, v)).toList
  if c.newFirst then new ++ old else old ++ new

/-- A change as a dictionary: its path as a text, and the values that it has, in the order they are
listed. -/
def toValue (c : Change) : Value :=
  .ofFields (("path", .str c.path.render) :: c.fields)

/-- A change as a value is written. The old value is always written first, whatever the order in
which they are listed. -/
def literal (c : Change) : String :=
  let field (name : String) (v? : Option Value) : String :=
    match v? with
    | some v => ", " ++ name ++ "=" ++ v.literal
    | none => ""
  "Change(" ++ c.path.render ++ field oldField c.old? ++ field newField c.new? ++ ")"

end Change

end TreeDelta
