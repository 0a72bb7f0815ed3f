import TreeDelta.Number.Shortest
import TreeDelta.Pattern.Basic

/-!
# Values

A tree is a value: lists and dictionaries over scalars, with some kinds that a tree may hold but a
diff does not look into. A value may be `missing`, which is different from a null: it marks a hole
in a list and a value that is not there. Objects without a value of their own (functions, objects
of an unknown class, objects that convert themselves to JSON) are told apart by a label.

## Main definitions

* `Value`: the values.
* `Value.typeName`: the name of the type of a value, as messages give it.
* `Value.lookup`, `Value.insert`, `Value.erase`: the entries of a dictionary under string keys.
* `Value.isPrimitive`, `Value.kind?`: scalars, and the two kinds of container.
-/

namespace TreeDelta

/-- A value of a tree. Entries of a dictionary stand in the order of their first insertion. Besides
what a document can hold there are all the values that a caller may hand in, since each of them is
answered somewhere, if only by an error that names its type. -/
inductive Value where
  /-- The mark of a value that is not there. -/
  | missing
  /-- The null value. -/
  | null
  /-- A truth value. -/
  | bool (b : Bool)
  /-- An integer of any size. -/
  | int (n : Int)
  /-- A floating-point number. -/
  | float (x : Binary64)
  /-- A complex number with real and imaginary part. -/
  | complex (re im : Binary64)
  /-- A string. -/
  | str (s : String)
  /-- A byte string. -/
  | bytes (bs : List UInt8)
  /-- A list. -/
  | list (items : List Value)
  /-- A dictionary. -/
  | dict (entries : List (Value × Value))
  /-- A tuple. -/
  | tuple (items : List Value)
  /-- A set. -/
  | set (items : List Value)
  /-- A function. -/
  | function (label : Nat)
  /-- An object of an unknown class that carries a value. -/
  | object (label : Nat) (className : String) (payload : Value)
  /-- An object that converts itself to the given value. -/
  | hooked (label : Nat) (result : Value)
  /-- A path as a value. -/
  | path (p : Path)
  /-- A pattern as a value. -/
  | pattern (m : Pattern)
  deriving Inhabited, Repr

/-- The two kinds of container that a path can step into. Tuples and sets are values like any other
here. -/
inductive Kind where
  /-- A list. -/
  | array
  /-- A dictionary. -/
  | object
  deriving DecidableEq, Repr

/-- The name of a kind. -/
def Kind.name : Kind → String
  | array => "array"
  | object => "object"

namespace Value

/-! ### Types -/

/-- The name of the type of a value, as messages about values of a wrong type give it. -/
def typeName : Value → String
  | missing => "_MissingType"
  | null => "NoneType"
  | bool _ => "bool"
  | int _ => "int"
  | float _ => "float"
  | complex _ _ => "complex"
  | str _ => "str"
  | bytes _ => "bytes"
  | list _ => "list"
  | dict _ => "dict"
  | tuple _ => "tuple"
  | set _ => "set"
  | function _ => "function"
  | object _ className _ => className
  | hooked _ _ => "WithToJson"
  | path _ => "Path"
  | pattern _ => "PathMatcher"

/-- Whether a value is the mark of a value that is not there. Such a mark is what an edit leaves
behind in the middle of a list. -/
def isMissing : Value → Bool
  | missing => true
  | _ => false

/-- The kind of a container; nothing else has one. What is looked into, and what is written into, is
decided by this alone. -/
def kind? : Value → Option Kind
  | list _ => some .array
  | dict _ => some .object
  | _ => none

/-- Whether a value is a list or a dictionary. -/
def isContainer (v : Value) : Bool := v.kind?.isSome

/-- Whether a value is a scalar, which is never looked into. -/
def isPrimitive : Value → Bool
  | missing | null | bool _ | int _ | float _ | complex _ _ | str _ | bytes _ => true
  | _ => false

/-- Whether a value can be called. -/
def isCallable : Value → Bool
  | function _ => true
  | _ => false

/-- The empty container of a kind. -/
def empty : Kind → Value
  | .array => list []
  | .object => dict []

/-- The empty container of the same kind as a value, or `missing` where the value is no
container. -/
def emptyLike (v : Value) : Value :=
  match v.kind? with
  | some k => empty k
  | none => missing

/-- Whether a value counts as true: empty, zero, null and missing values do not. -/
def isTruthy : Value → Bool
  | missing | null => false
  | bool b => b
  | int n => n != 0
  | float x => !x.isZero
  | complex re im => !(re.isZero && im.isZero)
  | str s => s != ""
  | bytes bs => !bs.isEmpty
  | list items | tuple items | set items => !items.isEmpty
  | dict entries => !entries.isEmpty
  | path p => !p.isEmpty
  | pattern m => !m.isEmpty
  | function _ | object _ _ _ | hooked _ _ => true

/-! ### Entries of a dictionary under string keys -/

/-- The value under a string key. Keys of other types are passed over: they are never equal to a
string. -/
def lookup (key : String) : List (Value × Value) → Option Value
  | [] => none
  | (str k, v) :: es => if k = key then some v else lookup key es
  | _ :: es => lookup key es

/-- Puts a value under a string key: an entry that is there keeps its place, and a new one comes
last. -/
def insert (key : String) (value : Value) : List (Value × Value) → List (Value × Value)
  | [] => [(str key, value)]
  | (str k, v) :: es =>
    if k = key then (str k, value) :: es else (str k, v) :: insert key value es
  | e :: es => e :: insert key value es

/-- Takes the entry under a string key away. The entries around it keep their order. -/
def erase (key : String) : List (Value × Value) → List (Value × Value)
  | [] => []
  | (str k, v) :: es => if k = key then es else (str k, v) :: erase key es
  | e :: es => e :: erase key es

/-- The dictionary with the given string keys; of two values under one key the last one stays. -/
def ofFields (fields : List (String × Value)) : Value :=
  dict (fields.foldl (fun es (k, v) => insert k v es) [])

end Value

end TreeDelta
