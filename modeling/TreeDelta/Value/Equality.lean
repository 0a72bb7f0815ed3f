import TreeDelta.Value.Basic

/-!
# Equality of values

Two equalities are used. `Value.same` is the loose one: numbers of all types, truth values among
them, are compared by what they are worth, containers item by item, and dictionaries up to the
order of their entries; a value is always the same as itself. `Value.samePrimitive` is the strict
one of a diff, where truth values are no numbers and only scalars can be equal.

## Main definitions

* `Value.same`: loose equality.
* `Value.samePrimitive`: strict equality of scalars.
* `Value.put`, `Value.find?`: entries of a dictionary under keys of any type.
-/

namespace TreeDelta.Value

/-! ### Numbers -/

/-- Whether two reals, each an integer or a double, are equal in value. Nothing is rounded for it,
so a double equals one integer at most. -/
def sameReal : Int ⊕ Binary64 → Int ⊕ Binary64 → Bool
  | .inl m, .inl n => m == n
  | .inl m, .inr y => y.isInt m
  | .inr x, .inl n => x.isInt n
  | .inr x, .inr y => x.sameValue y

/-- The parts of a number, real and imaginary; a truth value is the number one or zero. -/
def number? : Value → Option ((Int ⊕ Binary64) × (Int ⊕ Binary64))
  | bool b => some (.inl (if b then 1 else 0), .inl 0)
  | int n => some (.inl n, .inl 0)
  | float x => some (.inr x, .inl 0)
  | complex re im => some (.inr re, .inr im)
  | _ => none

/-- Whether two values are numbers, of any type, that are equal in value. This is why the keys `1`,
`1.0` and `true` are one key of a dictionary. -/
def sameNumber (a b : Value) : Bool :=
  match number? a, number? b with
  | some (x, y), some (x', y') => sameReal x x' && sameReal y y'
  | _, _ => false

/-- Whether two scalars are one and the same value, although a part of it is not a number. Labels
stand for identity, so what is not a number is itself where its label is the same. -/
def identicalNan : Value → Value → Bool
  | float (.nan m), float (.nan n) => m == n
  | complex x y, complex x' y' => x == x' && y == y'
  | _, _ => false

/-! ### Loose equality -/

mutual

/-- Loose equality of two values: numbers by value whatever their type, texts and bytes by what they
hold, and containers item by item. Keys of dictionaries are compared this way. -/
def same : Value → Value → Bool
  | missing, b => b.isMissing
  | null, b => match b with | null => true | _ => false
  | str s, b => match b with | str t => s == t | _ => false
  | bytes s, b => match b with | bytes t => s == t | _ => false
  | list as, b => match b with | list bs => sameItems as bs | _ => false
  | tuple as, b => match b with | tuple bs => sameItems as bs | _ => false
  | set as, b => match b with | set bs => as.length == bs.length && allIn as bs | _ => false
  | dict as, b => match b with | dict bs => as.length == bs.length && entriesIn as bs | _ => false
  | function m, b => match b with | function n => m == n | _ => false
  | object m _ _, b => match b with | object n _ _ => m == n | _ => false
  | hooked m _, b => match b with | hooked n _ => m == n | _ => false
  | path p, b => match b with | path q => p.same q | _ => false
  | pattern p, b => match b with | pattern q => p == q | _ => false
  | bool x, b => sameNumber (bool x) b
  | int x, b => sameNumber (int x) b
  | float x, b => identicalNan (float x) b || sameNumber (float x) b
  | complex x y, b => identicalNan (complex x y) b || sameNumber (complex x y) b

/-- Whether two lists of values are equal item by item, and have the same length. -/
def sameItems : List Value → List Value → Bool
  | [], [] => true
  | a :: as, b :: bs => same a b && sameItems as bs
  | _, _ => false

/-- Whether every item of the first list is equal to one of the second. Sets of the same size are
compared this way. -/
def allIn : List Value → List Value → Bool
  | [], _ => true
  | a :: as, bs => bs.any (fun b => same a b) && allIn as bs

/-- Whether every entry of the first list has an equal entry in the second, wherever that stands. -/
def entriesIn : List (Value × Value) → List (Value × Value) → Bool
  | [], _ => true
  | (k, v) :: es, bs => bs.any (fun e => same k e.1 && same v e.2) && entriesIn es bs

end

/-! ### Strict equality of scalars -/

/-- Whether a value is a number, where truth values are none and complex numbers are none. Strict
equality crosses types for these numbers only. -/
def isReal : Value → Bool
  | int _ | float _ => true
  | _ => false

/-- Strict equality: real numbers by value whatever their type, and other scalars only within their
type. What has an identity in the model (a function or an object of some class) is equal to what has
the same one, and there is only one empty tuple and only one root path. A list, a dictionary, a set,
a pattern, a tuple with items and a path with components have no identity in the model: each of them
stands for a new object, so it is equal to nothing, itself included. -/
def samePrimitive : Value → Value → Bool
  | missing, missing => true
  | null, null => true
  | bool a, bool b => a == b
  | str a, str b => a == b
  | bytes a, bytes b => a == b
  | complex a b, complex c d =>
    identicalNan (complex a b) (complex c d) || a.sameValue c && b.sameValue d
  | function m, function n => m == n
  | object m _ _, object n _ _ => m == n
  | hooked m _, hooked n _ => m == n
  | tuple [], tuple [] => true
  | path [], path [] => true
  | a, b => a.isReal && b.isReal && (identicalNan a b || sameNumber a b)

/-! ### Entries of a dictionary under keys of any type -/

/-- The value under a key of any type, under loose equality of keys. The first such key counts, and
dictionaries have only one. -/
def find? (key : Value) : List (Value × Value) → Option Value
  | [] => none
  | (k, v) :: es => if same k key then some v else find? key es

/-- Puts a value under a key of any type: an entry that is there keeps its place and its key. -/
def put (key value : Value) : List (Value × Value) → List (Value × Value)
  | [] => [(key, value)]
  | (k, v) :: es => if same k key then (k, value) :: es else (k, v) :: put key value es

/-- Takes the entry under a key of any type away. The entries around it keep their order. -/
def remove (key : Value) : List (Value × Value) → List (Value × Value)
  | [] => []
  | (k, v) :: es => if same k key then es else (k, v) :: remove key es

/-- The dictionary with the given entries, put one after the other, so that no key comes twice: a
later entry gives its value to the key that is there. -/
def ofEntries (entries : List (Value × Value)) : Value :=
  dict (entries.foldl (fun es (k, v) => put k v es) [])

end TreeDelta.Value
