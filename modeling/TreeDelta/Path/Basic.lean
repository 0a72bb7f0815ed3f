import TreeDelta.Text.Digit
import TreeDelta.Text.JsonString

/-!
# Paths

A path addresses a place in a tree by the steps that lead to it from the root: an index steps into
a list and a property into a dictionary. Paths are compared by the texts of their components, so
that the index `0` and the property `0` name the same place.

## Main definitions

* `Component`, `Path`: one step, and a sequence of steps.
* `Path.render`: the canonical text, `$.name[0]["other name"]`.
* `Component.same`, `Path.same`: equality of the places named.
* `Path.parent?`, `Path.child`, `Path.relocate`: derived paths.
-/

namespace TreeDelta

/-- One step of a path. That an index is a natural number and a property a text is checked where
components are made from values (`Component.ofValue`). -/
inductive Component where
  /-- A place in a list. -/
  | index (i : Nat)
  /-- A property of a dictionary. -/
  | property (name : String)
  deriving DecidableEq, Repr, Inhabited

/-- A path from the root of a tree; the empty path is the root itself. Equality of paths is that of
their components; whether two paths name the same place is `Path.same`. -/
abbrev Path := List Component

/-! ### Components -/

/-- Whether a character may start an identifier. -/
def isIdentifierStart (c : Char) : Bool :=
  ('a' ≤ c && c ≤ 'z') || ('A' ≤ c && c ≤ 'Z') || c == '_'

/-- Whether a character may go on with an identifier. -/
def isIdentifierRest (c : Char) : Bool := isIdentifierStart c || Text.isDigit c

/-- Whether a text is an identifier: a letter or underscore, then letters, digits and
underscores, of ASCII only. -/
def isIdentifier (s : String) : Bool :=
  match s.toList with
  | [] => false
  | c :: cs => isIdentifierStart c && cs.all isIdentifierRest

namespace Component

/-- The text of a component: the numeral of an index, or the property name. Components that are
shown alike name the same place in a tree. -/
def text : Component → String
  | index i => toString i
  | property name => name

/-- Whether a component is an index. -/
def isIndex : Component → Bool
  | index _ => true
  | property _ => false

/-- Whether a component is a property. -/
def isProperty : Component → Bool
  | index _ => false
  | property _ => true

/-- Two components name the same place when their texts agree: an index and the property that is its
numeral do. -/
def same (a b : Component) : Bool := a.text == b.text

/-- The canonical text of a component inside a path: an identifier after a dot, everything else in
brackets. So an index and a property of the same name are written differently. -/
def render : Component → String
  | index i => "[" ++ toString i ++ "]"
  | property name =>
    if isIdentifier name then "." ++ name else "[" ++ JsonString.encode name ++ "]"

end Component

/-! ### Paths -/

namespace Path

/-- The root of a tree. -/
def root : Path := []

/-- The canonical text of a path: a dollar sign for the root, and then its components. Reading it
gives the path back. -/
def render (p : Path) : String := "$" ++ String.join (p.map Component.render)

/-- The texts of the components; paths with the same texts name the same place. These texts are what
a path is hashed by. -/
def texts (p : Path) : List String := p.map Component.text

/-- Two paths name the same place when their components do, one by one. Paths of different lengths
never do. -/
def same (p q : Path) : Bool := p.texts == q.texts

/-- The path extended by a component. -/
def child (p : Path) (c : Component) : Path := p ++ [c]

/-- The path without its last component; the root has no parent. -/
def parent? (p : Path) : Option Path := if p.isEmpty then none else some p.dropLast

/-- The path that leads to the place `p` inside the subtree at `base`, which is `base` itself for
the root of the subtree. -/
def relocate (p base : Path) : Path := base ++ p

/-- The component at a position, where negative positions count from the end. Beyond either end
there is none. -/
def componentAt? (p : Path) (i : Int) : Option Component :=
  if 0 ≤ i then p[i.toNat]? else
    if i.natAbs ≤ p.length then p[p.length - i.natAbs]? else none

/-- The path as a value is written: its text in quotes. -/
def literal (p : Path) : String := "Path(" ++ Text.quoted p.render ++ ")"

end Path

end TreeDelta
