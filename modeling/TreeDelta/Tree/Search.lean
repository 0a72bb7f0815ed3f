import TreeDelta.Tree.Access

/-!
# Searching a tree

A pattern selects places of a tree: every selector picks steps out of a container, and the search
follows them in the order of the container, a union in the order of its members. Missing values are
never found. A literal crosses kinds: an index also names the key with its numeral, and a property
that is the numeral of an index also names that index.

## Main definitions

* `Node`: a path and the value there.
* `Selector.select`: the steps that a selector picks out of a container.
* `Pattern.search`: the nodes that a pattern selects, in order.
-/

namespace TreeDelta

/-- A place of a tree and the value there, as a search finds it. -/
structure Node where
  /-- The path to the place. -/
  path : Path
  /-- The value at the place. -/
  value : Value
  deriving Repr, Inhabited

/-- The index that a text is the numeral of, written without leading zeros. The numeral may be of
any length: the guard of the interpreter against long runs of digits (`Text.Readable`), which such a
property would come upon in a list, is left out here. -/
def numeral? (s : String) : Option Nat :=
  match s.toList with
  | [] => none
  | ['0'] => some 0
  | c :: cs =>
    if c != '0' && (c :: cs).all Text.isDigit then some (Text.digitsValue (c :: cs))
    else none

/-- The step that a literal stands for in a container: in a list a property stands for the index
that it is the numeral of, and in a dictionary an index stands for its numeral. Other values have no
steps. -/
def Component.resolve : Value → Component → Option Component
  | .list _, .index i => some (.index i)
  | .list _, .property name => (numeral? name).map .index
  | .dict _, c => some (.property c.text)
  | _, _ => none

/-- The step and the value that a literal picks out of a container. What is missing is not
picked. -/
def Component.pick (container : Value) (c : Component) : Option (Component × Value) := do
  let step ← c.resolve container
  let value ← container.child? step
  if value.isMissing then none else some (step, value)

namespace Selector

/-- The items of a list that are there, with their indices from `i` on. Holes keep their indices to
themselves: the items behind them do not move up. -/
def items : Nat → List Value → List (Component × Value)
  | _, [] => []
  | i, v :: vs => if v.isMissing then items (i + 1) vs else (.index i, v) :: items (i + 1) vs

/-- The entries of a dictionary that are there and have string keys. Other keys cannot be named by a
path. -/
def entries : List (Value × Value) → List (Component × Value)
  | [] => []
  | (.str k, v) :: es => if v.isMissing then entries es else (.property k, v) :: entries es
  | _ :: es => entries es

/-- The steps without those that came before. Two members of a union may stand for the same step,
which is taken once. -/
def distinct : List Component → List (Component × Value) → List (Component × Value)
  | _, [] => []
  | seen, s :: steps =>
    if seen.contains s.1 then distinct seen steps else s :: distinct (s.1 :: seen) steps

/-- The steps that a selector picks out of a value, each with the value it leads to. Wildcards
follow the order of the container, and unions that of their members. -/
def select : Selector → Value → List (Component × Value)
  | anyIndex, .list vs => items 0 vs
  | anyIndex, _ => []
  | anyProperty, .dict es => entries es
  | anyProperty, _ => []
  | s, v => distinct [] (s.literals.filterMap (Component.pick v))

end Selector

namespace Pattern

/-- The nodes that a pattern selects below a place, in order: what is below one step comes before
what is below the next. -/
def searchFrom : Pattern → Path → Value → List Node
  | [], place, v => [⟨place, v⟩]
  | s :: m, place, v =>
    (s.select v).flatMap fun (c, w) => searchFrom m (place ++ [c]) w

/-- The nodes of a tree that a pattern selects, in order. The pattern without selectors finds the
tree itself, whatever it is. -/
def search (m : Pattern) (tree : Value) : List Node := m.searchFrom Path.root tree

/-- The first node that a pattern selects, in the order of the search. -/
def searchFirst? (m : Pattern) (tree : Value) : Option Node := (m.search tree).head?

/-- The value of the first node, or the default where nothing is found. -/
def searchFirstValue (m : Pattern) (tree default : Value) : Value :=
  match m.searchFirst? tree with
  | some node => node.value
  | none => default

/-- The values that a pattern selects, as they are written before they are looked up. -/
def valuesLiteral (m : Pattern) : String := "FoundValues(" ++ m.render ++ ")"

end Pattern

end TreeDelta
