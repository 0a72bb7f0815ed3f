import TreeDelta.Path.Basic

/-!
# Path patterns

A pattern is a sequence of selectors, each of which accepts some of the components a path may have
at its place: a literal index or property, any of a union of literals, any index, or any property.
Literals and unions compare components by their texts, the wildcards by their kind.

## Main definitions

* `Selector`, `Pattern`: what one component, and a whole path, may be.
* `Selector.accepts`: the components a selector accepts.
* `Pattern.accepts`, `Pattern.covers`, `Pattern.meets`: whole paths, paths inside a
  selected subtree, and paths that agree with the pattern as far as both go.
* `Pattern.render`: the canonical text, `$.*[0,"a"][*]`.
* `Pattern.allowsGaps`: whether a pattern names places of a list that need not follow each other.
-/

namespace TreeDelta

/-- What the component at one place of a path may be. -/
inductive Selector where
  /-- The literal index. -/
  | index (i : Nat)
  /-- The literal property. -/
  | property (name : String)
  /-- Any of two or more literals. -/
  | union (first second : Component) (others : List Component)
  /-- Every index. -/
  | anyIndex
  /-- Every property. -/
  | anyProperty
  deriving DecidableEq, Repr, Inhabited

/-- A pattern over paths, one selector for each component. It matches paths of its own length only;
what is above and below these is told by `covers` and `meets`. -/
abbrev Pattern := List Selector

namespace Selector

/-- The selector that accepts what names the same place as a component, be it an index or a
property. -/
def ofComponent : Component → Selector
  | .index i => index i
  | .property name => property name

/-- The literals a selector names; a wildcard names none. A union names its members in the order in
which they were given. -/
def literals : Selector → List Component
  | index i => [.index i]
  | property name => [.property name]
  | union a b others => a :: b :: others
  | anyIndex => []
  | anyProperty => []

/-- Whether a selector accepts a component. A literal accepts every component with its text, so an
index is accepted by the property that is its numeral; a wildcard looks at the kind alone. -/
def accepts : Selector → Component → Bool
  | anyIndex, c => c.isIndex
  | anyProperty, c => c.isProperty
  | s, c => s.literals.any c.same

/-- Whether a selector can pick places of a list that need not follow each other: an index, any
index, or a union with an index in it. -/
def allowsGaps : Selector → Bool
  | anyIndex => true
  | anyProperty => false
  | s => s.literals.any Component.isIndex

/-- A literal inside the brackets of a union, where an identifier is quoted as any other property
is. -/
def renderMember : Component → String
  | .index i => toString i
  | .property name => JsonString.encode name

/-- The canonical text of a selector. A literal is written as the component that it names. -/
def render : Selector → String
  | index i => (Component.index i).render
  | property name => (Component.property name).render
  | union a b others => "[" ++ ",".intercalate ((a :: b :: others).map renderMember) ++ "]"
  | anyIndex => "[*]"
  | anyProperty => ".*"

/-- A literal inside the written form of a union. -/
def literalMember : Component → String
  | .index i => toString i
  | .property name => Text.quoted name

/-- A selector as a value is written. Wildcards are written by their names, as there is only one of
each. -/
def literal : Selector → String
  | index i => "IndexMatcher(" ++ toString i ++ ")"
  | property name => "PropertyMatcher(" ++ Text.quoted name ++ ")"
  | union a b others =>
    "UnionMatcher([" ++ ", ".intercalate ((a :: b :: others).map literalMember) ++ "])"
  | anyIndex => "AnyIndex"
  | anyProperty => "AnyProperty"

end Selector

namespace Pattern

/-- The pattern that matches the paths naming the same place as a path, and no others. -/
def ofPath (p : Path) : Pattern := p.map Selector.ofComponent

/-- Whether a path is accepted component by component and ends where the pattern ends. -/
def accepts : Pattern → Path → Bool
  | [], [] => true
  | s :: m, c :: p => s.accepts c && accepts m p
  | _, _ => false

/-- Whether a path is, or lies below, a place the pattern matches. This is how ignored and excluded
subtrees are told from the rest. -/
def covers : Pattern → Path → Bool
  | [], _ => true
  | s :: m, c :: p => s.accepts c && covers m p
  | _ :: _, [] => false

/-- Whether a path agrees with the pattern as far as both go: it lies below a place the pattern
matches, or above one. -/
def meets : Pattern → Path → Bool
  | s :: m, c :: p => s.accepts c && meets m p
  | _, _ => true

/-- Whether some selector of the pattern allows gaps. Projections that leave out what such patterns
match close the gaps afterwards. -/
def allowsGaps (m : Pattern) : Bool := m.any Selector.allowsGaps

/-- The canonical text of a pattern. -/
def render (m : Pattern) : String := "$" ++ String.join (m.map Selector.render)

/-- The pattern as a value is written: its text in quotes. -/
def literal (m : Pattern) : String := "PathMatcher(" ++ Text.quoted m.render ++ ")"

end Pattern

end TreeDelta
