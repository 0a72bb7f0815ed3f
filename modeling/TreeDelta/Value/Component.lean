import TreeDelta.Value.Equality
import TreeDelta.Value.Literal

/-!
# Components given as values

A component of a path or a selector of a pattern can be built from a value: an integer that is not
negative is an index, and a string is a property. Truth values are no integers here.

## Main definitions

* `ComponentFault`: why a value is no component, and the wording.
* `Component.checkIndex`, `Component.checkProperty`, `Component.ofValue`: checked conversions.
* `Selector.ofValue`, `Selector.ofMembers`: a selector from a value, a union from its members.
* `Selector.acceptsValue`: whether a selector accepts a value as a component.
* `Path.ofValues`: a path from a list of values.
-/

namespace TreeDelta

/-- Why a value is no component, with the value itself, which the wording shows. -/
inductive ComponentFault where
  /-- An index that is no integer. -/
  | indexType (v : Value)
  /-- An index below zero. -/
  | indexSign (n : Int)
  /-- A property that is no string. -/
  | propertyType (v : Value)
  /-- Neither an index nor a property. -/
  | componentType (v : Value)
  /-- Nothing that a selector can be made of. -/
  | selectorType (v : Value)
  /-- A union with fewer than two members. -/
  | shortUnion (members : List Value)
  deriving Repr

/-- The wording of a fault. What was expected comes first, and then the value as it would be
written. -/
def ComponentFault.message : ComponentFault → String
  | indexType v => "Expected index to be an integer, got " ++ v.literal
  | indexSign n => "Expected index to be an integer >= 0, got " ++ toString n
  | propertyType v => "Expected property to be a string, got " ++ v.literal
  | componentType v =>
    "Expected component to be a string or an integer, got " ++ v.typeName ++ ": " ++ v.literal
  | selectorType v =>
    "Unrecognized path matcher component: " ++ v.literal ++ " of type " ++ v.typeName
  | shortUnion members =>
    "Expected at least 2 components in a union, got " ++ (Value.tuple members).literal

/-- Whether two values name the same place as components: they are equal, or shown alike. On paths
this comes down to comparing texts (`Component.same`). -/
def Value.sameComponent (a b : Value) : Bool := a.same b || a.display == b.display

namespace Component

/-- The number of an index, which is an integer that is not negative. A truth value is no index. -/
def checkIndex : Value → Except ComponentFault Nat
  | .int n => if n < 0 then .error (.indexSign n) else .ok n.toNat
  | v => .error (.indexType v)

/-- The name of a property. -/
def checkProperty : Value → Except ComponentFault String
  | .str s => .ok s
  | v => .error (.propertyType v)

/-- The component that a value stands for: an index for an integer, a property for a text, and a
fault for everything else. -/
def ofValue : Value → Except ComponentFault Component
  | .int n => (checkIndex (.int n)).map index
  | .str s => .ok (property s)
  | v => .error (.componentType v)

/-- The canonical text of the component that a value would be, whatever the sign of an index. Values
that are shown in messages need not be valid. -/
def renderValue? : Value → Option String
  | .int n => some ("[" ++ toString n ++ "]")
  | .str s => some (property s).render
  | _ => none

/-- The value that stands for a component, which becomes the same component again. -/
def toValue : Component → Value
  | index i => .int i
  | property name => .str name

end Component

namespace Selector

/-- The literal selector that a value stands for. Only the fault of other values is worded in
another way than for components. -/
def ofValue : Value → Except ComponentFault Selector
  | .int n => (Component.checkIndex (.int n)).map index
  | .str s => .ok (property s)
  | v => .error (.selectorType v)

/-- The union of the components that values stand for. There have to be two of them at least, which
is looked at before any of them is. -/
def ofMembers (members : List Value) : Except ComponentFault Selector :=
  match members with
  | a :: b :: others => do
    let a ← Component.ofValue a
    let b ← Component.ofValue b
    let others ← others.mapM Component.ofValue
    return union a b others
  | _ => .error (.shortUnion members)

/-- Whether a selector accepts a value as a component: a wildcard looks at its type, and a literal
at what it shows. Values that are no components can be asked about, too. -/
def acceptsValue (s : Selector) (v : Value) : Bool :=
  match s, v with
  | anyIndex, .int _ => true
  | anyIndex, _ => false
  | anyProperty, .str _ => true
  | anyProperty, _ => false
  | s, v => s.accepts (.property v.display)

end Selector

/-- The path whose components are given as values. The first value that is none ends it. -/
def Path.ofValues (components : List Value) : Except ComponentFault Path :=
  components.mapM Component.ofValue

end TreeDelta
