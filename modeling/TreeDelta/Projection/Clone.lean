import TreeDelta.Value.Equality
import TreeDelta.Value.Literal

/-!
# Pure copies

The pure copy of a value holds JSON only: scalars, lists and dictionaries with string keys. Objects
that convert themselves to JSON are replaced by what they convert to, tuples become lists, numeric
keys become strings; missing values and functions are left out of dictionaries and become null in
lists. Anything else is refused. On the way, a key list may restrict every dictionary, or a
replacement may be asked about every value.

## Main definitions

* `Value.resolve`: replaces the objects that convert themselves.
* `Value.substitute`: replaces every value by what a function makes of it.
* `Value.purify`: the conversion of a resolved value.
* `Value.clone`, `Value.cloneKeys`, `Value.cloneWith`: the three kinds of copy.
-/

namespace TreeDelta

/-- Why a value has no pure copy. -/
inductive CloneFault where
  /-- A key that is neither a string nor a number. -/
  | key (typeName : String)
  /-- A value without a JSON form. -/
  | value (typeName : String)
  /-- A replacement that makes ever deeper values. -/
  | endless
  deriving DecidableEq, Repr

/-- The wording of a fault. -/
def CloneFault.message : CloneFault → String
  | key typeName => "keys must be str, int or float, not " ++ typeName
  | value typeName => "Object of type " ++ typeName ++ " is not JSON serializable"
  | endless => "maximum depth exceeded"

namespace Value

/-- The string that a key becomes; truth values are no numbers here, and null is no key either. -/
def jsonKey? : Value → Option String
  | str s => some s
  | int n => some (toString n)
  | float x => some (x.text true)
  | _ => none

/-- What an object that converts itself becomes; every other value stays as it is. -/
def unhook : Value → Value
  | hooked _ result => result
  | path p => str p.render
  | pattern m => str m.render
  | v => v

/-! ### Resolving -/

mutual

/-- The value with every object below it that converts itself replaced. What such an object gives is
not asked to convert itself once more, but what is inside of it is. -/
def resolve : Value → Value
  | hooked _ result => resolveBelow result
  | path p => str p.render
  | pattern m => str m.render
  | list items => list (resolveItems items)
  | tuple items => tuple (resolveItems items)
  | dict entries => dict (resolveEntries entries)
  | v => v

/-- The same for a value that is not replaced itself: what comes out of a conversion. -/
def resolveBelow : Value → Value
  | list items => list (resolveItems items)
  | tuple items => tuple (resolveItems items)
  | dict entries => dict (resolveEntries entries)
  | v => v

/-- The same for every item of a list. -/
def resolveItems : List Value → List Value
  | [] => []
  | v :: vs => resolve v :: resolveItems vs

/-- The same for every entry of a dictionary. -/
def resolveEntries : List (Value × Value) → List (Value × Value)
  | [] => []
  | (k, v) :: es => (k, resolve v) :: resolveEntries es

end

/-! ### Replacing -/

/-- A function that replaces a value, given the key it stands under. What it gives is looked into,
so its replacements are replaced again below. -/
abbrev Replacement := String → Value → Value

/-- A value that a replacement was asked about, and the key it stands under. -/
structure Visit where
  /-- The key, or the numeral of the index; the whole value has the empty key. -/
  key : String
  /-- The value. -/
  value : Value
  deriving Repr

mutual

/-- Replaces a value and then all values below the replacement. Tells the visits in order. `depth`
bounds how deep the replacements are followed. -/
def substitute (f : Replacement) : (depth : Nat) → String → Value →
    Except CloneFault (List Visit × Value)
  | 0, _, _ => .error .endless
  | depth + 1, key, v =>
    let v := v.unhook
    match f key v with
    | list items => do
      let (visits, items) ← substituteItems f depth 0 items
      return (⟨key, v⟩ :: visits, list items)
    | tuple items => do
      let (visits, items) ← substituteItems f depth 0 items
      return (⟨key, v⟩ :: visits, tuple items)
    | dict entries => do
      let (visits, entries) ← substituteEntries f depth entries
      return (⟨key, v⟩ :: visits, dict entries)
    | w => return ([⟨key, v⟩], w)

/-- The same for the items of a list, with indices from `i` on. -/
def substituteItems (f : Replacement) (depth i : Nat) :
    List Value → Except CloneFault (List Visit × List Value)
  | [] => .ok ([], [])
  | v :: vs => do
    let (first, v) ← substitute f depth (toString i) v
    let (rest, vs) ← substituteItems f depth (i + 1) vs
    return (first ++ rest, v :: vs)

/-- The same for the entries of a dictionary; what stands under a key that is refused later is not
asked about. -/
def substituteEntries (f : Replacement) (depth : Nat) :
    List (Value × Value) → Except CloneFault (List Visit × List (Value × Value))
  | [] => .ok ([], [])
  | (k, v) :: es => do
    let (first, v) ← match k.jsonKey? with
      | some key => substitute f depth key v
      | none => .ok ([], v)
    let (rest, es) ← substituteEntries f depth es
    return (first ++ rest, (k, v) :: es)

end

/-! ### Converting -/

/-- The selected entries of a dictionary, if there is a selection: for every listed key that is
there, in the order of the list. Without a selection these are all entries, in their own order. -/
def selected {α : Type} (keys? : Option (List String)) (entries : List (Value × α)) :
    List (Value × α) :=
  match keys? with
  | none => entries
  | some keys => keys.filterMap fun key =>
    (entries.find? fun e => match e.1 with | str k => k == key | _ => false)

/-- Puts the copies of entries into a dictionary, one after the other. Different keys may become the
same string, and then the later value stays. A copy that is missing is left out. -/
def gather (es : List (Value × Value)) :
    List (Value × Except CloneFault Value) → Except CloneFault (List (Value × Value))
  | [] => .ok es
  | (k, copy) :: rest =>
    match k.jsonKey? with
    | none => .error (.key k.typeName)
    | some key => do
      let v ← copy
      gather (if v.isMissing then es else insert key v es) rest

/-- A missing item becomes null, since a list keeps the places of the others. -/
def orNull (v : Value) : Value := if v.isMissing then null else v

mutual

/-- The pure copy of a resolved value, or `missing` where it has none. Tuples become lists; what has
no form in a document is refused. -/
def purify (keys? : Option (List String)) : Value → Except CloneFault Value
  | missing => .ok missing
  | function _ => .ok missing
  | null => .ok null
  | bool b => .ok (bool b)
  | int n => .ok (int n)
  | float x => .ok (float x)
  | str s => .ok (str s)
  | list items => (purifyItems keys? items).map list
  | tuple items => (purifyItems keys? items).map list
  | dict entries => (gather [] (selected keys? (purifyEntries keys? entries))).map dict
  | v => .error (.value v.typeName)

/-- The pure copies of the items of a list. -/
def purifyItems (keys? : Option (List String)) : List Value → Except CloneFault (List Value)
  | [] => .ok []
  | v :: vs => do
    let v ← purify keys? v
    let vs ← purifyItems keys? vs
    return v.orNull :: vs

/-- The pure copies of the entries of a dictionary, each for itself. Faults stay with their entries,
as entries that are not selected do no harm. -/
def purifyEntries (keys? : Option (List String)) :
    List (Value × Value) → List (Value × Except CloneFault Value)
  | [] => []
  | (k, v) :: es => (k, purify keys? v) :: purifyEntries keys? es

end

/-! ### Copies -/

/-- The pure copy of a value, which is made of nothing but what a document can hold, and shares
nothing with the value. -/
def clone (v : Value) : Except CloneFault Value := purify none v.resolve

/-- The pure copy of a value with only the listed keys in every dictionary. Keys that are listed as
numbers are looked up by their texts. -/
def cloneKeys (keys : List Value) (v : Value) : Except CloneFault Value :=
  purify (some (keys.map display)) v.resolve

mutual

/-- The number of levels of a value. Recursion on a replaced value cannot follow the value it came
from, so it follows this number. -/
def depth : Value → Nat
  | list items | tuple items => depthItems items + 1
  | dict entries => depthEntries entries + 1
  | hooked _ result => depth result + 1
  | _ => 1

/-- The greatest number of levels of some values. -/
def depthItems : List Value → Nat
  | [] => 0
  | v :: vs => max (depth v) (depthItems vs)

/-- The greatest number of levels of the values of a dictionary. -/
def depthEntries : List (Value × Value) → Nat
  | [] => 0
  | (_, v) :: es => max (depth v) (depthEntries es)

end

/-- The number of levels that replacements may add to a value. A function that goes on adding more
ends in a fault, as it would end in one by exhausting the stack. -/
def addedDepth : Nat := 1000

/-- The pure copy of a value with every value replaced by what a function makes of it, and the
visits of the function. Values are visited before what is below them. -/
def cloneWith (f : Replacement) (v : Value) : Except CloneFault (List Visit × Value) := do
  let (visits, v) ← substitute f (v.depth + addedDepth) "" v
  let copy ← purify none v
  return (visits, copy)

end Value

end TreeDelta
