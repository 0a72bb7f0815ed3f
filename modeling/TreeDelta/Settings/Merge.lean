import TreeDelta.Value.Component

/-!
# Merging settings

New settings are merged into old ones key by key: dictionaries are merged in depth, a null takes a
key away, and any other value takes the place of the old one. A dictionary that is empty after the
merge is left out. Where nulls are kept, they are values like others and nothing is left out.

Old settings are dictionaries as a rule, but a dictionary may also be merged into a list, a tuple or
a byte string, where a key is the position of an item. A part of these is there when the key is
equal to an item, wherever that item stands. The items of a list can be set and taken away; those of
a tuple can only be merged into, and the bytes of a byte string cannot change at all.

## Main definitions

* `Settings.merge`: the merge of two settings.
* `Settings.part`, `Settings.assign`: what a value has under a key, and putting something there.
* `Settings.MergeFault`: why settings cannot be merged.
-/

namespace TreeDelta.Settings

/-- Why settings cannot be merged. Old settings may hold values of any type where new ones have a
dictionary, and each type answers in its own way when it is treated as one. -/
inductive MergeFault where
  /-- The new settings are no dictionary. -/
  | source
  /-- A key cannot be taken away from a value that has no items at all. -/
  | removal
  /-- There is nothing under a key of this type, or nothing can be put or taken away there. -/
  | target
  /-- A position lies outside the items. -/
  | range
  /-- A number that is no byte is looked for in a byte string. -/
  | byte
  deriving DecidableEq, Repr

/-! ### Items under keys -/

/-- The place among `n` items that a key means. Integers and truth values are positions; negative
ones count from the end. -/
def position (n : Nat) (key : Value) : Except MergeFault Nat :=
  match Value.number? key with
  | some (.inl i, .inl _) =>
    let i := if i < 0 then i + n else i
    if 0 ≤ i ∧ i < n then .ok i.toNat else .error .range
  | _ => .error .target

/-- The positions of items are below this bound, whatever holds them. It only shows in which fault a
key gets. -/
def positionBound : Int := 9223372036854775808

/-- Why nothing can be put under a key of a value whose items cannot be set. Beyond the bound a
position is out of range for all but those values that never have items. -/
def rigidFault (key : Value) : Value → MergeFault
  | .null | .bool _ | .int _ | .float _ | .complex _ _ | .function _ => .target
  | _ =>
    match Value.number? key with
    | some (.inl i, .inl _) =>
      if -positionBound ≤ i ∧ i < positionBound then .target else .range
    | _ => .target

/-- The item at a key among items, where the key counts as a position. That an item is equal to the
key does not make it a position. -/
def item (key : Value) (items : List Value) : Except MergeFault Value := do
  match items[← position items.length key]? with
  | some v => return v
  | none => throw .range

/-- The part of old settings that a dictionary under a key is merged into. A key that is not there
yet gets an empty dictionary. In a sequence the key is looked for among the items, and then taken as
a position. -/
def part (key : Value) : Value → Except MergeFault Value
  | .dict es => .ok ((Value.find? key es).getD (.dict []))
  | .list vs =>
    if vs.any (Value.same key) then item key vs
    else (position vs.length key).map fun _ => .dict []
  | .tuple vs =>
    if vs.any (Value.same key) then item key vs else .error (rigidFault key (.tuple vs))
  | .set vs => .error (if vs.any (Value.same key) then .target else rigidFault key (.set vs))
  | .path p =>
    .error (if p.any (Value.same key ·.toValue) then .target else rigidFault key (.path p))
  | .bytes bs =>
    let bytes := bs.map fun b => Value.int b.toNat
    match Value.number? key with
    | some (.inl n, .inl _) =>
      if n < 0 ∨ 256 ≤ n then .error .byte
      else if bytes.any (Value.same key) then item key bytes
      else .error .target
    | _ => .error .target
  | _ => .error .target

/-- Puts a value under a key. Dictionaries take any key, lists take positions that are there, and
everything else takes none. -/
def assign (key new : Value) : Value → Except MergeFault Value
  | .dict es => .ok (.dict (Value.put key new es))
  | .list vs => do return .list (vs.set (← position vs.length key) new)
  | old => .error (rigidFault key old)

/-- Puts a part back under its key after something was merged into it. A byte is never changed by
that. -/
def update (key new : Value) : Value → Except MergeFault Value
  | .tuple vs => do return .tuple (vs.set (← position vs.length key) new)
  | .bytes bs => .ok (.bytes bs)
  | old => assign key new old

/-- Takes a part away that is empty after a merge. Only dictionaries and lists let go of an item. -/
def prune (key : Value) : Value → Except MergeFault Value
  | .dict es => .ok (.dict (Value.remove key es))
  | .list vs => do return .list (vs.eraseIdx (← position vs.length key))
  | _ => .error .target

/-- Takes a key away because of a null. In a dictionary the key need not be there. -/
def forget (key : Value) : Value → Except MergeFault Value
  | .dict es => .ok (.dict (Value.remove key es))
  | .list _ | .set _ => .error .target
  | _ => .error .removal

/-! ### Merging -/

/-- Merges the entries of new settings into old ones, in order: dictionaries key by key, so that
what the new ones do not mention stays, and other values in place of what was there. Unless they are
kept, nulls take away, and parts that come out empty are left out. -/
def mergeEntries (keepNull : Bool) (old : Value) :
    List (Value × Value) → Except MergeFault Value
  | [] => .ok old
  | (k, .dict new) :: rest => do
    let merged ← mergeEntries keepNull (← part k old) new
    let old ← if keepNull || merged.isTruthy then update k merged old else prune k old
    mergeEntries keepNull old rest
  | (k, v) :: rest => do
    let old ← match keepNull, v with
      | false, .null => forget k old
      | _, v => assign k v old
    mergeEntries keepNull old rest

/-- Merges new settings into old ones. New settings that are no dictionary have no entries to
merge. -/
def merge (keepNull : Bool) (old : Value) : Value → Except MergeFault Value
  | .dict new => mergeEntries keepNull old new
  | _ => .error .source

end TreeDelta.Settings
