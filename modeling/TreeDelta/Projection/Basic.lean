import TreeDelta.Projection.Clone
import TreeDelta.Tree.Search

/-!
# Projections

A projection keeps the parts of a tree that some patterns include, and drops the parts that some
patterns exclude. Without includes everything is kept. The result is built anew; the tree that is
given stays as it is.

## Main definitions

* `Projection`: the included and the excluded patterns.
* `Projection.map`: the projection of a tree.
* `Projection.keeps`: whether the value at a path would be kept.
* `Value.removeGaps`: a tree without the holes of its lists.
-/

namespace TreeDelta

/-! ### Gaps -/

namespace Value

mutual

/-- The value without the holes of the lists in it, at any depth. Only here items of a list move
up. -/
def removeGaps : Value → Value
  | list items => list (removeItemGaps items)
  | dict entries => dict (removeEntryGaps entries)
  | v => v

/-- The items that are no holes, each without the holes in it. -/
def removeItemGaps : List Value → List Value
  | [] => []
  | v :: vs => if v.isMissing then removeItemGaps vs else removeGaps v :: removeItemGaps vs

/-- The entries of a dictionary, each without the holes in it. -/
def removeEntryGaps : List (Value × Value) → List (Value × Value)
  | [] => []
  | (k, v) :: es => (k, removeGaps v) :: removeEntryGaps es

end

end Value

/-! ### Projections -/

/-- What a projection keeps and what it drops. What is both kept and dropped is dropped. -/
structure Projection where
  /-- The patterns of what is kept; none of them keeps everything. -/
  includes : List Pattern
  /-- The patterns of what is dropped. -/
  excludes : List Pattern
  deriving DecidableEq, Repr

/-- Why a tree has no projection. Dropping never fails, so there are only these two reasons. -/
inductive ProjectionFault where
  /-- The tree has no pure copy. -/
  | clone (fault : CloneFault)
  /-- An included node cannot be written. -/
  | edit (fault : EditFault)
  deriving DecidableEq, Repr

namespace Projection

/-- The patterns that values stand for, or the first value that is no pattern. Nothing is converted
to a pattern here. -/
def checkPatterns (vs : List Value) : Except Value (List Pattern) :=
  vs.mapM fun
    | .pattern m => .ok m
    | v => .error v

/-- The projection whose patterns are given as values. The included patterns are looked at first. -/
def ofValues (includes excludes : List Value) : Except Value Projection := do
  let includes ← checkPatterns includes
  let excludes ← checkPatterns excludes
  return ⟨includes, excludes⟩

/-- The message about a value that is no pattern. -/
def patternMessage (v : Value) : String :=
  "Expected an instance of PathMatcher, got " ++ v.literal

/-- Whether some pattern names places of a list that need not follow each other. Only then the
projection closes gaps. -/
def allowsGaps (p : Projection) : Bool := (p.includes ++ p.excludes).any Pattern.allowsGaps

/-- Whether a projection has no patterns at all. -/
def isTrivial (p : Projection) : Bool := p.includes.isEmpty && p.excludes.isEmpty

/-- Writes the nodes of `source` that a pattern selects into `output`. A list may get holes this
way, where places in front of the written one are not included. -/
def includePattern (source output : Value) (m : Pattern) : Except EditFault Value :=
  (m.search source).foldlM (fun t node => node.path.set t node.value) output

/-- The included nodes of a source, in a new container of its kind. -/
def includeAll (includes : List Pattern) (source : Value) : Except EditFault Value :=
  includes.foldlM (includePattern source) (Value.empty (source.kind?.getD .object))

/-- Deletes the nodes that a pattern selects. They are looked up in the tree before the first of
them is deleted. -/
def excludePattern (tree : Value) (m : Pattern) : Value :=
  (m.search tree).foldl (fun t node => node.path.erase t) tree

/-- Deletes the nodes that some patterns select, one pattern after the other, each in the tree that
the ones before it have left. -/
def excludeAll (excludes : List Pattern) (tree : Value) : Value :=
  excludes.foldl excludePattern tree

/-- The tree that the excluded nodes are deleted from: a copy of the whole tree if nothing is
included in particular, and otherwise what is included of such a copy. Without any patterns it is
the tree itself. -/
def kept (p : Projection) (tree : Value) : Except ProjectionFault Value :=
  if p.isTrivial then .ok tree
  else do
    let source ← (tree.clone).mapError .clone
    if p.includes.isEmpty then return source
    (includeAll p.includes source).mapError .edit

/-- The projection of a tree: what is included, without what is excluded, and without gaps where the
patterns can leave some. -/
def map (p : Projection) (tree : Value) : Except ProjectionFault Value :=
  (p.kept tree).map fun output =>
    let output := excludeAll p.excludes output
    if p.allowsGaps then output.removeGaps else output

/-- Whether the value at a path would be kept: an include agrees with the path as far as both go,
and no exclude selects it or a place above it. -/
def keeps (p : Projection) (path : Path) : Bool :=
  (p.includes.isEmpty || p.includes.any fun m => m.meets path)
    && !p.excludes.any fun m => m.covers path

/-- Whether the projection of a container is the container itself and no copy. -/
def keepsRoot (p : Projection) : Bool := p.isTrivial

end Projection

end TreeDelta
