import TreeDelta.Diff.Change
import TreeDelta.Diff.Leaf

/-!
# Changesets

The changes between two trees: first every leaf of the new tree that is new or has changed, in the
order of the new tree, then every leaf of the old tree that is gone, in the order of the old tree.
Leaves and changes are kept in tables under the canonical texts of their paths. The leaves of the
old tree are collected first; every leaf of the new tree then takes its partner out of that table,
and what remains in the end is gone.

## Main definitions

* `Diff.Table`: entries under texts.
* `Diff.collect`: the leaves of a tree under their texts.
* `Diff.Comparison`: the state of a comparison, which meets the new leaves one by one.
* `Diff.changeTable`, `Diff.changeset`: the changes between two trees.
* `Diff.changedPaths`, `Diff.allPaths`: the paths of the changes, and of a tree against nothing.
* `Diff.trace`: the questions put to the predicates on the way.
-/

namespace TreeDelta.Diff

/-! ### Tables -/

/-- Entries under texts, in the order of their first insertion. Changes are kept under the canonical
texts of their paths. -/
abbrev Table (α : Type) := List (String × α)

/-- Puts an entry under a text: one that is there gives way to it, and a new one comes last. -/
def Table.put {α : Type} (key : String) (a : α) : Table α → Table α
  | [] => [(key, a)]
  | (k, b) :: t => if k = key then (k, a) :: t else (k, b) :: Table.put key a t

/-- Takes the entry under a text out of a table and gives what is left, in the same order; or
nothing, if there is no such entry. -/
def Table.pop? {α : Type} (key : String) : Table α → Option (α × Table α)
  | [] => none
  | (k, a) :: t =>
    if k = key then some (a, t)
    else (Table.pop? key t).map fun (b, rest) => (b, (k, a) :: rest)

/-- The leaves under the canonical texts of their paths. Different leaves of a tree have different
paths and so different texts, so that no leaf displaces another. -/
def collect (ls : List Leaf) : Table Leaf :=
  ls.foldl (fun t leaf => Table.put leaf.path.render leaf t) []

/-! ### Comparison -/

/-- Whether two leaves at one path count as equal. Containers are equal to those of their kind, and
no container is equal to an atomic value. -/
def Content.equal (cfg : Config) (p : Path) : Content → Content → Bool
  | container k, container l => k == l
  | atomic a, atomic b => cfg.equates a b p
  | _, _ => false

/-- A comparison of two trees on the way: the leaves of the new tree are met one after the other,
and each takes the leaf of the old tree at its path away. -/
structure Comparison where
  /-- The leaves of the old tree that no leaf of the new one has met. -/
  remaining : Table Leaf
  /-- The changes found. -/
  changes : Table Change

/-- The comparison after one more leaf of the new tree, which is compared with the leaf of the old
tree at the same path. Without such a leaf it is new. -/
def Comparison.meet (cfg : Config) (s : Comparison) (leaf : Leaf) : Comparison :=
  let key := leaf.path.render
  match Table.pop? key s.remaining with
  | some (before, remaining) =>
    if before.content.equal cfg leaf.path leaf.content then ⟨remaining, s.changes⟩
    else
      let change : Change := ⟨leaf.path, some before.content.value, some leaf.content.value, false⟩
      ⟨remaining, Table.put key change s.changes⟩
  | none =>
    let change : Change := ⟨leaf.path, none, some leaf.content.value, false⟩
    ⟨s.remaining, Table.put key change s.changes⟩

/-- The changes once all leaves of the new tree were met: what remains of the old one is gone. These
removals come last, in the order of the old tree. -/
def Comparison.finish (s : Comparison) : Table Change :=
  s.remaining.foldl
    (fun t (key, leaf) => Table.put key ⟨leaf.path, some leaf.content.value, none, false⟩ t)
    s.changes

/-- The changes between the leaves of two trees, under the texts of their paths. No tree is looked
at any more. -/
def tableOf (cfg : Config) (old new : List Leaf) : Table Change :=
  (new.foldl (Comparison.meet cfg) ⟨collect old, []⟩).finish

/-- The changes between the leaves of two trees, in the order in which they were found. -/
def changesOf (cfg : Config) (old new : List Leaf) : List Change :=
  (tableOf cfg old new).map Prod.snd

/-! ### Changesets -/

/-- The changes between two trees, under the texts of their paths. The old tree is walked first, so
its faults come first. -/
def changeTable (cfg : Config) (before after : Value) : Except Unsupported (Table Change) := do
  let old ← leaves cfg before
  let new ← leaves cfg after
  return tableOf cfg old new

/-- The changes between two trees, in the order of the table: what the new tree adds or replaces, in
its own order, and then what it lacks. -/
def changeset (cfg : Config) (before after : Value) : Except Unsupported (List Change) :=
  (changeTable cfg before after).map (List.map Prod.snd)

/-- The paths at which two trees differ, in the order of the changes. -/
def changedPaths (cfg : Config) (before after : Value) : Except Unsupported (List Path) :=
  (changeset cfg before after).map (List.map Change.path)

/-- The paths at which a tree differs from an empty one of its kind: the paths of its leaves, with
the exception that the root of a container that is reported is in both trees. -/
def allPaths (cfg : Config) (tree : Value) : Except Unsupported (List Path) :=
  changedPaths cfg tree.emptyLike tree

/-! ### Questions -/

/-- The first leaf at a path. A tree has only one at every path. -/
def leafAt? (p : Path) (ls : List Leaf) : Option Leaf := ls.find? fun leaf => leaf.path == p

/-- The question whether a leaf has changed, where one is put: two atomic values that are not
strictly equal, and a predicate to ask. -/
def compareQuestion (cfg : Config) (old : List Leaf) (leaf : Leaf) : List Question :=
  match leafAt? leaf.path old, leaf.content, cfg.isEqual? with
  | some ⟨_, .atomic a⟩, .atomic b, some _ =>
    if a.samePrimitive b then [] else [.isEqual a b leaf.path]
  | _, _, _ => []

/-- The questions of a step of the walk over the new tree, which compares every leaf at once. -/
def stepQuestions (cfg : Config) (old : List Leaf) : Step → List Question
  | .asked q => [q]
  | .found leaf => compareQuestion cfg old leaf

/-- The questions put to the predicates, in order: the old tree is walked first, and the new one
is compared while it is walked. -/
def trace (cfg : Config) (before after : Value) : Except Unsupported (List Question) := do
  let old ← walk cfg Path.root before
  let new ← walk cfg Path.root after
  return old.filterMap Step.question?
    ++ new.flatMap (stepQuestions cfg (old.filterMap Step.leaf?))

end TreeDelta.Diff
