import TreeDelta.Diff.Changeset
import TreeDelta.Tree.Search

/-!
# Patches

A patch is a list of writes that turn one tree into another. Deletions come first, so that the
deletion of an index cannot hit a key with the same numeral in a dictionary that took the place of
the list.

## Main definitions

* `Diff.patch`: the writes between two trees.
* `Patch.apply`: the tree after the writes.
* `Patch.run`: the same, together with what has become of the tree that was given.
-/

namespace TreeDelta

/-- A list of writes; a write of `missing` is a deletion. The order of the writes matters, as later
ones may write below earlier ones. -/
abbrev Patch := List Node

/-- The writes that turn one tree into another. Containers are written, too, so that empty ones
appear. Deletions come first, before anything is written in the place of what was there. -/
def Diff.patch (cfg : Config) (before after : Value) : Except Unsupported Patch :=
  (changeset cfg.withContainers before after).map fun changes =>
    let removed := changes.filter fun c => c.new?.isNone
    let updated := changes.filter fun c => c.new?.isSome
    (removed ++ updated).map fun c => ⟨c.path, c.new⟩

namespace Patch

/-- The tree after the writes of a patch, each done on what the one before has given. The first
write that fails ends it. -/
def apply (tree : Value) (patch : Patch) : Except EditFault Value :=
  patch.foldlM (fun t node => node.path.set t node.value) tree

/-- A run of writes: the tree so far, what has become of the tree that was given, and whether the
two are still one. -/
structure Run where
  /-- The tree so far. -/
  tree : Value
  /-- What has become of the tree that was given. -/
  given : Value
  /-- Whether a write to the tree so far shows in the tree that was given. -/
  attached : Bool
  deriving Repr

/-- One write. It happens inside the tree at hand if that is a container and the write is not at
its root; otherwise another tree takes its place. -/
def Run.step (run : Run) (node : Node) (tree : Value) : Run :=
  let attached := run.attached && node.path.keepsRoot && run.tree.isContainer
  ⟨tree, if attached then tree else run.given, attached⟩

/-- Runs the writes of a patch up to the first one that fails. A write that fails leaves the tree
that it was given as it was. -/
def runFrom (run : Run) : Patch → Except EditFault Value × Value
  | [] => (.ok run.tree, run.given)
  | node :: rest =>
    match node.path.set run.tree node.value with
    | .ok tree => runFrom (run.step node tree) rest
    | .error fault => (.error fault, run.given)

/-- Runs the writes of a patch: the resulting tree or the fault, and what has become of the tree
that was given. -/
def run (tree : Value) (patch : Patch) : Except EditFault Value × Value :=
  runFrom ⟨tree, tree, true⟩ patch

end Patch

end TreeDelta
