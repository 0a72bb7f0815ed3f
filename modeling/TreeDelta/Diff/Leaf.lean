import TreeDelta.Diff.Config

/-!
# Leaves of a tree

A diff compares trees leaf by leaf. The leaves of a tree are its atomic values, in pre-order; with
`includeContainers` every list and dictionary is a leaf, too, that shows its kind alone. The walk
over a tree also lists the questions that it puts to the predicates.

## Main definitions

* `Diff.Leaf`, `Diff.Content`: a leaf, and what stands at it.
* `Diff.walk`: the questions and leaves of a tree, in order.
* `Diff.leaves`: the leaves of a tree.
* `Diff.Unsupported`: why a tree has no leaves.
-/

namespace TreeDelta.Diff

/-- What stands at a leaf: a value that is not looked into, or a container, of which only the kind
is kept. -/
inductive Content where
  /-- An atomic value. -/
  | atomic (v : Value)
  /-- A container, which shows its kind alone. -/
  | container (k : Kind)
  deriving Repr, Inhabited

/-- The value at a leaf; a container is shown empty, since what it holds are leaves of their own. -/
def Content.value : Content → Value
  | atomic v => v
  | container k => Value.empty k

/-- A leaf of a tree: a place that is compared as a whole. -/
structure Leaf where
  /-- The path to the leaf. -/
  path : Path
  /-- What stands there. -/
  content : Content
  deriving Repr, Inhabited

/-- A question put to a predicate. Questions are part of what a walk does, because predicates are
the caller's and may be watched. -/
inductive Question where
  /-- Whether the value at a path takes part. -/
  | accepts (p : Path)
  /-- Whether the value at a path is atomic. -/
  | isAtomic (p : Path)
  /-- Whether two values at a path are equal. -/
  | isEqual (old new : Value) (p : Path)
  deriving Repr

/-- One step of a walk: either something is asked, or a leaf is found. -/
inductive Step where
  /-- A question. -/
  | asked (q : Question)
  /-- A leaf. -/
  | found (leaf : Leaf)
  deriving Repr

/-- The leaf of a step, if it is one. -/
def Step.leaf? : Step → Option Leaf
  | asked _ => none
  | found leaf => some leaf

/-- The question of a step, if it is one. -/
def Step.question? : Step → Option Question
  | asked q => some q
  | found _ => none

/-- Why a tree cannot be walked. Only the types of what stands in the way are told. -/
inductive Unsupported where
  /-- A value that is neither atomic nor a list or dictionary. -/
  | value (typeName : String)
  /-- A key that is no string. -/
  | key (typeName : String) (path : Path)
  deriving DecidableEq, Repr

/-- The wording of a fault. The path of a wrong key is the one of its dictionary; a wrong value
tells no path. -/
def Unsupported.message : Unsupported → String
  | value typeName =>
    "only primitives, arrays and plain objects are supported, got \"" ++ typeName ++ "\""
  | key typeName path =>
    "only string keys are supported in objects, got \"" ++ typeName ++ "\" at " ++ path.render

/-- The questions about a value that is no scalar, and whether it is atomic. Without a predicate
nothing is asked, and nothing is. -/
def askAtomic (cfg : Config) (p : Path) (v : Value) : List Step × Bool :=
  match cfg.isAtomic? with
  | some atomic => ([.asked (.isAtomic p)], atomic v p)
  | none => ([], false)

/-- The leaf of a container itself, where containers are reported. It comes before the leaves below
it. -/
def containerLeaf (cfg : Config) (p : Path) (k : Kind) : List Step :=
  if cfg.includeContainers then [.found ⟨p, .container k⟩] else []

mutual

/-- The questions and leaves of the tree at a path, in pre-order. A value that does not take part is
left out with all that is below it, and of what is atomic only the value itself is a leaf. -/
def walk (cfg : Config) (p : Path) : Value → Except Unsupported (List Step)
  | .list items =>
    if cfg.accepts p (.list items) then
      let (asked, atomic) := askAtomic cfg p (.list items)
      if atomic then .ok (.asked (.accepts p) :: asked ++ [.found ⟨p, .atomic (.list items)⟩])
      else (walkItems cfg p 0 items).map fun steps =>
        .asked (.accepts p) :: asked ++ containerLeaf cfg p .array ++ steps
    else .ok [.asked (.accepts p)]
  | .dict entries =>
    if cfg.accepts p (.dict entries) then
      let (asked, atomic) := askAtomic cfg p (.dict entries)
      if atomic then .ok (.asked (.accepts p) :: asked ++ [.found ⟨p, .atomic (.dict entries)⟩])
      else (walkEntries cfg p entries).map fun steps =>
        .asked (.accepts p) :: asked ++ containerLeaf cfg p .object ++ steps
    else .ok [.asked (.accepts p)]
  | v =>
    if cfg.accepts p v then
      if v.isPrimitive then .ok [.asked (.accepts p), .found ⟨p, .atomic v⟩]
      else
        let (asked, atomic) := askAtomic cfg p v
        if atomic then .ok (.asked (.accepts p) :: asked ++ [.found ⟨p, .atomic v⟩])
        else .error (.value v.typeName)
    else .ok [.asked (.accepts p)]

/-- The questions and leaves of the items of a list, with indices from `i` on. -/
def walkItems (cfg : Config) (p : Path) (i : Nat) : List Value → Except Unsupported (List Step)
  | [] => .ok []
  | v :: vs => do
    let first ← walk cfg (p ++ [.index i]) v
    let rest ← walkItems cfg p (i + 1) vs
    return first ++ rest

/-- The questions and leaves of the entries of a dictionary. A key that is no string ends the walk,
once the entries before it were walked. -/
def walkEntries (cfg : Config) (p : Path) :
    List (Value × Value) → Except Unsupported (List Step)
  | [] => .ok []
  | (.str k, v) :: es => do
    let first ← walk cfg (p ++ [.property k]) v
    let rest ← walkEntries cfg p es
    return first ++ rest
  | (k, _) :: _ => .error (.key k.typeName p)

end

/-- The leaves of a tree, in pre-order, which is what two trees are compared by. -/
def leaves (cfg : Config) (tree : Value) : Except Unsupported (List Leaf) :=
  (walk cfg Path.root tree).map (List.filterMap Step.leaf?)

/-- The leaves of a tree with their values; containers are shown empty. -/
def leafNodes (cfg : Config) (tree : Value) : Except Unsupported (List (Path × Value)) :=
  (leaves cfg tree).map (List.map fun leaf => (leaf.path, leaf.content.value))

end TreeDelta.Diff
