import Mathlib.Data.List.Nodup
import TreeDelta.Diff.Leaf
import TreeDelta.Proofs.Outcome
import TreeDelta.Proofs.Tree.Node

/-!
# The leaves of a tree

A walk lists its leaves among the questions it asks and stops at values it cannot go into. The
leaves alone are a recursion over steps, `Diff.leavesFrom`, and a walk that ends has found exactly
these (`Diff.leaves_of_walk`). With the default predicates they are the nodes that show something,
scalars and, where containers are reported, lists and dictionaries (`Diff.leavesFrom_default`).

## Main definitions

* `Diff.leavesFrom`: the leaves of the tree at a path, whether or not a walk ends.
* `Diff.LeafAt`: what a path shows as a leaf of a tree.

## Main results

* `Diff.leaves_eq`: the leaves that a walk finds.
* `Diff.nodup_leaves`: no two leaves stand at one path, whatever the predicates are.
* `Diff.mem_leaves_iff`: with the default predicates the leaves are what paths show.
* `Diff.exists_leaves`: a walk ends in trees of scalars, lists and dictionaries with string keys.
-/

namespace TreeDelta.Diff

/-! ### Leaves without questions -/

/-- Whether a value at a path is one atomic value for a diff. -/
def Config.isLeaf (cfg : Config) (p : Path) (v : Value) : Bool :=
  v.isPrimitive || (askAtomic cfg p v).2

/-- The leaf that a container is itself, where containers are reported, as a list of one leaf at
most. -/
def ownLeaf (cfg : Config) (p : Path) (v : Value) : List Leaf :=
  if cfg.includeContainers then (v.kind?.map fun k => Leaf.mk p (.container k)).toList else []

/-- The leaves of the tree at a path, in pre-order. Unlike a walk, this neither asks nor fails, and
it follows the steps of a value whatever its kind. -/
def leavesFrom (cfg : Config) (p : Path) (v : Value) : List Leaf :=
  if cfg.accepts p v then
    if cfg.isLeaf p v then [⟨p, .atomic v⟩]
    else ownLeaf cfg p v ++ v.steps.attach.flatMap fun ⟨(c, w), _⟩ => leavesFrom cfg (p ++ [c]) w
  else []
termination_by sizeOf v
decreasing_by exact Value.sizeOf_lt_of_mem_steps ‹_›

/-- The leaves below some steps out of the place at a path. -/
def leavesBelow (cfg : Config) (p : Path) (ss : List (Component × Value)) : List Leaf :=
  ss.flatMap fun s => leavesFrom cfg (p ++ [s.1]) s.2

/-- The leaves of a tree: its root, if it is one atomic value, or the leaves below its steps. Apart
from this, the definition is not looked at. -/
theorem leavesFrom_eq (cfg : Config) (p : Path) (v : Value) :
    leavesFrom cfg p v =
      if cfg.accepts p v then
        if cfg.isLeaf p v then [⟨p, .atomic v⟩] else ownLeaf cfg p v ++ leavesBelow cfg p v.steps
      else [] := by
  have below : leavesBelow cfg p v.steps =
      v.steps.attach.flatMap fun s => leavesFrom cfg (p ++ [s.1.1]) s.1.2 := by
    conv_lhs => rw [leavesBelow, ← List.attach_map_subtype_val v.steps, List.flatMap_map]
  rw [leavesFrom, below]

/-! ### Walks -/

/-- Asking whether a value is atomic finds no leaf. -/
theorem filterMap_askAtomic (cfg : Config) (p : Path) (v : Value) :
    (askAtomic cfg p v).1.filterMap Step.leaf? = [] := by
  rw [askAtomic]
  cases cfg.isAtomic? <;> rfl

/-- The walk below a container, without what is asked and found about the container itself. -/
def walkBelow (cfg : Config) (p : Path) : Value → Except Unsupported (List Step)
  | .list items => walkItems cfg p 0 items
  | .dict entries => walkEntries cfg p entries
  | _ => .ok []

/-- A value that does not take part is asked about and left out. -/
theorem walk_rejected {cfg : Config} {p : Path} {v : Value} (ha : cfg.accepts p v = false) :
    walk cfg p v = .ok [.asked (.accepts p)] := by
  cases v <;> simp [walk, ha]

/-- The questions about a value that takes part, whether it is atomic: none about a scalar. -/
def atomicSteps (cfg : Config) (p : Path) (v : Value) : List Step :=
  if v.isPrimitive then [] else (askAtomic cfg p v).1

/-- The questions about one value find no leaf. -/
theorem filterMap_atomicSteps (cfg : Config) (p : Path) (v : Value) :
    (atomicSteps cfg p v).filterMap Step.leaf? = [] := by
  rw [atomicSteps]
  split
  · rfl
  · exact filterMap_askAtomic cfg p v

/-- An atomic value is found after the questions about it. -/
theorem walk_leaf {cfg : Config} {p : Path} {v : Value} (ha : cfg.accepts p v = true)
    (hl : cfg.isLeaf p v = true) :
    walk cfg p v =
      .ok (.asked (.accepts p) :: (atomicSteps cfg p v ++ [.found ⟨p, .atomic v⟩])) := by
  rw [atomicSteps]
  cases hp : v.isPrimitive with
  | true => cases v <;> simp_all [walk, Value.isPrimitive]
  | false =>
      rw [Config.isLeaf, hp, Bool.false_or] at hl
      cases v <;> simp_all [walk, Value.isPrimitive]

/-- A container that is not atomic is walked. The four equations of this kind say all that a walk
does with one value. -/
theorem walk_container {cfg : Config} {p : Path} {v : Value} {k : Kind}
    (ha : cfg.accepts p v = true) (hl : cfg.isLeaf p v = false) (hk : v.kind? = some k) :
    walk cfg p v = (walkBelow cfg p v).map fun steps =>
      .asked (.accepts p) :: (askAtomic cfg p v).1 ++ containerLeaf cfg p k ++ steps := by
  rw [Config.isLeaf, Bool.or_eq_false_iff] at hl
  cases v <;> simp_all [walk, walkBelow, Value.kind?]

/-- A value that is neither atomic nor a container stops a walk. -/
theorem walk_unsupported {cfg : Config} {p : Path} {v : Value} (ha : cfg.accepts p v = true)
    (hl : cfg.isLeaf p v = false) (hk : v.kind? = none) :
    walk cfg p v = .error (.value v.typeName) := by
  rw [Config.isLeaf, Bool.or_eq_false_iff] at hl
  cases v <;> simp_all [walk, Value.kind?, Value.isPrimitive]

/-- The leaf of a container itself is found where containers are reported. -/
theorem filterMap_containerLeaf (cfg : Config) (p : Path) {v : Value} {k : Kind}
    (h : v.kind? = some k) :
    (containerLeaf cfg p k).filterMap Step.leaf? = ownLeaf cfg p v := by
  rw [containerLeaf, ownLeaf, h]
  cases cfg.includeContainers <;> rfl

section Below

variable {β : Type} {f : Step → Option β} {g : Path → Value → List β} {cfg : Config} {p : Path}
  {ss : List Step}

/-- A walk over the items of a list lists what the walks over the items list. What is listed is a
parameter, as both leaves and questions are. -/
theorem filterMap_walkItems {items : List Value}
    (ih : ∀ w ∈ items, ∀ q ss, walk cfg q w = .ok ss → ss.filterMap f = g q w) {i : Nat}
    (h : walkItems cfg p i items = .ok ss) :
    ss.filterMap f = (Value.itemSteps i items).flatMap fun s => g (p ++ [s.1]) s.2 := by
  induction items generalizing i ss with
  | nil =>
      rw [walkItems] at h
      obtain rfl := Except.ok.inj h
      rfl
  | cons v vs ihs =>
      rw [walkItems] at h
      obtain ⟨first, hv, h⟩ := bind_eq_ok_iff.mp h
      obtain ⟨rest, hvs, h⟩ := bind_eq_ok_iff.mp h
      obtain rfl : first ++ rest = ss := Except.ok.inj h
      rw [List.filterMap_append, ih v List.mem_cons_self _ _ hv,
        ihs (fun w hw => ih w (List.mem_cons_of_mem v hw)) hvs]
      rfl

/-- A walk over the entries of a dictionary lists what the walks over the values list. -/
theorem filterMap_walkEntries {entries : List (Value × Value)}
    (ih : ∀ k w, (.str k, w) ∈ entries → ∀ q ss, walk cfg q w = .ok ss → ss.filterMap f = g q w)
    (h : walkEntries cfg p entries = .ok ss) :
    ss.filterMap f = (Value.entrySteps entries).flatMap fun s => g (p ++ [s.1]) s.2 := by
  induction entries generalizing ss with
  | nil =>
      rw [walkEntries] at h
      obtain rfl := Except.ok.inj h
      rfl
  | cons e es ihs =>
      obtain ⟨k, v⟩ := e
      cases k with
      | str k =>
          rw [walkEntries] at h
          obtain ⟨first, hv, h⟩ := bind_eq_ok_iff.mp h
          obtain ⟨rest, hes, h⟩ := bind_eq_ok_iff.mp h
          obtain rfl : first ++ rest = ss := Except.ok.inj h
          rw [List.filterMap_append, ih k v List.mem_cons_self _ _ hv,
            ihs (fun l w hw => ih l w (List.mem_cons_of_mem _ hw)) hes]
          rfl
      | _ => exact absurd h (by simp [walkEntries])

/-- A walk below a container lists what the walks over the values one step down list. -/
theorem filterMap_walkBelow {v : Value}
    (ih : ∀ c w, (c, w) ∈ v.steps → ∀ q ss, walk cfg q w = .ok ss → ss.filterMap f = g q w)
    (h : walkBelow cfg p v = .ok ss) :
    ss.filterMap f = v.steps.flatMap fun s => g (p ++ [s.1]) s.2 := by
  cases v with
  | list items =>
      refine filterMap_walkItems (fun w hw => ?_) h
      obtain ⟨j, hj⟩ := List.mem_iff_getElem?.mp hw
      exact ih (.index (0 + j)) w (Value.mem_itemSteps_iff.mpr ⟨j, rfl, hj⟩)
  | dict entries =>
      refine filterMap_walkEntries (fun k w hw => ?_) h
      exact ih (.property k) w (Value.mem_entrySteps_iff.mpr ⟨k, rfl, hw⟩)
  | _ => obtain rfl := Except.ok.inj h; rfl

end Below

/-- **A walk that ends has found the leaves of the tree.** By induction over the steps of the
tree. -/
theorem leaves_of_walk {cfg : Config} {p : Path} {v : Value} {ss : List Step}
    (h : walk cfg p v = .ok ss) : ss.filterMap Step.leaf? = leavesFrom cfg p v := by
  induction v using Value.stepInduction generalizing p ss with
  | step v ih =>
      rw [leavesFrom_eq]
      cases ha : cfg.accepts p v with
      | false =>
          obtain rfl := Except.ok.inj ((walk_rejected ha).symm.trans h)
          rfl
      | true =>
          rw [if_pos rfl]
          cases hl : cfg.isLeaf p v with
          | true =>
              obtain rfl := Except.ok.inj ((walk_leaf ha hl).symm.trans h)
              simp only [List.filterMap_cons, Step.leaf?, List.filterMap_append,
                filterMap_atomicSteps]
              rfl
          | false =>
              cases hk : v.kind? with
              | none => exact absurd (h.symm.trans (walk_unsupported ha hl hk)) (by simp)
              | some k =>
                  rw [walk_container ha hl hk] at h
                  obtain ⟨rest, hb, rfl⟩ := map_eq_ok_iff.mp h
                  have below := filterMap_walkBelow (fun c w hw q ss => ih c w hw) hb
                  simp only [List.cons_append, List.filterMap_cons, Step.leaf?,
                    List.filterMap_append]
                  rw [filterMap_askAtomic, filterMap_containerLeaf cfg p hk, below]
                  rfl

/-- The leaves that a walk finds. -/
theorem leaves_eq {cfg : Config} {v : Value} {ls : List Leaf} (h : leaves cfg v = .ok ls) :
    ls = leavesFrom cfg Path.root v := by
  obtain ⟨ss, hw, rfl⟩ := map_eq_ok_iff.mp h
  exact leaves_of_walk hw

/-! ### Paths of leaves -/

/-- Every leaf of the tree at a path lies at or below the path, so leaves below different steps have
different paths. -/
theorem isPrefix_of_mem_leavesFrom {cfg : Config} {p : Path} {v : Value} {leaf : Leaf}
    (h : leaf ∈ leavesFrom cfg p v) : p <+: leaf.path := by
  induction v using Value.stepInduction generalizing p with
  | step v ih =>
      rw [leavesFrom_eq] at h
      split at h
      · split at h
        · obtain rfl := List.mem_singleton.mp h
          exact List.prefix_rfl
        · rcases List.mem_append.mp h with h | h
          · rw [ownLeaf] at h
            split at h
            · obtain ⟨k, -, rfl⟩ := Option.map_eq_some_iff.mp (Option.mem_toList.mp h)
              exact List.prefix_rfl
            · exact absurd h (by simp)
          · obtain ⟨⟨c, w⟩, hs, hl⟩ := List.mem_flatMap.mp h
            exact (List.prefix_append p [c]).trans (ih c w hs hl)
      · exact absurd h (by simp)

/-- A path below one step does not lie below another one. -/
theorem eq_of_isPrefix {p q : Path} {c d : Component} (hc : p ++ [c] <+: q)
    (hd : p ++ [d] <+: q) : c = d := by
  have same := List.prefix_of_prefix_length_le hc hd (by simp)
  simpa using same

/-- **No two leaves stand at one path.** Without this, a table of leaves would lose some. -/
theorem nodup_leavesFrom (cfg : Config) (p : Path) {v : Value} (h : v.WellKeyed) :
    ((leavesFrom cfg p v).map Leaf.path).Nodup := by
  induction v using Value.stepInduction generalizing p with
  | step v ih =>
      -- leaves below different steps differ in the component of the step
      have below : ((leavesBelow cfg p v.steps).map Leaf.path).Nodup := by
        rw [leavesBelow, List.map_flatMap, List.nodup_flatMap]
        refine ⟨fun s hs => ih s.1 s.2 hs _ (h.step hs), ?_⟩
        refine (List.pairwise_map.mp (Value.nodup_steps h.hasUniqueKeys)).imp ?_
        rintro ⟨c, w⟩ ⟨d, x⟩ hne q hq hq'
        obtain ⟨l, hl, rfl⟩ := List.mem_map.mp hq
        obtain ⟨l', hl', he⟩ := List.mem_map.mp hq'
        have hd := isPrefix_of_mem_leavesFrom hl'
        rw [he] at hd
        exact hne (eq_of_isPrefix (isPrefix_of_mem_leavesFrom hl) hd)
      rw [leavesFrom_eq]
      split
      · split
        · simp
        · rw [ownLeaf]
          split
          · cases v.kind? with
            | none => exact below
            | some k =>
                refine List.nodup_cons.mpr ⟨fun hmem => ?_, below⟩
                obtain ⟨l, hl, he⟩ := List.mem_map.mp hmem
                obtain ⟨⟨c, w⟩, hs, hl⟩ := List.mem_flatMap.mp hl
                have hp := isPrefix_of_mem_leavesFrom hl
                rw [he] at hp
                exact absurd hp.length_le (by simp)
          · exact below
      · simp

/-- No two leaves that a walk finds stand at one path. -/
theorem nodup_leaves {cfg : Config} {v : Value} {ls : List Leaf} (h : leaves cfg v = .ok ls)
    (hk : v.WellKeyed) : (ls.map Leaf.path).Nodup := by
  rw [leaves_eq h]
  exact nodup_leavesFrom cfg Path.root hk

/-! ### The default predicates -/

/-- What a value shows as a leaf, with the default predicates. -/
def shown? (b : Bool) (v : Value) : Option Content :=
  if v.isPrimitive then some (.atomic v) else if b then v.kind?.map .container else none

/-- The leaf that a node is below a path, with the default predicates. -/
def leafOf? (b : Bool) (p : Path) (n : Node) : Option Leaf :=
  (shown? b n.value).map fun x => ⟨p ++ n.path, x⟩

/-- **With the default predicates the leaves are the nodes that show something**, in pre-order. A
scalar shows itself, and a container shows its kind where containers are reported. -/
theorem leavesFrom_default (b : Bool) (p : Path) (v : Value) :
    leavesFrom { includeContainers := b } p v = v.nodes.filterMap (leafOf? b p) := by
  induction v using Value.stepInduction generalizing p with
  | step v ih =>
      rw [leavesFrom_eq]
      cases hm : v.isMissing with
      | true => simp [Value.isMissing_iff.mp hm, acceptPresent, Value.isMissing]
      | false =>
          have accepted : acceptPresent p v = true := by rw [acceptPresent, hm]; rfl
          have below : leavesBelow { includeContainers := b } p v.steps =
              (Value.nodesBelow v.steps).filterMap (leafOf? b p) := by
            rw [leavesBelow, Value.nodesBelow, List.filterMap_flatMap]
            refine List.flatMap_congr fun s hs => ?_
            rw [ih s.1 s.2 hs, List.filterMap_map]
            congr 1
            funext n
            simp [leafOf?, Node.under]
          have leaf : Config.isLeaf { includeContainers := b } p v = v.isPrimitive := by
            simp [Config.isLeaf, askAtomic]
          rw [if_pos accepted, leaf, below, Value.nodes_eq hm, List.filterMap_cons, leafOf?, shown?,
            ownLeaf]
          cases hp : v.isPrimitive with
          | true =>
              have none : v.steps = [] := Value.steps_eq_nil (Value.kind?_of_isPrimitive hp)
              simp [none, Value.nodesBelow]
          | false =>
              cases b with
              | true => cases v.kind? <;> simp
              | false => simp

/-- What a path shows as a leaf of a tree: a scalar that is there, or, where containers are
reported, the kind of a list or dictionary. This is said in terms of reading alone. -/
inductive LeafAt (b : Bool) (tree : Value) (p : Path) : Content → Prop
  /-- A scalar shows itself. -/
  | atomic {v : Value} : p.find? tree = some v → v.isPrimitive = true → v.isMissing = false →
      LeafAt b tree p (.atomic v)
  /-- A container shows its kind. -/
  | container {v : Value} {k : Kind} : b = true → p.find? tree = some v → v.kind? = some k →
      LeafAt b tree p (.container k)

/-- A path shows what the value there shows. -/
theorem leafAt_iff {b : Bool} {tree : Value} {p : Path} {x : Content} :
    LeafAt b tree p x ↔
      ∃ v, p.find? tree = some v ∧ v.isMissing = false ∧ shown? b v = some x := by
  constructor
  · rintro (⟨hf, hp, hm⟩ | ⟨rfl, hf, hk⟩)
    · exact ⟨_, hf, hm, by rw [shown?, if_pos hp]⟩
    · refine ⟨_, hf, ?_, ?_⟩
      · cases ‹Value› <;> simp_all [Value.kind?, Value.isMissing]
      · rw [shown?, hk, if_neg (by cases ‹Value› <;> simp_all [Value.kind?, Value.isPrimitive])]
        rfl
  · rintro ⟨v, hf, hm, hs⟩
    rw [shown?] at hs
    split at hs
    · next hp =>
        obtain rfl := Option.some.inj hs
        exact .atomic hf hp hm
    · split at hs
      · next hb =>
          obtain ⟨k, hk, rfl⟩ := Option.map_eq_some_iff.mp hs
          exact .container hb hf hk
      · exact absurd hs (by simp)

/-- **With the default predicates the leaves are what paths show**, and nothing else. -/
theorem mem_leaves_iff {b : Bool} {v : Value} {ls : List Leaf}
    (h : leaves { includeContainers := b } v = .ok ls) (hk : v.WellKeyed) {q : Path} {x : Content} :
    ⟨q, x⟩ ∈ ls ↔ LeafAt b v q x := by
  rw [leaves_eq h, leavesFrom_default, List.mem_filterMap, leafAt_iff]
  constructor
  · rintro ⟨⟨r, w⟩, hn, hl⟩
    obtain ⟨y, hy, he⟩ := Option.map_eq_some_iff.mp hl
    obtain ⟨rfl, rfl⟩ := Leaf.mk.inj he
    obtain ⟨hf, hm⟩ := (Value.mem_nodes_iff hk).mp hn
    exact ⟨w, hf, hm, hy⟩
  · rintro ⟨w, hf, hm, hs⟩
    exact ⟨⟨q, w⟩, (Value.mem_nodes_iff hk).mpr ⟨hf, hm⟩, by rw [leafOf?, hs]; rfl⟩

/-! ### Walks that end -/

/-- A scalar, a list, or a dictionary with string keys only. -/
def isWalkable : Value → Bool
  | .list _ => true
  | .dict entries => entries.all fun e => e.1.isString
  | v => v.isPrimitive

/-- A walk over the items of a list ends when the walk over every item ends. -/
theorem exists_walkItems_iff {cfg : Config} {p : Path} {items : List Value} (i : Nat) :
    (∃ ss, walkItems cfg p i items = .ok ss) ↔
      ∀ c w, (c, w) ∈ Value.itemSteps i items → ∃ ss, walk cfg (p ++ [c]) w = .ok ss := by
  induction items generalizing i with
  | nil => exact iff_of_true ⟨[], by rw [walkItems]⟩ (by simp [Value.itemSteps])
  | cons v vs ih =>
      rw [Value.itemSteps]
      constructor
      · rintro ⟨ss, h⟩ c w hw
        rw [walkItems] at h
        obtain ⟨first, hfirst, h⟩ := bind_eq_ok_iff.mp h
        obtain ⟨rest, hrest, -⟩ := bind_eq_ok_iff.mp h
        rcases List.mem_cons.mp hw with he | hw
        · obtain ⟨rfl, rfl⟩ := Prod.mk.inj he
          exact ⟨first, hfirst⟩
        · exact (ih (i + 1)).mp ⟨rest, hrest⟩ c w hw
      · intro h
        obtain ⟨first, hfirst⟩ := h (.index i) v List.mem_cons_self
        obtain ⟨rest, hrest⟩ :=
          (ih (i + 1)).mpr fun c w hw => h c w (List.mem_cons_of_mem _ hw)
        exact ⟨first ++ rest, by rw [walkItems, hfirst, hrest]; rfl⟩

/-- A walk over the entries of a dictionary ends when all keys are strings and the walk over every
value ends. -/
theorem exists_walkEntries_iff {cfg : Config} {p : Path} {entries : List (Value × Value)} :
    (∃ ss, walkEntries cfg p entries = .ok ss) ↔
      (∀ e ∈ entries, e.1.isString = true) ∧
        ∀ c w, (c, w) ∈ Value.entrySteps entries → ∃ ss, walk cfg (p ++ [c]) w = .ok ss := by
  induction entries with
  | nil => exact iff_of_true ⟨[], by rw [walkEntries]⟩ (by simp [Value.entrySteps])
  | cons e es ih =>
      obtain ⟨key, v⟩ := e
      rw [List.forall_mem_cons]
      cases key with
      | str k =>
          rw [Value.entrySteps]
          constructor
          · rintro ⟨ss, h⟩
            rw [walkEntries] at h
            obtain ⟨first, hfirst, h⟩ := bind_eq_ok_iff.mp h
            obtain ⟨rest, hrest, -⟩ := bind_eq_ok_iff.mp h
            obtain ⟨strings, below⟩ := ih.mp ⟨rest, hrest⟩
            refine ⟨⟨rfl, strings⟩, fun c w hw => ?_⟩
            rcases List.mem_cons.mp hw with he | hw
            · obtain ⟨rfl, rfl⟩ := Prod.mk.inj he
              exact ⟨first, hfirst⟩
            · exact below c w hw
          · rintro ⟨⟨-, strings⟩, h⟩
            obtain ⟨first, hfirst⟩ := h (.property k) v List.mem_cons_self
            obtain ⟨rest, hrest⟩ :=
              ih.mpr ⟨strings, fun c w hw => h c w (List.mem_cons_of_mem _ hw)⟩
            exact ⟨first ++ rest, by rw [walkEntries, hfirst, hrest]; rfl⟩
      | _ => exact iff_of_false (by simp [walkEntries]) (by simp [Value.isString])

/-- Whether the keys of a dictionary are strings; other values have no keys. -/
def hasStringKeys : Value → Bool
  | .dict entries => entries.all fun e => e.1.isString
  | _ => true

/-- A walk below a value ends when its keys are strings and the walks over the values one step down
end. -/
theorem exists_walkBelow_iff {cfg : Config} {p : Path} {v : Value} :
    (∃ ss, walkBelow cfg p v = .ok ss) ↔
      hasStringKeys v = true ∧ ∀ c w, (c, w) ∈ v.steps → ∃ ss, walk cfg (p ++ [c]) w = .ok ss := by
  cases v with
  | list items => exact (exists_walkItems_iff 0).trans (and_iff_right rfl).symm
  | dict entries => exact exists_walkEntries_iff.trans (and_congr_left' List.all_eq_true.symm)
  | _ => exact iff_of_true ⟨[], rfl⟩ ⟨rfl, by simp [Value.steps]⟩

/-- **A walk ends** when its value is left out or atomic, or is a container with string keys and the
walks over the values one step down end. So it is known of every value whether it stops a walk. -/
theorem exists_walk_iff {cfg : Config} {p : Path} {v : Value} :
    (∃ ss, walk cfg p v = .ok ss) ↔
      cfg.accepts p v = false ∨ cfg.isLeaf p v = true ∨
        v.isContainer = true ∧ hasStringKeys v = true ∧
          ∀ c w, (c, w) ∈ v.steps → ∃ ss, walk cfg (p ++ [c]) w = .ok ss := by
  cases ha : cfg.accepts p v with
  | false => exact iff_of_true ⟨_, walk_rejected ha⟩ (.inl rfl)
  | true =>
      cases hl : cfg.isLeaf p v with
      | true => exact iff_of_true ⟨_, walk_leaf ha hl⟩ (.inr (.inl rfl))
      | false =>
          rw [← exists_walkBelow_iff, Value.isContainer]
          cases hk : v.kind? with
          | none => simp [walk_unsupported ha hl hk]
          | some k =>
              rw [walk_container ha hl hk]
              cases walkBelow cfg p v <;> simp [Except.map]

/-- A walk over scalars, lists and dictionaries with string keys ends. -/
theorem exists_walk (cfg : Config) (p : Path) {v : Value} (h : v.every isWalkable = true) :
    ∃ ss, walk cfg p v = .ok ss := by
  induction v using Value.stepInduction generalizing p with
  | step v ih =>
      obtain ⟨hv, hs⟩ := Value.every_iff.mp h
      have below : ∀ c w, (c, w) ∈ v.steps → ∃ ss, walk cfg (p ++ [c]) w = .ok ss :=
        fun c w hw => ih c w hw (p ++ [c]) (hs c w hw)
      refine exists_walk_iff.mpr (.inr ?_)
      cases hp : v.isPrimitive with
      | true => exact .inl (by rw [Config.isLeaf, hp]; rfl)
      | false =>
          refine .inr ⟨?_, ?_, below⟩
          · cases v <;> first | rfl | exact absurd (hp.symm.trans hv) (by simp)
          · cases v <;> first | rfl | exact hv

/-- **The leaves of scalars, lists and dictionaries with string keys are found**, with whatever
options. -/
theorem exists_leaves (cfg : Config) {v : Value} (h : v.every isWalkable = true) :
    ∃ ls, leaves cfg v = .ok ls := by
  obtain ⟨ss, hss⟩ := exists_walk cfg Path.root h
  exact ⟨_, by rw [leaves, hss]; rfl⟩

end TreeDelta.Diff
