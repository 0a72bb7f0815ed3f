import Mathlib.Data.List.Nodup
import TreeDelta.Tree.Search

/-!
# The nodes of a tree

Paths see a tree as its steps: a list has a step for every item, and a dictionary has one for every
entry under a string key. Lists and dictionaries are treated alike from here on, so that a proof
about a whole tree is one induction over steps (`Value.stepInduction`).

A dictionary has at most one entry under a key. Entries are kept as a list, so this is a property
of a value, `Value.WellKeyed`; every place that a path reaches is then found in exactly one way.

## Main definitions

* `Value.steps`: the steps out of a value, with the values they lead to, in order.
* `Value.nodes`, `Value.sites`: the places of a tree in pre-order, without its holes and with them.
* `Value.every`, `Value.WellKeyed`: predicates on all values of a tree.

## Main results

* `Value.child?_eq_some_iff`: the value one step down is the one that the step leads to.
* `Value.mem_sites_iff`, `Value.mem_nodes_iff`: the places that paths resolve to.
* `Value.nodup_sites`, `Value.nodup_nodes`: no two nodes stand at one path.
-/

namespace TreeDelta

/-- A node of a subtree as a node of the tree above, one step down: its path starts with the
step. -/
def Node.under (c : Component) (n : Node) : Node := ⟨c :: n.path, n.value⟩

namespace Value

/-! ### Steps -/

/-- The string keys of a dictionary, in order. Keys of any other type are passed over, since no path
names them. -/
def keys (entries : List (Value × Value)) : List String :=
  entries.filterMap fun
    | (str k, _) => some k
    | _ => none

/-- An entry under a string key adds its key. -/
@[simp] theorem keys_cons (k : String) (v : Value) (entries : List (Value × Value)) :
    keys ((str k, v) :: entries) = k :: keys entries :=
  rfl

/-- The key of an entry is one of the keys, provided that it is a string. -/
theorem mem_keys_of_mem {entries : List (Value × Value)} {k : String} {v : Value}
    (h : (str k, v) ∈ entries) : k ∈ keys entries :=
  List.mem_filterMap.mpr ⟨_, h, rfl⟩

/-- The items of a list as steps, with indices from `i` on. -/
def itemSteps (i : Nat) : List Value → List (Component × Value)
  | [] => []
  | v :: vs => (.index i, v) :: itemSteps (i + 1) vs

/-- The entries of a dictionary under string keys as steps. There is no step to an entry under
another key. -/
def entrySteps : List (Value × Value) → List (Component × Value)
  | [] => []
  | (str k, v) :: es => (.property k, v) :: entrySteps es
  | _ :: es => entrySteps es

/-- The steps out of a value, each with the value it leads to. Holes are steps, too; keys that are
no strings are none. -/
def steps : Value → List (Component × Value)
  | list items => itemSteps 0 items
  | dict entries => entrySteps entries
  | _ => []

/-- The steps of a list are its indices with their items, counted from where the first item is. -/
theorem mem_itemSteps_iff {i : Nat} {items : List Value} {c : Component} {v : Value} :
    (c, v) ∈ itemSteps i items ↔ ∃ j, c = .index (i + j) ∧ items[j]? = some v := by
  induction items generalizing i with
  | nil => simp [itemSteps]
  | cons w ws ih =>
      rw [itemSteps, List.mem_cons, ih]
      constructor
      · rintro (h | ⟨j, rfl, hj⟩)
        · obtain ⟨rfl, rfl⟩ := Prod.mk.inj h
          exact ⟨0, rfl, rfl⟩
        · exact ⟨j + 1, by rw [Nat.add_assoc, Nat.add_comm 1 j], hj⟩
      · rintro ⟨j, rfl, hj⟩
        cases j with
        | zero => exact .inl (by rw [Option.some.inj hj, Nat.add_zero])
        | succ j => exact .inr ⟨j, by rw [Nat.add_assoc, Nat.add_comm 1 j], hj⟩

/-- The steps of a dictionary are its string keys with their values. -/
theorem mem_entrySteps_iff {entries : List (Value × Value)} {c : Component} {v : Value} :
    (c, v) ∈ entrySteps entries ↔ ∃ k, c = .property k ∧ (str k, v) ∈ entries := by
  induction entries with
  | nil => simp [entrySteps]
  | cons e es ih =>
      obtain ⟨k, w⟩ := e
      cases k <;> simp [entrySteps, ih]
      grind

/-- The components of the steps of a dictionary are its string keys. -/
theorem entrySteps_fst (entries : List (Value × Value)) :
    (entrySteps entries).map Prod.fst = (keys entries).map Component.property := by
  induction entries with
  | nil => rfl
  | cons e es ih =>
      obtain ⟨k, w⟩ := e
      cases k <;> simp_all [entrySteps, keys]

/-- A step leads to a smaller value, so that recursion over steps ends. -/
theorem sizeOf_lt_of_mem_steps {v w : Value} {c : Component} (h : (c, w) ∈ v.steps) :
    sizeOf w < sizeOf v := by
  cases v with
  | list items =>
      obtain ⟨j, -, hj⟩ := mem_itemSteps_iff.mp h
      have := List.sizeOf_lt_of_mem (List.mem_of_getElem? hj)
      simp only [list.sizeOf_spec]
      omega
  | dict entries =>
      obtain ⟨k, -, hk⟩ := mem_entrySteps_iff.mp h
      have := List.sizeOf_lt_of_mem hk
      simp only [Prod.mk.sizeOf_spec, dict.sizeOf_spec] at this ⊢
      omega
  | _ => simp [steps] at h

/-- **Induction over steps**: what holds of a value whenever it holds of all values one step down
holds of every value. Lists and dictionaries are one case in it. -/
@[elab_as_elim]
theorem stepInduction {motive : Value → Prop}
    (step : ∀ v, (∀ c w, (c, w) ∈ v.steps → motive w) → motive v) (v : Value) : motive v :=
  step v fun _ w h =>
    have := sizeOf_lt_of_mem_steps h
    stepInduction step w
termination_by sizeOf v

/-- Only containers have steps: a list its indices, and a dictionary its string keys. -/
theorem steps_eq_nil {v : Value} (h : v.kind? = none) : v.steps = [] := by
  cases v <;> simp [kind?, steps] at h ⊢

/-- A scalar is no container. -/
theorem kind?_of_isPrimitive {v : Value} (h : v.isPrimitive = true) : v.kind? = none := by
  cases v <;> simp [kind?, isPrimitive] at h ⊢

/-! ### Predicates on all values of a tree -/

mutual

/-- Whether a predicate holds of a value and of everything that paths reach in it. It is a function,
so that for a given tree it can be computed. -/
def every (p : Value → Bool) : Value → Bool
  | list items => p (list items) && everyItem p items
  | dict entries => p (dict entries) && everyEntry p entries
  | v => p v

/-- Whether a predicate holds of everything that paths reach in the items of a list. -/
def everyItem (p : Value → Bool) : List Value → Bool
  | [] => true
  | v :: vs => every p v && everyItem p vs

/-- Whether a predicate holds of everything that paths reach in the entries of a dictionary. -/
def everyEntry (p : Value → Bool) : List (Value × Value) → Bool
  | [] => true
  | (str _, v) :: es => every p v && everyEntry p es
  | _ :: es => everyEntry p es

end

/-- A predicate holds of a whole list when it holds of every item. In terms of steps, lists and
dictionaries are alike. -/
theorem everyItem_eq (p : Value → Bool) (i : Nat) (items : List Value) :
    everyItem p items = (itemSteps i items).all fun s => s.2.every p := by
  induction items generalizing i with
  | nil => rfl
  | cons v vs ih => rw [everyItem, ih (i + 1)]; rfl

/-- A predicate holds of all entries when it holds of every value under a string key. Entries under
other keys are out of reach. -/
theorem everyEntry_eq (p : Value → Bool) (entries : List (Value × Value)) :
    everyEntry p entries = (entrySteps entries).all fun s => s.2.every p := by
  induction entries with
  | nil => rfl
  | cons e es ih =>
      obtain ⟨k, w⟩ := e
      cases k <;> simp [everyEntry, entrySteps, ih]

/-- A predicate holds of a tree when it holds of its root and of the trees one step down. Apart from
this, the definition is not looked at. -/
theorem every_iff {p : Value → Bool} {v : Value} :
    v.every p = true ↔ p v = true ∧ ∀ c w, (c, w) ∈ v.steps → w.every p = true := by
  have flat : v.every p = (p v && v.steps.all fun s => s.2.every p) := by
    cases v with
    | list items => rw [every, everyItem_eq p 0]; rfl
    | dict entries => rw [every, everyEntry_eq]; rfl
    | _ => simp [every, steps]
  rw [flat, Bool.and_eq_true, List.all_eq_true]
  exact and_congr_right' ⟨fun h c w hs => h (c, w) hs, fun h s hs => h s.1 s.2 hs⟩

/-- A predicate that follows from another one holds wherever that one does. The two are compared
value by value. -/
theorem every_mono {p q : Value → Bool} (hpq : ∀ v, p v = true → q v = true) {v : Value}
    (h : v.every p = true) : v.every q = true := by
  induction v using stepInduction with
  | step v ih =>
      obtain ⟨hv, hs⟩ := every_iff.mp h
      exact every_iff.mpr ⟨hpq v hv, fun c w hw => ih c w hw (hs c w hw)⟩

/-- Two predicates that hold of a tree hold of it together, at every value that paths reach. -/
theorem every_and {p q : Value → Bool} {v : Value} (hp : v.every p = true)
    (hq : v.every q = true) : v.every (fun w => p w && q w) = true := by
  induction v using stepInduction with
  | step v ih =>
      obtain ⟨hpv, hps⟩ := every_iff.mp hp
      obtain ⟨hqv, hqs⟩ := every_iff.mp hq
      exact every_iff.mpr ⟨Bool.and_eq_true_iff.mpr ⟨hpv, hqv⟩,
        fun c w hw => ih c w hw (hps c w hw) (hqs c w hw)⟩

/-- Whether a value is a string. -/
def isString : Value → Bool
  | str _ => true
  | _ => false

/-- Whether the string keys of a dictionary are different; other values have no keys. Every
dictionary of a program is like this, but a list of entries need not be. -/
def hasUniqueKeys : Value → Bool
  | dict entries => decide (keys entries).Nodup
  | _ => true

/-- Every dictionary that paths reach has at most one entry under a string key. This is so for every
dictionary of the language that is modelled; here it has to be said. -/
def WellKeyed (v : Value) : Prop := v.every hasUniqueKeys = true

instance (v : Value) : Decidable v.WellKeyed := inferInstanceAs (Decidable (_ = true))

/-- The keys of a well-keyed value are different: the root is among the values that paths reach. -/
theorem WellKeyed.hasUniqueKeys {v : Value} (h : v.WellKeyed) : v.hasUniqueKeys = true :=
  (every_iff.mp h).1

/-- The values one step below a well-keyed value are well-keyed. This is what an induction over a
tree passes on. -/
theorem WellKeyed.step {v w : Value} {c : Component} (h : v.WellKeyed) (hs : (c, w) ∈ v.steps) :
    w.WellKeyed :=
  (every_iff.mp h).2 c w hs

/-! ### Steps and children -/

/-- The components of the items of a list are different. -/
theorem nodup_itemSteps (i : Nat) (items : List Value) :
    ((itemSteps i items).map Prod.fst).Nodup := by
  induction items generalizing i with
  | nil => simp [itemSteps]
  | cons v vs ih =>
      rw [itemSteps, List.map_cons, List.nodup_cons]
      refine ⟨fun hmem => ?_, ih (i + 1)⟩
      obtain ⟨⟨c, w⟩, hs, rfl⟩ := List.mem_map.mp hmem
      obtain ⟨j, hj, -⟩ := mem_itemSteps_iff.mp hs
      have := Component.index.inj hj
      omega

/-- No two steps of a value have one component, so a path leads to one place only. -/
theorem nodup_steps {v : Value} (h : v.hasUniqueKeys = true) : (v.steps.map Prod.fst).Nodup := by
  cases v with
  | list items => exact nodup_itemSteps 0 items
  | dict entries =>
      rw [steps, entrySteps_fst]
      exact (of_decide_eq_true h).map fun _ _ he => Component.property.inj he
  | _ => simp [steps]

/-- A component leads to one value only, if keys are different. -/
theorem steps_unique {v w w' : Value} {c : Component} (h : v.hasUniqueKeys = true)
    (hw : (c, w) ∈ v.steps) (hw' : (c, w') ∈ v.steps) : w = w' := by
  have := List.inj_on_of_nodup_map (nodup_steps h) hw hw' rfl
  exact (Prod.mk.inj this).2

/-- A key of a dictionary with different keys has the value of its entry, and of no other one. -/
theorem lookup_eq_some_iff {entries : List (Value × Value)} {k : String} {v : Value}
    (h : (keys entries).Nodup) : lookup k entries = some v ↔ (str k, v) ∈ entries := by
  induction entries with
  | nil => simp [lookup]
  | cons e es ih =>
      obtain ⟨key, w⟩ := e
      cases key with
      | str l =>
          rw [keys_cons, List.nodup_cons] at h
          rw [lookup, List.mem_cons]
          by_cases hl : l = k
          · subst hl
            rw [if_pos rfl]
            constructor
            · exact fun hw => .inl (by rw [Option.some.inj hw])
            · rintro (he | he)
              · rw [(Prod.mk.inj he).2]
              · exact absurd (mem_keys_of_mem he) h.1
          · rw [if_neg hl, ih h.2]
            constructor
            · exact .inr
            · rintro (he | he)
              · exact absurd (str.inj (Prod.mk.inj he).1).symm hl
              · exact he
      | _ =>
          simp only [keys, List.filterMap_cons] at h
          simp only [lookup, ih h, List.mem_cons, Prod.mk.injEq, reduceCtorEq, false_and, false_or]

/-- The value one step down is the one that the step leads to. With this, reading by paths is
reading by steps. -/
theorem child?_eq_some_iff {v w : Value} {c : Component} (h : v.hasUniqueKeys = true) :
    v.child? c = some w ↔ (c, w) ∈ v.steps := by
  cases v with
  | list items =>
      rw [steps, mem_itemSteps_iff]
      cases c <;> simp [child?, eq_comm]
  | dict entries =>
      rw [steps, mem_entrySteps_iff]
      cases c with
      | index i => simp [child?]
      | property k => simp [child?, lookup_eq_some_iff (of_decide_eq_true h)]
  | _ => simp [child?, steps]

/-! ### Nodes -/

mutual

/-- The places of a tree that are there, each with the value that stands there, in pre-order. What
is missing is no node, and neither is anything below it. -/
def nodes : Value → List Node
  | list items => ⟨[], list items⟩ :: itemNodes 0 items
  | dict entries => ⟨[], dict entries⟩ :: entryNodes entries
  | missing => []
  | v => [⟨[], v⟩]

/-- The nodes of the items of a list, with indices from `i` on. -/
def itemNodes (i : Nat) : List Value → List Node
  | [] => []
  | v :: vs => (nodes v).map (Node.under (.index i)) ++ itemNodes (i + 1) vs

/-- The nodes of the entries of a dictionary. -/
def entryNodes : List (Value × Value) → List Node
  | [] => []
  | (str k, v) :: es => (nodes v).map (Node.under (.property k)) ++ entryNodes es
  | _ :: es => entryNodes es

end

/-- The nodes below some steps, in order. -/
def nodesBelow (ss : List (Component × Value)) : List Node :=
  ss.flatMap fun s => s.2.nodes.map (Node.under s.1)

/-- The nodes of the items of a list are those below its steps: the recursion through the items, in
terms of steps. -/
theorem itemNodes_eq (i : Nat) (items : List Value) :
    itemNodes i items = nodesBelow (itemSteps i items) := by
  induction items generalizing i with
  | nil => rfl
  | cons v vs ih => rw [itemNodes, ih]; rfl

/-- The nodes of the entries of a dictionary are those below its steps: the recursion through the
entries, in terms of steps. -/
theorem entryNodes_eq (entries : List (Value × Value)) :
    entryNodes entries = nodesBelow (entrySteps entries) := by
  induction entries with
  | nil => rfl
  | cons e es ih =>
      obtain ⟨k, w⟩ := e
      cases k <;> simp [entryNodes, entrySteps, nodesBelow, ih]

/-- A missing value has no nodes. -/
@[simp] theorem nodes_missing : missing.nodes = [] := by rw [nodes]

/-- The nodes of a tree: its root, and then the nodes below its steps, in their order. Lists and
dictionaries are one case in it. -/
theorem nodes_eq {v : Value} (h : v.isMissing = false) :
    v.nodes = ⟨[], v⟩ :: nodesBelow v.steps := by
  cases v with
  | missing => exact absurd h (by simp [isMissing])
  | list items => rw [nodes, itemNodes_eq]; rfl
  | dict entries => rw [nodes, entryNodes_eq]; rfl
  | _ => simp [nodes, steps, nodesBelow]

/-- Only `missing` is missing. -/
theorem isMissing_iff {v : Value} : v.isMissing = true ↔ v = missing := by
  cases v <;> simp [isMissing]

/-- A container is there. -/
theorem isMissing_of_isContainer {v : Value} (h : v.isContainer = true) : v.isMissing = false := by
  cases v <;> first | rfl | exact absurd h (by simp [isContainer, kind?])

/-- A path resolves through its first component, and then goes on with the rest of the path. -/
theorem find?_cons (c : Component) (p : Path) (v : Value) :
    Path.find? (c :: p) v = (v.child? c).bind p.find? := by
  rw [Path.find?]
  cases v.child? c <;> rfl

/-- A predicate that holds of a whole tree holds of what a path resolves to, and of all that is
below. -/
theorem every_of_find? {f : Value → Bool} {v x : Value} {q : Path} (hk : v.WellKeyed)
    (h : v.every f = true) (hx : q.find? v = some x) : x.every f = true := by
  induction q generalizing v with
  | nil =>
      obtain rfl := Option.some.inj hx
      exact h
  | cons c q ih =>
      rw [find?_cons, Option.bind_eq_some_iff] at hx
      obtain ⟨w, hw, hx⟩ := hx
      have hs := (child?_eq_some_iff hk.hasUniqueKeys).mp hw
      exact ih (hk.step hs) ((every_iff.mp h).2 c w hs) hx

/-- The root is no node below a step, as the path of such a node is not empty. -/
theorem root_notMem_nodesBelow {ss : List (Component × Value)} {x : Value} :
    ⟨[], x⟩ ∉ nodesBelow ss := by
  intro h
  obtain ⟨s, -, hn⟩ := List.mem_flatMap.mp h
  obtain ⟨n, -, he⟩ := List.mem_map.mp hn
  exact absurd (Node.mk.inj he).1 (by simp)

/-! ### Nodes and holes -/

/-- The nodes of a tree, holes too, in pre-order. It is defined by recursion over steps, while
`nodes` follows the constructors of values. -/
def sites (v : Value) : List Node :=
  ⟨[], v⟩ :: v.steps.attach.flatMap fun ⟨(c, w), _⟩ => (sites w).map (Node.under c)
termination_by sizeOf v
decreasing_by exact Value.sizeOf_lt_of_mem_steps ‹_›

/-- The nodes of a tree with its holes: its root, and then those below its steps, in their order. -/
theorem sites_eq (v : Value) :
    v.sites = ⟨[], v⟩ :: v.steps.flatMap fun s => s.2.sites.map (Node.under s.1) := by
  have below : (v.steps.flatMap fun s => s.2.sites.map (Node.under s.1)) =
      v.steps.attach.flatMap fun s => s.1.2.sites.map (Node.under s.1.1) := by
    conv_lhs => rw [← List.attach_map_subtype_val v.steps, List.flatMap_map]
  rw [sites, below]

/-- **The nodes of a tree with its holes** are the places that paths resolve to, each with the value
there. -/
theorem mem_sites_iff {v : Value} (h : v.WellKeyed) {q : Path} {x : Value} :
    ⟨q, x⟩ ∈ v.sites ↔ q.find? v = some x := by
  induction q generalizing v with
  | nil =>
      rw [sites_eq, List.mem_cons, List.mem_flatMap, Path.find?, Option.some.injEq]
      constructor
      · rintro (root | ⟨s, -, below⟩)
        · exact (Node.mk.inj root).2.symm
        · obtain ⟨n, -, he⟩ := List.mem_map.mp below
          exact absurd (Node.mk.inj he).1 (by simp)
      · rintro rfl
        exact .inl rfl
  | cons c q ih =>
      rw [sites_eq, List.mem_cons, List.mem_flatMap, find?_cons, Option.bind_eq_some_iff]
      constructor
      · rintro (root | ⟨⟨d, w⟩, hs, below⟩)
        · exact absurd (Node.mk.inj root).1 (by simp)
        · obtain ⟨n, hn, he⟩ := List.mem_map.mp below
          obtain ⟨hp, rfl⟩ := Node.mk.inj he
          obtain ⟨rfl, rfl⟩ := List.cons.inj hp
          exact ⟨w, (child?_eq_some_iff h.hasUniqueKeys).mpr hs, (ih (h.step hs)).mp hn⟩
      · rintro ⟨w, hw, found⟩
        have hs := (child?_eq_some_iff h.hasUniqueKeys).mp hw
        exact .inr ⟨(c, w), hs, List.mem_map.mpr ⟨⟨q, x⟩, (ih (h.step hs)).mpr found, rfl⟩⟩

/-- **No two places of a tree are at one path.** -/
theorem nodup_sites {v : Value} (h : v.WellKeyed) : (v.sites.map Node.path).Nodup := by
  induction v using stepInduction with
  | step v ih =>
      have under : ∀ (c : Component) (w : Value), (w.sites.map (Node.under c)).map Node.path =
          (w.sites.map Node.path).map (List.cons c) := by
        intro c w
        rw [List.map_map, List.map_map]
        rfl
      rw [sites_eq, List.map_cons, List.nodup_cons, List.map_flatMap]
      simp only [under]
      constructor
      · intro root
        obtain ⟨s, -, hp⟩ := List.mem_flatMap.mp root
        obtain ⟨q, -, he⟩ := List.mem_map.mp hp
        exact absurd he (by simp)
      · refine List.nodup_flatMap.mpr ⟨fun s hs => ?_, ?_⟩
        · exact (ih s.1 s.2 hs (h.step hs)).map fun _ _ he => (List.cons.inj he).2
        · refine (List.pairwise_map.mp (nodup_steps h.hasUniqueKeys)).imp ?_
          intro s s' hne p hp hp'
          obtain ⟨q, -, rfl⟩ := List.mem_map.mp hp
          obtain ⟨q', -, he⟩ := List.mem_map.mp hp'
          exact hne (List.cons.inj he).1.symm

/-- The nodes of a tree are its places without the holes. So what is known of places carries
over. -/
theorem nodes_eq_filter (v : Value) : v.nodes = v.sites.filter fun n => !n.value.isMissing := by
  induction v using stepInduction with
  | step v ih =>
      cases hm : v.isMissing with
      | true =>
          rw [isMissing_iff.mp hm, nodes_missing, sites_eq]
          rfl
      | false =>
          rw [nodes_eq hm, sites_eq, List.filter_cons_of_pos (by simp [hm]), List.filter_flatMap,
            nodesBelow]
          refine congrArg _ (List.flatMap_congr fun s hs => ?_)
          rw [ih s.1 s.2 hs, List.filter_map]
          rfl

/-- No node has a missing value. Holes are sites, but no nodes. -/
theorem present_of_mem_nodes {v : Value} {n : Node} (h : n ∈ v.nodes) :
    n.value.isMissing = false := by
  rw [nodes_eq_filter, List.mem_filter] at h
  simpa using h.2

/-- **The nodes of a tree are the places that paths resolve to**, except for missing values. -/
theorem mem_nodes_iff {v : Value} (h : v.WellKeyed) {q : Path} {x : Value} :
    ⟨q, x⟩ ∈ v.nodes ↔ q.find? v = some x ∧ x.isMissing = false := by
  rw [nodes_eq_filter, List.mem_filter, mem_sites_iff h, Bool.not_eq_true']

/-- **No two nodes stand at one path.** -/
theorem nodup_nodes {v : Value} (h : v.WellKeyed) : (v.nodes.map Node.path).Nodup := by
  rw [nodes_eq_filter]
  exact (List.filter_sublist.map Node.path).nodup (nodup_sites h)

end Value

end TreeDelta
