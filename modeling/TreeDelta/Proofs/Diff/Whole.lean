import TreeDelta.Proofs.Diff.Standing
import TreeDelta.Proofs.Tree.Part

/-!
# A tree against an empty one

The paths of a tree are found by comparing it to an empty container of its kind, or to nothing. The
empty container has no leaf but itself (`Diff.leaves_emptyLike`), and the tree has the same leaf in
front (`Diff.exists_leavesFrom_root`). A comparison to leaves that are still there at the front adds
what comes after them (`Diff.changesBy_front`), so what is found are the leaves, without the root
where it is reported.

## Main definitions

* `Diff.Config.IsSelective`: what takes part is decided by ignored patterns alone.
* `Diff.rootLeaf`: the leaf that a tree shares with an empty one of its kind.

## Main results

* `Diff.changesBy_front`: comparing some leaves to those at their front.
* `Diff.allPaths_exact`: the paths of a tree are those of its leaves.
-/

namespace TreeDelta.Diff

variable {cfg : Config} {v : Value}

/-! ### Leaves that are still there -/

/-- The addition of a leaf: a change with what the leaf shows as the new value, and without an old
one. -/
def addition (leaf : Leaf) : Change := ⟨leaf.path, none, some leaf.content.value, false⟩

/-- **Comparing leaves to those at their front** adds the others. -/
theorem changesBy_front {front rest : List Leaf} (nodup : ((front ++ rest).map Leaf.path).Nodup)
    (same : ∀ leaf ∈ front, leaf.content.equal cfg leaf.path leaf.content = true) :
    changesBy cfg front (front ++ rest) = rest.map addition := by
  rw [List.map_append] at nodup
  obtain ⟨front_nodup, -, apart⟩ := List.nodup_append.mp nodup
  have unchanged : front.filterMap (changeOf? cfg front) = [] := by
    refine List.filterMap_eq_nil_iff.mpr fun leaf hl => ?_
    rw [changeOf?, (leafAt?_eq_some_iff front_nodup).mpr ⟨hl, rfl⟩]
    exact if_pos (same leaf hl)
  have added : rest.filterMap (changeOf? cfg front) = rest.map addition := by
    rw [← List.filterMap_eq_map]
    refine List.filterMap_congr fun leaf hl => ?_
    have new : leaf.path ∉ front.map Leaf.path := fun hf =>
      apart _ hf _ (List.mem_map_of_mem hl) rfl
    rw [changeOf?, leafAt?_eq_none_iff.mpr new]
    rfl
  have kept : front.filterMap (removalOf? (front ++ rest)) = [] := by
    refine List.filterMap_eq_nil_iff.mpr fun leaf hl => ?_
    refine Option.eq_none_iff_forall_ne_some.mpr fun c hc => (removalOf?_eq_some_iff.mp hc).1 ?_
    exact List.mem_map_of_mem (List.mem_append_left rest hl)
  rw [changesBy, List.filterMap_append, unchanged, added, kept, List.nil_append, List.append_nil]

/-! ### The root -/

/-- What takes part is decided by ignored patterns alone: missing values never do, nor does what
lies at or below a place that some pattern matches. -/
def Config.IsSelective (cfg : Config) : Prop :=
  cfg.accepts = acceptPresent ∨ ∃ patterns, cfg.accepts = Diff.ignoring patterns acceptPresent

/-- Missing values do not take part. So a hole in a list is no leaf. -/
theorem Config.IsSelective.accepts_missing (h : cfg.IsSelective) (p : Path) :
    cfg.accepts p .missing = false := by
  rcases h with h | ⟨patterns, h⟩
  · rw [h]
    rfl
  · rw [h, Diff.ignoring, acceptPresent]
    exact Bool.and_false _

/-- Of two values that are not missing, both take part or none does: all that is left to decide by
is the path. -/
theorem Config.IsSelective.accepts_congr (h : cfg.IsSelective) (p : Path) {w : Value}
    (hv : v.isMissing = false) (hw : w.isMissing = false) : cfg.accepts p v = cfg.accepts p w := by
  rcases h with h | ⟨patterns, h⟩
  · rw [h, acceptPresent, acceptPresent, hv, hw]
  · rw [h, Diff.ignoring, Diff.ignoring, acceptPresent, acceptPresent, hv, hw]

/-- The leaf that a tree shares with an empty one of its kind: itself, where it takes part and is
reported. -/
def rootLeaf (cfg : Config) (v : Value) : List Leaf :=
  if cfg.accepts Path.root v then ownLeaf cfg Path.root v else []

/-- The root of a tree is shown as a container, since a scalar at the root is not shared with an
empty tree. -/
theorem eq_of_mem_rootLeaf {leaf : Leaf} (h : leaf ∈ rootLeaf cfg v) :
    ∃ k, leaf = ⟨Path.root, .container k⟩ := by
  rw [rootLeaf] at h
  split at h
  · rw [ownLeaf] at h
    split at h
    · obtain ⟨k, -, rfl⟩ := Option.map_eq_some_iff.mp (Option.mem_toList.mp h)
      exact ⟨k, rfl⟩
    · exact absurd h (by simp)
  · exact absurd h (by simp)

/-- Only a container that is reported has its root as a leaf that an empty tree has, too. -/
theorem rootLeaf_eq_nil (h : (cfg.includeContainers && v.isContainer) = false) :
    rootLeaf cfg v = [] := by
  rw [rootLeaf, ownLeaf]
  rcases Bool.and_eq_false_iff.mp h with unreported | bare
  · simp [unreported]
  · rw [Value.isContainer, Option.isSome_eq_false_iff, Option.isNone_iff_eq_none] at bare
    simp [bare]

/-- **An empty tree has no leaf but its root.** Comparing to it thus finds all other leaves as
additions. -/
theorem leaves_emptyLike (hn : cfg.isAtomic? = none) (hs : cfg.IsSelective) (v : Value) :
    leaves cfg v.emptyLike = .ok (rootLeaf cfg v) := by
  have walkable : v.emptyLike.every isWalkable = true := by
    cases v <;> rfl
  obtain ⟨ls, hls⟩ := exists_leaves cfg walkable
  rw [hls, leaves_eq hls, leavesFrom_eq, rootLeaf]
  congr 1
  cases hk : v.kind? with
  | none =>
      have nothing : v.emptyLike = .missing := by rw [Value.emptyLike, hk]
      have unshown : ownLeaf cfg Path.root v = [] := by simp [ownLeaf, hk]
      rw [nothing, hs.accepts_missing, if_neg (by simp), unshown, ite_self]
  | some k =>
      have start : v.emptyLike = .empty k := by rw [Value.emptyLike, hk]
      have kind : (Value.empty k).kind? = some k := by cases k <;> rfl
      have present : v.isMissing = false := by
        cases v <;> first | rfl | exact absurd hk (by simp [Value.kind?])
      have walked : cfg.isLeaf Path.root (.empty k) = false := by
        simp only [Config.isLeaf, askAtomic, hn, Bool.or_false]
        cases k <;> rfl
      have bottom : leavesBelow cfg Path.root (Value.empty k).steps = [] := by
        cases k <;> rfl
      have accepts := hs.accepts_congr Path.root (w := .empty k) present (by cases k <;> rfl)
      rw [start, accepts, walked, bottom, List.append_nil, ownLeaf, ownLeaf, kind, hk]
      rfl

/-- **The leaves of a tree** are the one that it shares with an empty tree, and others, which are
below the root of a container. -/
theorem exists_leavesFrom_root (hn : cfg.isAtomic? = none) (v : Value) :
    ∃ rest, leavesFrom cfg Path.root v = rootLeaf cfg v ++ rest ∧
      (v.isContainer = true → ∀ leaf ∈ rest, leaf.path ≠ Path.root) := by
  rw [leavesFrom_eq, rootLeaf]
  split
  · split
    · next atomic =>
        have scalar : v.isPrimitive = true := by simpa [Config.isLeaf, askAtomic, hn] using atomic
        have bare := Value.kind?_of_isPrimitive scalar
        refine ⟨[⟨Path.root, .atomic v⟩], by simp [ownLeaf, bare], fun container => ?_⟩
        exact absurd container (by simp [Value.isContainer, bare])
    · refine ⟨_, rfl, fun _ leaf hl root => ?_⟩
      obtain ⟨⟨c, w⟩, -, hl⟩ := List.mem_flatMap.mp hl
      have below := isPrefix_of_mem_leavesFrom hl
      rw [root] at below
      exact absurd below.length_le (by simp [Path.root])
  · exact ⟨[], rfl, fun _ => by simp⟩

/-! ### The paths of a tree -/

/-- A comparison to an empty tree fails as the walk over the tree does, with the same fault, since
the walk over the empty tree cannot fail. -/
theorem allPaths_eq (hn : cfg.isAtomic? = none) (hs : cfg.IsSelective) (hk : v.WellKeyed) :
    allPaths cfg v =
      (leaves cfg v).map fun ls => (changesBy cfg (rootLeaf cfg v) ls).map Change.path := by
  have empty_keyed : v.emptyLike.WellKeyed := by cases v <;> rfl
  have before := leaves_emptyLike hn hs v
  rw [allPaths, changedPaths, changeset, changeTable, before]
  cases hls : leaves cfg v with
  | error fault => rfl
  | ok ls =>
      have table := tableOf_eq cfg (nodup_leaves before empty_keyed) (nodup_leaves hls hk)
      show Except.ok _ = Except.ok _
      rw [table, keyed_snd]

/-- **What is new in a tree against an empty one** are its leaves, without the root of a container
that is reported. -/
theorem paths_changesBy_rootLeaf (hn : cfg.isAtomic? = none) (hk : v.WellKeyed) {ls : List Leaf}
    (hls : leaves cfg v = .ok ls) :
    (changesBy cfg (rootLeaf cfg v) ls).map Change.path =
      (ls.map Leaf.path).filter fun p =>
        !(cfg.includeContainers && v.isContainer && p == Path.root) := by
  have nodup := nodup_leaves hls hk
  obtain ⟨rest, hrest, below⟩ := exists_leavesFrom_root hn v
  rw [← leaves_eq hls] at hrest
  have same : ∀ leaf ∈ rootLeaf cfg v, leaf.content.equal cfg leaf.path leaf.content = true := by
    intro leaf hl
    obtain ⟨k, rfl⟩ := eq_of_mem_rootLeaf hl
    exact beq_self_eq_true k
  have paths : (rest.map addition).map Change.path = rest.map Leaf.path := List.map_map
  rw [hrest, changesBy_front (hrest ▸ nodup) same, paths, List.map_append, List.filter_append]
  cases reported : cfg.includeContainers && v.isContainer with
  | false => simp [rootLeaf_eq_nil reported]
  | true =>
      have left_out : ((rootLeaf cfg v).map Leaf.path).filter (fun p => !(true && p == Path.root)) =
          [] := by
        refine List.filter_eq_nil_iff.mpr fun p hp => ?_
        obtain ⟨leaf, hl, rfl⟩ := List.mem_map.mp hp
        obtain ⟨k, rfl⟩ := eq_of_mem_rootLeaf hl
        simp
      rw [left_out, List.nil_append, List.filter_eq_self.mpr]
      intro p hp
      obtain ⟨leaf, hl, rfl⟩ := List.mem_map.mp hp
      simp [below (Bool.and_eq_true_iff.mp reported).2 leaf hl]

/-- Only the root has the text of the root. This lets the key of the root be told by its text in a
table of changes. -/
theorem render_beq_root (p : Path) : (p.render == "$") = (p == Path.root) := by
  have text : Path.root.render = "$" := by decide
  rw [← text, Bool.eq_iff_iff, beq_iff_eq, beq_iff_eq]
  exact Path.render_inj

/-- **Where containers are not reported** a leaf has the value that its path resolves to. A reported
container is shown empty and would not do. -/
theorem get_of_mem_leaves (hn : cfg.isAtomic? = none) (hc : cfg.includeContainers = false)
    (hk : v.WellKeyed) {ls : List Leaf} (hls : leaves cfg v = .ok ls) {leaf : Leaf}
    (hl : leaf ∈ ls) : leaf.path.get v .missing = leaf.content.value := by
  obtain ⟨w, hw, shows⟩ := exists_find?_of_mem_leaves hk hls hl
  cases hx : leaf.content with
  | atomic x =>
      obtain rfl : x = w := by rwa [hx] at shows
      exact Path.get_of_find? hw
  | container k =>
      have container : leaf.content.value.isContainer = true := by
        rw [hx]
        cases k <;> rfl
      rw [leaves_eq hls] at hl
      exact absurd (exists_kind_of_isContainer hn hl container).1 (by simp [hc])

/-- **The paths of a tree are the paths of its leaves**, without the root of a container that is
reported, and cannot be found when the leaves cannot. Where containers are not reported, every leaf
is what its path resolves to, read back from its text. -/
theorem allPaths_exact (cfg : Config) (v : Value) (hn : cfg.isAtomic? = none)
    (hs : cfg.IsSelective) (hk : v.WellKeyed) :
    (∀ fault, allPaths cfg v = .error fault ↔ leafNodes cfg v = .error fault) ∧
      ∀ nodes, leafNodes cfg v = .ok nodes →
        (nodes.map fun n => n.1.render).Nodup ∧
        (∃ paths, allPaths cfg v = .ok paths ∧
          paths.map Path.render = (nodes.map fun n => n.1.render).filter fun key =>
            !(cfg.includeContainers && v.isContainer && key == "$")) ∧
        (cfg.includeContainers = false → ∀ n ∈ nodes, ∃ p, Path.parse n.1.render = .ok p ∧
          p.get v .missing = n.2) := by
  rw [allPaths_eq hn hs hk, leafNodes]
  refine ⟨fun fault => map_eq_error_iff.trans map_eq_error_iff.symm, fun nodes hnodes => ?_⟩
  obtain ⟨ls, hls, rfl⟩ := map_eq_ok_iff.mp hnodes
  have keys : ((ls.map fun leaf => (leaf.path, leaf.content.value)).map fun n => n.1.render) =
      (ls.map Leaf.path).map Path.render := by
    rw [List.map_map, List.map_map]
    rfl
  rw [keys]
  have distinct := (nodup_leaves hls hk).map fun p q h => Path.render_inj.mp h
  refine ⟨distinct, ⟨_, by rw [hls]; rfl, ?_⟩, fun unreported n hn' => ?_⟩
  · show ((changesBy cfg (rootLeaf cfg v) ls).map Change.path).map Path.render = _
    rw [paths_changesBy_rootLeaf hn hk hls, List.filter_map (f := Path.render)]
    refine congrArg _ (List.filter_congr fun p _ => ?_)
    rw [Function.comp_apply, render_beq_root]
  · obtain ⟨leaf, hl, rfl⟩ := List.mem_map.mp hn'
    exact ⟨leaf.path, Path.parse_render _, get_of_mem_leaves hn unreported hk hls hl⟩

/-- A list with a hole, an empty dictionary and an ignored entry, with containers reported. -/
theorem allPaths_exact_ignored :
    leafNodes (Config.ignoring { includeContainers := true } [[.property "b"]])
        (.dict [(.str "a", .list [.missing, .int 5]), (.str "b", .int 2), (.str "c", .dict [])]) =
      .ok [([], .dict []), ([.property "a"], .list []), ([.property "a", .index 1], .int 5),
        ([.property "c"], .dict [])] ∧
    ∃ paths, allPaths (Config.ignoring { includeContainers := true } [[.property "b"]])
        (.dict [(.str "a", .list [.missing, .int 5]), (.str "b", .int 2), (.str "c", .dict [])]) =
      .ok paths ∧ paths.map Path.render = ["$.a", "$.a[1]", "$.c"] := by
  have nodes : leafNodes (Config.ignoring { includeContainers := true } [[.property "b"]])
        (.dict [(.str "a", .list [.missing, .int 5]), (.str "b", .int 2), (.str "c", .dict [])]) =
      .ok [([], .dict []), ([.property "a"], .list []), ([.property "a", .index 1], .int 5),
        ([.property "c"], .dict [])] := by
    rfl
  have exact := allPaths_exact (Config.ignoring { includeContainers := true } [[.property "b"]])
    (.dict [(.str "a", .list [.missing, .int 5]), (.str "b", .int 2), (.str "c", .dict [])])
    rfl (.inr ⟨_, rfl⟩) (by decide)
  obtain ⟨paths, hpaths, keys⟩ := (exact.2 _ nodes).2.1
  exact ⟨nodes, paths, hpaths, keys.trans (by decide)⟩

end TreeDelta.Diff
