import Mathlib
import TreeDelta.Proofs.Diff.Filter

/-!
# Diffing is local

With the default predicates it does not matter where a tree stands. The leaves of a subtree are the
leaves of the whole tree at or below its place, in the same order, with paths that start there
(`Diff.filter_leavesFrom`), and whether two leaves make a change depends on what they show alone. So
the changes between two subtrees at one place are the changes between the whole trees at or below
that place (`Diff.changeset_subtree`). Other changes of the whole trees neither add to them nor take
from them.

## Main definitions

* `Leaf.below`, `Change.below`: a leaf or a change of a subtree, seen from the whole tree.

## Main results

* `Diff.filter_leavesFrom`: the leaves of a subtree.
* `Diff.changesBy_below`: the changes between leaves that were moved to one place.
* `Diff.changeset_subtree`: the changeset of two subtrees at one place.
-/

namespace TreeDelta

/-- A change of the subtree at a path as a change of the whole tree: the same values at the path of
the change below that path. -/
def Change.below (p : Path) (c : Change) : Change := { c with path := c.path.relocate p }

namespace Diff

/-- A leaf of the subtree at a path as a leaf of the whole tree, with what is shown there
unchanged. -/
def Leaf.below (p : Path) (leaf : Leaf) : Leaf := { leaf with path := leaf.path.relocate p }

variable {b : Bool} {p q : Path} {v w : Value}

/-! ### Walks over subtrees -/

/-- A walk with the default predicates ends wherever the tree stands, since these predicates look at
values alone and not at their paths. -/
theorem exists_walk_moved (h : ∃ ss, walk { includeContainers := b } p v = .ok ss) (q : Path) :
    ∃ ss, walk { includeContainers := b } q v = .ok ss := by
  induction v using Value.stepInduction generalizing p q with
  | step v ih =>
      rw [exists_walk_iff] at h ⊢
      rcases h with rejected | leaf | ⟨container, strings, below⟩
      · exact .inl rejected
      · exact .inr (.inl leaf)
      · exact .inr (.inr ⟨container, strings, fun c w hs => ih c w hs (below c w hs) (q ++ [c])⟩)

/-- A value with something one step down takes part in a diff, and is no scalar. So a walk from the
root does not stop above a place that is there. -/
theorem accepts_of_child? {c : Component} (h : v.child? c = some w) :
    acceptPresent p v = true ∧ Config.isLeaf { includeContainers := b } p v = false := by
  cases v <;> first | exact ⟨rfl, rfl⟩ | exact absurd h (by simp [Value.child?])

/-- A walk over a tree walks over every subtree, and is not stopped there if it was not stopped in
the whole tree. -/
theorem exists_walk_subtree (keyed : v.WellKeyed)
    (h : ∃ ss, walk { includeContainers := b } q v = .ok ss) (hw : p.find? v = some w) :
    ∃ ss, walk { includeContainers := b } (q ++ p) w = .ok ss := by
  induction p generalizing q v with
  | nil =>
      obtain rfl := Option.some.inj hw
      rwa [List.append_nil]
  | cons c p ih =>
      rw [Value.find?_cons, Option.bind_eq_some_iff] at hw
      obtain ⟨u, hu, hw⟩ := hw
      have hs := (Value.child?_eq_some_iff keyed.hasUniqueKeys).mp hu
      obtain ⟨accepted, bare⟩ := @accepts_of_child? b q v u c hu
      rcases exists_walk_iff.mp h with rejected | leaf | ⟨-, -, below⟩
      · exact absurd (rejected.symm.trans accepted) (by simp)
      · exact absurd (leaf.symm.trans bare) (by simp)
      · have walked := ih (keyed.step hs) (below c u hs) hw
        rwa [List.append_assoc, List.singleton_append] at walked

/-- The leaves of a subtree are found when those of the whole tree are. The converse fails: there
may be something in the rest of the tree that cannot be walked. -/
theorem exists_leaves_subtree {ls : List Leaf} (keyed : v.WellKeyed)
    (h : leaves { includeContainers := b } v = .ok ls) (hw : p.find? v = some w) :
    leaves { includeContainers := b } w =
      .ok (leavesFrom { includeContainers := b } Path.root w) := by
  obtain ⟨ss, hss, -⟩ := map_eq_ok_iff.mp h
  obtain ⟨ts, hts⟩ := exists_walk_moved (exists_walk_subtree keyed ⟨ss, hss⟩ hw) Path.root
  rw [leaves, hts, ← leaves_of_walk hts]
  rfl

/-! ### Leaves of subtrees -/

/-- The leaves of a tree at a path are its leaves at the root, moved to the path. The walk carries
its path along and decides nothing by it. -/
theorem leavesFrom_below (b : Bool) (p : Path) (v : Value) :
    leavesFrom { includeContainers := b } p v =
      (leavesFrom { includeContainers := b } Path.root v).map (Leaf.below p) := by
  rw [leavesFrom_default, leavesFrom_default, List.map_filterMap]
  congr 1
  funext n
  rw [leafOf?, leafOf?, Option.map_map]
  rfl

/-- Only one member of a list without repeats gives anything. The list is that of the steps of a
container, one of which leads to the subtree. -/
theorem flatMap_eq_of_mem {α β : Type} {l : List α} {a : α} {f : α → List β} (nodup : l.Nodup)
    (ha : a ∈ l) (others : ∀ x ∈ l, x ≠ a → f x = []) : l.flatMap f = f a := by
  obtain ⟨l₁, l₂, rfl⟩ := List.append_of_mem ha
  rw [List.nodup_append, List.nodup_cons] at nodup
  obtain ⟨-, ⟨fresh, -⟩, apart⟩ := nodup
  have before : l₁.flatMap f = [] := List.flatMap_eq_nil_iff.mpr fun x hx =>
    others x (by simp [hx]) (apart x hx a (by simp))
  have after : l₂.flatMap f = [] := List.flatMap_eq_nil_iff.mpr fun x hx =>
    others x (by simp [hx]) fun he => fresh (he ▸ hx)
  rw [List.flatMap_append, List.flatMap_cons, before, after, List.nil_append, List.append_nil]

/-- **The leaves of a subtree** are the leaves of the whole tree at or below its place. -/
theorem filter_leavesFrom (keyed : v.WellKeyed) (hw : p.find? v = some w) :
    (leavesFrom { includeContainers := b } q v).filter (fun leaf =>
      (q ++ p).isPrefixOf leaf.path) = leavesFrom { includeContainers := b } (q ++ p) w := by
  induction p generalizing q v with
  | nil =>
      obtain rfl := Option.some.inj hw
      rw [List.append_nil]
      exact List.filter_eq_self.mpr fun leaf hl =>
        List.isPrefixOf_iff_prefix.mpr (isPrefix_of_mem_leavesFrom hl)
  | cons c p ih =>
      rw [Value.find?_cons, Option.bind_eq_some_iff] at hw
      obtain ⟨u, hu, hw⟩ := hw
      have hs := (Value.child?_eq_some_iff keyed.hasUniqueKeys).mp hu
      obtain ⟨accepted, bare⟩ := @accepts_of_child? b q v u c hu
      have split : q ++ c :: p = (q ++ [c]) ++ p := by simp
      -- the container itself stands above the place
      have own : (ownLeaf { includeContainers := b } q v).filter
          (fun leaf => (q ++ c :: p).isPrefixOf leaf.path) = [] := by
        refine List.filter_eq_nil_iff.mpr fun leaf hl hp => ?_
        rw [ownLeaf] at hl
        split at hl
        · obtain ⟨k, -, rfl⟩ := Option.map_eq_some_iff.mp (Option.mem_toList.mp hl)
          exact absurd (List.isPrefixOf_iff_prefix.mp hp).length_le (by simp)
        · exact absurd hl (by simp)
      -- and what is below another step stands beside it
      have others : ∀ s ∈ v.steps, s ≠ (c, u) →
          (leavesFrom { includeContainers := b } (q ++ [s.1]) s.2).filter
            (fun leaf => (q ++ c :: p).isPrefixOf leaf.path) = [] := by
        rintro ⟨d, x⟩ hx hne
        refine List.filter_eq_nil_iff.mpr fun leaf hl hp => hne ?_
        rw [split] at hp
        have place := List.isPrefixOf_iff_prefix.mp hp
        obtain rfl := eq_of_isPrefix ((List.prefix_append _ p).trans place)
          (isPrefix_of_mem_leavesFrom hl)
        rw [Value.steps_unique keyed.hasUniqueKeys hx hs]
      have nodup : v.steps.Nodup := (Value.nodup_steps keyed.hasUniqueKeys).of_map
      rw [leavesFrom_eq, if_pos accepted, bare, if_neg (by simp), List.filter_append, own,
        List.nil_append, leavesBelow, List.filter_flatMap, flatMap_eq_of_mem nodup hs others, split]
      exact ih (keyed.step hs) hw

/-! ### Changes between leaves at one place -/

/-- A leaf is found at its new place when it is found at its old one, since moving paths keeps
different paths different. -/
theorem leafAt?_below (p q : Path) (ls : List Leaf) :
    leafAt? (q.relocate p) (ls.map (Leaf.below p)) = (leafAt? q ls).map (Leaf.below p) := by
  rw [leafAt?, leafAt?, List.find?_map]
  congr 2
  funext leaf
  simp [Leaf.below, Path.relocate]

/-- The change of a new leaf moves with the leaves, whether it is an addition, a replacement or
none. -/
theorem changeOf?_below (p : Path) (old : List Leaf) (leaf : Leaf) :
    changeOf? { includeContainers := b } (old.map (Leaf.below p)) (leaf.below p) =
      (changeOf? { includeContainers := b } old leaf).map (Change.below p) := by
  have found := leafAt?_below p leaf.path old
  rw [changeOf?, changeOf?, show (leaf.below p).path = leaf.path.relocate p from rfl, found]
  cases leafAt? leaf.path old with
  | none => rfl
  | some before =>
      simp only [Option.map_some, Leaf.below, equal_default]
      cases before.content.agrees leaf.content <;> rfl

/-- The change of an old leaf moves with the leaves: it is a removal unless there is a new leaf at
its path. -/
theorem removalOf?_below (p : Path) (new : List Leaf) (leaf : Leaf) :
    removalOf? (new.map (Leaf.below p)) (leaf.below p) =
      (removalOf? new leaf).map (Change.below p) := by
  have found := leafAt?_below p leaf.path new
  rw [removalOf?, removalOf?, show (leaf.below p).path = leaf.path.relocate p from rfl, found]
  cases leafAt? leaf.path new <;> rfl

/-- **The changes between leaves that were moved to one place** are the changes between the leaves,
moved there. -/
theorem changesBy_below (p : Path) (old new : List Leaf) :
    changesBy { includeContainers := b } (old.map (Leaf.below p)) (new.map (Leaf.below p)) =
      (changesBy { includeContainers := b } old new).map (Change.below p) := by
  rw [changesBy, changesBy, List.map_append, List.filterMap_map, List.filterMap_map,
    List.map_filterMap, List.map_filterMap]
  congr 1
  · exact List.filterMap_congr fun leaf _ => changeOf?_below p old leaf
  · exact List.filterMap_congr fun leaf _ => removalOf?_below p new leaf

/-! ### Changesets of subtrees -/

/-- **Diffing is local**: where two trees have a changeset with the default predicates and a path
resolves to something in both, the two subtrees there have one, too, and its changes, seen from the
whole trees, are the changes of the whole trees at or below the path, in the same order. -/
theorem changeset_subtree {before after : Value} {changes : List Change} (hb : before.WellKeyed)
    (ha : after.WellKeyed) (h : changeset { includeContainers := b } before after = .ok changes)
    (hv : p.find? before = some v) (there : v.isMissing = false)
    (hw : p.find? after = some w) (there' : w.isMissing = false) :
    ∃ inside, changeset { includeContainers := b } (p.get before .null) (p.get after .null) =
        .ok inside ∧
      inside.map (fun c => { c with path := c.path.relocate p }) =
        changes.filter fun c => p.isPrefixOf c.path := by
  obtain ⟨old, new, hold, hnew, rfl⟩ := exists_leaves_of_changeset hb ha h
  have subtree : ∀ {t u : Value} {ls : List Leaf}, t.WellKeyed → p.find? t = some u →
      leaves { includeContainers := b } t = .ok ls →
      ls.filter (fun leaf => p.isPrefixOf leaf.path) =
        (leavesFrom { includeContainers := b } Path.root u).map (Leaf.below p) := by
    intro t u ls keyed hu hls
    rw [leaves_eq hls, ← leavesFrom_below]
    exact filter_leavesFrom (q := Path.root) keyed hu
  have keyed_v : v.WellKeyed := Value.every_of_find? hb hb hv
  have keyed_w : w.WellKeyed := Value.every_of_find? ha ha hw
  have leaves_v := exists_leaves_subtree hb hold hv
  have leaves_w := exists_leaves_subtree ha hnew hw
  refine ⟨changesBy { includeContainers := b } (leavesFrom { includeContainers := b } Path.root v)
    (leavesFrom { includeContainers := b } Path.root w), ?_, ?_⟩
  · have get_v : p.get before .null = v := by rw [Path.get, hv]; exact if_neg (by simp [there])
    have get_w : p.get after .null = w := by rw [Path.get, hw]; exact if_neg (by simp [there'])
    rw [get_v, get_w, changeset, changeTable, leaves_v, leaves_w]
    exact congrArg Except.ok
      (changesOf_eq _ (nodup_leaves leaves_v keyed_v) (nodup_leaves leaves_w keyed_w))
  · rw [← changesBy_filter, subtree hb hv hold, subtree ha hw hnew, changesBy_below]
    rfl

/-- A list becomes a dictionary under the numerals of its items, next to a place whose text looks
like one of theirs and below a dictionary that is compared as well. -/
theorem changeset_subtree_numeral :
    let cfg : Config := { includeContainers := true }
    let before : Value := .dict [(.str "a", .dict [(.str "b", .list [.int 1, .list []])]),
      (.str "0", .int 5), (.str "gone", .null)]
    let after : Value := .dict [(.str "0", .int 6),
      (.str "a", .dict [(.str "c", .bool true), (.str "b", .dict [(.str "0", .int 1)])])]
    let p : Path := [.property "a", .property "b"]
    let inside : List Change := [⟨[], some (.list []), some (.dict []), false⟩,
      ⟨[.property "0"], none, some (.int 1), false⟩, ⟨[.index 0], some (.int 1), none, false⟩,
      ⟨[.index 1], some (.list []), none, false⟩]
    let moved : List Change := inside.map fun c => { c with path := c.path.relocate p }
    let changes : List Change := [⟨[.property "0"], some (.int 5), some (.int 6), false⟩,
      ⟨[.property "a", .property "c"], none, some (.bool true), false⟩] ++ moved.take 2 ++
      moved.drop 2 ++ [⟨[.property "gone"], some .null, none, false⟩]
    before.WellKeyed ∧ after.WellKeyed ∧ changeset cfg before after = .ok changes ∧
      changeset cfg (p.get before .null) (p.get after .null) = .ok inside ∧
      changes.filter (fun c => p.isPrefixOf c.path) = moved := by
  intro cfg before after p inside moved changes
  have hb : before.WellKeyed := by decide
  have ha : after.WellKeyed := by decide
  have h : changeset cfg before after = .ok changes := by cbv
  obtain ⟨found, hfound, place⟩ := changeset_subtree (p := p) hb ha h rfl rfl rfl rfl
  have run : changeset cfg (p.get before .null) (p.get after .null) = .ok inside := by cbv
  obtain rfl := Except.ok.inj (hfound.symm.trans run)
  exact ⟨hb, ha, h, hfound, place.symm⟩

end Diff

end TreeDelta
