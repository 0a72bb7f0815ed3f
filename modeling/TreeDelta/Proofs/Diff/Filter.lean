import Mathlib
import TreeDelta.Proofs.Diff.Ignore
import TreeDelta.Proofs.Pattern.Cover

/-!
# Ignoring commutes with diffing

An ignore filter stops a walk at ignored places, whatever the other options of the diff are. What
lies below an ignored place is ignored, too, so a walk under the filter finds the leaves that are
not ignored, in the same order (`Diff.leavesFrom_filter`), and it ends where the walk without the
filter does (`Diff.exists_walk_ignoring`). A leaf only meets the leaf at its own path, so that the
changes under the filter are the changes at the places that are not ignored
(`Diff.changeTable_ignoring`).

## Main results

* `Diff.leavesFrom_filter`: the leaves under an ignore filter.
* `Diff.changesBy_filter`: the changes between the leaves at some paths.
* `Diff.changeTable_ignoring`: a changeset under an ignore filter.
-/

namespace TreeDelta.Diff

variable {cfg : Config} {patterns : List Pattern}

/-! ### Leaves under an ignore filter -/

/-- What lies below an ignored place is ignored, so that a walk may stop there. -/
theorem isIgnored_of_isPrefix {p q : Path} (hpq : p <+: q) (h : isIgnored patterns p = true) :
    isIgnored patterns q = true := by
  obtain ⟨m, hm, covered⟩ := List.any_eq_true.mp h
  exact List.any_eq_true.mpr ⟨m, hm, Pattern.covers_of_isPrefix hpq covered⟩

/-- An ignored value does not take part. -/
theorem accepts_ignoring_of_isIgnored {p : Path} (h : isIgnored patterns p = true) (v : Value) :
    (cfg.ignoring patterns).accepts p v = false := by
  rw [isIgnored] at h
  simp only [Config.ignoring, ignoring, h, Bool.not_true, Bool.false_and]

/-- A value that is not ignored takes part when it does so without the filter. -/
theorem accepts_ignoring {p : Path} (h : isIgnored patterns p = false) (v : Value) :
    (cfg.ignoring patterns).accepts p v = cfg.accepts p v := by
  rw [isIgnored] at h
  simp only [Config.ignoring, ignoring, h, Bool.not_false, Bool.true_and]

/-- **The leaves under an ignore filter** are the leaves at the places that are not ignored. A
subtree that is left out as a whole has no leaves at other places. -/
theorem leavesFrom_filter (p : Path) (v : Value) :
    leavesFrom (cfg.ignoring patterns) p v =
      (leavesFrom cfg p v).filter fun leaf => !isIgnored patterns leaf.path := by
  induction v using Value.stepInduction generalizing p with
  | step v ih =>
      cases hr : isIgnored patterns p with
      | true =>
          have nothing : ∀ leaf ∈ leavesFrom cfg p v, ¬(!isIgnored patterns leaf.path) = true := by
            intro leaf hl
            simp [isIgnored_of_isPrefix (isPrefix_of_mem_leavesFrom hl) hr]
          rw [leavesFrom_eq, accepts_ignoring_of_isIgnored hr, List.filter_eq_nil_iff.mpr nothing]
          rfl
      | false =>
          have leaf : (cfg.ignoring patterns).isLeaf p v = cfg.isLeaf p v := rfl
          have own : ownLeaf (cfg.ignoring patterns) p v =
              (ownLeaf cfg p v).filter fun leaf => !isIgnored patterns leaf.path := by
            refine (List.filter_eq_self.mpr fun l hl => ?_).symm
            rw [ownLeaf] at hl
            split at hl
            · obtain ⟨k, -, rfl⟩ := Option.map_eq_some_iff.mp (Option.mem_toList.mp hl)
              simp [hr]
            · exact absurd hl (by simp)
          have below : leavesBelow (cfg.ignoring patterns) p v.steps =
              (leavesBelow cfg p v.steps).filter fun leaf => !isIgnored patterns leaf.path := by
            rw [leavesBelow, leavesBelow, List.filter_flatMap]
            exact List.flatMap_congr fun s hs => ih s.1 s.2 hs (p ++ [s.1])
          rw [leavesFrom_eq, leavesFrom_eq cfg, accepts_ignoring hr, leaf, own, below]
          split
          · split
            · simp [hr]
            · rw [List.filter_append]
          · rfl

/-- **A walk under an ignore filter ends** where the walk without it does: it looks at less, and at
nothing else. -/
theorem exists_walk_ignoring (patterns : List Pattern) {p : Path} {v : Value}
    (h : ∃ ss, walk cfg p v = .ok ss) :
    ∃ ss, walk (cfg.ignoring patterns) p v = .ok ss := by
  induction v using Value.stepInduction generalizing p with
  | step v ih =>
      rw [exists_walk_iff] at h ⊢
      cases hr : isIgnored patterns p with
      | true => exact .inl (accepts_ignoring_of_isIgnored hr v)
      | false =>
          rcases h with rejected | leaf | ⟨container, strings, below⟩
          · exact .inl ((accepts_ignoring hr v).trans rejected)
          · exact .inr (.inl leaf)
          · exact .inr (.inr ⟨container, strings, fun c w hw => ih c w hw (below c w hw)⟩)

/-- The leaves that a walk under an ignore filter finds. -/
theorem leaves_filter (patterns : List Pattern) {v : Value} {ls : List Leaf}
    (h : leaves cfg v = .ok ls) :
    leaves (cfg.ignoring patterns) v =
      .ok (ls.filter fun leaf => !isIgnored patterns leaf.path) := by
  obtain ⟨ss, hss, -⟩ := map_eq_ok_iff.mp h
  obtain ⟨ss', hss'⟩ := exists_walk_ignoring patterns ⟨ss, hss⟩
  have found : leaves (cfg.ignoring patterns) v = .ok (ss'.filterMap Step.leaf?) := by
    rw [leaves, hss']
    rfl
  rw [found, leaves_eq found, leaves_eq h, leavesFrom_filter]

/-! ### Changes at some paths -/

/-- The leaf at a path is found among the leaves at kept paths when the path is kept, whatever
became of the others. -/
theorem leafAt?_filter {keep : Path → Bool} {p : Path} (hp : keep p = true) (ls : List Leaf) :
    leafAt? p (ls.filter fun leaf => keep leaf.path) = leafAt? p ls := by
  rw [leafAt?, leafAt?, List.find?_filter]
  congr 1
  funext leaf
  by_cases he : leaf.path = p
  · simp [he, hp]
  · simp [he]

/-- Leaves at kept paths make changes at kept paths. -/
theorem filterMap_filter_path (keep : Path → Bool) {f g : Leaf → Option Change}
    (hf : ∀ leaf c, f leaf = some c → c.path = leaf.path)
    (hg : ∀ leaf, keep leaf.path = true → g leaf = f leaf) (ls : List Leaf) :
    (ls.filter fun leaf => keep leaf.path).filterMap g =
      (ls.filterMap f).filter fun c => keep c.path := by
  induction ls with
  | nil => rfl
  | cons leaf ls ih =>
      rw [List.filter_cons, List.filterMap_cons]
      cases hk : keep leaf.path with
      | true =>
          rw [if_pos rfl, List.filterMap_cons, hg leaf hk]
          cases hc : f leaf with
          | none => exact ih
          | some c =>
              have kept : keep c.path = true := by rw [hf leaf c hc, hk]
              rw [List.filter_cons, if_pos kept]
              exact congrArg (List.cons c) ih
      | false =>
          rw [if_neg (by simp)]
          cases hc : f leaf with
          | none => exact ih
          | some c =>
              have dropped : ¬keep c.path = true := by rw [hf leaf c hc, hk]; simp
              rw [List.filter_cons, if_neg dropped]
              exact ih

/-- **The changes between the leaves at kept paths** are the changes at kept paths. This holds for
any choice of paths, not only for one that patterns make. -/
theorem changesBy_filter (cfg : Config) (keep : Path → Bool) (old new : List Leaf) :
    changesBy cfg (old.filter fun leaf => keep leaf.path) (new.filter fun leaf => keep leaf.path) =
      (changesBy cfg old new).filter fun c => keep c.path := by
  have updated : ∀ leaf, keep leaf.path = true →
      changeOf? cfg (old.filter fun leaf => keep leaf.path) leaf = changeOf? cfg old leaf := by
    intro leaf hk
    rw [changeOf?, changeOf?, leafAt?_filter hk]
  have removed : ∀ leaf, keep leaf.path = true →
      removalOf? (new.filter fun leaf => keep leaf.path) leaf = removalOf? new leaf := by
    intro leaf hk
    rw [removalOf?, removalOf?, leafAt?_filter hk]
  rw [changesBy, changesBy, List.filter_append,
    filterMap_filter_path keep (fun _ _ => path_of_changeOf?) updated,
    filterMap_filter_path keep (fun _ _ hc => (removalOf?_eq_some_iff.mp hc).2 ▸ rfl) removed]

/-! ### Changesets under an ignore filter -/

/-- **Ignoring commutes with diffing**: if two trees have a changeset, they have one under an ignore
filter, too, and it has the entries at the places that no pattern covers, in the same order. -/
theorem changeTable_ignoring (patterns : List Pattern) {before after : Value}
    {table : Table Change} (hb : before.WellKeyed) (ha : after.WellKeyed)
    (h : changeTable cfg before after = .ok table) :
    changeTable (cfg.ignoring patterns) before after =
      .ok (table.filter fun e => !patterns.any fun m => m.covers e.2.path) := by
  obtain ⟨old, new, hold, hnew, old_nodup, new_nodup, rfl⟩ := exists_leaves_of_changeTable hb ha h
  have some_left : ∀ ls : List Leaf, (ls.map Leaf.path).Nodup →
      ((ls.filter fun leaf => !isIgnored patterns leaf.path).map Leaf.path).Nodup :=
    fun ls hls => hls.sublist (List.filter_sublist.map Leaf.path)
  have compared : tableOf (cfg.ignoring patterns)
      (old.filter fun leaf => !isIgnored patterns leaf.path)
      (new.filter fun leaf => !isIgnored patterns leaf.path) =
        keyed Change.path ((changesBy cfg old new).filter fun c => !isIgnored patterns c.path) := by
    rw [tableOf_eq _ (some_left old old_nodup) (some_left new new_nodup)]
    exact congrArg _ (changesBy_filter cfg (fun p => !isIgnored patterns p) old new)
  rw [changeTable, leaves_filter patterns hold, leaves_filter patterns hnew]
  show Except.ok (tableOf _ _ _) = _
  rw [compared, keyed, keyed, List.filter_map]
  rfl

/-- A tuple counts as one atomic value and containers are reported; an item of a list and a
dictionary that gives way to null are ignored. -/
theorem changeTable_ignoring_item :
    let cfg : Config := {
      accepts := fun p v => !v.isMissing && p.length ≤ 2
      isAtomic? := some fun v _ => v.typeName == "tuple"
      includeContainers := true }
    let patterns : List Pattern := [[.anyProperty, .index 1], [.property "b"]]
    let before : Value := .dict [(.str "a", .list [.int 1, .tuple [.int 5]]),
      (.str "b", .dict [(.str "c", .int 1)])]
    let after : Value := .dict [(.str "b", .null), (.str "a", .list [.int 2]), (.str "d", .int 3)]
    let replaced : String × Change :=
      ("$.a[0]", ⟨[.property "a", .index 0], some (.int 1), some (.int 2), false⟩)
    let added : String × Change := ("$.d", ⟨[.property "d"], none, some (.int 3), false⟩)
    let table : Table Change :=
      [("$.b", ⟨[.property "b"], some (.dict []), some .null, false⟩), replaced, added,
        ("$.a[1]", ⟨[.property "a", .index 1], some (.tuple [.int 5]), none, false⟩),
        ("$.b.c", ⟨[.property "b", .property "c"], some (.int 1), none, false⟩)]
    before.WellKeyed ∧ after.WellKeyed ∧ changeTable cfg before after = .ok table ∧
      changeTable (cfg.ignoring patterns) before after = .ok [replaced, added] := by
  intro cfg patterns before after replaced added table
  have hb : before.WellKeyed := by decide
  have ha : after.WellKeyed := by decide
  have h : changeTable cfg before after = .ok table := by cbv
  have left : (table.filter fun e => !patterns.any fun m => m.covers e.2.path) =
      [replaced, added] := rfl
  refine ⟨hb, ha, h, ?_⟩
  rw [changeTable_ignoring patterns hb ha h, left]

end TreeDelta.Diff
